import Vilan.Lsp.Schedule

/-!
# Runs of the analysis scheduler

A run does what it is to do exactly when no call of it mistakes a generation or a ticket of an entry
that a `close` removed for one of the entry made since.
-/

namespace Vilan.Lsp

open List Option Function

/-! ### One more call -/

section

variable {Url : Type*} {calls : List (Op Url)} {op : Op Url} {uri : Url} {position : ℕ}

theorem getElem_snoc_iff {other : Op Url} :
  (calls ++ [op])[position]? = some other ↔
    calls[position]? = some other ∨ position = calls.length ∧ op = other
  := by
  rcases Nat.lt_trichotomy position calls.length with lt | rfl | gt
  · rw [getElem?_append_left lt]
    have : position ≠ calls.length := by omega
    simp [this]
  · rw [getElem?_append_right (Nat.le_refl _)]
    simp
  · rw [getElem?_append_right (by omega), getElem?_eq_none (by simp; omega),
      getElem?_eq_none (by omega)]
    have : position ≠ calls.length := by omega
    simp [this]

theorem getElem_snoc_of {other : Op Url} (at_ : calls[position]? = some other) :
  (calls ++ [op])[position]? = some other
  := getElem_snoc_iff.mpr (.inl at_)

theorem getElem_snoc_last :
  (calls ++ [op])[calls.length]? = some op
  := getElem_snoc_iff.mpr (.inr ⟨rfl, rfl⟩)

theorem getElem_of_snoc {other : Op Url} (ne : op ≠ other)
    (at_ : (calls ++ [op])[position]? = some other) :
  calls[position]? = some other
  := (getElem_snoc_iff.mp at_).resolve_right fun last => ne last.2

theorem lt_of_getElem {other : Op Url} (at_ : calls[position]? = some other) :
  position < calls.length
  := (List.getElem?_eq_some_iff.mp at_).1

theorem openSince_snoc_iff (before : position < calls.length) :
  OpenSince (calls ++ [op]) uri position ↔ OpenSince calls uri position ∧ op ≠ .close uri
  := by
  constructor
  · intro open_
    constructor
    · intro later lt at_
      apply open_ later lt
      apply getElem_snoc_of at_
    · rintro rfl
      apply open_ calls.length before
      apply getElem_snoc_last
  · rintro ⟨open_, not_close⟩ later lt at_
    rcases getElem_snoc_iff.mp at_ with at_ | ⟨_, rfl⟩
    · apply open_ later lt at_
    · apply not_close rfl

theorem OpenSince.of_snoc (open_ : OpenSince (calls ++ [op]) uri position)
    (before : position < calls.length) :
  OpenSince calls uri position
  := ((openSince_snoc_iff before).mp open_).1

theorem openSince_last :
  OpenSince (calls ++ [op]) uri calls.length
  := by
  intro later lt at_
  have := lt_of_getElem at_
  rw [length_append, length_singleton] at this
  omega

theorem latest_snoc_retires (retires : op.Retires uri) :
  Latest (calls ++ [op]) uri position ↔ position = calls.length
  := by
  constructor
  · rintro ⟨⟨other, at_, _⟩, last⟩
    have lt := lt_of_getElem at_
    rw [length_append, length_singleton] at lt
    by_contra ne
    apply last calls.length op (by omega) _ retires
    apply getElem_snoc_last
  · rintro rfl
    constructor
    · use op
      rw [getElem_snoc_iff]
      exact ⟨Or.inr ⟨rfl, rfl⟩, retires⟩
    · intro later other lt at_
      have := lt_of_getElem at_
      rw [length_append, length_singleton] at this
      omega

theorem latest_snoc_other (other : ¬ op.Retires uri) :
  Latest (calls ++ [op]) uri position ↔ Latest calls uri position
  := by
  constructor
  · rintro ⟨⟨op', at_, retires⟩, last⟩
    rcases getElem_snoc_iff.mp at_ with at_ | ⟨_, rfl⟩
    · use ⟨op', at_, retires⟩
      intro later op'' lt at_'
      apply last later op'' lt
      apply getElem_snoc_of at_'
    · apply absurd retires other
  · rintro ⟨⟨op', at_, retires⟩, last⟩
    constructor
    · use op'
      rw [getElem_snoc_iff]
      exact ⟨Or.inl at_, retires⟩
    · intro later op'' lt at_'
      rcases getElem_snoc_iff.mp at_' with at_' | ⟨_, rfl⟩
      · apply last later op'' lt at_'
      · apply other

theorem unfinished_snoc_iff :
  Unfinished (calls ++ [op]) uri position ↔
    Unfinished calls uri position ∧ op ≠ .finish uri position
  := by
  rw [Unfinished, Unfinished, mem_append, mem_singleton, not_or, ne_comm]

end

section

variable {Url : Type*}

/-! ### What every run keeps -/

/-- The entry of a document, or that of a document that was never edited. -/
def Session.entry (s : Session Url) (uri : Url) : DocumentSchedule :=
  (s.schedule.documents uri).getD .default

/-- What the calls made so far leave in the scheduler and have returned. -/
structure Tracks (calls : List (Op Url)) (s : Session Url) : Prop where
  clock : s.clock = calls.length
  superseded : ∀ k g, s.generations k = some g → ∃ uri, calls[k]? = some (.supersede uri)
  returned : ∀ k uri, calls[k]? = some (.supersede uri) → s.generations k ≠ none
  closed : ∀ uri k, s.schedule.documents uri = none → calls[k]? = some (.supersede uri) →
    ¬ OpenSince calls uri k
  present : ∀ uri entry, s.schedule.documents uri = some entry → ∃ k, Latest calls uri k ∧
    calls[k]? = some (.supersede uri) ∧ s.generations k = some entry.generation
  counted : ∀ uri entry k g, s.schedule.documents uri = some entry →
    calls[k]? = some (.supersede uri) → OpenSince calls uri k → s.generations k = some g →
    g ≤ entry.generation ∧ (g = entry.generation → Latest calls uri k)
  started : ∀ k st, s.starteds k = some st →
    st.token = k ∧ ∃ uri held, calls[k]? = some (.start uri held)
  running : ∀ uri r, r ∈ s.registered uri →
    (∃ held, calls[r.token]? = some (.start uri held)) ∧
      s.starteds r.token = some ⟨r.ticket, r.token⟩ ∧ OpenSince calls uri r.token ∧ 0 < r.ticket
  current : ∀ uri r, r ∈ s.registered uri → r.generation ≤ (s.entry uri).generation ∧
    (r.generation < (s.entry uri).generation → s.schedule.cancelled r.token = true)
  tickets : ∀ uri k held st, calls[k]? = some (.start uri held) → OpenSince calls uri k →
    s.starteds k = some st → st.ticket ≤ (s.entry uri).nextTicket
  ticket_injective : ∀ uri k held st k' held' st', calls[k]? = some (.start uri held) →
    OpenSince calls uri k → s.starteds k = some st → calls[k']? = some (.start uri held') →
    OpenSince calls uri k' → s.starteds k' = some st' → st.ticket = st'.ticket → 0 < st.ticket →
    k = k'

/-- An analysis that nobody finished is registered, or its token is cancelled. -/
def Watched (calls : List (Op Url)) (s : Session Url) : Prop :=
  ∀ uri k held st, calls[k]? = some (.start uri held) → s.starteds k = some st →
    Unfinished calls uri k →
    s.schedule.cancelled k = true ∨ ∃ r ∈ s.registered uri, r.token = k

theorem tracks_fresh :
  Tracks ([] : List (Op Url)) .fresh
  := by
  constructor <;> simp [Session.fresh, Session.registered, Session.entry, Latest]

end

/-! ### What a call does -/

section

variable {Url : Type*} {s : Session Url} {uri : Url}

theorem registered_eq {entry : DocumentSchedule} (found : s.schedule.documents uri = some entry) :
  s.registered uri = entry.running
  := by
  rw [Session.registered, found]
  rfl

theorem entry_eq {entry : DocumentSchedule} (found : s.schedule.documents uri = some entry) :
  s.entry uri = entry
  := by
  rw [Session.entry, found]
  rfl

theorem registered_running :
  s.registered uri = (s.entry uri).running
  := by
  cases found : s.schedule.documents uri with
  | none =>
    rw [Session.registered, Session.entry, found]
    rfl
  | some entry => rw [registered_eq found, entry_eq found]

theorem registered_of_documents {s' : Session Url} {other : Url}
    (same : s'.schedule.documents other = s.schedule.documents other) :
  s'.registered other = s.registered other
  := by
  rw [Session.registered, same]
  rfl

theorem entry_of_documents {s' : Session Url} {other : Url}
    (same : s'.schedule.documents other = s.schedule.documents other) :
  s'.entry other = s.entry other
  := by
  rw [Session.entry, same]
  rfl

variable [DecidableEq Url]

theorem documents_supersede :
  (s.step (.supersede uri)).schedule.documents =
    Function.update s.schedule.documents uri
      (some { s.entry uri with generation := (s.entry uri).generation + 1 })
  := rfl

variable (uri) in
theorem documents_finish {held : ℕ} {started : Started} (given : s.starteds held = some started) :
  (s.step (.finish uri held)).schedule.documents =
    Function.update s.schedule.documents uri
      ((s.schedule.documents uri).map fun entry =>
        { entry with running := entry.running.filter (·.ticket ≠ started.ticket) })
  := by
  simp only [Session.step, given, Schedule.finish]
  cases found : s.schedule.documents uri with
  | none =>
    rw [map_none]
    apply (update_eq_self_iff.mpr found.symm).symm
  | some entry => rfl

theorem documents_close :
  (s.step (.close uri)).schedule.documents = Function.update s.schedule.documents uri none
  := by
  simp only [Session.step, Schedule.close]
  cases found : s.schedule.documents uri with
  | none => apply (update_eq_self_iff.mpr found.symm).symm
  | some entry => rfl

theorem cancelled_supersede {token : ℕ} :
  (s.step (.supersede uri)).schedule.cancelled token = true ↔
    s.schedule.cancelled token = true ∨
      ∃ r ∈ s.registered uri, r.token = token ∧ r.generation < (s.entry uri).generation + 1
  := by
  rw [registered_running]
  simp only [Session.step, Schedule.supersede, cancelThose, Bool.or_eq_true, List.any_eq_true,
    Session.entry, decide_eq_true_eq]

theorem cancelled_close {token : ℕ} :
  (s.step (.close uri)).schedule.cancelled token = true ↔
    s.schedule.cancelled token = true ∨ ∃ r ∈ s.registered uri, r.token = token
  := by
  simp only [Session.step, Schedule.close]
  cases found : s.schedule.documents uri with
  | none =>
    rw [Session.registered, found]
    simp
  | some entry =>
    rw [registered_eq found]
    simp only [cancelThose, Bool.or_eq_true, List.any_eq_true, and_true, decide_eq_true_eq]

theorem cancelled_finish {held token : ℕ} :
  (s.step (.finish uri held)).schedule.cancelled token = s.schedule.cancelled token
  := by
  simp only [Session.step]
  split
  · rfl
  · rw [Schedule.finish]
    split <;> rfl

variable (uri) in
/-- A `start` registers an analysis for the current generation of an open document, and otherwise
only hands out a token that is cancelled. -/
theorem start_cases {held generation : ℕ} (given : s.generations held = some generation) :
  (∃ entry, s.schedule.documents uri = some entry ∧ entry.generation = generation ∧
    s.step (.start uri held) =
      { s with
        schedule :=
          { documents := Function.update s.schedule.documents uri (some { entry with
              nextTicket := entry.nextTicket + 1
              running := entry.running ++ [⟨entry.nextTicket + 1, generation, s.clock⟩] })
            cancelled := Function.update s.schedule.cancelled s.clock false }
        clock := s.clock + 1
        starteds :=
          Function.update s.starteds s.clock (some ⟨entry.nextTicket + 1, s.clock⟩) }) ∨
  ((∀ entry, s.schedule.documents uri = some entry → entry.generation ≠ generation) ∧
    s.step (.start uri held) =
      { s with
        schedule := { s.schedule with
          cancelled := Function.update s.schedule.cancelled s.clock true }
        clock := s.clock + 1
        starteds := Function.update s.starteds s.clock (some ⟨0, s.clock⟩) })
  := by
  simp only [Session.step, given, Schedule.start]
  cases found : s.schedule.documents uri with
  | none =>
    right
    constructor
    · intro entry absent
      cases absent
    · rfl
  | some entry =>
    dsimp only
    split
    next differs =>
      right
      constructor
      · intro entry' same
        cases same
        apply differs
      · rfl
    next same =>
      left
      rw [not_not] at same
      exact ⟨entry, rfl, same, rfl⟩

theorem step_clock (op : Op Url) :
  (s.step op).clock = s.clock + 1
  := by
  cases op with
  | supersede uri => rfl
  | start uri held =>
    rw [Session.step]
    split <;> rfl
  | finish uri held =>
    rw [Session.step]
    split <;> rfl
  | close uri => rfl

end

/-! ### What every call keeps -/

section

variable {Url : Type*} [DecidableEq Url] {calls : List (Op Url)} {s : Session Url} {uri : Url}

theorem Tracks.supersede (tracks : Tracks calls s) :
  Tracks (calls ++ [.supersede uri]) (s.step (.supersede uri))
  := by
  have fresh : ∀ other, other ≠ uri →
      (s.step (.supersede uri)).schedule.documents other = s.schedule.documents other := by
    intro other ne
    rw [documents_supersede, update_of_ne ne]
  have here : (s.step (.supersede uri)).schedule.documents uri =
      some { s.entry uri with generation := (s.entry uri).generation + 1 } := by
    rw [documents_supersede, update_self]
  have registered : ∀ other,
      (s.step (.supersede uri)).registered other = s.registered other := by
    intro other
    by_cases same : other = uri
    · subst same
      rw [registered_eq here, registered_running]
    · apply registered_of_documents (fresh other same)
  have generations : ∀ k, (s.step (.supersede uri)).generations k =
      if k = calls.length then some ((s.entry uri).generation + 1) else s.generations k := by
    intro k
    rw [← tracks.clock]
    show Function.update s.generations s.clock _ k = _
    rw [update_apply]
    rfl
  have not_close : ∀ other, Op.supersede uri ≠ .close other := by
    intro other eq
    cases eq
  have not_retires : ∀ other, other ≠ uri → ¬ (Op.supersede uri).Retires other := by
    rintro other ne (eq | eq)
    · cases eq
      apply ne rfl
    · cases eq
  constructor
  · rw [step_clock, tracks.clock, length_append, length_singleton]
  · intro k g given
    rw [generations] at given
    simp only [getElem_snoc_iff]
    split at given
    next last =>
      use uri
      right
      exact ⟨last, rfl⟩
    next =>
      obtain ⟨other, at_⟩ := tracks.superseded k g given
      use other
      left
      apply at_
  · intro k other at_
    rw [generations]
    split
    next => simp
    next not_last =>
      rcases getElem_snoc_iff.mp at_ with at_ | ⟨last, _⟩
      · apply tracks.returned k other at_
      · apply absurd last not_last
  · intro other k missing at_ open_
    by_cases same : other = uri
    · subst same
      rw [here] at missing
      cases missing
    · rw [fresh other same] at missing
      rcases getElem_snoc_iff.mp at_ with at_ | ⟨_, eq⟩
      · apply tracks.closed other k missing at_ (open_.of_snoc (lt_of_getElem at_))
      · cases eq
        apply same rfl
  · intro other entry found
    by_cases same : other = uri
    · subst same
      rw [here] at found
      cases found
      use calls.length
      rw [latest_snoc_retires (Or.inl rfl), getElem_snoc_iff, generations, if_pos rfl]
      exact ⟨rfl, Or.inr ⟨rfl, rfl⟩, rfl⟩
    · rw [fresh other same] at found
      obtain ⟨k, latest, at_, given⟩ := tracks.present other entry found
      use k
      rw [latest_snoc_other (not_retires other same), getElem_snoc_iff, generations,
        if_neg (Nat.ne_of_lt (lt_of_getElem at_))]
      exact ⟨latest, Or.inl at_, given⟩
  · intro other entry k g found at_ open_ given
    rw [generations] at given
    by_cases same : other = uri
    · subst same
      rw [here] at found
      cases found
      rw [latest_snoc_retires (Or.inl rfl)]
      rcases getElem_snoc_iff.mp at_ with at_ | ⟨rfl, _⟩
      · have lt := lt_of_getElem at_
        rw [if_neg (Nat.ne_of_lt lt)] at given
        cases found : s.schedule.documents other with
        | none => apply absurd (open_.of_snoc lt) (tracks.closed other k found at_)
        | some entry =>
          have := (tracks.counted other entry k g found at_ (open_.of_snoc lt) given).1
          rw [entry_eq found]
          dsimp only
          omega
      · rw [if_pos rfl, some_inj] at given
        subst given
        exact ⟨Nat.le_refl _, fun _ => rfl⟩
    · rw [fresh other same] at found
      rw [latest_snoc_other (not_retires other same)]
      rcases getElem_snoc_iff.mp at_ with at_ | ⟨_, eq⟩
      · have lt := lt_of_getElem at_
        rw [if_neg (Nat.ne_of_lt lt)] at given
        apply tracks.counted other entry k g found at_ (open_.of_snoc lt) given
      · cases eq
        apply absurd rfl same
  · intro k st given
    obtain ⟨token, other, held, at_⟩ := tracks.started k st given
    use token, other, held
    apply getElem_snoc_of at_
  · intro other r mem
    rw [registered] at mem
    obtain ⟨⟨held, at_⟩, given, open_, positive⟩ := tracks.running other r mem
    rw [openSince_snoc_iff (lt_of_getElem at_)]
    refine ⟨⟨held, ?_⟩, given, ⟨open_, not_close other⟩, positive⟩
    apply getElem_snoc_of at_
  · intro other r mem
    rw [registered] at mem
    obtain ⟨le, cancelled⟩ := tracks.current other r mem
    rw [cancelled_supersede]
    by_cases same : other = uri
    · subst same
      rw [entry_eq here]
      dsimp only
      constructor
      · omega
      · intro lt
        right
        use r
    · rw [entry_of_documents (fresh other same)]
      use le
      intro lt
      left
      apply cancelled lt
  · intro other k held st at_ open_ given
    rcases getElem_snoc_iff.mp at_ with at_ | ⟨_, eq⟩
    · have le := tracks.tickets other k held st at_ (open_.of_snoc (lt_of_getElem at_)) given
      by_cases same : other = uri
      · subst same
        rw [entry_eq here]
        apply le
      · rw [entry_of_documents (fresh other same)]
        apply le
    · cases eq
  · intro other k held st k' held' st' at_ open_ given at_' open_' given' same positive
    rcases getElem_snoc_iff.mp at_ with at_ | ⟨_, eq⟩
    · rcases getElem_snoc_iff.mp at_' with at_' | ⟨_, eq⟩
      · apply tracks.ticket_injective other k held st k' held' st' at_
          (open_.of_snoc (lt_of_getElem at_)) given at_' (open_'.of_snoc (lt_of_getElem at_'))
          given' same positive
      · cases eq
    · cases eq

omit [DecidableEq Url] in
/-- A call that neither supersedes nor closes anything leaves what is known of the generations. -/
theorem Tracks.quiet {op : Op Url} {s' : Session Url} (tracks : Tracks calls s)
    (quiet : ∀ other, ¬ op.Retires other) (clock : s'.clock = s.clock + 1)
    (generations : s'.generations = s.generations)
    (documents : ∀ other, (s'.schedule.documents other).map (·.generation) =
      (s.schedule.documents other).map (·.generation))
    (started : ∀ k st, s'.starteds k = some st →
      st.token = k ∧ ∃ uri held, (calls ++ [op])[k]? = some (.start uri held))
    (running : ∀ uri r, r ∈ s'.registered uri →
      (∃ held, (calls ++ [op])[r.token]? = some (.start uri held)) ∧
        s'.starteds r.token = some ⟨r.ticket, r.token⟩ ∧
          OpenSince (calls ++ [op]) uri r.token ∧ 0 < r.ticket)
    (current : ∀ uri r, r ∈ s'.registered uri → r.generation ≤ (s'.entry uri).generation ∧
      (r.generation < (s'.entry uri).generation → s'.schedule.cancelled r.token = true))
    (tickets : ∀ uri k held st, (calls ++ [op])[k]? = some (.start uri held) →
      OpenSince (calls ++ [op]) uri k → s'.starteds k = some st →
      st.ticket ≤ (s'.entry uri).nextTicket)
    (injective : ∀ uri k held st k' held' st', (calls ++ [op])[k]? = some (.start uri held) →
      OpenSince (calls ++ [op]) uri k → s'.starteds k = some st →
      (calls ++ [op])[k']? = some (.start uri held') → OpenSince (calls ++ [op]) uri k' →
      s'.starteds k' = some st' → st.ticket = st'.ticket → 0 < st.ticket → k = k') :
  Tracks (calls ++ [op]) s'
  := by
  have old : ∀ {other : Url} {k : ℕ}, (calls ++ [op])[k]? = some (Op.supersede other) →
      calls[k]? = some (Op.supersede other) := by
    intro other k at_
    rcases getElem_snoc_iff.mp at_ with at_ | ⟨_, rfl⟩
    · apply at_
    · apply absurd (Or.inl rfl) (quiet other)
  refine ⟨?_, ?_, ?_, ?_, ?_, ?_, started, running, current, tickets, injective⟩
  · rw [clock, tracks.clock, length_append, length_singleton]
  · intro k g given
    rw [generations] at given
    obtain ⟨other, at_⟩ := tracks.superseded k g given
    use other
    apply getElem_snoc_of at_
  · intro k other at_
    rw [generations]
    apply tracks.returned k other (old at_)
  · intro other k missing at_ open_
    have missing' : s.schedule.documents other = none := by
      rw [← map_eq_none_iff, ← documents, missing]
      rfl
    have at_ := old at_
    apply tracks.closed other k missing' at_ (open_.of_snoc (lt_of_getElem at_))
  · intro other entry found
    obtain ⟨entry', found', same⟩ : ∃ entry', s.schedule.documents other = some entry' ∧
        entry'.generation = entry.generation := by
      rw [← map_eq_some_iff, ← documents, found]
      rfl
    obtain ⟨k, latest, at_, given⟩ := tracks.present other entry' found'
    use k
    rw [latest_snoc_other (quiet other), getElem_snoc_iff, generations, given, same]
    exact ⟨latest, Or.inl at_, rfl⟩
  · intro other entry k g found at_ open_ given
    obtain ⟨entry', found', same⟩ : ∃ entry', s.schedule.documents other = some entry' ∧
        entry'.generation = entry.generation := by
      rw [← map_eq_some_iff, ← documents, found]
      rfl
    have at_ := old at_
    rw [generations] at given
    rw [latest_snoc_other (quiet other), ← same]
    apply tracks.counted other entry' k g found' at_ (open_.of_snoc (lt_of_getElem at_)) given

/-- A call that changes neither the entries nor what the `start` calls have returned, and is no
`start` that returns anything. -/
theorem Tracks.idle {op : Op Url} {s' : Session Url} (tracks : Tracks calls s)
    (quiet : ∀ other, ¬ op.Retires other) (clock : s'.clock = s.clock + 1)
    (generations : s'.generations = s.generations) (starteds : s'.starteds = s.starteds)
    (kept : ∀ uri r, r ∈ s'.registered uri → r ∈ s.registered uri)
    (documents : ∀ other, (s'.schedule.documents other).map (·.generation) =
      (s.schedule.documents other).map (·.generation))
    (next : ∀ other, (s'.entry other).nextTicket = (s.entry other).nextTicket)
    (cancelled : s'.schedule.cancelled = s.schedule.cancelled) :
  Tracks (calls ++ [op]) s'
  := by
  have old : ∀ {k st}, s.starteds k = some st → k < calls.length := by
    intro k st given
    obtain ⟨_, _, _, at_⟩ := tracks.started k st given
    apply lt_of_getElem at_
  have old_at : ∀ {k : ℕ} {other : Op Url}, k < calls.length → (calls ++ [op])[k]? = some other →
      calls[k]? = some other := by
    intro k other lt at_
    rw [getElem?_append_left lt] at at_
    apply at_
  have entries : ∀ other, (s'.entry other).generation = (s.entry other).generation := by
    intro other
    have := documents other
    rw [Session.entry, Session.entry]
    cases found : s'.schedule.documents other with
    | none =>
      rw [found, map_none, eq_comm, map_eq_none_iff] at this
      rw [this]
    | some entry =>
      rw [found, map_some, eq_comm, map_eq_some_iff] at this
      obtain ⟨entry', found', same⟩ := this
      rw [found', getD_some, getD_some, same]
  apply tracks.quiet quiet clock generations documents
  · intro k st given
    rw [starteds] at given
    obtain ⟨token, other, held, at_⟩ := tracks.started k st given
    use token, other, held
    apply getElem_snoc_of at_
  · intro other r mem
    obtain ⟨⟨held, at_⟩, given, open_, positive⟩ := tracks.running other r (kept other r mem)
    rw [openSince_snoc_iff (lt_of_getElem at_), starteds]
    refine ⟨⟨held, ?_⟩, given, ⟨open_, ?_⟩, positive⟩
    · apply getElem_snoc_of at_
    · rintro rfl
      apply quiet other (Or.inr rfl)
  · intro other r mem
    rw [entries, cancelled]
    apply tracks.current other r (kept other r mem)
  · intro other k held st at_ open_ given
    rw [starteds] at given
    rw [next]
    have lt := old given
    apply tracks.tickets other k held st (old_at lt at_) (open_.of_snoc lt) given
  · intro other k held st k' held' st' at_ open_ given at_' open_' given'
    rw [starteds] at given given'
    have lt := old given
    have lt' := old given'
    apply tracks.ticket_injective other k held st k' held' st' (old_at lt at_) (open_.of_snoc lt)
      given (old_at lt' at_') (open_'.of_snoc lt') given'

/-- A call that nobody can make. -/
theorem Tracks.waits {op : Op Url} (tracks : Tracks calls s)
    (quiet : ∀ other, ¬ op.Retires other) :
  Tracks (calls ++ [op]) { s with clock := s.clock + 1 }
  := by
  apply tracks.idle quiet
  · rfl
  · rfl
  · rfl
  · intro other r mem
    apply mem
  · intro other
    rfl
  · intro other
    rfl
  · rfl

theorem Tracks.finish (tracks : Tracks calls s) (held : ℕ) :
  Tracks (calls ++ [.finish uri held]) (s.step (.finish uri held))
  := by
  have quiet : ∀ other, ¬ (Op.finish uri held).Retires other := by
    rintro other (eq | eq) <;> cases eq
  cases given : s.starteds held with
  | none =>
    have step : s.step (.finish uri held) = { s with clock := s.clock + 1 } := by
      simp only [Session.step, given]
    rw [step]
    apply tracks.waits quiet
  | some started =>
    have documents := documents_finish uri given
    apply tracks.idle quiet (step_clock _)
    · simp only [Session.step, given]
    · simp only [Session.step, given]
    · intro other r mem
      by_cases same : other = uri
      · subst same
        cases found : s.schedule.documents other with
        | none =>
          rw [Session.registered, documents, update_self, found] at mem
          cases mem
        | some entry =>
          rw [Session.registered, documents, update_self, found] at mem
          rw [registered_eq found]
          apply (mem_filter.mp mem).1
      · rw [registered_of_documents] at mem
        · apply mem
        · rw [documents, update_of_ne same]
    · intro other
      by_cases same : other = uri
      · subst same
        rw [documents, update_self, Option.map_map]
        rfl
      · rw [documents, update_of_ne same]
    · intro other
      by_cases same : other = uri
      · subst same
        cases found : s.schedule.documents other with
        | none =>
          rw [Session.entry, Session.entry, documents, update_self, found]
          rfl
        | some entry =>
          rw [Session.entry, Session.entry, documents, update_self, found]
          rfl
      · rw [entry_of_documents]
        rw [documents, update_of_ne same]
    · funext token
      apply cancelled_finish

/-- A `start` hands out a ticket above those of its document, and may register it. -/
theorem Tracks.hands {s' : Session Url} {held : ℕ} (tracks : Tracks calls s) (ticket : ℕ)
    (clock : s'.clock = s.clock + 1) (generations : s'.generations = s.generations)
    (documents : ∀ other, (s'.schedule.documents other).map (·.generation) =
      (s.schedule.documents other).map (·.generation))
    (starteds : s'.starteds = update s.starteds calls.length (some ⟨ticket, calls.length⟩))
    (registered : ∀ other r, r ∈ s'.registered other → r ∈ s.registered other ∨
      other = uri ∧ r.ticket = ticket ∧ r.token = calls.length ∧ 0 < ticket)
    (current : ∀ other r, r ∈ s'.registered other → r.generation ≤ (s'.entry other).generation ∧
      (r.generation < (s'.entry other).generation → s'.schedule.cancelled r.token = true))
    (next : ∀ other, (s.entry other).nextTicket ≤ (s'.entry other).nextTicket)
    (bound : ticket ≤ (s'.entry uri).nextTicket)
    (above : 0 < ticket → (s.entry uri).nextTicket < ticket) :
  Tracks (calls ++ [.start uri held]) s'
  := by
  have given_new : s'.starteds calls.length = some ⟨ticket, calls.length⟩ := by
    rw [starteds, update_self]
  have given_old : ∀ {k}, k ≠ calls.length → s'.starteds k = s.starteds k := by
    intro k ne
    rw [starteds, update_of_ne ne]
  have old : ∀ {other k held' st}, k ≠ calls.length →
      (calls ++ [Op.start uri held])[k]? = some (.start other held') →
      OpenSince (calls ++ [.start uri held]) other k → s'.starteds k = some st →
      calls[k]? = some (.start other held') ∧ OpenSince calls other k ∧
        s.starteds k = some st ∧ st.ticket ≤ (s.entry other).nextTicket := by
    intro other k held' st ne at_ open_ given
    rw [given_old ne] at given
    have at_ := (getElem_snoc_iff.mp at_).resolve_right fun last => ne last.1
    have open_ := open_.of_snoc (lt_of_getElem at_)
    exact ⟨at_, open_, given, tracks.tickets other k held' st at_ open_ given⟩
  apply tracks.quiet (by rintro other (eq | eq) <;> cases eq) clock generations documents
  · intro k st given
    by_cases new : k = calls.length
    · subst new
      rw [given_new, some_inj] at given
      subst given
      exact ⟨rfl, uri, held, getElem_snoc_last⟩
    · rw [given_old new] at given
      obtain ⟨token, other, held', at_⟩ := tracks.started k st given
      exact ⟨token, other, held', getElem_snoc_of at_⟩
  · intro other r mem
    rcases registered other r mem with mem | ⟨rfl, rfl, token, positive⟩
    · obtain ⟨⟨held', at_⟩, given, open_, positive⟩ := tracks.running other r mem
      have lt := lt_of_getElem at_
      rw [given_old (Nat.ne_of_lt lt), openSince_snoc_iff lt]
      exact ⟨⟨held', getElem_snoc_of at_⟩, given, ⟨open_, fun eq => by cases eq⟩, positive⟩
    · rw [token]
      exact ⟨⟨held, getElem_snoc_last⟩, given_new, openSince_last, positive⟩
  · exact current
  · intro other k held' st at_ open_ given
    by_cases new : k = calls.length
    · subst new
      rw [getElem_snoc_last, some_inj] at at_
      cases at_
      rw [given_new, some_inj] at given
      subst given
      exact bound
    · exact Nat.le_trans (old new at_ open_ given).2.2.2 (next other)
  · -- the ticket is above every ticket the entry has handed out
    have differ : ∀ other k held' st, k ≠ calls.length →
        (calls ++ [.start uri held])[k]? = some (.start other held') →
        OpenSince (calls ++ [.start uri held]) other k → s'.starteds k = some st →
        other = uri → 0 < ticket → st.ticket ≠ ticket := by
      rintro other k held' st ne at_ open_ given rfl positive
      have le := (old ne at_ open_ given).2.2.2
      have lt := above positive
      omega
    intro other k held' st k' held'' st' at_ open_ given at_' open_' given' same positive
    by_cases new : k = calls.length
    · by_contra differs
      subst new
      rw [getElem_snoc_last, some_inj] at at_
      cases at_
      rw [given_new, some_inj] at given
      subst given
      exact differ uri k' held'' st' (Ne.symm differs) at_' open_' given' rfl positive same.symm
    · obtain ⟨at_, open_, given, le⟩ := old new at_ open_ given
      by_cases new' : k' = calls.length
      · subst new'
        rw [getElem_snoc_last, some_inj] at at_'
        cases at_'
        rw [given_new, some_inj] at given'
        subst given'
        dsimp only at same
        have lt := above (by omega)
        omega
      · obtain ⟨at_', open_', given', _⟩ := old new' at_' open_' given'
        exact tracks.ticket_injective other k held' st k' held'' st' at_ open_ given at_' open_'
          given' same positive

theorem Tracks.start (tracks : Tracks calls s) (held : ℕ) :
  Tracks (calls ++ [.start uri held]) (s.step (.start uri held))
  := by
  have older : ∀ {other r}, r ∈ s.registered other → r.token ≠ calls.length := by
    intro other r mem
    obtain ⟨⟨_, at_⟩, _⟩ := tracks.running other r mem
    exact Nat.ne_of_lt (lt_of_getElem at_)
  cases given : s.generations held with
  | none =>
    have step : s.step (.start uri held) = { s with clock := s.clock + 1 } := by
      simp only [Session.step, given]
    rw [step]
    exact tracks.waits (by rintro other (eq | eq) <;> cases eq)
  | some generation =>
    rcases start_cases uri given with ⟨entry, found, current, step⟩ | ⟨stale, step⟩
    · rw [step, tracks.clock]
      apply tracks.hands (entry.nextTicket + 1)
      · rw [tracks.clock]
      · rfl
      · intro other
        dsimp only
        by_cases same : other = uri
        · subst same
          rw [update_self, found]
          rfl
        · rw [update_of_ne same]
      · rfl
      · intro other r mem
        rw [Session.registered] at mem
        dsimp only at mem
        by_cases same : other = uri
        · subst same
          rw [update_self] at mem
          rw [registered_eq found]
          apply (mem_append.mp mem).imp_right
          intro mem
          rw [mem_singleton] at mem
          subst mem
          exact ⟨rfl, rfl, rfl, Nat.succ_pos _⟩
        · left
          rw [update_of_ne same] at mem
          apply mem
      · intro other r mem
        rw [Session.registered] at mem
        rw [Session.entry]
        dsimp only at mem ⊢
        by_cases same : other = uri
        · subst same
          rw [update_self] at mem ⊢
          rcases mem_append.mp mem with mem | mem
          · rw [← registered_eq found] at mem
            rw [update_of_ne (older mem)]
            have := tracks.current other r mem
            rw [entry_eq found] at this
            apply this
          · rw [mem_singleton] at mem
            subst mem
            rw [getD_some, current]
            use Nat.le_refl _
            intro lt
            apply absurd lt (Nat.lt_irrefl _)
        · rw [update_of_ne same] at mem ⊢
          rw [update_of_ne (older mem)]
          apply tracks.current other r mem
      · intro other
        rw [Session.entry, Session.entry]
        dsimp only
        by_cases same : other = uri
        · subst same
          rw [update_self, found]
          apply Nat.le_succ
        · apply Nat.le_of_eq
          rw [update_of_ne same]
      · rw [Session.entry]
        dsimp only
        rw [update_self]
        apply Nat.le_refl
      · intro _
        rw [entry_eq found]
        apply Nat.lt_succ_self
    · rw [step, tracks.clock]
      apply tracks.hands 0
      · rw [tracks.clock]
      · rfl
      · exact fun other => rfl
      · rfl
      · exact fun other r mem => .inl mem
      · intro other r mem
        dsimp only
        rw [update_of_ne (older mem)]
        apply tracks.current other r mem
      · exact fun other => Nat.le_refl _
      · apply Nat.zero_le
      · exact fun positive => absurd positive (Nat.lt_irrefl 0)

end

end Vilan.Lsp
