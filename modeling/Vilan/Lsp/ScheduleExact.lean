import Vilan.Lsp.ScheduleRuns
import Mathlib.Data.List.Induction

/-!
# When a run of the analysis scheduler is exact

What the scheduler keeps holds of every run, and that nobody loses an analysis it has not finished
holds as long as no `finish` mistakes a ticket.  From the two a call does what it is to do exactly
when it does not mistake what it holds.
-/

namespace Vilan.Lsp

open List Option Function

variable {Url : Type*} [DecidableEq Url] {calls : List (Op Url)} {s : Session Url} {uri : Url}

/-! ### A close -/

theorem cancelled_close_of {token : ℕ} (cancelled : s.schedule.cancelled token = true) :
  (s.step (.close uri)).schedule.cancelled token = true
  := by
  rw [cancelled_close]
  left
  apply cancelled

theorem Tracks.close (tracks : Tracks calls s) :
  Tracks (calls ++ [.close uri]) (s.step (.close uri))
  := by
  have gone : (s.step (.close uri)).schedule.documents uri = none := by
    rw [documents_close, update_self]
  have kept : ∀ other, other ≠ uri →
      (s.step (.close uri)).schedule.documents other = s.schedule.documents other := by
    intro other ne
    rw [documents_close, update_of_ne ne]
  have shut : ∀ {k}, k < calls.length → ¬ OpenSince (calls ++ [.close uri]) uri k := by
    intro k lt open_
    apply ((openSince_snoc_iff lt).mp open_).2 rfl
  have not_retires : ∀ other, other ≠ uri → ¬ (Op.close uri).Retires other := by
    rintro other ne (eq | eq)
    · cases eq
    · cases eq
      apply ne rfl
  have started_old : ∀ {other : Url} {k held : ℕ}, (calls ++ [.close uri])[k]? = some (Op.start other held) →
      calls[k]? = some (.start other held) := by
    intro other k held at_
    apply getElem_of_snoc _ at_
    intro eq
    cases eq
  have superseded_old : ∀ {other : Url} {k : ℕ},
      (calls ++ [.close uri])[k]? = some (Op.supersede other) →
      calls[k]? = some (.supersede other) := by
    intro other k at_
    apply getElem_of_snoc _ at_
    intro eq
    cases eq
  constructor
  · rw [step_clock, tracks.clock, length_append, length_singleton]
  · intro k g given
    obtain ⟨other, at_⟩ := tracks.superseded k g given
    use other
    apply getElem_snoc_of at_
  · intro k other at_
    apply tracks.returned k other (superseded_old at_)
  · intro other k missing at_
    have at_ := superseded_old at_
    have lt := lt_of_getElem at_
    by_cases same : other = uri
    · subst same
      apply shut lt
    · rw [kept other same] at missing
      intro open_
      apply tracks.closed other k missing at_ (open_.of_snoc lt)
  · intro other entry found
    by_cases same : other = uri
    · subst same
      rw [gone] at found
      cases found
    · rw [kept other same] at found
      obtain ⟨k, latest, at_, given⟩ := tracks.present other entry found
      use k
      rw [latest_snoc_other (not_retires other same), getElem_snoc_iff]
      exact ⟨latest, Or.inl at_, given⟩
  · intro other entry k g found at_ open_ given
    by_cases same : other = uri
    · subst same
      rw [gone] at found
      cases found
    · rw [kept other same] at found
      rw [latest_snoc_other (not_retires other same)]
      have at_ := superseded_old at_
      apply tracks.counted other entry k g found at_ (open_.of_snoc (lt_of_getElem at_)) given
  · intro k st given
    obtain ⟨token, other, held, at_⟩ := tracks.started k st given
    use token, other, held
    apply getElem_snoc_of at_
  · intro other r mem
    by_cases same : other = uri
    · subst same
      rw [Session.registered, gone] at mem
      cases mem
    · rw [registered_of_documents (kept other same)] at mem
      obtain ⟨⟨held, at_⟩, given, open_, positive⟩ := tracks.running other r mem
      rw [openSince_snoc_iff (lt_of_getElem at_)]
      refine ⟨⟨held, ?_⟩, given, ⟨open_, ?_⟩, positive⟩
      · apply getElem_snoc_of at_
      · intro eq
        cases eq
        apply same rfl
  · intro other r mem
    by_cases same : other = uri
    · subst same
      rw [Session.registered, gone] at mem
      cases mem
    · rw [registered_of_documents (kept other same)] at mem
      rw [entry_of_documents (kept other same)]
      obtain ⟨le, cancelled⟩ := tracks.current other r mem
      use le
      intro lt
      apply cancelled_close_of (cancelled lt)
  · intro other k held st at_ open_ given
    have at_ := started_old at_
    have lt := lt_of_getElem at_
    by_cases same : other = uri
    · subst same
      apply absurd open_ (shut lt)
    · rw [entry_of_documents (kept other same)]
      apply tracks.tickets other k held st at_ (open_.of_snoc lt) given
  · intro other k held st k' held' st' at_ open_ given at_' open_' given'
    have at_ := started_old at_
    have at_' := started_old at_'
    apply tracks.ticket_injective other k held st k' held' st' at_
      (open_.of_snoc (lt_of_getElem at_)) given at_' (open_'.of_snoc (lt_of_getElem at_')) given'

theorem Tracks.step (tracks : Tracks calls s) (op : Op Url) :
  Tracks (calls ++ [op]) (s.step op)
  := by
  cases op with
  | supersede uri => apply tracks.supersede
  | start uri held => apply tracks.start
  | finish uri held => apply tracks.finish
  | close uri => apply tracks.close

/-- What the scheduler keeps holds of every run. -/
theorem tracks_run (calls : List (Op Url)) :
  Tracks calls (run calls)
  := by
  induction calls using List.reverseRecOn with
  | nil => apply tracks_fresh
  | append_singleton calls op ih =>
    rw [run_append]
    apply ih.step

/-! ### What nobody loses -/

omit [DecidableEq Url] in
theorem Latest.unique {k k' : ℕ} (latest : Latest calls uri k) (latest' : Latest calls uri k') :
  k = k'
  := by
  obtain ⟨⟨op, at_, retires⟩, last⟩ := latest
  obtain ⟨⟨op', at_', retires'⟩, last'⟩ := latest'
  rcases Nat.lt_trichotomy k k' with lt | same | gt
  · apply absurd retires' (last k' op' lt at_')
  · apply same
  · apply absurd retires (last' k op gt at_)

omit [DecidableEq Url] in
/-- A finish that fits retires the registration of the start it names and no other. -/
theorem ticket_eq_iff (tracks : Tracks calls s) {held : ℕ} {started : Started}
    (given : s.starteds held = some started)
    (fits : ∀ r ∈ s.registered uri, r.ticket = started.ticket →
      (∃ generation, calls[held]? = some (.start uri generation)) ∧ OpenSince calls uri held)
    {r : Running} (mem : r ∈ s.registered uri) :
  r.ticket = started.ticket ↔ r.token = started.token
  := by
  obtain ⟨⟨held', at_⟩, given', open_, positive⟩ := tracks.running uri r mem
  obtain ⟨token, _⟩ := tracks.started held started given
  rw [token]
  constructor
  · intro same
    obtain ⟨⟨generation, at_'⟩, open_'⟩ := fits r mem same
    apply tracks.ticket_injective uri r.token held' _ held generation started at_ open_ given' at_'
      open_' given same positive
  · rintro rfl
    rw [given', some_inj] at given
    rw [← given]

theorem registered_finish {held : ℕ} {started : Started}
    (given : s.starteds held = some started) :
  (s.step (.finish uri held)).registered uri =
    (s.registered uri).filter (·.ticket ≠ started.ticket)
  := by
  rw [Session.registered, documents_finish _ given, update_self, Session.registered]
  cases s.schedule.documents uri with
  | none => rfl
  | some entry => rfl

theorem registered_finish_of_ne {held : ℕ} {other : Url} (ne : other ≠ uri) :
  (s.step (.finish uri held)).registered other = s.registered other
  := by
  cases given : s.starteds held with
  | none =>
    simp only [Session.step, given]
    rfl
  | some started =>
    apply registered_of_documents
    rw [documents_finish _ given, update_of_ne ne]

/-- As long as no finish mistakes a ticket, an analysis that nobody finished is registered, or its
token is cancelled. -/
theorem Watched.step (tracks : Tracks calls s) (watched : Watched calls s) {op : Op Url}
    (fits : ∀ uri held started r, op = .finish uri held → s.starteds held = some started →
      r ∈ s.registered uri → r.ticket = started.ticket →
      (∃ generation, calls[held]? = some (.start uri generation)) ∧ OpenSince calls uri held) :
  Watched (calls ++ [op]) (s.step op)
  := by
  intro uri k generation st at_ given unfinished
  rw [unfinished_snoc_iff] at unfinished
  obtain ⟨unfinished, not_finish⟩ := unfinished
  cases op with
  | supersede other =>
    rcases getElem_snoc_iff.mp at_ with at_ | ⟨_, eq⟩
    · rcases watched uri k generation st at_ given unfinished with cancelled | ⟨r, mem, token⟩
      · left
        rw [cancelled_supersede]
        left
        apply cancelled
      · right
        use r
        constructor
        · by_cases same : uri = other
          · subst same
            rw [registered_running, Session.entry, documents_supersede, update_self, getD_some]
            rw [registered_running] at mem
            apply mem
          · rw [registered_of_documents]
            · apply mem
            · rw [documents_supersede, update_of_ne same]
        · apply token
    · cases eq
  | start other held =>
    cases returned : s.generations held with
    | none =>
      have step : s.step (.start other held) = { s with clock := s.clock + 1 } := by
        simp only [Session.step, returned]
      rw [step] at given ⊢
      rcases getElem_snoc_iff.mp at_ with at_ | ⟨rfl, _⟩
      · apply watched uri k generation st at_ given unfinished
      · obtain ⟨_, _, _, at_⟩ := tracks.started calls.length st given
        apply absurd (lt_of_getElem at_) (Nat.lt_irrefl _)
    | some current =>
      rcases start_cases other returned with ⟨entry, found, _, step⟩ | ⟨_, step⟩
      · rw [step, tracks.clock] at given ⊢
        dsimp only at given ⊢
        rcases getElem_snoc_iff.mp at_ with at_ | ⟨rfl, eq⟩
        · have ne := Nat.ne_of_lt (lt_of_getElem at_)
          rw [update_of_ne ne] at given
          rw [update_of_ne ne]
          rcases watched uri k generation st at_ given unfinished with
            cancelled | ⟨r, mem, token⟩
          · left
            apply cancelled
          · right
            use r
            refine ⟨?_, token⟩
            rw [Session.registered]
            dsimp only
            by_cases same : uri = other
            · subst same
              rw [registered_eq found] at mem
              rw [update_self]
              apply mem_append_left _ mem
            · rw [update_of_ne same]
              apply mem
        · cases eq
          right
          use ⟨entry.nextTicket + 1, current, calls.length⟩
          refine ⟨?_, rfl⟩
          rw [Session.registered]
          dsimp only
          rw [update_self]
          apply mem_append_right _ (mem_singleton_self _)
      · rw [step, tracks.clock] at given ⊢
        dsimp only at given ⊢
        rcases getElem_snoc_iff.mp at_ with at_ | ⟨rfl, eq⟩
        · have ne := Nat.ne_of_lt (lt_of_getElem at_)
          rw [update_of_ne ne] at given
          rw [update_of_ne ne]
          apply watched uri k generation st at_ given unfinished
        · left
          rw [update_self]
  | finish other held =>
    have at_ : calls[k]? = some (.start uri generation) := by
      rcases getElem_snoc_iff.mp at_ with at_ | ⟨_, eq⟩
      · apply at_
      · cases eq
    have given : s.starteds k = some st := by
      rw [← given, Session.step]
      split <;> rfl
    rw [cancelled_finish]
    rcases watched uri k generation st at_ given unfinished with cancelled | ⟨r, mem, token⟩
    · left
      apply cancelled
    · right
      use r
      refine ⟨?_, token⟩
      by_cases same : uri = other
      · subst same
        cases returned : s.starteds held with
        | none =>
          simp only [Session.step, returned]
          apply mem
        | some started =>
          rw [registered_finish returned, mem_filter, decide_eq_true_eq]
          use mem
          intro ticket
          have token' := (ticket_eq_iff tracks returned
            (fun r mem same => fits uri held started r rfl returned mem same) mem).mp ticket
          have := (tracks.started held started returned).1
          apply not_finish
          rw [← token, token', this]
      · rw [registered_finish_of_ne same]
        apply mem
  | close other =>
    rcases getElem_snoc_iff.mp at_ with at_ | ⟨_, eq⟩
    · rcases watched uri k generation st at_ given unfinished with cancelled | ⟨r, mem, token⟩
      · left
        apply cancelled_close_of cancelled
      · by_cases same : uri = other
        · subst same
          left
          rw [cancelled_close]
          right
          use r
        · right
          use r
          refine ⟨?_, token⟩
          rw [registered_of_documents]
          · apply mem
          · rw [documents_close, update_of_ne same]
    · cases eq

/-! ### When a call does what it is to do -/

omit [DecidableEq Url] in
theorem Latest.openSince {k : ℕ} (latest : Latest calls uri k) :
  OpenSince calls uri k
  := by
  intro later lt at_
  apply latest.2 later _ lt at_ (Or.inr rfl)

omit [DecidableEq Url] in
/-- The generation that the latest `supersede` of a document returned is the one the document
counts. -/
theorem Tracks.latest_current (tracks : Tracks calls s) {held generation : ℕ}
    (given : s.generations held = some generation) (latest : Latest calls uri held) :
  ∃ entry, s.schedule.documents uri = some entry ∧ entry.generation = generation
  := by
  have superseded : calls[held]? = some (.supersede uri) := by
    obtain ⟨other, at_⟩ := tracks.superseded held generation given
    obtain ⟨⟨op, at_', retires⟩, _⟩ := latest
    rw [at_, some_inj] at at_'
    subst at_'
    rcases retires with eq | eq
    · cases eq
      apply at_
    · cases eq
  cases found : s.schedule.documents uri with
  | none => apply absurd latest.openSince (tracks.closed uri held found superseded)
  | some entry =>
    use entry, rfl
    obtain ⟨k, latest', _, given'⟩ := tracks.present uri entry found
    rw [latest'.unique latest, given, some_inj] at given'
    apply given'.symm

variable (uri) in
/-- What a `start` answers: a token that is cancelled unless the generation is the one the document
counts. -/
theorem start_answer (tracks : Tracks calls s) {held generation : ℕ}
    (given : s.generations held = some generation) :
  ∃ started, (s.step (.start uri held)).starteds calls.length = some started ∧
    ((s.step (.start uri held)).schedule.cancelled started.token = false ↔
      ∃ entry, s.schedule.documents uri = some entry ∧ entry.generation = generation)
  := by
  rcases start_cases uri given with ⟨entry, found, current, step⟩ | ⟨stale, step⟩
  · rw [step, tracks.clock]
    use ⟨entry.nextTicket + 1, calls.length⟩
    dsimp only
    rw [update_self, update_self]
    use rfl
    constructor
    · intro _
      use entry
    · intro _
      rfl
  · rw [step, tracks.clock]
    use ⟨0, calls.length⟩
    dsimp only
    rw [update_self, update_self]
    use rfl
    constructor
    · intro eq
      cases eq
    · rintro ⟨entry, found, current⟩
      apply absurd current (stale entry found)

/-- A call that does not mistake what it holds does what it is to do. -/
theorem exact_of_fits {op : Op Url} (watched : Watched calls (run calls)) (fits : Fits calls op) :
  Exact calls op
  := by
  have tracks := tracks_run calls
  constructor
  · rintro uri held rfl returned
    obtain ⟨generation, given⟩ := ne_none_iff_exists'.mp returned
    rw [run_append]
    obtain ⟨started, answer, live⟩ := start_answer uri tracks given
    use started, answer
    rw [live]
    constructor
    · rintro ⟨entry, found, rfl⟩
      obtain ⟨at_, open_⟩ := fits.generation uri held entry rfl found given
      apply (tracks.counted uri entry held _ found at_ open_ given).2 rfl
    · apply tracks.latest_current given
  · intro uri held k started at_ given unfinished retires
    rw [run_append, (tracks.started k started given).1]
    rcases retires with rfl | rfl
    · rw [cancelled_supersede]
      rcases watched uri k held started at_ given unfinished with cancelled | ⟨r, mem, token⟩
      · left
        apply cancelled
      · right
        use r, mem, token
        apply Nat.lt_succ_of_le (tracks.current uri r mem).1
    · rw [cancelled_close]
      rcases watched uri k held started at_ given unfinished with cancelled | ⟨r, mem, token⟩
      · left
        apply cancelled
      · right
        use r
  · intro uri held k started at_ given live cancelled
    rw [run_append] at cancelled
    rw [(tracks.started k started given).1] at live cancelled
    have registered : ∀ {other r}, r ∈ (run calls).registered other → r.token = k → other = uri := by
      rintro other r mem rfl
      obtain ⟨⟨_, at_'⟩, _⟩ := tracks.running other r mem
      rw [at_, some_inj] at at_'
      cases at_'
      rfl
    cases op with
    | supersede other =>
      rw [cancelled_supersede, live] at cancelled
      rcases cancelled with eq | ⟨r, mem, token, _⟩
      · cases eq
      · left
        rw [registered mem token]
    | close other =>
      rw [cancelled_close, live] at cancelled
      rcases cancelled with eq | ⟨r, mem, token⟩
      · cases eq
      · right
        rw [registered mem token]
    | finish other held' =>
      rw [cancelled_finish, live] at cancelled
      cases cancelled
    | start other held' =>
      have ne := Nat.ne_of_lt (lt_of_getElem at_)
      cases returned : (run calls).generations held' with
      | none =>
        simp only [Session.step, returned] at cancelled
        rw [live] at cancelled
        cases cancelled
      | some current =>
        rcases start_cases other returned with ⟨_, _, _, step⟩ | ⟨_, step⟩
        · rw [step, tracks.clock] at cancelled
          dsimp only at cancelled
          rw [update_of_ne ne, live] at cancelled
          cases cancelled
        · rw [step, tracks.clock] at cancelled
          dsimp only at cancelled
          rw [update_of_ne ne, live] at cancelled
          cases cancelled
  · rintro uri held started rfl given
    rw [run_append, registered_finish given]
    constructor
    · apply filter_congr
      intro r mem
      rw [decide_eq_decide, not_iff_not]
      apply ticket_eq_iff tracks given _ mem
      intro r mem same
      apply fits.ticket uri held started r rfl given mem same
    · intro other ne
      apply registered_finish_of_ne ne

/-- A call that does what it is to do does not mistake what it holds. -/
theorem fits_of_exact {op : Op Url} (exact_ : Exact calls op) :
  Fits calls op
  := by
  have tracks := tracks_run calls
  constructor
  · rintro uri held entry rfl found given
    have returned : (run calls).generations held ≠ none := by
      rw [given]
      simp
    obtain ⟨started, answer, iff_⟩ := exact_.starts uri held rfl returned
    rw [run_append] at answer iff_
    obtain ⟨started', answer', live⟩ := start_answer uri tracks given
    rw [answer, some_inj] at answer'
    subst answer'
    have latest := iff_.mp (live.mpr ⟨entry, found, rfl⟩)
    have open_ := latest.openSince
    obtain ⟨other, at_⟩ := tracks.superseded held _ given
    obtain ⟨⟨op, at_', retires⟩, _⟩ := latest
    refine ⟨?_, open_⟩
    rw [at_, some_inj] at at_'
    subst at_'
    rcases retires with eq | eq
    · cases eq
      apply at_
    · cases eq
  · rintro uri held started r rfl given mem same
    obtain ⟨retired, _⟩ := exact_.retires uri held started rfl given
    rw [run_append, registered_finish given] at retired
    have token : r.token = started.token := by
      by_contra differs
      have kept : r ∈ ((run calls).registered uri).filter (·.token ≠ started.token) := by
        rw [mem_filter, decide_eq_true_eq]
        exact ⟨mem, differs⟩
      rw [← retired, mem_filter, decide_eq_true_eq] at kept
      apply kept.2 same
    obtain ⟨⟨generation, at_⟩, _, open_, _⟩ := tracks.running uri r mem
    rw [token, (tracks.started held started given).1] at at_ open_
    exact ⟨⟨generation, at_⟩, open_⟩

theorem watched_run (fits : FitsRun calls) :
  Watched calls (run calls)
  := by
  induction calls using List.reverseRecOn with
  | nil =>
    intro uri k held st at_
    cases at_
  | append_singleton calls op ih =>
    have before : FitsRun calls := by
      intro before op' after eq
      apply fits before op' (after ++ [op])
      rw [eq, append_assoc, cons_append]
    rw [run_append]
    apply (ih before).step (tracks_run calls)
    intro uri held started r eq given mem same
    apply (fits calls op [] rfl).ticket uri held started r eq given mem same

/-- A run does what it is to do exactly when no call of it mistakes what it holds. -/
theorem exact_run_iff (calls : List (Op Url)) :
  ExactRun calls ↔ FitsRun calls
  := by
  constructor
  · intro exact_ before op after eq
    apply fits_of_exact (exact_ before op after eq)
  · intro fits before op after eq
    apply exact_of_fits _ (fits before op after eq)
    apply watched_run
    intro before' op' after' eq'
    apply fits before' op' (after' ++ op :: after)
    rw [eq, eq', append_assoc, cons_append]

/-- A generation held across a close is taken for one of the entry made since. -/
theorem reopened_not_exact :
  ¬ ExactRun [Op.supersede 0, .close 0, .supersede 0, .start 0 0]
  := by
  intro exact_
  obtain ⟨started, answer, live⟩ :=
    (exact_ [.supersede 0, .close 0, .supersede 0] (.start 0 0) [] rfl).starts 0 0 rfl (by decide)
  have same : started = ⟨1, 3⟩ := by
    have answer' : (run ([Op.supersede 0, .close 0, .supersede 0] ++ [.start 0 0])).starteds 3 =
        some ⟨1, 3⟩ := by decide
    apply some_inj.mp (answer.symm.trans answer')
  subst same
  have latest := live.mp (by decide)
  apply latest.2 1 (.close 0) (by decide) rfl (Or.inr rfl)

end Vilan.Lsp
