import Vilan.Reactive.Tracking

/-!
# Tracked edges follow the last run

Whatever happens to a stage, its edges are what its account of handles has open, and where it is
attached closing a run leaves one edge for each read of the run, in the order of the reads.
-/

namespace Vilan

open List

namespace Tracking

open Accounts

/-- The handle an event attaches. -/
def Event.opens : Event → Option ℕ
  | attach handle _ => some handle
  | _ => none

/-- The handle an event detaches. -/
def Event.closes : Event → Option ℕ
  | detach handle => some handle
  | _ => none

/-- The handles of edges. -/
def handles (edges : List Edge) : List ℕ :=
  edges.map Edge.handle

/-- An edge to a source. -/
def Follows (log : List Event) (source : Source) (edge : Edge) : Prop :=
  edge.identity = source.identity ∧ Event.attach edge.handle source ∈ log

/-- Each name is read at most once. -/
def Once (sources : List Source) : Prop :=
  (sources.filterMap Source.identity).Nodup

theorem count_closes (log : List Event) (handle : ℕ) :
  (log.filterMap Event.closes).count handle = log.count (.detach handle)
  := by
  induction log with
  | nil => rfl
  | cons event log ih =>
    rw [count_cons, ← ih]
    cases event with
    | attach other source => rfl
    | wake target => rfl
    | detach other =>
      have closes : (Event.detach other).closes = some other := rfl
      rw [filterMap_cons_some closes, count_cons]
      simp only [beq_iff_eq, Event.detach.injEq]

/-- What holds of a stage, whatever has happened to it. -/
structure Tracks (stage : Stage) : Prop where
  balanced : Balanced Event.opens Event.closes stage.log stage.nextHandle (handles stage.edges)
  follows : ∀ edge ∈ stage.edges, ∃ source, Follows stage.log source edge
  named : (stage.edges.filterMap Edge.identity).Nodup
  reading : Once stage.reading
  read : Once stage.read
  detached : stage.target = none → stage.edges = []
  attached : stage.target ≠ none → stage.read = []
  idle : stage.connecting = false

/-! ### One edge -/

variable {log : List Event} {held edges : List Edge} {kept : List Bool} {reading : List Source}

theorem Follows.mono {more : List Event} {source : Source} {edge : Edge}
    (follows : Follows log source edge) :
  Follows (log ++ more) source edge
  := ⟨follows.1, mem_append_left more follows.2⟩

theorem Source.eq_named {source : Source} {identity : ℤ} (h : source.identity = some identity) :
  source = .named identity
  := by
  cases source with
  | named other =>
    rw [Source.identity, Option.some_inj] at h
    rw [h]
  | unnamed => cases h

/-- The edge at an index is free for a name. -/
def Free (held : List Edge) (kept : List Bool) (wanted : ℤ) (index : ℕ) : Prop :=
  kept[index]? = some false ∧ ∃ edge, held[index]? = some edge ∧ edge.identity = some wanted

theorem reusable_some {identity : Option ℤ} {position index : ℕ}
    (h : reusable held kept identity position = some index) :
  ∃ wanted, identity = some wanted ∧ Free held kept wanted index
  := by
  cases identity with
  | none => cases h
  | some wanted =>
    use wanted, rfl
    rw [reusable] at h
    dsimp only at h
    split at h
    next free =>
      rw [Option.some_inj] at h
      subst h
      rw [Option.bind_eq_some_iff] at free
      exact free.2
    next =>
      have free := find?_some h
      rw [decide_eq_true_iff, Option.bind_eq_some_iff] at free
      exact free

theorem reusable_none {wanted : ℤ} {position : ℕ}
    (h : reusable held kept (some wanted) position = none) (index : ℕ) :
  ¬ Free held kept wanted index
  := by
  rw [reusable] at h
  dsimp only at h
  split at h
  next => cases h
  next =>
    rw [find?_eq_none] at h
    rintro ⟨free, edge, at_, names⟩
    obtain ⟨lt, _⟩ := List.getElem?_eq_some_iff.mp at_
    apply h index (mem_range.mpr lt)
    rw [decide_eq_true_iff, at_]
    exact ⟨free, names⟩

namespace Stage

/-- What attaching leaves while edges go up. -/
theorem attach_connecting (notifies : ℕ → Bool) (target : ℕ) (source : Source) {stage : Stage}
    (connecting : stage.connecting = true) :
  (stage.attach notifies target source).log = stage.log ++ [.attach stage.nextHandle source] ∧
    (stage.attach notifies target source).nextHandle = stage.nextHandle + 1 ∧
    (stage.attach notifies target source).connecting = true ∧
    (stage.attach notifies target source).lists = stage.lists ∧
    (stage.attach notifies target source).target = stage.target ∧
    (stage.attach notifies target source).running = stage.running ∧
    (stage.attach notifies target source).epoch = stage.epoch
  := by
  rw [attach]
  split
  next =>
    rw [relay, if_pos connecting]
    exact ⟨rfl, rfl, connecting, rfl, rfl, rfl, rfl⟩
  next => exact ⟨rfl, rfl, connecting, rfl, rfl, rfl, rfl⟩

end Stage

/-! ### The edges go up -/

section

variable (notifies : ℕ → Bool) (target : ℕ)

/-- What a run of attaches has done from `first` to `stage`. -/
structure Attached (first stage : Stage) (live : List ℕ) : Prop where
  made : ∃ made, stage.log = first.log ++ made ∧ ∀ event ∈ made, event.opens ≠ none
  le : first.nextHandle ≤ stage.nextHandle
  balanced : Balanced Event.opens Event.closes stage.log stage.nextHandle
    (live ++ List.range' first.nextHandle (stage.nextHandle - first.nextHandle))
  connecting : stage.connecting = true
  lists : stage.lists = first.lists
  target : stage.target = first.target
  running : stage.running = first.running
  epoch : stage.epoch = first.epoch

theorem Attached.refl (stage : Stage) {live : List ℕ}
    (balanced : Balanced Event.opens Event.closes stage.log stage.nextHandle live)
    (connecting : stage.connecting = true) :
  Attached stage stage live
  := by
  refine ⟨⟨[], (append_nil _).symm, ?_⟩, Nat.le_refl _, ?_, connecting, rfl, rfl, rfl, rfl⟩
  · intro event mem
    cases mem
  · rw [Nat.sub_self, range'_zero, append_nil]
    apply balanced

variable {first stage : Stage} {held : List Edge}

/-- One more attach. -/
theorem Attached.attach {live : List ℕ} (attached : Attached first stage live) (source : Source) :
  Attached first (stage.attach notifies target source) live
  := by
  obtain ⟨log, next, connecting, lists, target_, running, epoch⟩ :=
    Stage.attach_connecting notifies target source attached.connecting
  obtain ⟨made, made_eq, opens⟩ := attached.made
  have le := attached.le
  refine ⟨⟨made ++ [.attach stage.nextHandle source], ?_, ?_⟩, ?_, ?_, connecting,
    lists.trans attached.lists, target_.trans attached.target, running.trans attached.running,
    epoch.trans attached.epoch⟩
  · rw [log, made_eq, append_assoc]
  · intro event mem
    rw [mem_append, mem_singleton] at mem
    rcases mem with mem | rfl
    · apply opens event mem
    · exact Option.some_ne_none _
  · omega
  · have opening : (Event.attach stage.nextHandle source).opens = some stage.nextHandle := rfl
    have balanced := attached.balanced.opening opening rfl
    have count : stage.nextHandle + 1 - first.nextHandle
        = (stage.nextHandle - first.nextHandle) + 1 := by omega
    have last : first.nextHandle + (stage.nextHandle - first.nextHandle) = stage.nextHandle := by
      omega
    rw [log, next, count, range'_1_concat, last, ← append_assoc]
    apply balanced

/-- Attaching to the reads makes an edge for each. -/
theorem attachEach_spec (read : List Source) {done : List Source} {edges : List Edge}
    (attached : Attached first stage [])
    (handles_eq : handles edges = List.range' first.nextHandle (stage.nextHandle - first.nextHandle))
    (follows : List.Forall₂ (Follows stage.log) done edges) :
  Attached first (attachEach notifies target read edges stage).2 [] ∧
    handles (attachEach notifies target read edges stage).1
      = List.range' first.nextHandle
        ((attachEach notifies target read edges stage).2.nextHandle - first.nextHandle) ∧
    List.Forall₂ (Follows (attachEach notifies target read edges stage).2.log) (done ++ read)
      (attachEach notifies target read edges stage).1
  := by
  induction read generalizing stage done edges with
  | nil =>
    rw [attachEach, append_nil]
    use attached, handles_eq, follows
  | cons source read ih =>
    obtain ⟨log, next, _⟩ := Stage.attach_connecting notifies target source attached.connecting
    have le := attached.le
    rw [attachEach, append_cons done source read]
    apply ih (attached.attach notifies target source)
    · have count : stage.nextHandle + 1 - first.nextHandle
          = (stage.nextHandle - first.nextHandle) + 1 := by omega
      have last : first.nextHandle + (stage.nextHandle - first.nextHandle)
          = stage.nextHandle := by omega
      rw [next, count, range'_1_concat, last, handles, map_append, ← handles, handles_eq]
      rfl
    · rw [log]
      apply rel_append
      · apply follows.imp
        intro source edge
        apply Follows.mono
      · apply List.Forall₂.cons _ List.Forall₂.nil
        use rfl
        apply mem_append_right _ (mem_singleton_self _)

/-- What connecting has done with the reads so far: `kept` marks the edges that are reused. -/
structure Connecting (first : Stage) (held : List Edge) (done : List Source) (kept : List Bool)
    (next : List Edge) (stage : Stage) : Prop where
  attached : Attached first stage (handles held)
  length : kept.length = held.length
  mem : ∀ handle, handle ∈ handles next ↔
    (∃ (i : ℕ) (edge : Edge), held[i]? = some edge ∧ kept[i]? = some true ∧
      edge.handle = handle) ∨ first.nextHandle ≤ handle ∧ handle < stage.nextHandle
  nodup : (handles next).Nodup
  follows : List.Forall₂ (Follows stage.log) done next
  keptBy : ∀ (i : ℕ) (edge : Edge), held[i]? = some edge → kept[i]? = some true →
    ∃ source ∈ done, source.identity = edge.identity ∧ edge.identity ≠ none
  reuses : ∀ source ∈ done, source.identity ≠ none →
    ∀ edge ∈ held, edge.identity = source.identity → edge ∈ next

theorem handle_inj (nodup : (handles held).Nodup) {i j : ℕ} {edge other : Edge}
    (at_ : held[i]? = some edge) (at_' : held[j]? = some other)
    (same : edge.handle = other.handle) :
  i = j
  := by
  obtain ⟨lt, here⟩ := List.getElem?_eq_some_iff.mp at_
  obtain ⟨lt', here'⟩ := List.getElem?_eq_some_iff.mp at_'
  have both := (nodup_iff_injective_get.mp nodup)
  have eq := @both ⟨i, by rw [handles, length_map]; apply lt⟩
    ⟨j, by rw [handles, length_map]; apply lt'⟩ (by
      simp only [handles, get_eq_getElem, getElem_map, here, here', same])
  apply Fin.mk.inj_iff.mp eq

theorem named_inj (named : (held.filterMap Edge.identity).Nodup) {edge other : Edge}
    (mem : edge ∈ held) (mem' : other ∈ held) {wanted : ℤ} (names : edge.identity = some wanted)
    (names' : other.identity = some wanted) :
  edge = other
  := by
  induction held with
  | nil => cases mem
  | cons head held ih =>
    have tail : (held.filterMap Edge.identity).Nodup := by
      apply List.Nodup.sublist _ named
      apply List.Sublist.filterMap
      apply sublist_cons_self
    have apart : ∀ third ∈ held, third.identity = some wanted → head.identity ≠ some wanted := by
      intro third mem third_names head_names
      rw [filterMap_cons_some head_names, nodup_cons, mem_filterMap] at named
      apply named.1
      use third
    rw [mem_cons] at mem mem'
    rcases mem with rfl | mem
    · rcases mem' with rfl | mem'
      · rfl
      · exact absurd names (apart other mem' names')
    · rcases mem' with rfl | mem'
      · exact absurd names' (apart edge mem names)
      · apply ih tail mem mem'

section

variable {notifies : ℕ → Bool} {target : ℕ} {first stage : Stage} {held next : List Edge}
  {done : List Source} {kept : List Bool} {source : Source}

/-- A read that reuses an edge. -/
theorem Connecting.reuse (connecting : Connecting first held done kept next stage)
    (known : ∀ edge ∈ held, ∃ source, Follows first.log source edge)
    (named : (held.filterMap Edge.identity).Nodup) {index : ℕ} {wanted : ℤ}
    (names : source.identity = some wanted) (free : Free held kept wanted index) :
  Connecting first held (done ++ [source]) (kept.set index true) (next ++ held[index]?.toList) stage
  := by
  obtain ⟨free, edge, at_, names'⟩ := free
  obtain ⟨bound, _⟩ := List.getElem?_eq_some_iff.mp free
  have mem := mem_of_getElem? at_
  have live := connecting.attached.balanced.nodup
  rw [nodup_append] at live
  have absent : edge.handle ∉ handles next := by
    rw [connecting.mem]
    rintro (⟨i, other, at_', taken, same⟩ | ⟨le, lt⟩)
    · have eq := handle_inj live.1 at_' at_ same
      rw [eq, free] at taken
      cases taken
    · apply live.2.2 edge.handle (List.mem_map_of_mem mem) edge.handle _ rfl
      rw [mem_range'_1]
      omega
  rw [at_, Option.toList_some]
  constructor
  · apply connecting.attached
  · rw [length_set, connecting.length]
  · intro handle
    rw [handles, map_append, mem_append, ← handles, connecting.mem, map_singleton, mem_singleton]
    constructor
    · rintro ((⟨i, other, at_', taken, same⟩ | fresh) | rfl)
      · left
        use i, other, at_'
        refine ⟨?_, same⟩
        by_cases here : index = i
        · rw [here, getElem?_set_self (here ▸ bound)]
        · rw [getElem?_set_ne here, taken]
      · right
        apply fresh
      · left
        use index, edge, at_
        rw [getElem?_set_self bound]
        exact ⟨rfl, rfl⟩
    · rintro (⟨i, other, at_', taken, same⟩ | fresh)
      · by_cases here : index = i
        · right
          subst here
          rw [at_, Option.some_inj] at at_'
          rw [at_', same]
        · left
          left
          rw [getElem?_set_ne here] at taken
          use i, other
      · left
        right
        apply fresh
  · rw [handles, map_append, map_singleton, ← handles, nodup_append_comm]
    apply List.Nodup.cons absent connecting.nodup
  · apply rel_append connecting.follows
    apply List.Forall₂.cons _ List.Forall₂.nil
    obtain ⟨other, same, made⟩ := known edge mem
    obtain ⟨more, log, _⟩ := connecting.attached.made
    rw [names'] at same
    have eq : source = other := by
      rw [Source.eq_named names, Source.eq_named same.symm]
    rw [eq]
    constructor
    · rw [names', same]
    · rw [log]
      apply mem_append_left _ made
  · intro i other at_' taken
    by_cases here : index = i
    · subst here
      rw [at_, Option.some_inj] at at_'
      subst at_'
      use source, mem_append_right _ (mem_singleton_self _)
      rw [names, names']
      exact ⟨rfl, Option.some_ne_none _⟩
    · rw [getElem?_set_ne here] at taken
      obtain ⟨source', mem', rest⟩ := connecting.keptBy i other at_' taken
      use source', mem_append_left _ mem'
  · intro source' mem' named' other other_mem same
    rw [mem_append, mem_singleton] at mem'
    rcases mem' with mem' | rfl
    · apply mem_append_left _ (connecting.reuses source' mem' named' other other_mem same)
    · apply mem_append_right
      rw [names] at same
      rw [named_inj named other_mem mem same names']
      apply mem_singleton_self

/-- A read that attaches an edge. -/
theorem Connecting.fresh (connecting : Connecting first held done kept next stage)
    (once : Once (done ++ [source])) {position : ℕ}
    (none_ : reusable held kept source.identity position = none) :
  Connecting first held (done ++ [source]) kept
    (next ++ [{ identity := source.identity, handle := stage.nextHandle }])
    (stage.attach notifies target source)
  := by
  obtain ⟨log, handle_eq, _⟩ :=
    Stage.attach_connecting notifies target source connecting.attached.connecting
  have le := connecting.attached.le
  have bound := connecting.attached.balanced.bound
  have absent : stage.nextHandle ∉ handles next := by
    rw [connecting.mem]
    rintro (⟨i, other, at_, _, same⟩ | ⟨_, lt⟩)
    · have lt := bound other.handle
        (mem_append_left _ (List.mem_map_of_mem (mem_of_getElem? at_)))
      omega
    · omega
  constructor
  · apply connecting.attached.attach
  · apply connecting.length
  · intro handle
    rw [handles, map_append, mem_append, ← handles, connecting.mem, map_singleton,
      mem_singleton, handle_eq, or_assoc]
    apply or_congr_right
    dsimp only
    omega
  · rw [handles, map_append, map_singleton, ← handles, nodup_append_comm]
    apply List.Nodup.cons absent connecting.nodup
  · rw [log]
    apply rel_append
    · apply connecting.follows.imp
      intro source edge
      apply Follows.mono
    · apply List.Forall₂.cons _ List.Forall₂.nil
      use rfl
      apply mem_append_right _ (mem_singleton_self _)
  · intro i edge at_ taken
    obtain ⟨source', mem, rest⟩ := connecting.keptBy i edge at_ taken
    use source', mem_append_left _ mem
  · intro source' mem named edge edge_mem same
    rw [mem_append, mem_singleton] at mem
    rcases mem with mem | rfl
    · apply mem_append_left _ (connecting.reuses source' mem named edge edge_mem same)
    · obtain ⟨wanted, names⟩ := Option.ne_none_iff_exists'.mp named
      rw [names] at none_ same
      obtain ⟨i, lt, here⟩ := mem_iff_getElem.mp edge_mem
      have at_ : held[i]? = some edge := by rw [getElem?_eq_getElem lt, here]
      have taken : kept[i]? = some true := by
        rw [← connecting.length] at lt
        cases flag : kept[i] with
        | true => rw [getElem?_eq_getElem lt, flag]
        | false =>
          exfalso
          apply reusable_none none_ i
          use by rw [getElem?_eq_getElem lt, flag], edge
      obtain ⟨other, mem, names', _⟩ := connecting.keptBy i edge at_ taken
      rw [same] at names'
      rw [Once, filterMap_append, filterMap_cons_some names, filterMap_nil, nodup_append] at once
      exfalso
      apply once.2.2 wanted _ wanted (mem_singleton_self _) rfl
      rw [mem_filterMap]
      use other

end

/-- The reads in order. -/
theorem connect_spec {next : List Edge} {done reading : List Source} {kept : List Bool}
    (position : ℕ) (connecting : Connecting first held done kept next stage)
    (known : ∀ edge ∈ held, ∃ source, Follows first.log source edge)
    (named : (held.filterMap Edge.identity).Nodup) (once : Once (done ++ reading)) :
  Connecting first held (done ++ reading)
    (connect notifies target held position reading kept next stage).1
    (connect notifies target held position reading kept next stage).2.1
    (connect notifies target held position reading kept next stage).2.2
  := by
  induction reading generalizing stage next done kept position with
  | nil =>
    rw [append_nil, connect]
    apply connecting
  | cons source reading ih =>
    rw [connect]
    rw [append_cons] at once ⊢
    cases reused : reusable held kept source.identity position with
    | some index =>
      obtain ⟨wanted, names, free⟩ := reusable_some reused
      apply ih _ (connecting.reuse known named names free) once
    | none =>
      have once' : Once (done ++ [source]) := by
        apply List.Nodup.sublist _ once
        apply List.Sublist.filterMap
        apply sublist_append_left
      apply ih _ (connecting.fresh once' reused) once

end

/-! ### A run closes -/

/-- The edges that a run which read `reading` leaves, and what they cost: every attach comes before
every detach. -/
structure Wired (before after : Stage) (held : List Edge) (reading : List Source)
    (edges : List Edge) : Prop where
  follows : List.Forall₂ (Follows after.log) reading edges
  balanced : Balanced Event.opens Event.closes after.log after.nextHandle (handles edges)
  reuses : ∀ source ∈ reading, source.identity ≠ none →
    ∀ edge ∈ held, edge.identity = source.identity → edge ∈ edges
  log : ∃ made gone, after.log = before.log ++ made ++ gone ∧
    (∀ event ∈ made, event.opens ≠ none) ∧ ∀ event ∈ gone, event.closes ≠ none

theorem mem_unkept {edge : Edge} :
  edge ∈ unkept held kept ↔ ∃ i : ℕ, held[i]? = some edge ∧ kept[i]? = some false
  := by
  rw [unkept, List.mem_map]
  constructor
  · rintro ⟨⟨other, flag⟩, mem, rfl⟩
    rw [mem_filter, Bool.not_eq_true'] at mem
    obtain ⟨i, lt, at_⟩ := mem_iff_getElem.mp mem.1
    have both := getElem?_zip_eq_some.mp ((getElem?_eq_getElem lt).trans (congrArg some at_))
    use i, both.1
    rw [both.2, mem.2]
  · rintro ⟨i, at_, free⟩
    use (edge, false)
    rw [mem_filter]
    refine ⟨⟨?_, rfl⟩, rfl⟩
    have both : (held.zip kept)[i]? = some (edge, false) :=
      getElem?_zip_eq_some.mpr ⟨at_, free⟩
    apply mem_of_getElem? both

theorem unkept_sublist (held : List Edge) (kept : List Bool) :
  (unkept held kept).Sublist held
  := by
  induction held generalizing kept with
  | nil => apply List.Sublist.refl
  | cons edge held ih =>
    cases kept with
    | nil => apply nil_sublist
    | cons flag kept =>
      cases flag with
      | true => apply (ih kept).cons
      | false => apply (ih kept).cons_cons

theorem detaches_open (edges : List Edge) :
  ∀ event ∈ edges.map fun edge => Event.detach edge.handle, event.opens = none
  := by
  intro event mem
  rw [List.mem_map] at mem
  obtain ⟨edge, _, rfl⟩ := mem
  rfl

theorem detaches_close (edges : List Edge) :
  (edges.map fun edge => Event.detach edge.handle).map Event.closes = (handles edges).map some
  := by
  rw [handles, List.map_map, List.map_map]
  rfl

/-- The edges that no read kept are detached once all edges stand. -/
theorem Connecting.wired {first stage : Stage} {next : List Edge} {done : List Source}
    (connecting : Connecting first held done kept next stage) (before after : Stage)
    (log_eq : first.log = before.log)
    (log_eq' : after.log = stage.log ++ (unkept held kept).map fun edge => .detach edge.handle)
    (handle_eq : after.nextHandle = stage.nextHandle) :
  Wired before after held done next
  := by
  have balanced := connecting.attached.balanced
  have live := balanced.nodup
  rw [nodup_append] at live
  have gone_sub : (handles (unkept held kept)).Sublist (handles held) :=
    (unkept_sublist held kept).map Edge.handle
  have closed := balanced.closing_each (detaches_open (unkept held kept))
    (detaches_close (unkept held kept)) (List.Nodup.sublist gone_sub live.1) (by
      intro ticket mem
      apply mem_append_left _ (gone_sub.mem mem))
  constructor
  · rw [log_eq']
    apply connecting.follows.imp
    intro source edge
    apply Follows.mono
  · rw [log_eq', handle_eq]
    apply closed.congr connecting.nodup
    intro handle
    rw [connecting.mem, mem_filter, mem_append, mem_range'_1, decide_eq_true_iff]
    have le := connecting.attached.le
    constructor
    · rintro (⟨i, edge, at_, taken, rfl⟩ | ⟨le', lt⟩)
      · use Or.inl (List.mem_map_of_mem (mem_of_getElem? at_))
        intro mem
        rw [handles, List.mem_map] at mem
        obtain ⟨other, mem, same⟩ := mem
        rw [mem_unkept] at mem
        obtain ⟨j, at_', free⟩ := mem
        rw [handle_inj live.1 at_' at_ same, taken] at free
        cases free
      · use Or.inr (by omega)
        intro mem
        apply live.2.2 handle (gone_sub.mem mem) handle _ rfl
        rw [mem_range'_1]
        omega
    · rintro ⟨mem | ⟨le', lt⟩, stays⟩
      · left
        rw [handles, List.mem_map] at mem
        obtain ⟨edge, mem, rfl⟩ := mem
        obtain ⟨i, lt, here⟩ := mem_iff_getElem.mp mem
        have at_ : held[i]? = some edge := by rw [getElem?_eq_getElem lt, here]
        have lt' : i < kept.length := by
          rw [connecting.length]
          apply lt
        use i, edge, at_
        refine ⟨?_, rfl⟩
        cases flag : kept[i] with
        | true => rw [getElem?_eq_getElem lt', flag]
        | false =>
          exfalso
          apply stays
          apply List.mem_map_of_mem
          rw [mem_unkept]
          use i, at_
          rw [getElem?_eq_getElem lt', flag]
      · right
        omega
  · apply connecting.reuses
  · obtain ⟨made, made_eq, opens⟩ := connecting.attached.made
    use made, (unkept held kept).map fun edge => .detach edge.handle
    rw [log_eq', made_eq, log_eq]
    refine ⟨rfl, opens, ?_⟩
    intro event mem
    rw [List.mem_map] at mem
    obtain ⟨edge, _, rfl⟩ := mem
    exact Option.some_ne_none _

/-- Reconnecting wires what the run read. -/
theorem reconnect_spec (notifies : ℕ → Bool) (target : ℕ) (stage : Stage) {lists : Lists}
    (balanced : Balanced Event.opens Event.closes stage.log stage.nextHandle (handles lists.edges))
    (known : ∀ edge ∈ lists.edges, ∃ source, Follows stage.log source edge)
    (named : (lists.edges.filterMap Edge.identity).Nodup) (once : Once lists.reading)
    (held : stage.lists = some lists) (idle : stage.connecting = false) :
  ∃ edges, (reconnect notifies target lists stage).lists = some { lists with edges } ∧
    (reconnect notifies target lists stage).connecting = false ∧
    (reconnect notifies target lists stage).target = stage.target ∧
    Wired stage (reconnect notifies target lists stage) lists.edges lists.reading edges
  := by
  rw [reconnect]
  split
  next nothing =>
    rw [List.isEmpty_iff, List.isEmpty_iff] at nothing
    use []
    rw [held]
    refine ⟨?_, idle, rfl, ?_, ?_, ?_, [], [], ?_⟩
    · rw [← nothing.2]
    · rw [nothing.1]
      apply List.Forall₂.nil
    · rw [← nothing.2]
      apply balanced
    · intro source mem
      rw [nothing.1] at mem
      cases mem
    · rw [append_nil, append_nil]
      refine ⟨rfl, ?_, ?_⟩
      · intro event mem
        cases mem
      · intro event mem
        cases mem
  next =>
    have start : Connecting { stage with connecting := true } lists.edges []
        (lists.edges.map fun _ => false) [] { stage with connecting := true } := by
      constructor
      · apply Attached.refl { stage with connecting := true } balanced rfl
      · rw [length_map]
      · intro handle
        constructor
        · intro mem
          cases mem
        · rintro (⟨i, edge, _, taken, _⟩ | ⟨le, lt⟩)
          · rw [getElem?_map, Option.map_eq_some_iff] at taken
            obtain ⟨_, _, contra⟩ := taken
            cases contra
          · dsimp only at le lt
            omega
      · apply nodup_nil
      · apply List.Forall₂.nil
      · intro i edge _ taken
        rw [getElem?_map, Option.map_eq_some_iff] at taken
        obtain ⟨_, _, contra⟩ := taken
        cases contra
      · intro source mem
        cases mem
    have done := connect_spec notifies target 0 start known named once
    rw [nil_append] at done
    use (connect notifies target lists.edges 0 lists.reading (lists.edges.map fun _ => false) []
      { stage with connecting := true }).2.1, rfl, rfl, done.attached.target
    exact done.wired stage _ rfl rfl rfl

/-! ### Every call -/

theorem once_nil :
  Once []
  := nodup_nil

/-- The edges of a run have the names of what it read. -/
theorem named_of_follows (follows : List.Forall₂ (Follows log) reading edges) :
  edges.filterMap Edge.identity = reading.filterMap Source.identity
  := by
  induction follows with
  | nil => rfl
  | cons here _ ih => rw [filterMap_cons, filterMap_cons, here.1, ih]

theorem known_of_follows (follows : List.Forall₂ (Follows log) reading edges) :
  ∀ edge ∈ edges, ∃ source, Follows log source edge
  := by
  induction follows with
  | nil =>
    intro edge mem
    cases mem
  | @cons source edge _ _ here _ ih =>
    intro other mem
    rw [mem_cons] at mem
    rcases mem with rfl | mem
    · use source
    · apply ih other mem

theorem Wired.tracks {before after : Stage} (wired : Wired before after held reading edges)
    (once : Once reading) (lists : after.lists = some { reading := [], read := [], edges })
    (aimed : after.target ≠ none) (idle : after.connecting = false) :
  Tracks after
  := by
  have lists' : after.listsOf = { reading := [], read := [], edges } := by
    rw [Stage.listsOf, lists]
    rfl
  constructor
  · rw [Stage.edges, lists']
    apply wired.balanced
  · rw [Stage.edges, lists']
    apply known_of_follows wired.follows
  · rw [Stage.edges, lists', named_of_follows wired.follows]
    apply once
  · rw [Stage.reading, lists']
    apply once_nil
  · rw [Stage.read, lists']
    apply once_nil
  · intro none_
    exact absurd none_ aimed
  · intro _
    rw [Stage.read, lists']
  · apply idle

section

variable {stage : Stage}

/-- What a run that closes attached leaves. -/
theorem closeRun_spec (notifies : ℕ → Bool) (tracks : Tracks stage) {target : ℕ}
    (aimed : stage.target = some target) :
  Tracks (stage.closeRun notifies) ∧ (stage.closeRun notifies).target = some target ∧
    Wired stage (stage.closeRun notifies) stage.edges stage.reading
      (stage.closeRun notifies).edges
  := by
  cases held : stage.lists with
  | none =>
    have empty : stage.listsOf = { reading := [], read := [], edges := [] } := by
      rw [Stage.listsOf, held]
      rfl
    have closed : stage.closeRun notifies = { stage with running := false } := by
      rw [Stage.closeRun, held]
    have balanced := tracks.balanced
    rw [closed]
    refine ⟨⟨tracks.balanced, tracks.follows, tracks.named, tracks.reading, tracks.read,
      tracks.detached, tracks.attached, tracks.idle⟩, aimed, ?_⟩
    have reading : stage.reading = [] := by rw [Stage.reading, empty]
    have edges : stage.edges = [] := by rw [Stage.edges, empty]
    have edges' : Stage.edges { stage with running := false } = [] := edges
    rw [reading, edges']
    rw [edges] at balanced ⊢
    refine ⟨List.Forall₂.nil, balanced, ?_, [], [], ?_, ?_, ?_⟩
    · intro source mem
      cases mem
    · rw [append_nil, append_nil]
    · intro event mem
      cases mem
    · intro event mem
      cases mem
  | some lists =>
    have lists' : stage.listsOf = lists := by
      rw [Stage.listsOf, held]
      rfl
    have read := tracks.attached (by rw [aimed]; exact Option.some_ne_none target)
    have reading := tracks.reading
    have balanced := tracks.balanced
    have follows := tracks.follows
    have named := tracks.named
    rw [Stage.edges, lists'] at balanced follows named
    rw [Stage.read, lists'] at read
    rw [Stage.reading, lists'] at reading
    obtain ⟨edges, wired_lists, idle, target_, wired⟩ :=
      reconnect_spec notifies target { stage with running := false } balanced follows named
        reading held tracks.idle
    have closed : stage.closeRun notifies
        = { reconnect notifies target lists { stage with running := false } with
            lists := some { reading := [], read := [], edges } } := by
      rw [Stage.closeRun]
      split
      next none_ =>
        rw [held] at none_
        cases none_
      next lists' some_ =>
        rw [held, Option.some_inj] at some_
        subst some_
        split
        next target' aimed' =>
          rw [aimed, Option.some_inj] at aimed'
          subst aimed'
          dsimp only
          rw [wired_lists, Option.map_some, read]
        next none_ =>
          rw [aimed] at none_
          cases none_
    have aimed' : (stage.closeRun notifies).target = some target := by
      rw [closed]
      exact target_.trans aimed
    have edges_eq : (stage.closeRun notifies).edges = edges := by
      rw [closed]
      rfl
    have wired' : Wired stage (stage.closeRun notifies) lists.edges lists.reading edges := by
      rw [closed]
      exact ⟨wired.follows, wired.balanced, wired.reuses, wired.log⟩
    refine ⟨wired'.tracks reading ?_ ?_ ?_, aimed', ?_⟩
    · rw [closed]
    · rw [aimed']
      exact Option.some_ne_none target
    · rw [closed]
      apply idle
    · rw [edges_eq, Stage.edges, Stage.reading, lists']
      apply wired'

variable {stage' : Stage}

/-- What a stage tracks is a matter of its lists, its log, and whether it is attached. -/
theorem Tracks.congr (tracks : Tracks stage) (lists : stage'.listsOf = stage.listsOf)
    (log : stage'.log = stage.log) (next : stage'.nextHandle = stage.nextHandle)
    (target : stage'.target = stage.target) (connecting : stage'.connecting = stage.connecting) :
  Tracks stage'
  := by
  obtain ⟨balanced, follows, named, reading, read, detached, attached, idle⟩ := tracks
  rw [Stage.edges, ← lists] at balanced follows named detached
  rw [Stage.reading, ← lists] at reading
  rw [Stage.read, ← lists] at read attached
  rw [← log, ← next] at balanced
  rw [← log] at follows
  rw [← target] at detached attached
  rw [← connecting] at idle
  exact ⟨balanced, follows, named, reading, read, detached, attached, idle⟩

/-- Other reads in progress. -/
theorem Tracks.with_reading (tracks : Tracks stage) {reading : List Source} (once : Once reading)
    (lists : stage'.listsOf = { stage.listsOf with reading }) (log : stage'.log = stage.log)
    (next : stage'.nextHandle = stage.nextHandle) (target : stage'.target = stage.target)
    (connecting : stage'.connecting = stage.connecting) :
  Tracks stage'
  := by
  obtain ⟨balanced, follows, named, _, read, detached, attached, idle⟩ := tracks
  have edges : stage'.edges = stage.edges := by rw [Stage.edges, lists, Stage.edges]
  have read' : stage'.read = stage.read := by rw [Stage.read, lists, Stage.read]
  have reading' : stage'.reading = reading := by rw [Stage.reading, lists]
  constructor
  · rw [edges, log, next]
    apply balanced
  · rw [edges, log]
    apply follows
  · rw [edges]
    apply named
  · rw [reading']
    apply once
  · rw [read']
    apply read
  · rw [edges, target]
    apply detached
  · rw [read', target]
    apply attached
  · rw [connecting]
    apply idle

theorem listsOf_openRun (stage : Stage) :
  stage.openRun.listsOf = { stage.listsOf with reading := [] }
  := by
  rw [Stage.listsOf, Stage.openRun, Stage.listsOf]
  cases stage.lists <;> rfl

theorem Tracks.openRun (tracks : Tracks stage) :
  Tracks stage.openRun
  := by
  apply tracks.with_reading once_nil (listsOf_openRun stage) <;> rfl

/-- What is admitted has not been read. -/
theorem once_of_admits {epoch : ℤ} {source : Source} (once : Once stage.reading)
    (admits : stage.admits epoch source.identity = true) :
  Once (stage.reading ++ [source])
  := by
  cases names : source.identity with
  | none =>
    rw [Once, filterMap_append, filterMap_cons_none names, filterMap_nil, append_nil]
    apply once
  | some wanted =>
    rw [Once, filterMap_append, filterMap_cons_some names, filterMap_nil, nodup_append_comm]
    apply List.Nodup.cons _ once
    rw [names, Stage.admits] at admits
    intro mem
    rw [mem_filterMap] at mem
    obtain ⟨other, mem, same⟩ := mem
    split at admits
    next => cases admits
    next =>
      cases held : stage.lists with
      | none =>
        rw [Stage.reading, Stage.listsOf, held] at mem
        cases mem
      | some lists =>
        rw [Stage.reading, Stage.listsOf, held] at mem
        rw [held] at admits
        dsimp only at admits
        rw [Bool.not_eq_true', List.any_eq_false] at admits
        apply admits other mem
        rw [decide_eq_true_iff]
        apply same

section

variable (tracks : Tracks stage)
include tracks

theorem Tracks.track (epoch : ℤ) (source : Source) :
  Tracks (stage.track epoch source)
  := by
  rw [Stage.track]
  split
  next admits =>
    apply tracks.with_reading (once_of_admits tracks.reading admits) <;> rfl
  next => apply tracks

theorem Tracks.closeRun (notifies : ℕ → Bool) :
  Tracks (stage.closeRun notifies)
  := by
  cases aimed : stage.target with
  | some target =>
    obtain ⟨done, _⟩ := closeRun_spec notifies tracks aimed
    apply done
  | none =>
    have edges := tracks.detached aimed
    cases held : stage.lists with
    | none =>
      have closed : stage.closeRun notifies = { stage with running := false } := by
        rw [Stage.closeRun, held]
      rw [closed]
      apply tracks.congr <;> rfl
    | some lists =>
      have lists' : stage.listsOf = lists := by
        rw [Stage.listsOf, held]
        rfl
      have balanced := tracks.balanced
      have reading := tracks.reading
      rw [Stage.reading, lists'] at reading
      rw [Stage.edges, lists'] at edges
      have closed : ∃ read, Once read ∧ (stage.closeRun notifies)
          = { stage with
              running := false
              lists := some { reading := [], read, edges := [] } } := by
        rw [Stage.closeRun]
        split
        next none_ =>
          rw [held] at none_
          cases none_
        next lists' some_ =>
          rw [held, Option.some_inj] at some_
          subst some_
          split
          next target some_ =>
            rw [aimed] at some_
            cases some_
          next =>
            split
            next =>
              use lists.reading, reading
              rw [← edges]
              rfl
            next =>
              have read := tracks.read
              rw [Stage.read, Stage.listsOf, held] at read
              use lists.read, read
              rw [← edges, held]
              rfl
      obtain ⟨read, once, closed⟩ := closed
      have empty : stage.edges = [] := tracks.detached aimed
      rw [empty] at balanced
      rw [closed]
      refine ⟨balanced, ?_, nodup_nil, once_nil, once, fun _ => rfl, ?_, tracks.idle⟩
      · intro edge mem
        cases mem
      · intro some_
        exact absurd aimed some_

/-- A wake. -/
theorem Tracks.wake (target : ℕ) (lists : stage'.listsOf = stage.listsOf)
    (log : stage'.log = stage.log ++ [.wake target]) (next : stage'.nextHandle = stage.nextHandle)
    (aimed : stage'.target = stage.target) (connecting : stage'.connecting = stage.connecting) :
  Tracks stage'
  := by
  have no_open : (Event.wake target).opens = none := rfl
  have woken : Tracks { stage with log := stage.log ++ [.wake target] } := by
    obtain ⟨balanced, follows, named, reading, read, detached, attached, idle⟩ := tracks
    refine ⟨balanced.other no_open rfl, ?_, named, reading, read, detached, attached, idle⟩
    intro edge mem
    obtain ⟨source, here⟩ := follows edge mem
    use source, here.1
    apply mem_append_left _ here.2
  apply woken.congr lists log next aimed connecting

theorem Tracks.relay (target : ℕ) :
  Tracks (stage.relay target)
  := by
  have relayed : stage.relay target
      = { stage with dirty := true, log := stage.log ++ [.wake target] } := by
    rw [Stage.relay, if_neg]
    rw [tracks.idle]
    exact Bool.false_ne_true
  rw [relayed]
  apply tracks.wake target <;> rfl

end

/-- The lists of a stage that has some, and of one that has none. -/
theorem listsOf_cases (stage : Stage) :
  (stage.lists = none ∧ stage.listsOf = { reading := [], read := [], edges := [] }) ∨
    ∃ lists, stage.lists = some lists ∧ stage.listsOf = lists
  := by
  rw [Stage.listsOf]
  rcases Option.eq_none_or_eq_some stage.lists with held | ⟨lists, held⟩
  · left
    use held
    rw [held]
    rfl
  · right
    use lists, held
    rw [held]
    rfl

section

variable (tracks : Tracks stage)
include tracks

/-- Every edge is detached, and the stage is attached to what it is attached to. -/
theorem Tracks.forget (target : Option ℕ) :
  Tracks (Stage.forgetReads { stage with target })
  := by
  obtain ⟨balanced, follows, named, reading, read, _, _, idle⟩ := tracks
  rcases listsOf_cases stage with ⟨held, empty⟩ | ⟨lists, held, lists'⟩
  · have forgot : Stage.forgetReads { stage with target } = { stage with target } := by
      rw [Stage.forgetReads, held]
    have edges : stage.edges = [] := by rw [Stage.edges, empty]
    have reads : stage.read = [] := by rw [Stage.read, empty]
    rw [forgot]
    exact ⟨balanced, follows, named, reading, read, fun _ => edges, fun _ => reads, idle⟩
  · have forgot : Stage.forgetReads { stage with target } = { stage with
        target
        log := stage.log ++ lists.edges.map fun edge => .detach edge.handle
        lists := some { lists with edges := [], read := [] } } := by
      rw [Stage.forgetReads, held]
      rfl
    rw [Stage.edges, lists'] at balanced
    rw [Stage.reading, lists'] at reading
    have closed := balanced.closing_each (detaches_open lists.edges) (detaches_close lists.edges)
      balanced.nodup (fun ticket mem => mem)
    rw [forgot]
    refine ⟨?_, ?_, nodup_nil, reading, once_nil, fun _ => rfl, fun _ => rfl, idle⟩
    · apply closed.congr nodup_nil
      intro ticket
      rw [mem_filter, decide_eq_true_iff, and_not_self_iff]
      exact iff_of_false not_mem_nil not_false
    · intro edge mem
      cases mem

/-- A stage that has no unattached reads is aimed. -/
theorem Tracks.aimed (target : ℕ) (read : stage.read = []) :
  Tracks { stage with target := some target }
  := by
  obtain ⟨balanced, follows, named, reading, read', _, _, idle⟩ := tracks
  refine ⟨balanced, follows, named, reading, read', ?_, fun _ => read, idle⟩
  intro none_
  cases none_

/-- The last run's reads are wired. -/
theorem Tracks.attachTracker (notifies : ℕ → Bool) (target : ℕ) :
  Tracks (stage.attachTracker notifies target)
  := by
  rcases listsOf_cases stage with ⟨held, empty⟩ | ⟨lists, held, lists'⟩
  · have aimed : stage.attachTracker notifies target = { stage with target := some target } := by
      rw [Stage.attachTracker, held]
    rw [aimed]
    apply tracks.aimed
    rw [Stage.read, empty]
  · by_cases nothing : lists.read = []
    · have aimed : stage.attachTracker notifies target = { stage with target := some target } := by
        rw [Stage.attachTracker, held]
        dsimp only
        rw [nothing, isEmpty_nil, if_pos rfl]
      rw [aimed]
      apply tracks.aimed
      rw [Stage.read, lists', nothing]
    · have loose : stage.target = none := by
        by_contra some_
        apply nothing
        rw [← lists']
        apply tracks.attached some_
      have edges := tracks.detached loose
      have balanced := tracks.balanced
      have reading := tracks.reading
      have read := tracks.read
      rw [edges] at balanced
      rw [Stage.read, lists'] at read
      rw [Stage.reading, lists'] at reading
      have attached := Attached.refl
        { stage with
          target := some target, lists := some { lists with read := [] }, connecting := true }
        balanced rfl
      have none_ : handles [] = List.range' stage.nextHandle (stage.nextHandle - stage.nextHandle) := by
        rw [Nat.sub_self]
        rfl
      obtain ⟨attached', handles_eq, follows⟩ := attachEach_spec notifies target lists.read attached
        none_ List.Forall₂.nil
      rw [nil_append] at follows
      have wired : Tracks
          { (attachEach notifies target lists.read [] { stage with
                target := some target
                lists := some { lists with read := [] }
                connecting := true }).2 with
            lists := some { lists with
              read := []
              edges := (attachEach notifies target lists.read [] { stage with
                target := some target
                lists := some { lists with read := [] }
                connecting := true }).1 }
            connecting := false } := by
        refine ⟨?_, known_of_follows follows, ?_, reading, once_nil, ?_, fun _ => rfl, rfl⟩
        · have opened := attached'.balanced
          rw [nil_append, ← handles_eq] at opened
          apply opened
        · have names := named_of_follows follows
          rw [Once, ← names] at read
          apply read
        · intro none_
          have aimed := attached'.target
          rw [none_] at aimed
          cases aimed
      rw [Stage.attachTracker, held]
      dsimp only
      rw [if_neg (by rw [List.isEmpty_iff]; apply nothing)]
      split
      next => apply wired.wake target <;> rfl
      next => apply wired

theorem Tracks.make (notifies : ℕ → Bool) (call : Call) :
  Tracks (call.make notifies stage)
  := by
  cases call with
  | openRun => apply tracks.openRun
  | track epoch source => apply tracks.track
  | closeRun => apply tracks.closeRun
  | attachTracker target => apply tracks.attachTracker
  | forgetReads => apply tracks.forget stage.target
  | detachTracker => apply tracks.forget none
  | fire target => apply tracks.relay
  | answer => apply tracks.congr <;> rfl

/-- What holds of a stage holds whatever happens to it. -/
theorem Tracks.run (notifies : ℕ → Bool) (calls : List Call) :
  Tracks (run notifies calls stage)
  := by
  induction calls generalizing stage with
  | nil => apply tracks
  | cons call calls ih => apply ih (tracks.make notifies call)

end

theorem tracks_newTracker :
  Tracks newTracker
  := by
  refine ⟨balanced_nil, ?_, nodup_nil, once_nil, once_nil, fun _ => rfl, fun _ => rfl, rfl⟩
  intro edge mem
  cases mem

end

/-! ### A run of the body -/

/-- A call that neither begins a run nor ends one. -/
def Call.inside : Call → Bool
  | openRun => false
  | closeRun => false
  | _ => true

/-- A call that leaves the edges held. -/
def Call.keeps : Call → Bool
  | forgetReads => false
  | detachTracker => false
  | _ => true

/-- What a call reads through the scope of the run. -/
def Call.reads (epoch : ℤ) : Call → Option Source
  | track scope source => if scope = epoch then some source else none
  | _ => none

/-- The reads that are admitted after `seen`: a source that can name itself is admitted once. -/
def admitted (seen : List Source) : List Source → List Source
  | [] => seen
  | source :: sources =>
      if source.identity ≠ none ∧ source ∈ seen then admitted seen sources
      else admitted (seen ++ [source]) sources

theorem admitted_append (seen first second : List Source) :
  admitted seen (first ++ second) = admitted (admitted seen first) second
  := by
  induction first generalizing seen with
  | nil => rfl
  | cons source first ih =>
    rw [cons_append, admitted, admitted]
    split
    next => apply ih
    next => apply ih

section

variable {stage : Stage}

theorem admits_iff {epoch : ℤ} {source : Source} (running : stage.running = true)
    (current : stage.epoch = epoch) :
  stage.admits epoch source.identity = true ↔ ¬ (source.identity ≠ none ∧ source ∈ stage.reading)
  := by
  rw [Stage.admits, if_neg (by rw [running, current, bne_self_eq_false]; exact Bool.false_ne_true)]
  rcases listsOf_cases stage with ⟨held, empty⟩ | ⟨lists, held, lists'⟩
  · rw [held, Stage.reading, empty]
    apply iff_of_true rfl
    rintro ⟨_, mem⟩
    cases mem
  · rw [held, Stage.reading, lists']
    dsimp only
    cases source with
    | unnamed name =>
      apply iff_of_true rfl
      rintro ⟨some_, _⟩
      exact some_ rfl
    | named identity =>
      rw [Source.identity]
      dsimp only
      rw [Bool.not_eq_true', List.any_eq_false, not_and]
      constructor
      · intro absent _ mem
        apply absent _ mem
        rw [decide_eq_true_iff]
        rfl
      · intro absent other mem names
        rw [decide_eq_true_iff] at names
        apply absent (Option.some_ne_none identity)
        rw [← Source.eq_named names]
        apply mem

/-- A read in the middle of a run. -/
theorem track_inside {epoch : ℤ} {source : Source} (running : stage.running = true) :
  (stage.track epoch source).running = true ∧ (stage.track epoch source).epoch = stage.epoch ∧
    (stage.track epoch source).reading
      = admitted stage.reading ((Call.track epoch source).reads stage.epoch).toList ∧
    (stage.track epoch source).edges = stage.edges
  := by
  rw [Stage.track, Call.reads]
  by_cases current : epoch = stage.epoch
  · rw [if_pos current, Option.toList_some, admitted, admitted, admitted]
    by_cases seen : source.identity ≠ none ∧ source ∈ stage.reading
    · rw [if_neg (by rw [admits_iff running current.symm]; exact not_not_intro seen), if_pos seen]
      use running
    · rw [if_pos (by rw [admits_iff running current.symm]; exact seen), if_neg seen]
      use running
      exact ⟨rfl, rfl, rfl⟩
  · rw [if_neg current, if_neg]
    · use running
      exact ⟨rfl, rfl, rfl⟩
    · have other : (stage.epoch != epoch) = true := by
        rw [bne_iff_ne]
        exact Ne.symm current
      rw [Stage.admits, other, Bool.or_true, if_pos rfl]
      exact Bool.false_ne_true

/-- Attaching in the middle of a run. -/
theorem attachTracker_inside (tracks : Tracks stage) (notifies : ℕ → Bool) (target : ℕ) :
  (stage.attachTracker notifies target).running = stage.running ∧
    (stage.attachTracker notifies target).epoch = stage.epoch ∧
    (stage.attachTracker notifies target).reading = stage.reading ∧
    ∀ edge ∈ stage.edges, edge ∈ (stage.attachTracker notifies target).edges
  := by
  rcases listsOf_cases stage with ⟨held, empty⟩ | ⟨lists, held, lists'⟩
  · rw [Stage.attachTracker, held]
    refine ⟨rfl, rfl, ?_, ?_⟩
    · rw [Stage.reading, Stage.reading, Stage.listsOf, Stage.listsOf, held]
    · rw [Stage.edges, empty]
      intro edge mem
      cases mem
  · by_cases nothing : lists.read = []
    · have aimed : stage.attachTracker notifies target = { stage with target := some target } := by
        rw [Stage.attachTracker, held]
        dsimp only
        rw [nothing, isEmpty_nil, if_pos rfl]
      rw [aimed]
      exact ⟨rfl, rfl, rfl, fun edge mem => mem⟩
    · have loose : stage.target = none := by
        by_contra some_
        apply nothing
        rw [← lists']
        apply tracks.attached some_
      have edges := tracks.detached loose
      have balanced := tracks.balanced
      rw [edges] at balanced ⊢
      have attached := Attached.refl
        { stage with
          target := some target, lists := some { lists with read := [] }, connecting := true }
        balanced rfl
      have none_ : handles [] = List.range' stage.nextHandle (stage.nextHandle - stage.nextHandle) := by
        rw [Nat.sub_self]
        rfl
      obtain ⟨attached', _⟩ := attachEach_spec notifies target lists.read attached none_
        List.Forall₂.nil
      have reading : stage.reading = lists.reading := by rw [Stage.reading, lists']
      rw [Stage.attachTracker, held, reading]
      dsimp only
      rw [if_neg (by rw [List.isEmpty_iff]; apply nothing)]
      split
      next =>
        refine ⟨attached'.running, attached'.epoch, rfl, ?_⟩
        intro edge mem
        cases mem
      next =>
        refine ⟨attached'.running, attached'.epoch, rfl, ?_⟩
        intro edge mem
        cases mem

theorem forgetReads_inside (stage : Stage) :
  stage.forgetReads.running = stage.running ∧ stage.forgetReads.epoch = stage.epoch ∧
    stage.forgetReads.reading = stage.reading
  := by
  rcases listsOf_cases stage with ⟨held, empty⟩ | ⟨lists, held, lists'⟩
  · rw [Stage.forgetReads, held]
    exact ⟨rfl, rfl, rfl⟩
  · rw [Stage.forgetReads, held, Stage.reading, Stage.reading, lists']
    exact ⟨rfl, rfl, rfl⟩

/-- A call in the middle of a run. -/
theorem make_inside (tracks : Tracks stage) (notifies : ℕ → Bool) {call : Call}
    (inside : call.inside = true) (running : stage.running = true) :
  (call.make notifies stage).running = true ∧
    (call.make notifies stage).epoch = stage.epoch ∧
    (call.make notifies stage).reading
      = admitted stage.reading (call.reads stage.epoch).toList ∧
    (call.keeps = true → ∀ edge ∈ stage.edges, edge ∈ (call.make notifies stage).edges)
  := by
  cases call with
  | openRun => cases inside
  | closeRun => cases inside
  | track epoch source =>
    obtain ⟨running', epoch', reading, edges⟩ := track_inside running
    use running', epoch', reading
    intro _ edge mem
    rw [Call.make, edges]
    apply mem
  | attachTracker target =>
    obtain ⟨running', epoch', reading, edges⟩ := attachTracker_inside tracks notifies target
    use running'.trans running, epoch', reading
    intro _
    apply edges
  | forgetReads =>
    obtain ⟨running', epoch', reading⟩ := forgetReads_inside stage
    use running'.trans running, epoch', reading
    intro keeps
    cases keeps
  | detachTracker =>
    obtain ⟨running', epoch', reading⟩ := forgetReads_inside { stage with target := none }
    use running'.trans running, epoch', reading
    intro keeps
    cases keeps
  | fire target =>
    rw [Call.make, Stage.relay]
    split
    next => exact ⟨running, rfl, rfl, fun _ edge mem => mem⟩
    next => exact ⟨running, rfl, rfl, fun _ edge mem => mem⟩
  | answer => exact ⟨running, rfl, rfl, fun _ edge mem => mem⟩

/-- What a body reads. -/
theorem run_inside (tracks : Tracks stage) (notifies : ℕ → Bool) {body : List Call}
    (inside : ∀ call ∈ body, call.inside = true) (running : stage.running = true) :
  (run notifies body stage).reading
      = admitted stage.reading (body.filterMap (Call.reads stage.epoch)) ∧
    ((∀ call ∈ body, call.keeps = true) →
      ∀ edge ∈ stage.edges, edge ∈ (run notifies body stage).edges)
  := by
  induction body generalizing stage with
  | nil =>
    use rfl
    intro _ edge mem
    apply mem
  | cons call body ih =>
    obtain ⟨running', epoch, reading, edges⟩ :=
      make_inside tracks notifies (inside call mem_cons_self) running
    obtain ⟨reading', edges'⟩ := ih (tracks.make notifies call)
      (fun other mem => inside other (mem_cons_of_mem call mem)) running'
    constructor
    · have split : (call :: body).filterMap (Call.reads stage.epoch)
          = (call.reads stage.epoch).toList ++ body.filterMap (Call.reads stage.epoch) := by
        cases named : call.reads stage.epoch with
        | none => rw [filterMap_cons_none named]; rfl
        | some source => rw [filterMap_cons_some named]; rfl
      rw [split, admitted_append, ← reading, ← epoch]
      apply reading'
    · intro keeps edge mem
      apply edges' (fun other mem => keeps other (mem_cons_of_mem call mem))
      apply edges (keeps call mem_cons_self) edge mem

end

/-- Whatever has happened to a stage, a run that closes attached leaves exactly one edge for each
read the run admitted, in their order, to its source; every handle ever attached is one of those
edges or was detached once; a source that names itself keeps the edge it has; and nothing is
detached before every edge stands. -/
theorem tracked_edges_follow (notifies : ℕ → Bool) (calls body : List Call)
    (inside : ∀ call ∈ body, call.inside = true)
    (attached : (run notifies body (run notifies calls newTracker).openRun).target ≠ none) :
  let before := run notifies calls newTracker
  let after := run notifies body before.openRun
  let closed := after.closeRun notifies
  let reads := admitted [] (body.filterMap (Call.reads before.openRun.epoch))
  List.Forall₂ (Follows closed.log) reads closed.edges ∧ (handles closed.edges).Nodup ∧
    (∀ handle source, .attach handle source ∈ closed.log →
      if handle ∈ handles closed.edges then closed.log.count (.detach handle) = 0
      else closed.log.count (.detach handle) = 1) ∧
    ((∀ call ∈ body, call.keeps = true) → ∀ source ∈ reads, source.identity ≠ none →
      ∀ edge ∈ before.edges, edge.identity = source.identity → edge ∈ closed.edges) ∧
    ∃ made gone, closed.log = after.log ++ made ++ gone ∧
      (∀ event ∈ made, event.opens ≠ none) ∧ ∀ event ∈ gone, event.closes ≠ none
  := by
  intro before after closed reads
  have tracks : Tracks before := tracks_newTracker.run notifies calls
  obtain ⟨target, aimed⟩ := Option.ne_none_iff_exists'.mp attached
  have tracks' : Tracks after := tracks.openRun.run notifies body
  obtain ⟨reading, edges⟩ := run_inside tracks.openRun notifies inside rfl
  have none_ : before.openRun.reading = [] := by rw [Stage.reading, listsOf_openRun]
  have same : before.openRun.edges = before.edges := by
    rw [Stage.edges, listsOf_openRun, Stage.edges]
  rw [none_] at reading
  rw [same] at edges
  obtain ⟨done, _, wired⟩ := closeRun_spec notifies tracks' aimed
  have wired : Wired after closed after.edges reads closed.edges := by
    have reads_eq : reads = after.reading := reading.symm
    rw [reads_eq]
    apply wired
  refine ⟨wired.follows, wired.balanced.nodup, ?_, ?_, wired.log⟩
  · intro handle source mem
    have opened : handle < closed.nextHandle := by
      rw [← mem_range, ← wired.balanced.opened, mem_filterMap]
      use .attach handle source, mem
      rfl
    have count := wired.balanced.closed handle
    rw [count_closes] at count
    split
    next live => rw [count, if_neg (by tauto)]
    next gone => rw [count, if_pos ⟨opened, gone⟩]
  · intro keeps source mem named edge edge_mem same
    apply wired.reuses source mem named edge (edges keeps edge edge_mem) same

/-- A stage that reads one source on every run, and others that come, go and cannot be named. -/
theorem tracked_edges_follow_two :
  let before := run (fun handle => handle == 1)
    [.attachTracker 7, .openRun, .track 1 (.named 5), .track 1 (.unnamed 0), .track 1 (.named 5),
      .closeRun] newTracker
  let after := run (fun handle => handle == 1)
    [.track 2 (.named 6), .track 1 (.named 9), .track 2 (.unnamed 0), .track 2 (.named 5)]
    before.openRun
  let closed := after.closeRun fun handle => handle == 1
  let reads := admitted [] ([Call.track 2 (.named 6), .track 1 (.named 9), .track 2 (.unnamed 0),
    .track 2 (.named 5)].filterMap (Call.reads before.openRun.epoch))
  List.Forall₂ (Follows closed.log) reads closed.edges ∧ (handles closed.edges).Nodup ∧
    (∀ handle source, .attach handle source ∈ closed.log →
      if handle ∈ handles closed.edges then closed.log.count (.detach handle) = 0
      else closed.log.count (.detach handle) = 1) ∧
    ((∀ call ∈ [Call.track 2 (.named 6), .track 1 (.named 9), .track 2 (.unnamed 0),
        .track 2 (.named 5)], call.keeps = true) → ∀ source ∈ reads, source.identity ≠ none →
      ∀ edge ∈ before.edges, edge.identity = source.identity → edge ∈ closed.edges) ∧
    ∃ made gone, closed.log = after.log ++ made ++ gone ∧
      (∀ event ∈ made, event.opens ≠ none) ∧ ∀ event ∈ gone, event.closes ≠ none
  := by
  apply tracked_edges_follow
  · decide
  · decide

example :
  (run (fun _ => false) [.attachTracker 7, .openRun, .track 1 (.named 5), .track 1 (.unnamed 0),
      .closeRun, .openRun, .track 2 (.named 6), .track 2 (.unnamed 0), .track 2 (.named 5),
      .closeRun] newTracker).log
    = [.attach 0 (.named 5), .attach 1 (.unnamed 0), .attach 2 (.named 6), .attach 3 (.unnamed 0),
      .detach 1]
  := by decide

end Tracking

end Vilan
