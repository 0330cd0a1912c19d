import Vilan.Reactive.PositionalDiff
import Vilan.Reactive.Reconcile

/-!
# The keyed diff

The ops that turn one list into another when a key decides which elements are the same: the
departures as runs, from the end; then front to back the arrivals as runs, a move where an element
stands later than it should, and a change in place.  They are computed on a list that stands for
what the ops before have made.
-/

namespace Vilan

open List Option Splice Reconcile

variable {T : Type*}

namespace KeyedDiff

/-- What stands now, as old indices and with its values, and the ops so far. -/
structure Standing (T : Type*) where
  standing : List (Option ℕ)
  values : List T
  ops : List (SeqOp T)

/-- The start of the run of removed indices that ends at `last`; every index is checked. -/
def runStart (removed : List ℕ) : (last : ℕ) → Option { start : ℕ // start ≤ last }
  | 0 => some ⟨0, Nat.le_refl 0⟩
  | last + 1 => removed[last]?.bind fun earlier => removed[last + 1]?.bind fun later =>
      if earlier + 1 = later then
        (runStart removed last).map fun start => ⟨start.1, Nat.le_succ_of_le start.2⟩
      else some ⟨last + 1, Nat.le_refl _⟩

/-- The departures, from the end: each run of removed indices is one splice. -/
def depart (removed : List ℕ) (runEnd : ℕ) (work : Standing T) : Option (Standing T) :=
  if _h : 0 < runEnd then
    (runStart removed (runEnd - 1)).bind fun start =>
    removed[start.1]?.bind fun pos =>
    (spanOf work.values pos (pos + (runEnd - start.1))).bind fun left =>
    (liftEach work.standing pos [] (runEnd - start.1)).returned.bind fun standing =>
    (liftEach work.values pos [] (runEnd - start.1)).returned.bind fun values =>
    depart removed start.1 { standing, values, ops := work.ops ++ [.splice pos left []] }
  else some work
termination_by runEnd
decreasing_by
  have := start.2
  omega

/-- Where the old element stands, from `pos` on, or the end. -/
def seek (standing : List (Option ℕ)) (old pos : ℕ) : ℕ :=
  if pos < standing.length ∧ standing[pos]? ≠ some (some old) then seek standing old (pos + 1)
  else pos
termination_by standing.length - pos

/-- Bring an old element to `position`, with a move when it stands later. -/
def placeMatched (work : Standing T) (old position : ℕ) : Option (Standing T) :=
  let pos := seek work.standing old position
  if pos ≠ position ∧ pos < work.standing.length then
    (moveEach work.standing pos 1 position).returned.bind fun standing =>
    (moveEach work.values pos 1 position).returned.map fun values =>
    { standing, values, ops := work.ops ++ [.move pos 1 position] }
  else some work

/-- The end of a run of arrivals, from `stop` on. -/
def freshEnd (steps : List RowStep) (stop : ℕ) : ℕ :=
  if stop < steps.length ∧ steps[stop]? = some .fresh then freshEnd steps (stop + 1) else stop
termination_by steps.length - stop

theorem le_freshEnd (steps : List RowStep) (stop : ℕ) :
  stop ≤ freshEnd steps stop
  := by
  fun_induction freshEnd steps stop with
  | case1 stop _ ih => omega
  | case2 => apply Nat.le_refl

/-- The new order, front to back: everything before `position` is final. -/
def place (steps : List RowStep) (after : List T) (position : ℕ) (work : Standing T) :
    Option (Standing T) :=
  if _h : position < steps.length then
    match steps[position] with
    | .fresh =>
        (spanOf after position (freshEnd steps (position + 1))).bind fun arriving =>
        (insertEach work.standing position (arriving.map fun _ => none)).returned.bind fun standing =>
        (insertEach work.values position arriving).returned.bind fun values =>
        place steps after (freshEnd steps (position + 1))
          { standing, values, ops := work.ops ++ [.splice position [] arriving] }
    | .keep old => (placeMatched work old position).bind (place steps after (position + 1))
    | .refresh old =>
        (placeMatched work old position).bind fun work =>
        work.values[position]?.bind fun was => after[position]?.bind fun item =>
        place steps after (position + 1)
          { work with
            values := work.values.set position item
            ops := work.ops ++ [.setAt position was item] }
  else some work
termination_by steps.length - position
decreasing_by
  · have := le_freshEnd steps (position + 1)
    omega
  · omega
  · omega

section

variable {K H : Type*} [BEq K] [DecidableEq H]

/-- The keyed diff: the plan of the reconcile, as ops.  It fails where the reconcile or an index
does. -/
def keyedOps (hash : K → H) (sameElement : T → T → Bool) (fuel : ℕ) (before after : List T)
    (key : T → K) : Option (List (SeqOp T)) :=
  (Reconcile.reconcile hash sameElement fuel (before.map key) before after key).bind fun plan =>
  (depart plan.removed plan.removed.length
    { standing := (List.range before.length).map some, values := before, ops := [] }).bind
      fun work =>
  (place plan.steps after 0 work).map Standing.ops

end

/-! ### Ops that explain a list -/

/-- The values are what the ops make of the first list, and each op is accurate where it
applies. -/
structure Explains (before values : List T) (ops : List (SeqOp T)) : Prop where
  values_eq : values = SeqOp.replay ops before
  accurate : SeqOp.Along SeqOp.Accurate ops before

variable {before : List T} {work : Standing T} {earlier later : List ℕ} {old position : ℕ}
  {steps : List RowStep}

theorem Explains.snoc {values values' : List T} {ops : List (SeqOp T)} {op : SeqOp T}
    (explains : Explains before values ops) (accurate : op.Accurate values)
    (applied : values' = op.apply values) :
  Explains before values' (ops ++ [op])
  := by
  constructor
  · rw [SeqOp.replay_append, ← explains.values_eq, SeqOp.replay_singleton, applied]
  · rw [SeqOp.along_append, ← explains.values_eq]
    exact ⟨explains.accurate, accurate, trivial⟩

/-- Whether an op is a move. -/
def isMove : SeqOp T → Bool
  | .move _ _ _ => true
  | _ => false

/-! ### The departures -/

/-- The old indices that stay, in their order. -/
def staying (held : ℕ) (gone : List ℕ) : List ℕ :=
  (List.range held).filter fun pos => decide (pos ∉ gone)

/-- The runs are cut where the indices are not consecutive. -/
theorem runStart_spec {removed : List ℕ} {last : ℕ} (lt : last < removed.length) :
  ∃ start pos, runStart removed last = some start ∧ removed[start.1]? = some pos ∧
    (removed.drop start.1).take (last + 1 - start.1) = List.range' pos (last + 1 - start.1)
  := by
  induction last with
  | zero =>
    use ⟨0, Nat.le_refl 0⟩, removed[0], rfl, getElem?_eq_getElem lt
    rw [drop_eq_getElem_cons lt]
    rfl
  | succ last ih =>
    have lt' : last < removed.length := Nat.lt_of_succ_lt lt
    rw [runStart, getElem?_eq_getElem lt', bind_some, getElem?_eq_getElem lt, bind_some]
    by_cases consecutive : removed[last] + 1 = removed[last + 1]
    · obtain ⟨start, pos, found, held, run⟩ := ih lt'
      have le := start.2
      have count : last + 1 + 1 - start.1 = (last + 1 - start.1) + 1 := by omega
      have next : (removed.drop start.1)[last + 1 - start.1]? = some removed[last + 1] := by
        rw [getElem?_drop, Nat.add_sub_cancel' (Nat.le_succ_of_le le), getElem?_eq_getElem lt]
      have here : removed[last] = pos + (last - start.1) := by
        have both := congrArg (fun list => list[last - start.1]?) run
        rw [getElem?_take_of_lt (by omega), getElem?_drop, Nat.add_sub_cancel' le,
          getElem?_eq_getElem lt', getElem?_range' (by omega), some_inj] at both
        omega
      rw [if_pos consecutive, found]
      use ⟨start.1, Nat.le_succ_of_le le⟩, pos, rfl, held
      rw [count, take_add_one, run, next, range'_1_concat, ← consecutive, here, toList_some]
      congr 2
      omega
    · rw [if_neg consecutive]
      use ⟨last + 1, Nat.le_refl _⟩, removed[last + 1], rfl, getElem?_eq_getElem lt
      rw [drop_eq_getElem_cons lt, Nat.add_sub_cancel_left]
      rfl

/-- Taking a run of indices out of what stays, where only later ones are gone. -/
theorem staying_splice {held pos count : ℕ} {gone : List ℕ} (le : pos + count ≤ held)
    (later : ∀ other ∈ gone, pos + count ≤ other) :
  pos + count ≤ (staying held gone).length ∧
    splice (staying held gone) pos count [] = staying held (List.range' pos count ++ gone)
  := by
  have whole : List.range held
      = List.range' 0 pos ++ List.range' pos count ++ List.range' (pos + count) (held - (pos + count)) := by
    rw [range_eq_range']
    have first := range'_append_1 (s := 0) (m := pos) (n := count)
    have second := range'_append_1 (s := 0) (m := pos + count) (n := held - (pos + count))
    rw [Nat.zero_add] at first second
    rw [first, second, Nat.add_sub_cancel' le]
  have before : (List.range' 0 pos).filter (fun other => decide (other ∉ gone)) = List.range' 0 pos := by
    rw [filter_eq_self]
    intro other mem
    rw [mem_range'_1] at mem
    rw [decide_eq_true_iff]
    intro gone_
    have := later other gone_
    omega
  have run : (List.range' pos count).filter (fun other => decide (other ∉ gone))
      = List.range' pos count := by
    rw [filter_eq_self]
    intro other mem
    rw [mem_range'_1] at mem
    rw [decide_eq_true_iff]
    intro gone_
    have := later other gone_
    omega
  have stays : staying held gone = List.range' 0 pos ++ List.range' pos count
      ++ (List.range' (pos + count) (held - (pos + count))).filter fun other => decide (other ∉ gone) := by
    rw [staying, whole, filter_append, filter_append, before, run]
  constructor
  · rw [stays, length_append, length_append, length_range', length_range']
    omega
  · have cut := splice_append (List.range' 0 pos) (List.range' pos count)
      ((List.range' (pos + count) (held - (pos + count))).filter fun other => decide (other ∉ gone)) []
    rw [length_range', length_range'] at cut
    rw [stays, cut, staying, whole, filter_append, filter_append, append_nil]
    congr 1
    · have before' : (List.range' 0 pos).filter
          (fun other => decide (other ∉ List.range' pos count ++ gone)) = List.range' 0 pos := by
        rw [filter_eq_self]
        intro other mem
        rw [mem_range'_1] at mem
        rw [decide_eq_true_iff, mem_append, mem_range'_1]
        rintro (inside | gone_)
        · omega
        · have := later other gone_
          omega
      have run' : (List.range' pos count).filter
          (fun other => decide (other ∉ List.range' pos count ++ gone)) = [] := by
        rw [filter_eq_nil_iff]
        intro other mem
        rw [decide_eq_true_iff, not_not]
        apply mem_append_left gone mem
      rw [before', run', append_nil]
    · apply filter_congr
      intro other mem
      rw [mem_range'_1] at mem
      have outside : other ∉ List.range' pos count := by
        rw [mem_range'_1]
        omega
      simp only [mem_append, outside, false_or]

/-- What the departures have made once `gone` has left. -/
structure Departed (before : List T) (gone : List ℕ) (work : Standing T) : Prop where
  standing : work.standing = (staying before.length gone).map some
  values : work.values.map some = (staying before.length gone).map fun pos => before[pos]?
  explains : Explains before work.values work.ops
  still : ∀ op ∈ work.ops, isMove op = false

/-- One run departs. -/
theorem Departed.run {gone : List ℕ} (departed : Departed before gone work) {pos count : ℕ}
    (le : pos + count ≤ before.length) (later : ∀ other ∈ gone, pos + count ≤ other) :
  ∃ left standing values, spanOf work.values pos (pos + count) = some left ∧
    (liftEach work.standing pos [] count).returned = some standing ∧
    (liftEach work.values pos [] count).returned = some values ∧
    Departed before (List.range' pos count ++ gone)
      { standing, values, ops := work.ops ++ [.splice pos left []] }
  := by
  obtain ⟨bound, cut⟩ := staying_splice le later
  have held : work.values.length = (staying before.length gone).length := by
    have same := congrArg List.length departed.values
    rw [length_map, length_map] at same
    apply same
  have bound' : pos + count ≤ work.standing.length := by
    rw [departed.standing, length_map]
    apply bound
  have bound'' : pos + count ≤ work.values.length := by
    rw [held]
    apply bound
  use block work.values pos count, splice work.standing pos count [],
    splice work.values pos count []
  rw [spanOf_eq bound'', Nat.add_sub_cancel_left, liftEach_of_le bound', liftEach_of_le bound'']
  refine ⟨rfl, rfl, rfl, ?_, ?_, ?_, ?_⟩
  · rw [departed.standing, ← cut, map_splice]
    rfl
  · rw [map_splice, departed.values, ← cut, map_splice]
    rfl
  · apply departed.explains.snoc
    · rw [SeqOp.Accurate, length_block bound'']
      use bound''
    · rw [SeqOp.apply, length_block bound'']
  · intro op mem
    rw [mem_append, mem_singleton] at mem
    rcases mem with mem | rfl
    · apply departed.still op mem
    · rfl

/-- The departures take out what the plan removes. -/
theorem depart_spec {removed : List ℕ} (sorted : removed.Pairwise (· < ·))
    (bound : ∀ pos ∈ removed, pos < before.length) {runEnd : ℕ} (le : runEnd ≤ removed.length)
    (departed : Departed before (removed.drop runEnd) work) :
  ∃ work', depart removed runEnd work = some work' ∧ Departed before removed work'
  := by
  induction runEnd using Nat.strong_induction_on generalizing work with
  | h runEnd ih =>
    rw [depart]
    by_cases some_ : 0 < runEnd
    · have last : runEnd - 1 < removed.length := by omega
      obtain ⟨start, pos, found, first, run⟩ := runStart_spec last
      have start_le := start.2
      rw [Nat.sub_add_cancel some_] at run
      have split : removed.drop start.1
          = List.range' pos (runEnd - start.1) ++ removed.drop runEnd := by
        have halves := take_append_drop (runEnd - start.1) (removed.drop start.1)
        rw [run, drop_drop, Nat.add_sub_cancel' (by omega)] at halves
        exact halves.symm
      have sorted' := sorted.sublist (drop_sublist start.1 removed)
      rw [split, pairwise_append] at sorted'
      have inside : pos + (runEnd - start.1) - 1 ∈ List.range' pos (runEnd - start.1) := by
        rw [mem_range'_1]
        omega
      have range : pos + (runEnd - start.1) ≤ before.length := by
        have mem : pos + (runEnd - start.1) - 1 ∈ removed := by
          apply mem_of_mem_drop (i := start.1)
          rw [split]
          apply mem_append_left _ inside
        have := bound _ mem
        omega
      have later : ∀ other ∈ removed.drop runEnd, pos + (runEnd - start.1) ≤ other := by
        intro other mem
        have := sorted'.2.2 _ inside other mem
        omega
      obtain ⟨left, standing, values, spanned, lifted, lifted', departed'⟩ :=
        departed.run range later
      rw [dif_pos some_, found, bind_some, first, bind_some, spanned,
        bind_some, lifted, bind_some, lifted', bind_some]
      rw [← split] at departed'
      apply ih start.1 (by omega) (by omega) departed'
    · have none_ : runEnd = 0 := Nat.eq_zero_of_not_pos some_
      rw [dif_neg some_]
      rw [none_, drop_zero] at departed
      exact ⟨work, rfl, departed⟩

/-! ### The new order -/

/-- The value a step leaves at its place. -/
def settled (before after : List T) (position : ℕ) : RowStep → Option T
  | .keep old => before[old]?
  | .refresh _ => after[position]?
  | .fresh => after[position]?

/-- Everything before `position` is final; behind it stand the old elements that are still to be
placed, `rest`. -/
structure Placing (before after : List T) (steps : List RowStep) (position : ℕ) (rest : List ℕ)
    (work : Standing T) : Prop where
  le : position ≤ steps.length
  rows : ∃ done, work.standing = done ++ rest.map some ∧ done.length = position
  held : ∃ final waiting, work.values = final ++ waiting ∧ final.length = position ∧
    waiting.map some = (rest.map fun pos => before[pos]?) ∧
    ∀ i step, i < position → steps[i]? = some step → final[i]? = settled before after i step
  due : rest.Perm ((steps.drop position).filterMap RowStep.old)
  explains : Explains before work.values work.ops

/-- The search stops at the old element. -/
theorem seek_append (done : List (Option ℕ)) (first : old ∉ earlier) :
  seek (done ++ (earlier ++ old :: later).map some) old done.length = done.length + earlier.length
  := by
  induction earlier generalizing done with
  | nil =>
    rw [seek, if_neg]
    · rfl
    · rw [not_and_or, not_not]
      right
      rw [nil_append, map_cons, getElem?_append_right (Nat.le_refl _), Nat.sub_self]
      rfl
  | cons head earlier ih =>
    rw [mem_cons, not_or] at first
    rw [seek, if_pos]
    · have step := ih (done ++ [some head]) first.2
      rw [length_append, length_singleton, append_assoc] at step
      rw [length_cons]
      calc seek (done ++ (head :: earlier ++ old :: later).map some) old (done.length + 1)
          = done.length + 1 + earlier.length := step
        _ = done.length + (earlier.length + 1) := by omega
    · constructor
      · rw [length_append, length_map, cons_append, length_cons]
        omega
      · rw [cons_append, map_cons, getElem?_append_right (Nat.le_refl _),
          Nat.sub_self, getElem?_cons_zero]
        intro same
        rw [some_inj, some_inj] at same
        apply first.1 same.symm

/-- An old element is brought to its place; it moves unless it stands there. -/
theorem placeMatched_spec {done : List (Option ℕ)} {final : List T} {waiting : List T}
    (first : old ∉ earlier) (rows : work.standing = done ++ (earlier ++ old :: later).map some)
    (values : work.values = final ++ waiting) (same : final.length = done.length)
    (held : waiting.map some = (earlier ++ old :: later).map fun pos => before[pos]?)
    (explains : Explains before work.values work.ops) :
  ∃ work' was waiting', placeMatched work old done.length = some work' ∧
    work'.standing = (done ++ [some old]) ++ (earlier ++ later).map some ∧
    work'.values = (final ++ [was]) ++ waiting' ∧ before[old]? = some was ∧
    waiting'.map some = ((earlier ++ later).map fun pos => before[pos]?) ∧
    Explains before work'.values work'.ops ∧
    ((∀ op ∈ work'.ops, isMove op = false) ↔ (∀ op ∈ work.ops, isMove op = false) ∧ earlier = [])
  := by
  have split : ∃ earlier' was later', waiting = earlier' ++ was :: later' ∧
      earlier'.map some = (earlier.map fun pos => before[pos]?) ∧ some was = before[old]? ∧
      later'.map some = (later.map fun pos => before[pos]?) := by
    rw [map_append, map_cons] at held
    obtain ⟨earlier', tail, cut, one, two⟩ := map_eq_append_iff.mp held
    obtain ⟨was, later', cut', three, four⟩ := map_eq_cons_iff.mp two
    use earlier', was, later'
    rw [cut, cut']
    use rfl, one, three, four
  obtain ⟨earlier', was, later', cut, one, two, three⟩ := split
  have length : earlier'.length = earlier.length := by
    have both := congrArg List.length one
    rw [length_map, length_map] at both
    apply both
  have rest : (earlier' ++ later').map some = ((earlier ++ later).map fun pos => before[pos]?) := by
    rw [map_append, map_append, one, three]
  rw [placeMatched, rows, seek_append done first]
  by_cases stays : earlier = []
  · subst stays
    rw [length_nil, length_eq_zero_iff] at length
    subst length
    rw [if_neg (by rw [length_nil]; omega)]
    use work, was, later'
    refine ⟨rfl, ?_, ?_, two.symm, rest, explains, ?_⟩
    · rw [rows, append_assoc]
      rfl
    · rw [values, cut, append_assoc]
      rfl
    · rw [iff_self_and]
      intro _
      rfl
  · have some_ : 0 < earlier.length := length_pos_iff.mpr stays
    have moved := move_append done (earlier.map some) [some old] (later.map some)
    have moved' := move_append final earlier' [was] later'
    rw [length_map, length_singleton] at moved
    rw [length_singleton, length, same] at moved'
    have rows' : done ++ (earlier ++ old :: later).map some
        = done ++ earlier.map some ++ [some old] ++ later.map some := by
      rw [map_append, map_cons, append_assoc, append_assoc]
      rfl
    have values' : work.values = final ++ earlier' ++ [was] ++ later' := by
      rw [values, cut, append_assoc, append_assoc]
      rfl
    have total : (done ++ earlier.map some ++ [some old] ++ later.map some).length
        = done.length + earlier.length + 1 + later.length := by
      simp only [length_append, length_map, length_singleton]
    have total' : work.values.length = done.length + earlier.length + 1 + later'.length := by
      rw [values']
      simp only [length_append, length_singleton, same, length]
    rw [rows', if_pos (by rw [total]; omega), moveEach_of_le (by omega) (by omega),
      moveEach_of_le (by omega) (by omega), moved]
    refine ⟨_, was, earlier' ++ later', rfl, ?_, ?_, two.symm, rest, ?_, ?_⟩
    · rw [map_append, ← append_assoc]
    · dsimp only
      rw [values', moved', ← append_assoc]
    · apply explains.snoc
      · constructor <;> omega
      · rfl
    · constructor
      · intro still
        have move := still (.move (done.length + earlier.length) 1 done.length)
          (mem_append_right _ (mem_singleton_self _))
        cases move
      · intro none_
        exact absurd none_.2 stays

theorem freshEnd_spec {stop : ℕ} (le : stop ≤ steps.length) :
  freshEnd steps stop ≤ steps.length ∧
    ∀ i, stop ≤ i → i < freshEnd steps stop → steps[i]? = some .fresh
  := by
  fun_induction freshEnd steps stop with
  | case1 stop here ih =>
    obtain ⟨end_le, run⟩ := ih here.1
    use end_le
    intro i i_le lt
    by_cases first : i = stop
    · rw [first]
      apply here.2
    · apply run i (by omega) lt
  | case2 stop here =>
    use le
    intro i i_le lt
    omega

/-- Arrivals claim nothing. -/
theorem filterMap_drop_fresh {stop : ℕ} (le : position ≤ stop)
    (run : ∀ i, position ≤ i → i < stop → steps[i]? = some .fresh) :
  (steps.drop position).filterMap RowStep.old = (steps.drop stop).filterMap RowStep.old
  := by
  induction stop, le using Nat.le_induction with
  | base => rfl
  | succ stop le ih =>
    rw [ih (by
      intro i i_le lt
      apply run i i_le (Nat.lt_succ_of_lt lt))]
    obtain ⟨lt, held⟩ := List.getElem?_eq_some_iff.mp (run stop le (Nat.lt_succ_self stop))
    rw [drop_eq_getElem_cons lt, held]
    rfl

section

variable {before after : List T} {steps : List RowStep} {position : ℕ} {rest : List ℕ}
  {work : Standing T}

section

variable (placing : Placing before after steps position rest work)
include placing

/-- A run of arrivals. -/
theorem Placing.arrive
    (length : steps.length = after.length) (stop : ℕ) (lt : position < stop)
    (stop_le : stop ≤ steps.length)
    (run : ∀ i, position ≤ i → i < stop → steps[i]? = some .fresh) :
  ∃ arriving standing values, spanOf after position stop = some arriving ∧
    (insertEach work.standing position (arriving.map fun _ => none)).returned = some standing ∧
    (insertEach work.values position arriving).returned = some values ∧
    Placing before after steps stop rest
      { standing, values, ops := work.ops ++ [.splice position [] arriving] }
  := by
  obtain ⟨done, rows, done_length⟩ := placing.rows
  obtain ⟨final, waiting, values, final_length, held, settled_⟩ := placing.held
  have range : position + (stop - position) ≤ after.length := by omega
  have count := length_block range
  have put := splice_append done [] (rest.map some)
    ((block after position (stop - position)).map fun _ => none)
  have put' := splice_append final [] waiting (block after position (stop - position))
  rw [append_nil, length_nil, done_length] at put
  rw [append_nil, length_nil, final_length] at put'
  use block after position (stop - position),
    done ++ ((block after position (stop - position)).map fun _ => none) ++ rest.map some,
    final ++ block after position (stop - position) ++ waiting
  refine ⟨spanOf_eq (by omega), ?_, ?_, stop_le, ?_, ?_, ?_, ?_⟩
  · rw [insertEach_of_le, rows, put]
    · rfl
    · rw [rows, length_append]
      omega
  · rw [insertEach_of_le, values, put']
    · rfl
    · rw [values, length_append]
      omega
  · refine ⟨_, rfl, ?_⟩
    rw [length_append, length_map, count]
    omega
  · refine ⟨_, waiting, rfl, ?_, held, ?_⟩
    · rw [length_append, count]
      omega
    · intro i step i_lt at_
      by_cases earlier : i < position
      · rw [getElem?_append_left (by omega)]
        apply settled_ i step earlier at_
      · rw [run i (by omega) i_lt, some_inj] at at_
        rw [← at_, settled, getElem?_append_right (by omega), block, final_length,
          getElem?_take_of_lt (by omega), getElem?_drop, Nat.add_sub_cancel' (by omega)]
  · rw [← filterMap_drop_fresh (Nat.le_of_lt lt) run]
    apply placing.due
  · apply placing.explains.snoc
    · use (by
        rw [values, length_append, length_nil]
        omega)
      rfl
    · rw [SeqOp.apply, values, length_nil, put']

/-- What is due first is among what is still to be placed. -/
theorem Placing.split {step : RowStep}
    {old : ℕ} (at_ : steps[position]? = some step) (names : step.old = some old) :
  ∃ earlier later, rest = earlier ++ old :: later ∧ old ∉ earlier ∧
    (steps.drop position).filterMap RowStep.old
      = old :: (steps.drop (position + 1)).filterMap RowStep.old ∧
    (earlier ++ later).Perm ((steps.drop (position + 1)).filterMap RowStep.old)
  := by
  obtain ⟨lt, here⟩ := List.getElem?_eq_some_iff.mp at_
  have due : (steps.drop position).filterMap RowStep.old
      = old :: (steps.drop (position + 1)).filterMap RowStep.old := by
    rw [drop_eq_getElem_cons lt, here, filterMap_cons_some names]
  have mem : old ∈ rest := by
    rw [placing.due.mem_iff, due]
    apply mem_cons_self
  obtain ⟨earlier, later, split, first⟩ := eq_append_cons_of_mem mem
  use earlier, later, split, first, due
  have perm := placing.due
  rw [due, split] at perm
  apply List.Perm.cons_inv (perm_middle.symm.trans perm)

/-- An old element that is brought to its place. -/
theorem Placing.matched
    {earlier later : List ℕ} {old : ℕ} (split : rest = earlier ++ old :: later)
    (first : old ∉ earlier) :
  ∃ work' done final was waiting, placeMatched work old position = some work' ∧
    work'.standing = (done ++ [some old]) ++ (earlier ++ later).map some ∧
    done.length = position ∧ work'.values = (final ++ [was]) ++ waiting ∧
    final.length = position ∧ before[old]? = some was ∧
    waiting.map some = ((earlier ++ later).map fun pos => before[pos]?) ∧
    (∀ i step, i < position → steps[i]? = some step → final[i]? = settled before after i step) ∧
    Explains before work'.values work'.ops ∧
    ((∀ op ∈ work'.ops, isMove op = false) ↔ (∀ op ∈ work.ops, isMove op = false) ∧ earlier = [])
  := by
  obtain ⟨done, rows, done_length⟩ := placing.rows
  obtain ⟨final, waiting, values, final_length, held, settled_⟩ := placing.held
  rw [split] at rows held
  obtain ⟨work', was, waiting', placed, rows', values', kept, held', explains, still⟩ :=
    placeMatched_spec first rows values (final_length.trans done_length.symm) held
      placing.explains
  rw [done_length] at placed
  exact ⟨work', done, final, was, waiting', placed, rows', done_length, values', final_length,
    kept, held', settled_, explains, still⟩

end

end

/-- One more element is final. -/
theorem next {after : List T} {step : RowStep} {done : List (Option ℕ)}
    {final waiting values : List T} {value : T} {ops : List (SeqOp T)} {standing : List (Option ℕ)}
    (at_ : steps[position]? = some step)
    (rows : standing = (done ++ [some old]) ++ (earlier ++ later).map some)
    (done_length : done.length = position) (values_eq : values = (final ++ [value]) ++ waiting)
    (final_length : final.length = position)
    (here : settled before after position step = some value)
    (held : waiting.map some = ((earlier ++ later).map fun pos => before[pos]?))
    (settled_ : ∀ i step, i < position → steps[i]? = some step →
      final[i]? = settled before after i step)
    (due : (earlier ++ later).Perm ((steps.drop (position + 1)).filterMap RowStep.old))
    (explains : Explains before values ops) :
  Placing before after steps (position + 1) (earlier ++ later) { standing, values, ops }
  := by
  obtain ⟨lt, _⟩ := List.getElem?_eq_some_iff.mp at_
  refine ⟨lt, ⟨_, rows, ?_⟩, ⟨_, waiting, values_eq, ?_, held, ?_⟩, due, explains⟩
  · rw [length_append, length_singleton, done_length]
  · rw [length_append, length_singleton, final_length]
  · intro i other i_lt other_at
    by_cases last : i = position
    · subst last
      rw [at_, some_inj] at other_at
      rw [← other_at, here, ← final_length, getElem?_concat_length]
    · rw [getElem?_append_left (by omega)]
      apply settled_ i other (by omega) other_at

/-- What stands in the order of the steps begins with the element of the first. -/
theorem in_order_cons {claims : List ℕ} (first : old ∉ earlier) {P : Prop} :
  (P ∧ earlier = []) ∧ earlier ++ later = claims ↔ P ∧ earlier ++ old :: later = old :: claims
  := by
  rw [and_assoc]
  apply and_congr_right'
  constructor
  · rintro ⟨rfl, same⟩
    rw [← same]
    rfl
  · intro same
    cases earlier with
    | nil =>
      rw [nil_append, List.cons.injEq] at same
      use rfl, same.2
    | cons head earlier =>
      rw [cons_append, List.cons.injEq] at same
      rw [same.1] at first
      exact absurd mem_cons_self first

/-- Every step is placed; nothing moves exactly when what is still to be placed stands in the order
of the steps. -/
theorem place_spec {after : List T} (length : steps.length = after.length) {rest : List ℕ}
    (placing : Placing before after steps position rest work) :
  ∃ work', place steps after position work = some work' ∧
    Placing before after steps steps.length [] work' ∧
    ((∀ op ∈ work'.ops, isMove op = false) ↔ (∀ op ∈ work.ops, isMove op = false) ∧
      rest = (steps.drop position).filterMap RowStep.old)
  := by
  induction h : steps.length - position using Nat.strong_induction_on
    generalizing position rest work with
  | h _ ih =>
    subst h
    rw [place]
    by_cases lt : position < steps.length
    · rw [dif_pos lt]
      have at_ := getElem?_eq_getElem lt
      cases step : steps[position] with
      | fresh =>
        rw [step] at at_
        have lt' : position + 1 ≤ steps.length := lt
        obtain ⟨stop_le, run⟩ := freshEnd_spec lt'
        have later := le_freshEnd steps (position + 1)
        have le := Nat.le_of_succ_le later
        have run' : ∀ i, position ≤ i → i < freshEnd steps (position + 1) →
            steps[i]? = some .fresh := by
          intro i i_le i_lt
          by_cases here : i = position
          · rw [here, at_]
          · apply run i (by omega) i_lt
        obtain ⟨arriving, standing, values, spanned, put, put', placing'⟩ :=
          placing.arrive length (freshEnd steps (position + 1)) later stop_le run'
        dsimp only
        rw [spanned, bind_some, put, bind_some, put', bind_some]
        obtain ⟨work', placed, done, still⟩ := ih _ (by omega) placing' rfl
        refine ⟨work', placed, done, ?_⟩
        rw [still, filterMap_drop_fresh le run']
        apply and_congr_left'
        dsimp only
        rw [forall_mem_append, forall_mem_singleton]
        exact ⟨And.left, fun none_ => ⟨none_, rfl⟩⟩
      | keep old =>
        rw [step] at at_
        obtain ⟨earlier, later, split, first, due, due'⟩ := placing.split at_ rfl
        obtain ⟨work', done, final, was, waiting, placed, rows, done_length, values,
          final_length, kept, held, settled_, explains, still⟩ := placing.matched split first
        dsimp only
        rw [placed, bind_some]
        have placing' := next at_ rows done_length values final_length kept held settled_ due'
          explains
        obtain ⟨work'', placed', done', still'⟩ := ih _ (by omega) placing' rfl
        refine ⟨work'', placed', done', ?_⟩
        rw [still', still, split, due, in_order_cons first]
      | refresh old =>
        rw [step] at at_
        obtain ⟨earlier, later, split, first, due, due'⟩ := placing.split at_ rfl
        obtain ⟨work', done, final, was, waiting, placed, rows, done_length, values,
          final_length, kept, held, settled_, explains, still⟩ := placing.matched split first
        have item : after[position]? = some after[position] :=
          getElem?_eq_getElem (length ▸ lt)
        have here : work'.values[position]? = some was := by
          rw [values, append_assoc, getElem?_append_right (by omega), final_length, Nat.sub_self]
          rfl
        have written : work'.values.set position after[position]
            = (final ++ [after[position]]) ++ waiting := by
          rw [values, append_assoc, set_append_right _ _ (by omega), final_length,
            Nat.sub_self, append_assoc]
          rfl
        have accurate : (SeqOp.setAt position was after[position]).Accurate work'.values := here
        have explains' := explains.snoc accurate rfl
        dsimp only
        rw [placed, bind_some, here, bind_some, item, bind_some]
        have placing' := next at_ rows done_length written final_length item held settled_ due'
          explains'
        obtain ⟨work'', placed', done', still'⟩ := ih _ (by omega) placing' rfl
        refine ⟨work'', placed', done', ?_⟩
        rw [still', forall_mem_append, forall_mem_singleton, still, split, due,
          ← in_order_cons first]
        apply and_congr_left'
        exact ⟨And.left, fun none_ => ⟨none_, rfl⟩⟩
    · rw [dif_neg lt]
      have le := placing.le
      have end_ : position = steps.length := by omega
      subst end_
      have none_ := placing.due
      rw [drop_length, filterMap_nil, perm_nil] at none_
      subst none_
      refine ⟨work, rfl, placing, ?_⟩
      rw [drop_length, filterMap_nil, eq_self, and_true]

/-! ### The diff -/

section

variable {K H : Type*} [BEq K]

/-- The rows of a list: its elements with their keys. -/
def rowsOf (key : T → K) (list : List T) : List (K × T) :=
  list.map fun item => (key item, item)

/-- The elements of `before` whose rows the plan does not remove, in their order. -/
def survivors (before : List T) (plan : ReconcilePlan) : List T :=
  (staying before.length plan.removed).filterMap fun pos => before[pos]?

/-- The keys that survive stand in the same order before and after. -/
def InOrder (key : T → K) (before after : List T) (plan : ReconcilePlan) : Prop :=
  List.Forall₂ (fun was item => (key was == key item) = true) (survivors before plan)
    (Reconcile.claimants after plan.steps)

theorem forall₂_filterMap {U V : Type*} {f : U → Option T} {R : T → V → Prop} {list : List U}
    {other : List V} (total : ∀ u ∈ list, (f u).isSome = true)
    (related : List.Forall₂ R (list.filterMap f) other) :
  List.Forall₂ (fun u v => ∃ t, f u = some t ∧ R t v) list other
  := by
  induction list generalizing other with
  | nil =>
    cases related
    apply List.Forall₂.nil
  | cons u list ih =>
    obtain ⟨t, found⟩ := isSome_iff_exists.mp (total u mem_cons_self)
    rw [filterMap_cons_some found] at related
    cases related with
    | cons here related =>
      apply List.Forall₂.cons
      · use t, found, here
      · apply ih _ related
        intro v mem
        apply total v (mem_cons_of_mem u mem)

/-- What stays is what is claimed. -/
theorem staying_perm {held : ℕ} {claims gone : List ℕ}
    (perm : (claims ++ gone).Perm (List.range held)) :
  (staying held gone).Perm claims
  := by
  have nodup : (claims ++ gone).Nodup := perm.symm.nodup nodup_range
  have split := (perm.filter fun pos => decide (pos ∉ gone)).symm
  have claimed : claims.filter (fun pos => decide (pos ∉ gone)) = claims := by
    rw [filter_eq_self]
    intro pos mem
    rw [decide_eq_true_iff]
    apply disjoint_of_nodup_append nodup mem
  have rest : gone.filter (fun pos => decide (pos ∉ gone)) = [] := by
    rw [filter_eq_nil_iff]
    intro pos mem
    rw [decide_eq_true_iff, not_not]
    apply mem
  rw [filter_append, claimed, rest, append_nil] at split
  apply split

omit [BEq K] in
theorem length_rowsOf (key : T → K) (list : List T) :
  (rowsOf key list).length = list.length
  := length_map _

/-- Where the surviving keys stand in order, so do the claims. -/
theorem InOrder.claims {sameElement : T → T → Bool} {key : T → K} {before after : List T}
    (order : InOrder key before after
      (Reconcile.scanPlan sameElement key (rowsOf key before) after)) :
  staying before.length (Reconcile.scanPlan sameElement key (rowsOf key before) after).removed
    = (Reconcile.scanPlan sameElement key (rowsOf key before) after).steps.filterMap RowStep.old
  := by
  have perm := scanPlan_perm sameElement key (rowsOf key before) after
  rw [length_rowsOf] at perm
  apply scanEach_in_order
  · apply List.Pairwise.filter
    apply pairwise_lt_range
  · apply staying_perm perm
  · intro pos _ mem
    cases mem
  · have related := forall₂_filterMap (by
      intro pos mem
      rw [staying, mem_filter, mem_range] at mem
      rw [getElem?_eq_getElem mem.1]
      rfl) order
    apply related.imp
    rintro pos item ⟨was, held, equal⟩
    use (key was, was)
    rw [rowsOf, getElem?_map, held]
    use rfl, equal

omit [BEq K] in
theorem map_getElem?_range (list : List T) :
  (List.range list.length).map (fun pos => list[pos]?) = list.map some
  := by
  apply ext_getElem
  · rw [length_map, length_map, length_range]
  · intro i lt lt'
    rw [length_map] at lt'
    rw [getElem_map, getElem_map, getElem_range, getElem?_eq_getElem lt']

omit [BEq K] in
/-- Before the first departure the list stands as it was. -/
theorem nothing_departed (before : List T) (removed : List ℕ) :
  Departed before (removed.drop removed.length)
    { standing := (List.range before.length).map some, values := before, ops := [] }
  := by
  have whole : staying before.length (removed.drop removed.length) = List.range before.length := by
    rw [staying, drop_length, filter_eq_self]
    intro pos _
    rw [decide_eq_true_iff]
    apply not_mem_nil
  constructor
  · rw [whole]
  · rw [whole, map_getElem?_range]
  · constructor
    · rfl
    · trivial
  · intro op mem
    cases mem

omit [BEq K] in
/-- What the departures leave is what is still to be placed. -/
theorem Departed.placing {before after : List T} {removed : List ℕ} {work : Standing T}
    {steps : List RowStep} (departed : Departed before removed work)
    (perm : (staying before.length removed).Perm (steps.filterMap RowStep.old)) :
  Placing before after steps 0 (staying before.length removed) work
  := by
  refine ⟨Nat.zero_le _, ⟨[], ?_, rfl⟩, ⟨[], work.values, rfl, rfl, departed.values, ?_⟩, ?_,
    departed.explains⟩
  · rw [departed.standing, nil_append]
  · intro i step lt
    cases lt
  · rw [drop_zero]
    apply perm

/-- The keyed diff rebuilds the list that came after: each of its ops is accurate where it applies,
and an element that is not the one of `after` is an old one that was kept for the same.  Where the
surviving keys stand in order nothing moves. -/
theorem keyed_ops_rebuild [DecidableEq H] (hash : K → H)
    (agree : ∀ a b : K, (a == b) = true → hash a = hash b) (sameElement : T → T → Bool)
    (key : T → K) (before after : List T) (fuel : ℕ) (enough : before.length < fuel) :
  ∃ ops plan, keyedOps hash sameElement fuel before after key = some ops ∧
    Reconcile.reconcile hash sameElement fuel (before.map key) before after key = some plan ∧
    SeqOp.Along SeqOp.Accurate ops before ∧
    (SeqOp.replay ops before).length = after.length ∧
    (∀ (i : ℕ) item, after[i]? = some item → (SeqOp.replay ops before)[i]? = some item ∨
      ∃ old was, plan.steps[i]? = some (.keep old) ∧ before[old]? = some was ∧
        (key was == key item) = true ∧ sameElement was item = true ∧
        (SeqOp.replay ops before)[i]? = some was) ∧
    (InOrder key before after plan → ∀ op ∈ ops, isMove op = false)
  := by
  have keys : (rowsOf key before).map Prod.fst = before.map key := List.map_map
  have items : (rowsOf key before).map Prod.snd = before := by
    rw [rowsOf, List.map_map]
    apply List.map_id
  have enough' : (rowsOf key before).length < fuel := by
    rw [length_rowsOf]
    apply enough
  have planned := reconcile_eq_scanPlan sameElement key agree enough' after
  have perm := scanPlan_perm sameElement key (rowsOf key before) after
  have length : (Reconcile.scanEach sameElement key (rowsOf key before) after []).1.length
      = after.length := length_scanEach sameElement key after []
  rw [keys, items] at planned
  rw [length_rowsOf] at perm
  generalize plan_eq : Reconcile.scanPlan sameElement key (rowsOf key before) after = plan
    at planned perm
  have steps : (Reconcile.scanEach sameElement key (rowsOf key before) after []).1 = plan.steps := by
    rw [← plan_eq]
    rfl
  have sorted : plan.removed.Pairwise (· < ·) := by
    rw [← plan_eq]
    apply List.Pairwise.filter
    apply pairwise_lt_range
  have bound : ∀ pos ∈ plan.removed, pos < before.length := by
    intro pos mem
    rw [← mem_range, ← perm.mem_iff]
    apply mem_append_right _ mem
  rw [steps] at length
  obtain ⟨work, departed, left⟩ := depart_spec sorted bound (Nat.le_refl _)
    (nothing_departed before plan.removed)
  obtain ⟨work', placed, done, still⟩ := place_spec length (left.placing (staying_perm perm))
  obtain ⟨_, rows, _⟩ := done.rows
  obtain ⟨final, waiting, values, final_length, none_, settled_⟩ := done.held
  rw [map_nil, map_eq_nil_iff] at none_
  rw [none_, append_nil] at values
  have final_eq : SeqOp.replay work'.ops before = final := by
    rw [← values, done.explains.values_eq]
  use work'.ops, plan
  rw [keyedOps, planned, bind_some, departed, bind_some, placed, map_some, final_eq]
  refine ⟨rfl, rfl, done.explains.accurate, final_length.trans length, ?_, ?_⟩
  · intro i item item_at
    obtain ⟨lt, _⟩ := List.getElem?_eq_some_iff.mp item_at
    rw [← length] at lt
    have step_at := getElem?_eq_getElem lt
    have here := settled_ i _ lt step_at
    cases step : plan.steps[i] with
    | fresh =>
      rw [step, settled, item_at] at here
      left
      apply here
    | refresh old =>
      rw [step, settled, item_at] at here
      left
      apply here
    | keep old =>
      rw [step] at step_at here
      rw [← steps] at step_at
      obtain ⟨row, item', held, item_at', same, equal⟩ := scanEach_keep step_at
      rw [rowsOf, getElem?_map, map_eq_some_iff] at held
      obtain ⟨was, was_at, rfl⟩ := held
      rw [item_at, some_inj] at item_at'
      subst item_at'
      rw [settled, was_at] at here
      rw [steps] at step_at
      right
      exact ⟨old, was, step_at, was_at, equal, same, here⟩
  · intro order
    rw [still]
    use left.still
    rw [← plan_eq] at order ⊢
    apply order.claims

end

/-- Elements are told apart by their tens, and change in their units. -/
theorem keyed_ops_rebuild_units :
  ∃ ops plan, keyedOps (fun key : ℕ => key % 2) (fun was item => was == item) 5 [10, 30, 11, 50]
      [30, 12, 20, 11] (fun item => item / 10) = some ops ∧
    Reconcile.reconcile (fun key : ℕ => key % 2) (fun was item => was == item) 5
      ([10, 30, 11, 50].map fun item => item / 10) [10, 30, 11, 50] [30, 12, 20, 11]
      (fun item => item / 10) = some plan ∧
    SeqOp.Along SeqOp.Accurate ops [10, 30, 11, 50] ∧
    (SeqOp.replay ops [10, 30, 11, 50]).length = [30, 12, 20, 11].length ∧
    (∀ (i : ℕ) item, [30, 12, 20, 11][i]? = some item →
      (SeqOp.replay ops [10, 30, 11, 50])[i]? = some item ∨
      ∃ old was, plan.steps[i]? = some (.keep old) ∧ [10, 30, 11, 50][old]? = some was ∧
        (was / 10 == item / 10) = true ∧ (was == item) = true ∧
        (SeqOp.replay ops [10, 30, 11, 50])[i]? = some was) ∧
    (InOrder (fun item => item / 10) [10, 30, 11, 50] [30, 12, 20, 11] plan →
      ∀ op ∈ ops, isMove op = false)
  := by
  apply keyed_ops_rebuild (fun key : ℕ => key % 2)
  · intro a b equal
    rw [eq_of_beq equal]
  · decide

end KeyedDiff

end Vilan
