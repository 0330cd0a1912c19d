import Vilan.Library.Checked
import Vilan.Reactive.ListCell

/-!
# The positional diff

Two copies of one diff: the stage that a whole list passes through, and the door of the cell that
takes one.  Both trim the common prefix and what is left of the common suffix, and splice what
stands between.
-/

namespace Vilan

open List Option Splice

variable {T : Type*}

section

variable [BEq T]

/-- The loop over the common prefix, from `matched` on; every index is checked. -/
def prefixFrom (old new : List T) (matched : ℕ) : Option ℕ :=
  if _h : matched < old.length ∧ matched < new.length then
    old[matched]?.bind fun a => new[matched]?.bind fun b =>
      if a == b then prefixFrom old new (matched + 1) else some matched
  else some matched
termination_by old.length - matched

/-- The element at `length - 1 - matched`; the subtractions and the index are checked. -/
def fromEnd (list : List T) (matched : ℕ) : Option T :=
  (Checked.sub list.length 1).bind fun last => (Checked.sub last matched).bind fun i => list[i]?

/-- The loop over the common suffix of what is left after a prefix, from `matched` on. -/
def suffixFrom (old new : List T) (before matched : ℕ) : Option ℕ :=
  if _h : before + matched < old.length ∧ before + matched < new.length then
    (fromEnd old matched).bind fun a => (fromEnd new matched).bind fun b =>
      if a == b then suffixFrom old new before (matched + 1) else some matched
  else some matched
termination_by old.length - matched

/-- The elements of `list` at `start .. stop`; every index is checked. -/
def spanOf (list : List T) (start stop : ℕ) : Option (List T) :=
  if _h : start < stop then
    list[start]?.bind fun a => (spanOf list (start + 1) stop).map (a :: ·)
  else some []
termination_by stop - start

/-- The prefix/suffix trim: nothing, or one splice of what lies between.  It fails where an index or
a subtraction does. -/
def positionalOps (before after : List T) : Option (List (SeqOp T)) :=
  (prefixFrom before after 0).bind fun matched =>
  (suffixFrom before after matched 0).bind fun trailing =>
  (Checked.sub before.length trailing).bind fun stop =>
  (spanOf before matched stop).bind fun removed =>
  (Checked.sub after.length trailing).bind fun stop' =>
  (spanOf after matched stop').map fun inserted =>
    if 0 < removed.length ∨ 0 < inserted.length then [.splice matched removed inserted] else []

/-- The elements that `reconcile_to` takes over: the loop skips an index out of bounds. -/
def arrivingFrom (items : List T) (start stop : ℕ) : List T :=
  if _h : start < stop then
    match items[start]? with
    | some value => value :: arrivingFrom items (start + 1) stop
    | none => arrivingFrom items (start + 1) stop
  else []
termination_by stop - start

/-- `reconcile_to` with its indices and subtractions checked. -/
def ListCell.reconcileToChecked (cell : ListCell T) (items : List T) :
    Option (Outcome (ListCell T) Unit) :=
  (prefixFrom cell.items items 0).bind fun matched =>
  (suffixFrom cell.items items matched 0).bind fun trailing =>
  (Checked.sub cell.items.length matched).bind fun rest =>
  (Checked.sub rest trailing).bind fun removed =>
  (Checked.sub items.length trailing).map fun stop =>
    let arriving := arrivingFrom items matched stop
    if removed = 0 ∧ arriving.length = 0 then .done cell ()
    else cell.splice matched removed arriving

/-! ### The loops -/

theorem bne_iff {a b : T} :
  (a != b) = true ↔ (a == b) = false
  := by
  rw [bne, Bool.not_eq_true']

theorem prefixFrom_eq (old new : List T) (matched : ℕ) :
  prefixFrom old new matched = some (ListCell.commonPrefix old new matched)
  := by
  fun_induction ListCell.commonPrefix old new matched with
  | case1 matched h differ =>
    rw [prefixFrom, dif_pos h, getElem?_eq_getElem h.1, getElem?_eq_getElem h.2,
      bind_some, bind_some, if_neg]
    rw [bne_iff] at differ
    rw [differ]
    decide
  | case2 matched h same ih =>
    rw [prefixFrom, dif_pos h, getElem?_eq_getElem h.1, getElem?_eq_getElem h.2,
      bind_some, bind_some, if_pos, ih]
    rw [bne_iff, Bool.not_eq_false] at same
    apply same
  | case3 matched h =>
    rw [prefixFrom, dif_neg h]

variable {matched : ℕ} {list new old : List T}

omit [BEq T] in
theorem fromEnd_eq (lt : matched < list.length) :
  fromEnd list matched = list[list.length - 1 - matched]?
  := by
  rw [fromEnd, Checked.sub_of_le (by omega), bind_some, Checked.sub_of_le (by omega), bind_some]

theorem suffixFrom_eq (old new : List T) (before matched : ℕ) :
  suffixFrom old new before matched = some (ListCell.commonSuffix old new before matched)
  := by
  fun_induction ListCell.commonSuffix old new before matched with
  | case1 matched h differ =>
    rw [suffixFrom, dif_pos h, fromEnd_eq (by omega), fromEnd_eq (by omega),
      getElem?_eq_getElem (by omega), getElem?_eq_getElem (by omega), bind_some, bind_some, if_neg]
    rw [bne_iff] at differ
    rw [differ]
    decide
  | case2 matched h same ih =>
    rw [suffixFrom, dif_pos h, fromEnd_eq (by omega), fromEnd_eq (by omega),
      getElem?_eq_getElem (by omega), getElem?_eq_getElem (by omega),
      bind_some, bind_some, if_pos, ih]
    rw [bne_iff, Bool.not_eq_false] at same
    apply same
  | case3 matched h =>
    rw [suffixFrom, dif_neg h]

omit [BEq T] in
theorem spanOf_eq {start stop : ℕ} (le : stop ≤ list.length) :
  spanOf list start stop = some (block list start (stop - start))
  := by
  fun_induction spanOf list start stop with
  | case1 start lt ih =>
    have here : start < list.length := by omega
    rw [getElem?_eq_getElem here, bind_some, ih, map_some, block, block, drop_eq_getElem_cons here]
    have count : stop - start = (stop - (start + 1)) + 1 := by omega
    rw [count, take_succ_cons]
  | case2 start not_lt =>
    have count : stop - start = 0 := by omega
    rw [block, count, take_zero]

omit [BEq T] in
theorem arrivingFrom_eq {items : List T} {start stop : ℕ} (le : stop ≤ items.length) :
  arrivingFrom items start stop = block items start (stop - start)
  := by
  fun_induction arrivingFrom items start stop with
  | case1 start lt value at_ ih =>
    obtain ⟨here, rfl⟩ := List.getElem?_eq_some_iff.mp at_
    rw [ih, block, block, drop_eq_getElem_cons here]
    have count : stop - start = (stop - (start + 1)) + 1 := by omega
    rw [count, take_succ_cons]
  | case2 start lt missing ih =>
    rw [List.getElem?_eq_none_iff] at missing
    omega
  | case3 start not_lt =>
    have count : stop - start = 0 := by omega
    rw [block, count, take_zero]

/-! ### What the loops find -/

/-- Lists that are equal element by element. -/
def Same (old new : List T) : Prop :=
  List.Forall₂ (fun a b => (a == b) = true) old new

/-- The first `n` elements of two lists are equal. -/
def CommonPrefix (old new : List T) (n : ℕ) : Prop :=
  n ≤ old.length ∧ n ≤ new.length ∧ Same (old.take n) (new.take n)

/-- The last `n` elements of two lists are equal. -/
def CommonSuffix (old new : List T) (n : ℕ) : Prop :=
  n ≤ old.length ∧ n ≤ new.length ∧
    Same (old.drop (old.length - n)) (new.drop (new.length - n))

theorem Same.append {old' new' : List T} (first : Same old new) (second : Same old' new') :
  Same (old ++ old') (new ++ new')
  := rel_append first second

theorem Same.refl [ReflBEq T] (list : List T) :
  Same list list
  := by
  rw [Same, List.forall₂_same]
  intro a _
  apply BEq.rfl

theorem Same.beq (same : Same old new) {i : ℕ} (lt : i < old.length) (lt' : i < new.length) :
  (old[i] == new[i]) = true
  := List.Forall₂.get same lt lt'

/-- The loop over the prefix ends at the longest common prefix. -/
theorem commonPrefix_spec (common : CommonPrefix old new matched) :
  CommonPrefix old new (ListCell.commonPrefix old new matched) ∧
    ∀ n, CommonPrefix old new n → n ≤ ListCell.commonPrefix old new matched
  := by
  fun_induction ListCell.commonPrefix old new matched with
  | case1 matched h differ =>
    use common
    intro n other
    by_contra lt
    rw [bne_iff] at differ
    have same := other.2.2.beq (i := matched) (by rw [length_take]; omega)
      (by rw [length_take]; omega)
    rw [getElem_take, getElem_take, differ] at same
    cases same
  | case2 matched h same ih =>
    apply ih
    rw [bne_iff, Bool.not_eq_false] at same
    refine ⟨h.1, h.2, ?_⟩
    rw [take_add_one, take_add_one, getElem?_eq_getElem h.1, getElem?_eq_getElem h.2]
    have one : Same [old[matched]] [new[matched]] := List.Forall₂.cons same List.Forall₂.nil
    exact common.2.2.append one
  | case3 matched h =>
    use common
    intro n other
    obtain ⟨le, le', _⟩ := other
    omega

/-- The loop over the suffix ends at the longest common suffix of what the prefix leaves. -/
theorem commonSuffix_spec {before : ℕ} (common : CommonSuffix old new matched)
    (le : before + matched ≤ old.length) (le' : before + matched ≤ new.length) :
  CommonSuffix old new (ListCell.commonSuffix old new before matched) ∧
    before + ListCell.commonSuffix old new before matched ≤ old.length ∧
    before + ListCell.commonSuffix old new before matched ≤ new.length ∧
    ∀ n, CommonSuffix old new n → before + n ≤ old.length → before + n ≤ new.length →
      n ≤ ListCell.commonSuffix old new before matched
  := by
  fun_induction ListCell.commonSuffix old new before matched with
  | case1 matched h differ =>
    refine ⟨common, le, le', ?_⟩
    intro n other n_le n_le'
    by_contra lt
    rw [bne_iff] at differ
    have same := other.2.2.beq (i := n - 1 - matched) (by rw [length_drop]; omega)
      (by rw [length_drop]; omega)
    rw [getElem_drop, getElem_drop] at same
    have at_ : old.length - n + (n - 1 - matched) = old.length - 1 - matched := by omega
    have at_' : new.length - n + (n - 1 - matched) = new.length - 1 - matched := by omega
    simp only [at_, at_', differ] at same
    cases same
  | case2 matched h same ih =>
    rw [bne_iff, Bool.not_eq_false] at same
    apply ih
    · refine ⟨by omega, by omega, ?_⟩
      have at_ : old.length - (matched + 1) = old.length - 1 - matched := by omega
      have at_' : new.length - (matched + 1) = new.length - 1 - matched := by omega
      have lt : old.length - 1 - matched < old.length := by omega
      have lt' : new.length - 1 - matched < new.length := by omega
      rw [at_, at_', drop_eq_getElem_cons lt, drop_eq_getElem_cons lt']
      have next : old.length - 1 - matched + 1 = old.length - matched := by omega
      have next' : new.length - 1 - matched + 1 = new.length - matched := by omega
      rw [next, next', Same, List.forall₂_cons]
      use same
      apply common.2.2
    · omega
    · omega
  | case3 matched h =>
    refine ⟨common, le, le', ?_⟩
    intro n _ n_le n_le'
    omega

theorem commonPrefix_zero (old new : List T) :
  CommonPrefix old new 0
  := ⟨Nat.zero_le _, Nat.zero_le _, List.Forall₂.nil⟩

theorem commonSuffix_zero (old new : List T) :
  CommonSuffix old new 0
  := by
  refine ⟨Nat.zero_le _, Nat.zero_le _, ?_⟩
  rw [Nat.sub_zero, Nat.sub_zero, drop_length, drop_length]
  apply List.Forall₂.nil

/-! ### The diff -/

/-- What a positional diff of two lists is: at most one splice, none exactly when the lists are
equal, that makes of the first a list equal to the second; it stands behind the longest common
prefix, and does not reach what of a common suffix does not overlap that prefix. -/
structure Diffs (before after : List T) (ops : List (SeqOp T)) : Prop where
  one : ops.length ≤ 1
  none_iff : ops = [] ↔ Same before after
  accurate : SeqOp.Along SeqOp.Accurate ops before
  rebuilds : Same (SeqOp.replay ops before) after
  splices : ∀ op ∈ ops, ∃ pos removed inserted, op = .splice pos removed inserted ∧
    CommonPrefix before after pos ∧ (∀ n, CommonPrefix before after n → n ≤ pos) ∧
    ∀ n, CommonSuffix before after n → pos + n ≤ before.length → pos + n ≤ after.length →
      pos + removed.length ≤ before.length - n ∧ pos + inserted.length ≤ after.length - n

/-- What stands between the prefix and the suffix. -/
def between (list : List T) (pos trailing : ℕ) : List T :=
  block list pos (list.length - trailing - pos)

omit [BEq T] in
theorem append_between {pos trailing : ℕ} (le : pos + trailing ≤ list.length) :
  list.take pos ++ between list pos trailing ++ list.drop (list.length - trailing) = list ∧
    (between list pos trailing).length = list.length - trailing - pos
  := by
  have stop : pos + (list.length - trailing - pos) = list.length - trailing := by omega
  constructor
  · have whole := append_block_append list pos (list.length - trailing - pos)
    rw [stop] at whole
    apply whole
  · rw [between, length_block (by omega)]

/-- The splice of what stands between, or nothing. -/
def trimmed (before after : List T) : List (SeqOp T) :=
  let pos := ListCell.commonPrefix before after 0
  let trailing := ListCell.commonSuffix before after pos 0
  if 0 < (between before pos trailing).length ∨ 0 < (between after pos trailing).length then
    [.splice pos (between before pos trailing) (between after pos trailing)]
  else []

theorem trimmed_diffs [ReflBEq T] (before after : List T) :
  Diffs before after (trimmed before after)
  := by
  obtain ⟨common, longest⟩ := commonPrefix_spec (commonPrefix_zero before after)
  rw [trimmed]
  generalize ListCell.commonPrefix before after 0 = pos at common longest ⊢
  obtain ⟨common', le, le', longest'⟩ :=
    commonSuffix_spec (commonSuffix_zero before after) common.1 common.2.1
  generalize ListCell.commonSuffix before after pos 0 = trailing at common' le le' longest' ⊢
  obtain ⟨whole, length⟩ := append_between le
  obtain ⟨whole', length'⟩ := append_between le'
  generalize between before pos trailing = removed at whole length ⊢
  generalize between after pos trailing = inserted at whole' length' ⊢
  have rebuilt : Same (before.take pos ++ inserted ++ before.drop (before.length - trailing)) after := by
    have parts := (common.2.2.append (Same.refl inserted)).append common'.2.2
    rw [whole'] at parts
    apply parts
  split
  next some_ =>
    have stop : pos + removed.length = before.length - trailing := by omega
    have range : pos + removed.length ≤ before.length := by omega
    constructor
    · rw [length_singleton]
    · constructor
      · intro eq
        cases eq
      · intro same
        have whole_prefix : CommonPrefix before after before.length := by
          refine ⟨Nat.le_refl _, Nat.le_of_eq same.length_eq, ?_⟩
          rw [take_length, List.Forall₂.length_eq same, take_length]
          apply same
        have := longest _ whole_prefix
        have := same.length_eq
        omega
    · refine ⟨⟨range, ?_⟩, trivial⟩
      have held := congrArg (fun list => block list pos removed.length) whole
      rw [← held, block, append_assoc, drop_left' (by rw [length_take]; omega), take_left' rfl]
    · show Same (splice before pos removed.length inserted) after
      rw [splice, stop]
      apply rebuilt
    · intro op mem
      rw [mem_singleton] at mem
      subst mem
      use pos, removed, inserted, rfl, common, longest
      intro n other n_le n_le'
      have := longest' n other n_le n_le'
      omega
  next none_ =>
    rw [not_or, Nat.not_lt, Nat.not_lt, Nat.le_zero, Nat.le_zero, length_eq_zero_iff,
      length_eq_zero_iff] at none_
    obtain ⟨rfl, rfl⟩ := none_
    have same : Same before after := by
      rw [whole] at rebuilt
      apply rebuilt
    constructor
    · apply Nat.zero_le
    · exact iff_of_true rfl same
    · trivial
    · apply same
    · intro op mem
      cases mem

/-- The bounds of the two loops. -/
theorem common_bounds (before after : List T) :
  ListCell.commonPrefix before after 0
      + ListCell.commonSuffix before after (ListCell.commonPrefix before after 0) 0
      ≤ before.length ∧
    ListCell.commonPrefix before after 0
      + ListCell.commonSuffix before after (ListCell.commonPrefix before after 0) 0
      ≤ after.length
  := by
  obtain ⟨common, _⟩ := commonPrefix_spec (commonPrefix_zero before after)
  obtain ⟨_, le, le', _⟩ :=
    commonSuffix_spec (commonSuffix_zero before after) common.1 common.2.1
  use le, le'

/-- The stage computes the diff. -/
theorem positionalOps_eq (before after : List T) :
  positionalOps before after = some (trimmed before after)
  := by
  obtain ⟨le, le'⟩ := common_bounds before after
  rw [positionalOps, prefixFrom_eq, bind_some, suffixFrom_eq, bind_some,
    Checked.sub_of_le (by omega), bind_some, spanOf_eq (by omega), bind_some,
    Checked.sub_of_le (by omega), bind_some, spanOf_eq (by omega), map_some]
  rfl

/-- The checks of the door pass. -/
theorem ListCell.reconcileToChecked_eq (cell : ListCell T) (items : List T) :
  cell.reconcileToChecked items = some (cell.reconcileTo items)
  := by
  obtain ⟨le, le'⟩ := common_bounds cell.items items
  rw [reconcileToChecked, prefixFrom_eq, bind_some, suffixFrom_eq, bind_some,
    Checked.sub_of_le (by omega), bind_some, Checked.sub_of_le (by omega), bind_some,
    Checked.sub_of_le (by omega), map_some, arrivingFrom_eq (by omega)]
  rfl

/-- The door records the diff. -/
theorem ListCell.reconcileTo_trimmed (cell : ListCell T) (items : List T) :
  ∃ cell', cell.reconcileTo items = .done cell' () ∧
    Records cell cell' (trimmed cell.items items)
  := by
  obtain ⟨le, le'⟩ := common_bounds cell.items items
  rw [reconcileTo, trimmed]
  generalize commonPrefix cell.items items 0 = pos at le le' ⊢
  generalize commonSuffix cell.items items pos 0 = trailing at le le' ⊢
  obtain ⟨_, length⟩ := append_between le
  have count : cell.items.length - pos - trailing = cell.items.length - trailing - pos := by omega
  rw [length, count, ← between]
  by_cases nothing : cell.items.length - trailing - pos = 0 ∧ (between items pos trailing).length = 0
  · rw [if_pos nothing, if_neg (by omega)]
    exact ⟨cell, rfl, Records.refl cell⟩
  · have range : pos + (cell.items.length - trailing - pos) ≤ cell.items.length := by omega
    obtain ⟨start, taking⟩ := splice_clamp_of_le range
    obtain ⟨accurate, held⟩ := accurate_splice range (between items pos trailing)
    rw [if_neg nothing, if_pos (by omega), ListCell.splice]
    rw [start, taking, if_neg nothing, spliceInPlace_of_le range]
    exact ⟨_, rfl, records_one accurate held⟩

/-- Both diffs return; what they say is one diff of the two lists. -/
theorem positional_diffs [EquivBEq T] (before after : List T) (cell : ListCell T)
    (items : List T) :
  (∃ ops, positionalOps before after = some ops ∧ Diffs before after ops) ∧
    ∃ cell' ops, cell.reconcileToChecked items = some (.done cell' ()) ∧
      cell'.log = ops.foldl DeltaLog.record cell.log ∧
      cell'.items = SeqOp.replay ops cell.items ∧ Diffs cell.items items ops
  := by
  constructor
  · use trimmed before after, positionalOps_eq before after
    apply trimmed_diffs
  · obtain ⟨cell', call, records⟩ := cell.reconcileTo_trimmed items
    use cell', trimmed cell.items items
    rw [ListCell.reconcileToChecked_eq, call]
    use rfl, records.log_eq, records.items_eq
    apply trimmed_diffs

end

/-- An insertion in a run of equal values, where the prefix and the suffix overlap. -/
theorem positional_diffs_run :
  (∃ ops, positionalOps [1, 1] [1, 1, 1] = some ops ∧ Diffs [1, 1] [1, 1, 1] ops) ∧
    ∃ cell' ops, (ListCell.of [2, 3]).reconcileToChecked [3] = some (.done cell' ()) ∧
      cell'.log = ops.foldl DeltaLog.record (ListCell.of [2, 3]).log ∧
      cell'.items = SeqOp.replay ops (ListCell.of [2, 3]).items ∧
      Diffs (ListCell.of [2, 3]).items [3] ops
  := positional_diffs [1, 1] [1, 1, 1] (ListCell.of [2, 3]) [3]

end Vilan
