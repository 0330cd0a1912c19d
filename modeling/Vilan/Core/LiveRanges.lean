import Mathlib.Data.List.Sort
import Mathlib.Data.List.TakeWhile
import Vilan.Library.Iterators
import Vilan.Library.Ranges

/-!
# Live ranges

An incremental analysis reuses the facts of ranges of ids and runs its checks on the others.  The live
ranges are the complement of the reused ones.  A pass over a table keyed by ids either sweeps the table
and asks of each entry whether it is live, or walks the live ids and looks each one up.
-/

namespace Vilan.Core

open List Ranges Iterators

/-- The live ids as ranges, and how many they are. -/
structure LiveRanges where
  ranges : List (ℕ × ℕ)
  count : ℕ
  ascending : Ascending ranges
  counted : count = total ranges

namespace LiveRanges

/-! ### The complement -/

/-- The order in which the reused ranges are sorted. -/
def Before (first second : ℕ × ℕ) : Prop :=
  first.1 < second.1 ∨ (first.1 = second.1 ∧ first.2 ≤ second.2)

instance : DecidableRel Before :=
  fun _ _ => inferInstanceAs (Decidable (_ ∨ _))

instance : Std.Total Before :=
  ⟨fun first second => by unfold Before; omega⟩

instance : IsTrans (ℕ × ℕ) Before :=
  ⟨fun first second third => by unfold Before; omega⟩

/-- The gaps between sorted ranges, from a cursor to the high-water mark. -/
def gaps (high : ℕ) : ℕ → List (ℕ × ℕ) → List (ℕ × ℕ)
  | cursor, [] => if cursor < high then [(cursor, high)] else []
  | cursor, (start, stop) :: reused =>
      let start := min start high
      let stop := min stop high
      (if cursor < start then [(cursor, start)] else []) ++ gaps high (max cursor stop) reused

/-- The reused ranges that hold an id, sorted. -/
def sealed (reused : List (ℕ × ℕ)) : List (ℕ × ℕ) :=
  (reused.filter fun range => range.1 < range.2).insertionSort Before

theorem within_sealed (reused : List (ℕ × ℕ)) (id : ℕ) :
  Within (sealed reused) id ↔ Within reused id
  := by
  rw [sealed, Within, Within]
  constructor
  · rintro ⟨range, mem, le, lt⟩
    rw [mem_insertionSort, mem_filter] at mem
    exact ⟨range, mem.1, le, lt⟩
  · rintro ⟨range, mem, le, lt⟩
    use range
    rw [mem_insertionSort, mem_filter, decide_eq_true_iff]
    exact ⟨⟨mem, Nat.lt_of_le_of_lt le lt⟩, le, lt⟩

theorem sealed_held (reused : List (ℕ × ℕ)) :
  ∀ range ∈ sealed reused, range.1 < range.2
  := by
  intro range mem
  rw [sealed, mem_insertionSort, mem_filter, decide_eq_true_iff] at mem
  exact mem.2

theorem sealed_starts (reused : List (ℕ × ℕ)) :
  (sealed reused).Pairwise fun before after => before.1 ≤ after.1
  := by
  apply (pairwise_insertionSort Before _).imp
  intro before after h
  rw [Before] at h
  omega

variable {cursor high : ℕ} {reused ranges : List (ℕ × ℕ)}

theorem gaps_start :
  ∀ range ∈ gaps high cursor reused, cursor ≤ range.1
  := by
  induction reused generalizing cursor with
  | nil =>
    intro range mem
    rw [gaps] at mem
    split at mem
    · rw [mem_singleton.mp mem]
    · cases mem
  | cons head reused ih =>
    intro range mem
    rw [gaps, mem_append] at mem
    obtain mem | mem := mem
    · split at mem
      · rw [mem_singleton.mp mem]
      · cases mem
    · have le := ih range mem
      omega

theorem gaps_ascending (held : ∀ range ∈ reused, range.1 < range.2) :
  Ascending (gaps high cursor reused)
  := by
  induction reused generalizing cursor with
  | nil =>
    rw [gaps]
    split
    next lt => exact ascending_cons.mpr ⟨lt, fun _ mem => absurd mem not_mem_nil, ascending_nil⟩
    next => exact ascending_nil
  | cons head reused ih =>
    rw [forall_mem_cons] at held
    rw [gaps]
    split
    next lt =>
      refine ascending_cons.mpr ⟨lt, ?_, ih held.2⟩
      intro range mem
      have le := gaps_start range mem
      have lt' := held.1
      dsimp only
      omega
    next => exact ih held.2

/-- Where the ranges start in order, an id lies in a gap when it lies in none of them. -/
theorem within_gaps (starts : reused.Pairwise fun before after => before.1 ≤ after.1) (id : ℕ) :
  Within (gaps high cursor reused) id ↔ cursor ≤ id ∧ id < high ∧ ¬ Within reused id
  := by
  induction reused generalizing cursor with
  | nil =>
    rw [gaps]
    split
    next => simp only [within_cons, not_within_nil, or_false, not_false_eq_true, and_true]
    next =>
      simp only [not_within_nil, not_false_eq_true, and_true, false_iff]
      omega
  | cons head reused ih =>
    obtain ⟨later, starts⟩ := pairwise_cons.mp starts
    have behind : Within reused id → head.1 ≤ id := fun within => within.behind later
    rw [gaps, within_append, ih starts, within_cons]
    split
    next =>
      simp only [within_cons, not_within_nil, or_false]
      by_cases within : Within reused id
      · have le := behind within
        simp only [within, not_true_eq_false, and_false, or_false, or_true, iff_false]
        omega
      · simp only [within, not_false_eq_true, and_true, or_false]
        omega
    next =>
      simp only [not_within_nil, false_or]
      by_cases within : Within reused id
      · simp only [within, not_true_eq_false, and_false, or_true]
      · simp only [within, not_false_eq_true, and_true, or_false]
        omega

/-- The ids before the high-water mark that lie in no reused range. -/
def complement (reused : List (ℕ × ℕ)) (high : ℕ) : LiveRanges where
  ranges := gaps high 0 (sealed reused)
  count := total (gaps high 0 (sealed reused))
  ascending := gaps_ascending (sealed_held reused)
  counted := rfl

/-! ### Asking for one id -/

/-- How many ranges start at or before an id, which are the first ones. -/
def partitionPoint (ranges : List (ℕ × ℕ)) (id : ℕ) : ℕ :=
  (ranges.takeWhile fun range => range.1 ≤ id).length

/-- Whether an id is live. -/
def covers (live : LiveRanges) (id : ℕ) : Bool :=
  let index := partitionPoint live.ranges id
  0 < index && (live.ranges[index - 1]?).any fun range => id < range.2

/-- An id is live when it lies in one of the ranges. -/
theorem covers_iff (live : LiveRanges) (id : ℕ) :
  live.covers id = true ↔ Within live.ranges id
  := by
  have ascending := live.ascending
  have later : ∀ range ∈ live.ranges.dropWhile fun range => range.1 ≤ id, id < range.1 :=
    ascending.dropWhile_start
  have parts := takeWhile_append_dropWhile (p := fun range => decide (range.1 ≤ id))
    (l := live.ranges)
  have starts : ∀ range ∈ live.ranges.takeWhile fun range => range.1 ≤ id, range.1 ≤ id :=
    by
    intro range mem
    exact of_decide_eq_true (mem_takeWhile_imp (p := fun range : ℕ × ℕ => decide (range.1 ≤ id)) mem)
  rw [covers, partitionPoint]
  generalize live.ranges.takeWhile _ = front at parts starts ⊢
  generalize live.ranges.dropWhile _ = back at parts later
  rw [← parts] at ascending ⊢
  obtain rfl | ⟨before, range, rfl⟩ := eq_nil_or_concat front
  · have none_ : ¬ Within back id := fun within =>
      Nat.not_succ_le_self id (within.behind later)
    simp only [length_nil, Nat.lt_irrefl, decide_false, Bool.false_and, Bool.false_eq_true,
      nil_append, none_]
  · rw [concat_eq_append, append_assoc] at ascending ⊢
    have start := starts range (by rw [concat_eq_append]; exact mem_append_right _ mem_cons_self)
    rw [singleton_append] at ascending
    rw [singleton_append, ascending.within_iff start later, length_append, length_singleton,
      Nat.add_sub_cancel, getElem?_append_right (Nat.le_refl _), Nat.sub_self, getElem?_cons_zero]
    simp only [Nat.zero_lt_succ, decide_true, Bool.true_and, Option.any_some, decide_eq_true_iff]

/-! ### The split -/

/-- Whether a cursor lies inside the first of the other ranges, and how far that is so. -/
def reach (cursor stop : ℕ) : List (ℕ × ℕ) → Bool × ℕ
  | (otherStart, otherStop) :: _ =>
      if otherStart ≤ cursor then (true, min otherStop stop) else (false, min otherStart stop)
  | [] => (false, stop)

/-- Adds a range, or lengthens the last range where that one stops at the cursor. -/
def push (ranges : List (ℕ × ℕ)) (cursor next : ℕ) : List (ℕ × ℕ) :=
  match ranges.getLast? with
  | some (start, lastStop) =>
      if lastStop = cursor then ranges.dropLast ++ [(start, next)] else ranges ++ [(cursor, next)]
  | none => ranges ++ [(cursor, next)]

/-- Splits one live range, from a cursor to where it stops.  Each round moves the cursor, so that no
more rounds are needed than the range holds ids.  The other ranges that the cursor has passed are
dropped, and what is left of them goes on to the next live range. -/
def splitRange (keep : Bool) (stop : ℕ) :
    ℕ → ℕ → List (ℕ × ℕ) → List (ℕ × ℕ) → List (ℕ × ℕ) × List (ℕ × ℕ)
  | 0, _, other, ranges => (other, ranges)
  | fuel + 1, cursor, other, ranges =>
      if cursor < stop then
        let other := other.dropWhile fun range => range.2 ≤ cursor
        let (inside, next) := reach cursor stop other
        splitRange keep stop fuel next other
          (if inside = keep then push ranges cursor next else ranges)
      else (other, ranges)

/-- Splits the live ranges one after the other. -/
def splitRanges (keep : Bool) :
    List (ℕ × ℕ) → List (ℕ × ℕ) → List (ℕ × ℕ) → List (ℕ × ℕ)
  | [], _, ranges => ranges
  | (start, stop) :: live, other, ranges =>
      let (other, ranges) := splitRange keep stop (stop - start) start other ranges
      splitRanges keep live other ranges


/-- Adding a range behind all others keeps the order and adds its ids. -/
theorem push_spec {next : ℕ} (ascending : Ascending ranges)
    (before : ∀ range ∈ ranges, range.2 ≤ cursor) (lt : cursor < next) :
  Ascending (push ranges cursor next) ∧ (∀ range ∈ push ranges cursor next, range.2 ≤ next) ∧
    ∀ id, Within (push ranges cursor next) id ↔
      Within ranges id ∨ (cursor ≤ id ∧ id < next)
  := by
  have single {start : ℕ} (lt : start < next) : Ascending [(start, next)] :=
    ascending_cons.mpr ⟨lt, fun _ mem => absurd mem not_mem_nil, ascending_nil⟩
  have added : Ascending (ranges ++ [(cursor, next)]) ∧
      (∀ range ∈ ranges ++ [(cursor, next)], range.2 ≤ next) ∧
      ∀ id, Within (ranges ++ [(cursor, next)]) id ↔
        Within ranges id ∨ (cursor ≤ id ∧ id < next) := by
    refine ⟨ascending_append.mpr ⟨ascending, single lt, ?_⟩, ?_, ?_⟩
    · intro range mem after mem'
      rw [mem_singleton.mp mem']
      exact before range mem
    · rw [forall_mem_append, forall_mem_singleton]
      refine ⟨?_, Nat.le_refl next⟩
      intro range mem
      exact Nat.le_of_lt (Nat.lt_of_le_of_lt (before range mem) lt)
    · intro id
      rw [within_append, within_singleton]
  obtain rfl | ⟨front, ⟨start, lastStop⟩, rfl⟩ := eq_nil_or_concat ranges
  · exact added
  · rw [concat_eq_append] at ascending before added ⊢
    rw [push, getLast?_concat, dropLast_concat]
    dsimp only
    split
    next touch =>
      subst touch
      obtain ⟨ascending, last, apart⟩ := ascending_append.mp ascending
      have lt' := last.1 _ mem_cons_self
      dsimp only at lt'
      rw [forall_mem_append, forall_mem_singleton] at before
      refine ⟨ascending_append.mpr ⟨ascending, single (by omega), ?_⟩, ?_, ?_⟩
      · intro range mem after mem'
        rw [mem_singleton.mp mem']
        exact apart range mem (start, lastStop) mem_cons_self
      · rw [forall_mem_append, forall_mem_singleton]
        refine ⟨?_, Nat.le_refl next⟩
        intro range mem
        have le := before.1 range mem
        omega
      · intro id
        rw [within_append, within_singleton, within_append, within_singleton, or_assoc]
        dsimp only
        have heq : (start ≤ id ∧ id < next) ↔
            (start ≤ id ∧ id < lastStop) ∨ lastStop ≤ id ∧ id < next := by omega
        rw [heq]
    next => exact added

theorem pushIf_spec (kept : Prop) [Decidable kept] {next : ℕ} (ascending : Ascending ranges)
    (before : ∀ range ∈ ranges, range.2 ≤ cursor) (lt : cursor < next) :
  Ascending (if kept then push ranges cursor next else ranges) ∧
    (∀ range ∈ if kept then push ranges cursor next else ranges, range.2 ≤ next) ∧
    ∀ id, Within (if kept then push ranges cursor next else ranges) id ↔
      Within ranges id ∨ (cursor ≤ id ∧ id < next ∧ kept)
  := by
  split
  next kept =>
    obtain ⟨ascending', before', within⟩ := push_spec ascending before lt
    refine ⟨ascending', before', ?_⟩
    intro id
    rw [within, iff_true_intro kept, and_true]
  next other =>
    refine ⟨ascending, fun range mem => Nat.le_trans (before range mem) lt.le, ?_⟩
    intro id
    rw [iff_false_intro other, and_false, and_false, or_false]

/-- One round moves the cursor, not past the stop. -/
theorem reach_moves {stop : ℕ} {other : List (ℕ × ℕ)}
    (ahead : ∀ range, other.head? = some range → cursor < range.2) (lt : cursor < stop) :
  cursor < (reach cursor stop other).2 ∧ (reach cursor stop other).2 ≤ stop
  := by
  cases other with
  | nil => exact ⟨lt, Nat.le_refl stop⟩
  | cons range other =>
    have ahead := ahead range rfl
    rw [reach]
    split
    next => exact ⟨Nat.lt_min.mpr ⟨ahead, lt⟩, Nat.min_le_right _ _⟩
    next later => exact ⟨Nat.lt_min.mpr ⟨Nat.lt_of_not_le later, lt⟩, Nat.min_le_right _ _⟩

/-- On the way of one round the other ranges hold either all ids or none of them. -/
theorem reach_inside {stop : ℕ} {other : List (ℕ × ℕ)} (sorted : Sorted other) {id : ℕ}
    (le : cursor ≤ id) (lt : id < (reach cursor stop other).2) :
  Within other id ↔ (reach cursor stop other).1 = true
  := by
  cases other with
  | nil => simp only [not_within_nil, reach, Bool.false_eq_true]
  | cons range other =>
    obtain ⟨_, later, _⟩ := sorted_cons.mp sorted
    have range_le := sorted.1 range mem_cons_self
    rw [reach] at lt ⊢
    split at lt
    next started =>
      rw [if_pos started, iff_true_right rfl, within_cons]
      exact Or.inl ⟨Nat.le_trans started le, Nat.lt_of_lt_of_le lt (Nat.min_le_left _ _)⟩
    next not_started =>
      have before := Nat.lt_of_lt_of_le lt (Nat.min_le_left _ _)
      rw [if_neg not_started, iff_false_right Bool.false_ne_true, within_cons]
      rintro (⟨le', _⟩ | within)
      · omega
      · have le' := within.behind later
        omega

/-- The split of one live range adds ranges in order.  Where the other ranges are sorted, it adds those of
its ids that they hold, or do not hold, and leaves them as good as they were for what comes behind. -/
theorem splitRange_spec (keep : Bool) (stop fuel : ℕ) (other : List (ℕ × ℕ))
    (ascending : Ascending ranges) (before : ∀ range ∈ ranges, range.2 ≤ cursor)
    (le : cursor ≤ stop) (enough : stop ≤ cursor + fuel) :
  Ascending (splitRange keep stop fuel cursor other ranges).2 ∧
    (∀ range ∈ (splitRange keep stop fuel cursor other ranges).2, range.2 ≤ stop) ∧
    (Sorted other →
      Sorted (splitRange keep stop fuel cursor other ranges).1 ∧
      (∀ id, stop ≤ id →
        (Within (splitRange keep stop fuel cursor other ranges).1 id ↔ Within other id)) ∧
      ∀ id, Within (splitRange keep stop fuel cursor other ranges).2 id ↔
        Within ranges id ∨ (cursor ≤ id ∧ id < stop ∧ (Within other id ↔ keep = true)))
  := by
  induction fuel generalizing cursor other ranges with
  | zero =>
    obtain rfl : cursor = stop := by omega
    refine ⟨ascending, before, fun sorted => ⟨sorted, fun _ _ => Iff.rfl, ?_⟩⟩
    intro id
    have none_ : ¬ (cursor ≤ id ∧ id < cursor ∧ (Within other id ↔ keep = true)) := by omega
    rw [or_iff_left none_]
    rfl
  | succ fuel ih =>
    rw [splitRange]
    split
    next lt =>
      dsimp only
      have suffix := dropWhile_suffix (l := other) fun range => decide (range.2 ≤ cursor)
      have same : ∀ {id}, cursor ≤ id → (Within (other.dropWhile fun range => range.2 ≤ cursor) id ↔
          Within other id) := within_dropWhile
      have ahead : ∀ range, (other.dropWhile fun range => range.2 ≤ cursor).head? = some range →
          cursor < range.2 := by
        intro range head
        have h := head?_dropWhile_not (fun range : ℕ × ℕ => decide (range.2 ≤ cursor)) other
        rw [head] at h
        dsimp only at h
        rw [decide_eq_false_iff_not] at h
        omega
      generalize other.dropWhile _ = rest at suffix same ahead
      obtain ⟨moved, bounded⟩ := reach_moves ahead lt
      have inside : Sorted rest → ∀ {id}, cursor ≤ id → id < (reach cursor stop rest).2 →
          (Within rest id ↔ (reach cursor stop rest).1 = true) :=
        fun sorted _ le lt => reach_inside sorted le lt
      generalize reach cursor stop rest = reached at moved bounded inside
      obtain ⟨side, next⟩ := reached
      dsimp only at moved bounded inside ⊢
      obtain ⟨ascending', before', within'⟩ := pushIf_spec (side = keep) ascending before moved
      obtain ⟨ascending'', before'', rest_⟩ := ih rest ascending' before' bounded (by omega)
      refine ⟨ascending'', before'', fun sorted => ?_⟩
      obtain ⟨sorted'', same'', within''⟩ := rest_ (sorted.suffix suffix)
      refine ⟨sorted'', ?_, ?_⟩
      · intro id le
        rw [same'' id le, same (by omega)]
      · intro id
        rw [within'', within', or_assoc]
        apply or_congr_right
        constructor
        · rintro (⟨le, lt', kept⟩ | ⟨le, lt', kept⟩)
          · refine ⟨le, by omega, ?_⟩
            rw [← same le, inside (sorted.suffix suffix) le lt', kept]
          · refine ⟨by omega, lt', ?_⟩
            rw [← same (by omega), kept]
        · rintro ⟨le, lt', kept⟩
          by_cases short : id < next
          · refine Or.inl ⟨le, short, ?_⟩
            rw [← same le, inside (sorted.suffix suffix) le short] at kept
            exact Bool.eq_iff_iff.mpr kept
          · refine Or.inr ⟨by omega, lt', ?_⟩
            rw [same le, kept]
    next done =>
      refine ⟨ascending, fun range mem => Nat.le_trans (before range mem) le,
        fun sorted => ⟨sorted, fun _ _ => Iff.rfl, ?_⟩⟩
      intro id
      have none_ : ¬ (cursor ≤ id ∧ id < stop ∧ (Within other id ↔ keep = true)) := by omega
      rw [or_iff_left none_]

theorem splitRanges_spec (keep : Bool) {live : List (ℕ × ℕ)} (other : List (ℕ × ℕ))
    (live_ : Ascending live) (ascending : Ascending ranges)
    (before : ∀ range ∈ ranges, ∀ after ∈ live, range.2 ≤ after.1) :
  Ascending (splitRanges keep live other ranges) ∧
    (Sorted other → ∀ id, Within (splitRanges keep live other ranges) id ↔
      Within ranges id ∨ (Within live id ∧ (Within other id ↔ keep = true)))
  := by
  induction live generalizing other ranges with
  | nil =>
    refine ⟨ascending, ?_⟩
    intro _ id
    rw [iff_false_intro not_within_nil, false_and, or_false]
    rfl
  | cons range live ih =>
    obtain ⟨start, stop⟩ := range
    obtain ⟨lt, later, live_⟩ := ascending_cons.mp live_
    dsimp only at lt later
    obtain ⟨ascending', before', rest⟩ := splitRange_spec keep stop (stop - start) other ascending
      (fun range mem => before range mem _ mem_cons_self) lt.le (by omega)
    rw [splitRanges]
    dsimp only
    obtain ⟨ascending'', rest'⟩ := ih (splitRange keep stop (stop - start) start other ranges).1
      live_ ascending' fun range mem after mem' => Nat.le_trans (before' range mem) (later after mem')
    refine ⟨ascending'', ?_⟩
    intro sorted id
    obtain ⟨sorted', same, within⟩ := rest sorted
    rw [rest' sorted', within, within_cons, or_assoc]
    apply or_congr_right
    rw [or_and_right, and_assoc]
    apply or_congr_right
    rw [and_congr_right_iff]
    intro mem
    rw [same id (mem.behind later)]

/-- The live ids that lie in the other ranges, or with `keep` false the ones that lie outside them. -/
def splitBy (live : LiveRanges) (within : List (ℕ × ℕ)) (keep : Bool) : LiveRanges where
  ranges := splitRanges keep live.ranges within []
  count := total (splitRanges keep live.ranges within [])
  ascending := (splitRanges_spec keep within live.ascending ascending_nil
    fun _ mem => absurd mem not_mem_nil).1
  counted := rfl

theorem covers_splitBy (live : LiveRanges) {within : List (ℕ × ℕ)} (sorted : Sorted within)
    (keep : Bool) (id : ℕ) :
  (live.splitBy within keep).covers id = true ↔
    live.covers id = true ∧ (Within within id ↔ keep = true)
  := by
  rw [covers_iff, covers_iff, splitBy]
  dsimp only
  rw [(splitRanges_spec keep within live.ascending ascending_nil
    fun _ mem => absurd mem not_mem_nil).2 sorted id, or_iff_right not_within_nil]

theorem covers_complement (reused : List (ℕ × ℕ)) (high id : ℕ) :
  (complement reused high).covers id = true ↔ id < high ∧ ¬ Within reused id
  := by
  rw [covers_iff, complement]
  dsimp only
  rw [within_gaps (sealed_starts reused), within_sealed, and_iff_right (Nat.zero_le id)]

end LiveRanges

end Vilan.Core
