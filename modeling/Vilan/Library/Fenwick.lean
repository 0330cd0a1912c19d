import Vilan.Library.Splice
import Mathlib.Data.Int.Bitwise

/-!
# Fenwick trees

A Fenwick tree over a list of weights keeps, at every node `i ≥ 1`, the sum of the
`lowbit i` weights that end at the `i`-th.  The sum of a prefix is read by walking from a
node to the node before its range, and a weight is changed by walking from its node to
the node of the next larger range that covers it.

The tree is the list of its nodes, one-based: the entry at index `0` is never read.
The weights are taken in an arbitrary commutative group, so that a node is the
difference of two prefix sums.
-/

namespace Fenwick

open List Option

/-! ### The lowest set bit -/

/-- The lowest set bit of `n`, as the two's complement idiom `n & (0 - n)`. -/
def lowbit (n : ℕ) : ℕ :=
  (Int.land (n : ℤ) (0 - (n : ℤ))).toNat

theorem lowbit_succ (n : ℕ) :
  lowbit (n + 1) = Nat.ldiff (n + 1) n
  := by
  have h : (0 : ℤ) - ((n + 1 : ℕ) : ℤ) = Int.negSucc n := by
    rw [Int.negSucc_eq]
    push_cast
    ring
  rw [lowbit, h]
  rfl

@[simp]
theorem lowbit_two_mul_add_one (n : ℕ) :
  lowbit (2 * n + 1) = 1
  := by
  have h := Nat.ldiff_bit true n false n
  simp only [Nat.bit_true, Nat.bit_false, Bool.not_false, Bool.and_self] at h
  rw [lowbit_succ, h]
  have hn : Nat.ldiff n n = 0 := by
    apply Nat.eq_of_testBit_eq
    intro i
    simp [Nat.testBit_ldiff]
  rw [hn]

@[simp]
theorem lowbit_two_mul (n : ℕ) :
  lowbit (2 * n) = 2 * lowbit n
  := by
  cases n with
  | zero => rfl
  | succ n =>
    have h := Nat.ldiff_bit false (n + 1) true n
    simp only [Nat.bit_true, Nat.bit_false, Bool.not_true, Bool.and_false] at h
    rw [show 2 * (n + 1) = 2 * n + 1 + 1 by ring, lowbit_succ, lowbit_succ,
      show 2 * n + 1 + 1 = 2 * (n + 1) by ring, h]

variable {n m i p : ℕ}

theorem lowbit_pos (h : 0 < n) :
  0 < lowbit n
  := by
  induction n using Nat.strong_induction_on with
  | _ n ih =>
    obtain ⟨m, rfl | rfl⟩ := Nat.even_or_odd' n
    · rw [lowbit_two_mul]
      have := ih m (by omega) (by omega)
      omega
    · simp

theorem lowbit_le (n : ℕ) :
  lowbit n ≤ n
  := by
  induction n using Nat.strong_induction_on with
  | _ n ih =>
    obtain ⟨m, rfl | rfl⟩ := Nat.even_or_odd' n
    · rw [lowbit_two_mul]
      rcases Nat.eq_zero_or_pos m with rfl | hm
      · apply le_refl
      · have := ih m (by omega)
        omega
    · simp

/-- A range that covers an earlier node covers the whole range of the next node of that
node: no node between the two does. -/
theorem add_lowbit_le {c : ℕ} (hc : 0 < c) (hcm : c < m) (h : m - lowbit m < c) :
  c + lowbit c ≤ m
  := by
  induction m using Nat.strong_induction_on generalizing c with
  | _ m ih =>
    obtain ⟨a, rfl | rfl⟩ := Nat.even_or_odd' m
    · obtain ⟨b, rfl | rfl⟩ := Nat.even_or_odd' c
      · rw [lowbit_two_mul] at h ⊢
        have := ih a (by omega) (c := b) (by omega) (by omega) (by omega)
        omega
      · rw [lowbit_two_mul_add_one]
        omega
    · rw [lowbit_two_mul_add_one] at h
      omega

/-- Ranges are nested: the range of a node that covers `c` begins no later than the range
of `c`. -/
theorem sub_lowbit_le {c : ℕ} (hc : 0 < c) (hcm : c < m) (h : m - lowbit m < c) :
  m - lowbit m ≤ c - lowbit c
  := by
  induction m using Nat.strong_induction_on generalizing c with
  | _ m ih =>
    obtain ⟨a, rfl | rfl⟩ := Nat.even_or_odd' m
    · obtain ⟨b, rfl | rfl⟩ := Nat.even_or_odd' c
      · rw [lowbit_two_mul] at h ⊢
        have := ih a (by omega) (c := b) (by omega) (by omega) (by omega)
        rw [lowbit_two_mul]
        omega
      · rw [lowbit_two_mul] at h ⊢
        rw [lowbit_two_mul_add_one]
        omega
    · rw [lowbit_two_mul_add_one] at h
      omega

/-- The range of the next node begins no later than the range of the node. -/
theorem sub_lowbit_add_lowbit_le (hm : 0 < m) :
  m + lowbit m - lowbit (m + lowbit m) ≤ m - lowbit m
  := by
  induction m using Nat.strong_induction_on with
  | _ m ih =>
    obtain ⟨a, rfl | rfl⟩ := Nat.even_or_odd' m
    · rw [lowbit_two_mul, ← mul_add, lowbit_two_mul]
      have := ih a (by omega) (by omega)
      omega
    · rw [lowbit_two_mul_add_one, show 2 * a + 1 + 1 = 2 * (a + 1) by ring, lowbit_two_mul]
      have := lowbit_pos (n := a + 1) (by omega)
      omega

/-- The node before a node's range is the first of the next node's range, or has the same
next node. -/
theorem sub_lowbit_sibling (hm : 0 < m) :
  m - lowbit m = m + lowbit m - lowbit (m + lowbit m)
    ∨ 0 < m - lowbit m ∧ m - lowbit m + lowbit (m - lowbit m) = m + lowbit m
  := by
  induction m using Nat.strong_induction_on with
  | _ m ih =>
    obtain ⟨a, rfl | rfl⟩ := Nat.even_or_odd' m
    · rw [lowbit_two_mul, ← mul_add, lowbit_two_mul, ← Nat.mul_sub, lowbit_two_mul]
      rcases ih a (by omega) (by omega) with h | h
      · left
        omega
      · right
        omega
    · rw [lowbit_two_mul_add_one, show 2 * a + 1 + 1 = 2 * (a + 1) by ring, lowbit_two_mul,
        Nat.add_sub_cancel, lowbit_two_mul]
      obtain ⟨b, rfl | rfl⟩ := Nat.even_or_odd' a
      · left
        rw [lowbit_two_mul_add_one]
        omega
      · right
        rw [lowbit_two_mul_add_one]
        omega

/-! ### Trees and what they represent -/

variable {A : Type*} [AddCommGroup A]

/-- The sum of the first `n` weights. -/
def prefixSum (weights : List A) (n : ℕ) : A :=
  (weights.take n).sum

/-- `tree` is the Fenwick tree of `weights`: the node `i` holds the sum of the `lowbit i`
weights ending at the `i`-th. -/
structure Represents (tree weights : List A) : Prop where
  length_eq : tree.length = weights.length + 1
  node : ∀ i, 0 < i → i ≤ weights.length →
    tree[i]? = some (prefixSum weights i - prefixSum weights (i - lowbit i))

/-- The walk that reads a prefix: from the node `i` down, each node is added to `total`.
`none` when the walk leaves the tree. -/
def prefixFrom (tree : List A) (i : ℕ) (total : A) : Option A :=
  if _h : 0 < i then
    match tree[i]? with
    | some node => prefixFrom tree (i - lowbit i) (total + node)
    | none => none
  else some total
termination_by i
decreasing_by
  have := lowbit_pos _h
  omega

/-- The walk that adds `delta` to a weight: from the node `i` up, to the end of the
tree. -/
def addFrom (tree : List A) (i : ℕ) (delta : A) : List A :=
  if _h : 0 < i ∧ i ≤ tree.length - 1 then
    addFrom (tree.modify i (· + delta)) (i + lowbit i) delta
  else tree
termination_by tree.length - i
decreasing_by
  have := lowbit_pos _h.1
  simp only [length_modify]
  omega

/-- The pass that completes a tree whose nodes hold their own weights: each node, from
`i` on, is added into its next node. -/
def buildFrom (tree : List A) (i : ℕ) : List A :=
  if 0 < i ∧ i ≤ tree.length - 1 then
    let next := i + lowbit i
    buildFrom (if next ≤ tree.length - 1 then
      tree.modify next (· + tree.getD i 0) else tree) (i + 1)
  else tree
termination_by tree.length - i
decreasing_by
  split
  · simp only [length_modify]
    omega
  · omega

/-! ### Reading a prefix -/

@[simp]
theorem prefixSum_zero (weights : List A) :
  prefixSum weights 0 = 0
  := by
  simp [prefixSum]

variable {weights tree : List A}

theorem prefixSum_succ (h : n < weights.length) :
  prefixSum weights (n + 1) = prefixSum weights n + weights[n]
  := by
  rw [prefixSum, prefixSum, take_succ_eq_append_getElem h, sum_append, sum_singleton]

/-- The walk reads the prefix of the weights that ends at its node. -/
theorem Represents.prefixFrom_eq (h : Represents tree weights) (hi : i ≤ weights.length)
    (total : A) :
  prefixFrom tree i total = some (total + prefixSum weights i)
  := by
  induction i using Nat.strong_induction_on generalizing total with
  | _ i ih =>
    rw [prefixFrom]
    split
    case isTrue hpos =>
      have hbit := lowbit_pos hpos
      rw [h.node i hpos hi]
      simp only
      rw [ih (i - lowbit i) (by omega) (by omega)]
      congr 1
      abel
    case isFalse hzero =>
      obtain rfl : i = 0 := by omega
      simp

/-! ### Changing a weight -/

theorem length_addFrom (tree : List A) (i : ℕ) (delta : A) :
  (addFrom tree i delta).length = tree.length
  := by
  fun_induction addFrom tree i delta with
  | case1 tree i h ih => rw [ih, length_modify]
  | case2 => rfl

/-- The walk from the node `i` up changes the nodes whose ranges cover `i`, and no
others. -/
theorem getElem?_addFrom (hi : 0 < i) (delta : A) (j : ℕ) :
  (addFrom tree i delta)[j]?
    = tree[j]?.map (fun node => if j - lowbit j < i ∧ i ≤ j then node + delta else node)
  := by
  fun_induction addFrom tree i delta with
  | case1 tree i h ih =>
    have hbit := lowbit_pos hi
    rw [ih (by omega), getElem?_modify, Option.map_eq_map, Option.map_map]
    congr 1
    funext node
    by_cases hij : i = j
    · subst hij
      have : ¬ i + lowbit i ≤ i := by omega
      simp [this, hbit, hi]
    · have hiff : (j - lowbit j < i + lowbit i ∧ i + lowbit i ≤ j)
          ↔ (j - lowbit j < i ∧ i ≤ j) := by
        constructor
        · rintro ⟨hlt, hle⟩
          have hnext := sub_lowbit_add_lowbit_le hi
          rcases Nat.lt_or_eq_of_le hle with hlt' | rfl
          · have := sub_lowbit_le (by omega) hlt' hlt
            omega
          · omega
        · rintro ⟨hlt, hle⟩
          have := add_lowbit_le hi (by omega) hlt
          omega
      simp [hij, hiff]
  | case2 tree i h =>
    by_cases hj : j < tree.length
    · have : ¬ i ≤ j := by omega
      simp [this]
    · simp [getElem?_eq_none (Nat.le_of_not_lt hj)]

theorem prefixSum_modify (hp : p < weights.length) (delta : A) (n : ℕ) :
  prefixSum (weights.modify p (· + delta)) n
    = prefixSum weights n + (if p < n then delta else 0)
  := by
  rw [prefixSum, prefixSum, take_modify]
  split
  case isTrue hpn =>
    have hlen : p < (weights.take n).length := by
      rw [length_take]
      omega
    rw [modify_eq_take_cons_drop hlen]
    conv_rhs => rw [← take_append_drop p (weights.take n),
      drop_eq_getElem_cons hlen]
    simp only [sum_append, sum_cons]
    abel
  case isFalse hpn =>
    rw [modify_eq_self, add_zero]
    rw [length_take]
    omega

/-- The walk from the node of the weight at `p` changes that weight. -/
theorem Represents.addFrom (h : Represents tree weights) (hp : p < weights.length) (delta : A) :
  Represents (addFrom tree (p + 1) delta) (weights.modify p (· + delta))
  := by
  constructor
  · rw [length_addFrom, h.length_eq, length_modify]
  · intro i hi hle
    rw [length_modify] at hle
    rw [getElem?_addFrom (by omega), h.node i hi hle, map_some,
      prefixSum_modify hp, prefixSum_modify hp]
    have hbit := lowbit_pos hi
    congr 1
    by_cases hlt : p < i
    · by_cases hlt' : p < i - lowbit i
      · have : ¬ i - lowbit i < p + 1 := by omega
        simp [hlt, hlt', this]
      · have : i - lowbit i < p + 1 := by omega
        have : p + 1 ≤ i := by omega
        simp only [if_true, if_false, *, and_self]
        abel
    · have : ¬ p < i - lowbit i := by omega
      have : ¬ p + 1 ≤ i := by omega
      simp [*]

/-! ### Building a tree -/

/-- The tree of `weights` half built: the nodes before `i` have been added into their next
nodes.  The part of its range that a node `j` has received ends at `e`, which is the last
of the nodes before `i` whose next node is `j`, or the start of the range when there is
none. -/
structure Building (tree weights : List A) (i : ℕ) : Prop where
  length_eq : tree.length = weights.length + 1
  node : ∀ j, 0 < j → j ≤ weights.length → ∃ e,
    (e = j - lowbit j ∨ 0 < e ∧ e < i ∧ e + lowbit e = j)
      ∧ (∀ c, 0 < c → c < i → c + lowbit c = j → c ≤ e)
      ∧ tree[j]? = some (prefixSum weights j - prefixSum weights (j - 1)
          + (prefixSum weights e - prefixSum weights (j - lowbit j)))

theorem pred_add_lowbit {j : ℕ} (hj : 1 < lowbit j) :
  j - 1 + lowbit (j - 1) = j
  := by
  obtain ⟨a, rfl | rfl⟩ := Nat.even_or_odd' j
  · have ha : 0 < a := by
      have := lowbit_le (2 * a)
      omega
    rw [show 2 * a - 1 = 2 * (a - 1) + 1 by omega, lowbit_two_mul_add_one]
    omega
  · simp at hj

/-- A node is complete once all the nodes before it have been added into their next
nodes. -/
theorem Building.node_eq (h : Building tree weights i) {j : ℕ} (hj : 0 < j) (hji : j ≤ i)
    (hle : j ≤ weights.length) :
  tree[j]? = some (prefixSum weights j - prefixSum weights (j - lowbit j))
  := by
  obtain ⟨e, he, hmax, hnode⟩ := h.node j hj hle
  have hbit := lowbit_pos hj
  have hlast : e = j - 1 := by
    by_cases hone : lowbit j = 1
    · rcases he with he | ⟨hpos, -, hnext⟩
      · omega
      · have := lowbit_pos hpos
        have := sub_lowbit_add_lowbit_le hpos
        rw [hnext] at this
        omega
    · have hpred := pred_add_lowbit (j := j) (by omega)
      have := hmax (j - 1) (by have := lowbit_le j; omega) (by omega) hpred
      rcases he with he | ⟨hpos, -, hnext⟩
      · omega
      · have := lowbit_pos hpos
        omega
  rw [hnode, hlast]
  congr 1
  abel

/-- What the next node of `i` has received before `i` is added into it ends where the range
of `i` begins. -/
theorem last_received {e : ℕ} (hi : 0 < i) (he : e = i + lowbit i - lowbit (i + lowbit i)
      ∨ 0 < e ∧ e < i ∧ e + lowbit e = i + lowbit i)
    (hmax : ∀ c, 0 < c → c < i → c + lowbit c = i + lowbit i → c ≤ e) :
  e = i - lowbit i
  := by
  have hbit := lowbit_pos hi
  have hnone : ∀ c, 0 < c → c < i → c + lowbit c = i + lowbit i → c ≤ i - lowbit i := by
    intro c hc hci hnext
    by_contra hlt
    have := add_lowbit_le hc hci (by omega)
    omega
  have hstart := sub_lowbit_add_lowbit_le hi
  rcases sub_lowbit_sibling hi with h | ⟨hpos, h⟩
  · rcases he with rfl | ⟨hpos, hlt, hnext⟩
    · omega
    · have := hnone e hpos hlt hnext
      have := lowbit_pos hpos
      have := sub_lowbit_add_lowbit_le hpos
      rw [hnext] at this
      omega
  · have hle := hmax _ hpos (by omega) h
    rcases he with rfl | ⟨hpos', hlt, hnext⟩
    · omega
    · have := hnone e hpos' hlt hnext
      omega

theorem Building.step (h : Building tree weights i) (hi : 0 < i) (hle : i ≤ tree.length - 1) :
  Building (if i + lowbit i ≤ tree.length - 1 then
      tree.modify (i + lowbit i) (· + tree.getD i 0) else tree) weights (i + 1)
  := by
  have hbit := lowbit_pos hi
  have hlen := h.length_eq
  have hfull := h.node_eq hi le_rfl (by omega)
  have hget : tree.getD i 0 = prefixSum weights i - prefixSum weights (i - lowbit i) := by
    rw [getD_eq_getElem?_getD, hfull, getD_some]
  constructor
  · split
    · rw [length_modify, hlen]
    · apply hlen
  · intro j hj hjle
    obtain ⟨e, he, hmax, hnode⟩ := h.node j hj hjle
    by_cases hnext : i + lowbit i = j
    · subst hnext
      obtain rfl := last_received hi he hmax
      refine ⟨i, .inr ⟨hi, by omega, rfl⟩, fun c _ _ _ => by omega, ?_⟩
      rw [if_pos (by omega), getElem?_modify_eq, hnode, hget, Option.map_eq_map, map_some]
      congr 1
      abel
    · refine ⟨e, ?_, ?_, ?_⟩
      · rcases he with he | ⟨hpos, hlt, he⟩
        · left
          apply he
        · right
          exact ⟨hpos, by omega, he⟩
      · intro c hc hci hcj
        rcases Nat.lt_succ_iff_lt_or_eq.mp hci with hlt | rfl
        · apply hmax c hc hlt hcj
        · contradiction
      · split
        · rw [getElem?_modify_ne _ _ hnext, hnode]
        · apply hnode

theorem Building.buildFrom (h : Building tree weights i) (hi : 0 < i) :
  Represents (buildFrom tree i) weights
  := by
  fun_induction Fenwick.buildFrom tree i with
  | case1 tree i hin next ih =>
    apply ih _ (by omega)
    apply h.step hi hin.2
  | case2 tree i hout =>
    have hlen := h.length_eq
    refine ⟨hlen, ?_⟩
    intro j hj hle
    apply h.node_eq hj (by omega) hle

/-- The pass over nodes that hold their own weights builds the tree of the weights. -/
theorem represents_buildFrom (root : A) (weights : List A) :
  Represents (buildFrom (root :: weights) 1) weights
  := by
  apply Building.buildFrom _ Nat.one_pos
  refine ⟨by simp, ?_⟩
  intro j hj hle
  refine ⟨j - lowbit j, .inl rfl, fun c _ _ _ => by omega, ?_⟩
  obtain ⟨k, rfl⟩ : ∃ k, j = k + 1 := ⟨j - 1, by omega⟩
  rw [getElem?_cons_succ, getElem?_eq_getElem (by omega), Nat.add_sub_cancel,
    prefixSum_succ (by omega)]
  congr 1
  abel

/-! ### Appending a weight -/

theorem prefixSum_append_left (h : n ≤ weights.length) (rest : List A) :
  prefixSum (weights ++ rest) n = prefixSum weights n
  := by
  rw [prefixSum, prefixSum, take_append_of_le_length h]

/-- A tree grows by one node: the sum of the new node's range is the new weight and a
difference of two prefixes that are already there. -/
theorem Represents.append (h : Represents tree weights) (weight : A) :
  Represents (tree ++ [weight + prefixSum weights weights.length
      - prefixSum weights (weights.length + 1 - lowbit (weights.length + 1))])
    (weights ++ [weight])
  := by
  have hlen := h.length_eq
  constructor
  · simp [hlen]
  · intro i hi hle
    have hbit := lowbit_pos hi
    rw [length_append, length_singleton] at hle
    rcases Nat.lt_or_eq_of_le hle with hold | rfl
    · replace hold := Nat.le_of_lt_succ hold
      rw [getElem?_append_left (by omega), h.node i hi hold,
        prefixSum_append_left hold, prefixSum_append_left (by omega)]
    · rw [getElem?_append_right (by omega), hlen, Nat.sub_self,
        getElem?_cons_zero, prefixSum_append_left (n := weights.length + 1 - _) (by omega),
        prefixSum_succ (by simp), prefixSum_append_left le_rfl, getElem_concat_length rfl]
      congr 1
      abel

/-! ### Counting what is selected -/

/-- What a flag weighs. -/
def weight (flag : Bool) : ℤ :=
  if flag then 1 else 0

/-- The weights of the flags of a list count the selected elements. -/
theorem prefixSum_weight {α β : Type*} (f : α → Option β) (list : List α) (pos : ℕ) :
  prefixSum ((list.map (fun value => (f value).isSome)).map weight) pos
    = (Splice.rank f list pos : ℤ)
  := by
  rw [prefixSum, Splice.rank, ← map_take, ← map_take]
  induction list.take pos with
  | nil => rfl
  | cons value rest ih =>
    rw [map_cons, map_cons, sum_cons, ih]
    cases h : f value with
    | none =>
      rw [filterMap_cons_none h]
      simp [weight]
    | some selected =>
      rw [filterMap_cons_some h]
      simp [weight, add_comm]

/-- The tree of the flags of a list answers the number of elements selected before a
position. -/
theorem Represents.prefixFrom_rank {α β : Type*} {f : α → Option β} {list : List α}
    {tree : List ℤ}
    (h : Represents tree ((list.map (fun value => (f value).isSome)).map weight)) {pos : ℕ}
    (hpos : pos ≤ list.length) :
  prefixFrom tree pos 0 = some (Splice.rank f list pos : ℤ)
  := by
  rw [h.prefixFrom_eq (by rwa [length_map, length_map]), zero_add, prefixSum_weight]

/-- The walk that changes a weight to another. -/
theorem Represents.addFrom_set {tree weights : List ℤ} (h : Represents tree weights) {old : ℤ}
    (hold : weights[p]? = some old) (new : ℤ) :
  Represents (Fenwick.addFrom tree (p + 1) (new - old)) (weights.set p new)
  := by
  have hadd := h.addFrom (List.getElem?_eq_some_iff.mp hold).1 (new - old)
  rwa [modify_eq_set, hold, getD_some, add_sub_cancel] at hadd

end Fenwick
