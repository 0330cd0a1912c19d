import Vilan.Std.Rebuilds

/-!
# Values of wire types

Which values a type has depends on what a codec carries: the scalars, the lengths and the names
that cross exactly.
-/

namespace Vilan.Wire

open List

variable {F H : Type}

/-- What crosses exactly. -/
structure Carries (F : Type) where
  scalar : Scalar → Value F → Prop
  name : Str → Prop
  length : ℕ → Prop

/-- The entries that pairs of keys and values make. -/
def entriesOf (pairs : List (Value F × Value F)) : List (Value F) :=
  pairs.map fun pair => .struct [pair.1, pair.2]

theorem entriesOf_injective : Function.Injective (@entriesOf F) := by
  apply map_injective_iff.mpr
  intro pair other h
  simp only [Value.struct.injEq, List.cons.injEq, and_true] at h
  apply Prod.ext h.1 h.2

/-- The keys and the values of pairs, one after the other. -/
def pairValues : List (Value F × Value F) → List (Value F)
  | [] => []
  | pair :: pairs => pair.1 :: pair.2 :: pairValues pairs

/-- Values have types, each its own, and cross exactly. -/
inductive HasTypes (program : Program F H) (carries : Carries F) :
    List Ty → List (Value F) → Prop
  | nil : HasTypes program carries [] []
  | cons {type : Ty} {types : List Ty} {value : Value F} {values : List (Value F)} :
      HasTypes program carries [type] [value] → HasTypes program carries types values →
        HasTypes program carries (type :: types) (value :: values)
  | scalar {kind : Scalar} {value : Value F} (carried : carries.scalar kind value) :
      HasTypes program carries [.scalar kind] [value]
  | list {element : Ty} {items : List (Value F)} (carried : carries.length items.length) :
      HasTypes program carries (List.replicate items.length element) items →
        HasTypes program carries [.list element] [.list items]
  | absent {element : Ty} : HasTypes program carries [.option element] [.absent]
  | present {element : Ty} {value : Value F} :
      HasTypes program carries [element] [value] →
        HasTypes program carries [.option element] [.present value]
  | map {key value : Ty} {pairs : List (Value F × Value F)}
      (carried : carries.length pairs.length)
      (distinct : (pairs.map fun pair => program.hash pair.1).Nodup) :
      HasTypes program carries (pairTypes key value pairs.length) (pairValues pairs) →
        HasTypes program carries [.hashMap key value] [.map (entriesOf pairs)]
  | struct {id : ℕ} {fields : List (Str × Ty)} {values : List (Value F)}
      (decl : program.decl id = .struct fields) :
      HasTypes program carries (fields.map Prod.snd) values →
        HasTypes program carries [.named id] [.struct values]
  | variant {id : ℕ} {variants : List (Str × List Ty)} {fallback : Fallback F} {name : Str}
      {types : List Ty} {payloads : List (Value F)}
      (decl : program.decl id = .enum variants fallback)
      (known : variants.lookup name = some types) (carried : carries.name name) :
      HasTypes program carries types payloads →
        HasTypes program carries [.named id] [.variant name payloads]
  | backed {id : ℕ} {name first variant : Str} {backing : Scalar}
      {values : List (Str × Value F)} {value : Value F}
      (decl : program.decl id = .backed name backing first values)
      (known : (variant, value) ∈ values) (carried : carries.scalar backing value) :
      HasTypes program carries [.named id] [.variant variant []]

/-- An enum with backing values has distinct variants and distinct values, each an integer or a
text. -/
structure Program.WellFormed (program : Program F H) : Prop where
  names : ∀ id name backing first values, program.decl id = .backed name backing first values →
    (values.map Prod.fst).Nodup
  backings : ∀ id name backing first values, program.decl id = .backed name backing first values →
    values.Pairwise fun known other => known.2.isBacking other.2 = false
  kinds : ∀ id name backing first values, program.decl id = .backed name backing first values →
    ∀ known ∈ values, known.2.isBacking known.2 = true

/-- A variant that is backed has its own value. -/
theorem Program.WellFormed.lookup
    {program : Program F H} (wellFormed : program.WellFormed) {id : ℕ} {name first : Str}
    {backing : Scalar} {values : List (Str × Value F)}
    (decl : program.decl id = .backed name backing first values) {known : Str × Value F}
    (mem : known ∈ values) :
  values.lookup known.1 = some known.2
  := by
  have nodup := wellFormed.names _ _ _ _ _ decl
  clear decl
  induction values with
  | nil => simp only [not_mem_nil] at mem
  | cons other values ih =>
    obtain ⟨spelled, value⟩ := other
    simp only [map_cons, nodup_cons, List.mem_map, not_exists, not_and] at nodup
    rcases mem_cons.mp mem with rfl | mem
    · simp only [List.lookup_cons, beq_self_eq_true]
    · have ne : (known.1 == spelled) = false := by simpa using nodup.1 known mem
      simp only [List.lookup_cons, ne]
      apply ih mem nodup.2

theorem Value.isBacking_eq {value raw : Value F} (h : value.isBacking raw = true) : value = raw := by
  unfold Value.isBacking at h
  split at h
  · rw [of_decide_eq_true h]
  · rw [of_decide_eq_true h]
  · simp only [Bool.false_eq_true] at h

/-- A backing value is parsed as the variant it backs. -/
theorem Program.WellFormed.parse
    {program : Program F H} (wellFormed : program.WellFormed) {id : ℕ} {name first : Str}
    {backing : Scalar} {values : List (Str × Value F)}
    (decl : program.decl id = .backed name backing first values) {known : Str × Value F}
    (mem : known ∈ values) :
  (values.find? fun other => other.2.isBacking known.2) = some known
  := by
  have pairwise := wellFormed.backings _ _ _ _ _ decl
  have kinds := wellFormed.kinds _ _ _ _ _ decl
  clear decl
  induction values with
  | nil => simp only [not_mem_nil] at mem
  | cons other values ih =>
    obtain ⟨apart, pairwise⟩ := pairwise_cons.mp pairwise
    rcases mem_cons.mp mem with rfl | mem
    · simp only [List.find?, kinds known (mem_cons_self ..)]
    · simp only [List.find?, apart known mem]
      apply ih mem pairwise (fun k hk => kinds k (mem_cons_of_mem _ hk))

/-! ### Maps -/

section Entries

variable [DecidableEq H] (hash : Value F → H)

/-- Insert the pairs of a map into others, one after the other. -/
def insertPair : List (Value F × Value F) → Value F × Value F → List (Value F × Value F)
  | [], pair => [pair]
  | other :: pairs, pair =>
      if hash other.1 = hash pair.1 then pair :: pairs else other :: insertPair pairs pair

/-- Insert pairs into pairs, one after the other. -/
def insertAll (pairs others : List (Value F × Value F)) : List (Value F × Value F) :=
  others.foldl (insertPair hash) pairs

theorem insertEntry_entriesOf (pairs : List (Value F × Value F)) (pair : Value F × Value F) :
  insertEntry hash (entriesOf pairs) pair.1 pair.2 = entriesOf (insertPair hash pairs pair)
  := by
  induction pairs with
  | nil => rfl
  | cons other pairs ih =>
    simp only [entriesOf, map_cons, insertEntry, insertPair] at ih ⊢
    split
    · rfl
    · rw [ih]
      rfl

theorem length_insertPair_le (pairs : List (Value F × Value F)) (pair : Value F × Value F) :
  (insertPair hash pairs pair).length ≤ pairs.length + 1
  := by
  induction pairs with
  | nil => apply le_refl
  | cons other pairs ih =>
    rw [insertPair]
    split
    · simp
    · simpa using ih

theorem length_insertAll_le (pairs others : List (Value F × Value F)) :
  (insertAll hash pairs others).length ≤ pairs.length + others.length
  := by
  induction others generalizing pairs with
  | nil => apply le_refl
  | cons other others ih =>
    have le := ih (insertPair hash pairs other)
    have one := length_insertPair_le hash pairs other
    simp only [insertAll, foldl_cons, length_cons] at le ⊢
    omega

variable {pairs : List (Value F × Value F)}

/-- An insert that adds an entry has a new key, and the entry is the last. -/
theorem insertPair_of_length {pair : Value F × Value F}
    (h : (insertPair hash pairs pair).length = pairs.length + 1) :
  insertPair hash pairs pair = pairs ++ [pair] ∧
    ∀ other ∈ pairs, hash other.1 ≠ hash pair.1
  := by
  induction pairs with
  | nil => simp [insertPair]
  | cons other pairs ih =>
    rw [insertPair] at h ⊢
    split at h
    next => simp at h
    next ne =>
      rw [if_neg ne]
      obtain ⟨heq, distinct⟩ := ih (by simpa using h)
      constructor
      · rw [heq]
        rfl
      · intro o ho
        rcases mem_cons.mp ho with rfl | ho
        · apply ne
        · apply distinct o ho

theorem insertPair_of_new {pair : Value F × Value F}
    (h : ∀ other ∈ pairs, hash other.1 ≠ hash pair.1) :
  insertPair hash pairs pair = pairs ++ [pair]
  := by
  induction pairs with
  | nil => rfl
  | cons other pairs ih =>
    rw [insertPair, if_neg (h other (mem_cons_self ..)),
      ih (fun o ho => h o (mem_cons_of_mem _ ho))]
    rfl

/-- Pairs whose keys are new and distinct are inserted at the end, in their order. -/
theorem insertAll_of_distinct {others : List (Value F × Value F)}
    (h : ((pairs ++ others).map fun pair => hash pair.1).Nodup) :
  insertAll hash pairs others = pairs ++ others
  := by
  induction others generalizing pairs with
  | nil => rw [append_nil]; rfl
  | cons other others ih =>
    have new : ∀ o ∈ pairs, hash o.1 ≠ hash other.1 := by
      intro o ho
      rw [map_append, nodup_append] at h
      apply h.2.2 _ (List.mem_map_of_mem ho) _ (by simp)
    rw [insertAll, foldl_cons, insertPair_of_new hash new, ← insertAll, ih (by simpa using h),
      append_assoc, singleton_append]

/-- Pairs with distinct keys make a map of themselves. -/
theorem insertAll_nil (h : (pairs.map fun pair => hash pair.1).Nodup) :
  insertAll hash [] pairs = pairs
  := by
  rw [insertAll_of_distinct hash (by rw [nil_append]; apply h), nil_append]

/-- When each of the pairs added an entry, their keys are distinct. -/
theorem distinct_of_length {others : List (Value F × Value F)}
    (distinct : (pairs.map fun pair => hash pair.1).Nodup)
    (h : (insertAll hash pairs others).length = pairs.length + others.length) :
  ((pairs ++ others).map fun pair => hash pair.1).Nodup
  := by
  induction others generalizing pairs with
  | nil => simpa using distinct
  | cons other others ih =>
    have le := length_insertAll_le hash (insertPair hash pairs other) others
    have one := length_insertPair_le hash pairs other
    simp only [insertAll, foldl_cons, length_cons] at le h
    have added : (insertPair hash pairs other).length = pairs.length + 1 := by omega
    obtain ⟨heq, new⟩ := insertPair_of_length hash added
    rw [heq] at h
    have longer : ((pairs ++ [other]).map fun pair => hash pair.1).Nodup := by
      rw [map_append, nodup_append]
      use distinct, by simp
      intro a ha b hb
      obtain ⟨o, ho, rfl⟩ := List.mem_map.mp ha
      obtain rfl : b = hash other.1 := by simpa using hb
      apply new o ho
    have step := ih longer (by
      simp only [insertAll, h, length_append, length_singleton]
      omega)
    simpa using step

/-- When each of the pairs made an entry, their keys are distinct. -/
theorem distinct_of_made (h : (insertAll hash [] pairs).length = pairs.length) :
  (pairs.map fun pair => hash pair.1).Nodup
  := by
  have added : (insertAll hash [] pairs).length =
      ([] : List (Value F × Value F)).length + pairs.length := by
    rw [h, length_nil, Nat.zero_add]
  have nodup := distinct_of_length hash (by rw [map_nil]; apply nodup_nil) added
  rw [nil_append] at nodup
  apply nodup

end Entries

end Vilan.Wire
