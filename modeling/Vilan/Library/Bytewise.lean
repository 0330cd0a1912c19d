import Mathlib.Data.UInt
import Mathlib.Tactic.Ring

/-!
# Words as rows of bytes

A number as the row of its bytes, the least one first.  The bitwise operations act on each byte by
itself, and so does a sum whose bytes do not carry.
-/

namespace Bytewise

open List

variable {α : Type*}

/-- The number of a row of bytes. -/
def pack : List ℕ → ℕ
  | [] => 0
  | byte :: bytes => byte + 256 * pack bytes

/-- An operation on numbers that acts on the last byte and on the rest apart. -/
def Splits (op : ℕ → ℕ → ℕ) : Prop :=
  ∀ m n, op m n = op (m % 256) (n % 256) + 256 * op (m / 256) (n / 256)

theorem splits_xor : Splits (· ^^^ ·) := by
  intro m n
  change m ^^^ n = ((m % 2 ^ 8) ^^^ (n % 2 ^ 8)) + 2 ^ 8 * ((m / 2 ^ 8) ^^^ (n / 2 ^ 8))
  rw [← Nat.xor_mod_two_pow, ← Nat.xor_div_two_pow, Nat.mod_add_div]

theorem splits_and : Splits (· &&& ·) := by
  intro m n
  change m &&& n = ((m % 2 ^ 8) &&& (n % 2 ^ 8)) + 2 ^ 8 * ((m / 2 ^ 8) &&& (n / 2 ^ 8))
  rw [← Nat.and_mod_two_pow, ← Nat.and_div_two_pow, Nat.mod_add_div]

theorem splits_or : Splits (· ||| ·) := by
  intro m n
  change m ||| n = ((m % 2 ^ 8) ||| (n % 2 ^ 8)) + 2 ^ 8 * ((m / 2 ^ 8) ||| (n / 2 ^ 8))
  rw [← Nat.or_mod_two_pow, ← Nat.or_div_two_pow, Nat.mod_add_div]

/-- Such an operation acts byte by byte. -/
theorem Splits.pack_map {op : ℕ → ℕ → ℕ} (splits : Splits op) {f g : α → ℕ} {xs : List α}
    (f_lt : ∀ x ∈ xs, f x < 256) (g_lt : ∀ x ∈ xs, g x < 256) :
  op (pack (xs.map f)) (pack (xs.map g)) = pack (xs.map fun x => op (f x) (g x))
  := by
  induction xs with
  | nil =>
    have zero := splits 0 0
    simp only [Nat.zero_mod, Nat.zero_div] at zero
    simp only [map_nil, pack]
    omega
  | cons x xs ih =>
    have f_lt_x := f_lt x (mem_cons_self ..)
    have g_lt_x := g_lt x (mem_cons_self ..)
    rw [splits]
    simp only [map_cons, pack, ← ih (fun x mem => f_lt x (mem_cons_of_mem _ mem))
      (fun x mem => g_lt x (mem_cons_of_mem _ mem)), Nat.add_mul_mod_self_left, Nat.mod_eq_of_lt f_lt_x,
      Nat.mod_eq_of_lt g_lt_x, Nat.add_mul_div_left _ _ (show 0 < 256 by decide),
      Nat.div_eq_of_lt f_lt_x, Nat.div_eq_of_lt g_lt_x, Nat.zero_add]

theorem pack_map_add (f g : α → ℕ) (xs : List α) :
  pack (xs.map f) + pack (xs.map g) = pack (xs.map fun x => f x + g x)
  := by
  induction xs with
  | nil => rfl
  | cons x xs ih =>
    simp only [map_cons, pack, ← ih]
    omega

theorem pack_map_mul (k : ℕ) (f : α → ℕ) (xs : List α) :
  pack (xs.map fun x => k * f x) = k * pack (xs.map f)
  := by
  induction xs with
  | nil => rfl
  | cons x xs ih => simp only [map_cons, pack, ih, Nat.mul_add, Nat.mul_left_comm k 256]

theorem pack_map_lt {f : α → ℕ} {xs : List α} (f_lt : ∀ x ∈ xs, f x < 256) :
  pack (xs.map f) < 256 ^ xs.length
  := by
  induction xs with
  | nil => exact Nat.one_pos
  | cons x xs ih =>
    have f_lt_x := f_lt x (mem_cons_self ..)
    have rest := ih fun x mem => f_lt x (mem_cons_of_mem _ mem)
    simp only [map_cons, pack, length_cons, Nat.pow_succ]
    omega

/-- The complement of a word is that of each of its bytes. -/
theorem pack_map_not {f : α → ℕ} {xs : List α} (f_lt : ∀ x ∈ xs, f x < 256) :
  256 ^ xs.length - 1 - pack (xs.map f) = pack (xs.map fun x => 255 - f x)
  := by
  induction xs with
  | nil => rfl
  | cons x xs ih =>
    have f_lt_x := f_lt x (mem_cons_self ..)
    have f_lt' := fun x mem => f_lt x (mem_cons_of_mem _ mem)
    have bound := pack_map_lt f_lt'
    simp only [map_cons, pack, length_cons, Nat.pow_succ, ← ih f_lt']
    omega

/-- A product with a one in each byte has the sum of the bytes of a word in its top byte. -/
theorem pack_mul_ones {f : α → ℕ} {xs : List α} (length : xs.length = 8) (f_le : ∀ x ∈ xs, f x ≤ 1) :
  pack (xs.map f) * 0x0101010101010101 % 2 ^ 64 / 2 ^ 56 = (xs.map f).sum
  := by
  obtain ⟨x₀, x₁, x₂, x₃, x₄, x₅, x₆, x₇, rfl⟩ :
      ∃ x₀ x₁ x₂ x₃ x₄ x₅ x₆ x₇, xs = [x₀, x₁, x₂, x₃, x₄, x₅, x₆, x₇] := by
    match xs, length with
    | [x₀, x₁, x₂, x₃, x₄, x₅, x₆, x₇], _ => exact ⟨x₀, x₁, x₂, x₃, x₄, x₅, x₆, x₇, rfl⟩
  simp only [forall_mem_cons, not_mem_nil] at f_le
  obtain ⟨le₀, le₁, le₂, le₃, le₄, le₅, le₆, le₇, -⟩ := f_le
  simp only [map_cons, map_nil, pack, sum_cons, sum_nil]
  generalize f x₀ = a₀ at *
  generalize f x₁ = a₁ at *
  generalize f x₂ = a₂ at *
  generalize f x₃ = a₃ at *
  generalize f x₄ = a₄ at *
  generalize f x₅ = a₅ at *
  generalize f x₆ = a₆ at *
  generalize f x₇ = a₇ at *
  -- The bytes of the product are the sums from either end.
  obtain ⟨low, low_eq⟩ : ∃ low, low = a₀ + 256 * (a₀ + a₁ + 256 * (a₀ + a₁ + a₂ + 256 *
      (a₀ + a₁ + a₂ + a₃ + 256 * (a₀ + a₁ + a₂ + a₃ + a₄ + 256 *
      (a₀ + a₁ + a₂ + a₃ + a₄ + a₅ + 256 * (a₀ + a₁ + a₂ + a₃ + a₄ + a₅ + a₆)))))) := ⟨_, rfl⟩
  obtain ⟨high, high_eq⟩ : ∃ high, high = a₁ + a₂ + a₃ + a₄ + a₅ + a₆ + a₇ + 256 *
      (a₂ + a₃ + a₄ + a₅ + a₆ + a₇ + 256 * (a₃ + a₄ + a₅ + a₆ + a₇ + 256 *
      (a₄ + a₅ + a₆ + a₇ + 256 * (a₅ + a₆ + a₇ + 256 * (a₆ + a₇ + 256 * a₇))))) := ⟨_, rfl⟩
  obtain ⟨sum, sum_eq⟩ : ∃ sum, sum = a₀ + a₁ + a₂ + a₃ + a₄ + a₅ + a₆ + a₇ := ⟨_, rfl⟩
  have product : (a₀ + 256 * (a₁ + 256 * (a₂ + 256 * (a₃ + 256 * (a₄ + 256 * (a₅ + 256 *
      (a₆ + 256 * (a₇ + 256 * 0)))))))) * 0x0101010101010101 =
      low + 2 ^ 56 * sum + 2 ^ 64 * high := by
    rw [low_eq, high_eq, sum_eq]
    ring
  have low_lt : low < 2 ^ 56 := by omega
  have sum_le : sum ≤ 8 := by omega
  rw [product]
  clear product low_eq high_eq
  omega

/-! ### Words of eight bytes -/

/-- A word is the row of bytes that a function gives for a row of things. -/
structure Row (xs : List α) (word : UInt64) (f : α → ℕ) : Prop where
  length : xs.length = 8
  bytes : ∀ x ∈ xs, f x < 256
  packed : word.toNat = pack (xs.map f)

variable {xs : List α} {word word' : UInt64} {f g : α → ℕ}

section

variable (row : Row xs word f)
include row

theorem Row.xor (row' : Row xs word' g) :
  Row xs (word ^^^ word') fun x => f x ^^^ g x
  := by
  constructor
  · apply row.length
  · intro x mem
    apply Nat.xor_lt_two_pow (n := 8) (row.bytes x mem) (row'.bytes x mem)
  · rw [UInt64.toNat_xor, row.packed, row'.packed]
    apply splits_xor.pack_map row.bytes row'.bytes

theorem Row.and (row' : Row xs word' g) :
  Row xs (word &&& word') fun x => f x &&& g x
  := by
  constructor
  · apply row.length
  · intro x mem
    apply Nat.and_lt_two_pow (n := 8) _ (row'.bytes x mem)
  · rw [UInt64.toNat_and, row.packed, row'.packed]
    apply splits_and.pack_map row.bytes row'.bytes

theorem Row.or (row' : Row xs word' g) :
  Row xs (word ||| word') fun x => f x ||| g x
  := by
  constructor
  · apply row.length
  · intro x mem
    apply Nat.or_lt_two_pow (n := 8) (row.bytes x mem) (row'.bytes x mem)
  · rw [UInt64.toNat_or, row.packed, row'.packed]
    apply splits_or.pack_map row.bytes row'.bytes

/-- A sum whose bytes do not carry. -/
theorem Row.add (row' : Row xs word' g) (lt : ∀ x ∈ xs, f x + g x < 256) :
  Row xs (word + word') fun x => f x + g x
  := by
  constructor
  · apply row.length
  · apply lt
  · have bound := pack_map_lt lt
    rw [row.length] at bound
    rw [UInt64.toNat_add, row.packed, row'.packed, pack_map_add]
    apply Nat.mod_eq_of_lt bound

theorem Row.not : Row xs (~~~word) fun x => 255 - f x := by
  constructor
  · apply row.length
  · intro x mem
    omega
  · have packed := pack_map_not row.bytes
    rw [row.length] at packed
    rw [UInt64.toNat_not, row.packed, ← packed]
    rfl

end

/-- The same byte in each place. -/
theorem Row.const (length : xs.length = 8) {byte : ℕ} (lt : byte < 256)
    (packed : word.toNat = byte * 0x0101010101010101) :
  Row xs word fun _ => byte
  := by
  constructor
  · apply length
  · intro x mem
    apply lt
  · rw [packed, map_const', length]
    simp only [List.replicate, pack]
    omega

/-- The bits at one place of each byte, summed by a product. -/
theorem Row.sum_bits {bit : ℕ} (shift : UInt64) (row : Row xs word fun x => 2 ^ bit * f x)
    (shift_eq : shift.toNat % 64 = bit) (le : ∀ x ∈ xs, f x ≤ 1) :
  (((word >>> shift) * 0x0101010101010101) >>> 56).toNat = (xs.map f).sum
  := by
  have shifted : (word >>> shift).toNat = pack (xs.map f) := by
    rw [UInt64.toNat_shiftRight, shift_eq, Nat.shiftRight_eq_div_pow, row.packed, pack_map_mul,
      Nat.mul_div_cancel_left _ (Nat.two_pow_pos bit)]
  have sum := pack_mul_ones row.length le
  rw [UInt64.toNat_shiftRight, UInt64.toNat_mul, shifted, Nat.shiftRight_eq_div_pow]
  apply sum

end Bytewise
