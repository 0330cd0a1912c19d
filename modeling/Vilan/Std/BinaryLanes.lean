import Vilan.Std.BinaryWrite
import Mathlib.Tactic.Ring

/-!
# The lanes of a frame

A scalar crosses in one of four lanes: a flag, a word, a double or a text.  The bytes of a lane
are read as a value of the scalar's type, and a lane is exact when that value is written as those
bytes.
-/

namespace Vilan.Wire

open List

variable {F H : Type}

/-! ### Words and doubles -/

theorem joined_eq (b₀ b₁ b₂ b₃ : UInt8) :
  joined b₀ b₁ b₂ b₃ = b₀.toNat + 256 * b₁.toNat + 65536 * b₂.toNat + 16777216 * b₃.toNat
  := by
  have h₀ := b₀.toNat_lt
  have h₁ := b₁.toNat_lt
  have h₂ := b₂.toNat_lt
  have low : b₀.toNat ||| b₁.toNat <<< 8 = b₀.toNat + 256 * b₁.toNat := by
    rw [Nat.or_comm, ← Nat.shiftLeft_add_eq_or_of_lt (by omega), Nat.shiftLeft_eq]
    omega
  have mid : (b₀.toNat + 256 * b₁.toNat) ||| b₂.toNat <<< 16 =
      b₀.toNat + 256 * b₁.toNat + 65536 * b₂.toNat := by
    rw [Nat.or_comm, ← Nat.shiftLeft_add_eq_or_of_lt (by omega), Nat.shiftLeft_eq]
    omega
  rw [joined, low, mid, Nat.or_comm, ← Nat.shiftLeft_add_eq_or_of_lt (by omega), Nat.shiftLeft_eq]
  omega

theorem joined_lt (b₀ b₁ b₂ b₃ : UInt8) : joined b₀ b₁ b₂ b₃ < 4294967296 := by
  have h₀ := b₀.toNat_lt
  have h₁ := b₁.toNat_lt
  have h₂ := b₂.toNat_lt
  have h₃ := b₃.toNat_lt
  rw [joined_eq]
  omega

theorem toNat_byte (value : ℤ) : ((byte value).toNat : ℤ) = value % 256 := by
  have h : (value % 256).toNat < 256 := by omega
  simp only [byte, Nat.toUInt8_eq, UInt8.toNat_ofNat', Nat.mod_eq_of_lt h]
  omega

/-- The bytes of an integer, joined, are the integer modulo the size of a word. -/
theorem joined_word (value : ℤ) :
  (joined (byte value) (byte (value >>> (8 : ℕ))) (byte (value >>> (16 : ℕ))) (byte (value >>> (24 : ℕ))) : ℤ) =
    value % 4294967296
  := by
  have h₀ := toNat_byte value
  have h₁ := toNat_byte (value >>> (8 : ℕ))
  have h₂ := toNat_byte (value >>> (16 : ℕ))
  have h₃ := toNat_byte (value >>> (24 : ℕ))
  simp only [Int.shiftRight_eq_div_pow, Nat.reducePow, Nat.cast_ofNat] at h₁ h₂ h₃ ⊢
  rw [joined_eq]
  push_cast
  omega

theorem byte_eq {value : ℤ} {b : UInt8} (h : value % 256 = b.toNat) : byte value = b := by
  apply UInt8.toNat_inj.mp
  have := toNat_byte value
  omega

/-- An integer that is joined bytes, modulo the size of a word, is written as those bytes. -/
theorem word_eq {value : ℤ} {b₀ b₁ b₂ b₃ : UInt8}
    (h : value % 4294967296 = joined b₀ b₁ b₂ b₃) :
  word value = [b₀, b₁, b₂, b₃]
  := by
  have h₀ := b₀.toNat_lt
  have h₁ := b₁.toNat_lt
  have h₂ := b₂.toNat_lt
  have h₃ := b₃.toNat_lt
  rw [joined_eq] at h
  push_cast at h
  simp only [word, Int.shiftRight_eq_div_pow, Nat.reducePow, Nat.cast_ofNat]
  rw [byte_eq (b := b₀), byte_eq (b := b₁), byte_eq (b := b₂), byte_eq (b := b₃)]
  all_goals omega

theorem word_eq_iff {value : ℤ} {b₀ b₁ b₂ b₃ : UInt8} :
  word value = [b₀, b₁, b₂, b₃] ↔ value % 4294967296 = joined b₀ b₁ b₂ b₃
  := by
  constructor
  · intro h
    simp only [word, List.cons.injEq, and_true] at h
    rw [← joined_word, h.1, h.2.1, h.2.2.1, h.2.2.2]
  · apply word_eq

theorem asI32_emod (value : ℤ) : asI32 value % 4294967296 = value % 4294967296 := by
  simp only [asI32, foldSigned, foldUnsigned]
  omega

theorem asI32_of_emod {value raw : ℤ} (h : raw = value % 4294967296) (low : -2147483648 ≤ value)
    (high : value < 2147483648) :
  asI32 raw = value
  := by
  simp only [asI32, foldSigned, foldUnsigned]
  omega

theorem asI32_lt (value : ℤ) : asI32 value < 2147483648 := by
  simp only [asI32, foldSigned, foldUnsigned]
  omega

theorem asI32_ge (value : ℤ) : -2147483648 ≤ asI32 value := by
  simp only [asI32, foldSigned, foldUnsigned]
  omega

theorem asI32_of_range {value : ℤ} (low : -2147483648 ≤ value) (high : value < 2147483648) :
  asI32 value = value
  := by
  simp only [asI32, foldSigned, foldUnsigned]
  omega

theorem word_inj {value other : ℤ} (h : word value = word other) :
  value % 4294967296 = other % 4294967296
  := by
  simp only [word, List.cons.injEq, and_true] at h
  rw [← joined_word, ← joined_word, h.1, h.2.1, h.2.2.1, h.2.2.2]

theorem length_word (value : ℤ) : (word value).length = 4 := rfl

theorem length_doubleBytes (bits : UInt64) : (doubleBytes bits).length = 8 := rfl

/-- The eight bytes of a double, joined, are its bits. -/
theorem doubleOf_doubleBytes (bits : UInt64) : doubleOf (doubleBytes bits) = bits := by
  have lt := bits.toNat_lt
  apply UInt64.toNat_inj.mp
  have h (i : ℕ) := toNat_byte (bits.toNat >>> (8 * i) : ℕ)
  have h₀ := h 0
  have h₁ := h 1
  have h₂ := h 2
  have h₃ := h 3
  have h₄ := h 4
  have h₅ := h 5
  have h₆ := h 6
  have h₇ := h 7
  simp only [Nat.shiftRight_eq_div_pow] at h₀ h₁ h₂ h₃ h₄ h₅ h₆ h₇
  simp only [doubleOf, doubleBytes, List.range, List.range.loop, map_cons, map_nil, foldr_cons,
    foldr_nil, Nat.shiftLeft_eq, Nat.shiftRight_eq_div_pow, Nat.toUInt64_eq, UInt64.toNat_ofNat']
  omega

theorem doubleBytes_inj {bits other : UInt64} : doubleBytes bits = doubleBytes other ↔ bits = other := by
  constructor
  · intro h
    rw [← doubleOf_doubleBytes bits, h, doubleOf_doubleBytes]
  · intro h
    rw [h]

/-- Eight bytes are those of the double that they join to. -/
theorem doubleBytes_doubleOf {bytes : Bytes} (h : bytes.length = 8) :
  doubleBytes (doubleOf bytes) = bytes
  := by
  match bytes, h with
  | [b₀, b₁, b₂, b₃, b₄, b₅, b₆, b₇], _ =>
      have h₀ := b₀.toNat_lt
      have h₁ := b₁.toNat_lt
      have h₂ := b₂.toNat_lt
      have h₃ := b₃.toNat_lt
      have h₄ := b₄.toNat_lt
      have h₅ := b₅.toNat_lt
      have h₆ := b₆.toNat_lt
      have h₇ := b₇.toNat_lt
      simp only [doubleOf, doubleBytes, List.range, List.range.loop, map_cons, map_nil,
        foldr_cons, foldr_nil, Nat.shiftLeft_eq, Nat.shiftRight_eq_div_pow,
        Nat.toUInt64_eq, UInt64.toNat_ofNat']
      rw [byte_eq (b := b₀), byte_eq (b := b₁), byte_eq (b := b₂), byte_eq (b := b₃),
        byte_eq (b := b₄), byte_eq (b := b₅), byte_eq (b := b₆), byte_eq (b := b₇)]
      all_goals
        push_cast
        omega

/-! ### Lanes -/

/-- What the bytes of a scalar hold. -/
inductive Lane where
  | flag (value : Bool)
  | word (b₀ b₁ b₂ b₃ : UInt8)
  | double (bits : UInt64)
  | text (bytes : Bytes)

namespace Lane

/-- The bytes of a lane. -/
def bytes : Lane → Bytes
  | .flag value => [if value then 1 else 0]
  | .word b₀ b₁ b₂ b₃ => [b₀, b₁, b₂, b₃]
  | .double bits => doubleBytes bits
  | .text bytes => Wire.word bytes.length ++ bytes

/-- A text has a count that fits its word. -/
def Short : Lane → Prop
  | .text bytes => bytes.length < 2147483648
  | _ => True

variable (host : Host F)

/-- The value that a lane is read as. -/
def value : Scalar → Lane → Option (Value F)
  | .bool, .flag value => some (.bool value)
  | .i8, .word b₀ b₁ b₂ b₃ => some (.int (asI8 (asI32 (joined b₀ b₁ b₂ b₃))))
  | .u8, .word b₀ b₁ b₂ b₃ => some (.int (asU8 (joined b₀ b₁ b₂ b₃)))
  | .i16, .word b₀ b₁ b₂ b₃ => some (.int (asI16 (asI32 (joined b₀ b₁ b₂ b₃))))
  | .u16, .word b₀ b₁ b₂ b₃ => some (.int (asU16 (joined b₀ b₁ b₂ b₃)))
  | .i32, .word b₀ b₁ b₂ b₃ => some (.int (asI32 (joined b₀ b₁ b₂ b₃)))
  | .u32, .word b₀ b₁ b₂ b₃ => some (.int (joined b₀ b₁ b₂ b₃))
  | .i53, .double bits => some (.int (host.trunc (host.ofBits bits)))
  | .u53, .double bits => some (.int (asU53 (host.trunc (host.ofBits bits))))
  | .usize, .word b₀ b₁ b₂ b₃ => some (.int (asUsize (asI32 (joined b₀ b₁ b₂ b₃))))
  | .f32, .double bits => some (.float (host.narrow (host.ofBits bits)))
  | .f64, .double bits => some (.float (host.ofBits bits))
  | .str, .text bytes => some (.str (host.decodeUtf8 bytes))
  | _, _ => none

/-- A lane spells a value exactly: a narrow integer is in its type's range, a position is not
negative, a double has the bits of the integer, of the `f32` or of the number it is read as, and
a text is the bytes of the string it is read as. -/
def Exact : Scalar → Lane → Prop
  | .i8, .word b₀ b₁ b₂ b₃ =>
      -128 ≤ asI32 (joined b₀ b₁ b₂ b₃) ∧ asI32 (joined b₀ b₁ b₂ b₃) < 128
  | .u8, .word b₀ b₁ b₂ b₃ => joined b₀ b₁ b₂ b₃ < 256
  | .i16, .word b₀ b₁ b₂ b₃ =>
      -32768 ≤ asI32 (joined b₀ b₁ b₂ b₃) ∧ asI32 (joined b₀ b₁ b₂ b₃) < 32768
  | .u16, .word b₀ b₁ b₂ b₃ => joined b₀ b₁ b₂ b₃ < 65536
  | .usize, .word b₀ b₁ b₂ b₃ => 0 ≤ asI32 (joined b₀ b₁ b₂ b₃)
  | .i53, .double bits => host.toBits (host.ofInt (host.trunc (host.ofBits bits))) = bits
  | .u53, .double bits =>
      host.toBits (host.ofInt (asU53 (host.trunc (host.ofBits bits)))) = bits
  | .f32, .double bits => host.toBits (host.narrow (host.ofBits bits)) = bits
  | .f64, .double bits => host.toBits (host.ofBits bits) = bits
  | .str, .text bytes => host.encodeUtf8 (host.decodeUtf8 bytes) = bytes
  | _, _ => True

variable {host}

/-- A lane is exact when its value is written as its bytes. -/
theorem exact_iff
    {kind : Scalar} {lane : Lane} {value : Value F} (short : lane.Short)
    (h : lane.value host kind = some value) :
  lane.Exact host kind ↔ describeScalar (spell host) kind value [] = lane.bytes
  := by
  cases lane with
  | flag flag =>
    cases kind
    all_goals
      simp only [Lane.value, reduceCtorEq, Option.some_inj] at h
    subst h
    simp only [Exact, describeScalar, spell, bytes, nil_append]
  | word b₀ b₁ b₂ b₃ =>
    have lt := joined_lt b₀ b₁ b₂ b₃
    have mod := asI32_emod (joined b₀ b₁ b₂ b₃)
    have low := asI32_ge (joined b₀ b₁ b₂ b₃)
    have high := asI32_lt (joined b₀ b₁ b₂ b₃)
    cases kind
    all_goals
      simp only [Lane.value, reduceCtorEq, Option.some_inj] at h
    all_goals
      subst h
      simp only [Exact, describeScalar, spell, bytes, nil_append, word_eq_iff, asI32_emod,
        asI8, asU8, asI16, asU16, asU32, asUsize, saturateUnsigned, foldSigned, foldUnsigned,
        true_iff]
      omega
  | double bits =>
    cases kind
    all_goals
      simp only [Lane.value, reduceCtorEq, Option.some_inj] at h
    all_goals
      subst h
      simp only [Exact, describeScalar, spell, bytes, nil_append, doubleBytes_inj]
  | text text =>
    cases kind
    all_goals
      simp only [Lane.value, reduceCtorEq, Option.some_inj] at h
    subst h
    simp only [Exact, describeScalar, spell, bytes, nil_append, textBytes]
    constructor
    · intro h
      rw [h, asI32_of_range (by omega) (by exact_mod_cast short)]
    · intro h
      apply (append_inj h (by rw [length_word, length_word])).2

end Lane

end Vilan.Wire
