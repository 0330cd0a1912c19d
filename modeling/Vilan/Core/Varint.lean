import Vilan.Library.Reading
import Vilan.Library.Utf8
import Mathlib.Data.Nat.Bitwise
import Mathlib.Data.Nat.Log
import Mathlib.Tactic.Ring

/-!
# Varints

The integers of the prefix file: seven bits a byte, the lowest first, and the signed ones zigzagged.
-/

namespace Vilan.PrefixFile

open Reading BitVec

abbrev Bytes := List UInt8

/-- Why a decoding fails: with a message, or because the fuel that stands for the depth of the
types ran out. -/
inductive Error where
  | message (text : String)
  | tooDeep
  deriving DecidableEq

/-- An error with a message. -/
def Error.custom (text : String) : Error :=
  .message text

/-- The failure of a reader that needs more bytes. -/
def truncated (pos : ℕ) : Error :=
  .custom s!"truncated at byte {pos}"

/-- A reader of bytes. -/
abbrev Reader := Reading.Reader UInt8 Error

/-- How many bytes have been read. -/
def position : Reader ℕ :=
  fun input => .ok (input.pos, input)

def byte : Reader UInt8 := do
  return (← take truncated 1).headD 0

/-- The values of a `u64`. -/
def u64Bound : ℕ := 2 ^ 64

/-- The bytes of a `u64`. -/
def putVarint (value : ℕ) : Bytes :=
  if value / 128 = 0 then [UInt8.ofNat (value % 128)]
  else UInt8.ofNat (value % 128 + 128) :: putVarint (value / 128)
  termination_by value
  decreasing_by omega

/-- Read on, with what was read and the place of the next seven bits. -/
def varintLoop (value shift : ℕ) : Reader ℕ := do
  let next ← byte
  if 64 ≤ shift then
    fail (.custom s!"a varint overflows at byte {← position}")
  else
    let value := value ||| (next.toNat % 128) <<< shift % u64Bound
    if next.toNat < 128 then
      return value
    varintLoop value (shift + 7)
  termination_by 71 - shift

def varint : Reader ℕ :=
  varintLoop 0 0

/-- A signed integer as an unsigned one: the sign is the lowest bit. -/
def zigzag (value : BitVec 64) : BitVec 64 :=
  value <<< 1 ^^^ value.sshiftRight 63

def unzigzag (value : BitVec 64) : BitVec 64 :=
  value >>> 1 ^^^ -(value &&& 1)

theorem neg_and_one (value : BitVec 64) :
  -(value &&& 1) = if value.getLsbD 0 then BitVec.allOnes 64 else 0
  := by
  have cases_ : value &&& 1 = if value.getLsbD 0 then 1 else 0 := by
    ext i lt
    simp only [getElem_and]
    split
    next h =>
      cases i with
      | zero => simpa using h
      | succ i => simp
    next h =>
      cases i with
      | zero => simpa using h
      | succ i => simp
  rw [cases_]
  split
  · rfl
  · rfl

@[simp]
theorem unzigzag_zigzag (value : BitVec 64) : unzigzag (zigzag value) = value := by
  have low : (zigzag value).getLsbD 0 = value.msb := by
    simp [zigzag, getElem_sshiftRight, msb_eq_getLsbD_last]
  rw [unzigzag, neg_and_one, low]
  ext i lt
  have bit : ((zigzag value) >>> 1)[i] = (value[i] ^^ value.msb) := by
    rw [zigzag]
    rw [getElem_ushiftRight, getLsbD_xor, getLsbD_shiftLeft, getLsbD_sshiftRight]
    by_cases last : i = 63
    · subst last
      simp [msb_eq_getLsbD_last]
    · have lt' : i + 1 < 64 := by omega
      have inside : ¬ 63 ≤ i := by omega
      have past : ¬ 63 + (i + 1) < 64 := by omega
      simp [Nat.add_comm 1 i, lt', inside, past, getLsbD_eq_getElem lt]
  rw [getElem_xor, bit]
  cases value.msb
  · simp
  · rw [if_pos rfl, getElem_allOnes, Bool.xor_assoc, Bool.xor_self, Bool.xor_false]

/-! ### What a varint reads -/

theorem byte_reads (next : UInt8) (pos : ℕ) : Reads truncated byte [next] pos next := by
  have taken : Reads truncated (take truncated 1) [next] pos [next] := Reads.take (by rfl) pos
  apply taken.ends
  apply Reads.pure

theorem or_shiftLeft {value digit shift : ℕ} (lt : value < 2 ^ shift) :
  value ||| digit <<< shift = value + digit * 2 ^ shift
  := by
  rw [Nat.shiftLeft_eq, Nat.or_comm, Nat.mul_comm digit, ← Nat.two_pow_add_eq_or_of_lt lt,
    Nat.add_comm]

/-- A varint is read from a place on. -/
theorem varintLoop_reads {n value shift : ℕ} (low : value < 2 ^ shift)
    (fits : n * 2 ^ shift < u64Bound) (inside : shift < 64) (pos : ℕ) :
  Reads truncated (varintLoop value shift) (putVarint n) pos (value + n * 2 ^ shift)
  := by
  induction n using Nat.strongRecOn generalizing value shift pos with
  | ind n ih =>
  rw [varintLoop]
  have digit : n % 128 * 2 ^ shift < u64Bound := by
    apply lt_of_le_of_lt _ fits
    apply Nat.mul_le_mul_right
    apply Nat.mod_le
  have joined : ∀ next : UInt8, next.toNat % 128 = n % 128 →
      value ||| (next.toNat % 128) <<< shift % u64Bound = value + n % 128 * 2 ^ shift := by
    intro next heq
    rw [heq, ← or_shiftLeft low, Nat.mod_eq_of_lt]
    rw [Nat.shiftLeft_eq]
    apply digit
  rw [putVarint]
  by_cases small : n / 128 = 0
  · rw [if_pos small]
    have toNat_ : (UInt8.ofNat (n % 128)).toNat = n % 128 := by
      rw [UInt8.toNat_ofNat', Nat.mod_eq_of_lt]
      omega
    apply (byte_reads (UInt8.ofNat (n % 128)) pos).ends
    rw [if_neg (by omega), if_pos (by omega), joined _ (by omega)]
    have same : n % 128 = n := by omega
    rw [same]
    apply Reads.pure
  · rw [if_neg small]
    have toNat_ : (UInt8.ofNat (n % 128 + 128)).toNat = n % 128 + 128 := by
      rw [UInt8.toNat_ofNat', Nat.mod_eq_of_lt]
      omega
    change Reads truncated _ ([_] ++ putVarint (n / 128)) pos _
    apply (byte_reads (UInt8.ofNat (n % 128 + 128)) pos).bind
    rw [if_neg (by omega), if_neg (by omega), joined _ (by omega)]
    have parts : n = n / 128 * 128 + n % 128 := by omega
    have rest : n / 128 * 2 ^ (shift + 7) = n / 128 * 128 * 2 ^ shift := by
      rw [Nat.pow_add]
      ring
    have total : value + n * 2 ^ shift =
        value + n % 128 * 2 ^ shift + n / 128 * 2 ^ (shift + 7) := by
      rw [rest]
      nth_rewrite 1 [parts]
      ring
    rw [total]
    apply ih (n / 128) (by omega)
    · have grown : 2 ^ (shift + 7) = 2 ^ shift * 128 := by rw [Nat.pow_add]
      have lt : n % 128 * 2 ^ shift ≤ 127 * 2 ^ shift :=
        Nat.mul_le_mul_right _ (by omega)
      omega
    · rw [rest]
      apply lt_of_le_of_lt _ fits
      apply Nat.mul_le_mul_right
      omega
    · have one : 1 * 2 ^ (shift + 7) < u64Bound := by
        apply lt_of_le_of_lt _ fits
        rw [Nat.one_mul, Nat.pow_add]
        rw [Nat.mul_comm]
        apply Nat.mul_le_mul_right
        omega
      rw [Nat.one_mul, u64Bound] at one
      have := (Nat.pow_lt_pow_iff_right (by decide : 1 < 2)).mp one
      omega

/-- A varint is read as the integer it was written for. -/
theorem varint_reads {n : ℕ} (fits : n < u64Bound) (pos : ℕ) :
  Reads truncated varint (putVarint n) pos n
  := by
  have reads : Reads truncated (varintLoop 0 0) (putVarint n) pos (0 + n * 2 ^ 0) :=
    varintLoop_reads (by decide) (by simpa) (by decide) pos
  rw [Nat.zero_add, Nat.pow_zero, Nat.mul_one] at reads
  apply reads

end Vilan.PrefixFile
