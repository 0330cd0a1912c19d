import Vilan.Core.Varint

/-!
# What the varint reader answers

A spelling is any bytes of which all but the last say that more follow.  The reader answers its
value modulo `2 ^ 64`: the seven bits of the tenth byte are shifted by 63, and six of them leave the
word.
-/

namespace Vilan.PrefixFile

open List Reading

/-- The value of digits in base 128, the lowest first. -/
def spelled : Bytes → ℕ
  | [] => 0
  | byte :: bytes => byte.toNat % 128 + 128 * spelled bytes

/-- All bytes but the last say that more follow. -/
def Spelling (bytes : Bytes) : Prop :=
  ∃ front final, bytes = front ++ [final] ∧ (∀ byte ∈ front, 128 ≤ byte.toNat) ∧ final.toNat < 128

theorem spelled_append (front : Bytes) (back : Bytes) :
  spelled (front ++ back) = spelled front + 128 ^ front.length * spelled back
  := by
  induction front with
  | nil => simp [spelled]
  | cons byte front ih =>
    rw [cons_append, spelled, spelled, ih, length_cons, Nat.pow_succ]
    ring

theorem spelled_lt (bytes : Bytes) :
  spelled bytes < 128 ^ bytes.length
  := by
  induction bytes with
  | nil => exact Nat.one_pos
  | cons byte bytes ih =>
    rw [spelled, length_cons, Nat.pow_succ]
    have lt := Nat.mod_lt byte.toNat (by decide : 128 > 0)
    omega

/-- Bytes begin with a spelling, or every one of them says that more follow. -/
theorem spelling_or_unended (bytes : Bytes) :
  (∃ front final rest, bytes = front ++ final :: rest ∧ (∀ byte ∈ front, 128 ≤ byte.toNat) ∧
      final.toNat < 128) ∨
    ∀ byte ∈ bytes, 128 ≤ byte.toNat
  := by
  induction bytes with
  | nil =>
    right
    intro byte absurd_
    cases absurd_
  | cons byte bytes ih =>
    by_cases last : byte.toNat < 128
    · refine Or.inl ⟨[], byte, bytes, rfl, ?_, last⟩
      intro other absurd_
      cases absurd_
    · obtain ⟨front, final, rest, rfl, more, ended⟩ | more := ih
      · refine Or.inl ⟨byte :: front, final, rest, rfl, ?_, ended⟩
        intro other mem
        obtain rfl | mem := mem_cons.mp mem
        · omega
        · exact more other mem
      · right
        intro other mem
        obtain rfl | mem := mem_cons.mp mem
        · omega
        · exact more other mem

/-! ### The loop -/

variable {shift value : ℕ} {final : UInt8} {front : Bytes}

/-- One byte of the loop. -/
theorem varintLoop_cons (next : UInt8) (bytes : Bytes) (pos : ℕ) :
  varintLoop value shift ⟨next :: bytes, pos⟩
    = if 64 ≤ shift then .error (.custom s!"a varint overflows at byte {pos + 1}")
      else if next.toNat < 128 then
        .ok (value ||| (next.toNat % 128) <<< shift % u64Bound, ⟨bytes, pos + 1⟩)
      else varintLoop (value ||| (next.toNat % 128) <<< shift % u64Bound) (shift + 7)
        ⟨bytes, pos + 1⟩
  := by
  have read : byte ⟨next :: bytes, pos⟩ = .ok (next, ⟨bytes, pos + 1⟩) :=
    (byte_reads next pos).whole bytes
  rw [varintLoop]
  change (byte ⟨next :: bytes, pos⟩ >>= fun read => _) = _
  rw [read]
  by_cases done : 64 ≤ shift
  · simp only [if_pos done]
    rfl
  · simp only [if_neg done]
    change (if next.toNat < 128 then pure (value ||| (next.toNat % 128) <<< shift % u64Bound)
      else varintLoop (value ||| (next.toNat % 128) <<< shift % u64Bound) (shift + 7) : Reader ℕ)
        ⟨bytes, pos + 1⟩ = _
    by_cases last : next.toNat < 128
    · rw [if_pos last, if_pos last]
      rfl
    · rw [if_neg last, if_neg last]

theorem varintLoop_nil (value shift pos : ℕ) :
  varintLoop value shift ⟨[], pos⟩ = .error (truncated pos)
  := by
  rw [varintLoop]
  rfl

/-- The seven bits of a byte are put above those that are there, as far as the word has room. -/
theorem or_shifted {digit : ℕ} (low : value < 2 ^ shift) (inside : shift < 64) :
  value ||| digit <<< shift % u64Bound = (value + digit * 2 ^ shift) % u64Bound
  := by
  have room : u64Bound = 2 ^ shift * 2 ^ (64 - shift) := by
    rw [u64Bound, ← Nat.pow_add]
    congr 1
    omega
  have shifted : digit <<< shift % u64Bound = (digit % 2 ^ (64 - shift)) <<< shift := by
    rw [room, Nat.shiftLeft_eq, Nat.shiftLeft_eq, Nat.mul_comm digit, Nat.mul_mod_mul_left,
      Nat.mul_comm]
  have small : value + digit % 2 ^ (64 - shift) * 2 ^ shift < u64Bound := by
    have lt := Nat.mod_lt digit (Nat.two_pow_pos (64 - shift))
    have le : (digit % 2 ^ (64 - shift) + 1) * 2 ^ shift ≤ 2 ^ (64 - shift) * 2 ^ shift :=
      Nat.mul_le_mul_right _ lt
    rw [room, Nat.mul_comm (2 ^ shift)]
    rw [Nat.add_mul, Nat.one_mul] at le
    omega
  have wrapped : digit % 2 ^ (64 - shift) * 2 ^ shift = digit * 2 ^ shift % u64Bound := by
    rw [room, Nat.mul_comm (2 ^ shift), Nat.mul_mod_mul_right]
  rw [shifted, or_shiftLeft low, ← Nat.mod_eq_of_lt small, wrapped, Nat.add_mod_mod]

/-- Of bytes that all say that more follow the loop answers nothing. -/
theorem varintLoop_unended {bytes : Bytes} (more : ∀ byte ∈ bytes, 128 ≤ byte.toNat) (pos : ℕ) :
  ∃ error, varintLoop value shift ⟨bytes, pos⟩ = .error error
  := by
  induction bytes generalizing value shift pos with
  | nil => exact ⟨_, varintLoop_nil value shift pos⟩
  | cons byte bytes ih =>
    rw [varintLoop_cons]
    split
    · exact ⟨_, rfl⟩
    · rw [if_neg (Nat.not_lt.mpr (more byte mem_cons_self))]
      apply ih
      exact fun other mem => more other (mem_cons_of_mem byte mem)

/-- What the loop has read is below the place of the next seven bits. -/
theorem read_lt (digit : ℕ) (low : value < 2 ^ shift) :
  (value + digit % 128 * 2 ^ shift) % u64Bound < 2 ^ (shift + 7)
  := by
  apply Nat.lt_of_le_of_lt (Nat.mod_le _ _)
  have grown : 2 ^ (shift + 7) = 2 ^ shift * 128 := by rw [Nat.pow_add]
  have le : digit % 128 * 2 ^ shift ≤ 127 * 2 ^ shift := Nat.mul_le_mul_right _ (by omega)
  omega

/-- Of a spelling of at most ten bytes the loop answers the value, modulo `2 ^ 64`. -/
theorem varintLoop_spelled (more : ∀ byte ∈ front, 128 ≤ byte.toNat) (ended : final.toNat < 128)
    (low : value < 2 ^ shift) (short : shift + 7 * front.length < 64) (rest : Bytes) (pos : ℕ) :
  varintLoop value shift ⟨front ++ final :: rest, pos⟩ =
    .ok ((value + spelled (front ++ [final]) * 2 ^ shift) % u64Bound,
      ⟨rest, pos + (front.length + 1)⟩)
  := by
  induction front generalizing value shift pos with
  | nil =>
    rw [length_nil, Nat.mul_zero, Nat.add_zero] at short
    rw [nil_append, varintLoop_cons, if_neg (by omega), if_pos ended, or_shifted low short]
    simp only [nil_append, spelled, Nat.mul_zero, Nat.add_zero, length_nil, Nat.zero_add]
  | cons byte front ih =>
    rw [length_cons] at short
    have more_byte := more byte mem_cons_self
    rw [cons_append, varintLoop_cons, if_neg (by omega), if_neg (by omega),
      or_shifted low (by omega)]
    rw [ih (fun other mem => more other (mem_cons_of_mem byte mem)) (read_lt _ low) (by omega)]
    have value_eq : ((value + byte.toNat % 128 * 2 ^ shift) % u64Bound
        + spelled (front ++ [final]) * 2 ^ (shift + 7)) % u64Bound
        = (value + spelled (byte :: front ++ [final]) * 2 ^ shift) % u64Bound := by
      rw [Nat.mod_add_mod, cons_append, spelled, Nat.pow_add]
      congr 1
      ring
    have pos_eq : pos + 1 + (front.length + 1) = pos + ((byte :: front).length + 1) := by
      rw [length_cons]
      omega
    rw [value_eq, pos_eq]

/-- Of a longer spelling the loop answers nothing. -/
theorem varintLoop_long (more : ∀ byte ∈ front, 128 ≤ byte.toNat)
    (long : 64 ≤ shift + 7 * front.length) (rest : Bytes) (pos : ℕ) :
  ∃ error, varintLoop value shift ⟨front ++ final :: rest, pos⟩ = .error error
  := by
  induction front generalizing value shift pos with
  | nil =>
    rw [length_nil, Nat.mul_zero, Nat.add_zero] at long
    rw [nil_append, varintLoop_cons, if_pos long]
    exact ⟨_, rfl⟩
  | cons byte front ih =>
    rw [length_cons] at long
    rw [cons_append, varintLoop_cons]
    split
    · exact ⟨_, rfl⟩
    · rw [if_neg (Nat.not_lt.mpr (more byte mem_cons_self))]
      apply ih (fun other mem => more other (mem_cons_of_mem byte mem))
      omega

/-! ### The reader -/

/-- The reader answers, with the bytes it leaves, only the value of the spelling it consumes, which
fits in a `u64`; and of a spelling of a greater value and of bytes without a final one it answers
nothing. -/
structure Exact (bytes : Bytes) (pos : ℕ) : Prop where
  answers : ∀ n rest pos', varint ⟨bytes, pos⟩ = .ok (n, ⟨rest, pos'⟩) → ∃ used,
    bytes = used ++ rest ∧ pos' = pos + used.length ∧ Spelling used ∧ spelled used = n ∧ n < u64Bound
  greater : ∀ used rest, bytes = used ++ rest → Spelling used → u64Bound ≤ spelled used →
    ∃ error, varint ⟨bytes, pos⟩ = .error error
  unended : (∀ byte ∈ bytes, 128 ≤ byte.toNat) → ∃ error, varint ⟨bytes, pos⟩ = .error error

/-- Nine bytes say that more follow, and the tenth ends the spelling with a bit above the word. -/
def Overflows (bytes : Bytes) : Prop :=
  ∃ nine final rest, bytes = nine ++ final :: rest ∧ nine.length = 9 ∧
    (∀ byte ∈ nine, 128 ≤ byte.toNat) ∧ 2 ≤ final.toNat ∧ final.toNat < 128

/-- What bytes begin with is one spelling. -/
theorem spelling_unique {front' : Bytes} {final' : UInt8} {rest rest' : Bytes}
    (same : front ++ final :: rest = front' ++ final' :: rest')
    (more : ∀ byte ∈ front, 128 ≤ byte.toNat) (more' : ∀ byte ∈ front', 128 ≤ byte.toNat)
    (ended : final.toNat < 128) (ended' : final'.toNat < 128) :
  front = front' ∧ final = final' ∧ rest = rest'
  := by
  induction front generalizing front' with
  | nil =>
    cases front' with
    | nil =>
      rw [nil_append, nil_append, List.cons.injEq] at same
      exact ⟨rfl, same.1, same.2⟩
    | cons byte front' =>
      rw [nil_append, cons_append, List.cons.injEq] at same
      have big := more' byte mem_cons_self
      rw [← same.1] at big
      omega
  | cons byte front ih =>
    cases front' with
    | nil =>
      rw [nil_append, cons_append, List.cons.injEq] at same
      have big := more byte mem_cons_self
      rw [same.1] at big
      omega
    | cons byte' front' =>
      rw [cons_append, cons_append, List.cons.injEq] at same
      obtain ⟨rfl, rfl, rfl⟩ := ih same.2
        (fun other mem => more other (mem_cons_of_mem byte mem))
        (fun other mem => more' other (mem_cons_of_mem byte' mem))
      rw [same.1]
      exact ⟨rfl, rfl, rfl⟩

/-- The value of a spelling of at most ten bytes fits in a `u64` unless it overflows. -/
theorem spelled_lt_u64Bound_iff (ended : final.toNat < 128) (short : front.length ≤ 9) :
  spelled (front ++ [final]) < u64Bound ↔ front.length < 9 ∨ final.toNat < 2
  := by
  have digit : spelled [final] = final.toNat := by
    simp only [spelled]
    omega
  have below := spelled_lt front
  rw [spelled_append, digit]
  by_cases last : front.length = 9
  · rw [last] at below ⊢
    have word : u64Bound = 128 ^ 9 * 2 := by decide
    rw [word]
    constructor
    · intro lt
      right
      by_contra ge
      have le : 128 ^ 9 * 2 ≤ 128 ^ 9 * final.toNat := Nat.mul_le_mul_left _ (by omega)
      omega
    · rintro (absurd_ | lt)
      · exact absurd absurd_ (Nat.lt_irrefl 9)
      · have le : 128 ^ 9 * final.toNat ≤ 128 ^ 9 * 1 := Nat.mul_le_mul_left _ (by omega)
        omega
  · refine ⟨fun _ => Or.inl (by omega), fun _ => ?_⟩
    have power : 128 ^ (front.length + 1) ≤ 128 ^ 9 := Nat.pow_le_pow_right (by decide) (by omega)
    have le : 128 ^ front.length * final.toNat ≤ 128 ^ front.length * 127 :=
      Nat.mul_le_mul_left _ (by omega)
    have word : 128 ^ 9 < u64Bound := by decide
    rw [Nat.pow_succ] at power
    omega

/-- Of a spelling of at most ten bytes the reader answers the value, modulo `2 ^ 64`. -/
theorem varint_spelled (more : ∀ byte ∈ front, 128 ≤ byte.toNat) (ended : final.toNat < 128)
    (short : front.length ≤ 9) (rest : Bytes) (pos : ℕ) :
  varint ⟨front ++ final :: rest, pos⟩
    = .ok (spelled (front ++ [final]) % u64Bound, ⟨rest, pos + (front.length + 1)⟩)
  := by
  rw [varint, varintLoop_spelled more ended Nat.one_pos (by omega), Nat.zero_add, Nat.pow_zero,
    Nat.mul_one]

/-- **The varint reader answers only what was spelled, exactly when no bit leaves the word.** -/
theorem varint_exact_iff (bytes : Bytes) (pos : ℕ) :
  Exact bytes pos ↔ ¬ Overflows bytes
  := by
  constructor
  · rintro exact_ ⟨nine, final, rest, rfl, length, more, big, ended⟩
    have great : u64Bound ≤ spelled (nine ++ [final]) := by
      rw [← Nat.not_lt, spelled_lt_u64Bound_iff ended (by omega)]
      omega
    have split : nine ++ final :: rest = (nine ++ [final]) ++ rest := by
      rw [append_assoc]
      rfl
    obtain ⟨error, failed⟩ := exact_.greater (nine ++ [final]) rest split ⟨nine, final, rfl, more, ended⟩
      great
    rw [varint_spelled more ended (by omega)] at failed
    cases failed
  · intro fits
    obtain ⟨front, final, rest, rfl, more, ended⟩ | more := spelling_or_unended bytes
    · -- The bytes begin with one spelling; it is read, or it is too long.
      have begins : ∀ used rest', front ++ final :: rest = used ++ rest' → Spelling used →
          used = front ++ [final] ∧ rest' = rest := by
        rintro used rest' same ⟨front', final', rfl, more', ended'⟩
        rw [append_assoc, singleton_append] at same
        obtain ⟨rfl, rfl, rfl⟩ := spelling_unique same more more' ended ended'
        exact ⟨rfl, rfl⟩
      by_cases short : front.length ≤ 9
      · have small : spelled (front ++ [final]) < u64Bound := by
          rw [spelled_lt_u64Bound_iff ended short]
          by_contra both
          apply fits
          exact ⟨front, final, rest, rfl, by omega, more, by omega, ended⟩
        refine ⟨?_, ?_, ?_⟩
        · intro n rest' pos' answered
          rw [varint_spelled more ended short, Nat.mod_eq_of_lt small] at answered
          cases answered
          refine ⟨front ++ [final], ?_, ?_, ⟨front, final, rfl, more, ended⟩, rfl, small⟩
          · rw [append_assoc]
            rfl
          · rw [length_append]
            rfl
        · intro used rest' same spelling great
          rw [(begins used rest' same spelling).1] at great
          omega
        · intro unended
          have big := unended final (mem_append_right front mem_cons_self)
          omega
      · obtain ⟨error, failed⟩ : ∃ error, varintLoop 0 0 ⟨front ++ final :: rest, pos⟩ = .error error :=
          varintLoop_long more (by omega) rest pos
        refine ⟨?_, fun _ _ _ _ _ => ⟨error, failed⟩, fun _ => ⟨error, failed⟩⟩
        intro n rest' pos' answered
        rw [varint, failed] at answered
        cases answered
    · obtain ⟨error, failed⟩ : ∃ error, varintLoop 0 0 ⟨bytes, pos⟩ = .error error :=
        varintLoop_unended more pos
      refine ⟨?_, fun _ _ _ _ _ => ⟨error, failed⟩, fun _ => ⟨error, failed⟩⟩
      intro n rest' pos' answered
      rw [varint, failed] at answered
      cases answered

/-- Nine bytes of ones and a two: the value is above every `u64`, and the reader answers. -/
theorem varint_drops_bits :
  ¬ Exact (List.replicate 9 255 ++ [2]) 0
  := by
  intro exact_
  have more : ∀ byte ∈ List.replicate 9 (255 : UInt8), 128 ≤ byte.toNat := by
    intro byte mem
    rw [eq_of_mem_replicate mem]
    decide
  obtain ⟨error, failed⟩ := exact_.greater (List.replicate 9 255 ++ [2]) [] (by simp)
    ⟨List.replicate 9 255, 2, rfl, more, by decide⟩ (by decide)
  have answered : varint ⟨List.replicate 9 255 ++ [2], 0⟩ = .ok (_, ⟨[], 10⟩) :=
    varint_spelled more (by decide) (by decide) [] 0
  rw [failed] at answered
  cases answered

end Vilan.PrefixFile
