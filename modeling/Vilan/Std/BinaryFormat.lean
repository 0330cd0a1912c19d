import Vilan.Std.BinaryReads

/-!
# The frames that are read

A frame is read as a value when its lanes follow one another as the value's type says.  The
relation has two forms: the loose one is what the reader accepts, and the strict one also asks
each lane to be exact and the keys of each map to be distinct.
-/

namespace Vilan.Wire

variable {F H : Type}

/-! ### Frames -/

section Frames

variable [DecidableEq H] (host : Host F) (program : Program F H)

/-- Bytes are read as values of types, and other bytes are left. -/
inductive Reads (strict : Prop) : List Ty → Bytes → List (Value F) → Bytes → Prop
  | nil (input : Bytes) : Reads strict [] input [] input
  | cons {type : Ty} {types : List Ty} {input mid rest : Bytes} {value : Value F}
      {values : List (Value F)} :
      Reads strict [type] input [value] mid → Reads strict types mid values rest →
        Reads strict (type :: types) input (value :: values) rest
  | scalar {kind : Scalar} {lane : Lane} {value : Value F} (rest : Bytes) (short : lane.Short)
      (read : lane.value host kind = some value) (exact : strict → lane.Exact host kind) :
      Reads strict [.scalar kind] (lane.bytes ++ rest) [value] rest
  | list {element : Ty} {items : List (Value F)} {input rest : Bytes}
      (short : items.length < 2147483648) (fits : items.length ≤ input.length) :
      Reads strict (List.replicate items.length element) input items rest →
        Reads strict [.list element] (word items.length ++ input) [.list items] rest
  | absent (element : Ty) (rest : Bytes) : Reads strict [.option element] (0 :: rest) [.absent] rest
  | present {element : Ty} {value : Value F} {input rest : Bytes} :
      Reads strict [element] input [value] rest →
        Reads strict [.option element] (1 :: input) [.present value] rest
  | map {key value : Ty} {pairs : List (Value F × Value F)} {input rest : Bytes}
      (short : pairs.length < 2147483648) (fits : pairs.length ≤ input.length)
      (distinct : strict → (pairs.map fun pair => program.hash pair.1).Nodup) :
      Reads strict (pairTypes key value pairs.length) input (pairValues pairs) rest →
        Reads strict [.hashMap key value] (word pairs.length ++ input)
          [.map (entriesOf (insertAll program.hash [] pairs))] rest
  | struct {id : ℕ} {fields : List (Str × Ty)} {values : List (Value F)} {input rest : Bytes}
      (decl : program.decl id = .struct fields) :
      Reads strict (fields.map Prod.snd) input values rest →
        Reads strict [.named id] input [.struct values] rest
  | variant {id : ℕ} {variants : List (Str × List Ty)} {fallback : Fallback F} {tag : Bytes}
      {types : List Ty} {payloads : List (Value F)} {input rest : Bytes}
      (decl : program.decl id = .enum variants fallback)
      (known : variants.lookup (host.decodeUtf8 tag) = some types)
      (short : tag.length < 2147483648)
      (exact : strict → host.encodeUtf8 (host.decodeUtf8 tag) = tag) :
      Reads strict types input payloads rest →
        Reads strict [.named id] (word tag.length ++ tag ++ input)
          [.variant (host.decodeUtf8 tag) payloads] rest
  | backed {id : ℕ} {name first : Str} {backing : Scalar} {values : List (Str × Value F)}
      {known : Str × Value F} {lane : Lane} (rest : Bytes)
      (decl : program.decl id = .backed name backing first values) (mem : known ∈ values)
      (short : lane.Short) (read : lane.value host backing = some known.2)
      (exact : strict → lane.Exact host backing) :
      Reads strict [.named id] (lane.bytes ++ rest) [.variant known.1 []] rest

/-- A frame is read as one value, each of its lanes exact and the keys of its maps distinct. -/
def Canonical (type : Ty) (frame : Bytes) : Prop :=
  ∃ value, Reads host program True [type] frame [value] []

variable {host program} in
/-- Each type has its value. -/
theorem Reads.length
    {strict : Prop} {types : List Ty} {input rest : Bytes} {values : List (Value F)}
    (h : Reads host program strict types input values rest) :
  types.length = values.length
  := by
  induction h with
  | nil => rfl
  | cons _ _ _ ih => simp only [List.length_cons, ih]
  | _ => rfl

end Frames

/-! ### Lists that fit -/

section Fits

variable (host : Host F) (program : Program F H)

/-- Each list and each map has at most as many elements as bytes follow its count, where so many
bytes follow the values. -/
inductive Fits : List Ty → List (Value F) → ℕ → Prop
  | nil (after : ℕ) : Fits [] [] after
  | cons {type next : Ty} {types : List Ty} {value other : Value F} {values : List (Value F)}
      {after : ℕ} :
      Fits [type] [value] ((bytesAll host program (next :: types) (other :: values)).length + after) →
      Fits (next :: types) (other :: values) after →
        Fits (type :: next :: types) (value :: other :: values) after
  | scalar (kind : Scalar) (value : Value F) (after : ℕ) : Fits [.scalar kind] [value] after
  | list {element : Ty} {items : List (Value F)} {after : ℕ}
      (fits : items.length ≤
        (bytesAll host program (List.replicate items.length element) items).length + after) :
      Fits (List.replicate items.length element) items after →
        Fits [.list element] [.list items] after
  | absent (element : Ty) (after : ℕ) : Fits [.option element] [.absent] after
  | present {element : Ty} {value : Value F} {after : ℕ} :
      Fits [element] [value] after → Fits [.option element] [.present value] after
  | map {key value : Ty} {pairs : List (Value F × Value F)} {after : ℕ}
      (fits : pairs.length ≤
        (bytesAll host program (pairTypes key value pairs.length) (pairValues pairs)).length +
          after) :
      Fits (pairTypes key value pairs.length) (pairValues pairs) after →
        Fits [.hashMap key value] [.map (entriesOf pairs)] after
  | struct {id : ℕ} {fields : List (Str × Ty)} {values : List (Value F)} {after : ℕ}
      (decl : program.decl id = .struct fields) :
      Fits (fields.map Prod.snd) values after → Fits [.named id] [.struct values] after
  | variant {id : ℕ} {variants : List (Str × List Ty)} {fallback : Fallback F} {name : Str}
      {types : List Ty} {payloads : List (Value F)} {after : ℕ}
      (decl : program.decl id = .enum variants fallback)
      (known : variants.lookup name = some types) :
      Fits types payloads after → Fits [.named id] [.variant name payloads] after
  | backed {id : ℕ} {name first : Str} {backing : Scalar} {values : List (Str × Value F)}
      {known : Str × Value F} (after : ℕ)
      (decl : program.decl id = .backed name backing first values) (mem : known ∈ values) :
      Fits [.named id] [.variant known.1 []] after

variable {host program}

theorem Fits.cons_iff
    {type : Ty} {types : List Ty} {value : Value F} {values : List (Value F)} {after : ℕ} :
  Fits host program (type :: types) (value :: values) after ↔
    Fits host program [type] [value] ((bytesAll host program types values).length + after) ∧
      Fits host program types values after
  := by
  match types, values with
  | [], [] =>
      rw [bytesAll_nil, List.length_nil, Nat.zero_add]
      constructor
      · intro h
        use h, .nil after
      · intro h
        apply h.1
  | next :: types, other :: values =>
      constructor
      · rintro (_ | ⟨h, hs⟩)
        use h, hs
      · intro h
        apply Fits.cons h.1 h.2
  | [], _ :: _ =>
      constructor
      · nofun
      · rintro ⟨_, h⟩
        cases h
  | _ :: _, [] =>
      constructor
      · nofun
      · rintro ⟨_, h⟩
        cases h

theorem Fits.map_inv
    {key value : Ty} {pairs : List (Value F × Value F)} {after : ℕ}
    (h : Fits host program [.hashMap key value] [.map (entriesOf pairs)] after) :
  pairs.length ≤
      (bytesAll host program (pairTypes key value pairs.length) (pairValues pairs)).length + after ∧
    Fits host program (pairTypes key value pairs.length) (pairValues pairs) after
  := by
  generalize heq : entriesOf pairs = entries at h
  cases h with
  | map room fits =>
    obtain rfl := entriesOf_injective heq
    use room, fits

theorem Fits.struct_inv
    {id : ℕ} {fields : List (Str × Ty)} (decl : program.decl id = .struct fields)
    {values : List (Value F)} {after : ℕ}
    (h : Fits host program [.named id] [.struct values] after) :
  Fits host program (fields.map Prod.snd) values after
  := by
  cases h with
  | struct decl' fits =>
    rw [decl, Decl.struct.injEq] at decl'
    rw [decl']
    apply fits

theorem Fits.variant_inv
    {id : ℕ} {variants : List (Str × List Ty)} {fallback : Fallback F}
    (decl : program.decl id = .enum variants fallback) {name : Str} {types : List Ty}
    (known : variants.lookup name = some types) {payloads : List (Value F)} {after : ℕ}
    (h : Fits host program [.named id] [.variant name payloads] after) :
  Fits host program types payloads after
  := by
  cases h with
  | variant decl' known' fits =>
    rw [decl, Decl.enum.injEq] at decl'
    rw [← decl'.1, known, Option.some_inj] at known'
    rw [known']
    apply fits
  | backed _ decl' =>
    rw [decl] at decl'
    simp only [reduceCtorEq] at decl'

end Fits

end Vilan.Wire
