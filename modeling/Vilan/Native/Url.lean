import Vilan.Library.Utf8Slice
import Vilan.Std.Text

/-!
# Percent coding

The native pair behind `std::url`.  A byte outside the unreserved set is written as `%XX`, and the
decoder reads each maximal run of such escapes as UTF-8.  It walks the bytes of the text by their
offsets; a slice inside a character would panic, which is `none`.
-/

namespace Vilan.Native.Url

def percent : UInt8 := 0x25

/-- The character of a byte, by its number. -/
def char (byte : UInt8) : Char :=
  Char.ofNat byte.toNat

/-! ### Encoding -/

/-- The upper-case digits. -/
def hex : List Char :=
  ['0', '1', '2', '3', '4', '5', '6', '7', '8', '9', 'A', 'B', 'C', 'D', 'E', 'F']

/-- A digit.  The index is the half of a byte, and so below sixteen. -/
def hexDigit (half : UInt8) : Char :=
  hex.getD half.toNat '0'

/-- The unreserved set of `encodeURIComponent`. -/
def isUnreserved (byte : UInt8) : Bool :=
  0x30 ≤ byte && byte ≤ 0x39 || 0x41 ≤ byte && byte ≤ 0x5A || 0x61 ≤ byte && byte ≤ 0x7A ||
    ['-', '_', '.', '!', '~', '*', '\'', '(', ')'].any fun c => c.toNat = byte.toNat

def encodeByte (byte : UInt8) : List Char :=
  if isUnreserved byte then [char byte]
  else ['%', hexDigit (byte >>> 4), hexDigit (byte &&& 0x0F)]

/-- `encodeURIComponent`. -/
def percentEncode (text : List Char) : List Char :=
  (Utf8.encode text).flatMap encodeByte

/-! ### Decoding -/

def hexValue (digit : UInt8) : Option UInt8 :=
  if 0x30 ≤ digit ∧ digit ≤ 0x39 then some (digit - 0x30)
  else if 0x61 ≤ digit ∧ digit ≤ 0x66 then some (digit - 0x61 + 10)
  else if 0x41 ≤ digit ∧ digit ≤ 0x46 then some (digit - 0x41 + 10)
  else none

/-- The byte that a `%XX` escape at an index names, if one is there. -/
def escapeAt (bytes : Bytes) (index : ℕ) : Option UInt8 :=
  if bytes[index]? = some percent then do
    let high ← hexValue (← bytes[index + 1]?)
    let low ← hexValue (← bytes[index + 2]?)
    some (high <<< 4 ||| low)
  else none

theorem lt_of_escapeAt {bytes : Bytes} {index : ℕ} {byte : UInt8}
    (escape : escapeAt bytes index = some byte) :
  index < bytes.length
  := by
  rw [escapeAt] at escape
  split at escape
  next first =>
    obtain ⟨lt, -⟩ := List.getElem?_eq_some_iff.mp first
    apply lt
  next => cases escape

/-- The bytes of the escapes from an index on, and the index behind them. -/
def runAt (bytes : Bytes) (index : ℕ) : Bytes × ℕ :=
  match _escape : escapeAt bytes index with
  | some byte =>
      let (run, stop) := runAt bytes (index + 3)
      (byte :: run, stop)
  | none => ([], index)
termination_by bytes.length - index
decreasing_by
  have lt := lt_of_escapeAt _escape
  omega

/-- The index of the next `%` behind an index, or the end. -/
def nextPercent (bytes : Bytes) (index : ℕ) : ℕ :=
  match (bytes.drop (index + 1)).findIdx? (· = percent) with
  | some offset => index + 1 + offset
  | none => bytes.length

theorem lt_nextPercent {bytes : Bytes} {index : ℕ} (lt : index < bytes.length) :
  index < nextPercent bytes index
  := by
  rw [nextPercent]
  split
  · omega
  · apply lt

theorem runAt_stop (bytes : Bytes) (index : ℕ) :
  (runAt bytes index).2 = index + 3 * (runAt bytes index).1.length
  := by
  fun_induction runAt bytes index with
  | case1 index byte escape run stop eq ih =>
    rw [eq] at ih
    dsimp only at ih ⊢
    rw [ih, List.length_cons]
    omega
  | case2 index none_ => rfl

/-- The loop of the decoder. -/
def decodeFrom (bytes : Bytes) (index : ℕ) (decoded : List Char) : Option (List Char) :=
  if _lt : index < bytes.length then
    match _run : runAt bytes index with
    | ([], _) => do
        -- Not an escape: copy up to the next `%`.
        let next := nextPercent bytes index
        let text ← Utf8.slice bytes index next
        decodeFrom bytes next (decoded ++ text)
    | (byte :: run, stop) =>
        match Utf8.text? (byte :: run) with
        | some text => decodeFrom bytes stop (decoded ++ text)
        | none => do
            let text ← Utf8.slice bytes index stop
            decodeFrom bytes stop (decoded ++ text)
  else some decoded
termination_by bytes.length - index
decreasing_by
  all_goals
    have further := lt_nextPercent _lt
    have stops := runAt_stop bytes index
    rw [_run] at stops
    simp only [List.length_nil, List.length_cons] at stops
    omega

/-- The total decoder. -/
def percentDecode (text : List Char) : Option (List Char) :=
  decodeFrom (Utf8.encode text) 0 []

end Vilan.Native.Url
