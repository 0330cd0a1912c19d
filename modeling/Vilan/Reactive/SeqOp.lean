import Vilan.Library.Replay
import Vilan.Std.List

/-!
# Sequence operations

The op vocabulary of a sequence, what an op means to the list it is about, and the one
splice that both sequence surfaces run.
-/

namespace Vilan

open Splice

/-- A sequence's change. -/
inductive SeqOp (T : Type*) where
  /-- `removed` left and `inserted` arrived, both at `pos`. -/
  | splice (pos : ℕ) (removed inserted : List T)
  /-- The element at `pos` was `was` and is now `value`. -/
  | setAt (pos : ℕ) (was value : T)
  /-- The collection became this list. -/
  | reset (items : List T)
  /-- `count` elements moved from `start` to `dest`, unchanged. -/
  | move (start count dest : ℕ)
  deriving DecidableEq, Repr

namespace SeqOp

variable {T U : Type*}

/-- What an op makes of a list. -/
def apply : SeqOp T → List T → List T
  | splice pos removed inserted, list => Splice.splice list pos removed.length inserted
  | setAt pos _ value, list => list.set pos value
  | reset items, _ => items
  | move start count dest, list => Splice.move list start count dest

/-- The positions of an op lie in the list. -/
def InRange : SeqOp T → List T → Prop
  | splice pos removed _, list => pos + removed.length ≤ list.length
  | setAt pos _ _, list => pos < list.length
  | reset _, _ => True
  | move start count dest, list =>
      start + count ≤ list.length ∧ dest ≤ list.length - count

instance : (op : SeqOp T) → (list : List T) → Decidable (op.InRange list)
  | splice pos removed _, list => inferInstanceAs (Decidable (pos + removed.length ≤ list.length))
  | setAt pos _ _, list => inferInstanceAs (Decidable (pos < list.length))
  | reset _, _ => inferInstanceAs (Decidable True)
  | move start count dest, list =>
      inferInstanceAs (Decidable (start + count ≤ list.length ∧ dest ≤ list.length - count))

/-- The op lies in the list, and what it says has left is what the list holds there. -/
def Accurate : SeqOp T → List T → Prop
  | splice pos removed _, list =>
      pos + removed.length ≤ list.length ∧ block list pos removed.length = removed
  | setAt pos was _, list => list[pos]? = some was
  | op, list => op.InRange list

theorem Accurate.inRange {op : SeqOp T} {list : List T} (h : op.Accurate list) :
  op.InRange list
  := by
  cases op with
  | splice => apply h.1
  | setAt pos =>
    obtain ⟨hlt, -⟩ := List.getElem?_eq_some_iff.mp h
    apply hlt
  | reset => trivial
  | move => apply h

/-- The list a run of ops makes of a list. -/
def replay (ops : List (SeqOp T)) (list : List T) : List T :=
  Replay.replay apply ops list

@[simp]
theorem replay_nil (list : List T) :
  replay [] list = list
  := rfl

@[simp]
theorem replay_cons (op : SeqOp T) (ops : List (SeqOp T)) (list : List T) :
  replay (op :: ops) list = replay ops (op.apply list)
  := rfl

theorem replay_append (ops more : List (SeqOp T)) (list : List T) :
  replay (ops ++ more) list = replay more (replay ops list)
  := Replay.replay_append ops more list

/-- Every op of a run is related to the list the ops before it have made. -/
def Along (P : SeqOp T → List T → Prop) (ops : List (SeqOp T)) (list : List T) : Prop :=
  Replay.Along apply P ops list

theorem along_append {P : SeqOp T → List T → Prop} {ops more : List (SeqOp T)}
    {list : List T} :
  Along P (ops ++ more) list ↔ Along P ops list ∧ Along P more (replay ops list)
  := Replay.along_append

theorem Along.mono {P Q : SeqOp T → List T → Prop} (h : ∀ op list, P op list → Q op list)
    {ops : List (SeqOp T)} {list : List T} (hops : Along P ops list) :
  Along Q ops list
  := Replay.Along.mono h hops

/-- Replaying one op, as `replay` does. -/
theorem replay_singleton (op : SeqOp T) (list : List T) :
  replay [op] list = op.apply list
  := rfl

end SeqOp

/-! ### The one splice -/

variable {T : Type*}

/-- Where a splice at `pos` starts in a sequence of `held` elements. -/
def spliceStart (held pos : ℕ) : ℕ :=
  if pos > held then held else pos

/-- How many of the `removed` asked for a splice from `start` can take. -/
def spliceCount (held start removed : ℕ) : ℕ :=
  if start + removed > held then held - start else removed

/-- Apply an already clamped splice to `list` and answer the op it made. -/
def spliceInPlace (list : List T) (start taking : ℕ) (inserted : List T) :
    Outcome (List T) (SeqOp T) :=
  match liftEach list start [] taking with
  | .panic list => .panic list
  | .done list left =>
      match insertEach list start inserted with
      | .panic list => .panic list
      | .done list () => .done list (.splice start left inserted)

theorem spliceStart_le (held pos : ℕ) :
  spliceStart held pos ≤ held
  := by
  rw [spliceStart]
  split <;> omega

theorem spliceStart_add_spliceCount_le (held pos removed : ℕ) :
  spliceStart held pos + spliceCount held (spliceStart held pos) removed ≤ held
  := by
  have := spliceStart_le held pos
  rw [spliceCount]
  split <;> omega

/-- An ask in range is not clamped. -/
theorem splice_clamp_of_le {held pos removed : ℕ} (h : pos + removed ≤ held) :
  spliceStart held pos = pos ∧ spliceCount held pos removed = removed
  := by
  rw [spliceStart, if_neg (by omega), spliceCount, if_neg (by omega)]
  exact ⟨rfl, rfl⟩

/-- A clamped splice does not panic. -/
theorem spliceInPlace_of_le {list : List T} {start taking : ℕ}
    (h : start + taking ≤ list.length) (inserted : List T) :
  spliceInPlace list start taking inserted
    = .done (splice list start taking inserted)
        (.splice start (block list start taking) inserted)
  := by
  have hlen := length_splice h []
  rw [List.length_nil, Nat.add_zero] at hlen
  rw [spliceInPlace, liftEach_of_le h]
  simp only
  rw [insertEach_of_le (by omega), List.nil_append]
  simp only
  rw [splice_splice_nil (by omega)]

/-- The op of a clamped splice is accurate, and what it makes of the list is the list the
splice leaves. -/
theorem accurate_splice {list : List T} {start taking : ℕ}
    (h : start + taking ≤ list.length) (inserted : List T) :
  (SeqOp.splice start (block list start taking) inserted).Accurate list
    ∧ splice list start taking inserted
      = (SeqOp.splice start (block list start taking) inserted).apply list
  := by
  have hlen := length_block h
  simp [SeqOp.Accurate, SeqOp.apply, hlen, h]

end Vilan
