import Vilan.Library.Checked
import Vilan.Library.Splice
import Vilan.Rpc.MirrorChannel

/-!
# The splices of a turn

A sequence that a turn wrote only by splices crosses as one splice.  The fold keeps one span in two
lists: `[start, start + was)` of the list as it was before the turn, and `[start, end)` of the list
as it is.
-/

namespace Vilan

open List Option

namespace Mirror

def sameStep : StoreStep → StoreStep → Bool
  | .field left, .field right => left == right
  | .key left, .key right => left == right
  | .field _, .key _ => false
  | .key _, .field _ => false

/-- Whether a path starts with another one. -/
def startsWith : List StoreStep → List StoreStep → Bool
  | _, [] => true
  | [], _ :: _ => false
  | step :: path, first :: start => sameStep step first && startsWith path start

/-- A splice composed onto a span. -/
def extend : ℕ × ℕ × ℕ → ℕ × ℕ × ℕ → Option (ℕ × ℕ × ℕ)
  | (start, was, end_), (pos, removed, inserted) => do
      let through := if pos + removed > end_ then pos + removed else end_
      let moved ← Checked.sub through end_
      let oldEnd := start + was + moved
      let first := if pos < start then pos else start
      let was ← Checked.sub oldEnd first
      let kept ← Checked.sub through removed
      return (first, was, kept + inserted)

/-- The span found so far with one more splice. -/
def join : Option (ℕ × ℕ × ℕ) → ℕ × ℕ × ℕ → Option (ℕ × ℕ × ℕ)
  | none, (pos, removed, inserted) => some (pos, removed, pos + inserted)
  | some span, splice => extend span splice

/-- Whether a write is at a path. -/
def writtenAt (rel path : List StoreStep) : Bool :=
  path.length == rel.length && startsWith path rel

/-- The loop of `composed` over the writes of the turn, with the span found so far. -/
def composedFrom (rel : List StoreStep) :
    List (List StoreStep × Option (ℕ × ℕ × ℕ)) → Option (ℕ × ℕ × ℕ) →
      Option (Option (ℕ × ℕ × ℕ))
  | [], found => some found
  | (path, none) :: writes, found =>
      if writtenAt rel path then some none else composedFrom rel writes found
  | (path, some splice) :: writes, found =>
      if writtenAt rel path then
        (join found splice).bind fun span => composedFrom rel writes (some span)
      else composedFrom rel writes found

/-- The splices of a turn at a path, composed into one; `none` outside is a subtraction that fails,
and `none` inside that something else was written there. -/
def composed (rels : List (List StoreStep)) (splices : List (Option (ℕ × ℕ × ℕ)))
    (rel : List StoreStep) : Option (Option (ℕ × ℕ × ℕ)) :=
  composedFrom rel (rels.zip splices) none

/-! ### Splices in their order -/

section

variable {α : Type*}

/-- The list that splices, one after the other, make of a list. -/
def spliced (list : List α) (splices : List (ℕ × ℕ × List α)) : List α :=
  splices.foldl (fun list splice => Splice.splice list splice.1 splice.2.1 splice.2.2) list

/-- Every splice is in range of the list as it stands when it is applied. -/
def InRange : List α → List (ℕ × ℕ × List α) → Prop
  | _, [] => True
  | list, (pos, removed, inserted) :: splices =>
      pos + removed ≤ list.length ∧ InRange (Splice.splice list pos removed inserted) splices

/-- What a write says of a splice: its position, and how many it removed and inserted. -/
def spliceOf (splice : ℕ × ℕ × List α) : ℕ × ℕ × ℕ :=
  (splice.1, splice.2.1, splice.2.2.length)

/-- The writes at a path are splices. -/
def Splices (rels : List (List StoreStep)) (written : List (Option (ℕ × ℕ × ℕ)))
    (rel : List StoreStep) (splices : List (ℕ × ℕ × List α)) : Prop :=
  ((rels.zip written).filter fun write => writtenAt rel write.1).map (·.2) =
    splices.map fun splice => some (spliceOf splice)

/-! ### The span -/

/-- Outside a span a list is as it was. -/
structure Spans (old now : List α) (span : ℕ × ℕ × ℕ) : Prop where
  start_le : span.1 ≤ span.2.2
  end_le : span.2.2 ≤ now.length
  was_le : span.1 + span.2.1 ≤ old.length
  before : now.take span.1 = old.take span.1
  behind : now.drop span.2.2 = old.drop (span.1 + span.2.1)

theorem drop_splice {list : List α} {pos removed n : ℕ} (inserted : List α) (le : pos + removed ≤ n)
    (in_range : pos + removed ≤ list.length) :
  (Splice.splice list pos removed inserted).drop (n - removed + inserted.length) = list.drop n
  := by
  have length : (list.take pos ++ inserted).length = pos + inserted.length := by
    rw [length_append, length_take]
    omega
  have split : n - removed + inserted.length =
      (list.take pos ++ inserted).length + (n - (pos + removed)) := by
    omega
  rw [Splice.splice, split, ← drop_drop, drop_left, drop_drop]
  congr 1
  omega

/-- One splice is its own span. -/
theorem spans_splice {list inserted : List α} {pos removed : ℕ}
    (in_range : pos + removed ≤ list.length) :
  Spans list (Splice.splice list pos removed inserted) (pos, removed, pos + inserted.length)
  := by
  constructor
  · apply Nat.le_add_right
  · dsimp only
    rw [Splice.length_splice in_range]
    omega
  · apply in_range
  · apply Splice.take_splice (by omega)
  · have := drop_splice inserted (Nat.le_refl (pos + removed)) in_range
    rw [Nat.add_sub_cancel] at this
    apply this

/-- Composing a splice onto a span does not fail, and spans both. -/
theorem extend_spans {old now inserted : List α} {span : ℕ × ℕ × ℕ} {pos removed : ℕ}
    (spans : Spans old now span) (in_range : pos + removed ≤ now.length) :
  ∃ span', extend span (pos, removed, inserted.length) = some span' ∧
    Spans old (Splice.splice now pos removed inserted) span'
  := by
  obtain ⟨start, was, end_⟩ := span
  obtain ⟨start_le, end_le, was_le, before, behind⟩ := spans
  dsimp only at start_le end_le was_le before behind
  have behind_length := congrArg List.length behind
  rw [length_drop, length_drop] at behind_length
  rw [extend]
  generalize through_eq : (if pos + removed > end_ then pos + removed else end_) = through
  generalize first_eq : (if pos < start then pos else start) = first
  have through_ge : end_ ≤ through ∧ pos + removed ≤ through ∧ through ≤ now.length := by
    split at through_eq <;> omega
  have first_le : first ≤ start ∧ first ≤ pos := by
    split at first_eq <;> omega
  obtain ⟨end_le_through, splice_le, through_le⟩ := through_ge
  obtain ⟨first_le_start, first_le_pos⟩ := first_le
  have was_ := Checked.sub_of_le (a := start + was + (through - end_)) (b := first) (by omega)
  have kept := Checked.sub_of_le (a := through) (b := removed) (by omega)
  refine ⟨(first, start + was + (through - end_) - first, through - removed + inserted.length), ?_, ?_⟩
  · simp only [Checked.sub_of_le end_le_through, was_, kept, bind_eq_bind, bind_some,
      Option.pure_def]
  constructor
  · dsimp only
    omega
  · dsimp only
    rw [Splice.length_splice in_range]
    omega
  · dsimp only
    omega
  · dsimp only
    rw [Splice.take_splice_of_le (by omega) first_le_pos]
    have := congrArg (List.take first) before
    rw [take_take, take_take, Nat.min_eq_left first_le_start] at this
    apply this
  · dsimp only
    rw [drop_splice _ splice_le in_range]
    have := congrArg (List.drop (through - end_)) behind
    rw [drop_drop, drop_drop, Nat.add_sub_cancel' end_le_through] at this
    rw [this]
    congr 1
    omega

/-! ### The fold -/

/-- From a span on, the fold does not fail and spans all the splices. -/
theorem composedFrom_spans {rel : List StoreStep} {old : List α}
    (writes : List (List StoreStep × Option (ℕ × ℕ × ℕ))) (splices : List (ℕ × ℕ × List α))
    (now : List α) (span : ℕ × ℕ × ℕ)
    (at_ : (writes.filter fun write => writtenAt rel write.1).map (·.2) =
      splices.map fun splice => some (spliceOf splice))
    (in_range : InRange now splices) (spans : Spans old now span) :
  ∃ span', composedFrom rel writes (some span) = some (some span') ∧
    Spans old (spliced now splices) span'
  := by
  induction writes generalizing splices now span with
  | nil =>
    rw [filter_nil, map_nil, eq_comm, map_eq_nil_iff] at at_
    subst at_
    use span, rfl
    apply spans
  | cons write writes ih =>
    obtain ⟨path, splice⟩ := write
    by_cases here : writtenAt rel path = true
    · rw [filter_cons, if_pos here, map_cons] at at_
      cases splices with
      | nil => cases at_
      | cons first splices =>
        obtain ⟨pos, removed, inserted⟩ := first
        rw [map_cons, List.cons.injEq] at at_
        obtain ⟨rfl, at_⟩ := at_
        obtain ⟨first_in_range, in_range⟩ := in_range
        obtain ⟨span', extended, spans'⟩ := extend_spans spans first_in_range
        obtain ⟨span'', composed_, spans''⟩ := ih splices _ span' at_ in_range spans'
        use span''
        constructor
        · rw [composedFrom, if_pos here, join, spliceOf, extended, bind_some]
          apply composed_
        · apply spans''
    · rw [filter_cons, if_neg here] at at_
      obtain ⟨span', composed_, spans'⟩ := ih splices now span at_ in_range spans
      use span'
      constructor
      · cases splice with
        | none =>
          rw [composedFrom, if_neg here]
          apply composed_
        | some splice =>
          rw [composedFrom, if_neg here]
          apply composed_
      · apply spans'

/-- The splices of a turn at a path, each in range of the list as it stood, compose into one span:
no subtraction fails, the span lies in both lists, and putting its part of the new list in the place
of its part of the old one gives the new list. -/
theorem composed_splices {rels : List (List StoreStep)} {written : List (Option (ℕ × ℕ × ℕ))}
    {rel : List StoreStep} {splices : List (ℕ × ℕ × List α)} (list : List α)
    (writes : Splices rels written rel splices) (nonempty : splices ≠ [])
    (in_range : InRange list splices) :
  ∃ start was end_, composed rels written rel = some (some (start, was, end_)) ∧
    start ≤ end_ ∧ end_ ≤ (spliced list splices).length ∧ start + was ≤ list.length ∧
      Splice.splice list start was (Splice.block (spliced list splices) start (end_ - start)) =
        spliced list splices
  := by
  suffices ∃ span, composed rels written rel = some (some span) ∧
      Spans list (spliced list splices) span by
    obtain ⟨⟨start, was, end_⟩, eq, spans⟩ := this
    use start, was, end_, eq, spans.start_le, spans.end_le, spans.was_le
    have whole := Splice.append_block_append (spliced list splices) start (end_ - start)
    rw [Nat.add_sub_cancel' spans.start_le, spans.before, spans.behind] at whole
    apply whole
  rw [composed]
  rw [Splices] at writes
  generalize rels.zip written = entries at writes ⊢
  -- what stands in front of the first splice is written elsewhere
  induction entries with
  | nil =>
    rw [filter_nil, map_nil, eq_comm, map_eq_nil_iff] at writes
    apply absurd writes nonempty
  | cons entry entries ih =>
    obtain ⟨path, splice⟩ := entry
    by_cases here : writtenAt rel path = true
    · rw [filter_cons, if_pos here, map_cons] at writes
      cases splices with
      | nil => apply absurd rfl nonempty
      | cons first splices =>
        obtain ⟨pos, removed, inserted⟩ := first
        rw [map_cons, List.cons.injEq] at writes
        obtain ⟨rfl, writes⟩ := writes
        rw [composedFrom, if_pos here, join, spliceOf, bind_some]
        apply composedFrom_spans entries splices _ _ writes in_range.2
        apply spans_splice in_range.1
    · rw [filter_cons, if_neg here] at writes
      cases splice with
      | none =>
        rw [composedFrom, if_neg here]
        apply ih writes
      | some splice =>
        rw [composedFrom, if_neg here]
        apply ih writes

end

/-- A removal, an insertion across its place and a removal in front of it, with a write elsewhere
between them. -/
theorem composed_three :
  ∃ start was end_,
    composed [[.field 0], [.field 0], [.field 1], [.field 0]]
      [some (2, 2, 0), some (1, 2, 1), none, some (0, 1, 2)] [.field 0] =
        some (some (start, was, end_)) ∧
    start ≤ end_ ∧ end_ ≤ (spliced [1, 2, 3, 4, 5] [(2, 2, []), (1, 2, [9]), (0, 1, [7, 8])]).length ∧
    start + was ≤ [1, 2, 3, 4, 5].length ∧
      Splice.splice [1, 2, 3, 4, 5] start was
        (Splice.block (spliced [1, 2, 3, 4, 5] [(2, 2, []), (1, 2, [9]), (0, 1, [7, 8])]) start
          (end_ - start)) =
        spliced [1, 2, 3, 4, 5] [(2, 2, []), (1, 2, [9]), (0, 1, [7, 8])]
  := by
  apply composed_splices [1, 2, 3, 4, 5]
  · rfl
  · decide
  · exact ⟨by decide, by decide, by decide, trivial⟩

end Mirror

end Vilan
