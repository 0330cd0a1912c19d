import Mathlib.Tactic

/-!
# Chains

Positions threaded together by a list that says, for each of them, which one follows.  A search
along a chain finds what a search of its positions finds.
-/

namespace Chains

open List

/-- What is reached from `start` are the positions of the chain, in its order. -/
def Linked (next : List (Option ℕ)) : Option ℕ → List ℕ → Prop
  | start, [] => start = none
  | start, pos :: chain => start = some pos ∧ ∃ after, next[pos]? = some after ∧ Linked next after chain

/-- Go along a chain to the first position at which `stop` says so.  It fails where `stop` or the
chain does, and where the fuel ends. -/
def follow (next : List (Option ℕ)) (stop : ℕ → Option Bool) : ℕ → Option ℕ → Option (Option ℕ)
  | 0, _ => none
  | _ + 1, none => some none
  | fuel + 1, some pos => (stop pos).bind fun stops =>
      if stops then some (some pos) else next[pos]?.bind (follow next stop fuel)

variable {chain : List ℕ} {next : List (Option ℕ)} {pos : ℕ} {start : Option ℕ}

theorem Linked.set (linked : Linked next start chain) (outside : pos ∉ chain) (value : Option ℕ) :
  Linked (next.set pos value) start chain
  := by
  induction chain generalizing start with
  | nil => apply linked
  | cons first chain ih =>
    rw [mem_cons, not_or] at outside
    obtain ⟨here, after, found, rest⟩ := linked
    use here, after
    rw [getElem?_set_ne outside.1]
    use found
    apply ih rest outside.2

/-- A chain with a position before it. -/
theorem Linked.cons {after : Option ℕ} (linked : Linked next after chain)
    (bound : pos < next.length) (outside : pos ∉ chain) :
  Linked (next.set pos after) (some pos) (pos :: chain)
  := by
  use rfl, after
  rw [getElem?_set_self bound]
  use rfl
  apply linked.set outside

/-- With enough fuel the first position is found. -/
theorem follow_eq {stop : ℕ → Option Bool} {stops : ℕ → Bool} (linked : Linked next start chain)
    (known : ∀ pos ∈ chain, stop pos = some (stops pos)) {fuel : ℕ} (enough : chain.length < fuel) :
  follow next stop fuel start = some (chain.find? stops)
  := by
  induction chain generalizing start fuel with
  | nil =>
    obtain ⟨fuel, rfl⟩ := Nat.exists_eq_succ_of_ne_zero (Nat.ne_zero_of_lt enough)
    rw [linked]
    rfl
  | cons pos chain ih =>
    obtain ⟨fuel, rfl⟩ := Nat.exists_eq_succ_of_ne_zero (Nat.ne_zero_of_lt enough)
    obtain ⟨rfl, after, found, rest⟩ := linked
    rw [follow, known pos mem_cons_self, Option.bind_some, find?_cons]
    cases stops pos with
    | true => rfl
    | false =>
      rw [if_neg Bool.false_ne_true, found, Option.bind_some]
      apply ih rest
      · intro other mem
        apply known other (mem_cons_of_mem pos mem)
      · apply Nat.lt_of_succ_lt_succ enough

/-- From the position found the rest of the chain is reached. -/
theorem Linked.find (linked : Linked next start chain) (stops : ℕ → Bool) :
  Linked next (chain.find? stops) (chain.dropWhile fun pos => !stops pos)
  := by
  induction chain generalizing start with
  | nil => rfl
  | cons pos chain ih =>
    obtain ⟨rfl, after, found, rest⟩ := linked
    rw [find?_cons, dropWhile_cons]
    cases stops pos with
    | true => exact ⟨rfl, after, found, rest⟩
    | false => apply ih rest

/-! ### The positions that hold a value -/

variable {H : Type*} [DecidableEq H]

/-- The positions from `start` on at which a list holds `value`. -/
def holding (list : List H) (value : H) (start : ℕ) : List ℕ :=
  (List.range' start (list.length - start)).filter fun pos => list[pos]? = some value

variable {list : List H}

theorem mem_holding {value : H} {start : ℕ} :
  pos ∈ holding list value start ↔ start ≤ pos ∧ list[pos]? = some value
  := by
  rw [holding, mem_filter, mem_range'_1, decide_eq_true_iff]
  constructor
  · rintro ⟨⟨le, _⟩, held⟩
    use le, held
  · rintro ⟨le, held⟩
    obtain ⟨lt, _⟩ := List.getElem?_eq_some_iff.mp held
    use ⟨le, by omega⟩, held

theorem holding_of_le {start : ℕ} (le : list.length ≤ start) (value : H) :
  holding list value start = []
  := by
  rw [holding, Nat.sub_eq_zero_of_le le]
  rfl

/-- A position holds one value. -/
theorem holding_step {start : ℕ} {held : H} (at_ : list[start]? = some held) (value : H) :
  holding list value start
    = if held = value then start :: holding list value (start + 1) else holding list value (start + 1)
  := by
  obtain ⟨lt, _⟩ := List.getElem?_eq_some_iff.mp at_
  have count : list.length - start = (list.length - (start + 1)) + 1 := by omega
  rw [holding, count, range'_succ, filter_cons, at_]
  simp only [Option.some_inj, decide_eq_true_eq]
  rfl

theorem length_holding_le (list : List H) (value : H) (start : ℕ) :
  (holding list value start).length ≤ list.length - start
  := by
  have le := length_filter_le (fun pos => decide (list[pos]? = some value))
    (List.range' start (list.length - start))
  rw [length_range'] at le
  apply le

/-- The first position that holds the value and passes a test is the first of all positions that
does both. -/
theorem find?_holding (list : List H) (value : H) (test : ℕ → Bool) :
  (holding list value 0).find? test
    = (List.range list.length).find? fun pos => decide (list[pos]? = some value) && test pos
  := by
  rw [holding, Nat.sub_zero, ← range_eq_range', find?_filter]
  congr 1
  funext pos
  rw [Bool.decide_and, Bool.decide_eq_true, Bool.decide_eq_true]

end Chains
