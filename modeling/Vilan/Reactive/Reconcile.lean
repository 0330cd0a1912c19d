import Vilan.Library.Chains
import Vilan.Library.Table

/-!
# Keyed reconciliation

A keyed row set is aligned with a new list: each new item claims an old row of its key, once, and
the rows that nobody claims are gone.  The rows are found through an index by the hash of the key,
whose chains are threaded through the old list; the plan is that of the plain scan.
-/

namespace Vilan

open List Option Chains

/-- What becomes of one new item. -/
inductive RowStep where
  /-- The old row at this index stays as it is. -/
  | keep (old : ℕ)
  /-- The old row at this index changed. -/
  | refresh (old : ℕ)
  /-- No old row has the key. -/
  | fresh
  deriving DecidableEq, Repr

/-- The old index of a step. -/
def RowStep.old : RowStep → Option ℕ
  | keep old => some old
  | refresh old => some old
  | fresh => none

/-- A step for each new item, in the new order, and the old indices whose rows are gone. -/
structure ReconcilePlan where
  steps : List RowStep
  removed : List ℕ
  deriving DecidableEq, Repr

namespace Reconcile

variable {T K H : Type*} [BEq K] [DecidableEq H]

/-- The index of a pass: the first old position of each hash, and for each old position the next
one of its hash. -/
structure Index (H : Type*) where
  first : Table H ℕ
  next : List (Option ℕ)

/-- What a pass changes as it goes: which old rows are claimed, and the heads of the chains. -/
structure Pass (H : Type*) where
  claimed : List Bool
  first : Table H ℕ

section

variable (hash : K → H) (same : T → T → Bool) (fuel : ℕ)

/-- The loop that builds the index, down from the last position. -/
def build (oldKeys : List K) : ℕ → Index H → Option (Index H)
  | 0, index => some index
  | pos + 1, index => oldKeys[pos]?.bind fun key =>
      build oldKeys pos
        { first := index.first.insert (hash key) pos
          next := index.next.set pos (index.first.get (hash key)) }

/-- Whether a position is not claimed. -/
def free (claimed : List Bool) (pos : ℕ) : Option Bool :=
  claimed[pos]?.map fun taken => !taken

/-- Whether a position is not claimed and holds the key. -/
def matched (oldKeys : List K) (claimed : List Bool) (key : K) (pos : ℕ) : Option Bool :=
  claimed[pos]?.bind fun taken =>
    if taken then some false else oldKeys[pos]?.map fun old => old == key

/-- The head of a chain, moved: a chain that ended leaves the index. -/
def rehead (first : Table H ℕ) (canonical : H) : Option ℕ → Table H ℕ
  | some pos => first.insert canonical pos
  | none => first.remove canonical

/-- One item: the head of its chain goes past what is claimed, and the chain is searched for the
key. -/
def claim (oldKeys : List K) (oldItems : List T) (next : List (Option ℕ)) (key : K) (item : T)
    (pass : Pass H) : Option (RowStep × Pass H) :=
  (follow next (free pass.claimed) fuel (pass.first.get (hash key))).bind fun head =>
  let first := rehead pass.first (hash key) head
  (follow next (matched oldKeys pass.claimed key) fuel head).bind fun found =>
  match found with
  | some pos => oldItems[pos]?.map fun old =>
      (if same old item then .keep pos else .refresh pos,
        { claimed := pass.claimed.set pos true, first })
  | none => some (.fresh, { pass with first })

/-- The items in order. -/
def claimEach (oldKeys : List K) (oldItems : List T) (next : List (Option ℕ)) (keyOf : T → K) :
    List T → Pass H → Option (List RowStep × Pass H)
  | [], pass => some ([], pass)
  | item :: items, pass =>
      (claim hash same fuel oldKeys oldItems next (keyOf item) item pass).bind fun claimed =>
      (claimEach oldKeys oldItems next keyOf items claimed.2).map fun rest =>
        (claimed.1 :: rest.1, rest.2)

/-- The positions from `index` on that are not claimed. -/
def unclaimedFrom (claimed : List Bool) (index held : ℕ) : Option (List ℕ) :=
  if _h : index < held then
    claimed[index]?.bind fun taken => (unclaimedFrom claimed (index + 1) held).map fun rest =>
      if taken then rest else index :: rest
  else some []
termination_by held - index

/-- The plan for a pass.  It fails where an index is out of bounds, and where a walk along a chain
does not end within the fuel. -/
def reconcile (oldKeys : List K) (oldItems items : List T) (keyOf : T → K) : Option ReconcilePlan :=
  (build hash oldKeys oldKeys.length
    { first := Table.empty, next := oldKeys.map fun _ => none }).bind fun index =>
  (claimEach hash same fuel oldKeys oldItems index.next keyOf items
    { claimed := oldKeys.map fun _ => false, first := index.first }).bind fun pass =>
  (unclaimedFrom pass.2.claimed 0 oldKeys.length).map fun removed => { steps := pass.1, removed }

end

/-! ### The plain scan -/

section

variable (same : T → T → Bool) (keyOf : T → K)

/-- Whether an old index is not claimed and has the key. -/
def claimable (old : List (K × T)) (claimed : List ℕ) (key : K) (pos : ℕ) : Bool :=
  decide (pos ∉ claimed) && old[pos]?.any fun row => row.1 == key

/-- The smallest old index that is not claimed and whose key is this one, with its item. -/
def scan (old : List (K × T)) (claimed : List ℕ) (key : K) : Option (ℕ × T) :=
  ((List.range old.length).find? (claimable old claimed key)).bind fun pos =>
  old[pos]?.map fun row => (pos, row.2)

/-- The steps of the items in order, and the indices they claim. -/
def scanEach (old : List (K × T)) : List T → List ℕ → List RowStep × List ℕ
  | [], claimed => ([], claimed)
  | item :: items, claimed =>
      match scan old claimed (keyOf item) with
      | some (pos, was) =>
          let rest := scanEach old items (claimed ++ [pos])
          ((if same was item then .keep pos else .refresh pos) :: rest.1, rest.2)
      | none =>
          let rest := scanEach old items claimed
          (.fresh :: rest.1, rest.2)

/-- The plan of the plain scan: the claims in order, and what nobody claims. -/
def scanPlan (old : List (K × T)) (items : List T) : ReconcilePlan :=
  let claims := scanEach same keyOf old items []
  { steps := claims.1
    removed := (List.range old.length).filter fun pos => decide (pos ∉ claims.2) }

end

/-! ### The index -/

section

variable {hash : K → H} {old : List (K × T)}

/-- The hashes of the old keys. -/
def hashes (hash : K → H) (old : List (K × T)) : List H :=
  old.map fun row => hash row.1

variable {pos fuel : ℕ} {claimed : List ℕ} {next : List (Option ℕ)}

omit [BEq K] in
/-- The built index has, for each hash, the chain of all positions that hold it. -/
theorem build_spec (index : Index H) (le : pos ≤ old.length)
    (length : index.next.length = old.length)
    (linked : ∀ h, Linked index.next (index.first.get h) (holding (hashes hash old) h pos)) :
  ∃ built, build hash (old.map Prod.fst) pos index = some built ∧
    ∀ h, Linked built.next (built.first.get h) (holding (hashes hash old) h 0)
  := by
  induction pos generalizing index with
  | zero => use index, rfl, linked
  | succ pos ih =>
    have lt : pos < old.length := le
    have row : (old.map Prod.fst)[pos]? = some old[pos].1 := by
      rw [getElem?_map, getElem?_eq_getElem lt, map_some]
    have held : (hashes hash old)[pos]? = some (hash old[pos].1) := by
      rw [hashes, getElem?_map, getElem?_eq_getElem lt, map_some]
    rw [build, row, bind_some]
    apply ih _ (Nat.le_of_lt lt)
    · rw [length_set, length]
    · intro h
      have outside : pos ∉ holding (hashes hash old) h (pos + 1) := by
        rw [mem_holding]
        omega
      rw [holding_step held, Table.get_insert]
      by_cases here : hash old[pos].1 = h
      · rw [if_pos here, if_pos here.symm, here]
        apply (linked h).cons _ outside
        rw [length]
        apply lt
      · rw [if_neg here, if_neg (Ne.symm here)]
        apply (linked h).set outside

/-- The flags mark what is claimed. -/
def Marks (old : List (K × T)) (flags : List Bool) (claimed : List ℕ) : Prop :=
  flags.length = old.length ∧
    ∀ pos, pos < old.length → flags[pos]? = some (decide (pos ∈ claimed))

omit [BEq K] in
theorem Marks.claim {flags : List Bool} (marks : Marks old flags claimed) (lt : pos < old.length) :
  Marks old (flags.set pos true) (claimed ++ [pos])
  := by
  constructor
  · rw [length_set, marks.1]
  · intro other lt'
    by_cases here : pos = other
    · subst here
      rw [getElem?_set_self (by rw [marks.1]; apply lt), decide_eq_true]
      rw [mem_append]
      right
      apply mem_singleton_self
    · rw [getElem?_set_ne here, marks.2 other lt']
      have other_ne : other ≠ pos := Ne.symm here
      simp only [mem_append, mem_singleton, other_ne, or_false]

/-! ### One item -/

omit [BEq K] in
theorem get_rehead (first : Table H ℕ) (canonical other : H) (head : Option ℕ) :
  (rehead first canonical head).get other = if other = canonical then head else first.get other
  := by
  cases head with
  | none => rw [rehead, Table.get_remove]
  | some pos => rw [rehead, Table.get_insert]

/-- A chain of a hash: what it lacks of the positions of the hash is claimed. -/
structure Chain (hash : K → H) (old : List (K × T)) (next : List (Option ℕ)) (claimed : List ℕ)
    (canonical : H) (head : Option ℕ) (dropped chain : List ℕ) : Prop where
  split : holding (hashes hash old) canonical 0 = dropped ++ chain
  linked : Linked next head chain
  gone : ∀ pos ∈ dropped, pos ∈ claimed

/-- All positions of the hash of a key are searched where all positions are, since the hash agrees
with the equality. -/
theorem find?_claimable (agree : ∀ a b : K, (a == b) = true → hash a = hash b) (claimed : List ℕ)
    (key : K) :
  (holding (hashes hash old) (hash key) 0).find? (claimable old claimed key)
    = (List.range old.length).find? (claimable old claimed key)
  := by
  rw [find?_holding, hashes, length_map]
  congr 1
  funext pos
  rw [getElem?_map]
  cases found : old[pos]? with
  | none =>
    rw [claimable, found]
    simp
  | some row =>
    rw [claimable, found, map_some, any_some]
    cases equal : row.1 == key with
    | false => rw [Bool.and_false, Bool.and_false]
    | true => rw [agree row.1 key equal, decide_eq_true rfl, Bool.true_and]

section

variable {next : List (Option ℕ)} {flags : List Bool} {claimed : List ℕ} {canonical : H}
  {head : Option ℕ} {dropped chain : List ℕ}

omit [BEq K] in
theorem Chain.bound (held : Chain hash old next claimed canonical head dropped chain) :
  (∀ pos ∈ chain, pos < old.length) ∧ chain.length ≤ old.length
  := by
  constructor
  · intro pos mem
    have mem' : pos ∈ holding (hashes hash old) canonical 0 := by
      rw [held.split]
      apply mem_append_right dropped mem
    rw [mem_holding] at mem'
    obtain ⟨lt, _⟩ := List.getElem?_eq_some_iff.mp mem'.2
    rw [hashes, length_map] at lt
    apply lt
  · have le := length_holding_le (hashes hash old) canonical 0
    rw [held.split, length_append, hashes, length_map] at le
    omega

omit [BEq K] in
/-- The head of a chain goes past what is claimed. -/
theorem Chain.advance (held : Chain hash old next claimed canonical head dropped chain)
    (marks : Marks old flags claimed) {fuel : ℕ} (enough : old.length < fuel) :
  ∃ head' dropped' chain', follow next (free flags) fuel head = some head' ∧
    Chain hash old next claimed canonical head' dropped' chain'
  := by
  obtain ⟨bound, short⟩ := held.bound
  have known : ∀ pos ∈ chain, free flags pos = some (decide (pos ∉ claimed)) := by
    intro pos mem
    rw [free, marks.2 pos (bound pos mem), map_some, decide_not]
  refine ⟨_, dropped ++ chain.takeWhile fun pos => !decide (pos ∉ claimed), _,
    follow_eq held.linked known (by omega), ?_, held.linked.find _, ?_⟩
  · rw [append_assoc, takeWhile_append_dropWhile, held.split]
  · intro pos mem
    rw [mem_append] at mem
    rcases mem with mem | mem
    · apply held.gone pos mem
    · have taken := all_takeWhile (p := fun pos => !decide (pos ∉ claimed)) (l := chain)
      rw [List.all_eq_true] at taken
      have taken := taken pos mem
      rw [decide_not, Bool.not_not, decide_eq_true_iff] at taken
      apply taken

/-- Searching a chain finds what the scan finds. -/
theorem Chain.search {key : K} (held : Chain hash old next claimed (hash key) head dropped chain)
    (agree : ∀ a b : K, (a == b) = true → hash a = hash b) (marks : Marks old flags claimed)
    {fuel : ℕ} (enough : old.length < fuel) :
  follow next (matched (old.map Prod.fst) flags key) fuel head
    = some ((List.range old.length).find? (claimable old claimed key))
  := by
  obtain ⟨bound, short⟩ := held.bound
  have known : ∀ pos ∈ chain, matched (old.map Prod.fst) flags key pos
      = some (claimable old claimed key pos) := by
    intro pos mem
    have lt := bound pos mem
    rw [matched, marks.2 pos lt, bind_some, claimable, getElem?_map,
      getElem?_eq_getElem lt, map_some, map_some, any_some]
    by_cases taken : pos ∈ claimed
    · rw [decide_eq_true taken, if_pos rfl, decide_eq_false (not_not_intro taken), Bool.false_and]
    · rw [decide_eq_false taken, if_neg Bool.false_ne_true, decide_eq_true taken, Bool.true_and]
  have skipped : dropped.find? (claimable old claimed key) = none := by
    rw [find?_eq_none]
    intro pos mem
    rw [claimable, decide_eq_false (not_not_intro (held.gone pos mem)), Bool.false_and]
    apply Bool.false_ne_true
  rw [follow_eq held.linked known (by omega), ← find?_claimable agree, held.split,
    find?_append, skipped, none_or]

end

/-- Every hash has its chain. -/
def Chained (hash : K → H) (old : List (K × T)) (next : List (Option ℕ)) (first : Table H ℕ)
    (claimed : List ℕ) : Prop :=
  ∀ canonical, ∃ dropped chain,
    Chain hash old next claimed canonical (first.get canonical) dropped chain

omit [BEq K] in
theorem Chained.claim {first : Table H ℕ} (chained : Chained hash old next first claimed)
    (pos : ℕ) :
  Chained hash old next first (claimed ++ [pos])
  := by
  intro canonical
  obtain ⟨dropped, chain, held⟩ := chained canonical
  use dropped, chain, held.split, held.linked
  intro other mem
  apply mem_append_left [pos] (held.gone other mem)

/-- An item claims what the scan finds for it, and the chains drop only what is claimed. -/
theorem claim_spec (same : T → T → Bool) {pass : Pass H}
    (agree : ∀ a b : K, (a == b) = true → hash a = hash b) (enough : old.length < fuel)
    (chained : Chained hash old next pass.first claimed) (marks : Marks old pass.claimed claimed)
    (key : K) (item : T) :
  ∃ first, Chained hash old next first claimed ∧
    claim hash same fuel (old.map Prod.fst) (old.map Prod.snd) next key item pass
      = some (match scan old claimed key with
        | some (pos, was) => (if same was item then .keep pos else .refresh pos,
            { claimed := pass.claimed.set pos true, first })
        | none => (.fresh, { pass with first }))
  := by
  obtain ⟨dropped, chain, held⟩ := chained (hash key)
  obtain ⟨head, dropped', chain', advanced, held'⟩ := held.advance marks enough
  use rehead pass.first (hash key) head
  constructor
  · intro canonical
    rw [get_rehead]
    split
    next here =>
      rw [here]
      exact ⟨dropped', chain', held'⟩
    next => apply chained canonical
  · rw [Reconcile.claim, advanced, bind_some, held'.search agree marks enough, bind_some, scan]
    cases first : (List.range old.length).find? (claimable old claimed key) with
    | none => rfl
    | some pos =>
      have lt := mem_range.mp (mem_of_find?_eq_some first)
      have row : (old.map Prod.snd)[pos]? = some old[pos].2 := by
        rw [getElem?_map, getElem?_eq_getElem lt, map_some]
      rw [bind_some, getElem?_eq_getElem lt, map_some]
      dsimp only
      rw [row, map_some]

omit [DecidableEq H] in
/-- What the scan finds is not claimed. -/
theorem scan_spec {key : K} {was : T} (found : scan old claimed key = some (pos, was)) :
  pos < old.length ∧ pos ∉ claimed ∧ ∃ row, old[pos]? = some row ∧ row.2 = was ∧
    (row.1 == key) = true
  := by
  rw [scan, bind_eq_some_iff] at found
  obtain ⟨pos', first, row⟩ := found
  rw [map_eq_some_iff] at row
  obtain ⟨row, held, same⟩ := row
  rw [Prod.mk.injEq] at same
  obtain ⟨rfl, rfl⟩ := same
  use mem_range.mp (mem_of_find?_eq_some first)
  have passes := find?_some first
  rw [claimable, held, any_some, Bool.and_eq_true, decide_eq_true_iff] at passes
  use passes.1, row, held, rfl, passes.2

/-- The items claim what the scan finds for them. -/
theorem claimEach_spec (same : T → T → Bool) (keyOf : T → K) (items : List T) (pass : Pass H)
    (agree : ∀ a b : K, (a == b) = true → hash a = hash b) (enough : old.length < fuel)
    (chained : Chained hash old next pass.first claimed) (marks : Marks old pass.claimed claimed) :
  ∃ pass', claimEach hash same fuel (old.map Prod.fst) (old.map Prod.snd) next keyOf items pass
      = some ((scanEach same keyOf old items claimed).1, pass') ∧
    Marks old pass'.claimed (scanEach same keyOf old items claimed).2
  := by
  induction items generalizing pass claimed with
  | nil => exact ⟨pass, rfl, marks⟩
  | cons item items ih =>
    obtain ⟨first, chained', done⟩ := claim_spec same agree enough chained marks
      (keyOf item) item
    rw [claimEach, done, bind_some, scanEach]
    cases found : scan old claimed (keyOf item) with
    | none =>
      obtain ⟨pass', rest, marks'⟩ := ih { pass with first } chained' marks
      refine ⟨pass', ?_, marks'⟩
      rw [rest]
      rfl
    | some claimant =>
      obtain ⟨pos, was⟩ := claimant
      obtain ⟨lt, _⟩ := scan_spec found
      obtain ⟨pass', rest, marks'⟩ :=
        ih { claimed := pass.claimed.set pos true, first } (chained'.claim pos)
          (marks.claim lt)
      refine ⟨pass', ?_, marks'⟩
      rw [rest]
      rfl

/-! ### The plan -/

omit [BEq K] [DecidableEq H] in
theorem unclaimedFrom_eq {flags : List Bool} (marks : Marks old flags claimed) (start : ℕ) :
  unclaimedFrom flags start old.length
    = some ((List.range' start (old.length - start)).filter fun pos => decide (pos ∉ claimed))
  := by
  fun_induction unclaimedFrom flags start old.length with
  | case1 start lt ih =>
    have count : old.length - start = (old.length - (start + 1)) + 1 := by omega
    rw [marks.2 start lt, bind_some, ih, map_some, count, range'_succ, filter_cons, decide_not]
    cases decide (start ∈ claimed) with
    | true => rfl
    | false => rfl
  | case2 start not_lt =>
    have count : old.length - start = 0 := by omega
    rw [count]
    rfl

/-- The indexed pass makes the plan of the plain scan. -/
theorem reconcile_eq_scanPlan (same : T → T → Bool) (keyOf : T → K)
    (agree : ∀ a b : K, (a == b) = true → hash a = hash b) (enough : old.length < fuel)
    (items : List T) :
  reconcile hash same fuel (old.map Prod.fst) (old.map Prod.snd) items keyOf
    = some (scanPlan same keyOf old items)
  := by
  have linked : ∀ h, Linked ((old.map Prod.fst).map fun _ => none)
      ((Table.empty : Table H ℕ).get h) (holding (hashes hash old) h old.length) := by
    intro h
    rw [holding_of_le (by rw [hashes, length_map]), Table.get_empty]
    rfl
  obtain ⟨built, done, linked⟩ := build_spec
    { first := Table.empty, next := (old.map Prod.fst).map fun _ => none } (Nat.le_refl old.length)
    (by rw [length_map, length_map]) linked
  have chained : Chained hash old built.next built.first [] := by
    intro canonical
    use [], holding (hashes hash old) canonical 0, rfl, linked canonical
    intro pos mem
    cases mem
  have marks : Marks old ((old.map Prod.fst).map fun _ => false) [] := by
    constructor
    · rw [length_map, length_map]
    · intro pos lt
      rw [getElem?_map, getElem?_map, getElem?_eq_getElem lt]
      rfl
  obtain ⟨pass, claims, marks'⟩ := claimEach_spec same keyOf items
    { claimed := (old.map Prod.fst).map fun _ => false, first := built.first } agree enough chained
    marks
  rw [reconcile, length_map, done, bind_some, claims, bind_some,
    unclaimedFrom_eq marks' 0, map_some, Nat.sub_zero, ← range_eq_range', scanPlan]

/-! ### What the scan claims -/

/-- The old indices of the steps are what the items claim, each once. -/
theorem scanEach_spec (same : T → T → Bool) (keyOf : T → K) (items : List T) (nodup : claimed.Nodup)
    (bound : ∀ pos ∈ claimed, pos < old.length) :
  (scanEach same keyOf old items claimed).2
      = claimed ++ (scanEach same keyOf old items claimed).1.filterMap RowStep.old ∧
    (scanEach same keyOf old items claimed).2.Nodup ∧
    ∀ pos ∈ (scanEach same keyOf old items claimed).2, pos < old.length
  := by
  induction items generalizing claimed with
  | nil =>
    rw [scanEach]
    use (append_nil claimed).symm, nodup, bound
  | cons item items ih =>
    rw [scanEach]
    cases found : scan old claimed (keyOf item) with
    | none => apply ih nodup bound
    | some claimant =>
      obtain ⟨pos, was⟩ := claimant
      obtain ⟨lt, free, _⟩ := scan_spec found
      have nodup' : (claimed ++ [pos]).Nodup := by
        rw [nodup_append_comm]
        apply List.Nodup.cons free nodup
      have bound' : ∀ other ∈ claimed ++ [pos], other < old.length := by
        intro other mem
        rw [mem_append, mem_singleton] at mem
        rcases mem with mem | rfl
        · apply bound other mem
        · apply lt
      obtain ⟨claims, rest⟩ := ih nodup' bound'
      refine ⟨?_, rest⟩
      dsimp only
      rw [claims, append_assoc]
      split <;> rfl

/-- The steps and the removals of the plain scan name each old index once. -/
theorem scanPlan_perm (same : T → T → Bool) (keyOf : T → K) (old : List (K × T)) (items : List T) :
  ((scanPlan same keyOf old items).steps.filterMap RowStep.old
      ++ (scanPlan same keyOf old items).removed).Perm (List.range old.length)
  := by
  have bound : ∀ pos ∈ ([] : List ℕ), pos < old.length := by
    intro pos mem
    cases mem
  obtain ⟨claims, nodup, bound⟩ := scanEach_spec same keyOf items nodup_nil bound
  rw [scanPlan]
  dsimp only
  rw [← nil_append (List.filterMap _ _), ← claims]
  have taken : (scanEach same keyOf old items []).2.Perm
      ((List.range old.length).filter fun pos =>
        !decide (pos ∉ (scanEach same keyOf old items []).2)) := by
    rw [perm_ext_iff_of_nodup nodup (List.nodup_range.filter _)]
    intro pos
    rw [mem_filter, mem_range, decide_not, Bool.not_not, decide_eq_true_iff]
    constructor
    · intro mem
      use bound pos mem, mem
    · intro mem
      apply mem.2
  apply (taken.append_right _).trans
  apply perm_append_comm.trans
  apply filter_append_perm

omit [DecidableEq H] in
/-- The scan goes no further than the first index it may claim. -/
theorem scan_le {key : K} {row : K × T} (held : old[pos]? = some row) (free : pos ∉ claimed)
    (equal : (row.1 == key) = true) :
  ∃ first was, scan old claimed key = some (first, was) ∧ first ≤ pos
  := by
  obtain ⟨lt, _⟩ := List.getElem?_eq_some_iff.mp held
  have passes : claimable old claimed key pos = true := by
    rw [claimable, held, any_some, Bool.and_eq_true, decide_eq_true_iff]
    use free, equal
  cases found : (List.range old.length).find? (claimable old claimed key) with
  | none =>
    rw [find?_eq_none] at found
    exact absurd passes (found pos (mem_range.mpr lt))
  | some first =>
    have lt' := mem_range.mp (mem_of_find?_eq_some found)
    use first, old[first].2
    rw [scan, found, bind_some, getElem?_eq_getElem lt']
    use rfl
    by_contra beyond
    rw [find?_range_eq_some] at found
    have none_ := found.2.2 pos (Nat.lt_of_not_le beyond)
    rw [passes] at none_
    cases none_

omit [DecidableEq H] in
theorem length_scanEach (same : T → T → Bool) (keyOf : T → K) (items : List T) (claimed : List ℕ) :
  (scanEach same keyOf old items claimed).1.length = items.length
  := by
  induction items generalizing claimed with
  | nil => rfl
  | cons item items ih =>
    rw [scanEach]
    cases scan old claimed (keyOf item) with
    | none => rw [length_cons, length_cons, ih]
    | some claimant => rw [length_cons, length_cons, ih]

omit [DecidableEq H] in
/-- A row is kept since it is the same. -/
theorem scanEach_keep {same : T → T → Bool} {keyOf : T → K} {items : List T} {i : ℕ}
    (kept : (scanEach same keyOf old items claimed).1[i]? = some (.keep pos)) :
  ∃ row item, old[pos]? = some row ∧ items[i]? = some item ∧ same row.2 item = true ∧
    (row.1 == keyOf item) = true
  := by
  induction items generalizing claimed i with
  | nil => cases kept
  | cons item items ih =>
    rw [scanEach] at kept
    cases found : scan old claimed (keyOf item) with
    | none =>
      rw [found] at kept
      cases i with
      | zero => cases kept
      | succ i => apply ih kept
    | some claimant =>
      obtain ⟨other, was⟩ := claimant
      rw [found] at kept
      cases i with
      | zero =>
        obtain ⟨_, _, row, held, here, equal⟩ := scan_spec found
        rw [getElem?_cons_zero, some_inj] at kept
        split at kept
        next unchanged =>
          cases kept
          use row, item, held, rfl
          rw [here]
          use unchanged, equal
        next => cases kept
      | succ i => apply ih kept

/-- The items that claim a row, in their order. -/
def claimants (items : List T) (steps : List RowStep) : List T :=
  (steps.zip items).filterMap fun entry => entry.1.old.map fun _ => entry.2

omit [DecidableEq H] in
/-- Where the claimed rows, in their order, have the keys of the items that claim them, in theirs,
they are claimed in that order. -/
theorem scanEach_in_order {same : T → T → Bool} {keyOf : T → K} {items : List T} {rest : List ℕ}
    (sorted : rest.Pairwise (· < ·))
    (perm : rest.Perm ((scanEach same keyOf old items claimed).1.filterMap RowStep.old))
    (free : ∀ pos ∈ rest, pos ∉ claimed)
    (order : List.Forall₂ (fun pos item => ∃ row, old[pos]? = some row ∧
      (row.1 == keyOf item) = true) rest
      (claimants items (scanEach same keyOf old items claimed).1)) :
  rest = (scanEach same keyOf old items claimed).1.filterMap RowStep.old
  := by
  induction items generalizing claimed rest with
  | nil =>
    rw [scanEach, filterMap_nil, perm_nil] at perm
    rw [perm]
    rfl
  | cons item items ih =>
    rw [scanEach] at perm order ⊢
    cases found : scan old claimed (keyOf item) with
    | none =>
      rw [found] at perm order
      apply ih sorted perm free order
    | some claimant =>
      obtain ⟨pos, was⟩ := claimant
      rw [found] at perm order
      have names : (if same was item then RowStep.keep pos else RowStep.refresh pos).old
          = some pos := by
        split <;> rfl
      dsimp only at perm order ⊢
      rw [filterMap_cons_some names] at perm ⊢
      rw [claimants, zip_cons_cons, filterMap_cons_some (by rw [names]; rfl)] at order
      cases order with
      | cons equal order =>
        next first tail =>
        obtain ⟨row, held, equal⟩ := equal
        obtain ⟨first', was', found', le⟩ :=
          scan_le held (free first mem_cons_self) equal
        rw [found, some_inj, Prod.mk.injEq] at found'
        rw [← found'.1] at le
        rw [pairwise_cons] at sorted
        have here : first = pos := by
          have mem : pos ∈ first :: tail := by
            rw [perm.mem_iff]
            apply mem_cons_self
          rw [mem_cons] at mem
          rcases mem with same | mem
          · exact same.symm
          · have := sorted.1 pos mem
            omega
        subst here
        congr 1
        apply ih sorted.2 (List.Perm.cons_inv perm) _ order
        intro other mem
        rw [mem_append, mem_singleton, not_or]
        use free other (mem_cons_of_mem first mem)
        have := sorted.1 other mem
        omega

/-- The indexed reconcile answers the plan of the plain scan, whatever the hash distinguishes
beyond what it must; in it every old index occurs once. -/
theorem reconcile_scans (hash : K → H) (agree : ∀ a b : K, (a == b) = true → hash a = hash b)
    (same : T → T → Bool) (keyOf : T → K) (old : List (K × T)) (items : List T) (fuel : ℕ)
    (enough : old.length < fuel) :
  ∃ plan, reconcile hash same fuel (old.map Prod.fst) (old.map Prod.snd) items keyOf = some plan ∧
    plan = scanPlan same keyOf old items ∧
    plan.removed.Pairwise (· < ·) ∧
    (plan.steps.filterMap RowStep.old ++ plan.removed).Perm (List.range old.length)
  := by
  use scanPlan same keyOf old items, reconcile_eq_scanPlan same keyOf agree enough items, rfl
  constructor
  · apply List.Pairwise.filter
    apply pairwise_lt_range
  · apply scanPlan_perm

end

/-- Keys that collide, and one that stands twice in both lists. -/
theorem reconcile_scans_collisions :
  ∃ plan, reconcile (fun key : ℕ => key % 2) (fun was item => was == item) 6
      ([(1, 10), (3, 30), (1, 11), (2, 20), (5, 50)].map Prod.fst)
      ([(1, 10), (3, 30), (1, 11), (2, 20), (5, 50)].map Prod.snd)
      [30, 10, 12, 14] (fun item => item / 10) = some plan ∧
    plan = scanPlan (fun was item => was == item) (fun item => item / 10)
      [(1, 10), (3, 30), (1, 11), (2, 20), (5, 50)] [30, 10, 12, 14] ∧
    plan.removed.Pairwise (· < ·) ∧
    (plan.steps.filterMap RowStep.old ++ plan.removed).Perm (List.range 5)
  := by
  apply reconcile_scans (fun key : ℕ => key % 2)
  · intro a b equal
    rw [eq_of_beq equal]
  · decide

end Reconcile

end Vilan
