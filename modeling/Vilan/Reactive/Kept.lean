import Vilan.Library.Fenwick
import Vilan.Reactive.ListCell
import Vilan.Reactive.Resolve

/-!
# `filter` and `filter_map`

The two stages that keep some of the elements of their upstream.  An element's position in
the output is the number of kept elements before it, which a Fenwick tree over the kept
flags answers.  Every event of the core is translated into an op on the output; the kept
mirror is replayed alongside, since the position of an event is its own.
-/

namespace Vilan

open List Splice

variable {T F V U : Type*}

/-! ### The Fenwick index -/

/-- Rebuild the index from `flags`. -/
def rebuildKept (flags : List Bool) : List ℤ :=
  Fenwick.buildFrom (0 :: flags.map Fenwick.weight) 1

/-- How many flags before `position` are set. -/
def keptBefore (index : List ℤ) (position : ℕ) : Option ℕ :=
  (Fenwick.prefixFrom index position 0).map Int.toNat

/-- The flag at `position` flipped by `delta`. -/
def keptAdd (index : List ℤ) (position : ℕ) (delta : ℤ) : List ℤ :=
  Fenwick.addFrom index (position + 1) delta

/-! ### The stages -/

/-- The kept flags, as the events so far have left them, and the index over them. -/
structure KeptMirror where
  kept : List Bool
  index : List ℤ

/-- What tells one keeping stage from another: the output of an element with the value of its
run, whether that value shows in the output, and whether it keeps the element.  An output
in which the value does not show depends on the element alone. -/
structure KeptStage (T V U : Type*) where
  out : T × V → Option U
  payloadFollows : Bool
  flag : V → Bool
  flag_eq : ∀ pair, flag pair.2 = (out pair).isSome
  out_eq : payloadFollows = false → ∀ before after : T × V, before.1 = after.1 →
    ∀ was now, out before = some was → out after = some now → was = now

/-- `filter`: the elements whose value is `true`, as they are. -/
def filterStage : KeptStage T Bool T where
  out := fun pair => if pair.2 then some pair.1 else none
  payloadFollows := false
  flag := fun value => value
  flag_eq := by
    rintro ⟨item, _ | _⟩ <;> rfl
  out_eq := by
    rintro - ⟨item, _ | _⟩ ⟨item', _ | _⟩ heq was now hwas hnow <;> simp_all

/-- `filter_map`: the payloads of the values that are some. -/
def filterMapStage : KeptStage T (Option U) U where
  out := fun pair => pair.2
  payloadFollows := true
  flag := fun value => value.isSome
  flag_eq := fun _ => rfl
  out_eq := by simp

namespace KeptStage

/-- The `count` flags at `pos` replaced by `flags`. -/
def replaceFlags (kept : List Bool) (pos count : ℕ) (flags : List Bool) : Option (List Bool) :=
  match liftEach kept pos [] count with
  | .panic _ => none
  | .done kept _ => (insertEach kept pos flags).returned

/-- Translate one event into the ops it makes on the output; `none` on a panic. -/
def keptOp (stage : KeptStage T V U) (mirror : KeptMirror) :
    ElementEvent T V → Option (KeptMirror × List (SeqOp U))
  | .spliced pos left arrived =>
      match keptBefore mirror.index pos with
      | none => none
      | some position =>
          let removed := left.filterMap stage.out
          let inserted := arrived.filterMap stage.out
          let flags := arrived.map (fun pair => (stage.out pair).isSome)
          match replaceFlags mirror.kept pos left.length flags with
          | none => none
          | some kept =>
              some (⟨kept, rebuildKept kept⟩,
                if removed.length > 0 ∨ inserted.length > 0 then
                  [.splice position removed inserted]
                else [])
  | .changed pos before after rerun =>
      match keptBefore mirror.index pos with
      | none => none
      | some position =>
          match stage.out before, stage.out after with
          | some was, some now =>
              some (mirror,
                if rerun || stage.payloadFollows then [.setAt position was now] else [])
          | some was, none =>
              some (⟨mirror.kept.set pos false, keptAdd mirror.index pos (-1)⟩,
                [.splice position [was] []])
          | none, some now =>
              some (⟨mirror.kept.set pos true, keptAdd mirror.index pos 1⟩,
                [.splice position [] [now]])
          | none, none => some (mirror, [])
  | .reset _ now =>
      let flags := now.map (fun pair => (stage.out pair).isSome)
      some (⟨flags, rebuildKept flags⟩, [.reset (now.filterMap stage.out)])
  | .moved start count dest =>
      match keptBefore mirror.index start, keptBefore mirror.index (start + count),
        (moveEach mirror.kept start count dest).returned with
      | some outStart, some outEnd, some kept =>
          let index := rebuildKept kept
          match keptBefore index dest with
          | none => none
          | some outDest =>
              let moved := outEnd - outStart
              some (⟨kept, index⟩,
                if moved > 0 ∧ outStart ≠ outDest then [.move outStart moved outDest] else [])
      | _, _, _ => none

/-- Translate the events of a drain. -/
def keptOps (stage : KeptStage T V U) (mirror : KeptMirror) :
    List (ElementEvent T V) → Option (KeptMirror × List (SeqOp U))
  | [] => some (mirror, [])
  | event :: events =>
      match stage.keptOp mirror event with
      | none => none
      | some (mirror, ops) =>
          match stage.keptOps mirror events with
          | none => none
          | some (mirror, more) => some (mirror, ops ++ more)

/-! ### The mirror and the pairs -/

/-- The output of a list of pairs. -/
def output (stage : KeptStage T V U) (pairs : List (T × V)) : List U :=
  pairs.filterMap stage.out

/-- The kept flags of a list of pairs. -/
def flags (stage : KeptStage T V U) (pairs : List (T × V)) : List Bool :=
  pairs.map (fun pair => (stage.out pair).isSome)

/-- The mirror holds the kept flags of the pairs, and the index is the Fenwick tree over
them. -/
structure Agrees (stage : KeptStage T V U) (mirror : KeptMirror) (pairs : List (T × V)) :
    Prop where
  kept_eq : mirror.kept = stage.flags pairs
  represents : Fenwick.Represents mirror.index (mirror.kept.map Fenwick.weight)

theorem represents_rebuildKept (flags : List Bool) :
  Fenwick.Represents (rebuildKept flags) (flags.map Fenwick.weight)
  := Fenwick.represents_buildFrom 0 (flags.map Fenwick.weight)

variable {pos : ℕ} {pairs : List (T × V)} {mirror : KeptMirror} {stage : KeptStage T V U}
  {before : T × V}

/-- The index answers the number of outputs before a position. -/
theorem Agrees.keptBefore_eq (h : stage.Agrees mirror pairs) (hpos : pos ≤ pairs.length) :
  keptBefore mirror.index pos = some (rank stage.out pairs pos)
  := by
  have hrepresents := h.represents
  rw [h.kept_eq, flags] at hrepresents
  rw [keptBefore, hrepresents.prefixFrom_rank hpos, Option.map_some, Int.toNat_natCast]

/-- The flags of pairs of which one was replaced. -/
theorem Agrees.set (h : stage.Agrees mirror pairs) (hbefore : pairs[pos]? = some before)
    (after : T × V) :
  stage.Agrees
    ⟨mirror.kept.set pos (stage.out after).isSome,
      keptAdd mirror.index pos (Fenwick.weight (stage.out after).isSome
        - Fenwick.weight (stage.out before).isSome)⟩
    (pairs.set pos after)
  := by
  have hget : (mirror.kept.map Fenwick.weight)[pos]?
      = some (Fenwick.weight (stage.out before).isSome) := by
    rw [h.kept_eq, flags, List.map_map, getElem?_map, hbefore]
    rfl
  constructor
  · rw [h.kept_eq, flags, flags, map_set]
  · rw [map_set]
    apply h.represents.addFrom_set hget

/-- The flags of pairs of which one was replaced by one that is kept as it was. -/
theorem Agrees.set_of_eq (h : stage.Agrees mirror pairs) (hbefore : pairs[pos]? = some before)
    {after : T × V} (hsame : (stage.out after).isSome = (stage.out before).isSome) :
  stage.Agrees mirror (pairs.set pos after)
  := by
  obtain ⟨hpos, hget⟩ := List.getElem?_eq_some_iff.mp hbefore
  refine ⟨?_, h.represents⟩
  have hlength : pos < (stage.flags pairs).length := by
    rwa [flags, length_map]
  have hflag : (stage.out after).isSome = (stage.flags pairs)[pos] := by
    simp only [flags, getElem_map, hget, hsame]
  rw [h.kept_eq, flags, flags, map_set, hflag]
  simp only [flags, set_getElem_self]

/-- The mirror of pairs that were replaced wholesale. -/
theorem agrees_rebuilt (stage : KeptStage T V U) (pairs : List (T × V)) :
  stage.Agrees ⟨stage.flags pairs, rebuildKept (stage.flags pairs)⟩ pairs
  := ⟨rfl, represents_rebuildKept _⟩

/-! ### The law of one event -/

/-- What an event's translation must be: the mirror agrees with the pairs after the event,
and the ops are accurate on the output and take it to the output after the event. -/
def Translates (stage : KeptStage T V U) (mirror : KeptMirror) (pairs : List (T × V))
    (event : ElementEvent T V) : Prop :=
  ∃ mirror' ops, stage.keptOp mirror event = some (mirror', ops)
    ∧ stage.Agrees mirror' (event.toSeqOp.apply pairs)
    ∧ SeqOp.Along SeqOp.Accurate ops (stage.output pairs)
    ∧ SeqOp.replay ops (stage.output pairs) = stage.output (event.toSeqOp.apply pairs)

section

variable (stage : KeptStage T V U)

theorem translates_spliced (h : stage.Agrees mirror pairs)
    {left arrived : List (T × V)}
    (hin : (ElementEvent.spliced pos left arrived).toSeqOp.Accurate pairs) :
  stage.Translates mirror pairs (.spliced pos left arrived)
  := by
  obtain ⟨hrange, hleft⟩ := hin
  have hlen : pos + left.length ≤ (stage.flags pairs).length := by
    rwa [flags, length_map]
  have hrest := length_splice hlen []
  rw [length_nil, Nat.add_zero] at hrest
  have hflags : replaceFlags mirror.kept pos left.length (stage.flags arrived)
      = some (stage.flags (splice pairs pos left.length arrived)) := by
    rw [replaceFlags, h.kept_eq, liftEach_of_le hlen]
    simp only
    rw [insertEach_of_le (by omega), splice_splice_nil (by omega), flags, flags, flags, map_splice]
    rfl
  have hremoved : block (stage.output pairs) (rank stage.out pairs pos)
      (stage.output left).length = stage.output left := by
    have := filterMap_block stage.out pairs pos left.length
    rw [hleft] at this
    rw [output, output, ← this]
  have hfits : rank stage.out pairs pos + (stage.output left).length
      ≤ (stage.output pairs).length := by
    have hadd := rank_add stage.out pairs pos left.length
    rw [hleft] at hadd
    rw [output, output, ← hadd]
    apply rank_le_length
  have hout : stage.output (splice pairs pos left.length arrived)
      = splice (stage.output pairs) (rank stage.out pairs pos) (stage.output left).length
        (stage.output arrived) := by
    rw [output, filterMap_splice, hleft]
    rfl
  rw [Translates, keptOp, h.keptBefore_eq (by omega)]
  simp only [ElementEvent.toSeqOp, SeqOp.apply]
  rw [← flags, hflags, ← output, ← output]
  refine ⟨_, _, rfl, stage.agrees_rebuilt _, ?_⟩
  split
  case isTrue =>
    refine ⟨⟨⟨hfits, hremoved⟩, trivial⟩, ?_⟩
    rw [hout]
    rfl
  case isFalse hnone =>
    have hleft' : stage.output left = [] := by
      rw [← length_eq_zero_iff]
      omega
    have harrived : stage.output arrived = [] := by
      rw [← length_eq_zero_iff]
      omega
    refine ⟨trivial, ?_⟩
    rw [hout, hleft', harrived, length_nil, splice_zero_nil, SeqOp.replay_nil]

theorem translates_changed (h : stage.Agrees mirror pairs) {after : T × V}
    {rerun : Bool} (hin : (ElementEvent.changed pos before after rerun).toSeqOp.Accurate pairs)
    (hkeeps : (ElementEvent.changed pos before after rerun).KeepsInput) :
  stage.Translates mirror pairs (.changed pos before after rerun)
  := by
  have hbefore : pairs[pos]? = some before := hin
  have hpos : pos < pairs.length := (List.getElem?_eq_some_iff.mp hbefore).1
  have hset := h.set hbefore after
  have hblock := block_one hbefore
  have hout : stage.output (pairs.set pos after)
      = splice (stage.output pairs) (rank stage.out pairs pos)
        (stage.output [before]).length (stage.output [after]) := by
    rw [output, ← splice_one hpos, filterMap_splice, hblock]
    rfl
  rw [Translates, keptOp, h.keptBefore_eq hpos.le]
  simp only [ElementEvent.toSeqOp, SeqOp.apply]
  cases hwas : stage.out before with
  | none =>
    rw [hwas] at hset
    rw [show stage.output [before] = [] from filterMap_cons_none hwas] at hout
    cases hnow : stage.out after with
    | none =>
      -- dropped before and after
      rw [show stage.output [after] = [] from filterMap_cons_none hnow,
        length_nil, splice_zero_nil] at hout
      refine ⟨mirror, [], rfl, h.set_of_eq hbefore (by rw [hwas, hnow]), trivial, ?_⟩
      rw [hout, SeqOp.replay_nil]
    | some now =>
      -- the element flips in
      rw [hnow] at hset
      rw [show stage.output [after] = [now] from filterMap_cons_some hnow] at hout
      refine ⟨_, _, rfl, hset, ⟨⟨?_, rfl⟩, trivial⟩, ?_⟩
      · apply rank_le_length
      · rw [hout]
        rfl
  | some was =>
    have hget : (stage.output pairs)[rank stage.out pairs pos]? = some was :=
      filterMap_getElem?_rank stage.out hbefore hwas
    have hlt := (List.getElem?_eq_some_iff.mp hget).1
    have hone := block_one hget
    rw [hwas] at hset
    rw [show stage.output [before] = [was] from filterMap_cons_some hwas] at hout
    cases hnow : stage.out after with
    | none =>
      -- the element flips out
      rw [hnow] at hset
      rw [show stage.output [after] = [] from filterMap_cons_none hnow] at hout
      refine ⟨_, _, rfl, hset, ⟨⟨hlt, hone⟩, trivial⟩, ?_⟩
      rw [hout]
      rfl
    | some now =>
      -- kept before and after: the output shows what it shows of the change
      rw [show stage.output [after] = [now] from filterMap_cons_some hnow,
        length_singleton, splice_one hlt] at hout
      refine ⟨mirror, _, rfl, h.set_of_eq hbefore (by simp [hwas, hnow]), ?_⟩
      split
      case isTrue => exact ⟨⟨hget, trivial⟩, by rw [hout]; rfl⟩
      case isFalse hsilent =>
        rw [Bool.or_eq_true, not_or, Bool.not_eq_true, Bool.not_eq_true] at hsilent
        have hsame := stage.out_eq hsilent.2 before after (hkeeps hsilent.1) was now hwas hnow
        refine ⟨trivial, ?_⟩
        rw [hout, ← hsame, SeqOp.replay_nil, ← (List.getElem?_eq_some_iff.mp hget).2,
          set_getElem_self]

theorem translates_moved (h : stage.Agrees mirror pairs)
    {start count dest : ℕ} (hin : start + count ≤ pairs.length)
    (hdest : dest ≤ pairs.length - count) :
  stage.Translates mirror pairs (.moved start count dest)
  := by
  have hmoved : moveEach mirror.kept start count dest
      = .done (stage.flags (move pairs start count dest)) () := by
    rw [h.kept_eq, flags, flags, map_move]
    apply moveEach_map_of_le _ hin hdest
  have hagrees := stage.agrees_rebuilt (move pairs start count dest)
  have hlen := length_move hin hdest
  have hcount := rank_add stage.out pairs start count
  have hout := filterMap_move stage.out hin hdest
  have hfits := rank_le_length stage.out pairs (start + count)
  have hplace := rank_move_le stage.out hin hdest
  have hsub : rank stage.out pairs (start + count) - rank stage.out pairs start
      = ((block pairs start count).filterMap stage.out).length := by
    omega
  rw [Translates, keptOp, h.keptBefore_eq (by omega), h.keptBefore_eq hin, hmoved]
  simp only [Outcome.returned, ElementEvent.toSeqOp, SeqOp.apply]
  rw [hagrees.keptBefore_eq (by omega)]
  refine ⟨_, _, rfl, hagrees, ?_⟩
  rw [hsub, output, output, hout]
  split
  case isTrue => exact ⟨⟨⟨by omega, hplace⟩, trivial⟩, rfl⟩
  case isFalse hstays =>
    refine ⟨trivial, ?_⟩
    rw [SeqOp.replay_nil]
    -- nothing kept moves, or it moves past elements that are dropped
    rcases Nat.eq_zero_or_pos ((block pairs start count).filterMap stage.out).length with
      hzero | hpos
    · rw [hzero, move_zero]
    · have hsame : rank stage.out pairs start
          = rank stage.out (move pairs start count dest) dest := by
        by_contra hne
        exact hstays ⟨hpos, hne⟩
      rw [← hsame, move_self (by omega)]

theorem keptOp_translates (h : stage.Agrees mirror pairs)
    {event : ElementEvent T V} (hin : event.toSeqOp.Accurate pairs) (hkeeps : event.KeepsInput) :
  stage.Translates mirror pairs event
  := by
  cases event with
  | spliced pos left arrived => apply stage.translates_spliced h hin
  | changed pos before after rerun => apply stage.translates_changed h hin hkeeps
  | reset left now =>
    refine ⟨_, _, rfl, stage.agrees_rebuilt now, ⟨trivial, trivial⟩, rfl⟩
  | moved start count dest => apply stage.translates_moved h hin.1 hin.2

/-- The translation of a run of events. -/
theorem keptOps_translates (h : stage.Agrees mirror pairs)
    {events : List (ElementEvent T V)}
    (hin : SeqOp.Along SeqOp.Accurate (events.map ElementEvent.toSeqOp) pairs)
    (hkeeps : ∀ event ∈ events, event.KeepsInput) :
  ∃ mirror' ops, stage.keptOps mirror events = some (mirror', ops)
    ∧ stage.Agrees mirror' (SeqOp.replay (events.map ElementEvent.toSeqOp) pairs)
    ∧ SeqOp.Along SeqOp.Accurate ops (stage.output pairs)
    ∧ SeqOp.replay ops (stage.output pairs)
      = stage.output (SeqOp.replay (events.map ElementEvent.toSeqOp) pairs)
  := by
  induction events generalizing mirror pairs with
  | nil => exact ⟨mirror, [], rfl, h, trivial, rfl⟩
  | cons event events ih =>
    obtain ⟨mirror₁, ops, hop, hagrees, haccurate, hreplay⟩ :=
      stage.keptOp_translates h hin.1 (hkeeps event mem_cons_self)
    obtain ⟨mirror₂, more, hops, hagrees', haccurate', hreplay'⟩ :=
      ih hagrees hin.2 (fun event hevent => hkeeps event (mem_cons_of_mem _ hevent))
    refine ⟨mirror₂, ops ++ more, ?_, hagrees', ?_, ?_⟩
    · rw [keptOps, hop]
      simp only [hops]
    · rw [SeqOp.along_append, hreplay]
      exact ⟨haccurate, haccurate'⟩
    · rw [SeqOp.replay_append, hreplay, hreplay']
      rfl

end

end KeptStage

end Vilan
