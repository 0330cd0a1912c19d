import Vilan.Rpc.Server

/-!
# Orders of control frames

A channel of a server is followed as the holds on it, which are none at all once the channel is
withdrawn.  Each control frame asks something of one channel or nothing, so that orders of frames
are orders of asks.
-/

namespace Vilan.Rpc

open List Option

open Holds (Ask Same)

variable {H : Type*} [DecidableEq H]

/-! ### Forwards of a list -/

theorem LiveForward.carries_iff (forward : LiveForward H) (channel : ℕ) (key : Option H) :
  forward.carries channel key = true ↔ forward.channel = channel ∧ forward.key = key
  := by
  simp [LiveForward.carries]

/-- The holds of the first forward for a demand. -/
def holdsIn (live : List (LiveForward H)) (channel : ℕ) (key : Option H) : ℕ :=
  ((live.find? (·.carries channel key)).map LiveForward.holds).getD 0

theorem holdsIn_nil (channel : ℕ) (key : Option H) : holdsIn [] channel key = 0 := rfl

theorem holdsIn_cons
    (forward : LiveForward H) (live : List (LiveForward H)) (channel : ℕ) (key : Option H) :
  holdsIn (forward :: live) channel key =
    if forward.carries channel key then forward.holds else holdsIn live channel key
  := by
  rw [holdsIn, find?_cons]
  split
  next h => simp [h]
  next h => simp [h, holdsIn]

variable {channel : ℕ} {key : Option H} {live : List (LiveForward H)}

theorem holdsIn_of_forall_not (none_ : ∀ forward ∈ live, forward.carries channel key = false) :
  holdsIn live channel key = 0
  := by
  rw [holdsIn, find?_eq_none.mpr]
  · rfl
  · intro forward mem
    simp [none_ forward mem]

theorem holdsIn_pos_iff (held : ∀ forward ∈ live, 0 < forward.holds) (channel : ℕ)
    (key : Option H) :
  0 < holdsIn live channel key ↔ ∃ forward ∈ live, forward.carries channel key = true
  := by
  constructor
  · intro pos
    by_contra none_
    rw [holdsIn_of_forall_not] at pos
    · apply Nat.not_lt_zero _ pos
    · intro forward mem
      rw [Bool.eq_false_iff]
      intro h
      apply none_
      use forward
  · rintro ⟨forward, mem, h⟩
    obtain ⟨first, heq⟩ : ∃ first, live.find? (·.carries channel key) = some first := by
      rw [← isSome_iff_exists, find?_isSome]
      use forward
    rw [holdsIn, heq]
    apply held
    apply mem_of_find?_eq_some heq

theorem holdsIn_append_single
    (live : List (LiveForward H)) (forward : LiveForward H) (channel : ℕ) (key : Option H) :
  holdsIn (live ++ [forward]) channel key =
    if live.any (·.carries channel key) then holdsIn live channel key
    else holdsIn [forward] channel key
  := by
  induction live with
  | nil => rfl
  | cons first live ih =>
    rw [cons_append, holdsIn_cons, holdsIn_cons, any_cons, ih]
    cases first.carries channel key <;> simp

theorem holdsIn_joinForward (mem : ∃ forward ∈ live, forward.carries channel key = true)
    (channel' : ℕ) (key' : Option H) :
  holdsIn (joinForward channel key live) channel' key' =
    holdsIn live channel' key' + if (channel', key') = (channel, key) then 1 else 0
  := by
  induction live with
  | nil => simp at mem
  | cons forward live ih =>
    rw [joinForward]
    split
    next carried =>
      rw [LiveForward.carries_iff] at carried
      obtain ⟨rfl, rfl⟩ := carried
      rw [holdsIn_cons, holdsIn_cons]
      simp only [LiveForward.carries, Prod.mk.injEq, decide_eq_true_eq, eq_comm (a := channel'),
        eq_comm (a := key')]
      split <;> rfl
    next other =>
      have mem' : ∃ forward ∈ live, forward.carries channel key = true := by
        obtain ⟨found, mem, carried⟩ := mem
        obtain rfl | mem := mem_cons.mp mem
        · apply absurd carried other
        · use found
      rw [holdsIn_cons, holdsIn_cons, ih mem']
      split
      next h =>
        have ne : ¬ (channel', key') = (channel, key) := by
          rintro ⟨⟩
          apply other h
        rw [if_neg ne, Nat.add_zero]
      next => rfl

theorem mem_joinForward {forward : LiveForward H} (mem : forward ∈ joinForward channel key live) :
  ∃ forward' ∈ live, forward'.channel = forward.channel ∧ forward'.key = forward.key ∧
    forward'.holds ≤ forward.holds
  := by
  induction live with
  | nil => simp [joinForward] at mem
  | cons first live ih =>
    rw [joinForward] at mem
    split at mem
    next =>
      obtain rfl | mem := mem_cons.mp mem
      · use first
        simp
      · use forward
        simp [mem]
    next =>
      obtain rfl | mem := mem_cons.mp mem
      · use forward
        simp
      · obtain ⟨forward', mem', h⟩ := ih mem
        use forward', mem_cons_of_mem first mem'

/-- No two forwards are for one demand. -/
def Single (live : List (LiveForward H)) : Prop :=
  live.Pairwise fun forward other => other.carries forward.channel forward.key = false

theorem Single.joinForward (single : Single live) (channel : ℕ) (key : Option H) :
  Single (joinForward channel key live)
  := by
  induction single with
  | nil => apply List.Pairwise.nil
  | @cons first live fresh _ ih =>
    rw [Rpc.joinForward]
    split
    next => apply List.Pairwise.cons fresh (by assumption)
    next =>
      apply List.Pairwise.cons _ ih
      intro forward mem
      obtain ⟨forward', mem', channel_eq, key_eq, _⟩ := mem_joinForward mem
      have other := fresh forward' mem'
      simp only [LiveForward.carries] at other ⊢
      rw [← channel_eq, ← key_eq]
      apply other

/-- What is left of the forwards after a hold on a demand is released. -/
def releaseForward (channel : ℕ) (key : Option H) (live : List (LiveForward H)) :
    List (LiveForward H) :=
  live.filterMap fun forward =>
    if forward.carries channel key then
      if forward.holds - 1 = 0 then none else some { forward with holds := forward.holds - 1 }
    else some forward

theorem mem_releaseForward {forward : LiveForward H}
    (mem : forward ∈ releaseForward channel key live) :
  ∃ forward' ∈ live, forward'.channel = forward.channel ∧ forward'.key = forward.key ∧
    (0 < forward'.holds → 0 < forward.holds)
  := by
  obtain ⟨forward', mem', heq⟩ := mem_filterMap.mp mem
  use forward', mem'
  split at heq
  next =>
    split at heq
    next => cases heq
    next left =>
      cases heq
      refine ⟨rfl, rfl, fun _ => ?_⟩
      apply Nat.pos_of_ne_zero left
  next =>
    cases heq
    simp

theorem Single.releaseForward (single : Single live) (channel : ℕ) (key : Option H) :
  Single (releaseForward channel key live)
  := by
  rw [Single, Rpc.releaseForward, pairwise_filterMap]
  apply List.Pairwise.imp _ single
  have same : ∀ forward left : LiveForward H,
      (if forward.carries channel key then
        if forward.holds - 1 = 0 then none else some { forward with holds := forward.holds - 1 }
      else some forward) = some left → left.channel = forward.channel ∧ left.key = forward.key := by
    intro forward left heq
    split at heq
    next =>
      split at heq
      next => cases heq
      next => cases heq; simp
    next => cases heq; simp
  intro forward other fresh left heq left' heq'
  obtain ⟨channel_eq, key_eq⟩ := same _ _ heq
  obtain ⟨channel_eq', key_eq'⟩ := same _ _ heq'
  simp only [LiveForward.carries] at fresh ⊢
  rw [channel_eq, key_eq, channel_eq', key_eq']
  apply fresh

theorem holdsIn_releaseForward (single : Single live) (channel : ℕ) (key : Option H) (channel' : ℕ)
    (key' : Option H) :
  holdsIn (releaseForward channel key live) channel' key' =
    holdsIn live channel' key' - if (channel', key') = (channel, key) then 1 else 0
  := by
  induction single with
  | nil => simp [releaseForward, holdsIn_nil]
  | @cons first live fresh _ ih =>
    rw [releaseForward, filterMap_cons, holdsIn_cons]
    by_cases carried : first.carries channel key = true
    · rw [if_pos carried]
      obtain ⟨rfl, rfl⟩ := (LiveForward.carries_iff _ _ _).mp carried
      have none_ : holdsIn (releaseForward first.channel first.key live) first.channel first.key = 0 := by
        apply holdsIn_of_forall_not
        intro forward mem
        obtain ⟨forward', mem', channel_eq, key_eq, _⟩ := mem_releaseForward mem
        have other := fresh forward' mem'
        simp only [LiveForward.carries] at other ⊢
        rw [← channel_eq, ← key_eq]
        apply other
      by_cases same : (channel', key') = (first.channel, first.key)
      · cases same
        rw [if_pos carried, if_pos rfl]
        by_cases gone : first.holds - 1 = 0
        · rw [if_pos gone, gone]
          apply none_
        · rw [if_neg gone]
          dsimp only
          rw [holdsIn_cons, if_pos]
          simp [LiveForward.carries]
      · have other : ¬ first.carries channel' key' = true := by
          rw [LiveForward.carries_iff]
          rintro ⟨rfl, rfl⟩
          apply same rfl
        rw [if_neg other, ← ih]
        by_cases gone : first.holds - 1 = 0
        · rw [if_pos gone]
          rfl
        · rw [if_neg gone]
          dsimp only
          rw [holdsIn_cons, if_neg]
          · rfl
          · simpa [LiveForward.carries] using other
    · rw [if_neg carried]
      dsimp only
      rw [holdsIn_cons]
      split
      next h =>
        rw [if_neg, Nat.sub_zero]
        rintro ⟨⟩
        apply carried h
      next => apply ih

/-! ### What a server keeps -/

/-- What a frame asks of a channel, if the channel can read its key. -/
def ControlFrame.ask (keyed : Bool) (frame : ControlFrame H) : Option (Ask (Option H)) :=
  if frame.key.isNone || keyed then
    some (if frame.subscribes then .subscribe frame.key else .unsubscribe frame.key)
  else none

namespace Server

variable {server : Server H}

theorem holdsOf_eq (channel : ℕ) (key : Option H) :
  server.holdsOf channel key = holdsIn server.live channel key
  := by
  rw [holdsOf, forwardFor, holdsIn]
  cases server.live.find? (·.carries channel key) <;> rfl

theorem holdsOf_pos_iff (sound : server.Sound) (channel : ℕ) (key : Option H) :
  0 < server.holdsOf channel key ↔ (server.forwardFor channel key).isSome = true
  := by
  rw [holdsOf_eq, holdsIn_pos_iff sound.held, forwardFor, find?_isSome]

theorem holdsOf_openForward (channel : ℕ) (key : Option H) (channel' : ℕ) (key' : Option H) :
  (server.openForward channel key).holdsOf channel' key' =
    server.holdsOf channel' key' + if (channel', key') = (channel, key) then 1 else 0
  := by
  rw [openForward, holdsOf_eq, holdsOf_eq, forwardFor]
  cases found : server.live.find? (·.carries channel key) with
  | some forward =>
    apply holdsIn_joinForward
    use forward, mem_of_find?_eq_some found
    apply find?_some found
  | none =>
    rw [find?_eq_none] at found
    dsimp only
    rw [holdsIn_append_single]
    by_cases same : (channel', key') = (channel, key)
    · cases same
      have fresh : ¬ server.live.any (·.carries channel key) = true := by
        rw [List.any_eq_true]
        rintro ⟨forward, mem, carried⟩
        apply found forward mem carried
      have zero : holdsIn server.live channel key = 0 := by
        apply holdsIn_of_forall_not
        intro forward mem
        rw [Bool.eq_false_iff]
        apply found forward mem
      rw [if_neg fresh, if_pos rfl, zero, holdsIn_cons, if_pos]
      simp [LiveForward.carries]
    · rw [if_neg same]
      split
      next => rfl
      next h =>
        have other : ¬ LiveForward.carries ⟨channel, key, 1⟩ channel' key' = true := by
          rw [LiveForward.carries_iff]
          rintro ⟨rfl, rfl⟩
          apply same rfl
        rw [holdsIn_cons, if_neg other, holdsIn_nil, holdsIn_of_forall_not]
        intro forward mem
        rw [Bool.eq_false_iff]
        intro carried
        apply h
        rw [List.any_eq_true]
        use forward

theorem holdsOf_closeForward
    (sound : server.Sound) (channel : ℕ) (key : Option H) (channel' : ℕ) (key' : Option H) :
  (server.closeForward channel key).2.holdsOf channel' key' =
    server.holdsOf channel' key' - if (channel', key') = (channel, key) then 1 else 0
  := by
  rw [holdsOf_eq, holdsOf_eq]
  apply holdsIn_releaseForward sound.single

omit [DecidableEq H] in
theorem capabilityOf_eq_none_iff (channel : ℕ) :
  server.capabilityOf channel = none ↔ ∀ entry ∈ server.sources, entry.1 ≠ channel
  := by
  simp [capabilityOf]

omit [DecidableEq H] in
theorem capabilityOf_revoke (channel channel' : ℕ) :
  (server.revoke channel).capabilityOf channel' =
    if channel' = channel then none else server.capabilityOf channel'
  := by
  split
  next h =>
    rw [capabilityOf_eq_none_iff, h]
    intro entry mem
    simpa using (mem_filter.mp mem).2
  next h =>
    rw [capabilityOf, revoke, find?_filter, capabilityOf]
    congr
    funext entry
    by_cases same : entry.1 = channel'
    · simp [same, h]
    · simp [same]

theorem holdsOf_revoke (channel channel' : ℕ) (key : Option H) :
  (server.revoke channel).holdsOf channel' key =
    if channel' = channel then 0 else server.holdsOf channel' key
  := by
  rw [holdsOf_eq, holdsOf_eq, revoke]
  split
  next h =>
    apply holdsIn_of_forall_not
    intro forward mem
    have ne : forward.channel ≠ channel := by simpa using (mem_filter.mp mem).2
    rw [Bool.eq_false_iff, ne_eq, LiveForward.carries_iff, h]
    rintro ⟨same, _⟩
    apply ne same
  next h =>
    rw [holdsIn, find?_filter, holdsIn]
    congr
    funext forward
    by_cases same : forward.channel = channel'
    · simp [same, h]
    · simp [LiveForward.carries, same]

/-- A channel is drained when no demand on it is held any more. -/
theorem drained_iff (sound : server.Sound) (channel : ℕ) (key : Option H) :
  (server.closeForward channel key).1 = true ↔
    ∀ key', (server.closeForward channel key).2.holdsOf channel key' = 0
  := by
  have held : ∀ forward ∈ releaseForward channel key server.live, 0 < forward.holds := by
    intro forward mem
    obtain ⟨forward', mem', _, _, pos⟩ := mem_releaseForward mem
    apply pos (sound.held forward' mem')
  have holds : ∀ key', (server.closeForward channel key).2.holdsOf channel key' =
      holdsIn (releaseForward channel key server.live) channel key' :=
    holdsOf_eq channel
  have drained : (server.closeForward channel key).1 = true ↔
      ∀ forward ∈ releaseForward channel key server.live, forward.channel ≠ channel := by
    have eq : (server.closeForward channel key).1 =
        (releaseForward channel key server.live).all (·.channel ≠ channel) :=
      rfl
    rw [eq]
    simp
  rw [drained]
  constructor
  · intro none_ key'
    rw [holds]
    apply holdsIn_of_forall_not
    intro forward mem
    rw [Bool.eq_false_iff, ne_eq, LiveForward.carries_iff]
    rintro ⟨same, _⟩
    apply none_ forward mem same
  · intro zero forward mem same
    have pos := (holdsIn_pos_iff held channel forward.key).mpr
      ⟨forward, mem, (LiveForward.carries_iff _ _ _).mpr ⟨same, rfl⟩⟩
    rw [← holds, zero] at pos
    apply Nat.lt_irrefl _ pos

/-! ### What every operation keeps -/

theorem Sound.new (nextChannel : ℕ) : (Server.new nextChannel : Server H).Sound := by
  constructor <;> simp [Server.new]

/-- Forwards that change while the channels stay. -/
theorem Sound.of_live
    (sound : server.Sound) {live : List (LiveForward H)} (single : Single live)
    (held : ∀ forward ∈ live, 0 < forward.holds)
    (owned : ∀ forward ∈ live, (server.capabilityOf forward.channel).isSome) :
  ({ server with live := live } : Server H).Sound
  := ⟨single, held, owned, sound.minted⟩

variable {channel : ℕ} {capability : Capability} {frame : ControlFrame H}
  {frames : List (ControlFrame H)}

theorem Sound.openForward (sound : server.Sound) (owned : (server.capabilityOf channel).isSome)
    (key : Option H) :
  (server.openForward channel key).Sound
  := by
  rw [Server.openForward]
  cases found : server.forwardFor channel key with
  | some =>
    apply sound.of_live
    · apply Single.joinForward sound.single
    · intro forward mem
      obtain ⟨forward', mem', _, _, le⟩ := mem_joinForward mem
      apply Nat.lt_of_lt_of_le (sound.held forward' mem') le
    · intro forward mem
      obtain ⟨forward', mem', channel_eq, _, _⟩ := mem_joinForward mem
      rw [← channel_eq]
      apply sound.owned forward' mem'
  | none =>
    rw [forwardFor, find?_eq_none] at found
    apply sound.of_live
    · apply pairwise_append.mpr ⟨sound.single, pairwise_singleton _ _, ?_⟩
      intro forward mem other mem'
      rw [mem_singleton] at mem'
      subst mem'
      rw [Bool.eq_false_iff, ne_eq, LiveForward.carries_iff]
      rintro ⟨channel_eq, key_eq⟩
      apply found forward mem
      rw [LiveForward.carries_iff]
      apply And.intro channel_eq.symm key_eq.symm
    · intro forward mem
      obtain mem | mem := mem_append.mp mem
      · apply sound.held forward mem
      · rw [mem_singleton] at mem
        rw [mem]
        apply Nat.zero_lt_one
    · intro forward mem
      obtain mem | mem := mem_append.mp mem
      · apply sound.owned forward mem
      · rw [mem_singleton] at mem
        rw [mem]
        apply owned

theorem Sound.closeForward (sound : server.Sound) (channel : ℕ) (key : Option H) :
  (server.closeForward channel key).2.Sound
  := by
  apply sound.of_live
  · apply Single.releaseForward sound.single
  · intro forward mem
    obtain ⟨forward', mem', _, _, pos⟩ := mem_releaseForward mem
    apply pos (sound.held forward' mem')
  · intro forward mem
    obtain ⟨forward', mem', channel_eq, _, _⟩ := mem_releaseForward mem
    rw [← channel_eq]
    apply sound.owned forward' mem'

theorem Sound.revoke (sound : server.Sound) (channel : ℕ) : (server.revoke channel).Sound := by
  constructor
  · apply List.Pairwise.filter _ sound.single
  · intro forward mem
    apply sound.held forward (mem_filter.mp mem).1
  · intro forward mem
    obtain ⟨mem, ne⟩ := mem_filter.mp mem
    rw [capabilityOf_revoke, if_neg (by simpa using ne)]
    apply sound.owned forward mem
  · intro entry mem
    apply sound.minted entry (mem_filter.mp mem).1

theorem Sound.releaseHold (sound : server.Sound) (channel : ℕ) (key : Option H) :
  (server.releaseHold channel key).Sound
  := by
  have closed := sound.closeForward channel key
  rw [Server.releaseHold]
  dsimp only
  split
  next => apply closed.revoke
  next => apply closed

omit [DecidableEq H] in
/-- A key is read exactly on a channel that reads keys. -/
theorem resolveKey_eq (channel : ℕ) (key : H) :
  server.resolveKey channel key =
    if (server.capabilityOf channel).any (·.keyed) then some key else none
  := by
  rw [resolveKey]
  cases server.capabilityOf channel with
  | none => rfl
  | some capability => rfl

theorem Sound.receive (sound : server.Sound) (frame : ControlFrame H) :
  (server.receive frame).Sound
  := by
  have opened : ∀ channel (key : Option H), (server.capabilityOf channel).isSome = true →
      (server.openForward channel key).Sound :=
    fun channel key owned => sound.openForward owned key
  rw [Server.receive]
  split
  next => apply sound
  next =>
    cases key_eq : frame.key with
    | none =>
      dsimp only
      split
      next =>
        rw [start]
        cases found : server.capabilityOf frame.channel with
        | none => apply sound
        | some => apply opened; rw [found]; rfl
      next => apply sound.releaseHold
    | some key =>
      dsimp only
      split
      next =>
        rw [startKey, resolveKey_eq]
        cases found : server.capabilityOf frame.channel with
        | none => apply sound
        | some capability =>
          cases keyed : capability.keyed with
          | false => simpa [keyed] using sound
          | true =>
            simp only [any_some, keyed, if_true]
            apply opened
            rw [found]
            rfl
      next =>
        rw [stopKey, resolveKey_eq]
        cases (server.capabilityOf frame.channel).any (·.keyed) with
        | false => apply sound
        | true => apply sound.releaseHold

theorem Sound.export (sound : server.Sound) (capability : Capability) :
  ({ server with
      sources := server.sources ++ [(server.nextChannel, capability)]
      nextChannel := server.nextChannel + 1 } : Server H).Sound
  := by
  constructor
  · apply sound.single
  · apply sound.held
  · intro forward mem
    have owned := sound.owned forward mem
    rw [capabilityOf, isSome_map] at owned ⊢
    rw [find?_append, isSome_or, owned, Bool.true_or]
  · intro entry mem
    obtain mem | mem := mem_append.mp mem
    · apply Nat.lt_succ_of_lt (sound.minted entry mem)
    · rw [mem_singleton] at mem
      rw [mem]
      apply Nat.lt_succ_self

/-- What happens to a server. -/
inductive Act (H : Type*) where
  | expose (keyed : Bool)
  | exposeDynamic (identity : ℕ) (keyed : Bool)
  | openControlled (identity : ℕ)
  | revoke (channel : ℕ)
  | receive (frame : ControlFrame H)
  /-- Another server of the program takes a channel id. -/
  | mintElsewhere

/-- A server after what happens to it. -/
def act (server : Server H) : Act H → Server H
  | .expose keyed => (server.expose keyed).2
  | .exposeDynamic identity keyed => (server.exposeDynamic identity keyed).2
  | .openControlled identity => (server.openControlled identity).2
  | .revoke channel => server.revoke channel
  | .receive frame => server.receive frame
  | .mintElsewhere => { server with nextChannel := server.nextChannel + 1 }

theorem Sound.act (sound : server.Sound) (act : Act H) : (server.act act).Sound := by
  cases act with
  | expose keyed => apply sound.export
  | exposeDynamic identity keyed =>
    rw [Server.act, exposeDynamic]
    split
    next => apply sound
    next => apply sound.export
  | openControlled identity => apply sound.export
  | revoke channel => apply sound.revoke
  | receive frame => apply sound.receive
  | mintElsewhere =>
    refine ⟨sound.single, sound.held, sound.owned, ?_⟩
    intro entry mem
    apply Nat.lt_succ_of_lt (sound.minted entry mem)

/-- A server that is reached by what can happen to it. -/
def Reached (server : Server H) (acts : List (Act H)) : Prop :=
  Machine.Run (fun server => ∃ nextChannel, server = new nextChannel)
    (fun server act server' => server' = server.act act) acts server

theorem Reached.sound {acts : List (Act H)} (reached : server.Reached acts) : server.Sound := by
  apply Machine.Run.invariant _ _ reached
  · rintro _ ⟨nextChannel, rfl⟩
    apply Sound.new
  · rintro server act _ sound rfl
    apply sound.act

/-! ### A channel as the holds on it -/

/-- The holds on a channel, unless the server has withdrawn it. -/
def view (server : Server H) (channel : ℕ) : Option (Option H → ℕ) :=
  (server.capabilityOf channel).map fun _ => server.holdsOf channel

/-- What an ask does to a channel. -/
def asked (server : Server H) (channel : ℕ) : Ask (Option H) → Server H
  | .subscribe key => server.openForward channel key
  | .unsubscribe key => server.releaseHold channel key

/-- A frame on a channel that the server holds does what it asks, if anything. -/
theorem receive_eq_asked (held : server.capabilityOf frame.channel = some capability)
    (plain : capability.controlled = false) :
  server.receive frame = ((frame.ask capability.keyed).map (server.asked frame.channel)).getD server
  := by
  rw [receive, held, any_some, plain, if_neg Bool.false_ne_true, ControlFrame.ask]
  cases key_eq : frame.key with
  | none =>
    rw [isNone_none, Bool.true_or, if_pos rfl]
    cases frame.subscribes with
    | true => simp [start, held, asked]
    | false => rfl
  | some key =>
    rw [isNone_some, Bool.false_or]
    dsimp only
    rw [startKey, stopKey, resolveKey_eq, held, any_some]
    cases capability.keyed <;> cases frame.subscribes <;> rfl

theorem capabilityOf_closeForward (channel channel' : ℕ) (key : Option H) :
  (server.closeForward channel key).2.capabilityOf channel' = server.capabilityOf channel'
  := rfl

/-- A frame on a channel that the server does not hold starts nothing. -/
theorem receive_of_withdrawn (none_ : server.capabilityOf frame.channel = none) :
  server.receive frame = server ∨
    server.receive frame = (server.closeForward frame.channel none).2
  := by
  rw [receive, none_, any_none, if_neg Bool.false_ne_true]
  cases frame.key with
  | none =>
    cases frame.subscribes with
    | true =>
      left
      simp [start, none_]
    | false =>
      right
      have still : (server.closeForward frame.channel none).2.dynamicChannel frame.channel =
          false := by
        rw [dynamicChannel, capabilityOf_closeForward, none_]
      simp only [Bool.false_eq_true, if_false]
      rw [releaseHold]
      dsimp only
      rw [still, Bool.and_false, if_neg Bool.false_ne_true]
  | some key =>
    left
    dsimp only
    rw [startKey, stopKey, resolveKey_eq, none_]
    cases frame.subscribes <;> rfl

theorem capabilityOf_openForward (channel channel' : ℕ) (key : Option H) :
  (server.openForward channel key).capabilityOf channel' = server.capabilityOf channel'
  := by
  rw [openForward]
  cases server.forwardFor channel key <;> rfl

/-- What an ask leaves of its own channel. -/
theorem view_asked (sound : server.Sound) (held : server.capabilityOf channel = some capability)
    (ask : Ask (Option H)) :
  (server.asked channel ask).view channel =
    Holds.step capability.dynamic (server.view channel) ask
  := by
  rw [view, view, held, map_some]
  cases ask with
  | subscribe key =>
    rw [asked, capabilityOf_openForward, held, map_some, Holds.step]
    congr
    funext key'
    rw [holdsOf_openForward, Holds.hold_apply]
    simp only [Prod.mk.injEq, true_and]
  | unsubscribe key =>
    have closed : (server.closeForward channel key).2.holdsOf channel =
        Holds.release (server.holdsOf channel) key := by
      funext key'
      rw [holdsOf_closeForward sound, Holds.release_apply]
      simp only [Prod.mk.injEq, true_and]
    have drained := drained_iff sound channel key
    rw [closed] at drained
    have dynamic : (server.closeForward channel key).2.dynamicChannel channel =
        capability.dynamic := by
      rw [dynamicChannel, capabilityOf_closeForward, held]
    rw [asked, releaseHold, Holds.step]
    dsimp only
    rw [dynamic]
    by_cases gone : capability.dynamic = true ∧ Holds.release (server.holdsOf channel) key = 0
    · rw [if_pos gone, if_pos, capabilityOf_revoke, if_pos rfl, map_none]
      rw [Bool.and_eq_true]
      apply And.intro _ gone.1
      rw [drained, gone.2]
      intro key'
      rfl
    · rw [if_neg gone, if_neg, capabilityOf_closeForward, held, map_some, closed]
      rw [Bool.and_eq_true]
      rintro ⟨h, dynamic⟩
      apply gone
      apply And.intro dynamic
      funext key'
      apply drained.mp h

/-- What is the same in two servers as far as a channel goes. -/
def SameOn (channel : ℕ) (server server' : Server H) : Prop :=
  server.capabilityOf channel = server'.capabilityOf channel ∧
    ∀ key, server.holdsOf channel key = server'.holdsOf channel key

theorem asked_other (sound : server.Sound) {channel' : ℕ} (ne : channel' ≠ channel)
    (ask : Ask (Option H)) :
  SameOn channel' (server.asked channel ask) server
  := by
  have other : ∀ key key' : Option H, ¬ (channel', key') = (channel, key) := by
    rintro key key' ⟨⟩
    apply ne rfl
  cases ask with
  | subscribe key =>
    rw [asked]
    constructor
    · apply capabilityOf_openForward
    · intro key'
      rw [holdsOf_openForward, if_neg (other key key'), Nat.add_zero]
  | unsubscribe key =>
    have closed : ∀ key', (server.closeForward channel key).2.holdsOf channel' key' =
        server.holdsOf channel' key' := by
      intro key'
      rw [holdsOf_closeForward sound, if_neg (other key key'), Nat.sub_zero]
    rw [asked, releaseHold]
    dsimp only
    split
    next =>
      constructor
      · rw [capabilityOf_revoke, if_neg ne]
        rfl
      · intro key'
        rw [holdsOf_revoke, if_neg ne, closed]
    next => apply And.intro rfl closed

/-- A frame changes nothing on another channel. -/
theorem receive_other (sound : server.Sound) (ne : channel ≠ frame.channel) :
  SameOn channel (server.receive frame) server
  := by
  have refl : SameOn channel server server := ⟨rfl, fun _ => rfl⟩
  cases held : server.capabilityOf frame.channel with
  | none =>
    obtain eq | eq := receive_of_withdrawn held
    · rw [eq]
      apply refl
    · rw [eq]
      apply And.intro rfl
      intro key
      rw [holdsOf_closeForward sound, if_neg, Nat.sub_zero]
      rintro ⟨⟩
      apply ne rfl
  | some capability =>
    cases controlled : capability.controlled with
    | true =>
      rw [receive, held, any_some, controlled, if_pos rfl]
      apply refl
    | false =>
      rw [receive_eq_asked held controlled]
      cases frame.ask capability.keyed with
      | none => apply refl
      | some ask => apply asked_other sound ne

/-- What a frame leaves of the capability of a channel: it may withdraw it. -/
theorem capabilityOf_receive (sound : server.Sound) (frame : ControlFrame H) (channel : ℕ) :
  (server.receive frame).capabilityOf channel = none ∨
    (server.receive frame).capabilityOf channel = server.capabilityOf channel
  := by
  by_cases ne : channel = frame.channel
  · subst ne
    cases held : server.capabilityOf frame.channel with
    | none =>
      left
      obtain eq | eq := receive_of_withdrawn held
      · rw [eq, held]
      · rw [eq, capabilityOf_closeForward, held]
    | some capability =>
      cases controlled : capability.controlled with
      | true =>
        right
        rw [receive, held, any_some, controlled, if_pos rfl, held]
      | false =>
        rw [receive_eq_asked held controlled]
        cases frame.ask capability.keyed with
        | none =>
          right
          apply held
        | some ask =>
          cases ask with
          | subscribe key =>
            right
            rw [← held]
            apply capabilityOf_openForward
          | unsubscribe key =>
            rw [map_some, getD_some, asked, releaseHold]
            dsimp only
            split
            next =>
              left
              rw [capabilityOf_revoke, if_pos rfl]
            next =>
              right
              rw [capabilityOf_closeForward, held]
  · right
    apply (receive_other sound ne).1

/-! ### Orders -/

/-- The asks of some frames for a channel. -/
def asksOf (keyed : Bool) (frames : List (ControlFrame H)) : List (Ask (Option H)) :=
  frames.filterMap (ControlFrame.ask keyed)

/-- Frames on one channel are what they ask of it. -/
theorem view_receiveAll (sound : server.Sound)
    (held : server.capabilityOf channel = none ∨ server.capabilityOf channel = some capability)
    (plain : capability.controlled = false) (on : ∀ frame ∈ frames, frame.channel = channel) :
  (server.receiveAll frames).view channel =
    Holds.after capability.dynamic (server.view channel) (asksOf capability.keyed frames) ∧
  ((server.receiveAll frames).capabilityOf channel = none ∨
    (server.receiveAll frames).capabilityOf channel = some capability)
  := by
  induction frames generalizing server with
  | nil => apply And.intro rfl held
  | cons frame frames ih =>
    obtain rfl := on frame mem_cons_self
    have held' : (server.receive frame).capabilityOf frame.channel = none ∨
        (server.receive frame).capabilityOf frame.channel = some capability := by
      obtain none_ | same := capabilityOf_receive sound frame frame.channel
      · apply Or.inl none_
      · rw [same]
        apply held
    obtain ⟨view_eq, last⟩ := ih (sound.receive frame) held'
      fun frame mem => on frame (mem_cons_of_mem _ mem)
    refine ⟨?_, last⟩
    have step : (server.receive frame).view frame.channel =
        Holds.after capability.dynamic (server.view frame.channel)
          (frame.ask capability.keyed).toList := by
      obtain none_ | held := held
      · have view_none : server.view frame.channel = none := by
          rw [view, none_]
          rfl
        rw [view_none, Holds.after_none, view]
        obtain eq | eq := receive_of_withdrawn none_
        · rw [eq, none_]
          rfl
        · rw [eq, capabilityOf_closeForward, none_]
          rfl
      · rw [receive_eq_asked held plain]
        cases frame.ask capability.keyed with
        | none => rfl
        | some ask => apply view_asked sound held
    rw [receiveAll, foldl_cons]
    rw [receiveAll] at view_eq
    rw [view_eq, step, ← Holds.after_append]
    congr
    rw [asksOf, asksOf, filterMap_cons]
    cases frame.ask capability.keyed <;> rfl

/-- Frames on one channel leave the other ones. -/
theorem receiveAll_other (sound : server.Sound) {channel' : ℕ} (ne : channel' ≠ channel)
    (on : ∀ frame ∈ frames, frame.channel = channel) :
  SameOn channel' (server.receiveAll frames) server
  := by
  induction frames generalizing server with
  | nil => exact ⟨rfl, fun _ => rfl⟩
  | cons frame frames ih =>
    obtain rfl := on frame mem_cons_self
    obtain ⟨capability_eq, holds_eq⟩ := ih (sound.receive frame)
      fun frame mem => on frame (mem_cons_of_mem _ mem)
    obtain ⟨capability_eq', holds_eq'⟩ := receive_other sound ne
    constructor
    · rw [← capability_eq']
      apply capability_eq
    · intro key
      rw [← holds_eq']
      apply holds_eq

theorem Sound.receiveAll (sound : server.Sound) (frames : List (ControlFrame H)) :
  (server.receiveAll frames).Sound
  := by
  induction frames generalizing server with
  | nil => apply sound
  | cons frame frames ih => apply ih (sound.receive frame)

/-- Two servers run the same demands and hold the same capabilities. -/
def SameFinal (server server' : Server H) : Prop :=
  (∀ channel key, (server.forwardFor channel key).isSome = (server'.forwardFor channel key).isSome) ∧
    ∀ channel, server.capabilityOf channel = server'.capabilityOf channel

/-- Some frames leave the same in whatever order they are delivered. -/
def Insensitive (server : Server H) (frames : List (ControlFrame H)) : Prop :=
  ∀ order : List (ControlFrame H), order.Perm frames →
    SameFinal (server.receiveAll order) (server.receiveAll frames)

theorem forwardFor_isSome_eq_iff (sound : server.Sound) {server' : Server H} (sound' : server'.Sound)
    (channel : ℕ) (key : Option H) :
  (server.forwardFor channel key).isSome = (server'.forwardFor channel key).isSome ↔
    (0 < server.holdsOf channel key ↔ 0 < server'.holdsOf channel key)
  := by
  rw [holdsOf_pos_iff sound, holdsOf_pos_iff sound', Bool.eq_iff_iff]

/-- Frames on one channel that leave the same on it leave the same. -/
theorem sameFinal_iff (sound : server.Sound) (held : server.capabilityOf channel = some capability)
    (plain : capability.controlled = false) {order : List (ControlFrame H)}
    (on : ∀ frame ∈ frames, frame.channel = channel) (perm : order.Perm frames) :
  SameFinal (server.receiveAll order) (server.receiveAll frames) ↔
    Same ((server.receiveAll order).view channel) ((server.receiveAll frames).view channel)
  := by
  have on' : ∀ frame ∈ order, frame.channel = channel :=
    fun frame mem => on frame (perm.mem_iff.mp mem)
  have sound₁ := sound.receiveAll order
  have sound₂ := sound.receiveAll frames
  have last₁ := (view_receiveAll sound (.inr held) plain on').2
  have last₂ := (view_receiveAll sound (.inr held) plain on).2
  have unheld : ∀ {server : Server H}, server.Sound → server.capabilityOf channel = none →
      ∀ key, server.forwardFor channel key = none := by
    intro server sound none_ key
    rw [forwardFor, find?_eq_none]
    intro forward mem carried
    rw [LiveForward.carries_iff] at carried
    have owned := sound.owned forward mem
    rw [carried.1, none_] at owned
    cases owned
  constructor
  · rintro ⟨forwards, capabilities⟩
    have same := capabilities channel
    rw [view, view]
    obtain none_ | some_ := last₂
    · rw [same, none_]
      trivial
    · rw [same, some_]
      intro key
      apply (forwardFor_isSome_eq_iff sound₁ sound₂ channel key).mp
      apply forwards
  · intro same
    rw [view, view] at same
    have capability_eq : (server.receiveAll order).capabilityOf channel =
        (server.receiveAll frames).capabilityOf channel := by
      obtain none₁ | some₁ := last₁ <;> obtain none₂ | some₂ := last₂
      · rw [none₁, none₂]
      · rw [none₁, some₂] at same
        apply False.elim same
      · rw [some₁, none₂] at same
        apply False.elim same
      · rw [some₁, some₂]
    have other : ∀ channel', channel' ≠ channel →
        SameOn channel' (server.receiveAll order) server ∧
          SameOn channel' (server.receiveAll frames) server :=
      fun channel' ne => ⟨receiveAll_other sound ne on', receiveAll_other sound ne on⟩
    constructor
    · intro channel' key
      by_cases ne : channel' = channel
      · subst ne
        obtain none_ | some_ := last₂
        · rw [unheld sound₂ none_, unheld sound₁ (capability_eq.trans none_)]
        · rw [capability_eq, some_] at same
          apply (forwardFor_isSome_eq_iff sound₁ sound₂ _ key).mpr (same key)
      · obtain ⟨first, second⟩ := other channel' ne
        rw [forwardFor_isSome_eq_iff sound₁ sound₂, first.2, second.2]
    · intro channel'
      by_cases ne : channel' = channel
      · rw [ne, capability_eq]
      · obtain ⟨first, second⟩ := other channel' ne
        rw [first.1, second.1]

omit [DecidableEq H] in
/-- An order of asks is an order of the frames that ask them. -/
theorem exists_order (keyed : Bool) {order : List (Ask (Option H))}
    (perm : order.Perm (asksOf keyed frames)) :
  ∃ frames' : List (ControlFrame H), frames'.Perm frames ∧ asksOf keyed frames' = order
  := by
  induction order generalizing frames with
  | nil =>
    refine ⟨frames, List.Perm.refl frames, ?_⟩
    apply nil_perm.mp perm
  | cons ask order ih =>
    obtain ⟨frame, mem, eq⟩ := mem_filterMap.mp (perm.subset mem_cons_self)
    obtain ⟨before, behind, rfl⟩ := append_of_mem mem
    have perm' : (ask :: order).Perm (ask :: asksOf keyed (before ++ behind)) := by
      apply perm.trans
      have moved : (before ++ frame :: behind).Perm (frame :: (before ++ behind)) :=
        perm_middle
      have step := moved.filterMap (ControlFrame.ask keyed)
      rw [filterMap_cons_some eq] at step
      apply step
    obtain ⟨frames', perm'', eq'⟩ := ih (List.Perm.cons_inv perm')
    refine ⟨frame :: frames', ?_, ?_⟩
    · apply (perm''.cons frame).trans perm_middle.symm
    · rw [asksOf, filterMap_cons_some eq]
      rw [asksOf] at eq'
      rw [eq']

/-- When the order of some frames on a channel does not matter: on a channel of a field, when each
demand that is subscribed keeps a hold whatever the order; on a dynamic one, when none is
unsubscribed, or none subscribed, or a hold keeps the channel while that is so, or all are released
and none is subscribed beside another. -/
def Settling (server : Server H) (channel : ℕ) (capability : Capability)
    (frames : List (ControlFrame H)) : Prop :=
  if capability.dynamic then
    Holds.Settled (server.holdsOf channel) (asksOf capability.keyed frames)
  else Holds.Kept (server.holdsOf channel) (asksOf capability.keyed frames)

theorem unordered_iff_settling
    (channel : ℕ) (capability : Capability) (frames : List (ControlFrame H)) :
  Holds.Unordered capability.dynamic (server.holdsOf channel) (asksOf capability.keyed frames) ↔
    server.Settling channel capability frames
  := by
  rw [Settling]
  cases capability.dynamic with
  | true => apply Holds.unordered_settled_iff
  | false => apply Holds.unordered_kept_iff

/-- The order in which the frames of a client on one channel are delivered does not matter exactly
when they are settling. -/
theorem insensitive_iff_settling
    {acts : List (Act H)} (reached : server.Reached acts)
    {channel : ℕ} {capability : Capability}
    (held : server.capabilityOf channel = some capability) (plain : capability.controlled = false)
    {frames : List (ControlFrame H)} (on : ∀ frame ∈ frames, frame.channel = channel) :
  server.Insensitive frames ↔ server.Settling channel capability frames
  := by
  have sound := reached.sound
  have view_eq : server.view channel = some (server.holdsOf channel) := by
    rw [view, held]
    rfl
  have after : ∀ order : List (ControlFrame H), order.Perm frames →
      (server.receiveAll order).view channel =
        Holds.after capability.dynamic (some (server.holdsOf channel))
          (asksOf capability.keyed order) := by
    intro order perm
    rw [← view_eq]
    apply (view_receiveAll sound (.inr held) plain _).1
    intro frame mem
    apply on frame (perm.mem_iff.mp mem)
  rw [← unordered_iff_settling]
  constructor
  · intro insensitive asks perm
    obtain ⟨order, perm', rfl⟩ := exists_order capability.keyed perm
    rw [← after order perm', ← after frames (List.Perm.refl frames)]
    apply (sameFinal_iff sound held plain on perm').mp
    apply insensitive order perm'
  · intro unordered order perm
    apply (sameFinal_iff sound held plain on perm).mpr
    rw [after order perm, after frames (List.Perm.refl frames)]
    apply unordered
    apply perm.filterMap

/-! ### A field that is shown and hidden -/

/-- A server of one field, with the channel of it. -/
def oneField : Server ℕ :=
  (new 0).act (.expose false)

/-- A client that shows the field, and hides it again. -/
def shownAndHidden : List (ControlFrame ℕ) :=
  [⟨true, 0, none⟩, ⟨false, 0, none⟩]

/-- The field is shown twice and hidden once. -/
def shownTwice : List (ControlFrame ℕ) :=
  [⟨true, 0, none⟩, ⟨true, 0, none⟩, ⟨false, 0, none⟩]

theorem oneField_reached : oneField.Reached [.expose false] := by
  apply Machine.Run.step (Machine.Run.start ⟨0, rfl⟩) rfl

/-- A client that releases no demand more often than it has taken it, up to any point. -/
def Conforming (server : Server H) (channel : ℕ) (frames : List (ControlFrame H)) : Prop :=
  ∀ count key, (frames.take count).countP (fun frame => !frame.subscribes && frame.key = key) ≤
    server.holdsOf channel key +
      (frames.take count).countP (fun frame => frame.subscribes && frame.key = key)

theorem shownTwice_settling :
  oneField.Insensitive shownTwice ↔ oneField.Settling 0 ⟨false, false, none, false⟩ shownTwice
  := insensitive_iff_settling oneField_reached rfl rfl (by decide)

theorem shownAndHidden_conforming : oneField.Conforming 0 shownAndHidden := by
  intro count key
  match count with
  | 0 => simp
  | 1 => simp [shownAndHidden]
  | count + 2 =>
      rw [take_of_length_le (by simp [shownAndHidden])]
      cases key <;> simp [shownAndHidden]

/-- Hidden before it is shown, the field is forwarded from then on. -/
theorem hidden_first_forwarded :
  ¬ ∀ (server : Server ℕ) (acts : List (Act ℕ)) (channel : ℕ) (capability : Capability)
      (frames : List (ControlFrame ℕ)),
    server.Reached acts → server.capabilityOf channel = some capability →
      capability.controlled = false → (∀ frame ∈ frames, frame.channel = channel) →
        server.Conforming channel frames → server.Insensitive frames
  := by
  intro h
  obtain ⟨forwards, _⟩ := h oneField _ 0 _ shownAndHidden oneField_reached rfl rfl (by decide)
    shownAndHidden_conforming shownAndHidden.reverse (reverse_perm _)
  have forward_eq := forwards 0 none
  revert forward_eq
  decide

end Server

end Vilan.Rpc
