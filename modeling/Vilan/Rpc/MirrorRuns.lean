import Vilan.Rpc.Mirror

/-!
# Every run of a connection

The views of the client and the channels of the server keep to their own rules in every run.
-/

namespace Vilan

namespace Mirror

variable {T P : Type}

namespace Connection

/-! ### Every run -/

/-- The parts of a connection are each sound. -/
structure Sound (s : Connection T P) : Prop where
  channels : ∀ channel held, s.channels.get channel = some held → held.Sound
  views : ∀ view, (s.views view).Sound

variable {s : Connection T P}

theorem Sound.of_eq {moved : Connection T P} (h : s.Sound) (hchannels : moved.channels = s.channels)
    (hviews : moved.views = s.views) :
  moved.Sound
  where
  channels := by
    rw [hchannels]
    apply h.channels
  views := by
    rw [hviews]
    apply h.views

section

variable (h : s.Sound)
include h

theorem Sound.setMint (mint : ℕ) (moved : StoreMint T P) :
  (s.setMint mint moved).Sound
  := h.of_eq rfl rfl

theorem Sound.setView (view : ℕ) {moved : MirrorView T P} (hmoved : moved.Sound) :
  (s.setView view moved).Sound
  where
  channels := h.channels
  views := by
    rw [Connection.setView, Function.forall_update_iff s.views (fun _ held => held.Sound)]
    exact ⟨hmoved, fun other _ => h.views other⟩

theorem Sound.setChannel (channel : ℕ) {moved : MirrorChannel}
    (hmoved : moved.Sound) :
  Sound { s with channels := s.channels.insert channel moved }
  where
  channels := by
    intro other held hget
    rw [Table.get_insert] at hget
    split at hget
    next =>
      rw [Option.some_inj] at hget
      rw [← hget]
      apply hmoved
    next => apply h.channels other held hget
  views := h.views

theorem Sound.ask (mint : ℕ) :
  (s.ask mint).Sound
  := by
  rw [Connection.ask]
  split
  · apply h
  · exact ⟨h.channels, h.views⟩

theorem Sound.hold (mint : ℕ) (boundary : MirrorBoundary T P) :
  (s.hold mint boundary).Sound
  := by
  rw [Connection.hold]
  split
  next view base _ =>
    apply Sound.setMint
    apply Sound.setView
    · exact ⟨h.channels, h.views⟩
    · apply ((h.views view).hold boundary base).1
  next =>
    apply Sound.ask
    apply Sound.setMint
    exact ⟨h.channels, h.views⟩

theorem Sound.release (mint id : ℕ) :
  (s.release mint id).Sound
  := by
  rw [Connection.release]
  split
  next => apply h
  next =>
    simp only
    split
    next view slot _ =>
      apply (h.setMint mint _).setView
      apply ((h.views view).release slot).1
    next => apply h.setMint
    next =>
      split
      · apply h.setMint
      · apply h.setMint

theorem Sound.letGo (mint : ℕ) :
  (s.letGo mint).Sound
  := by
  rw [Connection.letGo]
  split
  next =>
    split
    next view base _ =>
      apply (h.setMint mint _).setView
      apply (h.views view).releaseBase
    next => apply h
  next => apply h

theorem Sound.flush (view : ℕ) :
  (s.flush view).Sound
  := by
  apply Sound.of_eq
  · apply h.setView view (h.views view).flush.1
  · rfl
  · rfl

theorem Sound.mirrorView (channel : ℕ) :
  (s.mirrorView channel).1.Sound
  := by
  rw [Connection.mirrorView]
  split
  next => apply h
  next =>
    apply Sound.of_eq
    · apply h.setView s.nextView (MirrorView.sound_new channel)
    · rfl
    · rfl

end

/-- Putting holds onto a channel, one by one, keeps what each of them keeps. -/
theorem rehold_induction (view : ℕ) (base : ℤ) {p : MirrorView T P → Prop}
    (hp : ∀ held boundary, p held → p (held.hold boundary base).1)
    (entries : List (ℕ × MintHold T P)) (state : MirrorView T P × Table ℕ (MintHold T P))
    (h : p state.1) :
  p (entries.foldl (rehold view base) state).1
  := by
  induction entries generalizing state with
  | nil => apply h
  | cons entry rest ih =>
    rw [List.foldl_cons]
    apply ih
    apply hp _ _ h

theorem Sound.bind [StoreWire T P] (h : s.Sound) (mint channel : ℕ) (base : ℤ) (seed : Option T) :
  (s.bind mint channel base seed).Sound
  := by
  have hrouted := h.mirrorView channel
  apply Sound.letGo
  apply Sound.setMint
  apply hrouted.setView
  apply rehold_induction
  · intro held boundary hheld
    apply (hheld.hold boundary base).1
  · apply (hrouted.views _).adoptBase
    rfl

theorem Sound.landIn (h : s.Sound) (landing : Option (MirrorView.Landing T)) :
  (s.landIn landing).Sound
  := by
  cases landing with
  | none => apply h
  | some landing => apply h.setMint

theorem Sound.land (h : s.Sound) (view : ℕ) (ops : List (PatchOp P)) :
  (s.land view ops).Sound
  := by
  induction ops generalizing s with
  | nil => apply h
  | cons op rest ih =>
    rw [Connection.land]
    split
    next => apply h
    next moved landing hland =>
      apply ih
      apply Sound.landIn
      apply h.setView
      apply ((h.views view).land hland).1

theorem Sound.receive (h : s.Sound) (channel : ℕ) (ops : List (PatchOp P)) :
  (s.receive channel ops).Sound
  := by
  rw [Connection.receive]
  split
  · apply h.land
  · apply h

theorem Sound.mirrorChannel (h : s.Sound) (root : ℕ) :
  (s.mirrorChannel root).1.Sound
  := by
  rw [Connection.mirrorChannel]
  split
  · apply h
  · apply Sound.of_eq
    · apply h.setChannel s.nextChannel
        (MirrorChannel.sound_opened s.nextChannel root)
    · rfl
    · rfl

theorem Sound.reply (h : s.Sound) (mint : ℕ) (handle : StoreHandle) (seed : Option T) :
  (s.reply mint handle seed).Sound
  := by
  have hopened := h.mirrorChannel handle.root
  rw [Connection.reply]
  simp only
  split
  next => apply hopened
  next held hget =>
    apply Sound.of_eq
    · apply hopened.setChannel (s.mirrorChannel handle.root).2
        ((hopened.channels _ held hget).grant handle)
    · rfl
    · rfl

/-- A control frame opens no channel and leaves each of them sound. -/
theorem sound_served {channels : Table ℕ MirrorChannel}
    (h : ∀ channel held, channels.get channel = some held → held.Sound) (control : Control) :
  ∀ channel held, (served channels control).get channel = some held →
    held.Sound ∧ channels.get channel ≠ none
  := by
  intro other held' hget'
  cases control with
  | subscribe channel entries =>
    rw [served] at hget'
    split at hget'
    next => exact ⟨h other held' hget', by simp [hget']⟩
    next held hget =>
      rw [Table.get_insert] at hget'
      split at hget'
      next heq =>
        rw [Option.some_inj] at hget'
        rw [← hget', heq, hget]
        exact ⟨((h channel held hget).subscribe entries).1, by simp⟩
      next => exact ⟨h other held' hget', by simp [hget']⟩
  | unsubscribe channel slots =>
    rw [served] at hget'
    split at hget'
    next => exact ⟨h other held' hget', by simp [hget']⟩
    next held hget =>
      simp only at hget'
      split at hget'
      next =>
        rw [Table.get_remove] at hget'
        split at hget'
        next => cases hget'
        next => exact ⟨h other held' hget', by simp [hget']⟩
      next =>
        rw [Table.get_insert] at hget'
        split at hget'
        next heq =>
          rw [Option.some_inj] at hget'
          rw [← hget', heq, hget]
          exact ⟨((h channel held hget).unsubscribe slots).1, by simp⟩
        next => exact ⟨h other held' hget', by simp [hget']⟩

theorem Sound.serve (h : s.Sound) (control : Control) :
  (s.serve control).Sound
  where
  channels channel held hget := (sound_served h.channels control channel held hget).1
  views := h.views

theorem Sound.send (h : s.Sound) (channel : ℕ) (ops : List (PatchOp P)) :
  (s.send channel ops).Sound
  := by
  rw [Connection.send]
  split
  next => apply h
  next held hget =>
    simp only
    split
    next => apply h
    next =>
      have hheld := h.channels channel held hget
      have hacked : MirrorChannel.Sound { held with acked := [] } :=
        ⟨hheld.1, hheld.2, hheld.3, hheld.4, hheld.5, hheld.6, hheld.7, hheld.8, hheld.9,
          hheld.10⟩
      have hset := h.setChannel channel hacked
      exact ⟨hset.channels, hset.views⟩

theorem Sound.step [StoreWire T P] {s' : Connection T P} (h : s.Sound) {event : Event T P}
    (hstep : Step s event s') :
  s'.Sound
  := by
  cases hstep with
  | hold mint boundary => apply h.hold
  | release mint id => apply h.release
  | letGo mint => apply h.letGo
  | flush view => apply h.flush
  | reply mint handle seed => apply h.reply
  | refuse mint => exact ⟨h.channels, h.views⟩
  | serve control rest =>
    apply Sound.serve
    exact ⟨h.channels, h.views⟩
  | send channel ops => apply h.send
  | bind before after mint channel base seed =>
    apply Sound.bind
    exact ⟨h.channels, h.views⟩
  | fail before after mint => exact ⟨h.channels, h.views⟩
  | receive channel ops rest =>
    apply Sound.receive
    exact ⟨h.channels, h.views⟩

/-- The parts of a connection are sound in every run. -/
theorem run_sound [StoreWire T P] {trace : List (Event T P)} (run : Run trace s) :
  s.Sound
  := by
  apply run.invariant
  · rintro s rfl
    refine ⟨?_, fun _ => MirrorView.sound_new 0⟩
    intro channel held hget
    rw [fresh, Table.get_empty] at hget
    cases hget
  · intro s event s' h hstep
    apply h.step hstep

end Connection

end Mirror

end Vilan
