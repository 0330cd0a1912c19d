import Vilan.Reactive.Storable

/-!
# What a diff wakes

Whether a diff wakes a slot depends on the two values and on the slot's path below the diff,
and on nothing else: neither on what else is watched nor on whether an answer was asked for.
`StoreValue.Moved` says which paths these are.  The answer of a diff never claims a change
there is none of, and it misses none when it is needed or a slot stands at the node.
-/

namespace Vilan

open List Option StoreWoken

variable {H R L : Type*} [DecidableEq H]

/-! ### Slots below a node -/

/-- The slot at a path below a node, if there is one. -/
def slotIn (node : Option (StoreNode H R)) (path : List (StoreStep H)) : Option StoreSlot :=
  node.bind fun held => (held.standsAt path).me

theorem slotIn_none (path : List (StoreStep H)) :
  slotIn (none : Option (StoreNode H R)) path = none
  := rfl

theorem slotIn_nil (node : Option (StoreNode H R)) :
  slotIn node [] = node.bind StoreNode.me
  := rfl

theorem slotIn_cons (node : Option (StoreNode H R)) (step : StoreStep H)
    (path : List (StoreStep H)) :
  slotIn node (step :: path) = slotIn (node.bind fun held => held.stepKid step) path
  := by
  cases node with
  | none => rfl
  | some held =>
    rw [slotIn, bind_some, bind_some, StoreNode.standsAt, StoreNode.heldAt_cons]
    cases held.stepKid step with
    | none => rfl
    | some kid => rfl

theorem slotIn_field (node : Option (StoreNode H R)) (index : ℕ) (path : List (StoreStep H)) :
  slotIn node (.field index :: path) = slotIn (storeKid node index) path
  := slotIn_cons node _ path

/-- No two paths below a node hold one slot. -/
def Scattered (node : Option (StoreNode H R)) : Prop :=
  ∀ path other slot, slotIn node path = some slot → slotIn node other = some slot →
    path = other

/-- Every node holds each of its keys once. -/
def Keyed (node : Option (StoreNode H R)) : Prop :=
  ∀ held, node = some held → held.WellKeyed

variable {node : Option (StoreNode H R)} {slot : StoreSlot}

theorem Scattered.kid (h : Scattered node) (step : StoreStep H) :
  Scattered (node.bind fun held => held.stepKid step)
  := by
  intro path other slot hpath hother
  rw [← slotIn_cons] at hpath hother
  apply (List.cons.inj (h _ _ _ hpath hother)).2

theorem Scattered.storeKid (h : Scattered node) (index : ℕ) :
  Scattered (storeKid node index)
  := h.kid (.field index)

theorem Keyed.kid (h : Keyed node) (step : StoreStep H) :
  Keyed (node.bind fun held => held.stepKid step)
  := by
  intro below hbelow
  obtain ⟨held, rfl, hkid⟩ := bind_eq_some_iff.mp hbelow
  apply (StoreNode.wellKeyed_iff.mp (h held rfl)).2 step below hkid

theorem Keyed.storeKid (h : Keyed node) (index : ℕ) :
  Keyed (storeKid node index)
  := h.kid (.field index)

/-! ### Waking everything -/

namespace StoreNode

omit [DecidableEq H] in
/-- What holds of a node when it holds of its children holds of every node. -/
theorem induction {P : StoreNode H R → Prop}
    (h : ∀ node, (∀ kid, some kid ∈ node.kids → P kid) → (∀ entry ∈ node.keyed, P entry.2) →
      P node)
    (node : StoreNode H R) :
  P node
  := by
  apply h
  · intro kid hkid
    have : sizeOf kid < sizeOf node := by
      obtain ⟨me, kids, keyed, feeds⟩ := node
      have := sizeOf_lt_of_mem hkid
      simp only [StoreNode.kids, Option.some.sizeOf_spec] at this
      simp only [mk.sizeOf_spec]
      omega
    apply induction h kid
  · intro entry hentry
    have : sizeOf entry.2 < sizeOf node := by
      obtain ⟨me, kids, keyed, feeds⟩ := node
      obtain ⟨hash, kid⟩ := entry
      have := sizeOf_lt_of_mem hentry
      simp only [StoreNode.keyed, Prod.mk.sizeOf_spec] at this
      simp only [mk.sizeOf_spec]
      omega
    apply induction h entry.2
termination_by sizeOf node

variable {slot : StoreSlot} {node : StoreNode H R}

omit [DecidableEq H] in
theorem mem_wakeKids {kids : List (Option (StoreNode H R))} :
  slot ∈ (wakeKids kids).slots ↔ ∃ kid, some kid ∈ kids ∧ slot ∈ (wakeAll kid).slots
  := by
  induction kids with
  | nil => simp [wakeKids]
  | cons first rest ih =>
    cases first with
    | none => simp [wakeKids, ih]
    | some kid => simp [wakeKids, ih, or_and_right, exists_or]

omit [DecidableEq H] in
theorem mem_wakeKeyed {keyed : List (H × StoreNode H R)} :
  slot ∈ (wakeKeyed keyed).slots ↔ ∃ entry ∈ keyed, slot ∈ (wakeAll entry.2).slots
  := by
  induction keyed with
  | nil => simp [wakeKeyed]
  | cons first rest ih => simp [wakeKeyed, ih]

theorem stepKid_field {kid : StoreNode H R} {index : ℕ} :
  node.stepKid (.field index) = some kid ↔ node.kids[index]? = some (some kid)
  := by
  change node.kids[index]?.join = some kid ↔ _
  rw [join_eq_some_iff]

/-- Waking everything wakes the slots at every path. -/
theorem mem_wakeAll (hkeys : node.WellKeyed) :
  slot ∈ (wakeAll node).slots ↔ ∃ path, slotIn (some node) path = some slot
  := by
  induction node using StoreNode.induction with
  | h node ihkids ihkeyed =>
    have hkid := (wellKeyed_iff.mp hkeys).2
    have hfind : ∀ {hash kid}, node.stepKid (.key hash) = some kid ↔ (hash, kid) ∈ node.keyed :=
      Table.find_eq_some_iff (wellKeyed_iff.mp hkeys).1
    have hsplit : slot ∈ (wakeAll node).slots
        ↔ (∃ kid, some kid ∈ node.kids ∧ slot ∈ (wakeAll kid).slots)
          ∨ (∃ entry ∈ node.keyed, slot ∈ (wakeAll entry.2).slots) ∨ node.me = some slot := by
      obtain ⟨me, kids, keyed, feeds⟩ := node
      rw [wakeAll, slots_append, slots_append, mem_append,
        mem_append, mem_wakeKids, mem_wakeKeyed, mem_toList]
      rfl
    rw [hsplit]
    constructor
    · rintro (⟨kid, hmem, hslot⟩ | ⟨⟨hash, kid⟩, hmem, hslot⟩ | hme)
      · obtain ⟨index, hget⟩ := mem_iff_getElem?.mp hmem
        have hstep := stepKid_field.mpr hget
        obtain ⟨path, hpath⟩ := (ihkids kid hmem (hkid _ _ hstep)).mp hslot
        use .field index :: path
        rw [slotIn_cons, bind_some, hstep]
        apply hpath
      · have hstep := hfind.mpr hmem
        obtain ⟨path, hpath⟩ := (ihkeyed _ hmem (hkid _ _ hstep)).mp hslot
        use .key hash :: path
        rw [slotIn_cons, bind_some, hstep]
        apply hpath
      · use []
        apply hme
    · rintro ⟨path, hpath⟩
      cases path with
      | nil =>
        right
        right
        apply hpath
      | cons step path =>
        rw [slotIn_cons, bind_some] at hpath
        cases hstep : node.stepKid step with
        | none =>
          rw [hstep] at hpath
          contradiction
        | some kid =>
          rw [hstep] at hpath
          cases step with
          | field index =>
            left
            have hmem := mem_of_getElem? (stepKid_field.mp hstep)
            refine ⟨kid, hmem, ?_⟩
            apply (ihkids kid hmem (hkid _ _ hstep)).mpr ⟨path, hpath⟩
          | key hash =>
            right
            left
            have hmem := hfind.mp hstep
            refine ⟨_, hmem, ?_⟩
            apply (ihkeyed _ hmem (hkid _ _ hstep)).mpr ⟨path, hpath⟩

omit [DecidableEq H] in
theorem nodup_wakeKids {kids : List (Option (StoreNode H R))}
    (hnodup : ∀ kid, some kid ∈ kids → (wakeAll kid).slots.Nodup)
    (hapart : ∀ (i j : ℕ) (kid other : StoreNode H R) (slot : StoreSlot),
      kids[i]? = some (some kid) → kids[j]? = some (some other) →
      slot ∈ (wakeAll kid).slots → slot ∈ (wakeAll other).slots → i = j) :
  (wakeKids kids).slots.Nodup
  := by
  induction kids with
  | nil => apply nodup_nil
  | cons first rest ih =>
    have hrest : (wakeKids rest).slots.Nodup := by
      apply ih
      · intro kid hkid
        apply hnodup kid (mem_cons_of_mem _ hkid)
      · intro i j kid other slot hi hj hslot hslot'
        have := hapart (i + 1) (j + 1) kid other slot hi hj hslot hslot'
        omega
    cases first with
    | none => apply hrest
    | some kid =>
      rw [wakeKids, slots_append, nodup_append]
      refine ⟨hnodup kid mem_cons_self, hrest, ?_⟩
      rintro slot hslot _ hother rfl
      obtain ⟨other, hmem, hother⟩ := mem_wakeKids.mp hother
      obtain ⟨j, hj⟩ := mem_iff_getElem?.mp hmem
      have := hapart 0 (j + 1) kid other slot rfl hj hslot hother
      omega

omit [DecidableEq H] in
theorem nodup_wakeKeyed {keyed : List (H × StoreNode H R)}
    (hkeys : (keyed.map Prod.fst).Nodup)
    (hnodup : ∀ entry ∈ keyed, (wakeAll entry.2).slots.Nodup)
    (hapart : ∀ entry ∈ keyed, ∀ other ∈ keyed, ∀ slot, slot ∈ (wakeAll entry.2).slots →
      slot ∈ (wakeAll other.2).slots → entry.1 = other.1) :
  (wakeKeyed keyed).slots.Nodup
  := by
  induction keyed with
  | nil => apply nodup_nil
  | cons first rest ih =>
    rw [map_cons, nodup_cons] at hkeys
    rw [wakeKeyed, slots_append, nodup_append]
    refine ⟨hnodup first mem_cons_self, ?_, ?_⟩
    · apply ih hkeys.2
      · intro entry hentry
        apply hnodup entry (mem_cons_of_mem _ hentry)
      · intro entry hentry other hother
        apply hapart entry (mem_cons_of_mem _ hentry) other
          (mem_cons_of_mem _ hother)
    · rintro slot hslot _ hother rfl
      obtain ⟨other, hmem, hother⟩ := mem_wakeKeyed.mp hother
      have heq := hapart first mem_cons_self other (mem_cons_of_mem _ hmem) slot
        hslot hother
      apply hkeys.1
      rw [heq]
      apply List.mem_map_of_mem hmem

/-- Waking everything wakes each slot once. -/
theorem nodup_wakeAll (hkeys : node.WellKeyed) (h : Scattered (some node)) :
  (wakeAll node).slots.Nodup
  := by
  induction node using StoreNode.induction with
  | h node ihkids ihkeyed =>
    have hkid := (wellKeyed_iff.mp hkeys).2
    have hscattered : ∀ step kid, node.stepKid step = some kid → Scattered (some kid) := by
      intro step kid hstep
      have := h.kid step
      rw [bind_some, hstep] at this
      apply this
    have hkey : ∀ entry ∈ node.keyed, node.stepKid (.key entry.1) = some entry.2 := by
      intro entry hentry
      apply (Table.find_eq_some_iff (wellKeyed_iff.mp hkeys).1).mpr hentry
    -- A slot that is woken in a child has a path that begins with the child's step.
    have hpath : ∀ step kid, node.stepKid step = some kid → ∀ slot,
        slot ∈ (wakeAll kid).slots → ∃ path, slotIn (some node) (step :: path) = some slot := by
      intro step kid hstep slot hslot
      obtain ⟨path, hpath⟩ := (mem_wakeAll (hkid _ _ hstep)).mp hslot
      use path
      rw [slotIn_cons, bind_some, hstep]
      apply hpath
    have hapart : ∀ step kid other other' slot, node.stepKid step = some kid →
        node.stepKid other = some other' → slot ∈ (wakeAll kid).slots →
        slot ∈ (wakeAll other').slots → step = other := by
      intro step kid other other' slot hstep hother hslot hslot'
      obtain ⟨path, hp⟩ := hpath step kid hstep slot hslot
      obtain ⟨path', hp'⟩ := hpath other other' hother slot hslot'
      apply (List.cons.inj (h _ _ _ hp hp')).1
    have hme : ∀ step kid slot, node.stepKid step = some kid → slot ∈ (wakeAll kid).slots →
        slot ∉ node.me.toList := by
      intro step kid slot hstep hslot hmem
      obtain ⟨path, hp⟩ := hpath step kid hstep slot hslot
      rw [mem_toList] at hmem
      have := h _ [] _ hp hmem
      contradiction
    have hsplit : (wakeAll node).slots
        = (wakeKids node.kids).slots ++ ((wakeKeyed node.keyed).slots ++ node.me.toList) := by
      obtain ⟨me, kids, keyed, feeds⟩ := node
      rfl
    have hkidstep : ∀ {kid}, some kid ∈ node.kids →
        ∃ index, node.stepKid (.field index) = some kid := by
      intro kid hmem
      obtain ⟨index, hget⟩ := mem_iff_getElem?.mp hmem
      exact ⟨index, stepKid_field.mpr hget⟩
    rw [hsplit, nodup_append, nodup_append]
    refine ⟨?_, ⟨?_, ?_, ?_⟩, ?_⟩
    · apply nodup_wakeKids
      · intro kid hmem
        obtain ⟨index, hstep⟩ := hkidstep hmem
        apply ihkids kid hmem (hkid _ _ hstep) (hscattered _ _ hstep)
      · intro i j kid other slot hi hj hslot hslot'
        have := hapart _ _ _ _ slot (stepKid_field.mpr hi) (stepKid_field.mpr hj) hslot hslot'
        rw [StoreStep.field.injEq] at this
        apply this
    · apply nodup_wakeKeyed (wellKeyed_iff.mp hkeys).1
      · intro entry hentry
        apply ihkeyed entry hentry (hkid _ _ (hkey entry hentry))
          (hscattered _ _ (hkey entry hentry))
      · intro entry hentry other hother slot hslot hslot'
        have := hapart _ _ _ _ slot (hkey entry hentry) (hkey other hother) hslot hslot'
        rw [StoreStep.key.injEq] at this
        apply this
    · cases node.me with
      | none => apply nodup_nil
      | some => apply nodup_singleton
    · rintro slot hslot _ hmem rfl
      obtain ⟨entry, hentry, hslot⟩ := mem_wakeKeyed.mp hslot
      apply hme _ _ slot (hkey entry hentry) hslot hmem
    · rintro slot hslot _ hmem rfl
      obtain ⟨kid, hkidmem, hslot⟩ := mem_wakeKids.mp hslot
      obtain ⟨index, hstep⟩ := hkidstep hkidmem
      rcases mem_append.mp hmem with hmem | hmem
      · obtain ⟨entry, hentry, hslot'⟩ := mem_wakeKeyed.mp hmem
        have := hapart _ _ _ _ slot hstep (hkey entry hentry) hslot hslot'
        contradiction
      · apply hme _ _ slot hstep hslot hmem

end StoreNode

theorem mem_storeWakeAll (hkeys : Keyed node) :
  slot ∈ (storeWakeAll node).slots ↔ ∃ path, slotIn node path = some slot
  := by
  cases node with
  | none => simp [storeWakeAll, slotIn_none]
  | some held => apply StoreNode.mem_wakeAll (hkeys held rfl)

theorem nodup_storeWakeAll (hkeys : Keyed node) (h : Scattered node) :
  (storeWakeAll node).slots.Nodup
  := by
  cases node with
  | none => apply nodup_nil
  | some held => apply StoreNode.nodup_wakeAll (hkeys held rfl) h

omit [DecidableEq H] in
theorem mem_storeWakeMe {changed : Bool} :
  slot ∈ (storeWakeMe node changed).slots
    ↔ changed = true ∧ node.bind StoreNode.me = some slot
  := by
  rw [storeWakeMe]
  cases changed with
  | false => simp
  | true => simp

omit [DecidableEq H] in
theorem nodup_storeWakeMe (node : Option (StoreNode H R)) (changed : Bool) :
  (storeWakeMe node changed).slots.Nodup
  := by
  rw [storeWakeMe]
  cases changed with
  | false => apply nodup_nil
  | true =>
    change (node.bind StoreNode.me).toList.Nodup
    cases node.bind StoreNode.me with
    | none => apply nodup_nil
    | some => apply nodup_singleton

/-! ### A variant switch -/

theorem mem_storeLeave (hkeys : Keyed node) {variant : ℕ} :
  slot ∈ (storeLeave node variant).slots
    ↔ slotIn node [.field 0, .field variant] = some slot
      ∨ ∃ path, slotIn node (.field variant :: path) = some slot
  := by
  rw [storeLeave]
  simp only [slots_append, mem_append]
  rw [mem_storeWakeMe, mem_storeWakeAll (hkeys.storeKid variant)]
  simp only [slotIn_field, slotIn_nil, storeTouch, not_mem_nil, false_or, true_and]

/-- The paths under an enum whose variant has changed that are woken below its own slot: the
discriminant, the flags of the two variants, and everything under their payloads. -/
def Switched (left arrived : ℕ) : List (StoreStep H) → Prop
  | .field 0 :: path => path = [] ∨ path = [.field left] ∨ path = [.field arrived]
  | .field (index + 1) :: _ => index + 1 = left ∨ index + 1 = arrived
  | _ => False

theorem mem_storeSwitch (hkeys : Keyed node) {left arrived : ℕ} :
  slot ∈ (storeSwitch node (left + 1) (arrived + 1)).slots
    ↔ ∃ path, slotIn node path = some slot ∧ Switched (left + 1) (arrived + 1) path
  := by
  have hleave : ∀ variant, slot ∈ (storeLeave node (variant + 1)).slots
      ↔ ∃ path, slotIn node path = some slot
        ∧ (path = [.field 0, .field (variant + 1)]
          ∨ ∃ below, path = .field (variant + 1) :: below) := by
    intro variant
    rw [mem_storeLeave hkeys]
    constructor
    · rintro (h | ⟨path, h⟩)
      · exact ⟨_, h, Or.inl rfl⟩
      · exact ⟨_, h, Or.inr ⟨path, rfl⟩⟩
    · rintro ⟨path, h, rfl | ⟨below, rfl⟩⟩
      · left
        apply h
      · right
        exact ⟨below, h⟩
  have hboth : slot ∈ (storeLeave node (left + 1)).slots
        ∨ slot ∈ (if arrived + 1 ≠ left + 1 then storeLeave node (arrived + 1)
          else .nothing).slots
      ↔ slot ∈ (storeLeave node (left + 1)).slots
        ∨ slot ∈ (storeLeave node (arrived + 1)).slots := by
    split
    case isTrue => rfl
    case isFalse h =>
      rw [not_ne_iff.mp h]
      simp
  rw [storeSwitch]
  simp only [slots_append, mem_append]
  rw [mem_storeWakeMe, hboth, hleave, hleave]
  constructor
  · rintro (⟨_, h⟩ | ⟨path, h, rfl | ⟨below, rfl⟩⟩ | ⟨path, h, rfl | ⟨below, rfl⟩⟩)
    · refine ⟨[.field 0], ?_, Or.inl rfl⟩
      rw [slotIn_field, slotIn_nil]
      apply h
    · exact ⟨_, h, Or.inr (Or.inl rfl)⟩
    · exact ⟨_, h, Or.inl rfl⟩
    · exact ⟨_, h, Or.inr (Or.inr rfl)⟩
    · exact ⟨_, h, Or.inr rfl⟩
  · rintro ⟨path, h, hswitched⟩
    rcases path with _ | ⟨⟨_ | index⟩ | hash, path⟩
    · contradiction
    · rcases hswitched with rfl | rfl | rfl
      · left
        rw [slotIn_field, slotIn_nil] at h
        exact ⟨rfl, h⟩
      · right
        left
        exact ⟨_, h, Or.inl rfl⟩
      · right
        right
        exact ⟨_, h, Or.inl rfl⟩
    · right
      rcases hswitched with heq | heq
      · left
        exact ⟨_, h, Or.inr ⟨path, by rw [heq]⟩⟩
      · right
        exact ⟨_, h, Or.inr ⟨path, by rw [heq]⟩⟩
    · contradiction

/-- A switch wakes each slot once. -/
theorem nodup_storeLeave (hkeys : Keyed node) (h : Scattered node) (variant : ℕ) :
  (storeLeave node (variant + 1)).slots.Nodup
  := by
  rw [storeLeave]
  simp only [slots_append, nodup_append, mem_append]
  refine ⟨nodup_storeWakeMe _ _, ⟨nodup_nil,
    nodup_storeWakeAll (hkeys.storeKid _) (h.storeKid _), by simp [storeTouch]⟩, ?_⟩
  rintro slot hflag _ hpayload rfl
  rw [mem_storeWakeMe, ← slotIn_nil, ← slotIn_field, ← slotIn_field] at hflag
  rcases hpayload with hpayload | hpayload
  · simp [storeTouch] at hpayload
  · obtain ⟨path, hpath⟩ := (mem_storeWakeAll (hkeys.storeKid _)).mp hpayload
    rw [← slotIn_field] at hpath
    have := h _ _ _ hflag.2 hpath
    simp at this

theorem nodup_storeSwitch (hkeys : Keyed node) (h : Scattered node) (left arrived : ℕ) :
  (storeSwitch node (left + 1) (arrived + 1)).slots.Nodup
  := by
  -- A slot that a variant's leaving wakes has a path that names the variant.
  have hnames : ∀ variant slot, slot ∈ (storeLeave node (variant + 1)).slots →
      ∃ path, slotIn node path = some slot
        ∧ (path = [.field 0, .field (variant + 1)] ∨ ∃ below, path = .field (variant + 1) :: below)
      := by
    intro variant slot hslot
    rcases (mem_storeLeave hkeys).mp hslot with hslot | ⟨path, hslot⟩
    · exact ⟨_, hslot, Or.inl rfl⟩
    · exact ⟨_, hslot, Or.inr ⟨path, rfl⟩⟩
  have htag : ∀ variant slot, slot ∈ (storeWakeMe (storeKid node 0) true).slots →
      slot ∉ (storeLeave node (variant + 1)).slots := by
    intro variant slot hslot hleave
    rw [mem_storeWakeMe, ← slotIn_nil, ← slotIn_field] at hslot
    obtain ⟨path, hpath, hname⟩ := hnames variant slot hleave
    have := h _ _ _ hslot.2 hpath
    rcases hname with rfl | ⟨below, rfl⟩
    · simp at this
    · simp at this
  rw [storeSwitch]
  simp only [slots_append, nodup_append, mem_append]
  refine ⟨nodup_storeWakeMe _ _, ⟨nodup_storeLeave hkeys h left, ?_, ?_⟩, ?_⟩
  · split
    · apply nodup_storeLeave hkeys h
    · apply nodup_nil
  · rintro slot hleft _ harrived rfl
    split at harrived
    case isFalse => contradiction
    case isTrue hne =>
      obtain ⟨path, hpath, hname⟩ := hnames left slot hleft
      obtain ⟨other, hother, hname'⟩ := hnames arrived slot harrived
      have := h _ _ _ hpath hother
      subst this
      rcases hname with rfl | ⟨below, rfl⟩
      · rcases hname' with hname' | ⟨below, hname'⟩
        · simp at hname'
          omega
        · simp at hname'
      · rcases hname' with hname' | ⟨below', hname'⟩
        · simp at hname'
        · simp at hname'
          omega
  · rintro slot hslot _ hmem rfl
    rcases hmem with hmem | hmem
    · apply htag left slot hslot hmem
    · split at hmem
      · apply htag arrived slot hslot hmem
      · contradiction

/-! ### What moves -/

namespace StoreValue

variable [BEq L]

/-- The payloads of a variant as their node is diffed: one is the node itself, several are
its children, as a struct's fields are. -/
def bundle : List (StoreValue L) → StoreValue L
  | [payload] => payload
  | payload => .struct payload

/-- The paths below a diff whose slots it wakes. -/
def Moved : StoreValue L → StoreValue L → List (StoreStep H) → Prop
  | mine, theirs, [] => eq mine theirs = false
  | .leaf mine, .leaf theirs, _ :: _ => eq (.leaf mine) (.leaf theirs) = false
  | .tuple mine, .tuple theirs, _ :: _ => eq (.tuple mine) (.tuple theirs) = false
  | .struct mine, .struct theirs, .field index :: path =>
      ∃ before after, mine[index]? = .some before ∧ theirs[index]? = .some after
        ∧ Moved before after path
  | .variant left mine, .variant arrived theirs, step :: path =>
      if left = arrived then
        step = .field (left + 1) ∧ Moved (bundle mine) (bundle theirs) path
      else Switched (left + 1) (arrived + 1) (step :: path)
  | .none, .some _, step :: path => Switched 1 1 (step :: path)
  | .some _, .none, step :: path => Switched 1 1 (step :: path)
  | .some mine, .some theirs, step :: path => step = .field 1 ∧ Moved mine theirs path
  | _, _, _ => False

/-- What a diff answers: the slots it wakes are those at the paths that moved, each once; it
claims no change there is none of, and misses none when it is asked. -/
structure DiffSpec (mine theirs : StoreValue L) (node : Option (StoreNode H R)) (need : Bool)
    (result : Bool × StoreWoken R) : Prop where
  slots : ∀ slot, slot ∈ result.2.slots
    ↔ ∃ path, slotIn node path = .some slot ∧ Moved mine theirs path
  once : Scattered node → result.2.slots.Nodup
  sound : result.1 = true → eq mine theirs = false
  exact : (need || storeHasMe node) = true → result.1 = !eq mine theirs

/-- What a diff of parts answers, when a part before them may have changed. -/
structure PartsSpec (mine theirs : List (StoreValue L)) (node : Option (StoreNode H R))
    (index : ℕ) (here changed : Bool) (result : Bool × StoreWoken R) : Prop where
  slots : ∀ slot, slot ∈ result.2.slots
    ↔ ∃ at' before after path, mine[at']? = .some before ∧ theirs[at']? = .some after
        ∧ slotIn node (.field (index + at') :: path) = .some slot ∧ Moved before after path
  once : Scattered node → result.2.slots.Nodup
  sound : result.1 = true → changed = true ∨ allEq mine theirs = false
  exact : here = true → result.1 = (changed || !allEq mine theirs)

variable {need : Bool} {mine theirs : StoreValue L} {node : Option (StoreNode H R)}

/-- Where nobody asks and nothing is watched, saying nothing is right. -/
theorem DiffSpec.asked {result : Bool × StoreWoken R} (h : DiffSpec mine theirs node need result) :
  DiffSpec mine theirs node need (asked need node result)
  := by
  rw [StoreValue.asked]
  split
  case isFalse => apply h
  case isTrue hguard =>
    simp only [Bool.and_eq_true, Bool.not_eq_true', isNone_iff_eq_none] at hguard
    obtain ⟨rfl, rfl⟩ := hguard
    refine ⟨?_, ?_, ?_, ?_⟩
    · intro slot
      simp [slotIn_none]
    · intro _
      apply nodup_nil
    · simp
    · simp [storeHasMe]

/-- A level whose parts have been diffed: its own slot wakes when a part changed, and while
the slot stands there the answer is exact. -/
theorem spec_level {inner : Bool × StoreWoken R} (hslots : ∀ slot, slot ∈ inner.2.slots
      ↔ ∃ step path, slotIn node (step :: path) = .some slot ∧ Moved mine theirs (step :: path))
    (honce : Scattered node → inner.2.slots.Nodup)
    (hsound : inner.1 = true → eq mine theirs = false)
    (hexact : (need || storeHasMe node) = true → inner.1 = !eq mine theirs) :
  DiffSpec mine theirs node need (level node inner)
  where
  slots := by
    intro slot
    rw [level, slots_append, mem_append, hslots, mem_storeWakeMe, ← slotIn_nil]
    constructor
    · rintro (⟨step, path, hpath, hmoved⟩ | ⟨hchanged, hme⟩)
      · exact ⟨_, hpath, hmoved⟩
      · refine ⟨[], hme, ?_⟩
        rw [Moved]
        apply hsound hchanged
    · rintro ⟨path, hpath, hmoved⟩
      cases path with
      | cons step path =>
        left
        exact ⟨step, path, hpath, hmoved⟩
      | nil =>
        right
        rw [Moved] at hmoved
        have hme : storeHasMe node = true := by
          rw [slotIn_nil] at hpath
          obtain ⟨held, rfl, hme⟩ := bind_eq_some_iff.mp hpath
          simp [storeHasMe, hme]
        rw [hexact (by simp [hme]), hmoved]
        exact ⟨rfl, hpath⟩
  once := by
    intro h
    rw [level, slots_append, nodup_append]
    refine ⟨honce h, nodup_storeWakeMe _ _, ?_⟩
    rintro slot hslot _ hme rfl
    obtain ⟨step, path, hpath, _⟩ := (hslots slot).mp hslot
    rw [mem_storeWakeMe, ← slotIn_nil] at hme
    have := h _ _ _ hpath hme.2
    contradiction
  sound := hsound
  exact := hexact

/-- Diffing one part, and then the rest. -/
theorem PartsSpec.cons {more others : List (StoreValue L)} {index : ℕ} {here changed : Bool}
    {first rest : Bool × StoreWoken R}
    (hfirst : DiffSpec mine theirs (storeKid node index) (here && !changed) first)
    (hrest : PartsSpec more others node (index + 1) here (first.1 || changed) rest) :
  PartsSpec (mine :: more) (theirs :: others) node index here changed
    (rest.1, first.2.append rest.2)
  where
  slots := by
    intro slot
    rw [slots_append, mem_append, hfirst.slots, hrest.slots]
    constructor
    · rintro (⟨path, hpath, hmoved⟩ | ⟨at', before, after, path, hbefore, hafter, hpath, hmoved⟩)
      · refine ⟨0, mine, theirs, path, rfl, rfl, ?_, hmoved⟩
        rw [slotIn_field]
        apply hpath
      · refine ⟨at' + 1, before, after, path, hbefore, hafter, ?_, hmoved⟩
        rw [← Nat.add_assoc, Nat.add_right_comm]
        apply hpath
    · rintro ⟨at', before, after, path, hbefore, hafter, hpath, hmoved⟩
      cases at' with
      | zero =>
        left
        rw [getElem?_cons_zero, some_inj] at hbefore hafter
        subst hbefore hafter
        refine ⟨path, ?_, hmoved⟩
        rw [← slotIn_field]
        apply hpath
      | succ at' =>
        right
        refine ⟨at', before, after, path, hbefore, hafter, ?_, hmoved⟩
        rw [Nat.add_right_comm, Nat.add_assoc]
        apply hpath
  once := by
    intro h
    rw [slots_append, nodup_append]
    refine ⟨hfirst.once (h.storeKid index), hrest.once h, ?_⟩
    rintro slot hslot _ hother rfl
    obtain ⟨path, hpath, _⟩ := (hfirst.slots slot).mp hslot
    obtain ⟨at', _, _, other, _, _, hother, _⟩ := (hrest.slots slot).mp hother
    rw [← slotIn_field] at hpath
    have := (List.cons.inj (h _ _ _ hpath hother)).1
    rw [StoreStep.field.injEq] at this
    omega
  sound := by
    intro hchanged
    rw [allEq, Bool.and_eq_false_iff]
    rcases hrest.sound hchanged with h | h
    · rw [Bool.or_eq_true] at h
      rcases h with h | h
      · right
        left
        apply hfirst.sound h
      · left
        apply h
    · right
      right
      apply h
  exact := by
    intro hhere
    rw [hrest.exact hhere, allEq]
    cases changed with
    | true => simp
    | false => simp [hfirst.exact (by simp [hhere]), Bool.not_and]

theorem PartsSpec.nil (node : Option (StoreNode H R)) (index : ℕ) (here changed : Bool) :
  PartsSpec ([] : List (StoreValue L)) [] node index here changed (changed, .nothing)
  where
  slots := by simp
  once := by
    intro _
    apply nodup_nil
  sound := Or.inl
  exact := by simp [allEq]

/-- Parts that have been diffed in full are a struct's. -/
theorem PartsSpec.struct {mine theirs : List (StoreValue L)} {result : Bool × StoreWoken R}
    (h : PartsSpec mine theirs node 0 (need || storeHasMe node) false result) :
  DiffSpec (.struct mine) (.struct theirs) node need (level node result)
  := by
  apply spec_level
  · intro slot
    rw [h.slots]
    constructor
    · rintro ⟨at', before, after, path, hbefore, hafter, hpath, hmoved⟩
      rw [Nat.zero_add] at hpath
      refine ⟨_, path, hpath, ?_⟩
      rw [Moved]
      exact ⟨before, after, hbefore, hafter, hmoved⟩
    · rintro ⟨step, path, hpath, hmoved⟩
      cases step with
      | key => rw [Moved] at hmoved <;> simp at *
      | field index =>
        rw [Moved] at hmoved
        obtain ⟨before, after, hbefore, hafter, hmoved⟩ := hmoved
        refine ⟨index, before, after, path, hbefore, hafter, ?_, hmoved⟩
        rw [Nat.zero_add]
        apply hpath
  · apply h.once
  · intro hchanged
    rw [eq]
    rcases h.sound hchanged with h | h
    · contradiction
    · apply h
  · intro hhere
    rw [h.exact hhere, eq, Bool.false_or]

/-- A leaf moves as a whole. -/
theorem spec_leafDiff (hkeys : Keyed node)
    (hmoved : ∀ path : List (StoreStep H), Moved mine theirs path ↔ eq mine theirs = false) :
  DiffSpec mine theirs node need (leafDiff (eq mine theirs) node need)
  := by
  apply DiffSpec.asked
  cases heq : eq mine theirs with
  | true =>
    refine ⟨?_, ?_, ?_, ?_⟩
    · simp [hmoved, heq]
    · intro _
      apply nodup_nil
    · simp
    · simp [heq]
  | false =>
    refine ⟨?_, ?_, ?_, ?_⟩
    · intro slot
      simp only [hmoved, heq, and_true]
      apply mem_storeWakeAll hkeys
    · apply nodup_storeWakeAll hkeys
    · simp [heq]
    · simp [heq]

/-- A variant that changed. -/
theorem spec_switch (hkeys : Keyed node) {left arrived : ℕ}
    (hmoved : ∀ (step : StoreStep H) path, Moved mine theirs (step :: path)
      ↔ Switched (left + 1) (arrived + 1) (step :: path)) (hne : eq mine theirs = false) :
  DiffSpec mine theirs node need
    (asked need node (level node (true, storeSwitch node (left + 1) (arrived + 1))))
  := by
  apply DiffSpec.asked
  apply spec_level
  · intro slot
    rw [mem_storeSwitch hkeys]
    constructor
    · rintro ⟨path, hpath, hswitched⟩
      cases path with
      | nil => simp [Switched] at hswitched
      | cons step path => exact ⟨step, path, hpath, (hmoved step path).mpr hswitched⟩
    · rintro ⟨step, path, hpath, hmove⟩
      exact ⟨_, hpath, (hmoved step path).mp hmove⟩
  · intro h
    apply nodup_storeSwitch hkeys h
  · intro _
    apply hne
  · intro _
    rw [hne]
    rfl

/-- A payload that has been diffed under its variant. -/
theorem spec_payload {before after : StoreValue L} {variant : ℕ} {inner : Bool × StoreWoken R}
    (h : DiffSpec before after (storeKid node variant) (need || storeHasMe node) inner)
    (hmoved : ∀ (step : StoreStep H) path, Moved mine theirs (step :: path)
      ↔ step = .field variant ∧ Moved before after path) (heq : eq mine theirs = eq before after) :
  DiffSpec mine theirs node need (asked need node (level node inner))
  := by
  apply DiffSpec.asked
  apply spec_level
  · intro slot
    rw [h.slots]
    constructor
    · rintro ⟨path, hpath, hmove⟩
      rw [← slotIn_field] at hpath
      exact ⟨_, path, hpath, (hmoved _ _).mpr ⟨rfl, hmove⟩⟩
    · rintro ⟨step, path, hpath, hmove⟩
      obtain ⟨rfl, hbelow⟩ := (hmoved _ _).mp hmove
      rw [slotIn_field] at hpath
      exact ⟨path, hpath, hbelow⟩
  · intro hscattered
    apply h.once (hscattered.storeKid variant)
  · rw [heq]
    apply h.sound
  · intro hhere
    rw [heq]
    apply h.exact
    rw [hhere, Bool.true_or]

theorem eq_bundle {mine theirs : List (StoreValue L)} (h : mine.length = theirs.length) :
  eq (bundle mine) (bundle theirs) = allEq mine theirs
  := by
  rcases mine with _ | ⟨mine, _ | ⟨second, more⟩⟩
  · rcases theirs with _ | _
    · rw [bundle, eq]
      simp
    · simp at h
  · rcases theirs with _ | ⟨theirs, _ | _⟩
    · simp at h
    · rw [bundle, bundle, allEq, allEq, Bool.and_true]
    · simp at h
  · rcases theirs with _ | ⟨theirs, _ | _⟩
    · simp at h
    · simp at h
    · rw [bundle, bundle, eq]
      · simp
      · simp

omit [BEq L] in
theorem length_of_allFit {values : List (StoreValue L)} {shapes : List StoreShape}
    (h : AllFit values shapes) :
  values.length = shapes.length
  := by
  induction values generalizing shapes with
  | nil =>
    cases shapes with
    | nil => rfl
    | cons => simp [AllFit] at h
  | cons value values ih =>
    cases shapes with
    | nil => simp [AllFit] at h
    | cons shape shapes =>
      rw [AllFit] at h
      rw [length_cons, length_cons, ih h.2]

omit [BEq L] in
/-- Two values of one shape are built alike. -/
theorem Fits.cases {P : StoreValue L → StoreValue L → StoreShape → Prop}
    (leaf : ∀ mine theirs, P (.leaf mine) (.leaf theirs) .leaf)
    (struct : ∀ mine theirs shapes, AllFit mine shapes → AllFit theirs shapes →
      P (.struct mine) (.struct theirs) (.struct shapes))
    (same : ∀ index mine theirs variants shapes, variants[index]? = .some shapes →
      AllFit mine shapes → AllFit theirs shapes →
      P (.variant index mine) (.variant index theirs) (.enum variants))
    (switched : ∀ left arrived mine theirs variants, left ≠ arrived →
      P (.variant left mine) (.variant arrived theirs) (.enum variants))
    (tuple : ∀ mine theirs shapes, AllFit mine shapes → AllFit theirs shapes →
      P (.tuple mine) (.tuple theirs) (.tuple shapes))
    (none : ∀ shape, P .none .none (.option shape))
    (added : ∀ theirs shape, P .none (.some theirs) (.option shape))
    (removed : ∀ mine shape, P (.some mine) .none (.option shape))
    (some : ∀ mine theirs shape, Fits mine shape → Fits theirs shape →
      P (.some mine) (.some theirs) (.option shape)) {shape : StoreShape} (hmine : Fits mine shape)
    (htheirs : Fits theirs shape) :
  P mine theirs shape
  := by
  cases shape with
  | leaf =>
    cases mine <;> simp only [Fits] at hmine
    cases theirs <;> simp only [Fits] at htheirs
    apply leaf
  | struct shapes =>
    cases mine <;> simp only [Fits] at hmine
    cases theirs <;> simp only [Fits] at htheirs
    apply struct _ _ _ hmine htheirs
  | tuple shapes =>
    cases mine <;> simp only [Fits] at hmine
    cases theirs <;> simp only [Fits] at htheirs
    apply tuple _ _ _ hmine htheirs
  | option shape =>
    cases mine <;> simp only [Fits] at hmine
    case none =>
      cases theirs <;> simp only [Fits] at htheirs
      · apply none
      · apply added
    case some =>
      cases theirs <;> simp only [Fits] at htheirs
      · apply removed
      · apply some _ _ _ hmine htheirs
  | enum variants =>
    cases mine <;> simp only [Fits] at hmine
    cases theirs <;> simp only [Fits] at htheirs
    next left mine arrived theirs =>
      by_cases hsame : left = arrived
      · subst hsame
        cases hshapes : variants[left]? with
        | none =>
          rw [hshapes] at hmine
          contradiction
        | some shapes =>
          rw [hshapes] at hmine htheirs
          apply same _ _ _ _ _ hshapes hmine htheirs
      · apply switched _ _ _ _ _ hsame

mutual

/-- Every diff of two values of one shape answers as it should. -/
theorem spec_storeDiff (mine theirs : StoreValue L) (shape : StoreShape)
    (node : Option (StoreNode H R)) (need : Bool) (hkeys : Keyed node)
    (hmine : Fits mine shape) (htheirs : Fits theirs shape) :
  DiffSpec mine theirs node need (storeDiff mine theirs node need)
  := by
  cases mine with
  | leaf mine =>
    cases shape <;> simp only [Fits] at hmine
    cases theirs <;> simp only [Fits] at htheirs
    next theirs =>
      rw [storeDiff, ← eq]
      apply spec_leafDiff hkeys
      intro path
      cases path with
      | nil => rw [Moved]
      | cons => rw [Moved]
  | tuple mine =>
    cases shape <;> simp only [Fits] at hmine
    cases theirs <;> simp only [Fits] at htheirs
    next theirs =>
      rw [storeDiff, ← eq]
      apply spec_leafDiff hkeys
      intro path
      cases path with
      | nil => rw [Moved]
      | cons => rw [Moved]
  | struct mine =>
    cases shape <;> simp only [Fits] at hmine
    cases theirs <;> simp only [Fits] at htheirs
    next theirs =>
      rw [storeDiff]
      apply DiffSpec.asked
      apply PartsSpec.struct
      apply spec_diffParts mine theirs _ node 0 _ false hkeys hmine htheirs
  | variant left mine =>
    cases shape <;> simp only [Fits] at hmine
    cases theirs <;> simp only [Fits] at htheirs
    next variants arrived theirs =>
      rw [storeDiff]
      by_cases hsame : left = arrived
      · subst hsame
        rw [if_pos rfl]
        cases hshapes : variants[left]? with
        | none =>
          rw [hshapes] at hmine
          contradiction
        | some shapes =>
          rw [hshapes] at hmine htheirs
          have hlength : mine.length = theirs.length := by
            rw [length_of_allFit hmine, length_of_allFit htheirs]
          apply spec_payload (spec_diffPayload mine theirs shapes _ _ (hkeys.storeKid _)
            hmine htheirs)
          · intro step path
            rw [Moved, if_pos rfl]
          · rw [eq, eq_bundle hlength]
            simp
      · rw [if_neg hsame]
        apply spec_switch hkeys
        · intro step path
          rw [Moved, if_neg hsame]
        · rw [eq]
          simp [hsame]
  | none =>
    cases shape <;> simp only [Fits] at hmine
    cases theirs <;> simp only [Fits] at htheirs
    case none =>
      rw [storeDiff]
      apply DiffSpec.asked
      apply spec_level
      · simp [Moved]
      · intro _
        apply nodup_nil
      · simp
      · simp [eq]
    case some theirs =>
      rw [storeDiff]
      apply spec_switch hkeys
      · intro step path
        rw [Moved]
      · simp [eq]
  | some mine =>
    cases shape <;> simp only [Fits] at hmine
    cases theirs <;> simp only [Fits] at htheirs
    case none =>
      rw [storeDiff]
      apply spec_switch hkeys
      · intro step path
        rw [Moved]
      · simp [eq]
    case some theirs =>
      rw [storeDiff]
      apply spec_payload (spec_storeDiff mine theirs _ _ _ (hkeys.storeKid _) hmine htheirs)
      · intro step path
        rw [Moved]
      · rw [eq]

/-- The diff of a variant's payloads is that of its payload node. -/
theorem spec_diffPayload (mine theirs : List (StoreValue L)) (shapes : List StoreShape)
    (payload : Option (StoreNode H R)) (here : Bool) (hkeys : Keyed payload)
    (hmine : AllFit mine shapes) (htheirs : AllFit theirs shapes) :
  DiffSpec (bundle mine) (bundle theirs) payload here (diffPayload mine theirs payload here)
  := by
  have hlength : mine.length = theirs.length := by
    rw [length_of_allFit hmine, length_of_allFit htheirs]
  cases mine with
  | nil =>
    cases theirs with
    | cons => simp at hlength
    | nil =>
      rw [diffPayload]
      · simp only [bundle]
        refine ⟨?_, ?_, ?_, ?_⟩
        · intro slot
          simp only [slots_nothing, not_mem_nil, false_iff, not_exists]
          rintro path ⟨_, hmoved⟩
          cases path with
          | nil => simp [Moved, eq, allEq] at hmoved
          | cons step path => cases step <;> simp [Moved] at hmoved
        · intro _
          apply nodup_nil
        · simp
        · simp [eq, allEq]
      · simp
      · simp
  | cons mine more =>
    cases theirs with
    | nil => simp at hlength
    | cons theirs others =>
      cases shapes with
      | nil => simp [AllFit] at hmine
      | cons shape shapes =>
        rw [AllFit] at hmine htheirs
        cases more with
        | nil =>
          cases others with
          | cons => simp at hlength
          | nil =>
            rw [diffPayload]
            apply spec_storeDiff mine theirs shape _ _ hkeys hmine.1 htheirs.1
        | cons second more =>
          cases others with
          | nil => simp at hlength
          | cons other others =>
            rw [diffPayload]
            · apply PartsSpec.struct
              apply PartsSpec.cons
              · have := spec_storeDiff mine theirs shape _ (here || storeHasMe payload)
                  (hkeys.storeKid 0) hmine.1 htheirs.1
                simpa using this
              · have := spec_diffParts (second :: more) (other :: others) shapes
                  payload 1 (here || storeHasMe payload)
                  (storeDiff mine theirs (storeKid payload 0)
                    (here || storeHasMe payload)).1 hkeys hmine.2 htheirs.2
                simpa using this
            · simp

/-- The diff of parts, one by one. -/
theorem spec_diffParts (mine theirs : List (StoreValue L)) (shapes : List StoreShape)
    (node : Option (StoreNode H R)) (index : ℕ) (here changed : Bool) (hkeys : Keyed node)
    (hmine : AllFit mine shapes) (htheirs : AllFit theirs shapes) :
  PartsSpec mine theirs node index here changed
    (diffParts mine theirs node index here changed)
  := by
  have hlength : mine.length = theirs.length := by
    rw [length_of_allFit hmine, length_of_allFit htheirs]
  cases mine with
  | nil =>
    cases theirs with
    | cons => simp at hlength
    | nil =>
      rw [diffParts]
      · apply PartsSpec.nil
      · simp
  | cons mine more =>
    cases theirs with
    | nil => simp at hlength
    | cons theirs others =>
      cases shapes with
      | nil => simp [AllFit] at hmine
      | cons shape shapes =>
        rw [AllFit] at hmine htheirs
        rw [diffParts]
        apply PartsSpec.cons
        · apply spec_storeDiff mine theirs shape _ _ (hkeys.storeKid index) hmine.1
            htheirs.1
        · apply spec_diffParts more others shapes _ _ _ _ hkeys hmine.2 htheirs.2

end

end StoreValue

end Vilan
