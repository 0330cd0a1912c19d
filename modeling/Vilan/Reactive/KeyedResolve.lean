import Vilan.Reactive.KeyedCore

/-!
# What a keyed drain resolves into

The rows of a keyed core are backed by its element core: each run's record is kept under
the slot of its row, and the slots of the rows are those the core knows by key.  Every op
of the upstream and every read of a woken slot keeps this, and makes one event that is
accurate on the rows it finds and takes them to the rows it leaves.
-/

namespace Vilan

open List Function

namespace KeyedCore

open ElementCore

variable {K H F V U : Type*} [DecidableEq H] {hash : K → H}

/-- The rows, as they show. -/
def shown (keyed : KeyedCore K H F V U) : Table H (K × (V × U)) :=
  keyed.rows.map KeyRow.shown

/-- The entries of the upstream the rows are for. -/
def inputs (keyed : KeyedCore K H F V U) : Table H (K × V) :=
  keyed.rows.map KeyRow.entry

/-- The slots of the rows. -/
def slots (keyed : KeyedCore K H F V U) : List (Slot (K × V) U) :=
  keyed.keyedRows.map KeyRow.slot

/-- The rows are filed under the hashes of their keys, their slots are backed by the core,
and are known by key. -/
structure Backs (hash : K → H) (current : F → U) (keyed : KeyedCore K H F V U)
    (woke : List ℕ) : Prop where
  hash_eq : ∀ key row, keyed.rows.get key = some row → hash row.key = key
  backed : Backed current keyed.core woke keyed.slots
  keyOfSlot_iff : ∀ id key,
    keyed.keyOfSlot.get id = some key ↔ ∃ row, keyed.rows.get key = some row ∧ row.id = id

theorem backs_new (hash : K → H) (current : F → U)
    (run : K × V → ElementRun F U × Bool) :
  Backs hash current (new run) []
  := by
  refine ⟨by simp [new], ?_, by simp [new]⟩
  constructor <;> simp [new, slots, keyedRows, Table.values, ElementCore.new]

namespace Backs

variable {current : F → U} {keyed : KeyedCore K H F V U} {woke : List ℕ}

variable {key : H} {row : KeyRow K V U}

section

variable (h : Backs hash current keyed woke)
include h

theorem id_lt (hrow : keyed.rows.get key = some row) :
  row.id < keyed.core.nextId
  := by
  apply h.backed.id_lt row.slot
  apply List.mem_map_of_mem
  apply Table.mem_values_iff.mpr ⟨key, hrow⟩

/-- A row is the only one in its slot. -/
theorem key_eq {key' : H} {row' : KeyRow K V U}
    (hrow : keyed.rows.get key = some row) (hrow' : keyed.rows.get key' = some row')
    (hid : row.id = row'.id) :
  key = key'
  := by
  have hkey := (h.keyOfSlot_iff row.id key).mpr ⟨row, hrow, rfl⟩
  rw [(h.keyOfSlot_iff row.id key').mpr ⟨row', hrow', hid.symm⟩, Option.some_inj] at hkey
  apply hkey.symm

/-- A key that is not held is admitted at the end. -/
theorem admitKey {key : K}
    (hnew : keyed.rows.get (hash key) = none) (input : V) :
  Backs hash current (keyed.keyedAdmit hash current key input).1 woke
  := by
  have hadmits := admits_admitItem current keyed.core (key, input)
  have hkeys := Table.get_eq_none_iff.mp hnew
  constructor
  · intro key' row hrow
    simp only [keyedAdmit, Table.get_insert] at hrow
    split at hrow
    case isTrue heq =>
      rw [Option.some_inj] at hrow
      rw [← hrow, heq]
    case isFalse => apply h.hash_eq key' row hrow
  · have hbacked := h.backed.admits hadmits (List.Sublist.refl _) (by simp)
    simp only [slots, keyedRows, keyedAdmit]
    rw [Table.values_insert_of_not_mem hkeys, map_append]
    apply hbacked
  · intro id key'
    simp only [keyedAdmit, Table.get_insert, ElementCore.admitItem]
    by_cases hid : id = keyed.core.nextId
    · rw [if_pos hid]
      constructor
      · intro hkey
        rw [Option.some_inj] at hkey
        rw [if_pos hkey.symm]
        exact ⟨_, rfl, hid.symm⟩
      · rintro ⟨row, hrow, rfl⟩
        split at hrow
        case isTrue heq => rw [heq]
        case isFalse =>
          have := h.id_lt hrow
          omega
    · rw [if_neg hid, h.keyOfSlot_iff]
      split
      case isTrue heq =>
        rw [heq, hnew]
        simp [Ne.symm hid]
      case isFalse => rfl

/-- A held key that re-runs keeps its place, in a slot of its own. -/
theorem rerun {key : K}
    (hrow : keyed.rows.get (hash key) = some row) (input : V) :
  Backs hash current ((keyed.keyedRetire row).keyedAdmit hash current key input).1 woke
  := by
  have hadmits : Admits current keyed.core
      ((keyed.core.retire row.id).admitItem current (key, input)).1 [row.id] _ :=
    (admits_retireEach current keyed.core [row.id]).trans
      (admits_admitItem current _ (key, input))
  obtain ⟨before, after, hsplit, hinsert, -⟩ := Table.values_split hrow
  have hnext : (keyed.core.retire row.id).nextId = keyed.core.nextId := by
    rw [retire_eq]
  constructor
  · intro key' row' hrow'
    simp only [keyedAdmit, keyedRetire, Table.get_insert] at hrow'
    split at hrow'
    case isTrue heq =>
      rw [Option.some_inj] at hrow'
      rw [← hrow', heq]
    case isFalse => apply h.hash_eq key' row' hrow'
  · have hbacked := h.backed
    simp only [slots, keyedRows, keyedAdmit, keyedRetire] at hbacked ⊢
    rw [hsplit, map_append, map_cons] at hbacked
    rw [hinsert, map_append, map_cons]
    have hreplaced := hbacked.replace hadmits
    rw [nil_append, append_assoc, singleton_append] at hreplaced
    apply hreplaced
  · intro id key'
    simp only [keyedAdmit, keyedRetire, Table.get_insert, Table.get_remove, ElementCore.admitItem,
      hnext]
    by_cases hid : id = keyed.core.nextId
    · rw [if_pos hid]
      constructor
      · intro hkey
        rw [Option.some_inj] at hkey
        rw [if_pos hkey.symm]
        exact ⟨_, rfl, hid.symm⟩
      · rintro ⟨row', hrow', rfl⟩
        split at hrow'
        case isTrue heq => rw [heq]
        case isFalse =>
          have := h.id_lt hrow'
          omega
    · rw [if_neg hid]
      by_cases hgone : id = row.id
      · subst hgone
        rw [if_pos rfl]
        split
        case isTrue => simp [Ne.symm hid]
        case isFalse hne =>
          simp only [reduceCtorEq, false_iff, not_exists, not_and]
          intro row' hrow' heq
          exact hne (h.key_eq hrow' hrow heq)
      · rw [if_neg hgone, h.keyOfSlot_iff]
        split
        case isTrue heq =>
          rw [heq, hrow]
          simp [Ne.symm hid, Ne.symm hgone]
        case isFalse => rfl

/-- A key leaves. -/
theorem delete (hrow : keyed.rows.get key = some row) :
  Backs hash current { keyed.keyedRetire row with rows := keyed.rows.remove key } woke
  := by
  obtain ⟨before, after, hsplit, -, hremove⟩ := Table.values_split hrow
  constructor
  · intro key' row' hrow'
    simp only [Table.get_remove] at hrow'
    split at hrow'
    · contradiction
    · apply h.hash_eq key' row' hrow'
  · have hbacked := h.backed
    simp only [slots, keyedRows, keyedRetire] at hbacked ⊢
    rw [hsplit, map_append, map_cons] at hbacked
    rw [hremove, map_append]
    have := hbacked.replace (admits_retireEach current keyed.core [row.id])
    rwa [append_nil] at this
  · intro id key'
    simp only [keyedRetire, Table.get_remove]
    by_cases hgone : id = row.id
    · subst hgone
      rw [if_pos rfl]
      split
      case isTrue => simp
      case isFalse hne =>
        simp only [reduceCtorEq, false_iff, not_exists, not_and]
        intro row' hrow' heq
        exact hne (h.key_eq hrow' hrow heq)
    · rw [if_neg hgone, h.keyOfSlot_iff]
      split
      case isTrue heq =>
        rw [heq, hrow]
        simp [Ne.symm hgone]
      case isFalse => rfl

end

end Backs

/-! ### Retiring and seeding all the rows -/

omit [DecidableEq H] in
theorem core_retireEach (keyed : KeyedCore K H F V U) (rows : List (KeyRow K V U)) :
  (rows.foldl keyedRetire keyed).core = (rows.map KeyRow.id).foldl retire keyed.core
  := by
  induction rows generalizing keyed with
  | nil => rfl
  | cons row rows ih =>
    rw [foldl_cons, ih]
    rfl

omit [DecidableEq H] in
theorem keyOfSlot_retireEach (keyed : KeyedCore K H F V U) (rows : List (KeyRow K V U))
    (id : ℕ) :
  (rows.foldl keyedRetire keyed).keyOfSlot.get id
    = if id ∈ rows.map KeyRow.id then none else keyed.keyOfSlot.get id
  := by
  induction rows generalizing keyed with
  | nil => simp
  | cons row rows ih =>
    rw [foldl_cons, ih, keyedRetire, Table.get_remove, map_cons]
    by_cases hmem : id ∈ rows.map KeyRow.id
    · simp [hmem]
    · simp only [hmem, if_false, mem_cons, or_false]

namespace Backs

variable {current : F → U} {keyed : KeyedCore K H F V U} {woke : List ℕ}

/-- A core whose rows have all been retired and dropped. -/
theorem emptied (h : Backs hash current keyed woke) :
  Backs hash current
    { keyed.keyedRows.foldl keyedRetire keyed with rows := Table.empty } woke
  := by
  constructor
  · simp
  · have hadmits := admits_retireEach current keyed.core (keyed.keyedRows.map KeyRow.id)
    have hbacked := h.backed.admits hadmits (nil_sublist _) (by simp)
    change Backed current (keyed.keyedRows.foldl keyedRetire keyed).core woke []
    rw [core_retireEach]
    apply hbacked
  · intro id key
    simp only [Table.get_empty, reduceCtorEq, false_and, exists_false, iff_false]
    rw [keyOfSlot_retireEach]
    split
    case isTrue => simp
    case isFalse hmem =>
      rw [h.keyOfSlot_iff]
      rintro ⟨row, hrow, rfl⟩
      apply hmem
      apply List.mem_map_of_mem
      apply Table.mem_values_iff.mpr ⟨key, hrow⟩

/-- Keys that are not held are admitted at the end, in order. -/
theorem admitEach (h : Backs hash current keyed woke) {entries : List (K × V)}
    (hnodup : (entries.map (fun entry => hash entry.1)).Nodup)
    (hnew : ∀ entry ∈ entries, keyed.rows.get (hash entry.1) = none) :
  Backs hash current (entries.foldl
    (fun keyed entry => (keyed.keyedAdmit hash current entry.1 entry.2).1) keyed) woke
  := by
  induction entries generalizing keyed with
  | nil => apply h
  | cons entry rest ih =>
    rw [map_cons, nodup_cons] at hnodup
    apply ih (h.admitKey (hnew entry mem_cons_self) entry.2) hnodup.2
    intro other hother
    have hne : hash other.1 ≠ hash entry.1 := by
      intro heq
      apply hnodup.1
      rw [← heq]
      apply List.mem_map_of_mem (f := fun entry : K × V => hash entry.1) hother
    simp only [keyedAdmit, Table.get_insert]
    rw [if_neg hne, hnew other (mem_cons_of_mem _ hother)]

end Backs

@[simp]
theorem inputs_keyedAdmit (current : F → U) (keyed : KeyedCore K H F V U) (key : K)
    (input : V) :
  (keyed.keyedAdmit hash current key input).1.inputs
    = keyed.inputs.insert (hash key) (key, input)
  := Table.map_insert _ _ _ _

theorem inputs_admitEach (current : F → U) (keyed : KeyedCore K H F V U)
    (entries : List (K × V)) :
  (entries.foldl (fun keyed entry => (keyed.keyedAdmit hash current entry.1 entry.2).1)
      keyed).inputs
    = (entries.map (fun entry => (hash entry.1, entry))).foldl
        (fun table entry => table.insert entry.1 entry.2) keyed.inputs
  := by
  induction entries generalizing keyed with
  | nil => rfl
  | cons entry rest ih =>
    rw [foldl_cons, ih, inputs_keyedAdmit]
    rfl

/-- Admission changes neither the closure nor what is dirty. -/
theorem core_admitEach (current : F → U) (keyed : KeyedCore K H F V U)
    (entries : List (K × V)) :
  let keyed' := entries.foldl
    (fun keyed entry => (keyed.keyedAdmit hash current entry.1 entry.2).1) keyed
  keyed'.core.run = keyed.core.run ∧ keyed'.core.dirty = keyed.core.dirty
  := by
  induction entries generalizing keyed with
  | nil => exact ⟨rfl, rfl⟩
  | cons entry rest ih => apply ih

variable {keyed : KeyedCore K H F V U} {woke : List ℕ} {current : F → U} {upstream : HashMap hash V}

/-- A core seeded where it holds nothing holds the map. -/
theorem inputs_keyedSeed (current : F → U) (hempty : keyed.rows = Table.empty)
    (map : HashMap hash V) :
  (keyed.keyedSeed current map).inputs = map.table
  := by
  have hentries : map.entries.map (fun entry => (hash entry.1, entry)) = map.table.entries := by
    rw [HashMap.entries, Table.values, List.map_map]
    conv_rhs => rw [← List.map_id map.table.entries]
    rw [map_inj_left]
    rintro ⟨key, entry⟩ hentry
    have := map.hash_eq _ hentry
    simp only [comp_apply, id_eq]
    rw [this]
  apply Table.ext
  rw [keyedSeed, inputs_admitEach, hentries, Table.entries_foldl_insert map.table.nodup]
  · rw [inputs, hempty]
    rfl
  · rw [inputs, hempty]
    simp [Table.keys]

section

variable (h : Backs hash current keyed woke)
include h

theorem backs_keyedSeed (hempty : keyed.rows = Table.empty)
    (map : HashMap hash V) :
  Backs hash current (keyed.keyedSeed current map) woke
  := by
  apply h.admitEach
  · rw [← HashMap.hashesOf_entries]
    apply map.nodup_hashesOf
  · simp [hempty]

/-- The rows stand under the hashes of their keys. -/
theorem Backs.hashes_eq :
  keyed.keyedRows.map (fun row => hash row.key) = keyed.rows.keys
  := by
  rw [keyedRows, Table.values, List.map_map, Table.keys]
  apply map_congr_left
  rintro ⟨key, row⟩ hentry
  apply h.hash_eq key row (Table.get_eq_some_iff.mpr hentry)

theorem Backs.nodup_hashes :
  (keyed.keyedRows.map (fun row => hash row.key)).Nodup
  := by
  rw [h.hashes_eq]
  apply keyed.rows.nodup

/-- The table of the rows is what they show. -/
theorem Backs.tableOf_keyedRows :
  KeyEvent.tableOf hash keyed.keyedRows = keyed.shown
  := by
  apply Table.ext
  rw [KeyEvent.entries_tableOf h.nodup_hashes, keyedRows, Table.values, List.map_map]
  apply map_congr_left
  rintro ⟨key, row⟩ hentry
  have := h.hash_eq key row (Table.get_eq_some_iff.mpr hentry)
  simp only [comp_apply]
  rw [this]

/-! ### The ops of a drain -/

end

/-- The rows are backed, and the events take what the rows showed before to what they show
after. -/
structure Resolves (hash : K → H) (current : F → U) (keyed keyed' : KeyedCore K H F V U)
    (woke : List ℕ) (events : List (KeyEvent K V U)) : Prop where
  backs : Backs hash current keyed' woke
  run_eq : keyed'.core.run = keyed.core.run
  dirty_eq : keyed'.core.dirty = keyed.core.dirty
  accurate : KeyEvent.AllAccurate hash events keyed.shown
  replay_eq : KeyEvent.replay hash events keyed.shown = keyed'.shown

theorem Resolves.trans {keyed' keyed'' : KeyedCore K H F V U} {woke' : List ℕ}
    {events more : List (KeyEvent K V U)} (h : Resolves hash current keyed keyed' woke events)
    (h' : Resolves hash current keyed' keyed'' woke' more) :
  Resolves hash current keyed keyed'' woke' (events ++ more)
  := by
  have hreplay := h.replay_eq
  refine ⟨h'.backs, ?_, ?_, ?_, ?_⟩
  · rw [h'.run_eq, h.run_eq]
  · rw [h'.dirty_eq, h.dirty_eq]
  · apply Replay.along_append.mpr ⟨h.accurate, _⟩
    change KeyEvent.AllAccurate hash more (KeyEvent.replay hash events keyed.shown)
    rw [hreplay]
    apply h'.accurate
  · change Replay.replay _ (events ++ more) keyed.shown = _
    rw [Replay.replay_append]
    change KeyEvent.replay hash more (KeyEvent.replay hash events keyed.shown) = _
    rw [hreplay, h'.replay_eq]

section

variable (h : Backs hash current keyed woke)
include h

theorem resolve_put (key : K) (was : Option V) (input : V) :
  let resolved := keyed.keyedResolveOp current (.put key was input : MapOp hash V)
  Resolves hash current keyed resolved.1 woke resolved.2.toList
    ∧ resolved.1.inputs = keyed.inputs.insert (hash key) (key, input)
  := by
  simp only [keyedResolveOp]
  cases hrow : keyed.rows.get (hash key) with
  | some row =>
    refine ⟨⟨h.rerun hrow input, run_retire _ _, dirty_retire _ _, ⟨?_, trivial⟩, ?_⟩, ?_⟩
    · refine ⟨row.key, ?_, by simp⟩
      rw [shown, Table.get_map, hrow]
      rfl
    · symm
      apply Table.map_insert
    · apply inputs_keyedAdmit
  | none =>
    refine ⟨⟨h.admitKey hrow input, rfl, rfl, ⟨?_, trivial⟩, ?_⟩, ?_⟩
    · change keyed.shown.get (hash key) = none
      rw [shown, Table.get_map, hrow]
      rfl
    · symm
      apply Table.map_insert
    · apply inputs_keyedAdmit

theorem resolve_delete (key : K) (gone : V) :
  let resolved := keyed.keyedResolveOp current (.delete key gone : MapOp hash V)
  Resolves hash current keyed resolved.1 woke resolved.2.toList
    ∧ resolved.1.inputs = keyed.inputs.remove (hash key)
  := by
  simp only [keyedResolveOp]
  cases hrow : keyed.rows.get (hash key) with
  | some row =>
    refine ⟨⟨h.delete hrow, run_retire _ _, dirty_retire _ _, ⟨⟨row.key, ?_⟩, trivial⟩, ?_⟩, ?_⟩
    · rw [shown, Table.get_map, hrow]
      rfl
    · symm
      apply Table.map_remove
    · apply Table.map_remove
  | none =>
    refine ⟨⟨h, rfl, rfl, trivial, rfl⟩, ?_⟩
    rw [Table.remove_of_not_mem]
    apply Table.get_eq_none_iff.mp
    rw [inputs, Table.get_map, hrow]
    rfl

theorem resolve_reset (map : HashMap hash V) :
  let resolved := keyed.keyedResolveOp current (MapOp.reset map)
  Resolves hash current keyed resolved.1 woke resolved.2.toList
    ∧ resolved.1.inputs = map.table
  := by
  have hback := backs_keyedSeed h.emptied rfl map
  obtain ⟨hrun, hdirty⟩ := @core_admitEach K H F V U _ hash current
    { keyed.keyedRows.foldl keyedRetire keyed with rows := Table.empty } map.entries
  have hretired := retireEach_eq keyed.core (keyed.keyedRows.map KeyRow.id)
  rw [core_retireEach, hretired] at hrun hdirty
  refine ⟨⟨hback, hrun, hdirty, ⟨hback.nodup_hashes, trivial⟩, ?_⟩, inputs_keyedSeed current rfl map⟩
  apply hback.tableOf_keyedRows

theorem keyedResolveOp_resolves
    (hinputs : keyed.inputs = upstream.table) (op : MapOp hash V) :
  let resolved := keyed.keyedResolveOp current op
  Resolves hash current keyed resolved.1 woke resolved.2.toList
    ∧ resolved.1.inputs = (op.apply upstream).table
  := by
  cases op with
  | put key was input =>
    have hresolve := resolve_put h key was input
    rwa [hinputs] at hresolve
  | delete key gone =>
    have hresolve := resolve_delete h key gone
    rwa [hinputs] at hresolve
  | reset map => apply resolve_reset h map

theorem keyedResolveOps_resolves
    (hinputs : keyed.inputs = upstream.table) (ops : List (MapOp hash V)) :
  let resolved := keyed.keyedResolveOps current ops
  Resolves hash current keyed resolved.1 woke resolved.2
    ∧ resolved.1.inputs = (MapOp.replay ops upstream).table
  := by
  induction ops generalizing keyed upstream with
  | nil => exact ⟨⟨h, rfl, rfl, trivial, rfl⟩, hinputs⟩
  | cons op ops ih =>
    obtain ⟨hop, hinputs'⟩ := keyedResolveOp_resolves h hinputs op
    obtain ⟨hops, hinputs''⟩ := ih hop.backs hinputs'
    exact ⟨hop.trans hops, hinputs''⟩

/-! ### The flows that changed -/

end

/-- A woken slot whose key left or re-ran, or that follows nothing, is skipped. -/
theorem readKey_skips {id : ℕ} (h : Backs hash current keyed (id :: woke))
    (hsettled : ∀ slot ∈ keyed.slots, slot.id = id → Settled current keyed.core slot) :
  Resolves hash current keyed keyed woke []
    ∧ Reread current keyed.core id keyed.slots keyed.slots
  := by
  constructor
  · exact ⟨⟨h.hash_eq, h.backed.forget hsettled, h.keyOfSlot_iff⟩, rfl, rfl, trivial, rfl⟩
  · exact ⟨rfl, rfl, hsettled, fun slot => Or.inl⟩

/-- The slots after one row was read once more. -/
theorem reread_insert (h : Backs hash current keyed woke) {key : H} {row : KeyRow K V U}
    (hrow : keyed.rows.get key = some row) {now : U}
    (hnow : now = keyed.core.answerOf current row.entry) :
  Reread current keyed.core row.id keyed.slots
    ((keyed.rows.insert key { row with value := now }).values.map KeyRow.slot)
  := by
  obtain ⟨before, after, hsplit, hinsert, -⟩ := Table.values_split hrow
  have hslots : keyed.slots = (before ++ row :: after).map KeyRow.slot := by
    rw [slots, keyedRows, hsplit]
  have hnodup := h.backed.nodup
  rw [hslots, map_append, map_append, map_cons, map_cons] at hnodup
  have hother := (nodup_cons.mp (nodup_middle.mp hnodup)).1
  rw [mem_append, not_or] at hother
  rw [hslots, hinsert]
  constructor
  · simp [KeyRow.slot]
  · simp [KeyRow.slot, KeyRow.entry]
  · intro slot hslot hid
    rw [map_append, map_cons, mem_append, mem_cons] at hslot
    rcases hslot with hin | rfl | hin
    · exfalso
      apply hother.1
      rw [show row.slot.id = slot.id from hid.symm]
      apply List.mem_map_of_mem hin
    · apply hnow
    · exfalso
      apply hother.2
      rw [show row.slot.id = slot.id from hid.symm]
      apply List.mem_map_of_mem hin
  · intro slot hslot
    rw [map_append, map_cons, mem_append, mem_cons] at hslot ⊢
    rcases hslot with hin | rfl | hin
    · exact .inl (.inl hin)
    · exact .inr hnow
    · exact .inl (.inr (.inr hin))

/-- A woken slot that follows a flow takes the value the flow has now. -/
theorem readKey_reads {key : H} {row : KeyRow K V U} (h : Backs hash current keyed (row.id :: woke))
    (hrow : keyed.rows.get key = some row) {now : U}
    (hnow : now = keyed.core.answerOf current row.entry) :
  let keyed' := { keyed with rows := keyed.rows.insert key { row with value := now } }
  Resolves hash current keyed keyed' woke
      [.changed row.key (row.input, row.value) (row.input, now) false]
    ∧ Reread current keyed.core row.id keyed.slots keyed'.slots
  := by
  have hreread := reread_insert h hrow hnow
  have hhash := h.hash_eq key row hrow
  refine ⟨⟨⟨?_, h.backed.reread hreread, ?_⟩, rfl, rfl, ⟨?_, trivial⟩, ?_⟩, hreread⟩
  · intro key' row' hrow'
    rw [Table.get_insert] at hrow'
    split at hrow'
    case isTrue heq =>
      rw [Option.some_inj] at hrow'
      rw [← hrow', heq, hhash]
    case isFalse => apply h.hash_eq key' row' hrow'
  · intro id key'
    rw [h.keyOfSlot_iff]
    simp only [Table.get_insert]
    split
    case isTrue heq => simp [heq, hrow]
    case isFalse => rfl
  · refine ⟨row.key, ?_, by simp⟩
    rw [hhash, shown, Table.get_map, hrow]
    rfl
  · change keyed.shown.insert (hash row.key) _ = _
    rw [hhash]
    symm
    apply Table.map_insert

theorem readKey_resolves {id : ℕ} (h : Backs hash current keyed (id :: woke)) :
  Resolves hash current keyed (keyed.readKey current id).1 woke
      (keyed.readKey current id).2.toList
    ∧ Reread current keyed.core id keyed.slots (keyed.readKey current id).1.slots
  := by
  rw [readKey]
  cases hkey : keyed.keyOfSlot.get id with
  | none =>
    apply readKey_skips h
    rintro slot hslot rfl
    obtain ⟨row, hmem, rfl⟩ := List.mem_map.mp hslot
    obtain ⟨key, hrow⟩ := Table.mem_values_iff.mp hmem
    have := (h.keyOfSlot_iff row.id key).mpr ⟨row, hrow, rfl⟩
    rw [show row.slot.id = row.id from rfl, this] at hkey
    contradiction
  | some key =>
    obtain ⟨row, hrow, rfl⟩ := (h.keyOfSlot_iff id key).mp hkey
    have hslot : row.slot ∈ keyed.slots :=
      List.mem_map_of_mem (Table.mem_values_iff.mpr ⟨key, hrow⟩)
    have hhold := h.backed.hold row.slot hslot
    have hskip : (∀ hold, keyed.core.holds.get row.id = some hold → hold.follows = false) →
        ∀ slot ∈ keyed.slots, slot.id = row.id → Settled current keyed.core slot := by
      intro hnone slot hslot' hid
      apply h.backed.settled_of_hold hslot'
      rwa [hid]
    simp only [hrow]
    cases hget : keyed.core.holds.get row.id with
    | none =>
      apply readKey_skips h
      apply hskip
      simp [hget]
    | some hold =>
      simp only
      split
      case isTrue =>
        have hpull := pull_of_holdOf (hhold.symm.trans hget)
        rw [hpull]
        apply readKey_reads h hrow rfl
      case isFalse hfollows =>
        apply readKey_skips h
        apply hskip
        rintro hold' hget'
        rw [hget, Option.some_inj] at hget'
        rw [← hget', ← Bool.not_eq_true]
        apply hfollows

/-- Reading a slot once more keeps the entries the rows are for. -/
theorem inputs_readKey (id : ℕ) :
  (keyed.readKey current id).1.inputs = keyed.inputs
  := by
  rw [readKey]
  split
  · rfl
  case h_2 key _ =>
    split
    case h_1 row hold hrow _ =>
      split
      case isTrue =>
        have hget : keyed.inputs.get key = some row.entry := by
          rw [inputs, Table.get_map, hrow]
          rfl
        change (keyed.rows.insert key { row with value := _ }).map KeyRow.entry = _
        rw [Table.map_insert]
        apply Table.insert_of_get hget
      case isFalse => rfl
    case h_2 => rfl

theorem readKeys_resolves {seen : List ℕ} (h : Backs hash current keyed woke)
    (hseen : ∀ slot ∈ keyed.slots, slot.id ∈ seen → Settled current keyed.core slot) :
  Resolves hash current keyed (keyed.readKeys current seen woke).1 []
      (keyed.readKeys current seen woke).2
    ∧ (keyed.readKeys current seen woke).1.inputs = keyed.inputs
  := by
  induction woke generalizing keyed seen with
  | nil => exact ⟨⟨h, rfl, rfl, trivial, rfl⟩, rfl⟩
  | cons id woke ih =>
    rw [readKeys]
    split
    case isTrue hmem =>
      have hforget := h.backed.forget (by
        rintro slot hslot rfl
        apply hseen slot hslot hmem)
      apply ih ⟨h.hash_eq, hforget, h.keyOfSlot_iff⟩ hseen
    case isFalse hmem =>
      obtain ⟨hresolves, hreread⟩ := readKey_resolves h
      have hseen' : ∀ slot ∈ (keyed.readKey current id).1.slots, slot.id ∈ id :: seen →
          Settled current (keyed.readKey current id).1.core slot := by
        intro slot hslot hin
        rw [Settled, answerOf, hresolves.run_eq]
        rcases mem_cons.mp hin with heq | hin
        · apply hreread.settled slot hslot heq
        · rcases hreread.kept slot hslot with hold | hsettled
          · apply hseen slot hold hin
          · apply hsettled
      obtain ⟨hresolves', hinputs⟩ := ih hresolves.backs hseen'
      exact ⟨hresolves.trans hresolves', hinputs.trans (inputs_readKey id)⟩

/-! ### A drain -/

/-- The core holds `upstream`, each entry with a value that is its run's answer now, or with
a flow that has woken its slot. -/
structure Holds (hash : K → H) (current : F → U) (keyed : KeyedCore K H F V U)
    (upstream : HashMap hash V) : Prop where
  inputs_eq : keyed.inputs = upstream.table
  backs : Backs hash current keyed keyed.core.dirty

/-- A drain leaves a core that holds the upstream with nothing dirty, and resolves into
events that take what the rows showed before to what they show after. -/
theorem keyedResolve_spec (h : Holds hash current keyed upstream) (ops : List (MapOp hash V)) :
  let resolved := keyed.keyedResolve current ops
  Holds hash current resolved.1 (MapOp.replay ops upstream)
    ∧ resolved.1.core.dirty = []
    ∧ resolved.1.core.run = keyed.core.run
    ∧ KeyEvent.AllAccurate hash resolved.2 keyed.shown
    ∧ KeyEvent.replay hash resolved.2 keyed.shown = resolved.1.shown
  := by
  obtain ⟨hresolves, hinputs⟩ := keyedResolveOps_resolves h.backs h.inputs_eq ops
  let resolved := keyed.keyedResolveOps current ops
  let emptied := { resolved.1 with core := { resolved.1.core with dirty := [] } }
  have hbacks := hresolves.backs
  rw [← hresolves.dirty_eq] at hbacks
  have hback : Backs hash current emptied resolved.1.core.dirty := by
    have := hbacks.backed
    exact ⟨hbacks.hash_eq, ⟨this.nodup, this.id_lt, this.hold_lt, this.hold, this.settled⟩,
      hbacks.keyOfSlot_iff⟩
  have hnone : ∀ slot ∈ emptied.slots, slot.id ∈ ([] : List ℕ) →
      Settled current emptied.core slot := by
    simp
  obtain ⟨hread, hinputs'⟩ := readKeys_resolves hback hnone
  have hreplay := hresolves.replay_eq
  have hdirty := hread.dirty_eq
  refine ⟨⟨?_, ?_⟩, hdirty, ?_, ?_, ?_⟩
  · change (emptied.readKeys current [] resolved.1.core.dirty).1.inputs = _
    rw [hinputs']
    apply hinputs
  · change Backs hash current (emptied.readKeys current [] resolved.1.core.dirty).1
      (emptied.readKeys current [] resolved.1.core.dirty).1.core.dirty
    rw [hdirty]
    apply hread.backs
  · rw [← hresolves.run_eq]
    apply hread.run_eq
  · apply Replay.along_append.mpr ⟨hresolves.accurate, _⟩
    change KeyEvent.AllAccurate hash _ (KeyEvent.replay hash resolved.2 keyed.shown)
    rw [hreplay]
    apply hread.accurate
  · change Replay.replay _ (resolved.2 ++ _) keyed.shown = _
    rw [Replay.replay_append]
    change KeyEvent.replay hash _ (KeyEvent.replay hash resolved.2 keyed.shown) = _
    rw [hreplay]
    apply hread.replay_eq

/-- A seeded core holds what it was seeded from, with nothing dirty. -/
theorem keyedSeed_spec (current : F → U) (run : K × V → ElementRun F U × Bool)
    (map : HashMap hash V) :
  let seeded := (new run).keyedSeed current map
  Holds hash current seeded map ∧ seeded.core.dirty = [] ∧ seeded.core.run = run
  := by
  obtain ⟨hrun, hdirty⟩ := @core_admitEach K H F V U _ hash current (new run) map.entries
  have hbacks := backs_keyedSeed (backs_new hash current run) rfl map
  refine ⟨⟨inputs_keyedSeed current rfl map, ?_⟩, hdirty, hrun⟩
  change Backs hash current _ ((new run).keyedSeed current map).core.dirty
  rw [show ((new run).keyedSeed current map).core.dirty = [] from hdirty]
  apply hbacks

/-- A core with nothing dirty shows each entry of the upstream with what its run answers
now. -/
theorem Holds.shown_eq (h : Holds hash current keyed upstream) (hdirty : keyed.core.dirty = []) :
  keyed.shown = upstream.table.map
    (fun entry => (entry.1, (entry.2, (keyed.core.run entry).1.pull current)))
  := by
  have hbacked := h.backs.backed
  rw [hdirty] at hbacked
  rw [← h.inputs_eq, inputs, Table.map_map, shown]
  apply Table.ext
  apply map_congr_left
  rintro ⟨key, row⟩ hentry
  have hslot : row.slot ∈ keyed.slots :=
    List.mem_map_of_mem (Table.mem_values_iff.mpr ⟨key, Table.get_eq_some_iff.mpr hentry⟩)
  rcases hbacked.settled row.slot hslot with hsettled | ⟨hwoke, -⟩
  · have hvalue : row.value = (keyed.core.run row.entry).1.pull current := hsettled
    simp only [KeyRow.shown, comp_apply, KeyRow.entry] at hvalue ⊢
    rw [hvalue]
  · contradiction

/-! ### Between drains -/

/-- The flows change value: the slots in `woke` are marked dirty. -/
def wake (keyed : KeyedCore K H F V U) (woke : List ℕ) : KeyedCore K H F V U :=
  { keyed with core := keyed.core.wake woke }

/-- The slots in `woke` include every slot that follows a flow whose value has changed. -/
def Wakes (before after : F → U) (keyed : KeyedCore K H F V U) (woke : List ℕ) : Prop :=
  ∀ (key : H) (row : KeyRow K V U) (flow : F), keyed.rows.get key = some row →
    (keyed.core.run row.entry).1 = .live flow → before flow ≠ after flow → row.id ∈ woke

/-- A core whose slots are woken when their flows change goes on holding its upstream. -/
theorem Holds.wake {before after : F → U} (h : Holds hash before keyed upstream)
    (hwoke : Wakes before after keyed woke) :
  Holds hash after (keyed.wake woke) upstream
  := by
  refine ⟨h.inputs_eq, ⟨h.backs.hash_eq, h.backs.backed.wake ?_, h.backs.keyOfSlot_iff⟩⟩
  intro slot hslot flow hanswer hchanged
  obtain ⟨row, hmem, rfl⟩ := List.mem_map.mp hslot
  obtain ⟨key, hrow⟩ := Table.mem_values_iff.mp hmem
  apply hwoke key row flow hrow hanswer hchanged

end KeyedCore

end Vilan
