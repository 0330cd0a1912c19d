import Mathlib
import Vilan.Std.DecodeEnds
import Vilan.Std.JsonShape

/-!
# JSON that is read without failing

A reader that has not failed stood before values of the kinds that it asked for.  So a decode that
succeeds has spelled its value, unless a list of payloads had more elements, or fewer, than its
variant: what is left of such a list is not noticed.
-/

namespace Vilan.Wire

open List Option

open Native (JsonValue)

variable {F H : Type}

namespace JsonReader

variable {stack : List (JsonValue Str F)} {marks : List ℕ} {json : JsonValue Str F}

/-! ### What is read without failing -/

variable {name : Str}

theorem has_iff :
  hasJsonField json name = true ↔
    ∃ entries value, json = .object entries ∧ entries.lookup name = some value
  := by
  constructor
  · intro h
    cases json with
    | object entries =>
      obtain ⟨value, heq⟩ := isSome_iff_exists.mp h
      use entries, value
    | _ => cases h
  · rintro ⟨entries, value, rfl, heq⟩
    rw [hasJsonField, heq]
    rfl

theorem field_ok (h : ((standing (json :: stack) marks).field name).error = none) :
  hasJsonField json name = true ∧
    (standing (json :: stack) marks).field name =
      standing (jsonField json name :: json :: stack) marks
  := by
  cases json with
  | object entries =>
    cases heq : entries.lookup name with
    | none =>
      have top : (standing (.object entries :: stack) marks).top = .object entries := rfl
      simp only [field, top, expect_object, hasJsonField, heq, isSome_none,
        Bool.false_eq_true, if_false] at h
      apply absurd h (report_error _ _)
    | some value =>
      use has_iff.mpr ⟨entries, value, rfl, heq⟩
      rw [field_standing _ _ _ heq, jsonField, heq, getD_some]
  | _ => cases h

/-- A list that is closed has no elements left. -/
theorem endList_ok
    {values : List (JsonValue Str F)}
    (h : (standing (values ++ stack) (stack.length :: marks)).endList.error = none) :
  values = []
  := by
  cases values with
  | nil => rfl
  | cons value values =>
    have lt : stack.length < (value :: values ++ stack).length := by
      simp only [length_cons, length_append]
      omega
    have unread : (standing (value :: values ++ stack) (stack.length :: marks)).endList =
        (standing (value :: values ++ stack) marks).report _ := if_pos ⟨rfl, lt⟩
    rw [unread] at h
    apply absurd h (report_error _ _)

theorem beginVariant_ok {arity : ℕ} (positive : 0 < arity)
    (h : ((standing (json :: stack) marks).beginVariant name arity).error = none) :
  hasJsonField json name = true ∧
    (standing (json :: stack) marks).beginVariant name arity =
      standing
        ((if arity = 1 then [jsonField json name] else jsonElements (jsonField json name)) ++ stack)
        marks
  := by
  have lt : (0 : ℤ) < arity := by omega
  cases json with
  | object entries =>
    cases heq : entries.lookup name with
    | none =>
      simp only [beginVariant, take_standing, lt, expect_object, hasJsonField, heq,
        isSome_none, Bool.false_eq_true, if_false, if_true] at h
      apply absurd h (report_error _ _)
    | some value =>
      use has_iff.mpr ⟨entries, value, rfl, heq⟩
      simp only [beginVariant, take_standing, lt, expect_object, hasJsonField, heq,
        isSome_some, if_true, Nat.cast_eq_one]
      split
      · rfl
      · rfl
  | _ =>
    simp only [beginVariant, take_standing, lt, if_true] at h
    cases h

theorem boolValue_ok (h : (standing (json :: stack) marks).boolValue.2.error = none) :
  ∃ flag, json = .bool flag
  := by
  cases json with
  | bool flag => use flag
  | _ => cases h

theorem strValue_ok (h : (standing (json :: stack) marks).strValue.2.error = none) :
  ∃ text, json = .text text
  := by
  cases json with
  | text text => use text
  | _ => cases h

theorem f64Value_ok
    {host : JsonHost F} (h : ((standing (json :: stack) marks).f64Value host).2.error = none) :
  ∃ number, json = .number number
  := by
  cases json with
  | number number => use number
  | _ => cases h

/-- A number is one of an integer lane unless there is a reason why not. -/
theorem wholeOf_of_lane
    {host : JsonHost F} {signed : Bool} {number : F}
    (h : integerLaneFailure host (.number number) signed = none) :
  wholeOf host signed (.number number) = some (host.trunc number)
  := by
  change (if !host.isWhole number then some _ else if !signed && host.isNegative number then some _
    else none) = none at h
  by_cases whole : host.isWhole number
  · have lane : (!signed && host.isNegative number) = false := by
      simpa only [whole, Bool.not_true, Bool.false_eq_true, if_false, ite_eq_right_iff,
        reduceCtorEq, imp_false, Bool.not_eq_true] using h
    rw [wholeOf, whole, Bool.true_and, if_pos]
    cases signed with
    | false =>
      rw [Bool.not_false, Bool.true_and] at lane
      rw [lane]
      rfl
    | true => rfl
  · simp only [whole, Bool.not_false, if_true, reduceCtorEq] at h

theorem integerValue_ok
    {host : JsonHost F} {signed : Bool}
    (h : ((standing (json :: stack) marks).integerValue host signed).2.error = none) :
  ∃ value, wholeOf host signed json = some value ∧
    (standing (json :: stack) marks).integerValue host signed = (value, standing stack marks)
  := by
  cases json with
  | number number =>
    simp only [integerValue, take_standing, expectInteger, expect_number] at h ⊢
    cases lane : integerLaneFailure host (.number number) signed with
    | none =>
      use host.trunc number, wholeOf_of_lane lane
      rfl
    | some reason =>
      simp only [lane] at h
      apply absurd h (report_error _ _)
  | _ => cases h

end JsonReader

open JsonReader

/-- A scalar that was read was spelled. -/
theorem rebuildScalar_spelled
    {host : JsonHost F} {kind : Scalar} {json : JsonValue Str F} {stack : List (JsonValue Str F)}
    {marks : List ℕ}
    (h : (rebuildScalar host.toHost (jsonDeserialize host) kind
      (standing (json :: stack) marks)).2.error = none) :
  ∃ value, scalarOf host kind json = some value ∧
    rebuildScalar host.toHost (jsonDeserialize host) kind (standing (json :: stack) marks) =
      (value, standing stack marks)
  := by
  cases kind
  case bool =>
    obtain ⟨flag, rfl⟩ := boolValue_ok h
    exact ⟨_, rfl, rfl⟩
  case str =>
    obtain ⟨text, rfl⟩ := strValue_ok h
    exact ⟨_, rfl, rfl⟩
  case f32 | f64 =>
    obtain ⟨number, rfl⟩ := f64Value_ok h
    exact ⟨_, rfl, rfl⟩
  all_goals
    obtain ⟨value, whole, read⟩ := integerValue_ok h
    simp only [rebuildScalar, jsonDeserialize, scalarOf, whole, read, map_some, Prod.map]
    exact ⟨_, rfl, rfl⟩

/-! ### Lists that are read in part -/

section Parts

variable {program : Program F H}

theorem asI32_toNat_le (n : ℕ) : (asI32 n).toNat ≤ n := by
  have le : asI32 n ≤ n := by
    rw [asI32, foldSigned, foldUnsigned]
    apply (ite_le_sup _ _ _).trans
    apply sup_le
    · omega
    · omega
  omega

variable {items : List (JsonValue Str F)}

theorem ListsFit.items_take {element : Ty}
    (h : ListsFit program (List.replicate items.length element) items) (n : ℕ) :
  ListsFit program (List.replicate (items.take n).length element) (items.take n)
  := by
  induction items generalizing n with
  | nil => simpa only [take_nil] using h
  | cons item items ih =>
    cases n with
    | zero => apply ListsFit.nil
    | succ n =>
      obtain ⟨first, others⟩ := ListsFit.cons_iff.mp h
      apply ListsFit.cons_iff.mpr ⟨first, ih others n⟩

theorem ListsFit.entries_take {key value : Ty}
    (h : ListsFit program (pairTypes key value items.length) (entryMembers items)) (n : ℕ) :
  ListsFit program (pairTypes key value (items.take n).length) (entryMembers (items.take n))
  := by
  induction items generalizing n with
  | nil => simpa only [take_nil] using h
  | cons item items ih =>
    cases n with
    | zero => apply ListsFit.nil
    | succ n =>
      obtain ⟨first, h⟩ := ListsFit.cons_iff.mp h
      obtain ⟨second, others⟩ := ListsFit.cons_iff.mp h
      apply ListsFit.cons_iff.mpr ⟨first, ListsFit.cons_iff.mpr ⟨second, ih others n⟩⟩

/-- A list that is closed without a failure has been read to its end. -/
theorem read_whole {stack : List (JsonValue Str F)} {marks : List ℕ} {n : ℕ}
    (ok : (standing (items.drop n ++ stack) (stack.length :: marks)).endList.error = none) :
  items.take n = items ∧
    (standing (items.drop n ++ stack) (stack.length :: marks)).endList = standing stack marks
  := by
  have spent := endList_ok ok
  rw [spent, nil_append, endList_standing]
  use take_of_length_le (drop_eq_nil_iff.mp spent)

end Parts

/-! ### What is rebuilt was spelled -/

variable [DecidableEq H] {host : JsonHost F} {program : Program F H}

/-- A part is rebuilt from the values on the stack: where their lists fit, they are taken off, those
of a struct behind it, and they spell what is made. -/
def Part.Takes (host : JsonHost F) (program : Program F H) :
    Part F → JsonReader F → List (Value F) → JsonReader F → Prop
  | .values order, d, made, d' =>
      ∀ jsons stack marks, d = standing (jsons ++ stack) marks → ListsFit program order jsons →
        d' = standing stack marks ∧ Spells host program order jsons made
  | .fields named, d, made, d' =>
      ∀ json stack marks, d = standing (json :: stack) marks →
        ListsFit program (named.map Prod.snd) (fieldMembers named json) →
          d' = standing (json :: stack) marks ∧
            (∀ field ∈ named, hasJsonField json field.1 = true) ∧
              Spells host program (named.map Prod.snd) (fieldMembers named json) made
  | .entries key value length held, d, made, d' =>
      ∀ items stack marks, items.length = length → d = standing (items ++ stack) marks →
        ListsFit program (pairTypes key value length) (entryMembers items) →
          ∀ pairs, held = entriesOf pairs →
            d' = standing stack marks ∧
              (∀ item ∈ items, hasJsonField item (ascii "key") = true ∧
                hasJsonField item (ascii "value") = true) ∧
                ∃ others, Spells host program (pairTypes key value length) (entryMembers items)
                    (pairValues others) ∧
                  made = entriesOf (insertAll program.hash pairs others)

/-- A rebuild that does not fail takes values whose lists fit off the stack. -/
theorem Rebuilds.takes
    {part : Part F} {d d' : JsonReader F} {values : List (Value F)}
    (h : Rebuilds host.toHost program (jsonDeserialize host) part d values d')
    (ok : d'.error = none) :
  part.Takes host program d values d'
  := by
  have keeps := jsonDeserialize_keeps host
  induction h with
  | nil d =>
    intro jsons stack marks at_ fit
    cases fit
    use at_, .nil
  | @cons type types d mid d' value values _ hs ih ihs =>
    intro jsons stack marks at_ fit
    have okm := not_not.mp fun failed => hs.keeps keeps failed ok
    obtain _ | ⟨json, jsons⟩ := jsons
    · cases fit
    · obtain ⟨first, others⟩ := ListsFit.cons_iff.mp fit
      obtain ⟨left, spelled⟩ := ih okm [json] (jsons ++ stack) marks at_ first
      obtain ⟨last, spells⟩ := ihs ok jsons stack marks left others
      use last, .cons spelled spells
  | scalar kind d =>
    intro jsons stack marks at_ fit
    cases fit with
    | scalar kind json =>
      obtain rfl : d = standing (json :: stack) marks := at_
      obtain ⟨value, spelled, read⟩ := rebuildScalar_spelled ok
      rw [read]
      use rfl, .scalar spelled
  | @list element d d' values hi ih =>
    intro jsons stack marks at_ fit
    cases fit with
    | @list _ items fit =>
      obtain rfl : d = standing (.array items :: stack) marks := at_
      have oki := not_not.mp fun failed => keeps.endList _ failed ok
      simp only [jsonDeserialize, beginList_standing] at ih
      have le := asI32_toNat_le items.length
      generalize (asI32 items.length).toNat = n at ih le
      have length := length_take_of_le le
      have some := fit.items_take n
      rw [length] at some
      obtain ⟨rfl, spells⟩ := ih oki (items.take n) (items.drop n ++ stack)
        (stack.length :: marks) (by rw [← append_assoc, take_append_drop]) some
      obtain ⟨whole, closed⟩ := read_whole ok
      rw [whole] at spells length
      subst length
      use closed, .list spells
  | @absent element d null =>
    intro jsons stack marks at_ fit
    cases fit with
    | absent element =>
      obtain rfl : d = standing (.null :: stack) marks := at_
      use rfl, .absent
    | @present _ json kept fit =>
      obtain rfl : d = standing (json :: stack) marks := at_
      change jsonIsNull json = true at null
      rw [kept] at null
      cases null
  | @present element d d' value null hv ih =>
    intro jsons stack marks at_ fit
    cases fit with
    | absent element =>
      obtain rfl : d = standing (.null :: stack) marks := at_
      cases null
    | @present _ json kept fit =>
      obtain rfl : d = standing (json :: stack) marks := at_
      obtain ⟨heq, spells⟩ := ih ok [json] stack marks rfl fit
      use heq, .present kept spells
  | @map key value d d' entries he ih =>
    intro jsons stack marks at_ fit
    cases fit with
    | @map _ _ items spares fit =>
      obtain rfl : d = standing (.array items :: stack) marks := at_
      have oki := not_not.mp fun failed => keeps.endList _ failed ok
      simp only [jsonDeserialize, beginList_standing] at ih
      have le := asI32_toNat_le items.length
      generalize (asI32 items.length).toNat = n at ih le
      have length := length_take_of_le le
      have some := fit.entries_take n
      rw [length] at some
      obtain ⟨rfl, members, pairs, spells, rfl⟩ := ih oki (items.take n)
        (items.drop n ++ stack) (stack.length :: marks) length
        (by rw [← append_assoc, take_append_drop]) some [] rfl
      obtain ⟨whole, closed⟩ := read_whole ok
      rw [whole] at spells length members
      subst length
      use closed, .map members spares spells
  | @struct id fields d d' values decl hf ih =>
    intro jsons stack marks at_ fit
    have okf := not_not.mp fun failed => keeps.endStruct _ failed ok
    cases fit with
    | @struct _ _ json decl' spares fit =>
      rw [decl, Decl.struct.injEq] at decl'
      subst decl'
      obtain ⟨rfl, members, spells⟩ := ih okf json stack marks at_ fit
      use rfl, .struct decl members spares spells
    | unit decl' | single decl' | several decl' | backed _ decl' =>
      rw [decl] at decl'
      cases decl'
  | @variant id variants fallback types d d' payloads decl known hp ih =>
    intro jsons stack marks at_ fit
    have okp := not_not.mp fun failed => hp.keeps keeps failed ok
    cases fit with
    | @unit _ _ _ json decl' known' spares =>
      rw [decl, Decl.enum.injEq] at decl'
      obtain ⟨rfl, rfl⟩ := decl'
      obtain rfl : d = standing (json :: stack) marks := at_
      obtain rfl : types = [] := Option.some.inj (known.symm.trans known')
      obtain ⟨heq, spells⟩ := ih ok [] stack marks rfl .nil
      cases spells
      use heq, .unit decl known spares
    | @single _ _ _ type json decl' known' spares fit =>
      rw [decl, Decl.enum.injEq] at decl'
      obtain ⟨rfl, rfl⟩ := decl'
      obtain rfl : d = standing (json :: stack) marks := at_
      obtain rfl : types = [type] := Option.some.inj (known.symm.trans known')
      obtain ⟨member, begun⟩ := beginVariant_ok Nat.one_pos okp
      obtain ⟨heq, spells⟩ := ih ok [jsonField json (jsonTag json)] stack marks begun fit
      obtain ⟨payload, rfl⟩ := length_eq_one_iff.mp spells.length_values.symm
      use heq, .single decl known member spares spells
    | @several _ _ _ _ json elements decl' known' arity payload length spares fit =>
      rw [decl, Decl.enum.injEq] at decl'
      obtain ⟨rfl, rfl⟩ := decl'
      obtain rfl : d = standing (json :: stack) marks := at_
      obtain rfl := Option.some.inj (known.symm.trans known')
      obtain ⟨_, begun⟩ := beginVariant_ok (by omega) okp
      rw [if_neg (by omega)] at begun
      change _ = standing (jsonElements (jsonField json (jsonTag json)) ++ stack) marks at begun
      rw [payload] at begun
      obtain ⟨heq, spells⟩ := ih ok elements stack marks begun fit
      use heq, .several decl known arity payload spares spells
    | struct decl' | backed _ decl' =>
      rw [decl] at decl'
      cases decl'
  | fallback decl unknown hp =>
    apply absurd ok (hp.keeps keeps (report_error _ _))
  | @backed id name first backing values known d decl found =>
    intro jsons stack marks at_ fit
    cases fit with
    | @backed _ _ _ _ _ json decl' =>
      obtain rfl : d = standing (json :: stack) marks := at_
      obtain ⟨value, spelled, read⟩ := rebuildScalar_spelled ok
      rw [read] at found ⊢
      have mem := mem_of_find?_eq_some found
      have eq := Value.isBacking_eq (by simpa using find?_some found)
      use rfl, .backed decl mem (by rw [eq]; apply spelled)
    | struct decl' | unit decl' | single decl' | several decl' =>
      rw [decl] at decl'
      cases decl'
  | unbacked decl missing => apply absurd ok (report_error _ _)
  | noFields d =>
    intro json stack marks at_ fit
    use at_, forall_mem_nil _, .nil
  | @field field fields d mid d' value values hv hs ih ihs =>
    intro json stack marks at_ fit
    subst at_
    have okm := not_not.mp fun failed => hs.keeps keeps failed ok
    have okf := not_not.mp fun failed => hv.keeps keeps failed okm
    obtain ⟨first, others⟩ := ListsFit.cons_iff.mp fit
    obtain ⟨member, begun⟩ := field_ok okf
    obtain ⟨left, spelled⟩ :=
      ih okm [jsonField json field.1] (json :: stack) marks begun first
    obtain ⟨last, members, spells⟩ := ihs ok json stack marks left others
    use last, forall_mem_cons.mpr ⟨member, members⟩, .cons spelled spells
  | noEntries entries d =>
    intro items stack marks length at_ fit pairs held
    obtain rfl := eq_nil_of_length_eq_zero length
    exact ⟨at_, forall_mem_nil _, [], .nil, held⟩
  | @entry keyType valueType length entries values d mid last d' key value hk hv hs ihk ihv ihs =>
    intro items stack marks count at_ fit pairs held
    subst at_
    obtain _ | ⟨item, items⟩ := items
    · cases count
    · have okl := not_not.mp fun failed =>
        hs.keeps keeps (keeps.endStruct _ failed) ok
      have okv := not_not.mp fun failed => hv.keeps keeps failed okl
      have okm := not_not.mp fun failed => keeps.field _ _ failed okv
      have okk := not_not.mp fun failed => hk.keeps keeps failed okm
      obtain ⟨first, fit⟩ := ListsFit.cons_iff.mp fit
      obtain ⟨second, others⟩ := ListsFit.cons_iff.mp fit
      obtain ⟨keyed, begun⟩ := field_ok okk
      obtain ⟨rfl, spelled⟩ := ihk okm [jsonField item (ascii "key")]
        (item :: items ++ stack) marks begun first
      obtain ⟨valued, begun'⟩ := field_ok okv
      obtain ⟨rfl, spelled'⟩ := ihv okl [jsonField item (ascii "value")]
        (item :: items ++ stack) marks begun' second
      obtain ⟨left, members, pairs', spells, rfl⟩ := ihs ok items stack marks
        (Nat.succ.inj count) rfl others (insertPair program.hash pairs (key, value)) (by
          rw [held]
          apply insertEntry_entriesOf program.hash pairs (key, value))
      use left, forall_mem_cons.mpr ⟨⟨keyed, valued⟩, members⟩, (key, value) :: pairs',
        .cons spelled (.cons spelled' spells)
      rfl

/-! ### Texts that are read exactly -/

/-- A text is decoded as a value with nothing lost: each part of the value is read from its own
part of the text, and nothing is left on the stack. -/
def ReadExactly (host : JsonHost F) (program : Program F H) (type : Ty) (text : Str)
    (value : Value F) : Prop :=
  ∃ depth root last, host.parse text = some root ∧
    rebuild host.toHost program (jsonDeserialize host) depth type (.new root) = some (value, last) ∧
      last.stack = [] ∧ Spells host program [type] [root] [value]

/-- A text of a struct that holds an enum and a number. -/
def pairText : Str :=
  ascii "\x7b\"a\":\x7b\"Pair\":[1,2]\x7d,\"b\":5\x7d"

/-- The text with a payload too many. -/
def extraText : Str :=
  ascii "\x7b\"a\":\x7b\"Pair\":[1,2,\x7b\"b\":7\x7d]\x7d,\"b\":5\x7d"

def pairObject (payloads : List (JsonValue Str ℤ)) : JsonValue Str ℤ :=
  .object [(ascii "a", .object [(ascii "Pair", .array payloads)]), (ascii "b", .number 5)]

/-- A host that parses the two texts. -/
def pairHost : JsonHost ℤ :=
  { wholeHost with
    parse := fun text =>
      if text = pairText then some (pairObject [.number 1, .number 2])
      else if text = extraText then
        some (pairObject [.number 1, .number 2, .object [(ascii "b", .number 7)]])
      else none }

/-- A struct of an enum and a number, where the enum has a variant of two numbers. -/
def pairProgram : Program ℤ Bool where
  decl
    | 0 => .struct [(ascii "a", .named 1), (ascii "b", .scalar .i32)]
    | _ => .derived (ascii "Pair", [.scalar .i32, .scalar .i32]) [(ascii "Neither", [])]
  hash _ := false

end Vilan.Wire
