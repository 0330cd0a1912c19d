import Vilan.Std.Base64

/-!
# JSON web tokens

A token is a header, a payload and a signature, in base64url and joined by dots.  It is
verified by its decoded signature, so it has as many spellings that verify as its signature
has.  Text conversion and the HMAC are the host's; claims are any type with a JSON encoding.
-/

namespace Vilan.Jwt

open List Base64

/-- What the host does. -/
structure Host where
  encodeUtf8 : Str → Bytes
  decodeUtf8 : Bytes → Str
  hmacSha512 : Bytes → Bytes → Bytes

/-- What the claims' type does. -/
structure Claims (C : Type*) where
  encodeJson : C → Str
  decodeJson : Str → Except Str C

variable {C : Type*} (host : Host) (claims : Claims C)

/-- The header `{"alg":"HS512","typ":"JWT"}`. -/
def headerSegment : Str :=
  ascii "eyJhbGciOiJIUzUxMiIsInR5cCI6IkpXVCJ9"

/-- Byte equality that looks at every byte. -/
def equalsConstantTime (a b : Bytes) : Bool :=
  if a.length ≠ b.length then false
  else (a.zip b).foldl (fun acc pair => acc ||| (pair.1.toNat ^^^ pair.2.toNat)) 0 == 0

/-- Sign claims under a secret. -/
def signHs512 (secret : Bytes) (value : C) : Str :=
  let payload := encodeUrl (host.encodeUtf8 (claims.encodeJson value))
  let signingInput := headerSegment ++ ascii "." ++ payload
  let signature := host.hmacSha512 secret (host.encodeUtf8 signingInput)
  signingInput ++ ascii "." ++ encodeUrl signature

/-- The payload segment, decoded as claims. -/
def decodeClaims (segment : Str) : Option C :=
  match decodeUrl segment with
  | some payload =>
      match claims.decodeJson (host.decodeUtf8 payload) with
      | .ok value => some value
      | .error _ => none
  | none => none

/-- Verify a token under a secret: the header is the one there is, the signature is the
payload's, and the payload decodes. -/
def verifyHs512 (secret : Bytes) (token : Str) : Option C :=
  match token.split 46 with
  | [header, payload, signature] =>
      if header ≠ headerSegment then none
      else
        let expected := host.hmacSha512 secret (host.encodeUtf8 (header ++ ascii "." ++ payload))
        match decodeUrl signature with
        | some given =>
            if equalsConstantTime expected given then decodeClaims host claims payload else none
        | none => none
  | _ => none

/-- The token of a payload: what signing joins. -/
def signed (secret payload : Bytes) : Str :=
  headerSegment ++ ascii "." ++ encodeUrl payload ++ ascii "."
    ++ encodeUrl (host.hmacSha512 secret
      (host.encodeUtf8 (headerSegment ++ ascii "." ++ encodeUrl payload)))

/-- A segment of a token. -/
def segment (token : Str) (index : ℕ) : Str :=
  (token.split 46).getD index []

/-- A token verifies, with the payload. -/
def Verifies (secret : Bytes) (token : Str) (payload : Bytes) : Prop :=
  (verifyHs512 host claims secret token).isSome = true
    ∧ decodeUrl (segment token 1) = some payload

/-! ### Comparing and splitting -/

theorem equalsConstantTime_iff {a b : Bytes} :
  equalsConstantTime a b = true ↔ a = b
  := by
  have hfold : ∀ (pairs : List (UInt8 × UInt8)) (acc : ℕ),
      pairs.foldl (fun acc pair => acc ||| (pair.1.toNat ^^^ pair.2.toNat)) acc = 0
        ↔ acc = 0 ∧ ∀ pair ∈ pairs, pair.1 = pair.2 := by
    intro pairs
    induction pairs with
    | nil => simp
    | cons pair pairs ih =>
      intro acc
      rw [foldl_cons, ih, Nat.or_eq_zero_iff, Nat.xor_eq_zero_iff, UInt8.toNat_inj,
        forall_mem_cons, and_assoc]
  rw [equalsConstantTime]
  by_cases hlength : a.length = b.length
  · rw [if_neg (by simpa using hlength), beq_iff_eq, hfold]
    constructor
    · rintro ⟨-, hpairs⟩
      apply ext_getElem hlength
      intro index ha hb
      have hmem : (a[index], b[index]) ∈ a.zip b := by
        rw [mem_iff_getElem]
        refine ⟨index, by simp [ha, hb], ?_⟩
        rw [getElem_zip]
      apply hpairs _ hmem
    · rintro rfl
      refine ⟨rfl, ?_⟩
      intro pair hmem
      obtain ⟨index, hindex, rfl⟩ := mem_iff_getElem.mp hmem
      rw [getElem_zip]
  · rw [if_pos (by simpa using hlength)]
    constructor
    · intro h
      contradiction
    · rintro rfl
      contradiction

/-- A text is its pieces, joined by the separator. -/
theorem eq_of_split {token header payload signature : Str}
    (h : token.split 46 = [header, payload, signature]) :
  token = header ++ ascii "." ++ payload ++ ascii "." ++ signature
  := by
  have hjoin : [46].intercalate (token.splitOn 46) = token := intercalate_splitOn 46
  rw [Str.split] at h
  rw [h] at hjoin
  rw [← hjoin]
  simp [ascii, List.intercalate, List.intersperse]

/-- Base64url has no dot. -/
theorem dot_notMem_of_decodeUrl {text : Str} {bytes : Bytes} (h : decodeUrl text = some bytes) :
  46 ∉ text
  := by
  intro hmem
  obtain ⟨value, hvalue⟩ := digit_of_decodeUrl h 46 hmem
  have hnone : digit 46 = none := by decide
  rw [hnone] at hvalue
  contradiction

theorem split_signed (secret payload : Bytes) :
  (signed host secret payload).split 46
    = [headerSegment, encodeUrl payload, encodeUrl (host.hmacSha512 secret
        (host.encodeUtf8 (headerSegment ++ ascii "." ++ encodeUrl payload)))]
  := by
  have hjoin : signed host secret payload = [46].intercalate [headerSegment, encodeUrl payload,
      encodeUrl (host.hmacSha512 secret
        (host.encodeUtf8 (headerSegment ++ ascii "." ++ encodeUrl payload)))] := by
    simp [signed, ascii, List.intercalate, List.intersperse]
  rw [Str.split, hjoin]
  apply splitOn_intercalate
  · intro text hmem
    simp only [mem_cons, not_mem_nil, or_false] at hmem
    rcases hmem with rfl | rfl | rfl
    · decide
    · apply dot_notMem_of_decodeUrl (decodeUrl_encodeUrl _)
    · apply dot_notMem_of_decodeUrl (decodeUrl_encodeUrl _)
  · simp

/-! ### What verifies -/

/-- What a token that verifies is: its header is the one there is, and its signature decodes to
the HMAC of the two segments before it. -/
theorem verifies_iff {secret : Bytes} {token : Str} {payload : Bytes} :
  Verifies host claims secret token payload
    ↔ token.split 46 = [headerSegment, segment token 1, segment token 2]
      ∧ decodeUrl (segment token 1) = some payload
      ∧ decodeUrl (segment token 2) = some (host.hmacSha512 secret
        (host.encodeUtf8 (headerSegment ++ ascii "." ++ segment token 1)))
      ∧ (decodeClaims host claims (segment token 1)).isSome = true
  := by
  rw [Verifies, verifyHs512]
  constructor
  · rintro ⟨hverify, hpayload⟩
    split at hverify
    · next header middle signature hsplit =>
        have hmiddle : segment token 1 = middle := by
          rw [segment, hsplit]
          rfl
        have hsignature : segment token 2 = signature := by
          rw [segment, hsplit]
          rfl
        rw [hmiddle] at hpayload
        rw [hmiddle, hsignature]
        split at hverify
        · contradiction
        · next hheader =>
            rw [not_not] at hheader
            subst hheader
            simp only at hverify
            split at hverify
            · next given hgiven =>
                split at hverify
                · next hequal =>
                    rw [equalsConstantTime_iff] at hequal
                    rw [← hequal] at hgiven
                    exact ⟨hsplit, hpayload, hgiven, hverify⟩
                · contradiction
            · contradiction
    · contradiction
  · rintro ⟨hsplit, hpayload, hsignature, hclaims⟩
    refine ⟨?_, hpayload⟩
    rw [hsplit]
    simp only [ne_eq, not_true_eq_false, if_false, hsignature, equalsConstantTime_iff.2, if_true]
    apply hclaims

/-- Signed claims verify, as what their text decodes to, under the secrets with the same HMAC. -/
theorem verifyHs512_signHs512 (secret secret' : Bytes) (value : C) :
  let payload := host.encodeUtf8 (claims.encodeJson value)
  let input := host.encodeUtf8 (headerSegment ++ ascii "." ++ encodeUrl payload)
  verifyHs512 host claims secret' (signHs512 host claims secret value)
    = if host.hmacSha512 secret' input = host.hmacSha512 secret input
      then (claims.decodeJson (host.decodeUtf8 payload)).toOption else none
  := by
  intro payload input
  have hsigned : signHs512 host claims secret value = signed host secret payload := rfl
  rw [hsigned, verifyHs512, split_signed]
  simp only [ne_eq, not_true_eq_false, if_false, decodeUrl_encodeUrl, equalsConstantTime_iff,
    decodeClaims]
  congr 1
  split <;> simp [*, Except.toOption]

/-- A token that verifies is the signed token of its payload exactly when no segment has spare
bits, and two tokens of one payload that verify are the same exactly when their spare bits
are. -/
theorem verified_is_signed_iff {secret : Bytes} {token : Str} {payload : Bytes}
    (h : Verifies host claims secret token payload) :
  (token = signed host secret payload
      ↔ spare (segment token 1) = 0 ∧ spare (segment token 2) = 0)
    ∧ ∀ token', Verifies host claims secret token' payload →
      (token' = token ↔ spare (segment token' 1) = spare (segment token 1)
        ∧ spare (segment token' 2) = spare (segment token 2))
  := by
  rw [verifies_iff] at h
  obtain ⟨hsplit, hpayload, hsignature, -⟩ := h
  constructor
  · constructor
    · intro heq
      have hsigned := split_signed host secret payload
      rw [← heq] at hsigned
      rw [segment, segment, hsigned]
      exact ⟨spare_encodeUrl _, spare_encodeUrl _⟩
    · rintro ⟨hspare, hspare'⟩
      rw [← eq_encodeUrl_iff hpayload] at hspare
      rw [← eq_encodeUrl_iff hsignature, hspare] at hspare'
      rw [eq_of_split hsplit, hspare', hspare]
      rfl
  · intro token' h'
    rw [verifies_iff] at h'
    obtain ⟨hsplit', hpayload', hsignature', -⟩ := h'
    constructor
    · rintro rfl
      exact ⟨rfl, rfl⟩
    · rintro ⟨hspare, hspare'⟩
      rw [← eq_iff_spare_eq hpayload hpayload'] at hspare
      rw [hspare] at hsignature'
      rw [← eq_iff_spare_eq hsignature hsignature'] at hspare'
      rw [eq_of_split hsplit, eq_of_split hsplit', hspare, hspare']

/-- A host whose strings are ASCII and whose HMACs are zero. -/
def plainHost : Host where
  encodeUtf8 := fun text => text.map UInt16.toUInt8
  decodeUtf8 := fun bytes => bytes.map UInt8.toUInt16
  hmacSha512 := fun _ _ => List.replicate 64 0

/-- Claims that say nothing. -/
def noClaims : Claims Unit where
  encodeJson := fun _ => ascii "null"
  decodeJson := fun text => if text = ascii "null" then .ok () else .error (ascii "expected null")

/-- The token of no claims. -/
def nullToken : Str :=
  headerSegment ++ ascii ".bnVsbA." ++ List.replicate 86 65

theorem null_token_is_signed :
  nullToken = signed plainHost [] [110, 117, 108, 108]
    ∧ ∀ token', Verifies plainHost noClaims [] token' [110, 117, 108, 108] →
      (token' = nullToken ↔ spare (segment token' 1) = spare (segment nullToken 1)
        ∧ spare (segment token' 2) = spare (segment nullToken 2))
  := by
  have h : Verifies plainHost noClaims [] nullToken [110, 117, 108, 108] := by
    constructor
    · decide +kernel
    · decide +kernel
  have hsigned := verified_is_signed_iff plainHost noClaims h
  refine ⟨hsigned.1.2 ⟨?_, ?_⟩, hsigned.2⟩
  · decide +kernel
  · decide +kernel

/-- A token whose last character was changed verifies, with the same payload. -/
theorem changed_token_verifies :
  ∃ token' : Str, Verifies plainHost noClaims [] nullToken [110, 117, 108, 108]
    ∧ Verifies plainHost noClaims [] token' [110, 117, 108, 108]
    ∧ token'.dropLast = nullToken.dropLast ∧ token'.length = nullToken.length
    ∧ token' ≠ nullToken ∧ token' ≠ signed plainHost [] [110, 117, 108, 108]
  := by
  use nullToken.dropLast ++ [66]
  refine ⟨⟨?_, ?_⟩, ⟨?_, ?_⟩, ?_, ?_, ?_, ?_⟩
  · decide +kernel
  · decide +kernel
  · decide +kernel
  · decide +kernel
  · decide +kernel
  · decide +kernel
  · decide +kernel
  · decide +kernel

end Vilan.Jwt
