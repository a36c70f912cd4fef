/-
  File:      Smartfire/Richtext/SgidText.lean
  Subject:   The text of a signed global id, read without its key
             (crates/richtext/src/attachables.rs `attachable_from_possibly_expired_sgid`).

  The helper takes what stands before the first two dashes, and dashes are characters of the URL-safe alphabet. No
  two of them stand together in the encoding of an ASCII payload, so what was signed is what is read.

  * `fields`, `decodeBase64`, `possiblyExpired` -- the helper, up to the search for the record;
  * `fields_encoded` -- an encoding of ASCII ends at the first two dashes behind it;
  * `possiblyExpired_generate` -- **what any verifier signs is found, whatever its secret and the expiry**.
-/
import Smartfire.Richtext.SgidWritten

namespace Smartfire.SgidJson

open Lib
open RailsCompat (utf8 utf8_append urlChar standardChar urlsafeEncodePadded byteLength Serializer Clock
  MessageVerifier Primitives Encoding iso8601Millis railsSpell)

/-! ## 1. The helper -/

/-- `split("--")` -/
def fields : List Char → List (List Char)
  | [] => [[]]
  | [c] => [[c]]
  | c :: d :: rest =>
    if c = '-' ∧ d = '-' then [] :: fields rest
    else
      match fields (d :: rest) with
      | [] => [[c]]
      | field :: more => (c :: field) :: more

/-- The first field, where not all are empty. -/
def firstField (sgid : List Char) : Option (List Char) := ((fields sgid).reverse.dropWhile List.isEmpty).getLast?

example : firstField "a---b".toList = some "a".toList ∧ firstField "--".toList = none := by decide +kernel

/-- `decode_base64` -/
def decodeBase64 (message : List Char) : Option Bytes :=
  match Base64.decode message with
  | some bytes => some bytes
  | none =>
    let padded := if message.getLast? ≠ some '=' ∧ byteLength message % 4 ≠ 0 then
        message ++ List.replicate (4 - byteLength message % 4) '='
      else message
    Base64.decode (padded.map standardChar)

/-- What the helper raises; what cannot be logged stops the page. -/
inductive Refusal where
  | raised (errorClass : String)
  | unrenderable (errorClass : String)

/-- `attachable_from_possibly_expired_sgid`, up to the search for the record. -/
def possiblyExpired (sgid : Option (List Char)) : Except Refusal Found :=
  match sgid.bind firstField with
  | none => .ok .nothing
  | some message =>
    if RailsCompat.isBlank message then .ok .nothing
    else
      match decodeBase64 message with
      | none => .error (.raised "ArgumentError: invalid base64")
      | some decoded =>
        match parse decoded with
        | .error e => .error (if e.unloggable then .unrenderable e.errorClass else .raised e.errorClass)
        | .ok json => (locate json).mapError .raised

/-! ## 2. Base64 -/

section Encodings

variable {bytes : Bytes} {message rest : List Char} {c : Char} {n : Nat}

theorem mem_of_value (h : Base64.value c = some n) : c ∈ Base64.alphabet := by
  by_contra hno
  have hnone : Base64.value c = none := by
    refine List.findIdx?_eq_none_iff.mpr fun d hd => decide_eq_false fun heq => hno ?_
    rwa [← heq]
  rw [hnone] at h
  cases h

theorem standard_of_value (h : Base64.value c = some n) : standardChar c = c :=
  (RailsCompat.solid_alphabet c (mem_of_value h)).2.2.1

/-- What is decoded strictly is of the standard alphabet. -/
theorem standard_of_decode (h : Base64.decode message = some bytes) : message.map standardChar = message := by
  fun_induction Base64.decode message generalizing bytes with
  | case1 => rfl
  | case2 a b d rest hend =>
    obtain ⟨rfl, rfl⟩ := hend
    obtain ⟨_, ha, h⟩ := Option.bind_eq_some_iff.mp h
    obtain ⟨_, hb, -⟩ := Option.bind_eq_some_iff.mp h
    simp only [List.map_cons, List.map_nil, standard_of_value ha, standard_of_value hb]
    rfl
  | case3 a b c d rest hend =>
    obtain ⟨rfl, rfl⟩ := hend
    obtain ⟨_, ha, h⟩ := Option.bind_eq_some_iff.mp h
    obtain ⟨_, hb, h⟩ := Option.bind_eq_some_iff.mp h
    obtain ⟨_, hc, -⟩ := Option.bind_eq_some_iff.mp h
    simp only [List.map_cons, List.map_nil, standard_of_value ha, standard_of_value hb, standard_of_value hc]
    rfl
  | case4 a b c d rest _ ih =>
    obtain ⟨group, hgroup, h⟩ := Option.bind_eq_some_iff.mp h
    obtain ⟨more, hmore, -⟩ := Option.bind_eq_some_iff.mp h
    obtain ⟨_, ha, hgroup⟩ := Option.bind_eq_some_iff.mp hgroup
    obtain ⟨_, hb, hgroup⟩ := Option.bind_eq_some_iff.mp hgroup
    obtain ⟨_, hc, hgroup⟩ := Option.bind_eq_some_iff.mp hgroup
    obtain ⟨_, hd, -⟩ := Option.bind_eq_some_iff.mp hgroup
    simp only [List.map_cons, standard_of_value ha, standard_of_value hb, standard_of_value hc, standard_of_value hd,
      ih hmore]
  | case5 => cases h

/-- **An encoding is decoded**, in either alphabet. -/
theorem decodeBase64_encoded (bytes : Bytes) : decodeBase64 (urlsafeEncodePadded bytes) = some bytes := by
  have hback := @RailsCompat.standardChar_urlsafe bytes
  have hfour : byteLength (urlsafeEncodePadded bytes) % 4 = 0 := by
    have hsolid : ∀ c ∈ urlsafeEncodePadded bytes, RailsCompat.Solid c :=
      fun c hc => RailsCompat.solid_encoding .urlSafePadded hc
    rw [RailsCompat.byteLength_eq hsolid, urlsafeEncodePadded, List.length_map, Base64.length_encode]
    omega
  rw [decodeBase64]
  cases hstrict : Base64.decode (urlsafeEncodePadded bytes) with
  | some decoded =>
    rw [standard_of_decode hstrict] at hback
    rw [hback, Base64.decode_encode] at hstrict
    exact hstrict.symm
  | none =>
    dsimp only
    rw [if_neg fun h => h.2 hfour, hback, Base64.decode_encode]

theorem fields_cons (h : c ≠ '-' ∨ rest.head? ≠ some '-') {field : List Char} {more : List (List Char)}
    (hrest : fields rest = field :: more) : fields (c :: rest) = (c :: field) :: more := by
  cases rest with
  | nil =>
    obtain ⟨rfl, rfl⟩ := List.cons.inj hrest
    rfl
  | cons d rest =>
    have hno : ¬ (c = '-' ∧ d = '-') := by
      rintro ⟨rfl, rfl⟩
      obtain h | h := h
      · exact h rfl
      · exact h rfl
    rw [fields, if_neg hno, hrest]

theorem urlChar_ne_dash (h : n < 64) (hn : n ≠ 62) : urlChar (Base64.symbol n) ≠ '-' := by
  have hall : ∀ n : Fin 64, n.val ≠ 62 → urlChar (Base64.symbol n) ≠ '-' := by decide +kernel
  exact hall ⟨n, h⟩ hn

/-- An encoding that is not empty starts with six bits of its first byte. -/
theorem head_encoded {b : UInt8} (hb : b.toNat < 128) (bytes : Bytes) (rest : List Char) :
    (urlsafeEncodePadded (b :: bytes) ++ rest).head? ≠ some '-' := by
  have hne : urlChar (Base64.symbol (b.toNat / 4)) ≠ '-' := urlChar_ne_dash (by omega) (by omega)
  cases bytes with
  | nil => exact fun h => hne (Option.some.inj h)
  | cons b' bytes =>
    cases bytes with
    | nil => exact fun h => hne (Option.some.inj h)
    | cons b'' bytes => exact fun h => hne (Option.some.inj h)

/-- **The encoding of an ASCII text ends at the first two dashes behind it.** A dash is the last of four
characters, and the next is none. -/
theorem fields_encoded (hascii : ∀ b ∈ bytes, b.toNat < 128)
    (hlast : ∀ b, bytes.getLast? = some b → b.toNat % 64 ≠ 62) (rest : List Char) :
    fields (urlsafeEncodePadded bytes ++ '-' :: '-' :: rest) = urlsafeEncodePadded bytes :: fields rest := by
  have hpad : ('=' : Char) ≠ '-' := by decide
  have hend : fields ('-' :: '-' :: rest) = [] :: fields rest := if_pos ⟨rfl, rfl⟩
  induction bytes using Base64.encode.induct with
  | case1 => exact hend
  | case2 a =>
    have ha := hascii a List.mem_cons_self
    have h₁ := urlChar_ne_dash (show a.toNat / 4 < 64 by omega) (by omega)
    have h₂ := urlChar_ne_dash (show a.toNat % 4 * 16 < 64 by omega) (by omega)
    exact fields_cons (.inl h₁) (fields_cons (.inl h₂) (fields_cons (.inl hpad) (fields_cons (.inl hpad) hend)))
  | case3 a b =>
    have ha := hascii a List.mem_cons_self
    have hb := hascii b (List.mem_cons_of_mem a List.mem_cons_self)
    have h₁ := urlChar_ne_dash (show a.toNat / 4 < 64 by omega) (by omega)
    have h₂ := urlChar_ne_dash (show a.toNat % 4 * 16 + b.toNat / 16 < 64 by omega) (by omega)
    have h₃ := urlChar_ne_dash (show b.toNat % 16 * 4 < 64 by omega) (by omega)
    exact fields_cons (.inl h₁) (fields_cons (.inl h₂) (fields_cons (.inl h₃) (fields_cons (.inl hpad) hend)))
  | case4 a b c more ih =>
    have ha := hascii a List.mem_cons_self
    have hb := hascii b (List.mem_cons_of_mem a List.mem_cons_self)
    have hc := hascii c (List.mem_cons_of_mem a (List.mem_cons_of_mem b List.mem_cons_self))
    have hmore := fun x hx => hascii x (List.mem_cons_of_mem a (List.mem_cons_of_mem b (List.mem_cons_of_mem c hx)))
    have h₁ := urlChar_ne_dash (show a.toNat / 4 < 64 by omega) (by omega)
    have h₂ := urlChar_ne_dash (show a.toNat % 4 * 16 + b.toNat / 16 < 64 by omega) (by omega)
    have h₃ := urlChar_ne_dash (show b.toNat % 16 * 4 + c.toNat / 64 < 64 by omega) (by omega)
    have h₄ : urlChar (Base64.symbol (c.toNat % 64)) ≠ '-' ∨
        (urlsafeEncodePadded more ++ '-' :: '-' :: rest).head? ≠ some '-' := by
      cases more with
      | nil => exact .inl (urlChar_ne_dash (by omega) (hlast c rfl))
      | cons b more => exact .inr (head_encoded (hmore b List.mem_cons_self) more _)
    have hrest := ih hmore fun x hx => hlast x ?_
    · exact fields_cons (.inl h₁) (fields_cons (.inl h₂) (fields_cons (.inl h₃) (fields_cons h₄ hrest)))
    · rw [List.getLast?_cons, List.getLast?_cons, List.getLast?_cons, hx]
      rfl

theorem firstField_encoded (h : message ≠ []) {more : List (List Char)} {sgid : List Char}
    (hfields : fields sgid = message :: more) : firstField sgid = some message := by
  have hkeep : List.dropWhile List.isEmpty [message] = [message] :=
    List.dropWhile_cons_of_neg (by simpa using h)
  rw [firstField, hfields, List.reverse_cons, List.dropWhile_append, hkeep]
  split
  · rfl
  · exact List.getLast?_concat

-- a text that is not ASCII may be cut
example : firstField (urlsafeEncodePadded (utf8 "c\uF000".toList)) = some "Y".toList := by decide +kernel

end Encodings

/-! ## 3. What is signed -/

section Signed

variable {spell : Char → List Char} {members : List (List Char × Json)} {text rest : List Char} {c : Char}

def Ascii (text : List Char) : Prop := ∀ c ∈ text, c.toNat < 128

instance : Decidable (Ascii text) := List.decidableBAll _ text

@[simp] theorem ascii_cons : Ascii (c :: text) ↔ c.toNat < 128 ∧ Ascii text := List.forall_mem_cons

@[simp] theorem ascii_append : Ascii (text ++ rest) ↔ Ascii text ∧ Ascii rest := List.forall_mem_append

theorem ascii_utf8 (h : Ascii text) : ∀ b ∈ utf8 text, b.toNat < 128 := by
  intro b hb
  obtain ⟨c, hc, hb⟩ := List.mem_flatMap.mp hb
  have hlt := h c hc
  rw [utf8EncodeChar_ascii hlt, List.mem_singleton] at hb
  rw [hb, byte, UInt8.toNat_ofNat', Nat.mod_eq_of_lt (by omega)]
  exact hlt

theorem ascii_spell (serializer : Serializer) (h : c.toNat < 128) : Ascii (serializer.spell c) := by
  have hplain : ∀ n : Fin 128, Ascii (Json.plain (Char.ofNat n)) := by decide +kernel
  have hrails : ∀ n : Fin 128, Ascii (railsSpell (Char.ofNat n)) := by decide +kernel
  rw [← Char.ofNat_toNat c]
  cases serializer with
  | json => exact hplain ⟨c.toNat, h⟩
  | null => exact hrails ⟨c.toNat, h⟩
  | jsonWithFallback _ => exact hrails ⟨c.toNat, h⟩

theorem ascii_quote (serializer : Serializer) (h : Ascii text) : Ascii (Json.quote serializer.spell text) := by
  have hbody : Ascii (text.flatMap serializer.spell) := by
    intro c hc
    obtain ⟨d, hd, hc⟩ := List.mem_flatMap.mp hc
    exact ascii_spell serializer (h d hd) c hc
  rw [Json.quote, ascii_cons, ascii_append]
  exact ⟨by decide, hbody, by decide⟩

theorem ascii_printMembers (serializer : Serializer)
    (h : ∀ member ∈ members, Ascii member.1 ∧ Ascii (member.2.print serializer.spell)) :
    Ascii (Json.printMembers serializer.spell members) := by
  induction members with
  | nil => exact show Ascii ['\x7d'] by decide
  | cons member members ih =>
    obtain ⟨hname, hvalue⟩ := h member List.mem_cons_self
    have hrest := ih fun other hother => h other (List.mem_cons_of_mem member hother)
    rw [Json.printMembers, ascii_cons, ascii_append, ascii_cons, ascii_append]
    exact ⟨by decide, ascii_quote serializer hname, by decide, hvalue, hrest⟩

theorem ascii_object (serializer : Serializer)
    (h : ∀ member ∈ members, Ascii member.1 ∧ Ascii (member.2.print serializer.spell)) :
    Ascii ((Json.object members).print serializer.spell) := by
  cases members with
  | nil => exact show Ascii ['\x7b', '\x7d'] by decide
  | cons member members =>
    obtain ⟨hname, hvalue⟩ := h member List.mem_cons_self
    have hrest := ascii_printMembers serializer fun other hother => h other (List.mem_cons_of_mem member hother)
    rw [Json.print, ascii_cons, ascii_append, ascii_cons, ascii_append]
    exact ⟨by decide, ascii_quote serializer hname, by decide, hvalue, hrest⟩

theorem printMembers_concat : ∃ text, Json.printMembers spell members = text ++ ['\x7d'] := by
  induction members with
  | nil => exact ⟨[], rfl⟩
  | cons member members ih =>
    obtain ⟨text, heq⟩ := ih
    refine ⟨',' :: (Json.quote spell member.1 ++ ':' :: (member.2.print spell ++ text)), ?_⟩
    rw [Json.printMembers, heq]
    simp only [List.cons_append, List.append_assoc]

/-- An object ends with its mark. -/
theorem getLast_object {b : UInt8} (h : (utf8 ((Json.object members).print spell)).getLast? = some b) :
    b.toNat % 64 ≠ 62 := by
  have hconcat : ∃ text, (Json.object members).print spell = text ++ ['\x7d'] := by
    cases members with
    | nil => exact ⟨['\x7b'], rfl⟩
    | cons member members =>
      obtain ⟨text, heq⟩ := @printMembers_concat spell members
      refine ⟨'\x7b' :: (Json.quote spell member.1 ++ ':' :: (member.2.print spell ++ text)), ?_⟩
      rw [Json.print, heq]
      simp only [List.cons_append, List.append_assoc]
  obtain ⟨text, heq⟩ := hconcat
  have hmark : utf8 ['\x7d'] = [125] := rfl
  rw [heq, utf8_append, hmark, List.getLast?_concat] at h
  obtain rfl := Option.some.inj h
  decide

variable {clock : Clock} {gid : List Char} {purpose : Option (List Char)} {expiresAt : Option Int}

theorem ascii_signed (serializer : Serializer) (hgid : Ascii gid) (hpurpose : ∀ p, purpose = some p → Ascii p)
    (hexpiry : ∀ time, expiresAt = some time → Ascii (iso8601Millis clock time)) :
    Ascii ((signed clock gid purpose expiresAt).print serializer.spell) := by
  refine ascii_object serializer fun member hmember => ?_
  obtain rfl := List.mem_singleton.mp hmember
  refine ⟨show Ascii "_rails".toList by decide, ascii_object serializer fun member hmember => ?_⟩
  rw [RailsCompat.dataMembers, List.mem_cons, List.mem_append, List.mem_map, List.mem_map] at hmember
  obtain rfl | ⟨_, hexp, rfl⟩ | ⟨_, hpur, rfl⟩ := hmember
  · exact ⟨show Ascii "data".toList by decide, ascii_quote serializer hgid⟩
  · obtain ⟨time, htime, rfl⟩ := Option.map_eq_some_iff.mp (Option.mem_toList.mp hexp)
    exact ⟨show Ascii "exp".toList by decide, ascii_quote serializer (hexpiry time htime)⟩
  · obtain ⟨p, hp, rfl⟩ := Option.map_eq_some_iff.mp (Option.mem_toList.mp hpur)
    exact ⟨show Ascii "pur".toList by decide, ascii_quote serializer (hpurpose p hp)⟩

/-- What a verifier signs is read as what is parsed of it. -/
theorem possiblyExpired_sign (P : Primitives) {verifier : MessageVerifier} {bytes : Bytes} {json : Value}
    (hencoding : verifier.encoding = .urlSafePadded) (hascii : ∀ b ∈ bytes, b.toNat < 128)
    (hlast : ∀ b, bytes.getLast? = some b → b.toNat % 64 ≠ 62) (hparse : parse bytes = .ok json) :
    possiblyExpired (some (verifier.sign P bytes)) = (locate json).mapError .raised := by
  have hne : bytes ≠ [] := by
    rintro rfl
    have hempty : (parse []).toOption.isNone = true := by decide +kernel
    rw [hparse] at hempty
    cases hempty
  have hmessage : urlsafeEncodePadded bytes ≠ [] := RailsCompat.encode_ne_nil .urlSafePadded hne
  have hblank : RailsCompat.isBlank (urlsafeEncodePadded bytes) = false :=
    RailsCompat.isBlank_eq_false hmessage fun c hc => RailsCompat.solid_encoding .urlSafePadded hc
  have hsign : verifier.sign P bytes =
      urlsafeEncodePadded bytes ++ '-' :: '-' :: verifier.hexDigest P (urlsafeEncodePadded bytes) := by
    simp only [MessageVerifier.sign, hencoding, Encoding.encode]
    rfl
  have hfirst : firstField (verifier.sign P bytes) = some (urlsafeEncodePadded bytes) := by
    rw [hsign]
    exact firstField_encoded hmessage (fields_encoded hascii hlast _)
  simp only [possiblyExpired, Option.bind_some, hfirst, hblank, decodeBase64_encoded, hparse, Bool.false_eq_true,
    if_false]

/-- **What any verifier signs for a global id is found by one that has no key**, before and after it expires, while
its texts are ASCII. -/
theorem possiblyExpired_generate (P : Primitives) {verifier : MessageVerifier}
    (hencoding : verifier.encoding = .urlSafePadded) (hs : verifier.serializer ≠ .null) (hgid : Ascii gid)
    (hpurpose : ∀ p, purpose = some p → Ascii p)
    (hexpiry : ∀ time, expiresAt = some time → Ascii (iso8601Millis clock time))
    (hmeta : ¬ (purpose = none ∧ expiresAt = none)) :
    ∃ sgid, verifier.generate P clock (.string gid) purpose expiresAt = some sgid ∧
      possiblyExpired (some sgid) = .ok (.gid (utf8 gid)) := by
  refine ⟨verifier.sign P (utf8 ((signed clock gid purpose expiresAt).print verifier.serializer.spell)), ?_, ?_⟩
  · rw [MessageVerifier.generate, serialize_signed hs hmeta, Option.map_some]
  · have hascii := ascii_utf8 (ascii_signed verifier.serializer hgid hpurpose hexpiry)
    rw [possiblyExpired_sign P hencoding hascii (fun _ h => getLast_object h) (parse_signed verifier.serializer),
      locate_payload]
    rfl

theorem possiblyExpired_generate_sample : ∃ sgid,
    (MessageVerifier.mk (utf8 "secret".toList) .sha1 .urlSafePadded (.jsonWithFallback true) []).generate
      RailsCompat.samplePrimitives RailsCompat.sampleClock (.string "gid://campfire/User/1".toList)
      (some "attachable".toList) (some 2398420800000000000) = some sgid ∧
    possiblyExpired (some sgid) = .ok (.gid (utf8 "gid://campfire/User/1".toList)) := by
  refine possiblyExpired_generate RailsCompat.samplePrimitives rfl (by decide) (by decide) ?_ ?_ (by decide)
  · rintro p ⟨⟩
    decide
  · rintro time ⟨⟩
    decide +kernel

end Signed

end Smartfire.SgidJson
