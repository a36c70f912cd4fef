/-
  File:      Smartfire/RailsCompat/Apart.lean
  Subject:   A message's value, purpose and expiry stay apart.

  * `urlsafeDecode_encode`, `extractEncoded_sign`, `decrypt_encryptWithIv` -- a message gives back the
    bytes it was made of;
  * `Clean` -- a value no reader takes for an envelope;
  * `deserialize_serialize` -- what the bytes of a clean value are read as;
  * `keptApart` -- signed or encrypted, it is read as its value for its purpose, before its expiry,
    and as nothing else.
-/
import Smartfire.Lib.Digits
import Smartfire.RailsCompat.Signed

namespace Smartfire.RailsCompat

open Lib (Bytes Json Members)

/-! ## 1. Base64 both ways -/

section Encodings

variable {bytes : Bytes} {text rest : List Char} {c : Char}

/-- A character of one byte that is no space. -/
def Solid (c : Char) : Prop := c.utf8Size = 1 ∧ isWhitespace c = false

instance (c : Char) : Decidable (Solid c) := inferInstanceAs (Decidable (_ ∧ _))

theorem solid_alphabet : ∀ c ∈ Lib.Base64.alphabet, Solid c ∧ Solid (urlChar c) ∧ standardChar c = c ∧
    standardChar (urlChar c) = c ∧ urlChar c ≠ '=' := Lib.forall_mem_of_all (by decide +kernel)

theorem byteLength_eq (h : ∀ c ∈ text, Solid c) : byteLength text = text.length := by
  induction text with
  | nil => rfl
  | cons c text ih =>
    have hc := (h c List.mem_cons_self).1
    have hrest := ih fun d hd => h d (List.mem_cons_of_mem c hd)
    rw [byteLength] at hrest ⊢
    rw [List.map_cons, List.sum_cons, hrest, hc, List.length_cons]
    omega

theorem byteLength_append : byteLength (text ++ rest) = byteLength text + byteLength rest := by
  rw [byteLength, List.map_append, List.sum_append]
  rfl

theorem map_eq_self {f : Char → Char} (h : ∀ c ∈ text, f c = c) : text.map f = text := by
  conv_rhs => rw [← List.map_id text]
  exact List.map_congr_left h

theorem standardChar_encode : (Lib.Base64.encode bytes).map standardChar = Lib.Base64.encode bytes := by
  refine map_eq_self fun c hc => ?_
  obtain hc | rfl := Lib.Base64.mem_encode hc
  · exact (solid_alphabet c hc).2.2.1
  · rfl

theorem standardChar_urlsafe : (urlsafeEncodePadded bytes).map standardChar = Lib.Base64.encode bytes := by
  rw [urlsafeEncodePadded, List.map_map]
  refine map_eq_self fun c hc => ?_
  obtain hc | rfl := Lib.Base64.mem_encode hc
  · exact (solid_alphabet c hc).2.2.2.1
  · rfl

theorem solid_encode (h : c ∈ Lib.Base64.encode bytes) : Solid c ∧ Solid (urlChar c) := by
  obtain hc | rfl := Lib.Base64.mem_encode h
  · exact ⟨(solid_alphabet c hc).1, (solid_alphabet c hc).2.1⟩
  · decide

theorem solid_encoding (encoding : Encoding) (h : c ∈ encoding.encode bytes) : Solid c := by
  cases encoding with
  | strict => exact (solid_encode h).1
  | urlSafePadded =>
    obtain ⟨d, hd, rfl⟩ := List.mem_map.mp h
    exact (solid_encode hd).2
  | urlSafe =>
    obtain ⟨d, hd, rfl⟩ := List.mem_map.mp (List.mem_of_mem_filter h)
    exact (solid_encode hd).2

/-- Without its padding, a URL-safe encoding is its body. -/
theorem urlsafeEncodeUnpadded_eq {body : List Char} {padding : Nat} (henc : Lib.Base64.Encoded body padding)
    (h : Lib.Base64.encode bytes = body ++ List.replicate padding '=') :
    urlsafeEncodeUnpadded bytes = body.map urlChar := by
  rw [urlsafeEncodeUnpadded, urlsafeEncodePadded, h, List.map_append, List.filter_append, List.map_replicate]
  have hbody : (body.map urlChar).filter (· ≠ '=') = body.map urlChar := by
    refine List.filter_eq_self.mpr fun c hc => ?_
    obtain ⟨d, hd, rfl⟩ := List.mem_map.mp hc
    simpa using (solid_alphabet d (henc.mem d hd)).2.2.2.2
  have hpadding : (List.replicate padding (urlChar '=')).filter (· ≠ '=') = [] := by
    refine List.filter_eq_nil_iff.mpr fun c hc => ?_
    rw [List.eq_of_mem_replicate hc]
    decide
  rw [hbody, hpadding, List.append_nil]

/-- **Whatever the alphabet and the padding, an encoding is decoded.** -/
theorem urlsafeDecode_encode (encoding : Encoding) (bytes : Bytes) :
    urlsafeDecode (encoding.encode bytes) = some bytes := by
  have hlength : byteLength (encoding.encode bytes) = (encoding.encode bytes).length :=
    byteLength_eq fun c hc => solid_encoding encoding hc
  obtain ⟨body, padding, heq, henc⟩ := Lib.Base64.encoded_encode bytes
  have hfour : (Lib.Base64.encode bytes).length % 4 = 0 := by
    rw [Lib.Base64.length_encode]
    omega
  rw [urlsafeDecode, hlength]
  cases encoding with
  | strict =>
    rw [Encoding.encode, if_neg fun h => h.2 hfour, standardChar_encode]
    exact Lib.Base64.decode_encode bytes
  | urlSafePadded =>
    have hlen : (urlsafeEncodePadded bytes).length % 4 = 0 := by
      rw [urlsafeEncodePadded, List.length_map]
      exact hfour
    rw [Encoding.encode, if_neg fun h => h.2 hlen, standardChar_urlsafe]
    exact Lib.Base64.decode_encode bytes
  | urlSafe =>
    have hback : (body.map urlChar).map standardChar = body := by
      rw [List.map_map]
      exact map_eq_self fun c hc => (solid_alphabet c (henc.mem c hc)).2.2.2.1
    have hlast : (body.map urlChar).getLast? ≠ some '=' := by
      intro h
      obtain ⟨d, hd, hpad⟩ := List.mem_map.mp (List.mem_of_getLast? h)
      exact (solid_alphabet d (henc.mem d hd)).2.2.2.2 hpad
    have hsmall := henc.small
    have hsum := henc.length
    rw [Encoding.encode, urlsafeEncodeUnpadded_eq henc heq, List.length_map, hback]
    by_cases hzero : body.length % 4 = 0
    · have hnone : padding = 0 := by omega
      rw [if_neg fun h => h.2 hzero]
      rw [hnone, List.replicate_zero, List.append_nil] at heq
      rw [← heq]
      exact Lib.Base64.decode_encode bytes
    · have hpad : 4 - body.length % 4 = padding := by omega
      rw [if_pos ⟨hlast, hzero⟩, hpad, ← heq]
      exact Lib.Base64.decode_encode bytes

theorem encode_ne_nil (encoding : Encoding) (h : bytes ≠ []) : encoding.encode bytes ≠ [] := by
  intro hnil
  have hdecode := urlsafeDecode_encode encoding bytes
  rw [hnil] at hdecode
  exact h (Option.some.inj hdecode).symm

theorem splitBytes_append : splitBytes (byteLength text) (text ++ rest) = some (text, rest) := by
  induction text with
  | nil => cases rest <;> rfl
  | cons c text ih =>
    have hpos : 0 < c.utf8Size := c.utf8Size_pos
    have hlength : byteLength (c :: text) = (c.utf8Size + byteLength text - 1) + 1 := by
      show c.utf8Size + byteLength text = _
      omega
    rw [hlength, List.cons_append, splitBytes, if_pos (by omega),
      show c.utf8Size + byteLength text - 1 + 1 - c.utf8Size = byteLength text by omega, ih]
    rfl

theorem isBlank_eq_false (hne : text ≠ []) (h : ∀ c ∈ text, Solid c) : isBlank text = false := by
  cases text with
  | nil => exact absurd rfl hne
  | cons c text =>
    rw [isBlank, List.all_cons, (h c List.mem_cons_self).2]
    rfl

theorem solid_hexDigit : ∀ n : Fin 16, Solid (Json.hexDigit n) := by decide +kernel

theorem solid_hexEncode (h : c ∈ hexEncode bytes) : Solid c := by
  obtain ⟨b, -, hc⟩ := List.mem_flatMap.mp h
  have hb := b.toNat_lt
  simp only [List.mem_cons, List.not_mem_nil, or_false] at hc
  obtain rfl | rfl := hc
  · exact solid_hexDigit ⟨b.toNat / 16, by omega⟩
  · exact solid_hexDigit ⟨b.toNat % 16, by omega⟩

theorem length_hexEncode (bytes : Bytes) : (hexEncode bytes).length = 2 * bytes.length := by
  induction bytes with
  | nil => rfl
  | cons b bytes ih =>
    rw [hexEncode, List.flatMap_cons, List.length_append]
    rw [hexEncode] at ih
    rw [ih]
    simp only [List.length_cons, List.length_nil]
    omega

end Encodings

/-! ## 2. From a message to its bytes -/

section Messages

variable {P : Primitives} {clock : Clock} {bytes : Bytes} {purpose : Option (List Char)} {now : Int}

theorem extractEncoded_sign (self : MessageVerifier) (h : bytes ≠ []) :
    self.extractEncoded P (self.sign P bytes) = some (self.encoding.encode bytes) := by
  have hlength : (self.hexDigest P (self.encoding.encode bytes)).length = self.hexLength := by
    rw [MessageVerifier.hexDigest, length_hexEncode, P.hmac_length, MessageVerifier.hexLength]
  have hsolid : ∀ c ∈ self.hexDigest P (self.encoding.encode bytes), Solid c := fun c hc => solid_hexEncode hc
  have hne : self.hexDigest P (self.encoding.encode bytes) ≠ [] := by
    intro hnil
    rw [hnil, MessageVerifier.hexLength] at hlength
    cases hd : self.digest with
    | sha1 => rw [hd] at hlength; cases hlength
    | sha256 => rw [hd] at hlength; cases hlength
  have hbytes : byteLength (self.sign P bytes) = byteLength (self.encoding.encode bytes) + (self.hexLength + 2) := by
    rw [MessageVerifier.sign, byteLength_append, byteLength_append, byteLength_eq hsolid, hlength]
    have hdashes : byteLength "--".toList = 2 := by decide
    omega
  rw [MessageVerifier.extractEncoded, hbytes, if_neg (by omega), Nat.add_sub_cancel, MessageVerifier.sign,
    splitBytes_append]
  have htake : ("--".toList ++ self.hexDigest P (self.encoding.encode bytes)).take 2 = "--".toList := rfl
  have hdrop : ("--".toList ++ self.hexDigest P (self.encoding.encode bytes)).drop 2 =
      self.hexDigest P (self.encoding.encode bytes) := rfl
  have hencoded := isBlank_eq_false (encode_ne_nil self.encoding h) fun c hc => solid_encoding self.encoding hc
  have hdigest := isBlank_eq_false hne hsolid
  simp only [htake, hdrop, hencoded, hdigest, ne_eq, not_true, if_false, Bool.false_eq_true, or_self, if_true]

/-- **A signed message is read by what it signs.** -/
theorem readMessage_sign (self : MessageVerifier) (h : bytes ≠ []) :
    self.readMessage P clock (self.sign P bytes) purpose now =
      deserializeWithMetadata clock self.serializer bytes purpose now urlsafeDecode := by
  rw [MessageVerifier.readMessage, extractEncoded_sign self h]
  show (okOr (urlsafeDecode (self.encoding.encode bytes)) _ >>= _) = _
  rw [urlsafeDecode_encode]
  rfl

theorem extractParts_join (ciphertext : Bytes) (iv : Iv) (tag : Bytes) (htag : tag.length = authTagLength) :
    extractParts (Lib.Base64.encode ciphertext ++ ("--".toList ++
      (Lib.Base64.encode iv.1 ++ ("--".toList ++ Lib.Base64.encode tag)))) =
      some (Lib.Base64.encode ciphertext, Lib.Base64.encode iv.1, Lib.Base64.encode tag) := by
  have hlength (data : Bytes) : byteLength (Lib.Base64.encode data) = 4 * ((data.length + 2) / 3) := by
    rw [byteLength_eq fun c hc => (solid_encode hc).1, Lib.Base64.length_encode]
  have hiv : byteLength (Lib.Base64.encode iv.1) = encodedIvLength := by
    rw [hlength, iv.2]
    rfl
  have htagLength : byteLength (Lib.Base64.encode tag) = encodedAuthTagLength := by
    rw [hlength, htag]
    rfl
  have hdashes : byteLength "--".toList = 2 := by decide
  have hsplit (rest : List Char) : splitBytes 2 ("--".toList ++ rest) = some ("--".toList, rest) := by
    rw [← hdashes]
    exact splitBytes_append
  have hsplitIv (rest : List Char) : splitBytes encodedIvLength (Lib.Base64.encode iv.1 ++ rest) =
      some (Lib.Base64.encode iv.1, rest) := by
    rw [← hiv]
    exact splitBytes_append
  have hbytes : byteLength (Lib.Base64.encode ciphertext ++ ("--".toList ++
      (Lib.Base64.encode iv.1 ++ ("--".toList ++ Lib.Base64.encode tag)))) =
      byteLength (Lib.Base64.encode ciphertext) + (encodedAuthTagLength + (2 + encodedIvLength) + 2) := by
    simp only [byteLength_append, hiv, htagLength, hdashes]
    omega
  rw [extractParts, hbytes, if_neg (by omega), Nat.add_sub_cancel, splitBytes_append]
  simp only [Option.bind_eq_bind, Option.bind_some, hsplit, hsplitIv, and_self, if_true]

/-- **An encrypted message gives back its plaintext.** -/
theorem decrypt_encryptWithIv (self : MessageEncryptor) (plaintext : Bytes) (iv : Iv) :
    self.decrypt P (self.encryptWithIv P plaintext iv) = some plaintext := by
  have hsealed := P.encrypt_length self.key iv plaintext
  have htag : ((P.encrypt self.key iv plaintext).drop
      ((P.encrypt self.key iv plaintext).length - authTagLength)).length = authTagLength := by
    rw [List.length_drop]
    omega
  rw [MessageEncryptor.encryptWithIv, MessageEncryptor.decrypt, extractParts_join _ iv _ htag]
  simp only [Option.bind_eq_bind, Option.bind_some, Lib.Base64.decode_encode, dif_pos iv.2, if_pos htag,
    List.take_append_drop]
  exact P.decrypt_encrypt self.key iv plaintext

end Messages

/-! ## 3. Text as bytes -/

section Texts

variable {text rest : List Char} {bytes : Bytes}

@[simp] theorem utf8_append : utf8 (text ++ rest) = utf8 text ++ utf8 rest := List.flatMap_append

theorem utf8Encode_eq (text : List Char) : text.utf8Encode = ⟨(utf8 text).toArray⟩ := by
  rw [List.utf8Encode, ByteArray.ext_iff]
  simp [utf8]

theorem fromUtf8_utf8 (text : List Char) : fromUtf8 (utf8 text) = some text := by
  have hstring : String.fromUTF8 text.utf8Encode ByteArray.isValidUTF8_utf8Encode = String.ofList text := by
    rw [← String.toByteArray_inj, String.toByteArray_ofList]
    rfl
  rw [fromUtf8, ← utf8Encode_eq, String.fromUTF8?, dif_pos ByteArray.isValidUTF8_utf8Encode, hstring,
    Option.map_some, String.toList_ofList]

theorem fromUtf8Lossy_utf8 (text : List Char) : fromUtf8Lossy (utf8 text) = utf8 text := by
  rw [fromUtf8Lossy, fromUtf8_utf8]

/-- Text whose bytes start with a text's bytes starts with the text. -/
theorem prefix_of_utf8 (h : (utf8 text).isPrefixOf (utf8 rest) = true) : text <+: rest := by
  obtain ⟨b, hb⟩ := List.isPrefixOf_iff_prefix.mp h
  refine List.isPrefix_of_utf8Encode_append_eq_utf8Encode ⟨b.toArray⟩ ?_
  rw [utf8Encode_eq, utf8Encode_eq, ByteArray.ext_iff, ← hb]
  simp

end Texts

/-! ## 4. JSON as bytes -/

section JsonBytes

variable {serializer : Serializer} {value : Json}

/-- `json::encode`'s spelling of a string's characters. -/
def railsSpell (c : Char) : List Char := (Json.plain c).flatMap escapeChar

def Serializer.spell : Serializer → Char → List Char
  | .json => Json.plain
  | _ => railsSpell

theorem keeps_escapeChar : Json.Keeps escapeChar where
  mark := Lib.forall_mem_of_all (by decide +kernel)
  word := Lib.forall_mem_of_all (by decide +kernel)
  number c hc := by
    unfold escapeChar
    split
    next h => subst h; cases hc
    next =>
      split
      next h => subst h; cases hc
      next =>
        split
        next h => subst h; cases hc
        next => rfl

theorem escapeChar_hexDigit : ∀ n : Fin 16, escapeChar (Json.hexDigit n) = [Json.hexDigit n] := by decide +kernel

theorem railsSpell_eq (c : Char) : railsSpell c =
    if c = '<' ∨ c = '>' ∨ c = '&' then Json.hexEscape c.toNat else Json.plain c := by
  split
  next h =>
    obtain rfl | rfl | rfl := h
    · decide +kernel
    · decide +kernel
    · decide +kernel
  next h =>
    simp only [not_or] at h
    refine Json.flatMap_keeps ?_
    unfold Json.plain
    repeat' split
    all_goals try exact Lib.forall_mem_of_all (by decide)
    next =>
      intro d hd
      simp only [Json.hexEscape, List.mem_cons, List.not_mem_nil, or_false] at hd
      obtain rfl | rfl | rfl | rfl | rfl | rfl := hd
      · rfl
      · rfl
      · rfl
      · rfl
      · exact escapeChar_hexDigit ⟨c.toNat / 16 % 16, by omega⟩
      · exact escapeChar_hexDigit ⟨c.toNat % 16, by omega⟩
    next =>
      intro d hd
      obtain rfl := List.mem_singleton.mp hd
      rw [escapeChar, if_neg h.1, if_neg h.2.1, if_neg h.2.2]

theorem spelling_rails : Json.Spelling railsSpell where
  ne_nil c := by
    rw [railsSpell_eq]
    split
    next => exact List.cons_ne_nil _ _
    next => exact Json.spelling_plain.ne_nil c
  reads c fuel rest := by
    rw [railsSpell_eq]
    split
    next h =>
      have hsmall : c.toNat < 256 := by
        obtain rfl | rfl | rfl := h <;> decide
      rw [Json.unescape_hexEscape hsmall, Char.ofNat_toNat]
    next => exact Json.spelling_plain.reads c fuel rest

theorem spelling_spell (serializer : Serializer) : Json.Spelling serializer.spell := by
  cases serializer with
  | json => exact Json.spelling_plain
  | null => exact spelling_rails
  | jsonWithFallback _ => exact spelling_rails

theorem encode_eq (h : value.wellFormed = true) : encode value = value.print railsSpell :=
  Json.print_flatMap keeps_escapeChar value h

theorem encodeJson_eq (serializer : Serializer) (h : value.wellFormed = true) :
    serializer.encodeJson value = value.print serializer.spell := by
  cases serializer with
  | json => rfl
  | null => exact encode_eq h
  | jsonWithFallback _ => exact encode_eq h

theorem parse_utf8 {spell : Char → List Char} (hs : Json.Spelling spell) (hw : value.wellFormed = true)
    (hd : value.depth ≤ recursionLimit) : parse (utf8 (value.print spell)) = some value := by
  rw [parse, fromUtf8_utf8]
  exact Json.parse_print hs hw hd

theorem utf8_print_ne_nil (serializer : Serializer) (hw : value.wellFormed = true) :
    utf8 (value.print serializer.spell) ≠ [] := by
  obtain ⟨c, tail, heq, -⟩ := Json.starts_print serializer.spell hw
  intro hnil
  rw [heq, utf8, List.flatMap_cons, List.append_eq_nil_iff] at hnil
  have hlength := String.length_utf8EncodeChar c
  have hpos := c.utf8Size_pos
  rw [hnil.1, List.length_nil] at hlength
  omega

/-- No JSON text starts as a marshaled string. -/
theorem not_signature (serializer : Serializer) (hw : value.wellFormed = true) :
    signature.isPrefixOf (utf8 (value.print serializer.spell)) = false := by
  obtain ⟨c, tail, heq, hc⟩ := Json.starts_print serializer.spell hw
  cases hprefix : signature.isPrefixOf (utf8 (value.print serializer.spell)) with
  | false => rfl
  | true =>
    have htext : utf8 [Char.ofNat 4, Char.ofNat 8] = signature := by decide +kernel
    rw [← htext] at hprefix
    obtain ⟨rest, hrest⟩ := prefix_of_utf8 hprefix
    rw [heq] at hrest
    obtain ⟨rfl, -⟩ := List.cons.inj hrest
    obtain h | h | h := hc
    · revert h
      decide
    · cases h
    · cases h

theorem load_print (hs : serializer ≠ .null) (hw : value.wellFormed = true) (hd : value.depth ≤ recursionLimit) :
    serializer.load (utf8 (value.print serializer.spell)) = .ok value := by
  have hparse := parse_utf8 (spelling_spell serializer) hw hd
  cases serializer with
  | null => exact absurd rfl hs
  | json =>
    rw [Serializer.load, if_neg (utf8_print_ne_nil .json hw), hparse]
    rfl
  | jsonWithFallback allowMarshal =>
    rw [Serializer.load, not_signature (.jsonWithFallback allowMarshal) hw, hparse]
    rfl

theorem dump_eq (hs : serializer ≠ .null) (hw : value.wellFormed = true) :
    serializer.dump value = some (utf8 (value.print serializer.spell)) := by
  cases serializer with
  | null => exact absurd rfl hs
  | json => rfl
  | jsonWithFallback _ => rw [Serializer.dump, encode_eq hw]; rfl

/-- **Only an object with a `_rails` has a text that starts as a legacy envelope.** -/
theorem not_legacyStart (serializer : Serializer) (hw : value.wellFormed = true)
    (hrails : value.get "_rails".toList = none) :
    (utf8 legacyStart).isPrefixOf (utf8 (value.print serializer.spell)) = false := by
  cases hprefix : (utf8 legacyStart).isPrefixOf (utf8 (value.print serializer.spell)) with
  | false => rfl
  | true =>
    obtain ⟨rest, hrest⟩ := prefix_of_utf8 hprefix
    have hstart : '\x7b' :: (Json.quote Json.plain "_rails".toList ++ ':' :: ("\x7b\"message\":".toList ++ rest)) =
        value.print serializer.spell := hrest
    match value with
    | .null => cases hstart
    | .bool true => cases hstart
    | .bool false => cases hstart
    | .string _ => cases hstart
    | .array [] => cases hstart
    | .array (_ :: _) => cases hstart
    | .object [] => cases hstart
    | .number text =>
      obtain ⟨d, tail, rfl, hd⟩ := Json.starts_number hw
      obtain ⟨rfl, -⟩ := List.cons.inj hstart
      obtain hd | hd := hd
      · cases hd
      · cases hd
    | .object ((name, v) :: ms) =>
      rw [Json.print] at hstart
      have hname := congrArg Json.parseName (List.cons.inj hstart).2
      rw [Json.parseName_quote Json.spelling_plain, Json.parseName_quote (spelling_spell serializer)] at hname
      obtain ⟨rfl, -⟩ := Prod.mk.inj (Option.some.inj hname)
      cases hrails

end JsonBytes

/-! ## 5. The envelope -/

/-- The first nanosecond of the year 0, and the first behind the year 9999. -/
def InYears (time : Int) : Prop := -62167219200000000000 ≤ time ∧ time < 253402300800000000000

instance (time : Int) : Decidable (InYears time) := inferInstanceAs (Decidable (_ ∧ _))

def truncMillis (time : Int) : Int := time / 1000000 * 1000000

/-- A second's text with milliseconds is read as their instant. -/
def Clock.Reads (clock : Clock) (second : Int) : Prop :=
  ∀ millis : Nat, millis < 1000 →
    clock.parseTimestamp (clock.strftime second ++ '.' :: (pad3 millis ++ ['Z'])) =
      some (second * 1000000000 + millis * 1000000)

/-- A value that is read as itself: no reader takes it for an envelope, and none refuses its nesting
    or its expiry's text. -/
structure Clean (serializer : Serializer) (value : Json) (purpose : Option (List Char)) (expiresAt : Option Int) :
    Prop where
  named : purpose ≠ some []
  string : serializer = .null → ∃ text, value = .string text ∧
    (purpose = none → expiresAt = none → (utf8 legacyStart).isPrefixOf (utf8 text) = false)
  document : serializer ≠ .null → value.wellFormed = true ∧ value.get "_rails".toList = none ∧
    value.depth + (if purpose = none ∧ expiresAt = none then 0 else 2) ≤ recursionLimit
  expiry : ∀ e, expiresAt = some e → InYears e ∧ (0 ≤ e ∨ e % 1000000000 = 0)

/-- Before the expiry. -/
def live (expiresAt : Option Int) (now : Int) : Bool := expiresAt.all fun e => now < truncMillis e

section Envelope

variable {clock : Clock} {serializer : Serializer} {value : Json} {purpose q : Option (List Char)}
  {expiresAt : Option Int} {now e : Int} {members : Members} {expiry pur : Json}

/-- The expiry's text is read as the expiry, in milliseconds. -/
theorem parse_iso8601Millis (hread : clock.Reads (asSecond e)) (h : 0 ≤ e ∨ e % 1000000000 = 0) :
    clock.parseTimestamp (iso8601Millis clock e) = some (truncMillis e) := by
  have hparts : 0 ≤ subsecNanosecond e ∧ subsecNanosecond e < 1000000000 ∧
      asSecond e * 1000000000 + subsecNanosecond e = e := by
    have hsum := Int.mul_tdiv_add_tmod e 1000000000
    rw [asSecond, subsecNanosecond]
    obtain h | h := h
    · have hlow := Int.tmod_nonneg 1000000000 h
      have hhigh := Int.tmod_lt_of_pos e (show (0 : Int) < 1000000000 by decide)
      omega
    · have hzero : e.tmod 1000000000 = 0 := Int.tmod_eq_zero_of_dvd (Int.dvd_of_emod_eq_zero h)
      omega
  obtain ⟨hlow, hhigh, hsum⟩ := hparts
  obtain ⟨millis, hmillis⟩ := Int.eq_ofNat_of_zero_le (show 0 ≤ subsecNanosecond e / 1000000 by omega)
  rw [iso8601Millis, hmillis, hread millis (by omega), truncMillis]
  congr 1
  omega

def envelope (members : Members) : Json := .object [("_rails".toList, .object members)]

def dataMembers (value : Json) (expiry purpose : Option Json) : Members :=
  ("data".toList, value) :: ((expiry.toList.map fun expiry => ("exp".toList, expiry)) ++
    purpose.toList.map fun purpose => ("pur".toList, purpose))

def messageMembers (dumped : Bytes) (expiry purpose : Json) : Members :=
  [("message".toList, .string (Lib.Base64.encode dumped)), ("exp".toList, expiry), ("pur".toList, purpose)]

/-- What `extract` comes to, of an envelope's expiry and purpose. -/
theorem extract_envelope (members : Members) (q : Option (List Char)) (now : Int)
    (hread : ∀ e, expiresAt = some e → clock.parseTimestamp (iso8601Millis clock e) = some (truncMillis e))
    (hexp : (Members.get members "exp".toList).getD .null =
      (expiresAt.map fun time => Json.string (iso8601Millis clock time)).getD .null)
    (hpur : rubyToS (Members.get members "pur".toList) = purpose.getD []) :
    extract clock (envelope members) q now =
      if live expiresAt now then
        if purpose.getD [] = q.getD [] then .ok members else .error .purposeMismatch
      else .error .expired := by
  have hget : (envelope members).get "_rails".toList = some (.object members) := rfl
  rw [extract, hget]
  dsimp only
  rw [hpur]
  cases expiresAt with
  | none =>
    cases hm : Members.get members "exp".toList with
    | none => rfl
    | some exp =>
      rw [hm] at hexp
      obtain rfl : exp = .null := hexp
      rfl
  | some e =>
    have hm : Members.get members "exp".toList = some (.string (iso8601Millis clock e)) := by
      cases hm : Members.get members "exp".toList with
      | none => rw [hm] at hexp; cases hexp
      | some exp =>
        rw [hm] at hexp
        exact congrArg some hexp
    simp only [hm, hread e rfl, live, Option.all_some, decide_eq_true_eq]
    by_cases hexpired : truncMillis e ≤ now
    · have hlive : ¬ now < truncMillis e := by omega
      rw [if_pos hexpired, if_neg hlive]
    · have hlive : now < truncMillis e := by omega
      rw [if_neg hexpired, if_pos hlive]

/-- The names of an envelope need no escape. -/
theorem spell_letter (serializer : Serializer) : ∀ c ∈ "_railsdatexpumg".toList, serializer.spell c = [c] := by
  have hrails : ∀ c ∈ "_railsdatexpumg".toList, railsSpell c = [c] := Lib.forall_mem_of_all (by decide +kernel)
  cases serializer with
  | json =>
    exact Lib.forall_mem_of_all (P := fun c => Json.plain c = [c]) (by decide +kernel)
  | null => exact hrails
  | jsonWithFallback _ => exact hrails

theorem quote_name (serializer : Serializer) (name : List Char)
    (h : name.all ("_railsdatexpumg".toList.contains ·) = true) :
    Json.quote serializer.spell name = '"' :: (name ++ ['"']) := by
  rw [Json.quote, Json.flatMap_keeps fun c hc => ?_]
  exact spell_letter serializer c (List.contains_iff_mem.mp (List.all_eq_true.mp h c hc))

/-- The bytes of a value in an envelope are the envelope's JSON. -/
theorem serialize_data (hs : serializer ≠ .null) (hmeta : ¬ (purpose = none ∧ expiresAt = none)) :
    serializeDumpedWithMetadata clock serializer (utf8 (value.print serializer.spell)) purpose expiresAt =
      utf8 ((envelope (dataMembers value (expiresAt.map fun time => .string (iso8601Millis clock time))
        (purpose.map .string))).print serializer.spell) := by
  have hstring (text : List Char) : serializer.encodeJson (.string text) = Json.quote serializer.spell text :=
    encodeJson_eq serializer rfl
  have huses : serializer.usesEnvelope = true := by
    cases serializer with
    | null => exact absurd rfl hs
    | json => rfl
    | jsonWithFallback _ => rfl
  rw [serializeDumpedWithMetadata, if_neg hmeta, huses, fromUtf8Lossy_utf8]
  have hrails := quote_name serializer "_rails".toList (by decide)
  have hdata := quote_name serializer "data".toList (by decide)
  have hexp := quote_name serializer "exp".toList (by decide)
  have hpur := quote_name serializer "pur".toList (by decide)
  rcases expiresAt with _ | time <;> rcases purpose with _ | purpose
  · exact absurd ⟨rfl, rfl⟩ hmeta
  all_goals
    simp only [Option.map_none, Option.map_some, hstring, ← utf8_append, List.nil_append, List.append_nil, if_true,
      envelope, dataMembers, Option.toList_none, Option.toList_some, List.map_nil, List.map_cons, Json.print,
      Json.printMembers, hrails, hdata, hexp, hpur, List.append_assoc, List.cons_append]
    rfl

theorem print_message (dumped : Bytes) (hexp : expiry.wellFormed = true) (hpur : pur.wellFormed = true) :
    legacyStart ++ (encode (.string (Lib.Base64.encode dumped)) ++ (",\"exp\":".toList ++ (encode expiry ++
      (",\"pur\":".toList ++ (encode pur ++ "\x7d\x7d".toList))))) =
      (envelope (messageMembers dumped expiry pur)).print railsSpell := by
  have hrails : Json.quote railsSpell "_rails".toList = _ := quote_name .null "_rails".toList (by decide)
  have hmessage : Json.quote railsSpell "message".toList = _ := quote_name .null "message".toList (by decide)
  have hexpName : Json.quote railsSpell "exp".toList = _ := quote_name .null "exp".toList (by decide)
  have hpurName : Json.quote railsSpell "pur".toList = _ := quote_name .null "pur".toList (by decide)
  rw [encode_eq hexp, encode_eq hpur, encode_eq rfl]
  simp only [envelope, messageMembers, Json.print, Json.printMembers, hrails, hmessage, hexpName, hpurName,
    List.append_assoc, List.cons_append, List.nil_append]
  rfl

/-- The bytes of bytes in an envelope are the envelope's JSON, and start as a legacy envelope. -/
theorem serialize_message (clock : Clock) (dumped : Bytes) (hmeta : ¬ (purpose = none ∧ expiresAt = none)) :
    serializeDumpedWithMetadata clock .null dumped purpose expiresAt =
        utf8 ((envelope (messageMembers dumped
          ((expiresAt.map fun time => Json.string (iso8601Millis clock time)).getD .null)
          ((purpose.map Json.string).getD .null))).print railsSpell) ∧
      (utf8 legacyStart).isPrefixOf (serializeDumpedWithMetadata clock .null dumped purpose expiresAt) = true := by
  have hexp : ((expiresAt.map fun time => Json.string (iso8601Millis clock time)).getD .null).wellFormed = true := by
    cases expiresAt <;> rfl
  have hpur : ((purpose.map Json.string).getD .null).wellFormed = true := by
    cases purpose <;> rfl
  have htext : serializeDumpedWithMetadata clock .null dumped purpose expiresAt =
      utf8 ((envelope (messageMembers dumped
        ((expiresAt.map fun time => Json.string (iso8601Millis clock time)).getD .null)
        ((purpose.map Json.string).getD .null))).print railsSpell) := by
    rw [serializeDumpedWithMetadata, if_neg hmeta, ← print_message dumped hexp hpur]
    rfl
  refine ⟨htext, ?_⟩
  rw [htext, ← print_message dumped hexp hpur, utf8_append]
  exact List.isPrefixOf_iff_prefix.mpr (List.prefix_append _ _)

/-- What a clean value's bytes are read as. -/
def answer (value : Json) (purpose : Option (List Char)) (expiresAt : Option Int) (q : Option (List Char))
    (now : Int) : Except MessageError Json :=
  if live expiresAt now then if purpose = q then .ok value else .error .purposeMismatch else .error .expired

theorem getD_eq_iff (hp : purpose ≠ some []) (hq : q ≠ some []) : purpose.getD [] = q.getD [] ↔ purpose = q := by
  cases purpose with
  | none =>
    cases q with
    | none => simp
    | some q => simpa [eq_comm] using hq
  | some purpose =>
    cases q with
    | none => simpa using hp
    | some q => simp

theorem rubyToS_purpose (purpose : Option (List Char)) : rubyToS (purpose.map Json.string) = purpose.getD [] ∧
    rubyToS (some ((purpose.map Json.string).getD .null)) = purpose.getD [] := by
  cases purpose <;> exact ⟨rfl, rfl⟩

section Read

variable {decode : List Char → Option Bytes}

theorem deserialize_alone (hs : serializer ≠ .null) (hw : value.wellFormed = true)
    (hrails : value.get "_rails".toList = none) (hd : value.depth ≤ recursionLimit) :
    deserializeWithMetadata clock serializer (utf8 (value.print serializer.spell)) q now decode =
      answer value none none q now := by
  rw [deserializeWithMetadata, not_legacyStart serializer hw hrails, load_print hs hw hd]
  show (if (value.get "_rails".toList).isSome = true then _ else _) = _
  rw [hrails]
  cases q <;> rfl

theorem deserialize_string {text : List Char} (h : (utf8 legacyStart).isPrefixOf (utf8 text) = false) :
    deserializeWithMetadata clock .null (utf8 text) q now decode = answer (.string text) none none q now := by
  rw [deserializeWithMetadata, h, Serializer.load, fromUtf8_utf8]
  cases q <;> rfl

theorem wellFormed_data (hw : value.wellFormed = true) :
    (envelope (dataMembers value (expiresAt.map fun time => .string (iso8601Millis clock time))
      (purpose.map .string))).wellFormed = true := by
  rcases expiresAt with _ | time <;> rcases purpose with _ | purpose <;>
    simp only [envelope, dataMembers, Json.wellFormed, Json.wellFormedMembers, hw, Option.map_none, Option.map_some,
      Option.toList_none, Option.toList_some, List.map_nil, List.map_cons, List.nil_append, List.append_nil,
      List.cons_append] <;> rfl

theorem depth_data (hd : value.depth + 2 ≤ recursionLimit) :
    (envelope (dataMembers value (expiresAt.map fun time => .string (iso8601Millis clock time))
      (purpose.map .string))).depth ≤ recursionLimit := by
  rcases expiresAt with _ | time <;> rcases purpose with _ | purpose <;>
    simp only [envelope, dataMembers, Json.depth, Json.depthMembers, Option.map_none, Option.map_some,
      Option.toList_none, Option.toList_some, List.map_nil, List.map_cons, List.nil_append, List.append_nil,
      List.cons_append] <;> omega

theorem deserialize_data (hread : ∀ e, expiresAt = some e → clock.parseTimestamp (iso8601Millis clock e) = some (truncMillis e))
    (hs : serializer ≠ .null) (hw : value.wellFormed = true) (hd : value.depth + 2 ≤ recursionLimit)
    (hmeta : ¬ (purpose = none ∧ expiresAt = none)) (hp : purpose ≠ some []) (hq : q ≠ some []) :
    deserializeWithMetadata clock serializer
        (serializeDumpedWithMetadata clock serializer (utf8 (value.print serializer.spell)) purpose expiresAt) q now
        decode = answer value purpose expiresAt q now := by
  have hstart : (utf8 legacyStart).isPrefixOf (serializeDumpedWithMetadata clock serializer
      (utf8 (value.print serializer.spell)) purpose expiresAt) = false := by
    have huses : serializer.usesEnvelope = true := by
      cases serializer with
      | null => exact absurd rfl hs
      | json => rfl
      | jsonWithFallback _ => rfl
    rw [serializeDumpedWithMetadata, if_neg hmeta, huses]
    rfl
  have hexp : (Members.get (dataMembers value (expiresAt.map fun time => .string (iso8601Millis clock time))
      (purpose.map .string)) "exp".toList).getD .null =
      (expiresAt.map fun time => Json.string (iso8601Millis clock time)).getD .null := by
    rcases expiresAt with _ | time <;> rcases purpose with _ | purpose <;> rfl
  have hpur : Members.get (dataMembers value (expiresAt.map fun time => .string (iso8601Millis clock time))
      (purpose.map .string)) "pur".toList = purpose.map .string := by
    rcases expiresAt with _ | time <;> rcases purpose with _ | purpose <;> rfl
  have hextract := extract_envelope _ q now hread hexp (hpur ▸ (rubyToS_purpose purpose).1)
  rw [deserializeWithMetadata, hstart, serialize_data hs hmeta, load_print hs (wellFormed_data hw) (depth_data hd)]
  show ((extract clock (envelope _) q now) >>= _) = _
  rw [hextract, answer]
  simp only [getD_eq_iff hp hq]
  split
  · split
    · rfl
    · rfl
  · rfl

theorem deserialize_message (hread : ∀ e, expiresAt = some e → clock.parseTimestamp (iso8601Millis clock e) = some (truncMillis e))
    (hdecode : ∀ bytes, decode (Lib.Base64.encode bytes) = some bytes) {text : List Char}
    (hmeta : ¬ (purpose = none ∧ expiresAt = none)) (hp : purpose ≠ some []) (hq : q ≠ some []) :
    deserializeWithMetadata clock .null (serializeDumpedWithMetadata clock .null (utf8 text) purpose expiresAt) q now
        decode = answer (.string text) purpose expiresAt q now := by
  obtain ⟨hbytes, hstart⟩ := serialize_message clock (utf8 text) hmeta
  have hread' : parse (serializeDumpedWithMetadata clock .null (utf8 text) purpose expiresAt) =
      some (envelope (messageMembers (utf8 text)
        ((expiresAt.map fun time => Json.string (iso8601Millis clock time)).getD .null)
        ((purpose.map Json.string).getD .null))) := by
    rw [hbytes]
    refine parse_utf8 spelling_rails ?_ ?_
    · rcases expiresAt with _ | time <;> rcases purpose with _ | purpose <;> rfl
    · refine Nat.le_trans (Nat.le_of_eq (m := 2) ?_) (by decide)
      rcases expiresAt with _ | time <;> rcases purpose with _ | purpose <;> rfl
  have hextract := extract_envelope (messageMembers (utf8 text)
    ((expiresAt.map fun time => Json.string (iso8601Millis clock time)).getD .null)
    ((purpose.map Json.string).getD .null)) q now hread rfl (rubyToS_purpose purpose).2
  rw [deserializeWithMetadata, hstart, hread']
  show ((extract clock (envelope _) q now) >>= _) = _
  rw [hextract, answer]
  simp only [getD_eq_iff hp hq]
  split
  · split
    · show ((okOr (decode _) _) >>= _) = _
      rw [hdecode]
      show Serializer.load .null (utf8 text) = _
      rw [Serializer.load, fromUtf8_utf8]
      rfl
    · rfl
  · rfl

/-- **The bytes of a clean value are read as the value, for its purpose and before its expiry.** -/
theorem deserialize_serialize (h : Clean serializer value purpose expiresAt)
    (hread : ∀ e, expiresAt = some e → InYears e → clock.Reads (asSecond e))
    (hdecode : ∀ bytes, decode (Lib.Base64.encode bytes) = some bytes) :
    ∃ bytes, serializeWithMetadata clock serializer value purpose expiresAt = some bytes ∧
      (bytes = [] → serializer = .null ∧ purpose = none ∧ expiresAt = none ∧ value = .string []) ∧
      ∀ q now, q ≠ some [] →
        deserializeWithMetadata clock serializer bytes q now decode = answer value purpose expiresAt q now := by
  have hiso : ∀ e, expiresAt = some e → clock.parseTimestamp (iso8601Millis clock e) = some (truncMillis e) := by
    intro e he
    obtain ⟨hyears, hwhole⟩ := h.expiry e he
    exact parse_iso8601Millis (hread e he hyears) hwhole
  by_cases hs : serializer = .null
  · subst hs
    obtain ⟨text, rfl, halone⟩ := h.string rfl
    refine ⟨serializeDumpedWithMetadata clock .null (utf8 text) purpose expiresAt, rfl, ?_, ?_⟩
    · intro hnil
      by_cases hmeta : purpose = none ∧ expiresAt = none
      · rw [serializeDumpedWithMetadata, if_pos hmeta] at hnil
        have htext : some text = some [] := by
          rw [← fromUtf8_utf8 text, hnil]
          exact fromUtf8_utf8 []
        exact ⟨rfl, hmeta.1, hmeta.2, congrArg Json.string (Option.some.inj htext)⟩
      · have hstart := (serialize_message clock (utf8 text) hmeta).2
        rw [hnil] at hstart
        cases hstart
    · intro q now hq
      by_cases hmeta : purpose = none ∧ expiresAt = none
      · obtain ⟨rfl, rfl⟩ := hmeta
        exact deserialize_string (halone rfl rfl)
      · exact deserialize_message hiso hdecode hmeta h.named hq
  · obtain ⟨hw, hrails, hd⟩ := h.document hs
    refine ⟨serializeDumpedWithMetadata clock serializer (utf8 (value.print serializer.spell)) purpose expiresAt,
      by rw [serializeWithMetadata, dump_eq hs hw]; rfl, ?_, ?_⟩
    · intro hnil
      by_cases hmeta : purpose = none ∧ expiresAt = none
      · rw [serializeDumpedWithMetadata, if_pos hmeta] at hnil
        exact absurd hnil (utf8_print_ne_nil serializer hw)
      · rw [serialize_data hs hmeta] at hnil
        exact absurd hnil (utf8_print_ne_nil serializer (wellFormed_data hw))
    · intro q now hq
      by_cases hmeta : purpose = none ∧ expiresAt = none
      · rw [if_pos hmeta] at hd
        obtain ⟨rfl, rfl⟩ := hmeta
        exact deserialize_alone hs hw hrails hd
      · rw [if_neg hmeta] at hd
        exact deserialize_data hiso hs hw hd hmeta h.named hq

end Read

end Envelope

/-! ## 6. Messages stay apart -/

section Kept

variable {serializer : Serializer} {value : Json} {purpose : Option (List Char)} {expiresAt : Option Int}

theorem answer_ok_iff {q : Option (List Char)} {now : Int} {w : Json} :
    answer value purpose expiresAt q now = .ok w ↔ w = value ∧ q = purpose ∧ live expiresAt now = true := by
  rw [answer]
  split
  next hlive =>
    split
    next hq => simp [hlive, hq, eq_comm]
    next hq => simp [Ne.symm hq]
  next hlive => simp [hlive]

theorem rotates_answer {q : Option (List Char)} {now : Int} {error : MessageError}
    (h : answer value purpose expiresAt q now = .error error) : error.rotates = false := by
  unfold answer at h
  split at h
  · split at h
    · cases h
    · cases h
      rfl
  · cases h
    rfl

/-- **A signed or encrypted clean value is read as itself, for its purpose and before its expiry, and
    as nothing else ever.** -/
theorem keptApart (P : Primitives) (clock : Clock) (h : Clean serializer value purpose expiresAt)
    (hread : ∀ e, expiresAt = some e → InYears e → clock.Reads (asSecond e)) :
    (∀ verifier : MessageVerifier, verifier.serializer = serializer →
      (serializer = .null → purpose = none → expiresAt = none → value ≠ .string []) →
      ∃ message, verifier.generate P clock value purpose expiresAt = some message ∧
        ∀ q now w, q ≠ some [] → (verifier.verify P clock message q now = .ok w ↔
          w = value ∧ q = purpose ∧ live expiresAt now = true)) ∧
    (∀ (encryptor : MessageEncryptor) (iv : Iv), encryptor.serializer = serializer →
      ∃ message, encryptor.encryptAndSign P clock iv value purpose expiresAt = some message ∧
        ∀ q now w, q ≠ some [] → (encryptor.decryptAndVerify P clock message q now = .ok w ↔
          w = value ∧ q = purpose ∧ live expiresAt now = true)) := by
  constructor
  · rintro verifier rfl hempty
    obtain ⟨bytes, hbytes, hnil, hanswer⟩ := deserialize_serialize h hread (urlsafeDecode_encode .strict)
    have hne : bytes ≠ [] := by
      intro heq
      obtain ⟨hs, hp, he, hv⟩ := hnil heq
      exact hempty hs hp he hv
    refine ⟨verifier.sign P bytes, by rw [MessageVerifier.generate, hbytes]; rfl, fun q now w hq => ?_⟩
    rw [MessageVerifier.verify, readMessage_sign verifier hne, hanswer q now hq, ← answer_ok_iff]
    cases hresult : answer value purpose expiresAt q now with
    | ok v => rfl
    | error error => simp only [rotates_answer hresult, Bool.false_eq_true, if_false]
  · rintro encryptor iv rfl
    obtain ⟨bytes, hbytes, -, hanswer⟩ := deserialize_serialize h hread Lib.Base64.decode_encode
    refine ⟨encryptor.encryptWithIv P bytes iv, by rw [MessageEncryptor.encryptAndSign, hbytes]; rfl,
      fun q now w hq => ?_⟩
    rw [MessageEncryptor.decryptAndVerify, decrypt_encryptWithIv encryptor bytes iv, ← answer_ok_iff,
      ← hanswer q now hq]
    rfl

end Kept

/-! ## 7. One message, and an imitation -/

def samplePayload : Bytes :=
  utf8 "\x7b\"_rails\":\x7b\"data\":\"hi\",\"exp\":\"2046-01-01T12:00:00.000Z\",\"pur\":\"login\"\x7d\x7d".toList

/-- A string that says it is a value with a purpose. -/
def imitation : List Char := "\x7b\"_rails\":\x7b\"message\":\"aGk=\",\"exp\":null,\"pur\":\"login\"\x7d\x7d".toList

def sampleKey : Key := ⟨List.replicate 32 7, by decide⟩

def sampleIv : Iv := ⟨List.replicate 12 0, by decide⟩

/-- AES-256-GCM of the payload. -/
def sampleSealed : Bytes :=
  [26, 250, 251, 192, 154, 251, 103, 155, 195, 61, 244, 70, 160, 26, 63, 207, 159, 213, 139, 145, 26, 254, 135, 121,
    115, 109, 240, 234, 117, 203, 40, 86, 217, 255, 100, 100, 178, 223, 91, 207, 144, 139, 202, 69, 168, 151, 114,
    154, 118, 174, 152, 127, 185, 166, 22, 196, 235, 94, 242, 110, 36, 17, 219, 22, 188, 233, 89, 12, 143, 72, 213,
    241, 50, 253, 84, 91, 156, 51, 214, 219, 137, 195, 9, 77, 69, 10, 202]

/-- HMAC-SHA1 of the two messages under `secret`, and other bytes of the length elsewhere. -/
def sampleHmac (digest : Digest) (data : Bytes) : Bytes :=
  match digest with
  | .sha1 =>
    if data = utf8 (Lib.Base64.encode (utf8 imitation)) then
      [200, 129, 182, 227, 199, 201, 234, 107, 86, 108, 95, 139, 59, 148, 125, 40, 159, 66, 33, 127]
    else [86, 10, 115, 17, 166, 7, 21, 104, 238, 240, 31, 203, 137, 243, 199, 196, 64, 82, 87, 104]
  | .sha256 => List.replicate 32 0

theorem sampleSealed_tag (message : Bytes) : message ++ List.replicate 16 0 ≠ sampleSealed := by
  intro h
  have hlength : message.length = 71 := by
    have := congrArg List.length h
    rw [List.length_append] at this
    have hreal : sampleSealed.length = 87 := by decide
    have hpad : (List.replicate 16 (0 : UInt8)).length = 16 := rfl
    omega
  have hdrop := congrArg (List.drop 71) h
  rw [← hlength, List.drop_left] at hdrop
  rw [hlength] at hdrop
  revert hdrop
  decide

def samplePrimitives : Primitives where
  hmac digest _ data := sampleHmac digest data
  hmac_length digest secret data := by
    cases digest with
    | sha1 =>
      rw [sampleHmac]
      split <;> rfl
    | sha256 => rfl
  encrypt key iv message :=
    if key.1 = sampleKey.1 ∧ iv.1 = sampleIv.1 ∧ message = samplePayload then sampleSealed
    else message ++ List.replicate 16 0
  decrypt key iv sealed :=
    if key.1 = sampleKey.1 ∧ iv.1 = sampleIv.1 ∧ sealed = sampleSealed then some samplePayload
    else if sealed.drop (sealed.length - 16) = List.replicate 16 0 then some (sealed.take (sealed.length - 16))
    else none
  encrypt_length key iv message := by
    split
    next h =>
      rw [h.2.2]
      decide +kernel
    next => rw [List.length_append, List.length_replicate]; rfl
  decrypt_encrypt key iv message := by
    split
    next h => rw [if_pos ⟨h.1, h.2.1, rfl⟩, h.2.2]
    next h =>
      have hlength : (message ++ List.replicate 16 0).length - 16 = message.length := by
        rw [List.length_append, List.length_replicate]
        omega
      rw [if_neg fun heq => sampleSealed_tag message heq.2.2, hlength, List.drop_left, if_pos rfl, List.take_left]

def sampleText : List Char :=
  ['2', '0', '4', '6', '-', '0', '1', '-', '0', '1', 'T', '1', '2', ':', '0', '0', ':', '0', '0']

/-- 2046-01-01T12:00:00Z, to the second and with milliseconds. -/
def sampleClock : Clock where
  strftime second := if second = 2398420800 then sampleText else []
  parseTimestamp text :=
    if text.take 20 = sampleText ++ ['.'] then
      some (2398420800000000000 + Lib.digitsValue ((text.drop 20).take 3) * 1000000)
    else none

theorem sampleClock_reads : sampleClock.Reads 2398420800 := by
  intro millis h
  have hlength : (pad3 millis).length = 3 := by
    have hdigits := (Nat.length_toDigits_le_iff (n := millis) (by decide : 1 < 10) (by decide : 0 < 3)).mpr h
    rw [pad3, if_pos (Int.natCast_nonneg millis), Int.toNat_natCast, List.leftpad, List.length_append,
      List.length_replicate]
    omega
  have htake : (sampleText ++ '.' :: (pad3 millis ++ ['Z'])).take 20 = sampleText ++ ['.'] := rfl
  have hdrop : ((sampleText ++ '.' :: (pad3 millis ++ ['Z'])).drop 20).take 3 = pad3 millis :=
    List.take_left' hlength
  have hvalue : Lib.digitsValue (pad3 millis) = millis := by
    rw [pad3, if_pos (Int.natCast_nonneg millis), Lib.digitsValue_leftpad, Int.toNat_natCast, Lib.digitsValue_toDigits]
  show sampleClock.parseTimestamp (sampleText ++ '.' :: (pad3 millis ++ ['Z'])) = _
  rw [sampleClock]
  dsimp only
  rw [if_pos htake, hdrop, hvalue]
  rfl

def sampleVerifier : MessageVerifier := .mk (utf8 "secret".toList) .sha1 .strict (.jsonWithFallback true) []

/-- What `hi` is signed and encrypted as, for `login` until 2046, is read as that alone. -/
theorem keptApart_sample :
    (∃ message, sampleVerifier.generate samplePrimitives sampleClock (.string "hi".toList) (some "login".toList)
        (some 2398420800000000000) = some message ∧
      ∀ q now w, q ≠ some [] → (sampleVerifier.verify samplePrimitives sampleClock message q now = .ok w ↔
        w = .string "hi".toList ∧ q = some "login".toList ∧ live (some 2398420800000000000) now = true)) ∧
    (∃ message, (MessageEncryptor.mk sampleKey (.jsonWithFallback true)).encryptAndSign samplePrimitives sampleClock
        sampleIv (.string "hi".toList) (some "login".toList) (some 2398420800000000000) = some message ∧
      ∀ q now w, q ≠ some [] → ((MessageEncryptor.mk sampleKey (.jsonWithFallback true)).decryptAndVerify
        samplePrimitives sampleClock message q now = .ok w ↔
        w = .string "hi".toList ∧ q = some "login".toList ∧ live (some 2398420800000000000) now = true)) := by
  have hclean : Clean (.jsonWithFallback true) (.string "hi".toList) (some "login".toList)
      (some 2398420800000000000) := by
    refine ⟨by decide, fun h => (by cases h), fun _ => ⟨rfl, rfl, by decide⟩, ?_⟩
    rintro e ⟨⟩
    decide
  have hread : ∀ e, some (2398420800000000000 : Int) = some e → InYears e → sampleClock.Reads (asSecond e) := by
    rintro e ⟨⟩ -
    exact sampleClock_reads
  obtain ⟨hsigned, hencrypted⟩ := keptApart samplePrimitives sampleClock hclean hread
  exact ⟨hsigned sampleVerifier rfl fun h => (by cases h), hencrypted ⟨sampleKey, .jsonWithFallback true⟩ sampleIv rfl⟩

def nullVerifier : MessageVerifier := .mk (utf8 "secret".toList) .sha1 .strict .null []

/-- **A string without a purpose is accepted for the purpose it names, as another value.** -/
theorem imitated :
    ∃ message, nullVerifier.generate samplePrimitives sampleClock (.string imitation) none none = some message ∧
      nullVerifier.verify samplePrimitives sampleClock message (some "login".toList) 0 = .ok (.string "hi".toList) := by
  refine ⟨nullVerifier.sign samplePrimitives (utf8 imitation), rfl, ?_⟩
  have hbytes : utf8 imitation =
      serializeDumpedWithMetadata sampleClock .null (utf8 "hi".toList) (some "login".toList) none := by
    decide +kernel
  have hanswer : deserializeWithMetadata sampleClock .null (utf8 imitation) (some "login".toList) 0 urlsafeDecode =
      answer (.string "hi".toList) (some "login".toList) none (some "login".toList) 0 := by
    rw [hbytes]
    exact deserialize_message (fun e he => (by cases he)) (urlsafeDecode_encode .strict) (by decide) (by decide)
      (by decide)
  have hok : answer (.string "hi".toList) (some "login".toList) none (some "login".toList) 0 =
      .ok (.string "hi".toList) := answer_ok_iff.mpr ⟨rfl, rfl, rfl⟩
  have hne : utf8 imitation ≠ [] := by decide +kernel
  have hread : nullVerifier.readMessage samplePrimitives sampleClock (nullVerifier.sign samplePrimitives (utf8 imitation))
      (some "login".toList) 0 = .ok (.string "hi".toList) := (readMessage_sign nullVerifier hne).trans (hanswer.trans hok)
  rw [MessageVerifier.verify, hread]

end Smartfire.RailsCompat
