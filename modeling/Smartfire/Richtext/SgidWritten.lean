/-
  File:      Smartfire/Richtext/SgidWritten.lean
  Subject:   The payloads the application signs, read as signed global ids
             (crates/richtext/src/attachables.rs `attachable_from_possibly_expired_sgid`).

  The signer writes a payload with the serializers of rails_compat, and the helper reads it with a parser that
  follows Ruby's. What one writes the other reads, so a global id is found in its payload whatever purpose and
  expiry it was signed with.

  * `Writes` -- a character's spelling is the inside of a string (`writes_spell`);
  * `payload` -- what is kept of a value;
  * `derives_print`, `parse_written` -- **what is written is read**;
  * `locate`, `locate_serialized` -- where a payload has its global id, and that it is **found there without a key**.
-/
import Smartfire.RailsCompat.Apart
import Smartfire.Richtext.SgidJsonRead

namespace Smartfire.SgidJson

open Lib
open RailsCompat (utf8 utf8_append fromUtf8Lossy Serializer railsSpell serializeWithMetadata)

/-! ## 1. Characters -/

section Characters

variable {c : Char} {spell : Char → List Char} {body body' out out' bytes : Bytes}

theorem utf8EncodeChar_ascii (h : c.toNat < 128) : String.utf8EncodeChar c = [byte c] := by
  have hle : c.val.toNat ≤ 0x7f := Nat.le_of_lt_succ h
  rw [String.utf8EncodeChar]
  exact if_pos hle

theorem raw_of_high {b : UInt8} (h : 0x80 ≤ b.toNat) : Raw b := by
  refine ⟨fun hle => ?_, fun heq => ?_, fun heq => ?_⟩
  · have hle := UInt8.le_iff_toNat_le.mp hle
    have hsmall : (0x1F : UInt8).toNat = 31 := rfl
    omega
  · rw [heq] at h
    exact absurd h (by decide)
  · rw [heq] at h
    exact absurd h (by decide)

/-- The bytes of a character that is not ASCII. -/
theorem raw_utf8EncodeChar (h : ¬ c.toNat < 128) : ∀ b ∈ String.utf8EncodeChar c, Raw b := by
  have hbyte (n : Nat) (hlow : 0x80 ≤ n) (hhigh : n < 256) : Raw (UInt8.ofNat n) := by
    refine raw_of_high ?_
    rw [UInt8.toNat_ofNat', Nat.mod_eq_of_lt hhigh]
    exact hlow
  have hle : ¬ c.val.toNat ≤ 0x7f := fun hle => h (Nat.lt_succ_of_le hle)
  intro b hb
  rw [String.utf8EncodeChar, if_neg hle] at hb
  split at hb
  · simp only [List.mem_cons, List.not_mem_nil, or_false] at hb
    obtain rfl | rfl := hb
    · exact hbyte _ (by omega) (by omega)
    · exact hbyte _ (by omega) (by omega)
  · split at hb
    · simp only [List.mem_cons, List.not_mem_nil, or_false] at hb
      obtain rfl | rfl | rfl := hb
      · exact hbyte _ (by omega) (by omega)
      · exact hbyte _ (by omega) (by omega)
      · exact hbyte _ (by omega) (by omega)
    · simp only [List.mem_cons, List.not_mem_nil, or_false] at hb
      obtain rfl | rfl | rfl | rfl := hb
      · exact hbyte _ (by omega) (by omega)
      · exact hbyte _ (by omega) (by omega)
      · exact hbyte _ (by omega) (by omega)
      · exact hbyte _ (by omega) (by omega)

theorem str_raw (h : ∀ b ∈ bytes, Raw b) : Str bytes bytes := by
  induction bytes with
  | nil => exact .nil
  | cons b bytes ih =>
    obtain ⟨hcontrol, hquote, hslash⟩ := h b List.mem_cons_self
    exact .raw hcontrol hquote hslash (ih fun b' hb' => h b' (List.mem_cons_of_mem b hb'))

theorem Str.append (h : Str body out) (h' : Str body' out') : Str (body ++ body') (out ++ out') := by
  induction h with
  | nil => exact h'
  | raw hcontrol hquote hslash _ ih => exact .raw hcontrol hquote hslash ih
  | same hb _ ih => exact .same hb ih
  | short hb _ ih => exact .short hb ih
  | code hlen hcode hhigh _ ih =>
    simp only [List.cons_append, List.append_assoc]
    exact .code hlen hcode hhigh ih
  | pair hlen hcode hhigh hmore hcode' hlow _ ih =>
    simp only [List.cons_append, List.append_assoc]
    exact .pair hlen hcode hhigh hmore hcode' hlow ih

/-- A character's spelling stands for the character inside a string. -/
def Writes (spell : Char → List Char) : Prop := ∀ c, Str (utf8 (spell c)) (String.utf8EncodeChar c)

theorem str_flatMap (h : Writes spell) (text : List Char) : Str (utf8 (text.flatMap spell)) (utf8 text) := by
  induction text with
  | nil => exact .nil
  | cons c text ih =>
    rw [List.flatMap_cons, utf8_append]
    exact (h c).append ih

/-- What the parser reads of a spelling, closed with a quote. -/
def readSpelling (spell : Char → List Char) (c : Char) : Option (Bytes × Cursor) :=
  (string (byte '"' :: (utf8 (spell c) ++ [byte '"']))).toOption

/-- The ASCII characters are tried one by one; others are spelled as themselves. -/
theorem writes_of_read (hascii : ∀ n : Fin 128, readSpelling spell (Char.ofNat n) =
      some (String.utf8EncodeChar (Char.ofNat n), []))
    (hhigh : ∀ c : Char, ¬ c.toNat < 128 → spell c = [c]) : Writes spell := by
  intro c
  by_cases h : c.toNat < 128
  · have hread := hascii ⟨c.toNat, h⟩
    simp only [Char.ofNat_toNat] at hread
    cases hstring : string (byte '"' :: (utf8 (spell c) ++ [byte '"'])) with
    | error e =>
      rw [readSpelling, hstring] at hread
      cases hread
    | ok r =>
      rw [readSpelling, hstring] at hread
      obtain rfl := Option.some.inj hread
      obtain ⟨body, hbody, heq⟩ := string_ok_iff.mp hstring
      obtain rfl := List.append_cancel_right heq
      exact hbody
  · rw [hhigh c h, utf8, List.flatMap_singleton]
    exact str_raw (raw_utf8EncodeChar h)

theorem plain_high (h : ¬ c.toNat < 128) : Json.plain c = [c] := by
  have hne {d : Char} (hd : d.toNat < 128) : ¬ c = d := by
    intro heq
    rw [heq] at h
    exact h hd
  rw [Json.plain, if_neg (hne (by decide)), if_neg (hne (by decide)), if_neg (hne (by decide)),
    if_neg (hne (by decide)), if_neg (hne (by decide)), if_neg (hne (by decide)), if_neg (hne (by decide)),
    if_neg (by omega)]

theorem writes_plain : Writes Json.plain := writes_of_read (by decide +kernel) fun _ h => plain_high h

theorem writes_rails : Writes railsSpell := by
  refine writes_of_read (by decide +kernel) fun c h => ?_
  have hne : ¬ (c = '<' ∨ c = '>' ∨ c = '&') := by
    rintro (rfl | rfl | rfl)
    · exact h (by decide)
    · exact h (by decide)
    · exact h (by decide)
  rw [RailsCompat.railsSpell_eq, if_neg hne, plain_high h]

theorem writes_spell (serializer : Serializer) : Writes serializer.spell := by
  cases serializer with
  | json => exact writes_plain
  | null => exact writes_rails
  | jsonWithFallback _ => exact writes_rails

end Characters

/-! ## 2. Numbers -/

section Numbers

variable {text : List Char} {c : Char}

theorem digit_utf8 (h : c.isDigit = true) : String.utf8EncodeChar c = [byte c] ∧ isDigit (byte c) = true := by
  have hascii : c.toNat < 128 := by
    simp only [Char.isDigit, Bool.and_eq_true, decide_eq_true_eq, UInt32.le_iff_toNat_le] at h
    have hnine : '9'.val.toNat = 57 := rfl
    have htoNat : c.toNat = c.val.toNat := rfl
    omega
  have hall : ∀ n : Fin 128, (Char.ofNat n).isDigit = true → isDigit (byte (Char.ofNat n)) = true := by
    decide +kernel
  have hdigit := hall ⟨c.toNat, hascii⟩
  simp only [Char.ofNat_toNat] at hdigit
  exact ⟨utf8EncodeChar_ascii hascii, hdigit h⟩

theorem digit_zero (h : c.isDigit = true) (hbyte : byte c = byte '0') : c = '0' := by
  have hutf8 : utf8 [c] = utf8 ['0'] := by
    rw [utf8, List.flatMap_singleton, (digit_utf8 h).1, hbyte]
    rfl
  have hchars := (RailsCompat.fromUtf8_utf8 [c]).symm.trans ((congrArg _ hutf8).trans (RailsCompat.fromUtf8_utf8 ['0']))
  exact (List.cons.inj (Option.some.inj hchars)).1

theorem digits_utf8 (hne : text ≠ []) (h : text.all Char.isDigit = true) :
    Digits (utf8 text) ∧ (utf8 text).head? = text.head?.map byte ∧ (utf8 text).length = text.length := by
  have heq : utf8 text = text.map byte := by
    clear hne
    induction text with
    | nil => rfl
    | cons c text ih =>
      rw [List.all_cons, Bool.and_eq_true] at h
      rw [utf8, List.flatMap_cons, (digit_utf8 h.1).1, List.map_cons, ← ih h.2]
      rfl
  rw [heq]
  refine ⟨⟨by simpa using hne, fun b hb => ?_⟩, List.head?_map, List.length_map _⟩
  obtain ⟨c, hc, rfl⟩ := List.mem_map.mp hb
  exact (digit_utf8 (List.all_eq_true.mp h c hc)).2

theorem power_utf8 (h : Json.isExponent text = true) : utf8 text = [] ∨ ∃ e s d,
    (e = byte 'e' ∨ e = byte 'E') ∧ (s = [] ∨ s = [byte '-'] ∨ s = [byte '+']) ∧ Digits d ∧
      utf8 text = e :: (s ++ d) := by
  cases text with
  | nil => exact .inl rfl
  | cons c rest =>
    rw [Json.isExponent, Bool.and_eq_true, Bool.or_eq_true, decide_eq_true_eq, decide_eq_true_eq] at h
    obtain ⟨hletter, hdigits⟩ := h
    have hletter' : ∃ e, (e = byte 'e' ∨ e = byte 'E') ∧ utf8 (c :: rest) = e :: utf8 rest := by
      obtain rfl | rfl := hletter
      · exact ⟨byte 'e', .inl rfl, rfl⟩
      · exact ⟨byte 'E', .inr rfl, rfl⟩
    obtain ⟨e, he, heq⟩ := hletter'
    refine .inr ?_
    split at hdigits
    · next hsign =>
      rw [Json.isDigits, Bool.and_eq_true, decide_eq_true_eq] at hdigits
      obtain ⟨tail, hrest, hs⟩ : ∃ tail,
          utf8 rest = (if rest.head? = some '+' then byte '+' else byte '-') :: utf8 tail ∧ rest.tail = tail := by
        cases rest with
        | nil => simp at hsign
        | cons d tail =>
          refine ⟨tail, ?_, rfl⟩
          simp only [List.head?_cons, Option.some.injEq] at hsign ⊢
          obtain rfl | rfl := hsign
          · rfl
          · rfl
      rw [hs] at hdigits
      refine ⟨e, [if rest.head? = some '+' then byte '+' else byte '-'], utf8 tail, he, ?_,
        (digits_utf8 hdigits.1 hdigits.2).1, by rw [heq, hrest]; rfl⟩
      split
      · exact .inr (.inr rfl)
      · exact .inr (.inl rfl)
    · rw [Json.isDigits, Bool.and_eq_true, decide_eq_true_eq] at hdigits
      exact ⟨e, [], utf8 rest, he, .inl rfl, (digits_utf8 hdigits.1 hdigits.2).1, heq⟩

theorem fraction_utf8 (h : Json.isFraction text = true) : ∃ point power, utf8 text = point ++ power ∧
    (point = [] ∨ ∃ d, Digits d ∧ point = byte '.' :: d) ∧
    (power = [] ∨ ∃ e s d, (e = byte 'e' ∨ e = byte 'E') ∧ (s = [] ∨ s = [byte '-'] ∨ s = [byte '+']) ∧ Digits d ∧
      power = e :: (s ++ d)) := by
  rw [Json.isFraction.eq_def] at h
  split at h
  · next rest =>
    rw [Bool.and_eq_true, decide_eq_true_eq] at h
    obtain ⟨hne, hpower⟩ := h
    have hdigits := (digits_utf8 hne (List.all_takeWhile)).1
    refine ⟨byte '.' :: utf8 (rest.takeWhile Char.isDigit), utf8 (rest.dropWhile Char.isDigit), ?_,
      .inr ⟨_, hdigits, rfl⟩, power_utf8 hpower⟩
    rw [List.cons_append, ← utf8_append, List.takeWhile_append_dropWhile]
    rfl
  · exact ⟨[], utf8 text, rfl, .inl rfl, power_utf8 h⟩

/-- A number's text is a number. -/
theorem number_utf8 (h : Json.isNumber text = true) : Number (utf8 text) := by
  rw [Json.isNumber, Bool.and_eq_true, Json.isUnsigned] at h
  have hsign : ∃ sign, (sign = [] ∨ sign = [byte '-']) ∧
      utf8 text = sign ++ utf8 (if text.head? = some '-' then text.tail else text) := by
    split
    · next hminus =>
      cases text with
      | nil => cases hminus
      | cons c tail =>
        obtain rfl := Option.some.inj hminus
        exact ⟨[byte '-'], .inr rfl, rfl⟩
    · exact ⟨[], .inl rfl, rfl⟩
  obtain ⟨sign, hs, heq⟩ := hsign
  obtain ⟨-, hunsigned⟩ := h
  generalize (if text.head? = some '-' then text.tail else text) = unsigned at heq hunsigned
  rw [Bool.and_eq_true, Bool.or_eq_true, Bool.and_eq_true, decide_eq_true_eq, decide_eq_true_eq,
    decide_eq_true_eq] at hunsigned
  obtain ⟨hwhole, hfraction⟩ := hunsigned
  have hne : unsigned.takeWhile Char.isDigit ≠ [] := by
    obtain hzero | hne := hwhole
    · rw [hzero]
      exact List.cons_ne_nil _ _
    · exact hne.1
  obtain ⟨hdigits, hhead, hlen⟩ := digits_utf8 hne List.all_takeWhile
  obtain ⟨point, power, hbehind, hpoint, hpower⟩ := fraction_utf8 hfraction
  have hsplit : utf8 text = sign ++ (utf8 (unsigned.takeWhile Char.isDigit) ++ (point ++ power)) := by
    rw [heq, ← hbehind, ← utf8_append, List.takeWhile_append_dropWhile]
  rw [hsplit]
  refine .mk hs hdigits (fun hzero => ?_) hpoint hpower
  obtain hwhole | ⟨-, hno⟩ := hwhole
  · rw [hwhole]
    rfl
  · rw [hhead] at hzero
    obtain ⟨c, hc, hbyte⟩ := Option.map_eq_some_iff.mp hzero
    have hdigit : c.isDigit = true :=
      List.all_eq_true.mp List.all_takeWhile c (List.mem_of_mem_head? (Option.mem_def.mpr hc))
    exact absurd (hc.trans (congrArg some (digit_zero hdigit hbyte))) hno

end Numbers

/-! ## 3. Values -/

mutual
/-- What the parser keeps of a value: the strings and the fields, and what is false. -/
def payload : Json → Value
  | .null => .null
  | .bool b => if b then .other else .false
  | .number _ => .other
  | .string text => .string (utf8 text)
  | .array _ => .other
  | .object members => .object (payloadFields members)

def payloadFields : List (List Char × Json) → List (Bytes × Value)
  | [] => []
  | (name, value) :: rest => (utf8 name, payload value) :: payloadFields rest
end

section Printed

variable {spell : Char → List Char} {room : Nat} {t : Bytes} {v : Value}

theorem derives_of_layer (h : ∀ P, Layer P t v) (room : Nat) : Derives room t v := by
  cases room with
  | zero => exact h _
  | succ room => exact h _

/-- A mark of JSON is its byte. -/
theorem utf8_mark {c : Char} (h : c.toNat < 128) (text : List Char) : utf8 (c :: text) = byte c :: utf8 text := by
  rw [utf8, List.flatMap_cons, utf8EncodeChar_ascii h]
  rfl

theorem quote_utf8 (text : List Char) :
    utf8 (Json.quote spell text) = byte '"' :: (utf8 (text.flatMap spell) ++ [byte '"']) := by
  rw [Json.quote, utf8, List.flatMap_cons, List.flatMap_append]
  rfl

theorem element_alone {P : Bytes → Value → Prop} (h : P t v) : Member P false t [] := by
  simpa using @Member.element P [] t [] v .nil h .nil

theorem field_alone {P : Bytes → Value → Prop} {body name : Bytes} (hname : Str body name) (h : P t v) :
    Member P true (byte '"' :: (body ++ byte '"' :: byte ':' :: t)) [(name, v)] := by
  simpa using Member.field .nil hname .nil .nil h .nil

mutual
/-- **A value that is printed is one of the grammar.** -/
theorem derives_print (hs : Writes spell) : ∀ (value : Json) (room : Nat), value.wellFormed = true →
    value.depth ≤ room → Derives room (utf8 (value.print spell)) (payload value)
  | .null, room, _, _ => derives_of_layer (fun _ => .null) room
  | .bool true, room, _, _ => derives_of_layer (fun _ => .true) room
  | .bool false, room, _, _ => derives_of_layer (fun _ => .false) room
  | .number text, room, hw, _ => derives_of_layer (fun _ => .number (number_utf8 hw)) room
  | .string text, room, _, _ => by
    rw [Json.print, quote_utf8]
    exact derives_of_layer (fun _ => .string (str_flatMap hs text)) room
  | .array [], room, _, _ => derives_of_layer (fun _ => @Layer.empty _ false [] .nil) room
  | .array (value :: rest), 0, _, hd => by
    rw [Json.depth] at hd
    omega
  | .array (value :: rest), room + 1, hw, hd => by
    rw [Json.wellFormed, Json.wellFormedAll, Bool.and_eq_true] at hw
    rw [Json.depth, Json.depthAll] at hd
    have hvalue := derives_print hs value room hw.1 (by omega)
    obtain ⟨t, heq, hmembers⟩ := derives_printRest hs rest room _ _ hw.2 (by omega) hvalue
    rw [Json.print, utf8_mark (by decide), utf8_append, heq]
    exact @Layer.container _ false t [] hmembers
  | .object [], room, _, _ => derives_of_layer (fun _ => @Layer.empty _ true [] .nil) room
  | .object ((name, value) :: rest), 0, _, hd => by
    rw [Json.depth] at hd
    omega
  | .object ((name, value) :: rest), room + 1, hw, hd => by
    rw [Json.wellFormed, Json.wellFormedMembers, Bool.and_eq_true, Bool.and_eq_true] at hw
    rw [Json.depth, Json.depthMembers] at hd
    have hvalue := derives_print hs value room hw.2.1 (by omega)
    obtain ⟨t, heq, hmembers⟩ := derives_printMembers hs rest room name _ _ hw.2.2 (by omega) hvalue
    rw [Json.print, utf8_mark (by decide), utf8_append, utf8_mark (by decide), utf8_append, heq]
    exact @Layer.container _ true t _ hmembers

theorem derives_printRest (hs : Writes spell) : ∀ (rest : List Json) (room : Nat) (t : Bytes) (v : Value),
    Json.wellFormedAll rest = true → Json.depthAll rest ≤ room → Derives room t v →
    ∃ t', t ++ utf8 (Json.printRest spell rest) = t' ++ [closing false] ∧ Members (Derives room) false t' []
  | [], room, t, v, _, _, h => ⟨t, rfl, .last (element_alone h)⟩
  | value :: rest, room, t, v, hw, hd, h => by
    rw [Json.wellFormedAll, Bool.and_eq_true] at hw
    rw [Json.depthAll] at hd
    have hvalue := derives_print hs value room hw.1 (by omega)
    obtain ⟨t', heq, hmembers⟩ := derives_printRest hs rest room _ _ hw.2 (by omega) hvalue
    refine ⟨t ++ byte ',' :: t', ?_, .more (element_alone h) hmembers⟩
    rw [Json.printRest, utf8_mark (by decide), utf8_append, heq, List.append_assoc, List.cons_append]

theorem derives_printMembers (hs : Writes spell) : ∀ (rest : List (List Char × Json)) (room : Nat) (name : List Char)
    (t : Bytes) (v : Value), Json.wellFormedMembers rest = true → Json.depthMembers rest ≤ room → Derives room t v →
    ∃ t', utf8 (Json.quote spell name) ++ byte ':' :: (t ++ utf8 (Json.printMembers spell rest)) =
        t' ++ [closing true] ∧
      Members (Derives room) true t' ((utf8 name, v) :: payloadFields rest)
  | [], room, name, t, v, _, _, h => by
    refine ⟨_, ?_, .last (field_alone (str_flatMap hs name) h)⟩
    rw [quote_utf8]
    have hnil : utf8 [] = [] := rfl
    rw [Json.printMembers, utf8_mark (by decide), hnil]
    simp [closing]
  | (name', value) :: rest, room, name, t, v, hw, hd, h => by
    rw [Json.wellFormedMembers, Bool.and_eq_true] at hw
    rw [Json.depthMembers] at hd
    have hvalue := derives_print hs value room hw.1 (by omega)
    obtain ⟨t', heq, hmembers⟩ := derives_printMembers hs rest room name' _ _ hw.2 (by omega) hvalue
    refine ⟨_, ?_, .more (field_alone (str_flatMap hs name) h) hmembers⟩
    rw [Json.printMembers, utf8_mark (by decide), utf8_append, utf8_mark (by decide), utf8_append, heq, quote_utf8]
    simp
end

/-- The text of a value that a serializer prints. -/
theorem text_print (serializer : Serializer) {value : Json} (hw : value.wellFormed = true)
    (hd : value.depth ≤ maxNesting) : Text (utf8 (value.print serializer.spell)) (payload value) := by
  have htext : Text ([] ++ (utf8 (value.print serializer.spell) ++ ([] ++ []))) (payload value) :=
    .mk .nil (derives_print (writes_spell serializer) value maxNesting hw hd) .nil (.inl rfl)
  rwa [List.nil_append, List.append_nil, List.append_nil] at htext

/-- **What a serializer writes is read**: the strings, the fields in their order, and what is false. -/
theorem parse_written (serializer : Serializer) {value : Json} (hw : value.wellFormed = true)
    (hd : value.depth ≤ maxNesting) : parse (utf8 (value.print serializer.spell)) = .ok (payload value) :=
  parse_of_text (text_print serializer hw hd)

theorem parse_written_sample :
    parse (utf8 ((Json.object [("a".toList, .string "<é>".toList)]).print railsSpell)) =
      .ok (.object [(text "a", .string (utf8 "<é>".toList))]) :=
  parse_written .null (by decide) (by decide)

end Printed

/-! ## 4. The global id -/

/-- What a payload says of its global id; a Marshal dump is searched for one. -/
inductive Found where
  | nothing
  | gid (bytes : Bytes)
  | marshalled (message : Bytes)

/-- `attachable_from_possibly_expired_sgid`, between the parse and the search for the record. -/
def locate (json : Value) : Except String Found :=
  match json with
  | .object _ =>
    match json.field (text "_rails") with
    | none | some .null => .ok .nothing
    | some rails =>
      match rails with
      | .object _ =>
        match (rails.field (text "data")).filter Value.truthy with
        | some (.string bytes) => .ok (.gid (fromUtf8Lossy bytes))
        | some _ => .ok .nothing
        | none =>
          match (rails.field (text "message")).filter Value.truthy with
          | some (.string message) => .ok (.marshalled message)
          | some _ => .error "NoMethodError: unpack1"
          | none => .ok .nothing
      | _ => .error "TypeError: dig"
  | _ => .error "NoMethodError: dig"

section Signed

variable (clock : RailsCompat.Clock) (gid : List Char) (purpose : Option (List Char)) (expiresAt : Option Int)

/-- The payload that is signed for a global id. -/
def signed : Json :=
  RailsCompat.envelope (RailsCompat.dataMembers (.string gid)
    (expiresAt.map fun time => .string (RailsCompat.iso8601Millis clock time)) (purpose.map .string))

theorem depth_signed : (signed clock gid purpose expiresAt).depth ≤ maxNesting := by
  cases expiresAt <;> cases purpose <;>
    exact Nat.le_of_ble_eq_true rfl

theorem locate_gid {fields members : List (Bytes × Value)}
    (hrails : (Value.object fields).field (text "_rails") = some (.object members))
    (hdata : (Value.object members).field (text "data") = some (.string (utf8 gid))) :
    locate (.object fields) = .ok (.gid (utf8 gid)) := by
  have hkept : Option.filter Value.truthy (some (.string (utf8 gid))) = some (.string (utf8 gid)) := rfl
  simp only [locate, hrails, hdata, hkept, RailsCompat.fromUtf8Lossy_utf8]

theorem locate_payload : locate (payload (signed clock gid purpose expiresAt)) = .ok (.gid (utf8 gid)) := by
  refine @locate_gid gid _ (payloadFields (RailsCompat.dataMembers (.string gid)
    (expiresAt.map fun time => .string (RailsCompat.iso8601Millis clock time)) (purpose.map .string))) rfl ?_
  cases expiresAt <;> cases purpose <;> rfl

variable {clock gid purpose expiresAt} {serializer : Serializer}

theorem serialize_signed (hs : serializer ≠ .null) (hmeta : ¬ (purpose = none ∧ expiresAt = none)) :
    serializeWithMetadata clock serializer (.string gid) purpose expiresAt =
      some (utf8 ((signed clock gid purpose expiresAt).print serializer.spell)) := by
  rw [serializeWithMetadata, RailsCompat.dump_eq hs rfl, Option.map_some, RailsCompat.serialize_data hs hmeta]
  rfl

theorem parse_signed (serializer : Serializer) :
    parse (utf8 ((signed clock gid purpose expiresAt).print serializer.spell)) =
      .ok (payload (signed clock gid purpose expiresAt)) := by
  have hwell : (signed clock gid purpose expiresAt).wellFormed = true := RailsCompat.wellFormed_data rfl
  exact parse_of_text (text_print serializer hwell (depth_signed clock gid purpose expiresAt))

end Signed

/-- **A signed global id is found in its payload, whatever its purpose and its expiry.** -/
theorem locate_serialized (clock : RailsCompat.Clock) {serializer : Serializer} (hs : serializer ≠ .null)
    (gid : List Char) {purpose : Option (List Char)} {expiresAt : Option Int}
    (hmeta : ¬ (purpose = none ∧ expiresAt = none)) :
    ∃ json, (serializeWithMetadata clock serializer (.string gid) purpose expiresAt).map parse = some (.ok json) ∧
      locate json = .ok (.gid (utf8 gid)) := by
  refine ⟨payload (signed clock gid purpose expiresAt), ?_, locate_payload clock gid purpose expiresAt⟩
  rw [serialize_signed hs hmeta, Option.map_some, parse_signed]

theorem locate_serialized_sample : ∃ json,
    (serializeWithMetadata RailsCompat.sampleClock (.jsonWithFallback true) (.string "gid://campfire/User/1".toList)
      (some "attachable".toList) none).map parse = some (.ok json) ∧
    locate json = .ok (.gid (utf8 "gid://campfire/User/1".toList)) :=
  locate_serialized RailsCompat.sampleClock (by decide) _ (by decide)

end Smartfire.SgidJson
