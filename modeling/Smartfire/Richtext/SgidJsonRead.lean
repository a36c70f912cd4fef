/-
  File:      Smartfire/Richtext/SgidJsonRead.lean
  Subject:   The parser of signed global ids reads the texts of its grammar, and no others.

  A container is read for any reader of its values (`Sound`, `Complete`); the containers around a value are the
  induction.

  * `members_ok`, `members_append` -- the inside of a container;
  * `value_ok`, `value_append` -- a value in so much room;
  * `parse_ok_iff` -- **the parser accepts the grammar's texts and reads their values, and no others**;
  * `parse_error` -- **its loops end, and its errors are at places in the text**.
-/
import Smartfire.Richtext.SgidJsonGrammar

namespace Smartfire.SgidJson

open Lib

/-! ## 1. What stands around a value -/

section Around

variable {P : Bytes → Value → Prop} {object : Bool} {c c' t w w' : Bytes} {b : UInt8} {v : Value}
  {fields : List (Bytes × Value)}

theorem Blank.append (hw : Blank w) (hw' : Blank w') : Blank (w ++ w') := by
  induction hw with
  | nil => exact hw'
  | space hb _ ih => exact .space hb ih
  | line hbody _ ih =>
    simp only [List.cons_append, List.append_assoc]
    exact .line hbody ih
  | block hbody _ ih =>
    simp only [List.cons_append, List.append_assoc]
    exact .block hbody ih

/-- What a value starts with. -/
def Starts (b : UInt8) : Prop := isSpace b = false ∧ b ≠ byte '/' ∧ b ≠ byte ']' ∧ b ≠ byte '}'

instance : DecidablePred Starts := fun _ => inferInstanceAs (Decidable (_ ∧ _))

theorem starts_digit (hb : isDigit b = true) : Starts b := by
  refine ⟨?_, digit_ne hb (by decide), digit_ne hb (by decide), digit_ne hb (by decide)⟩
  have hnot : b ∉ [byte ' ', byte '\n', byte '\r', byte '\t'] := by
    simp only [List.mem_cons, List.not_mem_nil, or_false, not_or]
    exact ⟨digit_ne hb (by decide), digit_ne hb (by decide), digit_ne hb (by decide), digit_ne hb (by decide)⟩
  exact decide_eq_false hnot

theorem Number.starts (h : Number t) : ∃ b rest, t = b :: rest ∧ (b = byte '-' ∨ isDigit b = true) := by
  obtain @⟨sign, whole, point, power, rfl | rfl, hwhole, -, -, -⟩ := h
  · obtain ⟨b, rest, rfl⟩ := List.exists_cons_of_ne_nil hwhole.1
    exact ⟨b, _, rfl, .inr (hwhole.2 b List.mem_cons_self)⟩
  · exact ⟨byte '-', _, rfl, .inl rfl⟩

theorem Layer.starts (h : Layer P t v) : ∃ b rest, t = b :: rest ∧ Starts b := by
  cases h with
  | null => exact ⟨byte 'n', _, rfl, by decide⟩
  | true => exact ⟨byte 't', _, rfl, by decide⟩
  | false => exact ⟨byte 'f', _, rfl, by decide⟩
  | number h =>
    obtain ⟨b, rest, rfl, rfl | hb⟩ := h.starts
    · exact ⟨byte '-', rest, rfl, by decide⟩
    · exact ⟨b, rest, rfl, starts_digit hb⟩
  | string => exact ⟨byte '"', _, rfl, by decide⟩
  | @empty object => exact ⟨opening object, _, rfl, by cases object <;> decide⟩
  | @container object => exact ⟨opening object, _, rfl, by cases object <;> decide⟩

theorem solid_cons (hb : isSpace b = false ∧ b ≠ byte '/') (c : Cursor) : Solid (b :: c) := by
  intro b' hb'
  obtain rfl := Option.some.inj hb'
  exact hb

theorem Starts.solid (hb : Starts b) (c : Cursor) : Solid (b :: c) := solid_cons ⟨hb.1, hb.2.1⟩ c

/-- What may stand behind a value and the blanks that follow it. -/
def Follows (c : Cursor) : Prop := peek c ∈ [0, byte ',', byte ']', byte '}', byte '/']

theorem peek_cons (b : UInt8) (c : Cursor) : peek (b :: c) = b := rfl

theorem follows_closing (object : Bool) (c : Cursor) : Follows (closing object :: c) := by
  rw [Follows, peek_cons]
  cases object <;> decide

theorem follows_comma (c : Cursor) : Follows (byte ',' :: c) := by
  rw [Follows, peek_cons]
  decide

/-- A number ends before blanks. -/
theorem numberEnd_follows (hw : Blank w) (hc : Follows c) : NumberEnd (w ++ c) := by
  have hends (b : UInt8)
      (hb : b ∈ [0, byte ',', byte ']', byte '}', byte '/', byte ' ', byte '\n', byte '\r', byte '\t']) :
      isDigit b = false ∧ b ≠ byte '.' ∧ b ≠ byte 'e' ∧ b ≠ byte 'E' :=
    forall_mem_of_all (P := fun b => isDigit b = false ∧ b ≠ byte '.' ∧ b ≠ byte 'e' ∧ b ≠ byte 'E')
      (by decide) b hb
  refine hends _ ?_
  cases hw with
  | nil => exact List.mem_append_left [byte ' ', byte '\n', byte '\r', byte '\t'] hc
  | space hb _ =>
    exact List.mem_append_right [0, byte ',', byte ']', byte '}', byte '/'] (of_decide_eq_true hb)
  | line => exact List.mem_append_right [0, byte ',', byte ']', byte '}'] List.mem_cons_self
  | block => exact List.mem_append_right [0, byte ',', byte ']', byte '}'] List.mem_cons_self

end Around

/-! ## 2. Containers -/

section Containers

variable {P : Bytes → Value → Prop} {inner : Cursor → Except Fault (Value × Cursor)} {object : Bool}
  {c c' t w w' : Bytes} {v : Value} {fields fields' more : List (Bytes × Value)}

/-- A reader reads only values of `P`. -/
def Sound (P : Bytes → Value → Prop) (inner : Cursor → Except Fault (Value × Cursor)) : Prop :=
  ∀ c v c', inner c = .ok (v, c') → ∃ w t, Blank w ∧ c = w ++ (t ++ c') ∧ P t v

/-- A reader reads every value of `P`. -/
def Complete (P : Bytes → Value → Prop) (inner : Cursor → Except Fault (Value × Cursor)) : Prop :=
  ∀ w t v c', Blank w → P t v → NumberEnd c' → inner (w ++ (t ++ c')) = .ok (v, c')

/-- Before something that is there, what was passed over is blank. -/
theorem blank_of_peek {b : UInt8} (h : whitespace c = .ok c') (hb : b ≠ 0) (hpeek : peek c' = b) :
    ∃ w, Blank w ∧ c = w ++ b :: c'.tail := by
  have hcons := cons_of_peek hb hpeek
  obtain ⟨w, hw, heq⟩ := (whitespace_ok h).blank (by rw [hcons]; exact List.cons_ne_nil _ _)
  exact ⟨w, hw, by rw [heq, hcons]; rfl⟩

theorem member_ok (hinner : Sound P inner) (h : member object inner fields c = .ok (fields', c')) :
    ∃ t more, c = t ++ c' ∧ fields' = fields ++ more ∧ ∀ w', Blank w' → Member P object (t ++ w') more := by
  cases object with
  | false =>
    obtain ⟨⟨v, c₁⟩, hvalue, hout⟩ := bind_eq_ok.mp h
    cases hout
    obtain ⟨w, t, hw, rfl, ht⟩ := hinner _ _ _ hvalue
    refine ⟨w ++ t, [], (List.append_assoc _ _ _).symm, (List.append_nil _).symm, fun w' hw' => ?_⟩
    rw [List.append_assoc]
    exact .element hw ht hw'
  | true =>
    obtain ⟨c₁, hc₁, hkey⟩ := bind_eq_ok.mp h
    split at hkey
    · cases hkey
    next hquote =>
    have hquote := Decidable.not_not.mp hquote
    obtain ⟨w, hw, heq₁⟩ := blank_of_peek hc₁ (by decide) hquote
    obtain ⟨⟨name, c₂⟩, hname, hafter⟩ := bind_eq_ok.mp hkey
    rw [cons_of_peek (by decide) hquote] at hname
    obtain ⟨body, hbody, heq₂⟩ := string_ok_iff.mp hname
    obtain ⟨c₃, hc₃, hcolon⟩ := bind_eq_ok.mp hafter
    split at hcolon
    · cases hcolon
    next hpeek =>
    obtain ⟨w₁, hw₁, heq₃⟩ := blank_of_peek hc₃ (by decide) (Decidable.not_not.mp hpeek)
    obtain ⟨⟨v, c₄⟩, hvalue, hout⟩ := bind_eq_ok.mp hcolon
    cases hout
    obtain ⟨w₂, t, hw₂, heq₄, ht⟩ := hinner _ _ _ hvalue
    refine ⟨w ++ byte '"' :: (body ++ byte '"' :: (w₁ ++ byte ':' :: (w₂ ++ t))), [(name, v)], ?_, rfl,
      fun w' hw' => ?_⟩
    · rw [heq₁, heq₂, heq₃, heq₄]
      simp
    · have hfield := Member.field hw hbody hw₁ hw₂ ht hw'
      simpa using hfield

/-- **The inside of a container that is read**: its members and their fields, in their order. -/
theorem members_ok (hinner : Sound P inner) {fuel : Nat} (h : members object inner fuel fields c = .ok (v, c')) :
    ∃ t more, c = t ++ closing object :: c' ∧ Members P object t more ∧ v = collected object (fields ++ more) := by
  induction fuel generalizing fields c with
  | zero => cases h
  | succ fuel ih =>
    obtain ⟨⟨fields', c₁⟩, hmember, hafter⟩ := bind_eq_ok.mp h
    obtain ⟨t, more, heq₁, rfl, ht⟩ := member_ok hinner hmember
    obtain ⟨c₂, hc₂, hend⟩ := bind_eq_ok.mp hafter
    split at hend
    · next hclose =>
      cases hend
      obtain ⟨w, hw, heq₂⟩ := blank_of_peek hc₂ (by cases object <;> decide) hclose
      refine ⟨t ++ w, more, ?_, .last (ht w hw), rfl⟩
      rw [heq₁, heq₂, List.append_assoc]
    · split at hend
      · cases hend
      · next hcomma =>
        obtain ⟨w, hw, heq₂⟩ := blank_of_peek hc₂ (by decide) (Decidable.not_not.mp hcomma)
        obtain ⟨t', more', heq₃, hmembers, rfl⟩ := ih hend
        refine ⟨t ++ w ++ byte ',' :: t', more ++ more', ?_, .more (ht w hw) hmembers, ?_⟩
        · rw [heq₁, heq₂, heq₃]
          simp
        · rw [List.append_assoc]

theorem member_append (hinner : Complete P inner) (h : Member P object t more) (hc : Follows c)
    (fields : List (Bytes × Value)) :
    ∃ w', Blank w' ∧ member object inner fields (t ++ c) = .ok (fields ++ more, w' ++ c) := by
  cases h with
  | @element w t w' v hw ht hw' =>
    refine ⟨w', hw', ?_⟩
    have hvalue := hinner w t v (w' ++ c) hw ht (numberEnd_follows hw' hc)
    simp only [List.append_assoc]
    rw [member, if_neg Bool.false_ne_true, hvalue, List.append_nil]
    rfl
  | @field w body name w₁ w₂ t w' v hw hname hw₁ hw₂ ht hw' =>
    refine ⟨w', hw', ?_⟩
    have hquote := solid_cons (b := byte '"') (by decide)
    have hcolon := solid_cons (b := byte ':') (by decide)
    have hvalue := hinner w₂ t v (w' ++ c) hw₂ ht (numberEnd_follows hw' hc)
    have hstring (c : Cursor) : string (byte '"' :: (body ++ byte '"' :: c)) = .ok (name, c) :=
      string_ok_iff.mpr ⟨body, hname, rfl⟩
    simp only [List.append_assoc, List.cons_append]
    rw [member, if_pos rfl, whitespace_blank hw (hquote _)]
    simp only [bind, Except.bind]
    rw [if_neg (by rw [peek_cons]; exact not_ne_iff.mpr rfl), hstring]
    dsimp only
    rw [whitespace_blank hw₁ (hcolon _)]
    dsimp only
    rw [if_neg (by rw [peek_cons]; exact not_ne_iff.mpr rfl), List.tail_cons, hvalue]

/-- **The inside of a container is read to its end.** -/
theorem members_append (hinner : Complete P inner) (h : Members P object t more) {fuel : Nat}
    (hfuel : t.length < fuel) (fields : List (Bytes × Value)) :
    members object inner fuel fields (t ++ closing object :: c) = .ok (collected object (fields ++ more), c) := by
  have hclosing : Starts (byte ',') ∧ isSpace (closing object) = false ∧ closing object ≠ byte '/' := by
    cases object <;> decide
  induction h generalizing fuel fields with
  | @last t more h =>
    obtain ⟨fuel, rfl⟩ : ∃ n, fuel = n + 1 := ⟨fuel - 1, by omega⟩
    obtain ⟨w', hw', hmember⟩ := member_append hinner h (follows_closing object c) fields
    have hspace := whitespace_blank hw' (solid_cons hclosing.2 c)
    rw [members, hmember]
    simp only [bind, Except.bind, hspace]
    rw [peek_cons, if_pos rfl, List.tail_cons]
  | @more t t' more more' h _ ih =>
    obtain ⟨fuel, rfl⟩ : ∃ n, fuel = n + 1 := ⟨fuel - 1, by omega⟩
    simp only [List.append_assoc, List.cons_append]
    obtain ⟨w', hw', hmember⟩ := member_append hinner h (follows_comma (t' ++ closing object :: c)) fields
    have hspace := whitespace_blank hw' (hclosing.1.solid (t' ++ closing object :: c))
    have hlen : t'.length < fuel := by
      simp only [List.length_append, List.length_cons] at hfuel
      omega
    have hgoes : ¬ byte ',' = closing object := by cases object <;> decide
    rw [members, hmember]
    simp only [bind, Except.bind, hspace]
    rw [peek_cons, if_neg hgoes, if_neg (not_ne_iff.mpr rfl), List.tail_cons, ih hlen, List.append_assoc]

theorem Members.prepend (hw : Blank w) (h : Members P object t more) : Members P object (w ++ t) more := by
  have hmember {t : Bytes} {more : List (Bytes × Value)} (h : Member P object t more) :
      Member P object (w ++ t) more := by
    cases h with
    | element hw' ht hw₁ =>
      rw [← List.append_assoc]
      exact .element (hw.append hw') ht hw₁
    | field hw' hname hw₁ hw₂ ht hw₃ =>
      rw [← List.append_assoc]
      exact .field (hw.append hw') hname hw₁ hw₂ ht hw₃
  cases h with
  | last h => exact .last (hmember h)
  | more h hrest =>
    rw [← List.append_assoc]
    exact .more (hmember h) hrest

/-- A container that is not empty holds a value. -/
theorem Members.holds (h : Members P object t more) : ∃ t v, P t v := by
  have hmember {t : Bytes} {more : List (Bytes × Value)} (h : Member P object t more) : ∃ t v, P t v := by
    cases h with
    | element _ ht _ => exact ⟨_, _, ht⟩
    | field _ _ _ _ ht _ => exact ⟨_, _, ht⟩
  cases h with
  | last h => exact hmember h
  | more h _ => exact hmember h

/-- The inside of a container without the blanks it begins with. -/
theorem Members.stripped (hstarts : ∀ t v, P t v → ∃ b rest, t = b :: rest ∧ Starts b)
    (h : Members P object t more) :
    ∃ w b rest, Blank w ∧ Starts b ∧ t = w ++ b :: rest ∧ Members P object (b :: rest) more := by
  have hmember {t : Bytes} {more : List (Bytes × Value)} (h : Member P object t more) :
      ∃ w b rest, Blank w ∧ Starts b ∧ t = w ++ b :: rest ∧ Member P object (b :: rest) more := by
    cases h with
    | @element w t w' v hw ht hw' =>
      obtain ⟨b, rest, rfl, hb⟩ := hstarts t v ht
      exact ⟨w, b, rest ++ w', hw, hb, rfl, .element .nil ht hw'⟩
    | field hw hname hw₁ hw₂ ht hw' =>
      exact ⟨_, byte '"', _, hw, by decide, rfl, .field .nil hname hw₁ hw₂ ht hw'⟩
  cases h with
  | last h =>
    obtain ⟨w, b, rest, hw, hb, heq, hstripped⟩ := hmember h
    exact ⟨w, b, rest, hw, hb, heq, .last hstripped⟩
  | @more t t' fields fields' h hrest =>
    obtain ⟨w, b, rest, hw, hb, heq, hstripped⟩ := hmember h
    exact ⟨w, b, rest ++ byte ',' :: t', hw, hb, by rw [heq]; simp, .more hstripped hrest⟩

end Containers

/-! ## 3. Values -/

section Values

variable {P : Bytes → Value → Prop} {c c' t w : Bytes} {v : Value} {nesting room : Nat}

theorem keyword_ok_iff {word : String} : keyword word c = .ok c' ↔ c = text word ++ c' := by
  have hlen : (text word).length = word.length := by rw [text, List.length_map, String.length_toList]
  unfold keyword
  constructor
  · intro h
    split at h
    · next hstarts =>
      cases h
      obtain ⟨rest, rfl⟩ := List.isPrefixOf_iff_prefix.mp hstarts
      rw [← hlen, List.drop_left]
    · cases h
  · rintro rfl
    rw [if_pos (List.isPrefixOf_iff_prefix.mpr (List.prefix_append _ _)), ← hlen, List.drop_left]

/-- What is read at one level. -/
theorem layer_ok (hinner : nesting + 1 ≤ maxNesting → Sound P (value (nesting + 1))) :
    Sound (Layer P) (value nesting) := by
  intro c v c' h
  rw [value] at h
  obtain ⟨c₁, hc₁, hvalue⟩ := bind_eq_ok.mp h
  have hpassed := whitespace_ok hc₁
  -- what is read at `c₁` is read behind the blanks before it
  have hbehind {t : Bytes} (heq : c₁ = t ++ c') (ht : Layer P t v) :
      ∃ w t, Blank w ∧ c = w ++ (t ++ c') ∧ Layer P t v := by
    obtain ⟨b, rest, rfl, -⟩ := ht.starts
    obtain ⟨w, hw, hc⟩ := hpassed.blank (by rw [heq]; exact List.cons_ne_nil _ _)
    exact ⟨w, _, hw, by rw [hc, heq], ht⟩
  have hword {word : String} {v₁ : Value} (hlayer : Layer P (text word) v₁)
      (hvalue : (keyword word c₁).map (fun c => (v₁, c)) = .ok (v, c')) :
      ∃ w t, Blank w ∧ c = w ++ (t ++ c') ∧ Layer P t v := by
    obtain ⟨c₂, hkeyword, heq⟩ := map_eq_ok.mp hvalue
    cases heq
    exact hbehind (keyword_ok_iff.mp hkeyword) hlayer
  clear h hc₁ hpassed
  dsimp only at hvalue
  by_cases hnull : peek c₁ = byte 'n'
  · rw [if_pos hnull] at hvalue
    exact hword .null hvalue
  rw [if_neg hnull] at hvalue
  by_cases htrue : peek c₁ = byte 't'
  · rw [if_pos htrue] at hvalue
    exact hword .true hvalue
  rw [if_neg htrue] at hvalue
  by_cases hfalse : peek c₁ = byte 'f'
  · rw [if_pos hfalse] at hvalue
    exact hword .false hvalue
  rw [if_neg hfalse] at hvalue
  by_cases hother : peek c₁ = byte 'N' ∨ peek c₁ = byte 'I'
  · rw [if_pos hother] at hvalue
    cases hvalue
  rw [if_neg hother] at hvalue
  by_cases hstart : peek c₁ = byte '-' ∨ isDigit (peek c₁) = true
  · rw [if_pos hstart] at hvalue
    obtain ⟨c₂, hnumber, heq⟩ := map_eq_ok.mp hvalue
    cases heq
    obtain ⟨t, heq, ht⟩ := number_ok hstart hnumber
    exact hbehind heq (.number ht)
  rw [if_neg hstart] at hvalue
  by_cases hquote : peek c₁ = byte '"'
  · rw [if_pos hquote] at hvalue
    obtain ⟨⟨out, c₂⟩, hstring, heq⟩ := map_eq_ok.mp hvalue
    cases heq
    rw [cons_of_peek (by decide) hquote] at hstring
    obtain ⟨body, hbody, htail⟩ := string_ok_iff.mp hstring
    refine hbehind ?_ (.string hbody)
    rw [cons_of_peek (by decide) hquote, htail]
    simp
  rw [if_neg hquote] at hvalue
  by_cases hopening : peek c₁ = opening false ∨ peek c₁ = opening true
  · rw [if_pos hopening] at hvalue
    have hcons : ∃ object, decide (peek c₁ = opening true) = object ∧ c₁ = opening object :: c₁.tail := by
      obtain hopening | hopening := hopening
      · exact ⟨false, by rw [hopening]; decide, cons_of_peek (by decide) hopening⟩
      · exact ⟨true, by rw [hopening]; decide, cons_of_peek (by decide) hopening⟩
    obtain ⟨object, hobject, hcons⟩ := hcons
    rw [hobject] at hvalue
    obtain ⟨c₂, hc₂, hinside⟩ := bind_eq_ok.mp hvalue
    split at hinside
    · next hclose =>
      cases hinside
      obtain ⟨w, hw, htail⟩ := blank_of_peek hc₂ (by cases object <;> decide) hclose
      refine hbehind ?_ (.empty hw)
      rw [hcons, htail]
      simp
    · split at hinside
      · cases hinside
      · next hroom =>
        obtain ⟨t, more, rfl, hmembers, rfl⟩ := members_ok (hinner (Nat.le_of_not_lt hroom)) hinside
        obtain ⟨w, hw, htail⟩ := (whitespace_ok hc₂).blank (by simp)
        refine hbehind ?_ (.container (hmembers.prepend hw))
        rw [hcons, htail]
        simp
  rw [if_neg hopening] at hvalue
  by_cases hend : peek c₁ = 0
  · rw [if_pos hend] at hvalue
    split at hvalue <;> cases hvalue
  rw [if_neg hend] at hvalue
  cases hvalue

/-- **A value that is read**, with so much room left. -/
theorem value_ok (hroom : nesting + room = maxNesting) : Sound (Derives room) (value nesting) := by
  induction room generalizing nesting with
  | zero => exact layer_ok fun hle => absurd hle (by omega)
  | succ room ih => exact layer_ok fun _ => ih (by omega)

theorem value_blank (hw : Blank w) (hc : Solid c) : value nesting (w ++ c) = value nesting c := by
  rw [value, value, whitespace_blank hw hc, whitespace_solid hc]

theorem value_null (c : Cursor) : value nesting (text "null" ++ c) = .ok (.null, c) := by
  have hpeek : peek (text "null" ++ c) = byte 'n' := rfl
  have hsolid : Solid (text "null" ++ c) := @solid_cons (byte 'n') (by decide) _
  have hword : keyword "null" (text "null" ++ c) = .ok c := keyword_ok_iff.mpr rfl
  rw [value, whitespace_solid hsolid]
  simp only [bind, Except.bind, hpeek]
  rw [if_pos trivial, hword]
  rfl

theorem value_true (c : Cursor) : value nesting (text "true" ++ c) = .ok (.other, c) := by
  have hpeek : peek (text "true" ++ c) = byte 't' := rfl
  have hsolid : Solid (text "true" ++ c) := @solid_cons (byte 't') (by decide) _
  have hword : keyword "true" (text "true" ++ c) = .ok c := keyword_ok_iff.mpr rfl
  rw [value, whitespace_solid hsolid]
  simp only [bind, Except.bind, hpeek]
  rw [if_neg (by decide), if_pos trivial, hword]
  rfl

theorem value_false (c : Cursor) : value nesting (text "false" ++ c) = .ok (.false, c) := by
  have hpeek : peek (text "false" ++ c) = byte 'f' := rfl
  have hsolid : Solid (text "false" ++ c) := @solid_cons (byte 'f') (by decide) _
  have hword : keyword "false" (text "false" ++ c) = .ok c := keyword_ok_iff.mpr rfl
  rw [value, whitespace_solid hsolid]
  simp only [bind, Except.bind, hpeek]
  rw [if_neg (by decide), if_neg (by decide), if_pos trivial, hword]
  rfl

theorem value_number (h : Number t) (hc : NumberEnd c) : value nesting (t ++ c) = .ok (.other, c) := by
  have hnumber := number_append h hc
  obtain ⟨b, rest, rfl, hstart⟩ := h.starts
  have hb : Starts b := by
    obtain rfl | hb := hstart
    · decide
    · exact starts_digit hb
  have hpeek : peek (b :: rest ++ c) = b := rfl
  have hsolid : Solid (b :: rest ++ c) := hb.solid (rest ++ c)
  have hnot {x : UInt8} (hx : isDigit x = false) (hminus : byte '-' ≠ x) : ¬ b = x := by
    obtain rfl | hdigit := hstart
    · exact hminus
    · exact digit_ne hdigit hx
  have hn : ¬ b = byte 'n' := hnot (by decide) (by decide)
  have ht : ¬ b = byte 't' := hnot (by decide) (by decide)
  have hf : ¬ b = byte 'f' := hnot (by decide) (by decide)
  have hother : ¬ (b = byte 'N' ∨ b = byte 'I') :=
    not_or.mpr ⟨hnot (by decide) (by decide), hnot (by decide) (by decide)⟩
  rw [value, whitespace_solid hsolid]
  simp only [bind, Except.bind, hpeek]
  rw [if_neg hn, if_neg ht, if_neg hf, if_neg hother, if_pos hstart, hnumber]
  rfl

theorem value_string {out : Bytes} (h : string (byte '"' :: c) = .ok (out, c')) :
    value nesting (byte '"' :: c) = .ok (.string out, c') := by
  have hpeek : peek (byte '"' :: c) = byte '"' := rfl
  rw [value, whitespace_solid (solid_cons (by decide) _)]
  simp only [bind, Except.bind, hpeek]
  rw [if_neg (by decide), if_neg (by decide), if_neg (by decide), if_neg (by decide), if_neg (by decide),
    if_pos trivial, h]
  rfl

theorem value_opening (object : Bool) (c : Cursor) : value nesting (opening object :: c) = (do
    let c ← whitespace c
    if peek c = closing object then .ok (collected object [], c.tail)
    else if maxNesting < nesting + 1 then .error (.nesting (nesting + 1))
    else members object (fun c => value (nesting + 1) c) (c.length + 1) [] c) := by
  have hpeek : peek (opening object :: c) = opening object := rfl
  have hobject : decide (opening object = opening true) = object := by cases object <;> decide
  have hword : ¬ opening object = byte 'n' ∧ ¬ opening object = byte 't' ∧ ¬ opening object = byte 'f' := by
    cases object <;> decide
  have hother : ¬ (opening object = byte 'N' ∨ opening object = byte 'I') := by cases object <;> decide
  have hnumber : ¬ (opening object = byte '-' ∨ isDigit (opening object) = true) := by cases object <;> decide
  have hstring : ¬ opening object = byte '"' := by cases object <;> decide
  have hopening : opening object = opening false ∨ opening object = opening true := by cases object <;> decide
  rw [value, whitespace_solid (solid_cons (by cases object <;> decide) _)]
  simp only [bind, Except.bind, hpeek, hobject, List.tail_cons, dite_eq_ite]
  rw [if_neg hword.1, if_neg hword.2.1, if_neg hword.2.2, if_neg hother, if_neg hnumber, if_neg hstring,
    if_pos hopening]

theorem layer_append (hinner : nesting + 1 ≤ maxNesting → Complete P (value (nesting + 1)))
    (hroom : ∀ t v, P t v → nesting + 1 ≤ maxNesting)
    (hstarts : ∀ t v, P t v → ∃ b rest, t = b :: rest ∧ Starts b) : Complete (Layer P) (value nesting) := by
  intro w t v c hw ht hc
  obtain ⟨b, rest, heq, hb⟩ := ht.starts
  have hsolid : Solid (t ++ c) := by
    rw [heq]
    exact hb.solid (rest ++ c)
  rw [value_blank hw hsolid]
  clear heq hb hw
  cases ht with
  | null => exact value_null c
  | true => exact value_true c
  | false => exact value_false c
  | number h => exact value_number h hc
  | @string body out h =>
    rw [List.cons_append, List.append_assoc]
    exact value_string (string_ok_iff.mpr ⟨body, h, rfl⟩)
  | @empty object w hw =>
    have hclosing : isSpace (closing object) = false ∧ closing object ≠ byte '/' := by cases object <;> decide
    rw [List.cons_append, List.append_assoc, value_opening, List.singleton_append,
      whitespace_blank hw (solid_cons hclosing c)]
    exact if_pos rfl
  | @container object t fields h =>
    obtain ⟨t', v', ht'⟩ := h.holds
    have hle := hroom t' v' ht'
    obtain ⟨w, b, rest, hw, hb, rfl, hmembers⟩ := h.stripped hstarts
    have hspace : whitespace (w ++ (b :: rest ++ closing object :: c)) = .ok (b :: rest ++ closing object :: c) :=
      whitespace_blank hw (hb.solid (rest ++ closing object :: c))
    have hclose : ¬ peek (b :: rest ++ closing object :: c) = closing object := by
      cases object
      · exact hb.2.2.1
      · exact hb.2.2.2
    have hfuel : (b :: rest).length < (b :: rest ++ closing object :: c).length + 1 := by
      rw [List.length_append]
      omega
    have hinside := members_append (c := c) (hinner hle) hmembers hfuel []
    rw [List.cons_append, List.append_assoc, List.append_assoc, value_opening, List.singleton_append, hspace]
    simp only [bind, Except.bind]
    rw [if_neg hclose, if_neg (Nat.not_lt.mpr hle)]
    exact hinside

theorem Derives.starts (h : Derives room t v) : ∃ b rest, t = b :: rest ∧ Starts b := by
  cases room with
  | zero => exact Layer.starts h
  | succ room => exact Layer.starts h

/-- **A value is read to its end**, where there is room for it. -/
theorem value_append (hroom : nesting + room = maxNesting) : Complete (Derives room) (value nesting) := by
  induction room generalizing nesting with
  | zero => exact layer_append (fun hle => absurd hle (by omega)) (fun _ _ h => h.elim) fun _ _ h => h.elim
  | succ room ih =>
    exact layer_append (fun _ => ih (by omega)) (fun _ _ _ => by omega) fun _ _ h => h.starts

end Values

/-! ## 4. Texts -/

/-- The parser reads what its grammar has. -/
theorem read_ok_iff {bytes : Bytes} {v : Value} : read bytes = .ok v ↔ Text bytes v := by
  constructor
  · intro h
    obtain ⟨⟨v', c⟩, hvalue, hafter⟩ := bind_eq_ok.mp h
    obtain ⟨c', hspace, hend⟩ := bind_eq_ok.mp hafter
    obtain ⟨w, t, hw, rfl, ht⟩ := value_ok (Nat.zero_add maxNesting) _ _ _ hvalue
    split at hend
    · next hempty =>
      cases hend
      obtain rfl := List.isEmpty_iff.mp hempty
      obtain ⟨w', hw', rfl, -⟩ | ⟨-, w', body, hw', hbody, rfl⟩ := whitespace_ok hspace
      · exact .mk hw ht hw' (.inl rfl)
      · exact .mk hw ht hw' (.inr ⟨body, hbody, rfl⟩)
    · cases hend
  · intro h
    obtain @⟨w, t, w', comment, v, hw, ht, hw', hcomment⟩ := h
    have hfollows : Follows comment := by
      obtain rfl | ⟨body, -, rfl⟩ := hcomment
      · exact List.mem_cons_self
      · exact List.mem_append_right [0, byte ',', byte ']', byte '}'] List.mem_cons_self
    have hvalue := value_append (Nat.zero_add maxNesting) w t v (w' ++ comment) hw ht (numberEnd_follows hw' hfollows)
    have hspace : whitespace (w' ++ comment) = .ok [] := by
      obtain rfl | ⟨body, hbody, rfl⟩ := hcomment
      · exact whitespace_blank hw' fun _ h => by cases h
      · exact whitespace_open hw' hbody
    rw [read, hvalue]
    simp only [bind, Except.bind, hspace]
    rfl

theorem parse_of_text {bytes : Bytes} {v : Value} (h : Text bytes v) : parse bytes = .ok v := by
  rw [parse, read_ok_iff.mpr h]
  rfl

/-- **The parser accepts the grammar's texts and reads their values, and no others.** -/
theorem parse_ok_iff (bytes : Bytes) (v : Value) : parse bytes = .ok v ↔ Text bytes v := by
  rw [← read_ok_iff, parse]
  cases read bytes with
  | error fault => simp [Except.mapError]
  | ok v' => simp [Except.mapError]

/-! ## 5. Errors -/

section Errors

variable {P : Bytes → Value → Prop} {inner : Cursor → Except Fault (Value × Cursor)} {object : Bool}
  {c c' start stop chunk slash : Cursor} {escapes : List Cursor} {fault : Fault} {nesting room : Nat}

/-- An error at a place of the text, or one level too many: never a loop that runs on. -/
def Placed (c : Cursor) : Fault → Prop
  | .at _ cursor => cursor <:+ c
  | .nesting depth => depth = maxNesting + 1
  | .spent => False

theorem Placed.mono (h : Placed c' fault) (hc : c' <:+ c) : Placed c fault := by
  cases fault with
  | «at» format cursor => exact h.trans hc
  | nesting depth => exact h
  | spent => exact h

theorem bind_eq_error {α β : Type} {x : Except Fault α} {f : α → Except Fault β} :
    (x >>= f) = .error fault ↔ x = .error fault ∨ ∃ a, x = .ok a ∧ f a = .error fault := by
  cases x with
  | error e => simp [bind, Except.bind]
  | ok a => simp [bind, Except.bind]

theorem map_eq_error {α β : Type} {x : Except Fault α} {f : α → β} :
    x.map f = .error fault ↔ x = .error fault := by
  cases x with
  | error e => simp [Except.map]
  | ok a => simp [Except.map]

theorem afterLine_suffix (c : Cursor) : afterLine c <:+ c :=
  (List.tail_suffix _).trans (List.dropWhile_suffix _)

theorem afterBlock_suffix (h : afterBlock c = some c') : c' <:+ c := by
  obtain ⟨body, rfl, -⟩ := afterBlock_eq_some.mp h
  exact ⟨body ++ [byte '*', byte '/'], by simp⟩

theorem whitespace_suffix (h : whitespace c = .ok c') : c' <:+ c := by
  obtain ⟨w, -, rfl, -⟩ | ⟨rfl, -⟩ := whitespace_ok h
  · exact List.suffix_append w c'
  · exact List.nil_suffix

theorem whitespace_placed (h : whitespace c = .error fault) : Placed c fault := by
  fun_induction whitespace c with
  | case1 => cases h
  | case2 b rest _ ih => exact (ih h).mono (List.suffix_cons b rest)
  | case3 rest _ _ ih => exact (ih h).mono ((afterLine_suffix rest).trans (List.suffix_cons _ rest))
  | case4 rest _ _ after hafter _ ih =>
    exact (ih h).mono ((afterBlock_suffix hafter).trans ((List.tail_suffix rest).trans (List.suffix_cons _ rest)))
  | case5 => 
    cases h
    exact List.suffix_rfl
  | case6 =>
    cases h
    exact List.suffix_rfl
  | case7 => cases h

theorem keyword_placed {word : String} (h : keyword word c = .error fault) : Placed c fault := by
  unfold keyword at h
  split at h
  · cases h
  · cases h
    exact List.suffix_rfl

theorem fraction_placed (h : fraction start c = .error fault) : Placed start fault := by
  unfold fraction at h
  split at h
  · dsimp only at h
    split at h
    · cases h
      exact List.suffix_rfl
    · cases h
  · cases h

theorem exponent_placed (h : exponent start c = .error fault) : Placed start fault := by
  unfold exponent at h
  split at h
  · dsimp only at h
    generalize (if peek c.tail = byte '-' ∨ peek c.tail = byte '+' then c.tail.tail else c.tail) = unsigned at h
    split at h
    · cases h
      exact List.suffix_rfl
    · cases h
  · cases h

theorem number_placed (h : number c = .error fault) : Placed c fault := by
  unfold number at h
  dsimp only at h
  generalize (if peek c = byte '-' then c.tail else c) = unsigned at h
  split at h
  · cases h
    exact List.suffix_rfl
  · obtain hfraction | ⟨_, -, hexponent⟩ := bind_eq_error.mp h
    · exact fraction_placed hfraction
    · exact exponent_placed hexponent

theorem scan_placed (h : scan c = .error fault) : Placed c fault := by
  fun_induction scan c with
  | case1 =>
    cases h
    exact List.suffix_rfl
  | case2 => cases h
  | case3 rest _ ih =>
    exact (ih (map_eq_error.mp h)).mono ((List.tail_suffix rest).trans (List.suffix_cons _ rest))
  | case4 =>
    cases h
    exact List.suffix_rfl
  | case5 b rest _ _ _ ih => exact (ih h).mono (List.suffix_cons b rest)

/-- What a scan finds lies in its text. -/
theorem scan_suffix (h : scan c = .ok (stop, escapes)) : stop <:+ c ∧ ∀ slash ∈ escapes, slash <:+ c := by
  fun_induction scan c generalizing escapes with
  | case1 => cases h
  | case2 =>
    cases h
    exact ⟨List.suffix_rfl, fun _ h => by cases h⟩
  | case3 rest _ ih =>
    obtain ⟨⟨stop', escapes'⟩, hscan, heq⟩ := map_eq_ok.mp h
    cases heq
    have hrest := (List.tail_suffix rest).trans (List.suffix_cons (byte '\\') rest)
    obtain ⟨hstop, hescapes⟩ := ih hscan
    refine ⟨hstop.trans hrest, fun slash hslash => ?_⟩
    obtain rfl | hslash := List.mem_cons.mp hslash
    · exact List.suffix_rfl
    · exact (hescapes slash hslash).trans hrest
  | case4 => cases h
  | case5 b rest _ _ _ ih =>
    obtain ⟨hstop, hescapes⟩ := ih h
    exact ⟨hstop.trans (List.suffix_cons b rest),
      fun slash hslash => (hescapes slash hslash).trans (List.suffix_cons b rest)⟩

theorem hex4_placed (h : hex4 slash stop = .error fault) : Placed slash fault := by
  unfold hex4 at h
  dsimp only at h
  split at h
  · split at h
    · cases h
    · cases h
      exact List.suffix_rfl
  · cases h
    exact List.suffix_rfl

theorem unicodeEscape_placed (hslash : slash <:+ c) (hchunk : chunk <:+ c)
    (h : unicodeEscape chunk slash stop = .error fault) : Placed c fault := by
  obtain hhex | ⟨codepoint, -, hafter⟩ := bind_eq_error.mp h
  · exact (hex4_placed hhex).mono hslash
  · dsimp only at hafter
    split at hafter
    · split at hafter
      · cases hafter
        exact hchunk
      · obtain hhex | ⟨low, -, hpair⟩ := bind_eq_error.mp hafter
        · exact (hex4_placed hhex).mono ((List.drop_suffix 6 slash).trans hslash)
        · split at hpair
          · cases hpair
          · cases hpair
            exact hchunk
    · cases hafter

theorem escape_placed (hslash : slash <:+ c) (hchunk : chunk <:+ c) (hstop : stop <:+ c)
    (h : escape chunk slash stop = .error fault) : Placed c fault := by
  unfold escape at h
  dsimp only at h
  split at h
  · cases h
  · split at h
    · cases h
    · split at h
      · exact unicodeEscape_placed hslash hchunk h
      · split at h
        · cases h
          exact (List.tail_suffix stop).trans hstop
        · split at h
          · cases h
            exact hslash
          · split at h
            · cases h
              exact hslash
            · cases h
              exact hslash

theorem unicodeEscape_suffix {written next : Bytes} (h : unicodeEscape chunk slash stop = .ok (written, next)) :
    next <:+ slash := by
  obtain ⟨codepoint, -, hafter⟩ := bind_eq_ok.mp h
  dsimp only at hafter
  split at hafter
  · split at hafter
    · cases hafter
    · obtain ⟨low, -, hpair⟩ := bind_eq_ok.mp hafter
      split at hpair
      · cases hpair
        exact (List.drop_suffix 6 _).trans (List.drop_suffix 6 slash)
      · cases hpair
  · cases hafter
    exact List.drop_suffix 6 slash

theorem escape_suffix {written next : Bytes} (h : escape chunk slash stop = .ok (written, next)) : next <:+ slash := by
  unfold escape at h
  dsimp only at h
  split at h
  · cases h
    exact List.tail_suffix slash
  · split at h
    · cases h
      exact (List.tail_suffix slash.tail).trans (List.tail_suffix slash)
    · split at h
      · exact unicodeEscape_suffix h
      · split at h
        · cases h
        · split at h
          · cases h
          · split at h <;> cases h

theorem unescape_placed (hstop : stop <:+ c) (hescapes : ∀ slash ∈ escapes, slash <:+ c) (hchunk : chunk <:+ c)
    (h : unescape stop chunk escapes = .error fault) : Placed c fault := by
  induction escapes generalizing chunk with
  | nil => cases h
  | cons slash escapes ih =>
    have hslash := hescapes slash List.mem_cons_self
    have hrest := fun slash hmem => hescapes slash (List.mem_cons_of_mem _ hmem)
    rw [unescape] at h
    split at h
    · exact ih hrest hchunk h
    · obtain hescape | ⟨⟨written, next⟩, hescape, hafter⟩ := bind_eq_error.mp h
      · exact escape_placed hslash hchunk hstop hescape
      · obtain hmore | ⟨more, -, hout⟩ := bind_eq_error.mp hafter
        · exact ih hrest ((escape_suffix hescape).trans hslash) hmore
        · cases hout

theorem string_placed (h : string c = .error fault) : Placed c fault := by
  have htail := List.tail_suffix c
  obtain hscan | ⟨⟨stop, escapes⟩, hscan, hafter⟩ := bind_eq_error.mp h
  · exact (scan_placed hscan).mono htail
  · obtain ⟨hstop, hescapes⟩ := scan_suffix hscan
    obtain hread | ⟨out, -, hout⟩ := bind_eq_error.mp hafter
    · exact (unescape_placed hstop hescapes List.suffix_rfl hread).mono htail
    · cases hout

theorem string_suffix {out : Bytes} (h : string c = .ok (out, c')) : c' <:+ c := by
  have htail := List.tail_suffix c
  obtain ⟨⟨stop, escapes⟩, hscan, hafter⟩ := bind_eq_ok.mp h
  obtain ⟨read, -, hout⟩ := bind_eq_ok.mp hafter
  cases hout
  exact ((List.tail_suffix stop).trans (scan_suffix hscan).1).trans htail

theorem member_placed (hinner : ∀ c fault, inner c = .error fault → Placed c fault)
    {fields : List (Bytes × Value)} (h : member object inner fields c = .error fault) : Placed c fault := by
  cases object with
  | false =>
    obtain hvalue | ⟨_, -, hout⟩ := bind_eq_error.mp h
    · exact hinner c fault hvalue
    · cases hout
  | true =>
    obtain hspace | ⟨c₁, hc₁, hkey⟩ := bind_eq_error.mp h
    · exact whitespace_placed hspace
    have hsuffix₁ := whitespace_suffix hc₁
    split at hkey
    · cases hkey
      exact hsuffix₁
    obtain hname | ⟨⟨name, c₂⟩, hname, hafter⟩ := bind_eq_error.mp hkey
    · exact (string_placed hname).mono hsuffix₁
    have hsuffix₂ := (string_suffix hname).trans hsuffix₁
    obtain hspace | ⟨c₃, hc₃, hcolon⟩ := bind_eq_error.mp hafter
    · exact (whitespace_placed hspace).mono hsuffix₂
    have hsuffix₃ := (whitespace_suffix hc₃).trans hsuffix₂
    split at hcolon
    · cases hcolon
      exact hsuffix₃
    obtain hvalue | ⟨_, -, hout⟩ := bind_eq_error.mp hcolon
    · exact (hinner _ fault hvalue).mono ((List.tail_suffix c₃).trans hsuffix₃)
    · cases hout

/-- A container's loop ends within as many steps as its text has bytes. -/
theorem members_placed (hsound : Sound P inner) (hinner : ∀ c fault, inner c = .error fault → Placed c fault)
    {fuel : Nat} (hfuel : c.length < fuel) {fields : List (Bytes × Value)}
    (h : members object inner fuel fields c = .error fault) : Placed c fault := by
  induction fuel generalizing fields c with
  | zero => exact absurd hfuel (Nat.not_lt_zero _)
  | succ fuel ih =>
    obtain hmember | ⟨⟨fields', c₁⟩, hmember, hafter⟩ := bind_eq_error.mp h
    · exact member_placed hinner hmember
    obtain ⟨t, more, heq, -, -⟩ := member_ok hsound hmember
    have hsuffix₁ : c₁ <:+ c := ⟨t, heq.symm⟩
    obtain hspace | ⟨c₂, hc₂, hend⟩ := bind_eq_error.mp hafter
    · exact (whitespace_placed hspace).mono hsuffix₁
    have hsuffix₂ := (whitespace_suffix hc₂).trans hsuffix₁
    split at hend
    · cases hend
    · split at hend
      · cases hend
        exact hsuffix₂
      · next hcomma =>
        have hcons := cons_of_peek (by decide) (Decidable.not_not.mp hcomma)
        have hlen := hsuffix₂.length_le
        rw [hcons, List.length_cons] at hlen
        exact (ih (by omega) hend).mono ((List.tail_suffix c₂).trans hsuffix₂)

theorem layer_placed (hle : nesting ≤ maxNesting)
    (hinner : nesting + 1 ≤ maxNesting →
      Sound P (value (nesting + 1)) ∧ ∀ c fault, value (nesting + 1) c = .error fault → Placed c fault)
    (h : value nesting c = .error fault) : Placed c fault := by
  rw [value] at h
  obtain hspace | ⟨c₁, hc₁, hvalue⟩ := bind_eq_error.mp h
  · exact whitespace_placed hspace
  refine Placed.mono ?_ (whitespace_suffix hc₁)
  clear h hc₁
  dsimp only at hvalue
  by_cases hnull : peek c₁ = byte 'n'
  · rw [if_pos hnull] at hvalue
    exact keyword_placed (map_eq_error.mp hvalue)
  rw [if_neg hnull] at hvalue
  by_cases htrue : peek c₁ = byte 't'
  · rw [if_pos htrue] at hvalue
    exact keyword_placed (map_eq_error.mp hvalue)
  rw [if_neg htrue] at hvalue
  by_cases hfalse : peek c₁ = byte 'f'
  · rw [if_pos hfalse] at hvalue
    exact keyword_placed (map_eq_error.mp hvalue)
  rw [if_neg hfalse] at hvalue
  by_cases hother : peek c₁ = byte 'N' ∨ peek c₁ = byte 'I'
  · rw [if_pos hother] at hvalue
    cases hvalue
    exact List.suffix_rfl
  rw [if_neg hother] at hvalue
  by_cases hstart : peek c₁ = byte '-' ∨ isDigit (peek c₁) = true
  · rw [if_pos hstart] at hvalue
    exact number_placed (map_eq_error.mp hvalue)
  rw [if_neg hstart] at hvalue
  by_cases hquote : peek c₁ = byte '"'
  · rw [if_pos hquote] at hvalue
    exact string_placed (map_eq_error.mp hvalue)
  rw [if_neg hquote] at hvalue
  by_cases hopening : peek c₁ = opening false ∨ peek c₁ = opening true
  · rw [if_pos hopening] at hvalue
    have htail := List.tail_suffix c₁
    obtain hspace | ⟨c₂, hc₂, hinside⟩ := bind_eq_error.mp hvalue
    · exact (whitespace_placed hspace).mono htail
    have hsuffix := (whitespace_suffix hc₂).trans htail
    split at hinside
    · cases hinside
    · split at hinside
      · next hdeep =>
        cases hinside
        exact Nat.le_antisymm (Nat.succ_le_succ hle) hdeep
      · next hroom =>
        obtain ⟨hsound, hplaced⟩ := hinner (Nat.le_of_not_lt hroom)
        exact (members_placed hsound hplaced (Nat.lt_succ_self _) hinside).mono hsuffix
  rw [if_neg hopening] at hvalue
  by_cases hend : peek c₁ = 0
  · rw [if_pos hend] at hvalue
    split at hvalue
    · cases hvalue
      exact List.suffix_rfl
    · cases hvalue
      exact List.suffix_rfl
  rw [if_neg hend] at hvalue
  cases hvalue
  exact List.suffix_rfl

theorem value_placed (hroom : nesting + room = maxNesting) (h : value nesting c = .error fault) : Placed c fault := by
  induction room generalizing nesting c fault with
  | zero => exact @layer_placed (fun _ _ => False) _ _ _ (by omega) (fun hle => absurd hle (by omega)) h
  | succ room ih =>
    have hinner : nesting + 1 + room = maxNesting := by omega
    exact layer_placed (by omega) (fun _ => ⟨value_ok hinner, fun c fault h => ih hinner h⟩) h

theorem read_placed {bytes : Bytes} (h : read bytes = .error fault) : Placed bytes fault := by
  obtain hvalue | ⟨⟨v, c⟩, hvalue, hafter⟩ := bind_eq_error.mp h
  · exact value_placed (Nat.zero_add maxNesting) hvalue
  obtain ⟨w, t, -, heq, -⟩ := value_ok (Nat.zero_add maxNesting) _ _ _ hvalue
  have hsuffix : c <:+ bytes := ⟨w ++ t, by rw [heq, List.append_assoc]⟩
  obtain hspace | ⟨c', hc', hend⟩ := bind_eq_error.mp hafter
  · exact (whitespace_placed hspace).mono hsuffix
  · split at hend
    · cases hend
    · cases hend
      exact (whitespace_suffix hc').trans hsuffix

/-- **A text that is no text of the grammar is refused**: with an error at a place in it, or for its nesting. The
loops end on every input. -/
theorem parse_error (bytes : Bytes) : (∃ v, Text bytes v) ∨
    (∃ format cursor, cursor <:+ bytes ∧ parse bytes = .error (errorAt bytes format cursor)) ∨
    parse bytes = .error ⟨"JSON::NestingError", text "nesting of 101 is too deep"⟩ := by
  cases h : read bytes with
  | ok v => exact .inl ⟨v, read_ok_iff.mp h⟩
  | error fault =>
    have hparse : parse bytes = .error (fault.error bytes) := by rw [parse, h]; rfl
    have hplaced := read_placed h
    cases fault with
    | «at» format cursor => exact .inr (.inl ⟨format, cursor, hplaced, hparse⟩)
    | nesting depth =>
      obtain rfl : depth = 101 := hplaced
      have hsaid : text "nesting of " ++ digitsOf 101 ++ text " is too deep" = text "nesting of 101 is too deep" := by
        decide +kernel
      refine .inr (.inr ?_)
      rw [hparse, Fault.error, hsaid]
    | spent => exact hplaced.elim

end Errors

end Smartfire.SgidJson
