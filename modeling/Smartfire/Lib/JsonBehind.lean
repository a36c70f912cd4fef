/-
  File:      Smartfire/Lib/JsonBehind.lean
  Subject:   Reading a JSON text that stands in front of another text.

  The readers look no further than what they take: with any text behind, and with any fuel that
  covers the text, they take the same. So a text that reads as a value may be copied into a larger
  text without reading it again.

  * `Local` -- a reader that takes something and leaves what is behind it as it is;
  * `Takes` -- the same for a reader with fuel, in front of what ends a number;
  * `parseValue_takes` -- values, what follows a value, and members, by one induction on the fuel;
  * `readMembers` -- an object's members as they stand in its text, a repeated name kept;
  * `parse_object_iff` -- the object that is read is the map of these members.
-/
import Smartfire.Lib.Json
import Smartfire.Lib.Digits
import Mathlib.Data.List.TakeWhile

namespace Lib

namespace Json

/-! ## 1. Strings -/

/-- What is taken stands in front, and a text behind is left as it is. -/
def Local {α : Type} (read : List Char → Option (α × List Char)) : Prop :=
  ∀ {text : List Char} {value : α} {rest : List Char}, read text = some (value, rest) →
    rest.length < text.length ∧ ∀ behind, read (text ++ behind) = some (value, rest ++ behind)

section Strings

variable {text rest behind : List Char} {c : Char}

theorem length_skipSpace (text : List Char) : (skipSpace text).length ≤ text.length :=
  (List.dropWhile_sublist isSpace).length_le

/-- Spaces end where something else stands. -/
theorem skipSpace_append (h : skipSpace text ≠ []) : skipSpace (text ++ behind) = skipSpace text ++ behind := by
  rw [skipSpace] at h ⊢
  rw [List.dropWhile_append, if_neg (by simpa using h)]
  rfl

theorem skipSpace_cons_append (h : skipSpace text = c :: rest) :
    skipSpace (text ++ behind) = c :: (rest ++ behind) := by
  rw [skipSpace_append (by simp [h]), h, List.cons_append]

theorem local_hex4 : Local hex4 := by
  intro text value rest h
  unfold hex4 at h
  split at h
  · next a b c d tail =>
    simp only [Option.bind_eq_bind, Option.bind_eq_some_iff, Option.some.injEq, Prod.mk.injEq] at h
    obtain ⟨a', ha, b', hb, c', hc, d', hd, rfl, rfl⟩ := h
    refine ⟨by simp only [List.length_cons]; omega, fun behind => ?_⟩
    simp only [List.cons_append, hex4, ha, hb, hc, hd, Option.bind_eq_bind, Option.bind_some]
  · cases h

theorem local_unicode : Local unicode := by
  intro text value rest h
  unfold unicode at h
  rw [Option.bind_eq_bind, Option.bind_eq_some_iff] at h
  obtain ⟨⟨high, tail⟩, hhigh, h⟩ := h
  obtain ⟨hlen, hbehind⟩ := local_hex4 hhigh
  simp only at h
  split at h
  · next hpair =>
    split at h
    · next low =>
      rw [Option.bind_eq_some_iff] at h
      obtain ⟨⟨code, last⟩, hlow, h⟩ := h
      obtain ⟨hlen', hbehind'⟩ := local_hex4 hlow
      simp only at h
      split at h
      · next hrange =>
        simp only [Option.some.injEq, Prod.mk.injEq] at h
        obtain ⟨hchar, rfl⟩ := h
        simp only [List.length_cons] at hlen
        refine ⟨by omega, fun behind => ?_⟩
        rw [unicode, hbehind]
        simp only [Option.bind_eq_bind, Option.bind_some, if_pos hpair, List.cons_append]
        rw [hbehind']
        simp only [Option.bind_some, if_pos hrange, hchar]
      · cases h
    · cases h
  · next hpair =>
    split at h
    · cases h
    · next hlow =>
      cases h
      refine ⟨hlen, fun behind => ?_⟩
      rw [unicode, hbehind]
      simp only [Option.bind_eq_bind, Option.bind_some, if_neg hpair, if_neg hlow]

/-- But for `\u`, an escape is one character. -/
theorem unescape_short {d : Char} (hu : c ≠ 'u') (h : unescape (c :: text) = some (d, rest)) :
    rest = text ∧ ∀ other, unescape (c :: other) = some (d, other) := by
  simp only [unescape, if_neg hu] at h ⊢
  repeat' split at h
  all_goals cases h
  all_goals exact ⟨rfl, fun other => by simp only [*, Char.reduceEq, or_self, if_true, if_false]⟩

theorem local_unescape : Local unescape := by
  intro text value rest h
  cases text with
  | nil => cases h
  | cons c tail =>
    by_cases hu : c = 'u'
    · subst hu
      simp only [unescape, Char.reduceEq, or_false, if_false, if_true] at h
      obtain ⟨hlen, hbehind⟩ := local_unicode h
      refine ⟨by simp only [List.length_cons]; omega, fun behind => ?_⟩
      simp only [List.cons_append, unescape, Char.reduceEq, or_false, if_false, if_true, hbehind]
    · obtain ⟨rfl, hshort⟩ := unescape_short hu h
      exact ⟨by simp, fun behind => hshort _⟩

/-- What a string's reader takes does not depend on the fuel. -/
theorem stringBody_takes {fuel : Nat} {value : List Char} (h : stringBody fuel text = some (value, rest)) :
    rest.length < text.length ∧
      ∀ fuel' behind, text.length ≤ fuel' → stringBody fuel' (text ++ behind) = some (value, rest ++ behind) := by
  induction fuel generalizing text value rest with
  | zero => cases h
  | succ fuel ih =>
    cases text with
    | nil => cases h
    | cons c tail =>
      rw [stringBody] at h
      have hfuel : ∀ fuel' : Nat, (c :: tail).length ≤ fuel' → ∃ n, fuel' = n + 1 ∧ tail.length ≤ n := by
        intro fuel' hle
        rw [List.length_cons] at hle
        exact ⟨fuel' - 1, by omega, by omega⟩
      split at h
      · next hquote =>
        cases h
        refine ⟨by simp, fun fuel' behind hle => ?_⟩
        obtain ⟨n, rfl, -⟩ := hfuel fuel' hle
        rw [List.cons_append, stringBody, if_pos hquote]
      · next hquote =>
        split at h
        · next hback =>
          simp only [Option.bind_eq_bind, Option.bind_eq_some_iff, Option.some.injEq, Prod.mk.injEq] at h
          obtain ⟨⟨d, middle⟩, hd, ⟨value', last⟩, hbody, rfl, rfl⟩ := h
          obtain ⟨hlen, hbehind⟩ := local_unescape hd
          obtain ⟨hlen', hbehind'⟩ := ih hbody
          simp only at hlen'
          refine ⟨by simp only [List.length_cons]; omega, fun fuel' behind hle => ?_⟩
          obtain ⟨n, rfl, hn⟩ := hfuel fuel' hle
          rw [List.cons_append, stringBody, if_neg hquote, if_pos hback, hbehind]
          simp only [Option.bind_eq_bind, Option.bind_some]
          rw [hbehind' n behind (show middle.length ≤ n by omega)]
          rfl
        · next hback =>
          split at h
          · cases h
          · next hcontrol =>
            simp only [Option.bind_eq_bind, Option.bind_eq_some_iff, Option.some.injEq, Prod.mk.injEq] at h
            obtain ⟨⟨value', last⟩, hbody, rfl, rfl⟩ := h
            obtain ⟨hlen, hbehind⟩ := ih hbody
            refine ⟨by simp only [List.length_cons]; omega, fun fuel' behind hle => ?_⟩
            obtain ⟨n, rfl, hn⟩ := hfuel fuel' hle
            rw [List.cons_append, stringBody, if_neg hquote, if_neg hback, if_neg hcontrol]
            rw [hbehind n behind hn]
            rfl

theorem local_parseString : Local parseString := by
  intro text value rest h
  unfold parseString at h
  split at h
  · next tail =>
    obtain ⟨hlen, hbehind⟩ := stringBody_takes h
    refine ⟨by simp only [List.length_cons]; omega, fun behind => ?_⟩
    rw [List.cons_append, parseString]
    exact hbehind _ behind (by simp)
  · cases h

theorem local_parseName : Local parseName := by
  intro text value rest h
  unfold parseName at h
  rw [Option.bind_eq_bind, Option.bind_eq_some_iff] at h
  obtain ⟨⟨name, tail⟩, hstring, h⟩ := h
  obtain ⟨hlen, hbehind⟩ := local_parseString hstring
  simp only at h
  split at h
  · next last hcolon =>
    cases h
    have hspace := length_skipSpace text
    have hspace' := length_skipSpace tail
    rw [hcolon, List.length_cons] at hspace'
    refine ⟨by omega, fun behind => ?_⟩
    rw [parseName, skipSpace_append (by rintro hnil; rw [hnil] at hlen; cases hlen), hbehind]
    simp only [Option.bind_eq_bind, Option.bind_some, skipSpace_cons_append hcolon]
  · cases h

end Strings

/-! ## 2. Values -/

/-- The same of a reader with fuel: any fuel that covers the text will do, in front of what ends a number. -/
def Takes {α : Type} (read : Nat → List Char → Option (α × List Char)) (fuel : Nat) : Prop :=
  ∀ {text : List Char} {value : α} {rest : List Char}, read fuel text = some (value, rest) →
    rest.length < text.length ∧
      ∀ fuel' behind, text.length ≤ fuel' → Ends behind → read fuel' (text ++ behind) = some (value, rest ++ behind)

/-- The members of an object behind its opening brace. -/
def objectBody (fuel depth : Nat) (text : List Char) : Option (Members × List Char) :=
  if (skipSpace text).head? = some '\x7d' then some ([], (skipSpace text).tail)
  else do
    let (name, rest) ← parseName text
    let (value, rest) ← parseValue fuel depth rest
    let (members, rest) ← parseMembers fuel depth rest
    some ((name, value) :: members, rest)

/-- The values of an array behind its opening bracket. -/
def arrayBody (fuel depth : Nat) (text : List Char) : Option (List Json × List Char) :=
  if (skipSpace text).head? = some ']' then some ([], (skipSpace text).tail)
  else do
    let (value, rest) ← parseValue fuel depth text
    let (values, rest) ← parseRest fuel depth rest
    some (value :: values, rest)

section Values

variable {text rest behind : List Char} {c : Char} {v : Json} {fuel depth : Nat}

theorem parseValue_nil (h : skipSpace text = []) : parseValue fuel depth text = none := by
  cases fuel with
  | zero => rw [parseValue]
  | succ fuel => rw [parseValue, h]

theorem isSpace_of_skipSpace (h : skipSpace text = c :: rest) : isSpace c = false := by
  rw [skipSpace] at h
  have hc := List.head_dropWhile_not isSpace (l := text) (by simp [h])
  simpa only [h, List.head_cons] using hc

theorem skipSpace_idem (text : List Char) : skipSpace (skipSpace text) = skipSpace text := by
  cases hstart : skipSpace text with
  | nil => rfl
  | cons c tail => exact skipSpace_cons (isSpace_of_skipSpace hstart)

theorem parseValue_skip (fuel depth : Nat) (text : List Char) :
    parseValue fuel depth (skipSpace text) = parseValue fuel depth text := by
  cases fuel with
  | zero => rw [parseValue, parseValue]
  | succ fuel => rw [parseValue, parseValue, skipSpace_idem]

theorem parseValue_string (fuel depth : Nat) (text : List Char) :
    parseValue (fuel + 1) depth ('"' :: text) =
      (stringBody text.length text).map fun (text, rest) => (.string text, rest) := by
  rw [parseValue, skipSpace_cons (by decide)]
  simp only [if_true]

theorem parseValue_atom (fuel depth : Nat) (hspace : isSpace c = false) (hquote : c ≠ '"') (hopen : c ≠ '[')
    (hbrace : c ≠ '\x7b') (text : List Char) :
    parseValue (fuel + 1) depth (c :: text) = parseAtom (c :: text) := by
  rw [parseValue, skipSpace_cons hspace]
  simp only [if_neg hquote, if_neg hopen, if_neg hbrace]

theorem parseValue_zero_depth {fuel : Nat} (hc : c = '[' ∨ c = '\x7b') : parseValue fuel 0 (c :: rest) = none := by
  cases fuel with
  | zero => rw [parseValue]
  | succ fuel => obtain rfl | rfl := hc <;> rw [parseValue, skipSpace_cons (by decide)] <;> rfl

/-- No value starts with a bracket that closes. -/
theorem parseValue_close (h : (skipSpace text).head? = some ']') : parseValue fuel depth text = none := by
  obtain ⟨tail, htail⟩ := List.head?_eq_some_iff.mp h
  cases fuel with
  | zero => rw [parseValue]
  | succ fuel =>
    rw [← parseValue_skip, htail, parseValue_atom fuel depth (by decide) (by decide) (by decide) (by decide)]
    rfl

/-- A name starts with a quote. -/
theorem skipSpace_of_parseName {name : List Char} (h : parseName text = some (name, rest)) :
    skipSpace text ≠ [] ∧ (skipSpace text).head? = some '"' := by
  unfold parseName parseString at h
  split at h
  · next heq => simp [heq]
  · cases h

theorem parseValue_object (fuel depth : Nat) (text : List Char) :
    parseValue (fuel + 1) (depth + 1) ('\x7b' :: text) =
      (objectBody fuel depth text).map fun (members, rest) => (.object members.collect, rest) := by
  rw [parseValue, skipSpace_cons (by decide)]
  simp only [Char.reduceEq, if_false, if_true, Nat.add_one_ne_zero, Nat.add_sub_cancel, objectBody]
  split
  · rfl
  · simp only [Option.bind_eq_bind, Option.map_bind, Function.comp_def, Option.map_some]

theorem parseValue_array (fuel depth : Nat) (text : List Char) :
    parseValue (fuel + 1) (depth + 1) ('[' :: text) =
      (arrayBody fuel depth text).map fun (values, rest) => (.array values, rest) := by
  rw [parseValue, skipSpace_cons (by decide)]
  simp only [Char.reduceEq, if_false, if_true, Nat.add_one_ne_zero, Nat.add_sub_cancel, arrayBody]
  split
  · rfl
  · simp only [Option.bind_eq_bind, Option.map_bind, Function.comp_def, Option.map_some]

/-- What is left of a number does not go on with it. -/
theorem ends_dropWhile (text : List Char) (h : Ends behind) : Ends (text.dropWhile isNumberChar ++ behind) := by
  cases hrest : text.dropWhile isNumberChar with
  | nil => exact h
  | cons c tail =>
    have hc := List.head_dropWhile_not isNumberChar (l := text) (by simp [hrest])
    simp only [hrest, List.head_cons] at hc
    exact ends_cons hc

theorem parseAtom_word {word : List Char} (hne : word ≠ []) (hword : ∀ tail, parseAtom (word ++ tail) = some (v, tail))
    (h : word <+: text) :
    parseAtom text = some (v, text.drop word.length) ∧ (text.drop word.length).length < text.length ∧
      ∀ behind, parseAtom (text ++ behind) = some (v, text.drop word.length ++ behind) := by
  obtain ⟨tail, rfl⟩ := h
  have hpos := List.length_pos_iff.mpr hne
  rw [List.drop_left, List.length_append]
  exact ⟨hword tail, by omega, fun behind => by rw [List.append_assoc]; exact hword _⟩

/-- The words, and else a number. -/
theorem parseAtom_cases (h : parseAtom text = some (v, rest)) :
    (∃ word ≠ [], word <+: text ∧ ∃ w, ∀ tail, parseAtom (word ++ tail) = some (w, tail)) ∨
      isNumber (text.takeWhile isNumberChar) = true ∧ v = .number (text.takeWhile isNumberChar) ∧
        rest = text.dropWhile isNumberChar := by
  unfold parseAtom at h
  repeat' split at h
  next hnull => exact .inl ⟨"null".toList, by decide, List.isPrefixOf_iff_prefix.mp hnull, _, fun _ => rfl⟩
  next htrue => exact .inl ⟨"true".toList, by decide, List.isPrefixOf_iff_prefix.mp htrue, _, fun _ => rfl⟩
  next hfalse => exact .inl ⟨"false".toList, by decide, List.isPrefixOf_iff_prefix.mp hfalse, _, fun _ => rfl⟩
  next hnumber =>
    cases h
    exact .inr ⟨hnumber, rfl, rfl⟩
  next => cases h

theorem parseAtom_takes (h : parseAtom text = some (v, rest)) :
    rest.length < text.length ∧ ∀ behind, Ends behind → parseAtom (text ++ behind) = some (v, rest ++ behind) := by
  obtain ⟨word, hne, hpre, w, hword⟩ | ⟨hnumber, rfl, rfl⟩ := parseAtom_cases h
  · obtain ⟨heq, hlen, hbehind⟩ := parseAtom_word hne hword hpre
    rw [h] at heq
    cases heq
    exact ⟨hlen, fun behind _ => hbehind behind⟩
  · have hsplit := List.takeWhile_append_dropWhile (p := isNumberChar) (l := text)
    obtain ⟨c, tail, hstart, -⟩ := starts_number hnumber
    refine ⟨?_, fun behind hbehind => ?_⟩
    · have hlen := congrArg List.length hsplit
      rw [List.length_append, hstart, List.length_cons] at hlen
      omega
    · have hatom := parseAtom_number hnumber _ (ends_dropWhile text hbehind)
      rwa [← List.append_assoc, hsplit] at hatom

theorem takes_arrayBody (hvalue : Takes (parseValue · depth) fuel) (hrest : Takes (parseRest · depth) fuel) :
    Takes (arrayBody · depth) fuel := by
  intro text value rest h
  simp only [arrayBody] at h ⊢
  have hspace := length_skipSpace text
  split at h
  · next hclose =>
    cases h
    obtain ⟨tail, htail⟩ := List.head?_eq_some_iff.mp hclose
    rw [htail, List.length_cons] at hspace
    refine ⟨by rw [htail, List.tail_cons]; omega, fun fuel' behind _ _ => ?_⟩
    rw [skipSpace_cons_append htail, htail]
    rfl
  · next hclose =>
    simp only [Option.bind_eq_bind, Option.bind_eq_some_iff, Option.some.injEq, Prod.mk.injEq] at h
    obtain ⟨⟨v, middle⟩, hv, ⟨vs, last⟩, hvs, rfl, rfl⟩ := h
    obtain ⟨hlen, hbehind⟩ := hvalue hv
    obtain ⟨hlen', hbehind'⟩ := hrest hvs
    simp only at hlen' hbehind'
    refine ⟨show last.length < text.length by omega, fun fuel' behind hle hends => ?_⟩
    have hopen : skipSpace text ≠ [] := by
      intro hnil
      rw [parseValue_nil hnil] at hv
      cases hv
    rw [if_neg (by rw [skipSpace_append hopen, List.head?_append_of_ne_nil _ hopen]; exact hclose)]
    simp only [Option.bind_eq_bind, hbehind fuel' behind hle hends, Option.bind_some,
      hbehind' fuel' behind (by omega) hends]

theorem takes_objectBody (hvalue : Takes (parseValue · depth) fuel) (hmembers : Takes (parseMembers · depth) fuel) :
    Takes (objectBody · depth) fuel := by
  intro text value rest h
  simp only [objectBody] at h ⊢
  have hspace := length_skipSpace text
  split at h
  · next hclose =>
    cases h
    obtain ⟨tail, htail⟩ := List.head?_eq_some_iff.mp hclose
    rw [htail, List.length_cons] at hspace
    refine ⟨by rw [htail, List.tail_cons]; omega, fun fuel' behind _ _ => ?_⟩
    rw [skipSpace_cons_append htail, htail]
    rfl
  · next hclose =>
    simp only [Option.bind_eq_bind, Option.bind_eq_some_iff, Option.some.injEq, Prod.mk.injEq] at h
    obtain ⟨⟨name, tail⟩, hn, ⟨v, middle⟩, hv, ⟨ms, last⟩, hms, rfl, rfl⟩ := h
    obtain ⟨hlen, hbehind⟩ := local_parseName hn
    obtain ⟨hlen', hbehind'⟩ := hvalue hv
    obtain ⟨hlen'', hbehind''⟩ := hmembers hms
    simp only at hlen' hbehind' hlen'' hbehind''
    refine ⟨show last.length < text.length by omega, fun fuel' behind hle hends => ?_⟩
    have hopen := (skipSpace_of_parseName hn).1
    rw [if_neg (by rw [skipSpace_append hopen, List.head?_append_of_ne_nil _ hopen]; exact hclose), hbehind behind]
    simp only [Option.bind_eq_bind, Option.bind_some, hbehind' fuel' behind (by omega) hends,
      hbehind'' fuel' behind (by omega) hends]

theorem takes_parseValue (harray : ∀ depth, Takes (arrayBody · depth) fuel)
    (hobject : ∀ depth, Takes (objectBody · depth) fuel) : Takes (parseValue · depth) (fuel + 1) := by
  intro text value rest h
  simp only at h ⊢
  cases hstart : skipSpace text with
  | nil =>
    rw [parseValue_nil hstart] at h
    cases h
  | cons c tail =>
    have hspace := length_skipSpace text
    rw [hstart, List.length_cons] at hspace
    rw [← parseValue_skip, hstart] at h
    suffices hsuff : rest.length ≤ tail.length ∧ ∀ n behind, tail.length ≤ n → Ends behind →
        parseValue (n + 1) depth (c :: (tail ++ behind)) = some (value, rest ++ behind) by
      refine ⟨by omega, fun fuel' behind hle hends => ?_⟩
      obtain ⟨n, rfl⟩ : ∃ n, fuel' = n + 1 := ⟨fuel' - 1, by omega⟩
      rw [← parseValue_skip, skipSpace_cons_append hstart]
      exact hsuff.2 n behind (by omega) hends
    have hc := isSpace_of_skipSpace hstart
    by_cases hquote : c = '"'
    · subst hquote
      rw [parseValue_string, Option.map_eq_some_iff] at h
      obtain ⟨⟨string, last⟩, hbody, heq⟩ := h
      cases heq
      obtain ⟨hlen, hbehind⟩ := stringBody_takes hbody
      refine ⟨by omega, fun n behind _ _ => ?_⟩
      rw [parseValue_string, hbehind _ behind (by simp)]
      rfl
    by_cases hopen : c = '['
    · subst hopen
      cases depth with
      | zero =>
        rw [parseValue_zero_depth (.inl rfl)] at h
        cases h
      | succ depth =>
        rw [parseValue_array, Option.map_eq_some_iff] at h
        obtain ⟨⟨values, last⟩, hbody, heq⟩ := h
        cases heq
        obtain ⟨hlen, hbehind⟩ := harray depth hbody
        simp only at hbehind
        refine ⟨by omega, fun n behind hle hends => ?_⟩
        rw [parseValue_array, hbehind n behind hle hends]
        rfl
    by_cases hbrace : c = '\x7b'
    · subst hbrace
      cases depth with
      | zero =>
        rw [parseValue_zero_depth (.inr rfl)] at h
        cases h
      | succ depth =>
        rw [parseValue_object, Option.map_eq_some_iff] at h
        obtain ⟨⟨members, last⟩, hbody, heq⟩ := h
        cases heq
        obtain ⟨hlen, hbehind⟩ := hobject depth hbody
        simp only at hbehind
        refine ⟨by omega, fun n behind hle hends => ?_⟩
        rw [parseValue_object, hbehind n behind hle hends]
        rfl
    rw [parseValue_atom fuel depth hc hquote hopen hbrace] at h
    obtain ⟨hlen, hbehind⟩ := parseAtom_takes h
    rw [List.length_cons] at hlen
    refine ⟨by omega, fun n behind _ hends => ?_⟩
    rw [parseValue_atom n depth hc hquote hopen hbrace]
    exact hbehind behind hends

theorem takes_parseRest (hvalue : Takes (parseValue · depth) fuel) (hrest : Takes (parseRest · depth) fuel) :
    Takes (parseRest · depth) (fuel + 1) := by
  intro text value rest h
  simp only [parseRest] at h ⊢
  have hspace := length_skipSpace text
  split at h
  · cases h
  · next c tail hstart =>
    rw [hstart, List.length_cons] at hspace
    have hfuel : ∀ fuel' : Nat, text.length ≤ fuel' → ∃ n, fuel' = n + 1 ∧ tail.length ≤ n := fun fuel' hle =>
      ⟨fuel' - 1, by omega, by omega⟩
    split at h
    · next hclose =>
      cases h
      refine ⟨by omega, fun fuel' behind hle _ => ?_⟩
      obtain ⟨n, rfl, -⟩ := hfuel fuel' hle
      rw [parseRest, skipSpace_cons_append hstart]
      simp only [if_pos hclose]
    · next hclose =>
      split at h
      · next hcomma =>
        simp only [Option.bind_eq_bind, Option.bind_eq_some_iff, Option.some.injEq, Prod.mk.injEq] at h
        obtain ⟨⟨v, middle⟩, hv, ⟨vs, last⟩, hvs, rfl, rfl⟩ := h
        obtain ⟨hlen, hbehind⟩ := hvalue hv
        obtain ⟨hlen', hbehind'⟩ := hrest hvs
        simp only at hlen' hbehind'
        refine ⟨show last.length < text.length by omega, fun fuel' behind hle hends => ?_⟩
        obtain ⟨n, rfl, hn⟩ := hfuel fuel' hle
        rw [parseRest, skipSpace_cons_append hstart]
        simp only [if_neg hclose, if_pos hcomma, Option.bind_eq_bind, hbehind n behind hn hends, Option.bind_some,
          hbehind' n behind (by omega) hends]
      · cases h

theorem takes_parseMembers (hvalue : Takes (parseValue · depth) fuel) (hmembers : Takes (parseMembers · depth) fuel) :
    Takes (parseMembers · depth) (fuel + 1) := by
  intro text value rest h
  simp only [parseMembers] at h ⊢
  have hspace := length_skipSpace text
  split at h
  · cases h
  · next c tail hstart =>
    rw [hstart, List.length_cons] at hspace
    have hfuel : ∀ fuel' : Nat, text.length ≤ fuel' → ∃ n, fuel' = n + 1 ∧ tail.length ≤ n := fun fuel' hle =>
      ⟨fuel' - 1, by omega, by omega⟩
    split at h
    · next hclose =>
      cases h
      refine ⟨by omega, fun fuel' behind hle _ => ?_⟩
      obtain ⟨n, rfl, -⟩ := hfuel fuel' hle
      rw [parseMembers, skipSpace_cons_append hstart]
      simp only [if_pos hclose]
    · next hclose =>
      split at h
      · next hcomma =>
        simp only [Option.bind_eq_bind, Option.bind_eq_some_iff, Option.some.injEq, Prod.mk.injEq] at h
        obtain ⟨⟨name, first⟩, hn, ⟨v, middle⟩, hv, ⟨ms, last⟩, hms, rfl, rfl⟩ := h
        obtain ⟨hlen, hbehind⟩ := local_parseName hn
        obtain ⟨hlen', hbehind'⟩ := hvalue hv
        obtain ⟨hlen'', hbehind''⟩ := hmembers hms
        simp only at hlen' hbehind' hlen'' hbehind''
        refine ⟨show last.length < text.length by omega, fun fuel' behind hle hends => ?_⟩
        obtain ⟨n, rfl, hfit⟩ := hfuel fuel' hle
        rw [parseMembers, skipSpace_cons_append hstart]
        simp only [if_neg hclose, if_pos hcomma, Option.bind_eq_bind, hbehind behind, Option.bind_some,
          hbehind' n behind (by omega) hends, hbehind'' n behind (by omega) hends]
      · cases h

/-- **The readers look no further than what they take**: values, what follows a value, and members. -/
theorem parse_takes (fuel : Nat) : (∀ depth, Takes (parseValue · depth) fuel) ∧
    (∀ depth, Takes (parseRest · depth) fuel) ∧ ∀ depth, Takes (parseMembers · depth) fuel := by
  induction fuel with
  | zero =>
    refine ⟨fun depth _ _ _ h => ?_, fun depth _ _ _ h => ?_, fun depth _ _ _ h => ?_⟩
    · simp only [parseValue, reduceCtorEq] at h
    · simp only [parseRest, reduceCtorEq] at h
    · simp only [parseMembers, reduceCtorEq] at h
  | succ fuel ih =>
    obtain ⟨hvalue, hrest, hmembers⟩ := ih
    refine ⟨fun depth => ?_, fun depth => takes_parseRest (hvalue depth) (hrest depth),
      fun depth => takes_parseMembers (hvalue depth) (hmembers depth)⟩
    exact takes_parseValue (fun d => takes_arrayBody (hvalue d) (hrest d))
      fun d => takes_objectBody (hvalue d) (hmembers d)

end Values

/-! ## 3. Whole texts in larger ones -/

/-- The members of the object that a text is, as they stand in it: a name may stand twice. -/
def readMembers (limit : Nat) (text : List Char) : Option Members :=
  match skipSpace text, limit with
  | '\x7b' :: rest, limit + 1 =>
    match objectBody rest.length limit rest with
    | some (members, rest) => if skipSpace rest = [] then some members else none
    | none => none
  | _, _ => none

section Texts

variable {limit : Nat} {text rest behind : List Char} {c : Char} {members : Members} {v : Json}

theorem skipSpace_spaces (h : skipSpace text = []) : skipSpace (text ++ behind) = skipSpace behind := by
  rw [skipSpace] at h
  rw [skipSpace, List.dropWhile_append, h, List.isEmpty_nil, if_pos rfl]
  rfl

/-- A text that reads as a value reads as it in front of any text that does not go on with a number. -/
theorem parseValue_of_parse (h : parse limit text = some v) : ∃ spaces, skipSpace spaces = [] ∧
    ∀ fuel behind, text.length ≤ fuel → Ends behind →
      parseValue fuel limit (text ++ behind) = some (v, spaces ++ behind) := by
  unfold parse at h
  split at h
  · next value spaces hvalue =>
    split at h
    · next hspaces =>
      cases h
      exact ⟨spaces, hspaces, ((parse_takes _).1 limit hvalue).2⟩
    · cases h
  · cases h

theorem takes_object (fuel depth : Nat) : Takes (objectBody · depth) fuel :=
  takes_objectBody ((parse_takes fuel).1 depth) ((parse_takes fuel).2.2 depth)

theorem readMembers_of_body {depth : Nat} {spaces : List Char} (hstart : skipSpace text = '\x7b' :: rest)
    (hbody : objectBody rest.length depth rest = some (members, spaces)) (hspaces : skipSpace spaces = []) :
    readMembers (depth + 1) text = some members := by
  simp only [readMembers, hstart, hbody, if_pos hspaces]

theorem readMembers_eq_some (h : readMembers limit text = some members) : ∃ rest spaces depth,
    limit = depth + 1 ∧ skipSpace text = '\x7b' :: rest ∧
      objectBody rest.length depth rest = some (members, spaces) ∧ skipSpace spaces = [] := by
  unfold readMembers at h
  split at h
  · next rest depth hstart =>
    split at h
    · next ms spaces hbody =>
      split at h
      · next hspaces =>
        cases h
        exact ⟨rest, spaces, depth, rfl, hstart, hbody, hspaces⟩
      · cases h
    · cases h
  · cases h

/-- An object is read from a brace and a body. -/
theorem parseValue_object_inv {fuel : Nat} {map : Members}
    (h : parseValue (fuel + 1) limit text = some (.object map, rest)) :
    ∃ tail depth members, limit = depth + 1 ∧ skipSpace text = '\x7b' :: tail ∧
      objectBody fuel depth tail = some (members, rest) ∧ members.collect = map := by
  cases hstart : skipSpace text with
  | nil =>
    rw [parseValue_nil hstart] at h
    cases h
  | cons c tail =>
    rw [← parseValue_skip, hstart] at h
    by_cases hbrace : c = '\x7b'
    · subst hbrace
      cases limit with
      | zero =>
        rw [parseValue_zero_depth (.inr rfl)] at h
        cases h
      | succ depth =>
        rw [parseValue_object, Option.map_eq_some_iff] at h
        obtain ⟨⟨members, last⟩, hbody, heq⟩ := h
        cases heq
        exact ⟨tail, depth, members, rfl, rfl, hbody, rfl⟩
    exfalso
    by_cases hquote : c = '"'
    · rw [hquote, parseValue_string] at h
      simp at h
    by_cases hopen : c = '['
    · subst hopen
      cases limit with
      | zero =>
        rw [parseValue_zero_depth (.inl rfl)] at h
        cases h
      | succ depth =>
        rw [parseValue_array] at h
        simp at h
    rw [parseValue_atom fuel limit (isSpace_of_skipSpace hstart) hquote hopen hbrace, parseAtom] at h
    repeat' split at h
    all_goals cases h

/-- **The object that is read is the map of its text's members.** -/
theorem parse_object_iff {map : Members} :
    parse limit text = some (.object map) ↔
      ∃ members, readMembers limit text = some members ∧ members.collect = map := by
  have hlen := length_skipSpace text
  constructor
  · intro h
    unfold parse at h
    split at h
    · next value spaces hvalue =>
      split at h
      · next hspaces =>
        cases h
        obtain ⟨n, hn⟩ : ∃ n, text.length = n + 1 := by
          cases hzero : text.length with
          | zero => simp only [hzero, parseValue, reduceCtorEq] at hvalue
          | succ n => exact ⟨n, rfl⟩
        rw [hn] at hvalue
        obtain ⟨tail, depth, members, rfl, hstart, hbody, rfl⟩ := parseValue_object_inv hvalue
        obtain ⟨-, hbehind⟩ := takes_object _ _ hbody
        have hfit := hbehind tail.length [] (Nat.le_refl _) ends_nil
        simp only [List.append_nil] at hfit
        exact ⟨members, readMembers_of_body hstart hfit hspaces, rfl⟩
      · cases h
    · cases h
  · rintro ⟨members, h, rfl⟩
    obtain ⟨rest, spaces, depth, rfl, hstart, hbody, hspaces⟩ := readMembers_eq_some h
    rw [hstart, List.length_cons] at hlen
    obtain ⟨n, hn⟩ : ∃ n, text.length = n + 1 := ⟨text.length - 1, by omega⟩
    obtain ⟨-, hbehind⟩ := takes_object _ _ hbody
    have hfit := hbehind n [] (by omega) ends_nil
    simp only [List.append_nil] at hfit
    rw [parse, hn, ← parseValue_skip, hstart, parseValue_object, hfit]
    simp only [Option.map_some, if_pos hspaces]

/-- A number's digits are a number's text. -/
theorem isNumber_toDigits (n : Nat) : isNumber (Nat.toDigits 10 n) = true := by
  have hdigit : ∀ c ∈ Nat.toDigits 10 n, c.isDigit = true := fun c hc =>
    Nat.isDigit_of_mem_toDigits (by decide) (by decide) hc
  have hall : (Nat.toDigits 10 n).all isNumberChar = true :=
    List.all_eq_true.mpr fun c hc => by simp [isNumberChar, hdigit c hc]
  have hsign : (Nat.toDigits 10 n).head? ≠ some '-' := fun hhead => by
    have hc := hdigit '-' (List.mem_of_head? hhead)
    cases hc
  have htake : (Nat.toDigits 10 n).takeWhile Char.isDigit = Nat.toDigits 10 n :=
    List.takeWhile_eq_self_iff.mpr hdigit
  have hdrop : (Nat.toDigits 10 n).dropWhile Char.isDigit = [] := List.dropWhile_eq_nil_iff.mpr hdigit
  have hlead : Nat.toDigits 10 n = ['0'] ∨ (Nat.toDigits 10 n ≠ [] ∧ (Nat.toDigits 10 n).head? ≠ some '0') := by
    obtain rfl | hpos := Nat.eq_zero_or_pos n
    · exact .inl rfl
    · exact .inr ⟨Nat.toDigits_ne_nil, head_toDigits hpos⟩
  rw [isNumber, hall, if_neg hsign, isUnsigned, htake, hdrop]
  simpa [isFraction, isExponent] using hlead

/-- What an object's members are behind others: a comma stands between, if there are any. -/
def separated (members : List Char) : List Char :=
  if (skipSpace members).head? = some '\x7d' then members else ',' :: members

theorem ends_of_skipSpace (hstart : skipSpace text = c :: rest) (hc : isNumberChar c = false) : Ends text := by
  cases text with
  | nil => cases hstart
  | cons d tail =>
    refine ends_cons ?_
    by_cases hd : isSpace d = true
    · simp only [isSpace, Bool.or_eq_true, decide_eq_true_eq] at hd
      obtain ((rfl | rfl) | rfl) | rfl := hd <;> decide
    · rw [skipSpace_cons (by simpa using hd)] at hstart
      cases hstart
      exact hc

theorem length_separated (text : List Char) : text.length ≤ (separated text).length := by
  unfold separated
  split
  · exact Nat.le_refl _
  · exact Nat.le_succ _

theorem ends_separated (text : List Char) : Ends (separated text) := by
  unfold separated
  split
  · next hclose =>
    obtain ⟨tail, htail⟩ := List.head?_eq_some_iff.mp hclose
    exact ends_of_skipSpace htail (by decide)
  · exact ends_cons (by decide)

/-- **Behind other members, an object's own are read as they are behind its brace.** -/
theorem parseMembers_separated (fuel depth : Nat) (text : List Char) :
    parseMembers (fuel + 1) depth (separated text) = objectBody fuel depth text := by
  unfold separated objectBody
  split
  · next hclose =>
    obtain ⟨tail, htail⟩ := List.head?_eq_some_iff.mp hclose
    rw [parseMembers, htail]
    rfl
  · rw [parseMembers, skipSpace_cons (by decide)]
    simp only [Char.reduceEq, if_false, if_true]

theorem separated_quote (spell : Char → List Char) (name : List Char) :
    separated (quote spell name ++ rest) = ',' :: (quote spell name ++ rest) := by
  rw [separated, if_neg (by simp [quote_append, skipSpace_cons (show isSpace '"' = false by decide)])]

/-- A member in front is read first. -/
theorem objectBody_member {spell : Char → List Char} (hs : Spelling spell) {name : List Char} {fuel depth : Nat}
    (hvalue : parseValue fuel depth text = some (v, rest)) :
    objectBody fuel depth (quote spell name ++ ':' :: text) =
      (parseMembers fuel depth rest).map fun (members, rest) => ((name, v) :: members, rest) := by
  unfold objectBody
  rw [if_neg (by simp [quote_append, skipSpace_cons (show isSpace '"' = false by decide)]), parseName_quote hs]
  simp only [Option.bind_eq_bind, Option.bind_some]
  rw [hvalue]
  simp only [Option.bind_some]
  cases parseMembers fuel depth rest <;> rfl

theorem ends_texts (texts : List (List Char)) : Ends (texts.flatMap (',' :: ·) ++ ']' :: rest) := by
  cases texts with
  | nil => exact ends_cons (by decide)
  | cons text texts => exact ends_cons (by decide)

/-- What stands between two texts of an array: a comma in front of each but the first. -/
theorem parseRest_texts {depth : Nat} {texts : List (List Char)} {values : List Json}
    (h : List.Forall₂ (fun text v => parse depth text = some v) texts values) {fuel : Nat} {spaces : List Char}
    (hspaces : skipSpace spaces = []) (hfuel : (texts.flatMap (',' :: ·)).length < fuel) :
    parseRest fuel depth (spaces ++ (texts.flatMap (',' :: ·) ++ ']' :: rest)) = some (values, rest) := by
  induction h generalizing fuel spaces with
  | nil =>
    obtain ⟨n, rfl⟩ : ∃ n, fuel = n + 1 := ⟨fuel - 1, by omega⟩
    rw [parseRest, skipSpace_spaces hspaces, List.flatMap_nil, List.nil_append, skipSpace_cons (by decide)]
    rfl
  | @cons text v texts values hv _ ih =>
    obtain ⟨n, rfl⟩ : ∃ n, fuel = n + 1 := ⟨fuel - 1, by omega⟩
    rw [List.flatMap_cons, List.length_append, List.length_cons] at hfuel
    obtain ⟨spaces', hspaces', hread⟩ := parseValue_of_parse hv
    rw [parseRest, skipSpace_spaces hspaces, List.flatMap_cons, List.append_assoc, List.cons_append,
      skipSpace_cons (by decide)]
    simp only [Char.reduceEq, if_false, if_true, Option.bind_eq_bind, hread n _ (by omega) (ends_texts texts),
      Option.bind_some, ih hspaces' (show _ < n by omega)]

/-- The texts with commas between them. -/
def joined : List (List Char) → List Char
  | [] => []
  | text :: texts => text ++ texts.flatMap (',' :: ·)

/-- **An array put together from texts is read as their values.** -/
theorem arrayBody_texts {depth : Nat} {texts : List (List Char)} {values : List Json}
    (h : List.Forall₂ (fun text v => parse depth text = some v) texts values) {fuel : Nat}
    (hfuel : (joined texts).length < fuel) :
    arrayBody fuel depth (joined texts ++ ']' :: rest) = some (values, rest) := by
  cases h with
  | nil => rfl
  | @cons text v texts values hv hrest =>
    obtain ⟨spaces, hspaces, hread⟩ := parseValue_of_parse hv
    rw [joined, List.length_append] at hfuel
    rw [joined, List.append_assoc, arrayBody]
    have hopen : skipSpace text ≠ [] ∧ (skipSpace text).head? ≠ some ']' := by
      unfold parse at hv
      refine ⟨fun hnil => ?_, fun hclose => ?_⟩
      · rw [parseValue_nil hnil] at hv
        cases hv
      · rw [parseValue_close hclose] at hv
        cases hv
    rw [if_neg (by rw [skipSpace_append hopen.1, List.head?_append_of_ne_nil _ hopen.1]; exact hopen.2)]
    simp only [Option.bind_eq_bind, hread fuel _ (by omega) (ends_texts texts), Option.bind_some,
      parseRest_texts hrest hspaces (show _ < fuel by omega)]

/-- A member of a new name in front stays there. -/
theorem collect_cons {name : List Char} (h : name ∉ members.map (·.1)) :
    Members.collect ((name, v) :: members) = (name, v) :: members.collect := by
  have hgeneral : ∀ (rest map : Members), name ∉ rest.map (·.1) →
      rest.foldl (fun map m => Members.insert map m.1 m.2) ((name, v) :: map) =
        (name, v) :: rest.foldl (fun map m => Members.insert map m.1 m.2) map := by
    intro rest
    induction rest with
    | nil => intro map _; rfl
    | cons m rest ih =>
      intro map hnew
      rw [List.map_cons, List.mem_cons, not_or] at hnew
      have hinsert : Members.insert ((name, v) :: map) m.1 m.2 = (name, v) :: Members.insert map m.1 m.2 := by
        unfold Members.insert
        simp only [List.map_cons, List.mem_cons, Ne.symm hnew.1, false_or, if_neg hnew.1]
        split <;> rfl
      rw [List.foldl_cons, List.foldl_cons, hinsert, ih _ hnew.2]
  exact hgeneral members [] h

end Texts

end Json

end Lib
