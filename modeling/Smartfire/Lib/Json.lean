/-
  File:      Smartfire/Lib/Json.lean
  Subject:   JSON values, their compact text, and reading a text.

  * `Json`, `print` -- a value and its text, for any spelling of the characters of a string;
  * `parse` -- reading a text, with spaces and escapes, and a bound on the nesting;
  * `Spelling` -- a character's spelling is read as the character;
  * `parse_print` -- what is printed is read back.

  A number is its text, so `1.0` and `1e0` are two values and no number is out of range.
-/
import Mathlib.Data.List.Nodup
import Smartfire.Lib.Bytes
import Mathlib.Tactic.Common

namespace Lib

/-! ## 1. Values -/

inductive Json where
  | null
  | bool (b : Bool)
  | number (text : List Char)
  | string (text : List Char)
  | array (values : List Json)
  | object (members : List (List Char × Json))

abbrev Members := List (List Char × Json)

/-- The member of a name. -/
def Members.get (members : Members) (name : List Char) : Option Json := members.lookup name

/-- No name twice. -/
def Members.Distinct (members : Members) : Prop := (members.map (·.1)).Nodup

instance (members : Members) : Decidable members.Distinct := inferInstanceAs (Decidable (List.Nodup _))

/-- A map's `insert`: a name that is there keeps its place. -/
def Members.insert (members : Members) (name : List Char) (value : Json) : Members :=
  if name ∈ members.map (·.1) then members.map fun m => if m.1 = name then (name, value) else m
  else members ++ [(name, value)]

def Members.collect (members : Members) : Members := members.foldl (fun map m => map.insert m.1 m.2) []

namespace Json

/-- The value of an object's name. -/
def get : Json → List Char → Option Json
  | .object members, name => Members.get members name
  | _, _ => none

mutual
/-- How many arrays and objects stand in one another. -/
def depth : Json → Nat
  | .array values => depthAll values + 1
  | .object members => depthMembers members + 1
  | _ => 0

def depthAll : List Json → Nat
  | [] => 0
  | value :: rest => max (depth value) (depthAll rest)

def depthMembers : List (List Char × Json) → Nat
  | [] => 0
  | (_, value) :: rest => max (depth value) (depthMembers rest)
end

/-! ## 2. Numbers -/

def isNumberChar (c : Char) : Bool := c.isDigit || c = '-' || c = '+' || c = '.' || c = 'e' || c = 'E'

def isDigits (text : List Char) : Bool := text ≠ [] && text.all Char.isDigit

/-- Nothing, or an exponent. -/
def isExponent : List Char → Bool
  | [] => true
  | c :: rest => (c = 'e' || c = 'E') && isDigits (if rest.head? = some '+' ∨ rest.head? = some '-' then rest.tail else rest)

/-- Nothing, or a fraction and what is behind it. -/
def isFraction : List Char → Bool
  | '.' :: rest => rest.takeWhile Char.isDigit ≠ [] && isExponent (rest.dropWhile Char.isDigit)
  | rest => isExponent rest

def isUnsigned (text : List Char) : Bool :=
  let whole := text.takeWhile Char.isDigit
  (whole = ['0'] || (whole ≠ [] && whole.head? ≠ some '0')) && isFraction (text.dropWhile Char.isDigit)

/-- A number's text: no leading zero, digits on both sides of a point. -/
def isNumber (text : List Char) : Bool :=
  text.all isNumberChar && isUnsigned (if text.head? = some '-' then text.tail else text)

mutual
/-- Its numbers are numbers and no object has a name twice. -/
def wellFormed : Json → Bool
  | .number text => isNumber text
  | .array values => wellFormedAll values
  | .object members => decide (Members.Distinct members) && wellFormedMembers members
  | _ => true

def wellFormedAll : List Json → Bool
  | [] => true
  | value :: rest => wellFormed value && wellFormedAll rest

def wellFormedMembers : List (List Char × Json) → Bool
  | [] => true
  | (_, value) :: rest => wellFormed value && wellFormedMembers rest
end

/-! ## 3. Printing -/

section Printing

variable (spell : Char → List Char)

def quote (text : List Char) : List Char := '"' :: (text.flatMap spell ++ ['"'])

mutual
def print : Json → List Char
  | .null => "null".toList
  | .bool true => "true".toList
  | .bool false => "false".toList
  | .number text => text
  | .string text => quote spell text
  | .array [] => ['[', ']']
  | .array (value :: rest) => '[' :: (print value ++ printRest rest)
  | .object [] => ['{', '}']
  | .object ((name, value) :: rest) => '{' :: (quote spell name ++ ':' :: (print value ++ printMembers rest))

def printRest : List Json → List Char
  | [] => [']']
  | value :: rest => ',' :: (print value ++ printRest rest)

def printMembers : List (List Char × Json) → List Char
  | [] => ['}']
  | (name, value) :: rest => ',' :: (quote spell name ++ ':' :: (print value ++ printMembers rest))
end

end Printing

/-! ## 4. Reading -/

def isSpace (c : Char) : Bool := c = ' ' || c = '\t' || c = '\n' || c = '\r'

def skipSpace (text : List Char) : List Char := text.dropWhile isSpace

def hexValue (c : Char) : Option Nat :=
  if '0' ≤ c ∧ c ≤ '9' then some (c.toNat - 48)
  else if 'a' ≤ c ∧ c ≤ 'f' then some (c.toNat - 87)
  else if 'A' ≤ c ∧ c ≤ 'F' then some (c.toNat - 55)
  else none

def hex4 : List Char → Option (Nat × List Char)
  | a :: b :: c :: d :: rest => do
    let a ← hexValue a
    let b ← hexValue b
    let c ← hexValue c
    let d ← hexValue d
    some (4096 * a + 256 * b + 16 * c + d, rest)
  | _ => none

/-- A `\u` escape: half a pair of surrogates needs its other half. -/
def unicode (text : List Char) : Option (Char × List Char) := do
  let (high, rest) ← hex4 text
  if 0xD800 ≤ high ∧ high ≤ 0xDBFF then
    match rest with
    | '\\' :: 'u' :: rest =>
      let (low, rest) ← hex4 rest
      if 0xDC00 ≤ low ∧ low ≤ 0xDFFF then
        some (Char.ofNat (0x10000 + (high - 0xD800) * 0x400 + (low - 0xDC00)), rest)
      else none
    | _ => none
  else if 0xDC00 ≤ high ∧ high ≤ 0xDFFF then none
  else some (Char.ofNat high, rest)

/-- The character behind a backslash. -/
def unescape : List Char → Option (Char × List Char)
  | [] => none
  | c :: rest =>
    if c = '"' ∨ c = '\\' ∨ c = '/' then some (c, rest)
    else if c = 'b' then some (Char.ofNat 8, rest)
    else if c = 'f' then some (Char.ofNat 12, rest)
    else if c = 'n' then some ('\n', rest)
    else if c = 'r' then some ('\r', rest)
    else if c = 't' then some ('\t', rest)
    else if c = 'u' then unicode rest
    else none

/-- A string behind its opening quote. -/
def stringBody : Nat → List Char → Option (List Char × List Char)
  | 0, _ => none
  | _ + 1, [] => none
  | fuel + 1, c :: rest =>
    if c = '"' then some ([], rest)
    else if c = '\\' then do
      let (c, rest) ← unescape rest
      let (text, rest) ← stringBody fuel rest
      some (c :: text, rest)
    else if c.toNat < 32 then none
    else do
      let (text, rest) ← stringBody fuel rest
      some (c :: text, rest)

def parseString : List Char → Option (List Char × List Char)
  | '"' :: rest => stringBody rest.length rest
  | _ => none

/-- A name and its colon. -/
def parseName (text : List Char) : Option (List Char × List Char) := do
  let (name, rest) ← parseString (skipSpace text)
  match skipSpace rest with
  | ':' :: rest => some (name, rest)
  | _ => none

/-- A word or a number. -/
def parseAtom (text : List Char) : Option (Json × List Char) :=
  if "null".toList.isPrefixOf text then some (.null, text.drop 4)
  else if "true".toList.isPrefixOf text then some (.bool true, text.drop 4)
  else if "false".toList.isPrefixOf text then some (.bool false, text.drop 5)
  else if isNumber (text.takeWhile isNumberChar) then
    some (.number (text.takeWhile isNumberChar), text.dropWhile isNumberChar)
  else none

mutual
/-- A value, with the fuel and how deep it may still nest. -/
def parseValue : Nat → Nat → List Char → Option (Json × List Char)
  | 0, _, _ => none
  | fuel + 1, depth, text =>
    match skipSpace text with
    | [] => none
    | c :: rest =>
      if c = '"' then (stringBody rest.length rest).map fun (text, rest) => (.string text, rest)
      else if c = '[' then
        if depth = 0 then none
        else if (skipSpace rest).head? = some ']' then some (.array [], (skipSpace rest).tail)
        else do
          let (value, rest) ← parseValue fuel (depth - 1) rest
          let (values, rest) ← parseRest fuel (depth - 1) rest
          some (.array (value :: values), rest)
      else if c = '{' then
        if depth = 0 then none
        else if (skipSpace rest).head? = some '}' then some (.object [], (skipSpace rest).tail)
        else do
          let (name, rest) ← parseName rest
          let (value, rest) ← parseValue fuel (depth - 1) rest
          let (members, rest) ← parseMembers fuel (depth - 1) rest
          some (.object (Members.collect ((name, value) :: members)), rest)
      else parseAtom (c :: rest)

def parseRest : Nat → Nat → List Char → Option (List Json × List Char)
  | 0, _, _ => none
  | fuel + 1, depth, text =>
    match skipSpace text with
    | [] => none
    | c :: rest =>
      if c = ']' then some ([], rest)
      else if c = ',' then do
        let (value, rest) ← parseValue fuel depth rest
        let (values, rest) ← parseRest fuel depth rest
        some (value :: values, rest)
      else none

def parseMembers : Nat → Nat → List Char → Option (List (List Char × Json) × List Char)
  | 0, _, _ => none
  | fuel + 1, depth, text =>
    match skipSpace text with
    | [] => none
    | c :: rest =>
      if c = '}' then some ([], rest)
      else if c = ',' then do
        let (name, rest) ← parseName rest
        let (value, rest) ← parseValue fuel depth rest
        let (members, rest) ← parseMembers fuel depth rest
        some ((name, value) :: members, rest)
      else none
end

/-- A whole text, nested no deeper than allowed. -/
def parse (limit : Nat) (text : List Char) : Option Json :=
  match parseValue text.length limit text with
  | some (value, rest) => if skipSpace rest = [] then some value else none
  | none => none

/-! ## 5. What is printed is read back -/

section Characters

variable {c : Char} {text rest : List Char}

theorem skipSpace_cons (h : isSpace c = false) : skipSpace (c :: rest) = c :: rest := by
  rw [skipSpace, List.dropWhile_cons_of_neg (by simp [h])]

/-- A spelling that a string's reader takes for the character. -/
structure Spelling (spell : Char → List Char) : Prop where
  ne_nil : ∀ c, spell c ≠ []
  reads : ∀ c fuel rest, stringBody (fuel + 1) (spell c ++ rest) =
    (stringBody fuel rest).map fun (text, rest) => (c :: text, rest)

variable {spell : Char → List Char}

theorem Spelling.length_le (h : Spelling spell) (text : List Char) : text.length ≤ (text.flatMap spell).length := by
  induction text with
  | nil => exact Nat.le_refl _
  | cons c text ih =>
    have := List.length_pos_iff.mpr (h.ne_nil c)
    simp only [List.flatMap_cons, List.length_append, List.length_cons]
    omega

theorem stringBody_flatMap (h : Spelling spell) {fuel : Nat} (hfuel : text.length < fuel) :
    stringBody fuel (text.flatMap spell ++ '"' :: rest) = some (text, rest) := by
  induction text generalizing fuel with
  | nil =>
    obtain ⟨fuel, rfl⟩ := Nat.exists_eq_add_of_lt hfuel
    simp [stringBody]
  | cons c text ih =>
    obtain ⟨fuel, rfl⟩ : ∃ n, fuel = n + 1 := ⟨fuel - 1, by simp only [List.length_cons] at hfuel; omega⟩
    simp only [List.length_cons] at hfuel
    rw [List.flatMap_cons, List.append_assoc, h.reads, ih (by omega)]
    rfl

theorem stringBody_quoted (h : Spelling spell) :
    stringBody (text.flatMap spell ++ '"' :: rest).length (text.flatMap spell ++ '"' :: rest) = some (text, rest) := by
  refine stringBody_flatMap h ?_
  have := h.length_le text
  simp only [List.length_append, List.length_cons]
  omega

theorem quote_append : quote spell text ++ rest = '"' :: (text.flatMap spell ++ '"' :: rest) := by
  simp [quote]

theorem parseName_quote (h : Spelling spell) :
    parseName (quote spell text ++ ':' :: rest) = some (text, rest) := by
  rw [parseName, quote_append, skipSpace_cons (by decide), parseString, stringBody_quoted h]
  simp only [Option.bind_eq_bind, Option.bind_some]
  rw [skipSpace_cons (by decide)]
  rfl

/-- What stands behind a number ends it. -/
def Ends (rest : List Char) : Prop := ∀ c ∈ rest.head?, isNumberChar c = false

theorem ends_nil : Ends [] := by
  intro c hc
  cases hc

theorem ends_cons (h : isNumberChar c = false) : Ends (c :: rest) := by
  intro d hd
  cases hd
  exact h

theorem takeWhile_number (hall : text.all isNumberChar = true) (hrest : Ends rest) :
    (text ++ rest).takeWhile isNumberChar = text ∧ (text ++ rest).dropWhile isNumberChar = rest := by
  rw [List.all_eq_true] at hall
  rw [List.takeWhile_append_of_pos hall, List.dropWhile_append_of_pos hall]
  cases rest with
  | nil => exact ⟨List.append_nil text, rfl⟩
  | cons c rest =>
    have hc := hrest c rfl
    rw [List.takeWhile_cons_of_neg (by simp [hc]), List.dropWhile_cons_of_neg (by simp [hc])]
    exact ⟨List.append_nil text, rfl⟩

end Characters

section Values

variable {spell : Char → List Char} {text rest : List Char} {c : Char}

/-- How a value's text starts. -/
def Starts (c : Char) : Prop := c ∈ "ntf[\x7b-".toList ∨ c = '"' ∨ c.isDigit = true

theorem Starts.ne (h : Starts c) : isSpace c = false ∧ c ≠ ']' ∧ c ≠ '}' := by
  obtain h | rfl | h := h
  · exact forall_mem_of_all (P := fun c => isSpace c = false ∧ c ≠ ']' ∧ c ≠ '}') (by decide) c h
  · decide
  · refine ⟨?_, ?_, ?_⟩
    · simp only [isSpace, Bool.or_eq_false_iff, decide_eq_false_iff_not]
      refine ⟨⟨⟨?_, ?_⟩, ?_⟩, ?_⟩ <;> rintro rfl <;> cases h
    all_goals rintro rfl; cases h

theorem starts_number (h : isNumber text = true) : ∃ c tail, text = c :: tail ∧ (c = '-' ∨ c.isDigit = true) := by
  cases text with
  | nil => cases h
  | cons c tail =>
    refine ⟨c, tail, rfl, ?_⟩
    by_cases hc : c = '-'
    · exact .inl hc
    · rw [isNumber, Bool.and_eq_true] at h
      have hwhole := h.2
      rw [if_neg (by simpa using hc), isUnsigned, Bool.and_eq_true, Bool.or_eq_true] at hwhole
      by_contra hneg
      have hdigit : c.isDigit = false := by
        cases hd : c.isDigit with
        | false => rfl
        | true => exact absurd (.inr hd) hneg
      rw [List.takeWhile_cons_of_neg (by simp [hdigit])] at hwhole
      simp at hwhole

theorem starts_print (spell : Char → List Char) {v : Json} (h : v.wellFormed = true) : ∃ c tail, print spell v = c :: tail ∧ Starts c := by
  match v with
  | .null => exact ⟨'n', _, rfl, .inl (by decide)⟩
  | .bool true => exact ⟨'t', _, rfl, .inl (by decide)⟩
  | .bool false => exact ⟨'f', _, rfl, .inl (by decide)⟩
  | .string text => exact ⟨'"', _, rfl, .inr (.inl rfl)⟩
  | .array [] => exact ⟨'[', _, rfl, .inl (by decide)⟩
  | .array (_ :: _) => exact ⟨'[', _, rfl, .inl (by decide)⟩
  | .object [] => exact ⟨'{', _, rfl, .inl (by decide)⟩
  | .object ((_, _) :: _) => exact ⟨'{', _, rfl, .inl (by decide)⟩
  | .number text =>
    rw [wellFormed] at h
    obtain ⟨c, tail, rfl, hc⟩ := starts_number h
    refine ⟨c, tail, rfl, ?_⟩
    obtain rfl | hc := hc
    · exact .inl (by decide)
    · exact .inr (.inr hc)

theorem print_pos (spell : Char → List Char) {v : Json} (h : v.wellFormed = true) : 0 < (print spell v).length := by
  obtain ⟨c, tail, heq, -⟩ := starts_print spell h
  rw [heq]
  exact Nat.zero_lt_succ _

/-- A value's text is neither an end nor a space. -/
theorem skipSpace_print {v : Json} (h : v.wellFormed = true) :
    skipSpace (print spell v ++ rest) = print spell v ++ rest ∧
      (skipSpace (print spell v ++ rest)).head? ≠ some ']' := by
  obtain ⟨c, tail, heq, hc⟩ := starts_print spell h
  obtain ⟨hspace, hclose, -⟩ := hc.ne
  rw [heq, List.cons_append, skipSpace_cons hspace]
  exact ⟨rfl, by simpa using hclose⟩

theorem ends_printRest (values : List Json) : Ends (printRest spell values ++ rest) := by
  cases values with
  | nil => exact ends_cons (by decide)
  | cons value values => exact ends_cons (by decide)

theorem ends_printMembers (members : Members) : Ends (printMembers spell members ++ rest) := by
  cases members with
  | nil => exact ends_cons (by decide)
  | cons m members => exact ends_cons (by decide)

theorem insert_new {members : Members} {name : List Char} {value : Json} (h : name ∉ members.map (·.1)) :
    members.insert name value = members ++ [(name, value)] := if_neg h

theorem collect_distinct {members : Members} (h : members.Distinct) : members.collect = members := by
  have hgeneral : ∀ (rest map : Members), Members.Distinct (map ++ rest) →
      rest.foldl (fun map m => map.insert m.1 m.2) map = map ++ rest := by
    intro rest
    induction rest with
    | nil => intro map _; exact (List.append_nil map).symm
    | cons m rest ih =>
      intro map hd
      have hnew : m.1 ∉ map.map (·.1) := by
        intro hmem
        rw [Members.Distinct, List.map_append, List.nodup_append'] at hd
        exact hd.2.2 hmem (List.mem_map_of_mem List.mem_cons_self)
      rw [List.foldl_cons, insert_new hnew, ih _ (by simpa using hd)]
      simp
  exact hgeneral members [] h

theorem parseAtom_number (h : isNumber text = true) (rest : List Char) (hrest : Ends rest) :
    parseAtom (text ++ rest) = some (.number text, rest) := by
  have hall : text.all isNumberChar = true := by
    rw [isNumber, Bool.and_eq_true] at h
    exact h.1
  obtain ⟨htake, hdrop⟩ := takeWhile_number hall hrest
  obtain ⟨c, tail, heq, hc⟩ := starts_number h
  have hword : c ≠ 'n' ∧ c ≠ 't' ∧ c ≠ 'f' := by
    obtain rfl | hc := hc
    · decide
    · refine ⟨?_, ?_, ?_⟩ <;> rintro rfl <;> cases hc
  have hno (word : List Char) (d : Char) (hd : c ≠ d) : (d :: word).isPrefixOf (text ++ rest) = false := by
    rw [heq, List.cons_append, List.isPrefixOf_cons_cons]
    simp [Ne.symm hd]
  have hnull : "null".toList.isPrefixOf (text ++ rest) = false := hno "ull".toList 'n' hword.1
  have htrue : "true".toList.isPrefixOf (text ++ rest) = false := hno "rue".toList 't' hword.2.1
  have hfalse : "false".toList.isPrefixOf (text ++ rest) = false := hno "alse".toList 'f' hword.2.2
  rw [parseAtom, hnull, htrue, hfalse, htake, hdrop, h]
  rfl

mutual
/-- **A value's text is read back, whatever stands behind it.** -/
theorem parseValue_print (hs : Spelling spell) : ∀ (v : Json) (fuel limit : Nat) (rest : List Char),
    v.wellFormed = true → v.depth ≤ limit → (print spell v).length ≤ fuel → Ends rest →
    parseValue fuel limit (print spell v ++ rest) = some (v, rest)
  | v, 0, _, _, hw, _, hf, _ => absurd (print_pos spell hw) (by omega)
  | .null, fuel + 1, limit, rest, _, _, _, _ => rfl
  | .bool true, fuel + 1, limit, rest, _, _, _, _ => rfl
  | .bool false, fuel + 1, limit, rest, _, _, _, _ => rfl
  | .number text, fuel + 1, limit, rest, hw, _, _, hend => by
    have hatom := parseAtom_number hw rest hend
    obtain ⟨c, tail, heq, hc⟩ := starts_number hw
    have hother : isSpace c = false ∧ c ≠ '"' ∧ c ≠ '[' ∧ c ≠ '{' := by
      obtain rfl | hc := hc
      · decide
      · refine ⟨(Starts.ne (.inr (.inr hc))).1, ?_, ?_, ?_⟩ <;> rintro rfl <;> cases hc
    rw [print, parseValue]
    rw [heq, List.cons_append] at hatom ⊢
    simp only [skipSpace_cons hother.1, if_neg hother.2.1, if_neg hother.2.2.1, if_neg hother.2.2.2]
    exact hatom
  | .string text, fuel + 1, limit, rest, _, _, _, _ => by
    rw [print, quote_append, parseValue, skipSpace_cons (by decide)]
    simp only [if_true, stringBody_quoted hs]
    rfl
  | .array [], fuel + 1, limit + 1, rest, _, _, _, _ => rfl
  | .array (v :: vs), fuel + 1, limit + 1, rest, hw, hd, hf, _ => by
    rw [wellFormed, wellFormedAll, Bool.and_eq_true] at hw
    rw [depth, depthAll] at hd
    rw [print, List.length_cons, List.length_append] at hf
    have hvalue := parseValue_print hs v fuel limit (printRest spell vs ++ rest) hw.1 (by omega) (by omega)
      (ends_printRest vs)
    have hvalues := parseRest_print hs vs fuel limit rest hw.2 (by omega) (by omega)
    rw [print, List.cons_append, List.append_assoc, parseValue, skipSpace_cons (by decide)]
    simp only [Char.reduceEq, if_false, if_true, Nat.add_one_ne_zero, if_neg (skipSpace_print hw.1).2,
      Nat.add_sub_cancel]
    rw [hvalue]
    simp only [Option.bind_eq_bind, Option.bind_some]
    rw [hvalues]
    rfl
  | .object [], fuel + 1, limit + 1, rest, _, _, _, _ => rfl
  | .object ((name, v) :: ms), fuel + 1, limit + 1, rest, hw, hd, hf, _ => by
    rw [wellFormed, wellFormedMembers, Bool.and_eq_true, Bool.and_eq_true, decide_eq_true_iff] at hw
    rw [depth, depthMembers] at hd
    rw [print, List.length_cons, List.length_append, List.length_cons, List.length_append] at hf
    have hvalue := parseValue_print hs v fuel limit (printMembers spell ms ++ rest) hw.2.1 (by omega) (by omega)
      (ends_printMembers ms)
    have hmembers := parseMembers_print hs ms fuel limit rest hw.2.2 (by omega) (by omega)
    rw [print, List.cons_append, List.append_assoc, List.cons_append, List.append_assoc, parseValue,
      skipSpace_cons (by decide)]
    simp only [Char.reduceEq, if_false, if_true, Nat.add_one_ne_zero, Nat.add_sub_cancel]
    rw [if_neg (by simp [quote_append, skipSpace_cons (show isSpace '"' = false by decide)]), parseName_quote hs]
    simp only [Option.bind_eq_bind, Option.bind_some]
    rw [hvalue]
    simp only [Option.bind_some]
    rw [hmembers]
    simp only [Option.bind_some, collect_distinct hw.1]
  | .array [], _ + 1, 0, _, _, hd, _, _ => by rw [depth] at hd; omega
  | .array (_ :: _), _ + 1, 0, _, _, hd, _, _ => by rw [depth] at hd; omega
  | .object [], _ + 1, 0, _, _, hd, _, _ => by rw [depth] at hd; omega
  | .object (_ :: _), _ + 1, 0, _, _, hd, _, _ => by rw [depth] at hd; omega

theorem parseRest_print (hs : Spelling spell) : ∀ (vs : List Json) (fuel limit : Nat) (rest : List Char),
    wellFormedAll vs = true → depthAll vs ≤ limit → (printRest spell vs).length ≤ fuel →
    parseRest fuel limit (printRest spell vs ++ rest) = some (vs, rest)
  | [], 0, _, _, _, _, hf => absurd hf (by simp [printRest])
  | _ :: _, 0, _, _, _, _, hf => by
    rw [printRest, List.length_cons] at hf
    omega
  | [], fuel + 1, limit, rest, _, _, _ => rfl
  | v :: vs, fuel + 1, limit, rest, hw, hd, hf => by
    rw [wellFormedAll, Bool.and_eq_true] at hw
    rw [depthAll] at hd
    rw [printRest, List.length_cons, List.length_append] at hf
    have hvalue := parseValue_print hs v fuel limit (printRest spell vs ++ rest) hw.1 (by omega) (by omega)
      (ends_printRest vs)
    have hvalues := parseRest_print hs vs fuel limit rest hw.2 (by omega) (by omega)
    rw [printRest, List.cons_append, List.append_assoc, parseRest, skipSpace_cons (by decide)]
    simp only [Char.reduceEq, if_false, if_true]
    rw [hvalue]
    simp only [Option.bind_eq_bind, Option.bind_some]
    rw [hvalues]
    rfl

theorem parseMembers_print (hs : Spelling spell) : ∀ (ms : Members) (fuel limit : Nat) (rest : List Char),
    wellFormedMembers ms = true → depthMembers ms ≤ limit → (printMembers spell ms).length ≤ fuel →
    parseMembers fuel limit (printMembers spell ms ++ rest) = some (ms, rest)
  | [], 0, _, _, _, _, hf => absurd hf (by simp [printMembers])
  | (_, _) :: _, 0, _, _, _, _, hf => by
    rw [printMembers, List.length_cons] at hf
    omega
  | [], fuel + 1, limit, rest, _, _, _ => rfl
  | (name, v) :: ms, fuel + 1, limit, rest, hw, hd, hf => by
    rw [wellFormedMembers, Bool.and_eq_true] at hw
    rw [depthMembers] at hd
    rw [printMembers, List.length_cons, List.length_append, List.length_cons, List.length_append] at hf
    have hvalue := parseValue_print hs v fuel limit (printMembers spell ms ++ rest) hw.1 (by omega) (by omega)
      (ends_printMembers ms)
    have hmembers := parseMembers_print hs ms fuel limit rest hw.2 (by omega) (by omega)
    rw [printMembers, List.cons_append, List.append_assoc, List.cons_append, List.append_assoc, parseMembers,
      skipSpace_cons (by decide)]
    simp only [Char.reduceEq, if_false, if_true]
    rw [parseName_quote hs]
    simp only [Option.bind_eq_bind, Option.bind_some]
    rw [hvalue]
    simp only [Option.bind_some]
    rw [hmembers]
    rfl
end

/-- **What is printed is read back.** -/
theorem parse_print (hs : Spelling spell) {v : Json} {limit : Nat} (hw : v.wellFormed = true) (hd : v.depth ≤ limit) :
    parse limit (print spell v) = some v := by
  have hvalue := parseValue_print hs v _ limit [] hw hd (Nat.le_refl _) ends_nil
  rw [List.append_nil] at hvalue
  rw [parse, hvalue]
  rfl

/-- What a rewriting of characters leaves alone for it to change strings only. -/
structure Keeps (f : Char → List Char) : Prop where
  mark : ∀ c ∈ "\x7b\x7d[],:\"".toList, f c = [c]
  word : ∀ c ∈ "nulltruefalse".toList, f c = [c]
  number : ∀ c, isNumberChar c = true → f c = [c]

theorem flatMap_keeps {f : Char → List Char} (h : ∀ c ∈ text, f c = [c]) : text.flatMap f = text := by
  induction text with
  | nil => rfl
  | cons c text ih =>
    rw [List.flatMap_cons, h c List.mem_cons_self, ih fun d hd => h d (List.mem_cons_of_mem c hd)]
    rfl

theorem quote_flatMap {f : Char → List Char} (hf : Keeps f) :
    (quote spell text).flatMap f = quote (fun c => (spell c).flatMap f) text := by
  rw [quote, quote, List.flatMap_cons, List.flatMap_append, List.flatMap_assoc, List.flatMap_singleton,
    hf.mark '"' (by decide)]
  rfl

mutual
/-- **Rewriting the characters of a text spells the characters of its strings another way.** -/
theorem print_flatMap {f : Char → List Char} (hf : Keeps f) : ∀ v : Json, v.wellFormed = true →
    (print spell v).flatMap f = print (fun c => (spell c).flatMap f) v
  | .null, _ => flatMap_keeps fun c hc => hf.word c (by rw [print] at hc; exact forall_mem_of_all (by decide) c hc)
  | .bool true, _ => flatMap_keeps fun c hc => hf.word c (by rw [print] at hc; exact forall_mem_of_all (by decide) c hc)
  | .bool false, _ => flatMap_keeps fun c hc => hf.word c (by rw [print] at hc; exact forall_mem_of_all (by decide) c hc)
  | .number text, hw => by
    have hall : text.all isNumberChar = true := by
      rw [wellFormed, isNumber, Bool.and_eq_true] at hw
      exact hw.1
    exact flatMap_keeps fun c hc => hf.number c (List.all_eq_true.mp hall c hc)
  | .string text, _ => quote_flatMap hf
  | .array [], _ => flatMap_keeps fun c hc => hf.mark c (by rw [print] at hc; exact forall_mem_of_all (by decide) c hc)
  | .array (v :: vs), hw => by
    rw [wellFormed, wellFormedAll, Bool.and_eq_true] at hw
    rw [print, print, List.flatMap_cons, List.flatMap_append, hf.mark '[' (by decide), print_flatMap hf v hw.1,
      printRest_flatMap hf vs hw.2]
    rfl
  | .object [], _ => flatMap_keeps fun c hc => hf.mark c (by rw [print] at hc; exact forall_mem_of_all (by decide) c hc)
  | .object ((name, v) :: ms), hw => by
    rw [wellFormed, wellFormedMembers, Bool.and_eq_true, Bool.and_eq_true] at hw
    rw [print, print, List.flatMap_cons, List.flatMap_append, List.flatMap_cons, List.flatMap_append,
      quote_flatMap hf, hf.mark '\x7b' (by decide), hf.mark ':' (by decide), print_flatMap hf v hw.2.1,
      printMembers_flatMap hf ms hw.2.2]
    rfl

theorem printRest_flatMap {f : Char → List Char} (hf : Keeps f) : ∀ vs : List Json, wellFormedAll vs = true →
    (printRest spell vs).flatMap f = printRest (fun c => (spell c).flatMap f) vs
  | [], _ => flatMap_keeps fun c hc => hf.mark c (by rw [printRest] at hc; exact forall_mem_of_all (by decide) c hc)
  | v :: vs, hw => by
    rw [wellFormedAll, Bool.and_eq_true] at hw
    rw [printRest, printRest, List.flatMap_cons, List.flatMap_append, hf.mark ',' (by decide),
      print_flatMap hf v hw.1, printRest_flatMap hf vs hw.2]
    rfl

theorem printMembers_flatMap {f : Char → List Char} (hf : Keeps f) : ∀ ms : Members,
    wellFormedMembers ms = true →
    (printMembers spell ms).flatMap f = printMembers (fun c => (spell c).flatMap f) ms
  | [], _ => flatMap_keeps fun c hc => hf.mark c (by rw [printMembers] at hc; exact forall_mem_of_all (by decide) c hc)
  | (name, v) :: ms, hw => by
    rw [wellFormedMembers, Bool.and_eq_true] at hw
    rw [printMembers, printMembers, List.flatMap_cons, List.flatMap_append, List.flatMap_cons, List.flatMap_append,
      quote_flatMap hf, hf.mark ',' (by decide), hf.mark ':' (by decide), print_flatMap hf v hw.1,
      printMembers_flatMap hf ms hw.2]
    rfl
end

end Values

/-! ## 6. Spellings -/

def hexDigit (n : Nat) : Char := "0123456789abcdef".toList.getD n '0'

/-- `\u` and the four digits of a small code. -/
def hexEscape (n : Nat) : List Char := ['\\', 'u', '0', '0', hexDigit (n / 16 % 16), hexDigit (n % 16)]

/-- The least escaping: quotes, backslashes and controls. -/
def plain (c : Char) : List Char :=
  if c = '"' then ['\\', '"']
  else if c = '\\' then ['\\', '\\']
  else if c = Char.ofNat 8 then ['\\', 'b']
  else if c = Char.ofNat 12 then ['\\', 'f']
  else if c = '\n' then ['\\', 'n']
  else if c = '\r' then ['\\', 'r']
  else if c = '\t' then ['\\', 't']
  else if c.toNat < 32 then hexEscape c.toNat
  else [c]

section Spellings

variable {c : Char} {n fuel : Nat} {rest : List Char}

theorem hexValue_hexDigit : ∀ n : Fin 16, hexValue (hexDigit n) = some n.val := by decide

theorem unescape_hexEscape (h : n < 256) : stringBody (fuel + 1) (hexEscape n ++ rest) =
    (stringBody fuel rest).map fun (text, rest) => (Char.ofNat n :: text, rest) := by
  have hhigh := hexValue_hexDigit ⟨n / 16 % 16, by omega⟩
  have hlow := hexValue_hexDigit ⟨n % 16, by omega⟩
  simp only at hhigh hlow
  have hzero : hexValue '0' = some 0 := by decide
  have hhex : hex4 ('0' :: '0' :: hexDigit (n / 16 % 16) :: hexDigit (n % 16) :: rest) = some (n, rest) := by
    simp only [hex4, hzero, hhigh, hlow, Option.bind_eq_bind, Option.bind_some]
    congr 2
    omega
  have hunicode : unicode ('0' :: '0' :: hexDigit (n / 16 % 16) :: hexDigit (n % 16) :: rest) =
      some (Char.ofNat n, rest) := by
    rw [unicode, hhex]
    simp only [Option.bind_eq_bind, Option.bind_some]
    rw [if_neg (by omega), if_neg (by omega)]
  simp only [hexEscape, List.cons_append, List.nil_append, stringBody, unescape, Char.reduceEq, if_false, if_true,
    or_false, hunicode, Option.bind_eq_bind, Option.bind_some]
  cases stringBody fuel rest <;> rfl

/-- A character that needs no escape is read as itself. -/
theorem stringBody_raw (hquote : c ≠ '"') (hback : c ≠ '\\') (hcontrol : ¬ c.toNat < 32) :
    stringBody (fuel + 1) (c :: rest) = (stringBody fuel rest).map fun (text, rest) => (c :: text, rest) := by
  rw [stringBody, if_neg hquote, if_neg hback, if_neg hcontrol]
  cases stringBody fuel rest <;> rfl

/-- A short escape is read as what it names. -/
theorem stringBody_short {d : Char} (h : ∀ rest, unescape (d :: rest) = some (c, rest)) :
    stringBody (fuel + 1) ('\\' :: d :: rest) = (stringBody fuel rest).map fun (text, rest) => (c :: text, rest) := by
  rw [stringBody, if_neg (by decide), if_pos rfl, h]
  cases hbody : stringBody fuel rest <;> simp [hbody]

theorem spelling_plain : Spelling plain where
  ne_nil c := by
    unfold plain
    repeat' split
    all_goals simp [hexEscape]
  reads c fuel rest := by
    unfold plain
    repeat' split
    next h => subst h; exact stringBody_short fun _ => rfl
    next h => subst h; exact stringBody_short fun _ => rfl
    next h => subst h; exact stringBody_short fun _ => rfl
    next h => subst h; exact stringBody_short fun _ => rfl
    next h => subst h; exact stringBody_short fun _ => rfl
    next h => subst h; exact stringBody_short fun _ => rfl
    next h => subst h; exact stringBody_short fun _ => rfl
    next h =>
      rw [unescape_hexEscape (by omega), Char.ofNat_toNat]
    next hquote hback _ _ _ _ _ hcontrol => exact stringBody_raw hquote hback hcontrol

end Spellings

end Json

end Lib
