/-
  File:      Smartfire/Richtext/SgidJsonGrammar.lean
  Subject:   The grammar of the payloads of signed global ids, and how its smallest parts are read.

  * `Blank`, `Number`, `Str`, `Derives`, `Text` -- the grammar, without the parser's loops and cursors;
  * `whitespace_blank`, `whitespace_ok` -- **blanks and comments are passed over, and nothing else**;
  * `number_append`, `number_ok` -- numbers;
  * `string_ok_iff` -- **a string is read as the grammar has it**, with its escapes and surrogate pairs.
-/
import Mathlib.Data.List.Infix
import Smartfire.Richtext.SgidJson

namespace Smartfire.SgidJson

open Lib

/-! ## 1. The grammar -/

/-- Blanks and comments. The text of a block comment ends with its first `*/`. -/
inductive Blank : Bytes → Prop
  | nil : Blank []
  | space {b : UInt8} {rest : Bytes} (hb : isSpace b = true) (hrest : Blank rest) : Blank (b :: rest)
  | line {body rest : Bytes} (hbody : byte '\n' ∉ body) (hrest : Blank rest) :
      Blank (byte '/' :: byte '/' :: (body ++ byte '\n' :: rest))
  | block {body rest : Bytes} (hbody : ¬ [byte '*', byte '/'] <:+: body ++ [byte '*']) (hrest : Blank rest) :
      Blank (byte '/' :: byte '*' :: (body ++ byte '*' :: byte '/' :: rest))

/-- One digit or more. -/
def Digits (t : Bytes) : Prop := t ≠ [] ∧ ∀ b ∈ t, isDigit b = true

/-- A number: no zero stands before another digit. -/
inductive Number : Bytes → Prop
  | mk {sign whole point power : Bytes} (hsign : sign = [] ∨ sign = [byte '-']) (hwhole : Digits whole)
      (hzero : whole.head? = some (byte '0') → whole = [byte '0'])
      (hpoint : point = [] ∨ ∃ d, Digits d ∧ point = byte '.' :: d)
      (hpower : power = [] ∨ ∃ e s d, (e = byte 'e' ∨ e = byte 'E') ∧ (s = [] ∨ s = [byte '-'] ∨ s = [byte '+']) ∧
        Digits d ∧ power = e :: (s ++ d)) : Number (sign ++ (whole ++ (point ++ power)))

/-- The inside of a string, and the bytes it stands for. -/
inductive Str : Bytes → Bytes → Prop
  | nil : Str [] []
  | raw {b : UInt8} {body out : Bytes} (hcontrol : ¬ b ≤ 0x1F) (hquote : b ≠ byte '"') (hslash : b ≠ byte '\\')
      (h : Str body out) : Str (b :: body) (b :: out)
  | same {b : UInt8} {body out : Bytes} (hb : b = byte '"' ∨ b = byte '/') (h : Str body out) :
      Str (byte '\\' :: b :: body) (b :: out)
  | short {b x : UInt8} {body out : Bytes} (hb : shortEscape b = some x) (h : Str body out) :
      Str (byte '\\' :: b :: body) (x :: out)
  | code {four body out : Bytes} {codepoint : Nat} (hlen : four.length = 4) (hcode : hexCode four = some codepoint)
      (hhigh : isHigh codepoint = false) (h : Str body out) :
      Str (byte '\\' :: byte 'u' :: (four ++ body)) (encode codepoint ++ out)
  | pair {four more body out : Bytes} {high low : Nat} (hlen : four.length = 4) (hcode : hexCode four = some high)
      (hhigh : isHigh high = true) (hmore : more.length = 4) (hcode' : hexCode more = some low)
      (hlow : isLow low = true) (h : Str body out) :
      Str (byte '\\' :: byte 'u' :: (four ++ byte '\\' :: byte 'u' :: (more ++ body)))
        (encode (combine high low) ++ out)

/-- An element of an array, or a field of an object, with the blanks around it. -/
inductive Member (P : Bytes → Value → Prop) : Bool → Bytes → List (Bytes × Value) → Prop
  | element {w t w' : Bytes} {v : Value} (hw : Blank w) (ht : P t v) (hw' : Blank w') :
      Member P false (w ++ (t ++ w')) []
  | field {w body name w₁ w₂ t w' : Bytes} {v : Value} (hw : Blank w) (hname : Str body name) (hw₁ : Blank w₁)
      (hw₂ : Blank w₂) (ht : P t v) (hw' : Blank w') :
      Member P true (w ++ byte '"' :: (body ++ byte '"' :: (w₁ ++ byte ':' :: (w₂ ++ (t ++ w'))))) [(name, v)]

/-- The inside of a container that is not empty. -/
inductive Members (P : Bytes → Value → Prop) (object : Bool) : Bytes → List (Bytes × Value) → Prop
  | last {t : Bytes} {fields : List (Bytes × Value)} (h : Member P object t fields) : Members P object t fields
  | more {t t' : Bytes} {fields fields' : List (Bytes × Value)} (h : Member P object t fields)
      (hrest : Members P object t' fields') : Members P object (t ++ byte ',' :: t') (fields ++ fields')

/-- A value whose containers' insides hold values of `P`. -/
inductive Layer (P : Bytes → Value → Prop) : Bytes → Value → Prop
  | null : Layer P (text "null") .null
  | true : Layer P (text "true") .other
  | false : Layer P (text "false") .false
  | number {t : Bytes} (h : Number t) : Layer P t .other
  | string {body out : Bytes} (h : Str body out) : Layer P (byte '"' :: (body ++ [byte '"'])) (.string out)
  | empty {object : Bool} {w : Bytes} (hw : Blank w) :
      Layer P (opening object :: (w ++ [closing object])) (collected object [])
  | container {object : Bool} {t : Bytes} {fields : List (Bytes × Value)} (h : Members P object t fields) :
      Layer P (opening object :: (t ++ [closing object])) (collected object fields)

/-- A value with at most so many containers around one another, not counting empty ones. -/
def Derives : Nat → Bytes → Value → Prop
  | 0 => Layer fun _ _ => False
  | room + 1 => Layer (Derives room)

/-- A text: a value among blanks. Its last comment may be without a newline. -/
inductive Text : Bytes → Value → Prop
  | mk {w t w' comment : Bytes} {v : Value} (hw : Blank w) (ht : Derives maxNesting t v) (hw' : Blank w')
      (hcomment : comment = [] ∨ ∃ body, byte '\n' ∉ body ∧ comment = byte '/' :: byte '/' :: body) :
      Text (w ++ (t ++ (w' ++ comment))) v

theorem bind_eq_ok {α β : Type} {x : Except Fault α} {f : α → Except Fault β} {r : β} :
    (x >>= f) = .ok r ↔ ∃ a, x = .ok a ∧ f a = .ok r := by
  cases x with
  | error e => simp [bind, Except.bind]
  | ok a => simp [bind, Except.bind]

theorem map_eq_ok {α β : Type} {x : Except Fault α} {f : α → β} {r : β} :
    x.map f = .ok r ↔ ∃ a, x = .ok a ∧ f a = r := by
  cases x with
  | error e => simp [Except.map]
  | ok a => simp [Except.map]

/-! ## 2. Blanks -/

section Blanks

variable {c c' w : Cursor} {b : UInt8}

/-- No blank starts here. -/
def Solid (c : Cursor) : Prop := ∀ b, c.head? = some b → isSpace b = false ∧ b ≠ byte '/'

theorem cons_of_peek (hb : b ≠ 0) (h : peek c = b) : c = b :: c.tail := by
  cases c with
  | nil => exact absurd h.symm hb
  | cons x c =>
    obtain rfl : x = b := h
    rfl

theorem all_ne {body : Bytes} (hbody : b ∉ body) : ∀ x ∈ body, decide (x ≠ b) = true := by
  intro x hx
  refine decide_eq_true fun heq => hbody ?_
  rwa [← heq]

theorem afterLine_append {body : Bytes} (hbody : byte '\n' ∉ body) (rest : Bytes) :
    afterLine (body ++ byte '\n' :: rest) = rest := by
  rw [afterLine, List.dropWhile_append_of_pos (all_ne hbody)]
  simp

theorem afterLine_none {body : Bytes} (hbody : byte '\n' ∉ body) : afterLine body = [] := by
  rw [afterLine, List.dropWhile_eq_nil_iff.mpr (all_ne hbody)]
  rfl

/-- Where a line comment ends. -/
theorem afterLine_cases (c : Cursor) : (∃ body, byte '\n' ∉ body ∧ c = body ++ byte '\n' :: afterLine c) ∨
    byte '\n' ∉ c ∧ afterLine c = [] := by
  by_cases hmem : byte '\n' ∈ c
  · obtain ⟨body, rest, rfl, hbody⟩ := List.eq_append_cons_of_mem hmem
    exact .inl ⟨body, hbody, by rw [afterLine_append hbody]⟩
  · exact .inr ⟨hmem, afterLine_none hmem⟩

/-- The first byte of the text of a comment and its end. -/
theorem head?_block (body rest : Bytes) :
    (body ++ byte '*' :: rest).head? = (body ++ [byte '*']).head? := by
  cases body <;> rfl

theorem endsHere_iff : [byte '*', byte '/'] <+: b :: c ↔ b = byte '*' ∧ c.head? = some (byte '/') := by
  cases c with
  | nil => simp
  | cons x c => simp [List.cons_prefix_cons, eq_comm]

/-- **Where a block comment ends**: at its first `*/`. -/
theorem afterBlock_eq_some : afterBlock c = some c' ↔
    ∃ body, c = body ++ byte '*' :: byte '/' :: c' ∧ ¬ [byte '*', byte '/'] <:+: body ++ [byte '*'] := by
  induction c with
  | nil => simp [afterBlock]
  | cons b rest ih =>
    rw [afterBlock]
    split
    · next hend =>
      obtain ⟨rfl, hhead⟩ := hend
      constructor
      · intro h
        obtain rfl := Option.some.inj h
        obtain ⟨x, rest, rfl⟩ : ∃ x more, rest = x :: more := List.exists_cons_of_ne_nil (by rintro rfl; cases hhead)
        obtain rfl : x = byte '/' := by simpa using hhead
        refine ⟨[], rfl, fun hinfix => ?_⟩
        have hle := hinfix.length_le
        simp at hle
      · rintro ⟨body, heq, hno⟩
        cases body with
        | nil =>
          obtain rfl := (List.cons.inj heq).2
          rfl
        | cons x body =>
          obtain ⟨rfl, rfl⟩ := List.cons.inj heq
          have hstarts : (body ++ byte '*' :: byte '/' :: c').head? = some (byte '/') := hhead
          rw [head?_block] at hstarts
          exact absurd (endsHere_iff.mpr ⟨rfl, hstarts⟩).isInfix hno
    · next hgoes =>
      rw [ih]
      constructor
      · rintro ⟨body, rfl, hno⟩
        refine ⟨b :: body, rfl, fun hinfix => ?_⟩
        obtain hhere | hinfix := List.infix_cons_iff.mp hinfix
        · obtain ⟨hb, hhead⟩ := endsHere_iff.mp hhere
          exact hgoes ⟨hb, by rw [head?_block]; exact hhead⟩
        · exact hno hinfix
      · rintro ⟨body, heq, hno⟩
        cases body with
        | nil =>
          obtain ⟨rfl, rfl⟩ := List.cons.inj heq
          exact absurd ⟨rfl, rfl⟩ hgoes
        | cons x body =>
          obtain ⟨rfl, rfl⟩ := List.cons.inj heq
          exact ⟨body, rfl, fun hinfix => hno (List.infix_cons hinfix)⟩

theorem whitespace_solid (hc : Solid c) : whitespace c = .ok c := by
  cases c with
  | nil => rw [whitespace]
  | cons b rest =>
    obtain ⟨hspace, hslash⟩ := hc b rfl
    rw [whitespace, if_neg (by simp [hspace]), if_neg hslash]

theorem whitespace_space (hb : isSpace b = true) (rest : Bytes) : whitespace (b :: rest) = whitespace rest := by
  rw [whitespace, if_pos hb]

theorem whitespace_line (t : Bytes) : whitespace (byte '/' :: byte '/' :: t) = whitespace (afterLine t) := by
  have hpeek : peek (byte '/' :: t) = byte '/' := rfl
  rw [whitespace, if_neg (by decide), if_pos rfl, if_pos hpeek, afterLine, List.dropWhile_cons_of_pos (by decide)]
  rfl

theorem whitespace_block {t after : Bytes} (h : afterBlock t = some after) :
    whitespace (byte '/' :: byte '*' :: t) = whitespace after := by
  have hpeek : peek (byte '*' :: t) = byte '*' := rfl
  have hno : peek (byte '*' :: t) ≠ byte '/' := by rw [hpeek]; decide
  rw [whitespace, if_neg (by decide), if_pos rfl, if_neg hno, if_pos hpeek]
  split
  · next found => rw [Option.some.inj (found.symm.trans h)]
  · next found => cases found.symm.trans h

/-- **Blanks are passed over**, up to what is none. -/
theorem whitespace_blank (hw : Blank w) (hc : Solid c) : whitespace (w ++ c) = .ok c := by
  induction hw with
  | nil => exact whitespace_solid hc
  | space hb _ ih => rw [List.cons_append, whitespace_space hb, ih]
  | @line body rest hbody _ ih =>
    have hline := afterLine_append hbody (rest ++ c)
    simp only [List.cons_append, List.append_assoc, whitespace_line]
    rw [hline, ih]
  | @block body rest hbody _ ih =>
    have hend : afterBlock (body ++ byte '*' :: byte '/' :: (rest ++ c)) = some (rest ++ c) :=
      afterBlock_eq_some.mpr ⟨body, rfl, hbody⟩
    simp only [List.cons_append, List.append_assoc]
    rw [whitespace_block hend, ih]

/-- A last comment that has no newline takes the text's end. -/
theorem whitespace_open (hw : Blank w) {body : Bytes} (hbody : byte '\n' ∉ body) :
    whitespace (w ++ byte '/' :: byte '/' :: body) = .ok [] := by
  induction hw with
  | nil =>
    rw [List.nil_append, whitespace_line, afterLine_none hbody]
    exact whitespace_solid fun _ h => by cases h
  | space hb _ ih => rw [List.cons_append, whitespace_space hb, ih]
  | @line line rest hline _ ih =>
    simp only [List.cons_append, List.append_assoc, whitespace_line]
    rw [afterLine_append hline, ih]
  | @block block rest hblock _ ih =>
    have hend : afterBlock (block ++ byte '*' :: byte '/' :: (rest ++ byte '/' :: byte '/' :: body)) =
        some (rest ++ byte '/' :: byte '/' :: body) := afterBlock_eq_some.mpr ⟨block, rfl, hblock⟩
    simp only [List.cons_append, List.append_assoc]
    rw [whitespace_block hend, ih]

/-- Blanks lie between two cursors: all there are, or a last comment that has no newline. -/
def Passed (c c' : Cursor) : Prop :=
  (∃ w, Blank w ∧ c = w ++ c' ∧ Solid c') ∨
    c' = [] ∧ ∃ w body, Blank w ∧ byte '\n' ∉ body ∧ c = w ++ byte '/' :: byte '/' :: body

theorem Passed.prepend (h : Passed c c') (more : Bytes) (hmore : ∀ w, Blank w → Blank (more ++ w)) :
    Passed (more ++ c) c' := by
  obtain ⟨w, hw, rfl, hc'⟩ | ⟨rfl, w, body, hw, hbody, rfl⟩ := h
  · exact .inl ⟨more ++ w, hmore w hw, (List.append_assoc _ _ _).symm, hc'⟩
  · exact .inr ⟨rfl, more ++ w, body, hmore w hw, hbody, (List.append_assoc _ _ _).symm⟩

/-- **What is passed over is blank.** -/
theorem whitespace_ok (h : whitespace c = .ok c') : Passed c c' := by
  fun_induction whitespace c with
  | case1 =>
    cases h
    exact .inl ⟨[], .nil, rfl, fun _ h => by cases h⟩
  | case2 b rest hb ih => exact (ih h).prepend [b] fun w hw => .space hb hw
  | case3 rest hpeek _ ih =>
    rw [cons_of_peek (by decide) hpeek] at ih h ⊢
    generalize rest.tail = t at ih h ⊢
    have hline : afterLine (byte '/' :: t) = afterLine t := by
      rw [afterLine, List.dropWhile_cons_of_pos (by decide)]
      rfl
    rw [hline] at ih h
    obtain ⟨body, hbody, heq⟩ | ⟨hbody, hnil⟩ := afterLine_cases t
    · have hpassed := (ih h).prepend (byte '/' :: byte '/' :: (body ++ [byte '\n'])) fun w hw => by
        simpa using Blank.line hbody hw
      rw [heq]
      simpa using hpassed
    · rw [hnil, whitespace] at h
      cases h
      exact .inr ⟨rfl, [], t, .nil, hbody, rfl⟩
  | case4 rest hno hpeek after hafter _ ih =>
    rw [cons_of_peek (by decide) hpeek]
    obtain ⟨body, heq, hbody⟩ := afterBlock_eq_some.mp hafter
    have hpassed := (ih h).prepend (byte '/' :: byte '*' :: (body ++ [byte '*', byte '/'])) fun w hw => by
      simpa using Blank.block hbody hw
    rw [heq]
    simpa using hpassed
  | case5 => cases h
  | case6 => cases h
  | case7 b rest hspace hslash =>
    cases h
    refine .inl ⟨[], .nil, rfl, fun b' hb' => ?_⟩
    obtain rfl := Option.some.inj hb'
    exact ⟨by simpa using hspace, hslash⟩

/-- Where something follows, blanks lie before it. -/
theorem Passed.blank (h : Passed c c') (hc' : c' ≠ []) : ∃ w, Blank w ∧ c = w ++ c' := by
  obtain ⟨w, hw, heq, -⟩ | ⟨hnil, -⟩ := h
  · exact ⟨w, hw, heq⟩
  · exact absurd hnil hc'

end Blanks

/-! ## 3. Numbers -/

section Numbers

variable {c c' start d : Cursor} {b : UInt8}

/-- A number does not go on here. -/
def NumberEnd (c : Cursor) : Prop :=
  isDigit (peek c) = false ∧ peek c ≠ byte '.' ∧ peek c ≠ byte 'e' ∧ peek c ≠ byte 'E'

theorem digits_append (hd : ∀ b ∈ d, isDigit b = true) (hc : isDigit (peek c) = false) :
    digits (d ++ c) = (d.length, c) := by
  have hnone : c.takeWhile isDigit = [] ∧ c.dropWhile isDigit = c := by
    cases c with
    | nil => exact ⟨rfl, rfl⟩
    | cons b rest =>
      have hb : isDigit b = false := hc
      simp [hb]
  rw [digits, List.takeWhile_append_of_pos hd, List.dropWhile_append_of_pos hd, hnone.1, hnone.2, List.append_nil]

/-- The digits that are read. -/
theorem digits_split (c : Cursor) : ∃ d, c = d ++ (digits c).2 ∧ (digits c).1 = d.length ∧ ∀ b ∈ d, isDigit b = true :=
  ⟨c.takeWhile isDigit, (List.takeWhile_append_dropWhile).symm, rfl, fun _ hb => List.mem_takeWhile_imp hb⟩

theorem isDigit_peek_digits (c : Cursor) : isDigit (peek (digits c).2) = false := by
  show isDigit (peek (c.dropWhile isDigit)) = false
  induction c with
  | nil => rfl
  | cons b c ih =>
    rw [List.dropWhile_cons]
    split
    · exact ih
    · next hb => exact (by simpa using hb : isDigit b = false)

theorem peek_append {t : Bytes} (ht : t ≠ []) (c : Cursor) : peek (t ++ c) = peek t := by
  cases t with
  | nil => exact absurd rfl ht
  | cons b t => rfl

/-- A part of a number that is there or not: what a reader of it makes of the text. -/
theorem fraction_append {point : Bytes} (hpoint : point = [] ∨ ∃ d, Digits d ∧ point = byte '.' :: d)
    (hdigit : isDigit (peek c) = false) (hc : peek c ≠ byte '.') : fraction start (point ++ c) = .ok c := by
  obtain rfl | ⟨d, ⟨hne, hd⟩, rfl⟩ := hpoint
  · rw [List.nil_append, fraction, if_neg hc]
  · have hpeek : peek (byte '.' :: d ++ c) = byte '.' := rfl
    rw [fraction, if_pos hpeek, List.cons_append, List.tail_cons, digits_append hd hdigit]
    exact if_neg (by simpa using hne)

theorem fraction_ok (h : fraction start c = .ok c') :
    ∃ point, c = point ++ c' ∧ (point = [] ∨ ∃ d, Digits d ∧ point = byte '.' :: d) := by
  unfold fraction at h
  split at h
  · next hpeek =>
    obtain ⟨d, heq, hlen, hd⟩ := digits_split c.tail
    dsimp only at h
    split at h
    · cases h
    · next hcount =>
      cases h
      refine ⟨byte '.' :: d, ?_, .inr ⟨d, ⟨?_, hd⟩, rfl⟩⟩
      · rw [List.cons_append, ← heq]
        exact cons_of_peek (by decide) hpeek
      · rintro rfl
        exact hcount hlen
  · cases h
    exact ⟨[], rfl, .inl rfl⟩

theorem digit_ne {x : UInt8} (hb : isDigit b = true) (hx : isDigit x = false) : b ≠ x := by
  rintro rfl
  rw [hb] at hx
  cases hx

theorem isDigit_peek (hd : Digits d) (c : Cursor) : isDigit (peek (d ++ c)) = true := by
  obtain ⟨hne, hall⟩ := hd
  cases d with
  | nil => exact absurd rfl hne
  | cons b d => exact hall b List.mem_cons_self

/-- The sign of a power. -/
def unsigned (c : Cursor) : Cursor := if peek c = byte '-' ∨ peek c = byte '+' then c.tail else c

theorem unsigned_append {s : Bytes} (hs : s = [] ∨ s = [byte '-'] ∨ s = [byte '+']) (hd : Digits d) :
    unsigned (s ++ (d ++ c)) = d ++ c := by
  have hpeek := isDigit_peek hd c
  obtain rfl | rfl | rfl := hs
  · exact if_neg (not_or.mpr ⟨digit_ne hpeek (by decide), digit_ne hpeek (by decide)⟩)
  · exact if_pos (.inl rfl)
  · exact if_pos (.inr rfl)

theorem unsigned_split (c : Cursor) : ∃ s, c = s ++ unsigned c ∧ (s = [] ∨ s = [byte '-'] ∨ s = [byte '+']) := by
  unfold unsigned
  split
  · next hsign =>
    obtain hminus | hplus := hsign
    · exact ⟨[byte '-'], cons_of_peek (by decide) hminus, .inr (.inl rfl)⟩
    · exact ⟨[byte '+'], cons_of_peek (by decide) hplus, .inr (.inr rfl)⟩
  · exact ⟨[], rfl, .inl rfl⟩

theorem exponent_append {power : Bytes} (hpower : power = [] ∨ ∃ e s d, (e = byte 'e' ∨ e = byte 'E') ∧
    (s = [] ∨ s = [byte '-'] ∨ s = [byte '+']) ∧ Digits d ∧ power = e :: (s ++ d)) (hc : NumberEnd c) :
    exponent start (power ++ c) = .ok c := by
  obtain ⟨hdigit, -, he, hE⟩ := hc
  obtain rfl | ⟨e, s, d, hletter, hs, hd, rfl⟩ := hpower
  · exact if_neg (not_or.mpr ⟨he, hE⟩)
  · have hpeek : peek (e :: (s ++ d) ++ c) = e := rfl
    have htail : (e :: (s ++ d) ++ c).tail = s ++ (d ++ c) := List.append_assoc s d c
    have hunsigned := @unsigned_append c d s hs hd
    unfold unsigned at hunsigned
    rw [exponent, hpeek, if_pos hletter, htail]
    dsimp only
    rw [hunsigned, digits_append hd.2 hdigit]
    exact if_neg (by simpa using hd.1)

theorem exponent_ok (h : exponent start c = .ok c') : ∃ power, c = power ++ c' ∧
    (power = [] ∨ ∃ e s d, (e = byte 'e' ∨ e = byte 'E') ∧ (s = [] ∨ s = [byte '-'] ∨ s = [byte '+']) ∧
      Digits d ∧ power = e :: (s ++ d)) := by
  unfold exponent at h
  split at h
  · next hletter =>
    obtain ⟨s, hsign, hs⟩ := unsigned_split c.tail
    obtain ⟨d, heq, hlen, hd⟩ := digits_split (unsigned c.tail)
    have hfold : (if peek c.tail = byte '-' ∨ peek c.tail = byte '+' then c.tail.tail else c.tail) =
        unsigned c.tail := rfl
    dsimp only at h
    rw [hfold] at h
    split at h
    · cases h
    · next hcount =>
      cases h
      have hcons : c = peek c :: c.tail := by
        obtain hletter | hletter := hletter
        · exact hletter ▸ cons_of_peek (by decide) hletter
        · exact hletter ▸ cons_of_peek (by decide) hletter
      refine ⟨peek c :: (s ++ d), ?_, .inr ⟨peek c, s, d, hletter, hs, ⟨?_, hd⟩, rfl⟩⟩
      · rw [List.cons_append, List.append_assoc, ← heq, ← hsign]
        exact hcons
      · rintro rfl
        exact hcount hlen
  · cases h
    exact ⟨[], rfl, .inl rfl⟩

/-- **A number is read to its end.** -/
theorem number_append {t : Bytes} (ht : Number t) (hc : NumberEnd c) : number (t ++ c) = .ok c := by
  obtain @⟨sign, whole, point, power, hsign, hwhole, hzero, hpoint, hpower⟩ := ht
  simp only [List.append_assoc]
  -- behind the digits comes the point, the power or the end
  have hpower' : isDigit (peek (power ++ c)) = false ∧ peek (power ++ c) ≠ byte '.' := by
    obtain rfl | ⟨e, s, d, rfl | rfl, -, -, rfl⟩ := hpower
    · exact ⟨hc.1, hc.2.1⟩
    · exact ⟨show isDigit (byte 'e') = false by decide, show byte 'e' ≠ byte '.' by decide⟩
    · exact ⟨show isDigit (byte 'E') = false by decide, show byte 'E' ≠ byte '.' by decide⟩
  have hpoint' : isDigit (peek (point ++ (power ++ c))) = false := by
    obtain rfl | ⟨d, -, rfl⟩ := hpoint
    · exact hpower'.1
    · exact show isDigit (byte '.') = false by decide
  have hfirst := isDigit_peek hwhole (point ++ (power ++ c))
  have hcore (negative : Prop) : ¬ ((peek (whole ++ (point ++ (power ++ c))) = byte '0' ∧ 1 < whole.length) ∨
      negative ∧ whole.length = 0) := by
    rintro (⟨hpeek, hlen⟩ | ⟨-, hlen⟩)
    · rw [peek_append hwhole.1] at hpeek
      have hhead : whole.head? = some (byte '0') := by
        rw [cons_of_peek (by decide) hpeek]
        rfl
      rw [hzero hhead] at hlen
      exact absurd hlen (by decide)
    · exact hwhole.1 (List.length_eq_zero_iff.mp hlen)
  have hdigits := digits_append hwhole.2 hpoint'
  have hrest (start : Cursor) : (do
      let c ← fraction start (point ++ (power ++ c))
      exponent start c) = .ok c := by
    rw [fraction_append hpoint hpower'.1 hpower'.2]
    exact exponent_append hpower hc
  obtain rfl | rfl := hsign
  · have hno : ¬ peek (whole ++ (point ++ (power ++ c))) = byte '-' := digit_ne hfirst (by decide)
    rw [List.nil_append, number]
    simp only [if_neg hno, hdigits, if_neg (hcore _), hrest]
  · have hyes : peek ([byte '-'] ++ (whole ++ (point ++ (power ++ c)))) = byte '-' := rfl
    have htail : ([byte '-'] ++ (whole ++ (point ++ (power ++ c)))).tail = whole ++ (point ++ (power ++ c)) := rfl
    rw [number]
    simp only [if_pos hyes, htail, hdigits, if_neg (hcore _), hrest]

/-- **What is read is a number.** -/
theorem number_ok (hstart : peek c = byte '-' ∨ isDigit (peek c) = true) (h : number c = .ok c') :
    ∃ t, c = t ++ c' ∧ Number t := by
  have hsigned : ∃ sign, c = sign ++ (if peek c = byte '-' then c.tail else c) ∧ (sign = [] ∨ sign = [byte '-']) := by
    split
    · next hminus => exact ⟨[byte '-'], cons_of_peek (by decide) hminus, .inr rfl⟩
    · exact ⟨[], rfl, .inl rfl⟩
  obtain ⟨sign, hsign, hs⟩ := hsigned
  unfold number at h
  dsimp only at h
  generalize hunsigned : (if peek c = byte '-' then c.tail else c) = c₁ at h hsign
  obtain ⟨d, heq, hlen, hd⟩ := digits_split c₁
  split at h
  · cases h
  next hcore =>
  have hnonempty : d ≠ [] := by
    rintro rfl
    by_cases hminus : peek c = byte '-'
    · exact hcore (.inr ⟨hminus, hlen⟩)
    · rw [if_neg hminus] at hunsigned
      subst hunsigned
      have hdigit := (hstart.resolve_left hminus).symm.trans (congrArg (fun c => isDigit (peek c)) heq)
      exact absurd hdigit.symm (by simp [isDigit_peek_digits])
  obtain ⟨c₂, hfraction, hexponent⟩ := bind_eq_ok.mp h
  obtain ⟨point, hpoint, hp⟩ := fraction_ok hfraction
  obtain ⟨power, hpower, he⟩ := exponent_ok hexponent
  refine ⟨sign ++ (d ++ (point ++ power)), ?_, .mk hs ⟨hnonempty, hd⟩ (fun hhead => ?_) hp he⟩
  · simp only [List.append_assoc]
    rw [← hpower, ← hpoint, ← heq, ← hsign]
  · cases d with
    | nil => exact absurd rfl hnonempty
    | cons b d =>
      obtain rfl : b = byte '0' := Option.some.inj hhead
      cases d with
      | nil => rfl
      | cons b' d =>
        refine absurd (.inl ⟨?_, ?_⟩) hcore
        · rw [heq]
          rfl
        · rw [hlen]
          exact Nat.lt_add_of_pos_left (Nat.succ_pos _)

end Numbers

/-! ## 4. Strings -/

section Strings

variable {b : UInt8} {c stop t : Cursor} {escapes : List Cursor}

/-- A byte that stands for itself. -/
def Raw (b : UInt8) : Prop := ¬ b ≤ 0x1F ∧ b ≠ byte '"' ∧ b ≠ byte '\\'

theorem scan_raw (ht : ∀ b ∈ t, Raw b) (c : Cursor) : scan (t ++ c) = scan c := by
  induction t with
  | nil => rfl
  | cons b t ih =>
    obtain ⟨hcontrol, hquote, hslash⟩ := ht b List.mem_cons_self
    rw [List.cons_append, scan, if_neg hquote, if_neg hslash, if_neg hcontrol]
    exact ih fun b' hb' => ht b' (List.mem_cons_of_mem b hb')

theorem scan_escape (b : UInt8) (c : Cursor) : scan (byte '\\' :: b :: c) =
    (scan c).map fun (stop, escapes) => (stop, (byte '\\' :: b :: c) :: escapes) := by
  rw [scan, if_neg (by decide), if_pos rfl]
  rfl

theorem raw_hexValue {x : UInt8} (h : hexValue b = some x) : Raw b := by
  have hall : ∀ n : Fin 256, (hexValue (UInt8.ofNat n)).isSome = true →
      ¬ UInt8.ofNat n ≤ 0x1F ∧ UInt8.ofNat n ≠ byte '"' ∧ UInt8.ofNat n ≠ byte '\\' := by decide +kernel
  have hb := hall ⟨b.toNat, b.toNat_lt⟩
  simp only [UInt8.ofNat_toNat] at hb
  exact hb (by rw [h]; rfl)

theorem raw_hexCode {codepoint : Nat} (h : hexCode t = some codepoint) : ∀ b ∈ t, Raw b := by
  obtain ⟨digits, hdigits, -⟩ := Option.map_eq_some_iff.mp h
  clear h
  induction t generalizing digits with
  | nil => exact fun _ hb => by cases hb
  | cons b t ih =>
    rw [List.mapM_cons] at hdigits
    obtain ⟨x, hx, hmore⟩ := Option.bind_eq_some_iff.mp hdigits
    obtain ⟨more, hmore, -⟩ := Option.bind_eq_some_iff.mp hmore
    intro b' hb'
    obtain rfl | hb' := List.mem_cons.mp hb'
    · exact raw_hexValue hx
    · exact ih more hmore b' hb'

theorem upTo_append (t c : Cursor) : upTo (t ++ c) c = t := by
  rw [upTo, List.length_append, Nat.add_sub_cancel]
  exact List.take_left

/-- One escape, and the rest of the string behind it. -/
theorem unescape_cons {pre slash next written more : Bytes}
    (hescape : escape (pre ++ slash) slash stop = .ok (written, next)) (hmore : unescape stop next escapes = .ok more) :
    unescape stop (pre ++ slash) (slash :: escapes) = .ok (pre ++ (written ++ more)) := by
  have hle : ¬ (pre ++ slash).length < slash.length := by
    rw [List.length_append]
    omega
  rw [unescape, if_neg hle, hescape, upTo_append]
  simp only [bind, Except.bind, hmore, List.append_assoc]

theorem escape_same {chunk : Cursor} (hb : b = byte '"' ∨ b = byte '/') :
    escape chunk (byte '\\' :: b :: c) stop = .ok ([], b :: c) := by
  have hpeek : peek (byte '\\' :: b :: c).tail = b := rfl
  rw [escape, hpeek]
  exact if_pos hb

theorem not_same {x : UInt8} (hb : shortEscape b = some x) : ¬ (b = byte '"' ∨ b = byte '/') := by
  have hquote : shortEscape (byte '"') = none := by decide
  have hslash : shortEscape (byte '/') = none := by decide
  rintro (rfl | rfl)
  · rw [hquote] at hb
    cases hb
  · rw [hslash] at hb
    cases hb

theorem escape_short {chunk : Cursor} {x : UInt8} (hb : shortEscape b = some x) :
    escape chunk (byte '\\' :: b :: c) stop = .ok ([x], c) := by
  have hpeek : peek (byte '\\' :: b :: c).tail = b := rfl
  rw [escape, hpeek]
  simp only [if_neg (not_same hb), hb]
  rfl

theorem escape_unicode (chunk c stop : Cursor) :
    escape chunk (byte '\\' :: byte 'u' :: c) stop = unicodeEscape chunk (byte '\\' :: byte 'u' :: c) stop := by
  have hpeek : peek (byte '\\' :: byte 'u' :: c).tail = byte 'u' := rfl
  rw [escape, hpeek]
  rfl

theorem hex4_append {four : Bytes} {codepoint : Nat} (hlen : four.length = 4) (hcode : hexCode four = some codepoint)
    (hstop : stop.length ≤ c.length) : hex4 (byte '\\' :: byte 'u' :: (four ++ c)) stop = .ok codepoint := by
  have hdrop : (byte '\\' :: byte 'u' :: (four ++ c)).drop 2 = four ++ c := rfl
  have hle : stop.length + 4 ≤ (four ++ c).length := by
    rw [List.length_append]
    omega
  have htake : (four ++ c).take 4 = four := hlen ▸ List.take_left
  rw [hex4, hdrop, if_pos hle, htake, hcode]

theorem drop_unicode {four : Bytes} (hlen : four.length = 4) (c : Cursor) :
    (byte '\\' :: byte 'u' :: (four ++ c)).drop 6 = c := by
  show (four ++ c).drop 4 = c
  rw [← hlen]
  exact List.drop_left

theorem unicodeEscape_code {chunk : Cursor} {four : Bytes} {codepoint : Nat} (hlen : four.length = 4)
    (hcode : hexCode four = some codepoint) (hhigh : isHigh codepoint = false) (hstop : stop.length ≤ c.length) :
    unicodeEscape chunk (byte '\\' :: byte 'u' :: (four ++ c)) stop = .ok (encode codepoint, c) := by
  rw [unicodeEscape, hex4_append hlen hcode hstop, drop_unicode hlen]
  simp [bind, Except.bind, hhigh]

theorem unicodeEscape_pair {chunk : Cursor} {four more : Bytes} {high low : Nat} (hlen : four.length = 4)
    (hcode : hexCode four = some high) (hhigh : isHigh high = true) (hmore : more.length = 4)
    (hcode' : hexCode more = some low) (hlow : isLow low = true) (hstop : stop.length ≤ c.length) :
    unicodeEscape chunk (byte '\\' :: byte 'u' :: (four ++ byte '\\' :: byte 'u' :: (more ++ c))) stop =
      .ok (encode (combine high low), c) := by
  have hle : stop.length ≤ (byte '\\' :: byte 'u' :: (more ++ c)).length := by
    simp only [List.length_cons, List.length_append]
    omega
  have hroom : ¬ ((byte '\\' :: byte 'u' :: (more ++ c)).length < stop.length + 6 ∨
      (byte '\\' :: byte 'u' :: (more ++ c)).take 2 ≠ [byte '\\', byte 'u']) := by
    rintro (hshort | hne)
    · simp only [List.length_cons, List.length_append, hmore] at hshort
      omega
    · exact hne rfl
  rw [unicodeEscape, hex4_append hlen hcode hle, drop_unicode hlen]
  simp only [bind, Except.bind, hhigh, if_true, if_neg hroom, hex4_append hmore hcode' hstop, hlow, drop_unicode hmore]

/-- **A string is read to its closing quote.** -/
theorem unescape_str {body out : Bytes} (h : Str body out) (rest : Bytes) :
    ∃ escapes, scan (body ++ byte '"' :: rest) = .ok (byte '"' :: rest, escapes) ∧
      ∀ pre, unescape (byte '"' :: rest) (pre ++ (body ++ byte '"' :: rest)) escapes = .ok (pre ++ out) := by
  induction h with
  | nil =>
    refine ⟨[], by rw [List.nil_append, scan, if_pos rfl], fun pre => ?_⟩
    rw [List.nil_append, unescape, upTo_append, List.append_nil]
  | @raw b body out hcontrol hquote hslash _ ih =>
    obtain ⟨escapes, hscan, hunescape⟩ := ih
    refine ⟨escapes, ?_, fun pre => ?_⟩
    · rw [List.cons_append, scan, if_neg hquote, if_neg hslash, if_neg hcontrol, hscan]
    · have hmore := hunescape (pre ++ [b])
      simpa using hmore
  | @same b body out hb _ ih =>
    obtain ⟨escapes, hscan, hunescape⟩ := ih
    refine ⟨_, by rw [List.cons_append, List.cons_append, scan_escape, hscan]; rfl, fun pre => ?_⟩
    have hmore := hunescape [b]
    exact unescape_cons (escape_same hb) hmore
  | @short b x body out hb _ ih =>
    obtain ⟨escapes, hscan, hunescape⟩ := ih
    refine ⟨_, by rw [List.cons_append, List.cons_append, scan_escape, hscan]; rfl, fun pre => ?_⟩
    exact unescape_cons (escape_short hb) (hunescape [])
  | @code four body out codepoint hlen hcode hhigh _ ih =>
    obtain ⟨escapes, hscan, hunescape⟩ := ih
    have hstop : (byte '"' :: rest).length ≤ (body ++ byte '"' :: rest).length := by
      rw [List.length_append]
      omega
    simp only [List.cons_append, List.append_assoc]
    refine ⟨_, by rw [scan_escape, scan_raw (raw_hexCode hcode), hscan]; rfl, fun pre => ?_⟩
    refine unescape_cons ?_ (hunescape [])
    rw [escape_unicode]
    exact unicodeEscape_code hlen hcode hhigh hstop
  | @pair four more body out high low hlen hcode hhigh hmore hcode' hlow _ ih =>
    obtain ⟨escapes, hscan, hunescape⟩ := ih
    have hstop : (byte '"' :: rest).length ≤ (body ++ byte '"' :: rest).length := by
      rw [List.length_append]
      omega
    simp only [List.cons_append, List.append_assoc]
    -- the scan finds both escapes, and the first one's reading takes the second
    have hread : (body ++ byte '"' :: rest).length <
        (byte '\\' :: byte 'u' :: (more ++ (body ++ byte '"' :: rest))).length := by
      simp only [List.length_cons, List.length_append]
      omega
    have hskip : unescape (byte '"' :: rest) (body ++ byte '"' :: rest)
        ((byte '\\' :: byte 'u' :: (more ++ (body ++ byte '"' :: rest))) :: escapes) = .ok out := by
      rw [unescape, if_pos hread]
      exact hunescape []
    refine ⟨(byte '\\' :: byte 'u' :: (four ++ byte '\\' :: byte 'u' :: (more ++ (body ++ byte '"' :: rest)))) ::
      (byte '\\' :: byte 'u' :: (more ++ (body ++ byte '"' :: rest))) :: escapes, ?_, fun pre => ?_⟩
    · rw [scan_escape, scan_raw (raw_hexCode hcode), scan_escape, scan_raw (raw_hexCode hcode'), hscan]
      rfl
    · refine unescape_cons ?_ hskip
      rw [escape_unicode]
      exact unicodeEscape_pair hlen hcode hhigh hmore hcode' hlow hstop

/-- What a scan finds at its first byte. -/
theorem scan_cases (h : scan c = .ok (stop, escapes)) :
    (∃ rest, c = byte '"' :: rest ∧ stop = c ∧ escapes = []) ∨
    (∃ b rest escapes', c = byte '\\' :: b :: rest ∧ escapes = c :: escapes' ∧ scan rest = .ok (stop, escapes')) ∨
    ∃ b rest, c = b :: rest ∧ Raw b ∧ scan rest = .ok (stop, escapes) := by
  cases c with
  | nil =>
    rw [scan] at h
    cases h
  | cons b rest =>
    rw [scan] at h
    split at h
    · next hquote =>
      cases h
      exact .inl ⟨rest, by rw [hquote], rfl, rfl⟩
    · next hquote =>
      split at h
      · next hslash =>
        subst hslash
        cases rest with
        | nil =>
          rw [List.tail_nil, scan] at h
          cases h
        | cons b rest =>
          obtain ⟨⟨stop', escapes'⟩, hscan, heq⟩ := map_eq_ok.mp h
          cases heq
          exact .inr (.inl ⟨b, rest, escapes', rfl, rfl, hscan⟩)
      · next hslash =>
        split at h
        · cases h
        · next hcontrol => exact .inr (.inr ⟨b, rest, rfl, ⟨hcontrol, hquote, hslash⟩, h⟩)

theorem unescape_cons_ok {pre slash total : Bytes} (h : unescape stop (pre ++ slash) (slash :: escapes) = .ok total) :
    ∃ written next more, escape (pre ++ slash) slash stop = .ok (written, next) ∧
      unescape stop next escapes = .ok more ∧ total = pre ++ (written ++ more) := by
  have hle : ¬ (pre ++ slash).length < slash.length := by
    rw [List.length_append]
    omega
  rw [unescape, if_neg hle] at h
  obtain ⟨⟨written, next⟩, hescape, h⟩ := bind_eq_ok.mp h
  obtain ⟨more, hmore, h⟩ := bind_eq_ok.mp h
  rw [upTo_append, List.append_assoc] at h
  exact ⟨written, next, more, hescape, hmore, (Except.ok.inj h).symm⟩

theorem hex4_ok {codepoint : Nat} (h : hex4 (byte '\\' :: byte 'u' :: c) stop = .ok codepoint) :
    ∃ four, four.length = 4 ∧ hexCode four = some codepoint ∧ c = four ++ c.drop 4 := by
  have hdrop : (byte '\\' :: byte 'u' :: c).drop 2 = c := rfl
  rw [hex4, hdrop] at h
  split at h
  · next hlen =>
    split at h
    · next hcode =>
      cases h
      refine ⟨c.take 4, ?_, hcode, (List.take_append_drop 4 c).symm⟩
      rw [List.length_take]
      omega
    · cases h
  · cases h

/-- An `u` escape that is read: one code point, or the two halves of a pair. -/
theorem unicodeEscape_ok {chunk written next : Bytes}
    (h : unicodeEscape chunk (byte '\\' :: byte 'u' :: c) stop = .ok (written, next)) :
    ∃ four codepoint, four.length = 4 ∧ hexCode four = some codepoint ∧
      (isHigh codepoint = false ∧ c = four ++ next ∧ written = encode codepoint ∨
        isHigh codepoint = true ∧ ∃ more low, more.length = 4 ∧ hexCode more = some low ∧ isLow low = true ∧
          c = four ++ byte '\\' :: byte 'u' :: (more ++ next) ∧ written = encode (combine codepoint low)) := by
  obtain ⟨codepoint, hhex, h⟩ := bind_eq_ok.mp h
  obtain ⟨four, hlen, hcode, hc⟩ := hex4_ok hhex
  refine ⟨four, codepoint, hlen, hcode, ?_⟩
  have hdrop : (byte '\\' :: byte 'u' :: c).drop 6 = c.drop 4 := rfl
  dsimp only at h
  rw [hdrop] at h
  split at h
  · next hhigh =>
    split at h
    · cases h
    · next hroom =>
      obtain ⟨low, hhex', h⟩ := bind_eq_ok.mp h
      split at h
      · next hlow =>
        cases h
        have htwo : (c.drop 4).take 2 = [byte '\\', byte 'u'] := Decidable.not_not.mp (not_or.mp hroom).2
        have hsecond : c.drop 4 = byte '\\' :: byte 'u' :: (c.drop 4).drop 2 := by
          calc c.drop 4 = (c.drop 4).take 2 ++ (c.drop 4).drop 2 := (List.take_append_drop 2 _).symm
            _ = byte '\\' :: byte 'u' :: (c.drop 4).drop 2 := by rw [htwo]; rfl
        rw [hsecond] at hhex'
        obtain ⟨more, hmore, hcode', hc'⟩ := hex4_ok hhex'
        have hsix : ((c.drop 4).drop 2).drop 4 = (c.drop 4).drop 6 := List.drop_drop
        rw [hsix] at hc'
        rw [hc'] at hsecond
        exact .inr ⟨hhigh, more, low, hmore, hcode', hlow, hc.trans (congrArg (four ++ ·) hsecond), rfl⟩
      · cases h
  · next hhigh =>
    cases h
    exact .inl ⟨by simpa using hhigh, hc, rfl⟩

/-- An escape that is read. -/
theorem escape_ok {chunk written next : Bytes} (h : escape chunk (byte '\\' :: b :: c) stop = .ok (written, next)) :
    (b = byte '"' ∨ b = byte '/') ∧ written = [] ∧ next = b :: c ∨
    (∃ x, shortEscape b = some x ∧ written = [x] ∧ next = c) ∨
    b = byte 'u' ∧ unicodeEscape chunk (byte '\\' :: b :: c) stop = .ok (written, next) := by
  have htail : (byte '\\' :: b :: c).tail = b :: c := rfl
  have hpeek : peek (b :: c) = b := rfl
  rw [escape, htail, hpeek] at h
  split at h
  · next hsame =>
    cases h
    exact .inl ⟨hsame, rfl, rfl⟩
  · split at h
    · next x hshort =>
      cases h
      exact .inr (.inl ⟨x, hshort, rfl, rfl⟩)
    · split at h
      · next hu => exact .inr (.inr ⟨hu, h⟩)
      · split at h
        · cases h
        · split at h
          · cases h
          · split at h <;> cases h

/-- **What is read is the inside of a string**, whatever of its chunk came before. -/
theorem scan_ok (h : scan c = .ok (stop, escapes)) {pre total : Bytes}
    (hread : unescape stop (pre ++ c) escapes = .ok total) :
    ∃ body out rest, c = body ++ stop ∧ stop = byte '"' :: rest ∧ Str body out ∧ total = pre ++ out := by
  induction hlen : c.length using Nat.strong_induction_on generalizing c pre total escapes with
  | _ n ih =>
    obtain ⟨rest, rfl, rfl, rfl⟩ | ⟨b, rest, escapes, rfl, rfl, hscan⟩ | ⟨b, rest, rfl, hraw, hscan⟩ := scan_cases h
    · rw [unescape, upTo_append] at hread
      exact ⟨[], [], rest, rfl, rfl, .nil, by rw [List.append_nil]; exact (Except.ok.inj hread).symm⟩
    · obtain ⟨written, next, more, hescape, hmore, rfl⟩ := unescape_cons_ok hread
      obtain ⟨hsame, rfl, rfl⟩ | ⟨x, hshort, rfl, rfl⟩ | ⟨rfl, hunicode⟩ := escape_ok hescape
      · obtain ⟨body, out, rest', rfl, hstop, hbody, rfl⟩ :=
          @ih rest.length (by simp at hlen; omega) rest escapes hscan [b] more hmore rfl
        exact ⟨_, _, rest', rfl, hstop, .same hsame hbody, rfl⟩
      · obtain ⟨body, out, rest', rfl, hstop, hbody, rfl⟩ :=
          @ih next.length (by simp at hlen; omega) next escapes hscan [] more hmore rfl
        exact ⟨_, _, rest', rfl, hstop, .short hshort hbody, rfl⟩
      · obtain ⟨four, codepoint, hfour, hcode, hwritten⟩ := unicodeEscape_ok hunicode
        obtain ⟨hhigh, rfl, rfl⟩ | ⟨hhigh, four', low, hfour', hcode', hlow, rfl, rfl⟩ := hwritten
        · rw [scan_raw (raw_hexCode hcode)] at hscan
          obtain ⟨body, out, rest', rfl, hstop, hbody, rfl⟩ :=
            @ih next.length (by simp at hlen; omega) next escapes hscan [] more hmore rfl
          refine ⟨_, _, rest', ?_, hstop, .code hfour hcode hhigh hbody, rfl⟩
          simp
        · -- the scan went on over the second half, whose reading is skipped
          rw [scan_raw (raw_hexCode hcode), scan_escape, scan_raw (raw_hexCode hcode')] at hscan
          obtain ⟨⟨stop', escapes'⟩, hrest, heq⟩ := map_eq_ok.mp hscan
          cases heq
          have hskip : next.length < (byte '\\' :: byte 'u' :: (four' ++ next)).length := by
            simp only [List.length_cons, List.length_append]
            omega
          rw [unescape, if_pos hskip] at hmore
          obtain ⟨body, out, rest', rfl, hstop, hbody, rfl⟩ :=
            @ih next.length (by simp at hlen; omega) next escapes' hrest [] more hmore rfl
          refine ⟨_, _, rest', ?_, hstop, .pair hfour hcode hhigh hfour' hcode' hlow hbody, rfl⟩
          simp
    · obtain ⟨body, out, rest', rfl, hstop, hbody, rfl⟩ :=
        @ih rest.length (by simp at hlen; omega) rest escapes hscan (pre ++ [b]) total (by simpa using hread) rfl
      exact ⟨b :: body, b :: out, rest', rfl, hstop, .raw hraw.1 hraw.2.1 hraw.2.2 hbody, by simp⟩

/-- **A string is read as the grammar has it.** -/
theorem string_ok_iff {out : Bytes} {c' : Cursor} :
    string (b :: c) = .ok (out, c') ↔ ∃ body, Str body out ∧ c = body ++ byte '"' :: c' := by
  constructor
  · intro h
    obtain ⟨⟨stop, escapes⟩, hscan, h⟩ := bind_eq_ok.mp h
    obtain ⟨read, hread, h⟩ := bind_eq_ok.mp h
    cases h
    obtain ⟨body, out, rest, heq, rfl, hbody, rfl⟩ := @scan_ok _ _ _ hscan [] _ hread
    exact ⟨body, hbody, heq⟩
  · rintro ⟨body, hbody, rfl⟩
    obtain ⟨escapes, hscan, hread⟩ := unescape_str hbody c'
    have hread : unescape (byte '"' :: c') (body ++ byte '"' :: c') escapes = .ok out := hread []
    simp only [string, List.tail_cons, hscan, hread, bind, Except.bind]

end Strings

end Smartfire.SgidJson
