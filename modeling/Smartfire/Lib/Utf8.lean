/-
  File:      Smartfire/Lib/Utf8.lean
  Subject:   Valid UTF-8 is a list of characters.

  * `Utf8`, `validUtf8_iff` -- what the check accepts, character by character;
  * `Utf8.append`, `Utf8.ascii` -- putting texts together;
  * `Steady`, `Utf8.steady` -- behind an ASCII byte a character starts; every part of a text keeps that;
  * `charBoundary`, `slice` -- taking a part of a text at two offsets, which fails inside a character.
-/
import Smartfire.Lib.Bytes
import Mathlib.Data.List.Chain
import Mathlib.Data.List.TakeWhile

namespace Lib

/-! ## 1. One character -/

section Char

variable {first : UInt8} {rest : Bytes}

theorem utf8Step_short (h : utf8Width first ≤ 1) :
    utf8Step (first :: rest) = (decide (utf8Width first = 1), 1) := by
  simp [utf8Step, h]

theorem utf8Step_long (h : 1 < utf8Width first) : utf8Step (first :: rest) =
    (decide (utf8Fits first rest + 1 = utf8Width first), utf8Fits first rest + 1) := by
  simp [utf8Step, Nat.not_le.mpr h]

/-- What is read as fitting is there. -/
theorem utf8Fits_le (first : UInt8) (rest : Bytes) : utf8Fits first rest ≤ rest.length := by
  cases rest with
  | nil => simp [utf8Fits]
  | cons second rest =>
    have htake := (List.takeWhile_sublist isContinuation (l := rest.take (utf8Width first - 2))).length_le
    simp only [List.length_take] at htake
    simp only [utf8Fits, List.length_cons]
    split <;> omega

/-- What fits is not more than the character takes. -/
theorem utf8Fits_lt (h : 1 < utf8Width first) (rest : Bytes) : utf8Fits first rest < utf8Width first := by
  cases rest with
  | nil => simpa [utf8Fits] using by omega
  | cons second rest =>
    have htake := (List.takeWhile_sublist isContinuation (l := rest.take (utf8Width first - 2))).length_le
    simp only [List.length_take] at htake
    simp only [utf8Fits]
    split <;> omega

/-- A whole character fits whatever comes after it, and without it. -/
theorem utf8Fits_append (h : 1 < utf8Width first) (hlen : rest.length + 1 = utf8Width first)
    (tail : Bytes) :
    utf8Fits first (rest ++ tail) = utf8Fits first rest := by
  cases rest with
  | nil => simp at hlen; omega
  | cons second rest =>
    have hlen' : utf8Width first - 2 = rest.length := by simp at hlen; omega
    simp only [List.cons_append, utf8Fits, hlen', List.take_left, List.take_length]

end Char

/-- The bytes are one character. -/
def IsChar (c : Bytes) : Prop := utf8Step c = (true, c.length)

theorem isChar_ascii {b : UInt8} (h : b < 0x80) : IsChar [b] := by
  simp [IsChar, utf8Step, utf8Width, h]

/-- One byte, or as many as its first byte takes. -/
theorem isChar_cons {first : UInt8} {rest : Bytes} : IsChar (first :: rest) ↔
    (rest = [] ∧ utf8Width first = 1) ∨
      1 < utf8Width first ∧ utf8Fits first rest + 1 = utf8Width first ∧
        rest.length + 1 = utf8Width first := by
  unfold IsChar
  by_cases h : utf8Width first ≤ 1
  · rw [utf8Step_short h]
    simp only [Prod.mk.injEq, decide_eq_true_eq, List.length_cons, Nat.not_lt.mpr h, false_and, or_false]
    constructor
    · rintro ⟨hw, hlen⟩
      exact ⟨List.eq_nil_of_length_eq_zero (by omega), hw⟩
    · rintro ⟨rfl, hw⟩
      exact ⟨hw, rfl⟩
  · rw [utf8Step_long (Nat.not_le.mp h)]
    simp only [Prod.mk.injEq, decide_eq_true_eq, List.length_cons]
    omega

/-- The check's step takes a character off whatever comes after it. -/
theorem IsChar.step_append {c : Bytes} (h : IsChar c) (rest : Bytes) :
    utf8Step (c ++ rest) = (true, c.length) := by
  cases c with
  | nil => simp [IsChar, utf8Step] at h
  | cons first c =>
    obtain ⟨rfl, hw⟩ | ⟨hw, hfits, hlen⟩ := isChar_cons.mp h
    · simp [utf8Step_short, hw]
    · rw [List.cons_append, utf8Step_long hw, utf8Fits_append hw hlen]
      simp [hfits, hlen]

/-- Where the step accepts, what it takes is a character. -/
theorem isChar_of_step {s : Bytes} {n : Nat} (h : utf8Step s = (true, n)) :
    IsChar (s.take n) ∧ 0 < n ∧ n ≤ s.length := by
  cases s with
  | nil => simp [utf8Step] at h
  | cons first rest =>
    by_cases hw : utf8Width first ≤ 1
    · rw [utf8Step_short hw] at h
      obtain ⟨h₁, rfl⟩ := Prod.mk.inj h
      exact ⟨isChar_cons.mpr (.inl ⟨rfl, by simpa using h₁⟩), by simp, by simp⟩
    · have hw' := Nat.not_le.mp hw
      rw [utf8Step_long hw'] at h
      obtain ⟨h₁, rfl⟩ := Prod.mk.inj h
      have hfits : utf8Fits first rest + 1 = utf8Width first := by simpa using h₁
      have hle := utf8Fits_le first rest
      have hlen : (rest.take (utf8Fits first rest)).length + 1 = utf8Width first := by
        rw [List.length_take, Nat.min_eq_left hle, hfits]
      have hsame := utf8Fits_append hw' hlen (rest.drop (utf8Fits first rest))
      rw [List.take_append_drop] at hsame
      refine ⟨?_, by simp, by simpa using hle⟩
      rw [List.take_succ_cons]
      exact isChar_cons.mpr (.inr ⟨hw', by rw [← hsame, hfits], hlen⟩)

/-! ## 2. Texts -/

/-- Characters behind each other. -/
inductive Utf8 : Bytes → Prop
  | nil : Utf8 []
  | char {c rest : Bytes} (hc : IsChar c) (hrest : Utf8 rest) : Utf8 (c ++ rest)

theorem IsChar.pos {c : Bytes} (h : IsChar c) : 0 < c.length := by
  have hstep : utf8Step c = (true, c.length) := h
  exact (isChar_of_step hstep).2.1

theorem utf8_of_validFuel {n : Nat} {s : Bytes} (hn : s.length ≤ n) (h : validFuel n s = true) : Utf8 s := by
  induction n generalizing s with
  | zero =>
    rw [List.eq_nil_of_length_eq_zero (Nat.le_zero.mp hn)]
    exact .nil
  | succ n ih =>
    cases s with
    | nil => exact .nil
    | cons first rest =>
      simp only [validFuel, Bool.and_eq_true] at h
      rcases hstep : utf8Step (first :: rest) with ⟨fits, k⟩
      rw [hstep] at h
      obtain ⟨hc, hpos, -⟩ := isChar_of_step (hstep.trans (Prod.ext h.1 rfl))
      have hlen : ((first :: rest).drop k).length ≤ n := by
        simp only [List.length_drop, List.length_cons] at hn ⊢
        omega
      rw [← List.take_append_drop k (first :: rest)]
      exact .char hc (ih hlen h.2)

theorem validFuel_of_utf8 {s : Bytes} (h : Utf8 s) {n : Nat} (hn : s.length ≤ n) : validFuel n s = true := by
  induction h generalizing n with
  | nil => cases n <;> rfl
  | @char c rest hc _ ih =>
    have hpos := hc.pos
    rw [List.length_append] at hn
    obtain ⟨n, rfl⟩ : ∃ m, n = m + 1 := ⟨n - 1, by omega⟩
    cases c with
    | nil => simp at hpos
    | cons first c =>
      have hstep := hc.step_append rest
      rw [List.cons_append] at hstep ⊢
      simp only [validFuel, hstep, Bool.true_and]
      rw [← List.cons_append, List.drop_left]
      exact ih (by omega)

/-- **What the check accepts is characters behind each other.** -/
theorem validUtf8_iff {s : Bytes} : validUtf8 s = true ↔ Utf8 s :=
  ⟨utf8_of_validFuel le_rfl, fun h => validFuel_of_utf8 h le_rfl⟩

theorem Utf8.append {x y : Bytes} (hx : Utf8 x) (hy : Utf8 y) : Utf8 (x ++ y) := by
  induction hx with
  | nil => exact hy
  | char hc _ ih =>
    rw [List.append_assoc]
    exact .char hc ih

theorem Utf8.ascii {s : Bytes} (h : ∀ b ∈ s, b < 0x80) : Utf8 s := by
  induction s with
  | nil => exact .nil
  | cons b s ih =>
    exact .char (isChar_ascii (h b List.mem_cons_self)) (ih fun x hx => h x (List.mem_cons_of_mem b hx))

/-! ## 3. Offsets -/

/-- `str::is_char_boundary`: the ends, and wherever a character starts. -/
def charBoundary (s : Bytes) (i : Nat) : Bool :=
  i = 0 || match s[i]? with
    | some b => !isContinuation b
    | none => i = s.length

/-- `&s[start..stop]`, which panics at an offset inside a character. -/
def slice (s : Bytes) (start stop : Nat) : Option Bytes :=
  if start ≤ stop ∧ stop ≤ s.length ∧ charBoundary s start ∧ charBoundary s stop then
    some ((s.take stop).drop start)
  else none

/-- Behind a byte of ASCII a character starts. -/
def Steady (s : Bytes) : Prop := s.IsChain fun b c => b < 0x80 → isContinuation c = false

theorem isContinuation_ascii {b : UInt8} (h : b < 0x80) : isContinuation b = false := by
  have hb : ¬ (0x80 ≤ b) := UInt8.not_le.mpr h
  simp [isContinuation, hb]

theorem not_ascii_of_isContinuation {b : UInt8} (h : isContinuation b = true) : ¬ b < 0x80 := fun hb => by
  simp [isContinuation_ascii hb] at h

theorem not_ascii_of_secondByte {first second : UInt8} (h : secondByte first second = true) :
    ¬ second < 0x80 := by
  simp only [secondByte, isContinuation] at h
  rw [UInt8.lt_iff_toNat_lt]
  split_ifs at h <;>
    simp only [Bool.and_eq_true, decide_eq_true_eq, UInt8.le_iff_toNat_le] at h <;>
    have h₁ := h.1 <;> simp at h₁ ⊢ <;> omega

/-- A character does not start with a continuation. -/
theorem isContinuation_first {first : UInt8} (h : utf8Width first ≠ 0) : isContinuation first = false := by
  by_contra hc
  simp only [Bool.not_eq_false, isContinuation, Bool.and_eq_true, decide_eq_true_eq,
    UInt8.le_iff_toNat_le] at hc
  apply h
  simp only [utf8Width, UInt8.lt_iff_toNat_lt, UInt8.le_iff_toNat_le, Bool.and_eq_true,
    decide_eq_true_eq]
  simp at hc ⊢
  split_ifs <;> omega

theorem IsChar.first {first : UInt8} {rest : Bytes} (h : IsChar (first :: rest)) :
    isContinuation first = false := by
  obtain ⟨-, hw⟩ | ⟨hw, -⟩ := isChar_cons.mp h
  · exact isContinuation_first (by omega)
  · exact isContinuation_first (by omega)

/-- A character of several bytes has none of ASCII. -/
theorem IsChar.not_ascii {first : UInt8} {rest : Bytes} (h : IsChar (first :: rest)) (hr : rest ≠ []) :
    ∀ b ∈ first :: rest, ¬ b < 0x80 := by
  obtain ⟨rfl, -⟩ | ⟨hw, hfits, hlen⟩ := isChar_cons.mp h
  · exact absurd rfl hr
  · obtain _ | ⟨second, tail⟩ := rest
    · exact absurd rfl hr
    have hw' : utf8Width first - 2 = tail.length := by simp at hlen; omega
    simp only [utf8Fits, hw', List.take_length] at hfits
    split at hfits
    · next hsecond =>
      have hall : tail.takeWhile isContinuation = tail :=
        (List.takeWhile_sublist _).eq_of_length (by simp at hlen; omega)
      have hfirst : ¬ first < 0x80 := fun hf => by simp [utf8Width, hf] at hw
      intro b hb
      obtain rfl | rfl | hb := by simpa using hb
      · exact hfirst
      · exact not_ascii_of_secondByte hsecond
      · exact not_ascii_of_isContinuation (List.mem_takeWhile_imp (hall ▸ hb))
    · omega

/-- **In a text a character starts behind each byte of ASCII.** -/
theorem Utf8.steady {s : Bytes} (h : Utf8 s) : Steady s := by
  induction h with
  | nil => exact .nil
  | @char c rest hc hrest ih =>
    have hhead : ∀ y ∈ rest.head?, isContinuation y = false := by
      cases hrest with
      | nil => simp
      | @char c' _ hc' _ =>
        cases c' with
        | nil => exact absurd hc'.pos (by simp)
        | cons first c' => simpa using hc'.first
    refine List.isChain_append.mpr ⟨?_, ih, fun _ _ y hy _ => hhead y hy⟩
    cases c with
    | nil => exact .nil
    | cons first c =>
      by_cases hr : c = []
      · subst hr
        exact .singleton _
      · refine List.isChain_iff_forall_rel_of_append_cons_cons.mpr fun b _ l₁ l₂ hl hb => ?_
        exact absurd hb (hc.not_ascii hr b (by simp [hl]))

/-- A text, as the bytes it is kept in. -/
structure Str where
  bytes : Bytes
  utf8 : validUtf8 bytes = true

theorem Str.steady (s : Str) : Steady s.bytes := (validUtf8_iff.mp s.utf8).steady

/-! ## 4. Slices at bytes of ASCII -/

section Slice

variable {s : Bytes} {i : Nat} {b : UInt8}

theorem charBoundary_zero (s : Bytes) : charBoundary s 0 = true := by simp [charBoundary]

theorem charBoundary_length (s : Bytes) : charBoundary s s.length = true := by simp [charBoundary]

theorem charBoundary_ascii (h : s[i]? = some b) (hb : b < 0x80) : charBoundary s i = true := by
  simp [charBoundary, h, isContinuation_ascii hb]

theorem Steady.boundary_succ (hs : Steady s) (h : s[i]? = some b) (hb : b < 0x80) :
    charBoundary s (i + 1) = true := by
  obtain ⟨hi, hib⟩ := List.getElem?_eq_some_iff.mp h
  by_cases hlast : i + 1 < s.length
  · have hnext := List.isChain_iff_getElem.mp hs i hlast
    rw [hib] at hnext
    simp [charBoundary, List.getElem?_eq_getElem hlast, hnext hb]
  · have hend : i + 1 = s.length := by omega
    rw [hend]
    exact charBoundary_length s

theorem slice_eq {start stop : Nat} (hle : start ≤ stop) (hstop : stop ≤ s.length)
    (h₁ : charBoundary s start = true) (h₂ : charBoundary s stop = true) :
    slice s start stop = some ((s.take stop).drop start) := if_pos ⟨hle, hstop, h₁, h₂⟩

theorem slice_from (hi : i ≤ s.length) (h : charBoundary s i = true) : slice s i s.length = some (s.drop i) := by
  rw [slice_eq hi le_rfl h (charBoundary_length s), List.take_length]

theorem slice_to (hi : i ≤ s.length) (h : charBoundary s i = true) : slice s 0 i = some (s.take i) := by
  rw [slice_eq (Nat.zero_le i) hi (charBoundary_zero s) h, List.drop_zero]

/-- Every part of a text of ASCII can be cut out. -/
theorem slice_ascii (h : ∀ b ∈ s, b < 0x80) {start stop : Nat} (hle : start ≤ stop) (hstop : stop ≤ s.length) :
    slice s start stop = some ((s.take stop).drop start) := by
  have hboundary : ∀ i ≤ s.length, charBoundary s i = true := by
    intro i hi
    rcases Nat.lt_or_eq_of_le hi with hlt | rfl
    · exact charBoundary_ascii (List.getElem?_eq_getElem hlt) (h _ (List.getElem_mem hlt))
    · exact charBoundary_length s
  exact slice_eq hle hstop (hboundary start (by omega)) (hboundary stop hstop)

theorem Steady.inside {t : Bytes} (hs : Steady s) (h : t <:+: s) : Steady t := List.IsChain.infix hs h

end Slice

end Lib
