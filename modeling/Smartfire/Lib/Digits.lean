/-
  File:      Smartfire/Lib/Digits.lean
  Subject:   Decimal digits and their value.

  * `digitsValue` -- the number digits write;
  * `digitsValue_toDigits` -- a number's digits write it;
  * `toDigits_digitsValue` -- without a leading zero, digits are those of their value;
  * `append_sep_inj` -- what stands after the last separator of a text.
-/
import Mathlib.Data.List.Basic
import Mathlib.Data.List.Induction
import Mathlib.Data.Nat.Init
import Mathlib.Tactic.Common

namespace Lib

def digitsValue (digits : List Char) : Nat := digits.foldl (fun n c => 10 * n + (c.toNat - 48)) 0

section Digits

variable {digits : List Char} {n : Nat}

theorem digitsValue_append (digits : List Char) (c : Char) :
    digitsValue (digits ++ [c]) = 10 * digitsValue digits + (c.toNat - 48) := by
  rw [digitsValue, List.foldl_append]
  rfl

theorem digitChar_value : ∀ n : Fin 10, (Nat.digitChar n).toNat - 48 = n := by decide

theorem toDigits_step (h : 10 ≤ n) : Nat.toDigits 10 n = Nat.toDigits 10 (n / 10) ++ [Nat.digitChar (n % 10)] :=
  Nat.toDigits_of_base_le (by decide) h

theorem digitsValue_toDigits (n : Nat) : digitsValue (Nat.toDigits 10 n) = n := by
  induction n using Nat.strong_induction_on with
  | _ n ih =>
    by_cases h : 10 ≤ n
    · rw [toDigits_step h, digitsValue_append, ih (n / 10) (by omega)]
      have hdigit := digitChar_value ⟨n % 10, by omega⟩
      simp only at hdigit
      omega
    · rw [Nat.toDigits_of_lt_base (by omega)]
      simpa [digitsValue] using digitChar_value ⟨n, by omega⟩

theorem head_toDigits (h : 0 < n) : (Nat.toDigits 10 n).head? ≠ some '0' := by
  induction n using Nat.strong_induction_on with
  | _ n ih =>
    by_cases h10 : 10 ≤ n
    · rw [toDigits_step h10, List.head?_append_of_ne_nil _ Nat.toDigits_ne_nil]
      exact ih (n / 10) (by omega) (by omega)
    · rw [Nat.toDigits_of_lt_base (by omega)]
      have hne : ∀ d : Fin 10, 0 < d.val → Nat.digitChar d ≠ '0' := by decide
      simpa using hne ⟨n, by omega⟩ h

/-- A digit that is not a zero is the text of its value. -/
theorem toDigits_digit (hd : digits.all Char.isDigit = true) {c : Char} (hc : c ∈ digits) :
    ∃ d : Fin 10, c = Nat.digitChar d := by
  have hdigit := List.all_eq_true.mp hd c hc
  have hrange : 48 ≤ c.toNat ∧ c.toNat ≤ 57 := by
    simp only [Char.isDigit, Bool.and_eq_true, decide_eq_true_eq] at hdigit
    exact hdigit
  refine ⟨⟨c.toNat - 48, by omega⟩, ?_⟩
  have hall : ∀ d : Fin 10, Char.ofNat (d + 48) = Nat.digitChar d := by decide
  rw [← hall, Nat.sub_add_cancel hrange.1, Char.ofNat_toNat]

/-- A number without a leading zero is the text of its value. -/
theorem toDigits_digitsValue (hd : digits.all Char.isDigit = true) (hne : digits ≠ [])
    (hhead : digits.head? ≠ some '0') : 0 < digitsValue digits ∧ Nat.toDigits 10 (digitsValue digits) = digits := by
  induction digits using List.reverseRecOn with
  | nil => exact absurd rfl hne
  | append_singleton digits c ih =>
    obtain ⟨d, rfl⟩ := toDigits_digit hd (List.mem_append_right digits (List.mem_singleton_self c))
    have hvalue := digitChar_value d
    rw [digitsValue_append, hvalue]
    by_cases hnil : digits = []
    · subst hnil
      have hpos : 0 < d.val := by
        by_contra hzero
        have hd0 : d = 0 := Fin.ext (by simpa using hzero)
        exact hhead (by rw [hd0]; rfl)
      exact ⟨by omega, by simpa [digitsValue] using Nat.toDigits_of_lt_base d.isLt⟩
    · rw [List.head?_append_of_ne_nil _ hnil] at hhead
      rw [List.all_append, Bool.and_eq_true] at hd
      obtain ⟨hpos, htext⟩ := ih hd.1 hnil hhead
      refine ⟨by omega, ?_⟩
      rw [toDigits_step (by omega)]
      have hdiv : (10 * digitsValue digits + d) / 10 = digitsValue digits := by omega
      have hmod : (10 * digitsValue digits + d) % 10 = d := by omega
      rw [hdiv, hmod, htext]

/-- Zeros in front add nothing. -/
theorem digitsValue_leftpad (k : Nat) (digits : List Char) : digitsValue (digits.leftpad k '0') = digitsValue digits := by
  have hzeros (j : Nat) : (List.replicate j '0').foldl (fun n c => 10 * n + (c.toNat - 48)) 0 = 0 := by
    induction j with
    | zero => rfl
    | succ j ih => exact ih
  rw [List.leftpad, digitsValue, List.foldl_append, hzeros]
  rfl

end Digits

/-- A separator is no digit. -/
theorem colon_notMem_toDigits (n : Nat) : ':' ∉ Nat.toDigits 10 n := fun h => by
  have := Nat.isDigit_of_mem_toDigits (by decide) (by decide) h
  exact absurd this (by decide)

/-- Digits after the last separator: the same text has the same ones. -/
theorem append_sep_inj {c : Char} {l l' digits digits' : List Char} (h : l ++ c :: digits = l' ++ c :: digits')
    (hd : c ∉ digits) (hd' : c ∉ digits') : l = l' ∧ digits = digits' := by
  rcases List.append_eq_append_iff.mp h with ⟨m, hl, hr⟩ | ⟨m, hl, hr⟩
  · cases m with
    | nil => exact ⟨by simpa using hl.symm, by simpa using hr⟩
    | cons a m =>
      obtain ⟨rfl, hr⟩ := List.cons.inj hr
      exact absurd (by simp [List.cons.inj hr]) hd
  · cases m with
    | nil => exact ⟨by simpa using hl, by simpa using hr.symm⟩
    | cons a m =>
      obtain ⟨rfl, hr⟩ := List.cons.inj hr
      exact absurd (by simp [List.cons.inj hr]) hd'

end Lib
