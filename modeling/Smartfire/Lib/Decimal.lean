/-
  File:      Smartfire/Lib/Decimal.lean
  Subject:   Decimal numbers in texts of bytes.

  * `value`, `padded` -- the number digits write, and a number with zeros in front;
  * `value_padded`, `length_padded` -- it is read back, and is as long as asked for where it fits;
  * `lt_iff_value` -- digits of one length are ordered as their numbers are;
  * `readInt`, `parseInt` -- a number with a sign or without, and within the bounds of its type.
-/
import Mathlib.Data.Nat.Digits.Defs
import Smartfire.Lib.Bytes
import Smartfire.Lib.Digits

namespace Lib.Decimal

/-! ## 1. Digits -/

def isDigit (b : UInt8) : Bool := byte '0' ≤ b && b ≤ byte '9'

def value (s : Bytes) : Nat := s.foldl (fun n b => 10 * n + (b.toNat - 48)) 0

/-- A number in decimal, with zeros in front up to a width. -/
def padded (width n : Nat) : Bytes := ((Nat.toDigits 10 n).leftpad width '0').map byte

theorem isDigit_iff {b : UInt8} : isDigit b = true ↔ 48 ≤ b.toNat ∧ b.toNat ≤ 57 := by
  simp only [isDigit, Bool.and_eq_true, decide_eq_true_eq, UInt8.le_iff_toNat_le]
  rfl

theorem isDigit_byte {c : Char} (h : c.isDigit = true) : isDigit (byte c) = true ∧ (byte c).toNat = c.toNat := by
  have hrange : 48 ≤ c.toNat ∧ c.toNat ≤ 57 := by
    simp only [Char.isDigit, Bool.and_eq_true, decide_eq_true_eq] at h
    exact h
  have hbyte : (byte c).toNat = c.toNat := by
    rw [byte, UInt8.toNat_ofNat']
    omega
  exact ⟨isDigit_iff.mpr (by omega), hbyte⟩

/-- A text of digits has the value it had as characters. -/
theorem value_map_byte {digits : List Char} (h : digits.all Char.isDigit = true) :
    value (digits.map byte) = digitsValue digits := by
  induction digits using List.reverseRecOn with
  | nil => rfl
  | append_singleton digits c ih =>
    rw [List.all_append, Bool.and_eq_true] at h
    have hc : c.isDigit = true := by simpa using h.2
    rw [digitsValue_append, ← ih h.1, List.map_append, value, List.foldl_append]
    simp only [List.map_cons, List.map_nil, List.foldl_cons, List.foldl_nil, (isDigit_byte hc).2]
    rfl

theorem toDigits_all (n : Nat) : (Nat.toDigits 10 n).all Char.isDigit = true := by
  rw [List.all_eq_true]
  exact fun c hc => Nat.isDigit_of_mem_toDigits (by decide) (by decide) hc

theorem leftpad_all (width n : Nat) : ((Nat.toDigits 10 n).leftpad width '0').all Char.isDigit = true := by
  have hzero : Char.isDigit '0' = true := by decide
  rw [List.leftpad, List.all_append, Bool.and_eq_true]
  refine ⟨List.all_eq_true.mpr fun c hc => ?_, toDigits_all n⟩
  rw [List.eq_of_mem_replicate hc]
  exact hzero

/-- **What is written is the number.** -/
theorem value_padded (width n : Nat) : value (padded width n) = n := by
  rw [padded, value_map_byte (leftpad_all width n), digitsValue_leftpad, digitsValue_toDigits]

theorem isDigit_padded {width n : Nat} {b : UInt8} (h : b ∈ padded width n) : isDigit b = true := by
  obtain ⟨c, hc, rfl⟩ := List.mem_map.mp h
  exact (isDigit_byte (List.all_eq_true.mp (leftpad_all width n) c hc)).1

/-- A number that fits has the width asked for. -/
theorem length_padded {width n : Nat} (hw : 0 < width) (h : n < 10 ^ width) : (padded width n).length = width := by
  have hlen := Nat.toDigits_length 10 n width hw h
  rw [padded, List.length_map, List.length_leftpad]
  omega

theorem padded_ne_nil (width n : Nat) : padded width n ≠ [] := by
  intro h
  have hlen := congrArg List.length h
  have hpos : 0 < (Nat.toDigits 10 n).length := Nat.length_toDigits_pos
  rw [padded, List.length_map, List.length_leftpad, List.length_nil] at hlen
  omega

/-! ## 2. Order -/

theorem value_foldl (s : Bytes) (n : Nat) :
    s.foldl (fun n b => 10 * n + (b.toNat - 48)) n = n * 10 ^ s.length + value s := by
  induction s generalizing n with
  | nil => simp [value]
  | cons b s ih =>
    rw [value, List.foldl_cons, List.foldl_cons, ih, ih (10 * 0 + _), List.length_cons, Nat.pow_succ]
    ring

theorem value_cons (b : UInt8) (s : Bytes) : value (b :: s) = (b.toNat - 48) * 10 ^ s.length + value s := by
  rw [value, List.foldl_cons, value_foldl]
  simp

theorem value_append (s s' : Bytes) : value (s ++ s') = value s * 10 ^ s'.length + value s' := by
  rw [value, List.foldl_append, value_foldl]
  rfl

theorem value_zeros (k : Nat) : value (List.replicate k (byte '0')) = 0 := by
  induction k with
  | zero => rfl
  | succ k ih =>
    rw [List.replicate_succ, value_cons, ih]
    simp [byte]

theorem value_lt {s : Bytes} (h : ∀ b ∈ s, isDigit b = true) : value s < 10 ^ s.length := by
  induction s with
  | nil => simp [value]
  | cons b s ih =>
    have hb := isDigit_iff.mp (h b List.mem_cons_self)
    have hs := ih fun c hc => h c (List.mem_cons_of_mem _ hc)
    have hle : (b.toNat - 48) * 10 ^ s.length ≤ 9 * 10 ^ s.length := Nat.mul_le_mul_right _ (by omega)
    rw [value_cons, List.length_cons, Nat.pow_succ]
    omega

/-- **Digits of one length are ordered as their numbers are.** -/
theorem lt_iff_value {s s' : Bytes} (hlen : s.length = s'.length) (h : ∀ b ∈ s, isDigit b = true)
    (h' : ∀ b ∈ s', isDigit b = true) : s < s' ↔ value s < value s' := by
  induction s generalizing s' with
  | nil =>
    obtain rfl := List.eq_nil_of_length_eq_zero hlen.symm
    simp
  | cons b s ih =>
    cases s' with
    | nil => cases hlen
    | cons b' s' =>
      have hlen : s.length = s'.length := by simpa using hlen
      have hb := isDigit_iff.mp (h b List.mem_cons_self)
      have hb' := isDigit_iff.mp (h' b' List.mem_cons_self)
      have hs := value_lt fun c hc => h c (List.mem_cons_of_mem b hc)
      have hs' := value_lt fun c hc => h' c (List.mem_cons_of_mem b' hc)
      have hrest := ih hlen (fun c hc => h c (List.mem_cons_of_mem b hc)) fun c hc => h' c (List.mem_cons_of_mem b' hc)
      rw [List.cons_lt_cons_iff, value_cons, value_cons, ← hlen, hrest, UInt8.lt_iff_toNat_lt, ← UInt8.toNat_inj]
      rw [← hlen] at hs'
      rcases Nat.lt_trichotomy b.toNat b'.toNat with hlt | heq | hgt
      · have hstep : (b.toNat - 48 + 1) * 10 ^ s.length ≤ (b'.toNat - 48) * 10 ^ s.length :=
          Nat.mul_le_mul_right _ (by omega)
        rw [Nat.add_mul, Nat.one_mul] at hstep
        constructor
        · intro
          omega
        · exact fun _ => .inl hlt
      · rw [heq]
        simp
      · have hstep : (b'.toNat - 48 + 1) * 10 ^ s.length ≤ (b.toNat - 48) * 10 ^ s.length :=
          Nat.mul_le_mul_right _ (by omega)
        rw [Nat.add_mul, Nat.one_mul] at hstep
        constructor
        · rintro (hlt | ⟨heq, -⟩) <;> omega
        · intro
          omega

/-! ## 3. Numbers read -/

/-- The number of a text of digits. -/
def readNat (s : Bytes) : Option Nat := if s ≠ [] ∧ s.all isDigit then some (value s) else none

/-- The number of a text of digits with a sign or without. -/
def readInt (s : Bytes) : Option Int :=
  match s with
  | [] => none
  | b :: rest =>
    if b = byte '-' then (readNat rest).map fun n => -(n : Int)
    else if b = byte '+' then (readNat rest).map fun n => (n : Int)
    else (readNat s).map fun n => (n : Int)

/-- `str::parse` to a type of integers between two bounds. -/
def parseInt (lo hi : Int) (s : Bytes) : Option Int := (readInt s).filter fun n => lo ≤ n && n ≤ hi

theorem readNat_padded (width n : Nat) : readNat (padded width n) = some n := by
  have hall : (padded width n).all isDigit = true := List.all_eq_true.mpr fun b hb => isDigit_padded hb
  rw [readNat, if_pos ⟨padded_ne_nil width n, hall⟩, value_padded]

/-- A text of digits starts with no sign. -/
theorem readInt_of_readNat {s : Bytes} {n : Nat} (h : readNat s = some n) : readInt s = some (n : Int) := by
  cases s with
  | nil => simp [readNat] at h
  | cons b rest =>
    have hall : (b :: rest).all isDigit = true := by
      by_contra hno
      rw [readNat, if_neg fun hs => hno hs.2] at h
      cases h
    have hb : isDigit b = true := List.all_eq_true.mp hall b List.mem_cons_self
    have hminus : b ≠ byte '-' := by
      rintro rfl
      exact absurd hb (by decide)
    have hplus : b ≠ byte '+' := by
      rintro rfl
      exact absurd hb (by decide)
    simp [readInt, hminus, hplus, h]

theorem parseInt_eq_some {lo hi n : Int} {s : Bytes} (h : parseInt lo hi s = some n) :
    readInt s = some n ∧ lo ≤ n ∧ n ≤ hi := by
  obtain ⟨hread, hbounds⟩ := Option.filter_eq_some_iff.mp h
  exact ⟨hread, by simpa using hbounds⟩

theorem parseInt_of_bounds {lo hi n : Int} {s : Bytes} (h : readInt s = some n) (hlo : lo ≤ n) (hhi : n ≤ hi) :
    parseInt lo hi s = some n :=
  Option.filter_eq_some_iff.mpr ⟨h, by simp [hlo, hhi]⟩

end Lib.Decimal
