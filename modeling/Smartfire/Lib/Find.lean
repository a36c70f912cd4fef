/-
  File:      Smartfire/Lib/Find.lean
  Subject:   Where a text stands first in another.

  * `findText`, `findText_spec` -- the first place, and what stands around it;
  * `findText_append`, `findText_take` -- it is the same in a longer text, and in a shorter one that holds it;
  * `findText_behind` -- it is not before a byte the text starts with.
-/
import Smartfire.Lib.Bytes

namespace Lib

/-- Where a text stands first in another. -/
def findText (needle : Bytes) : Bytes → Option Nat
  | [] => if needle.isEmpty then some 0 else none
  | b :: s => if needle.isPrefixOf (b :: s) then some 0 else (findText needle s).map (· + 1)

section Find

variable {needle s x y : Bytes} {i n : Nat}

theorem findText_spec (h : findText needle s = some i) : ∃ x y, s = x ++ needle ++ y ∧ x.length = i := by
  induction s generalizing i with
  | nil =>
    rw [findText] at h
    split at h
    · next hn =>
      obtain rfl := Option.some.inj h
      exact ⟨[], [], by simpa using hn, rfl⟩
    · cases h
  | cons b s ih =>
    rw [findText] at h
    split at h
    · next hn =>
      obtain rfl := Option.some.inj h
      obtain ⟨y, hy⟩ := List.isPrefixOf_iff_prefix.mp hn
      exact ⟨[], y, hy.symm, rfl⟩
    · obtain ⟨i, hi, rfl⟩ := Option.map_eq_some_iff.mp h
      obtain ⟨x, y, rfl, rfl⟩ := ih hi
      exact ⟨b :: x, y, rfl, rfl⟩

theorem findText_le (h : findText needle s = some i) : i + needle.length ≤ s.length := by
  obtain ⟨x, y, rfl, rfl⟩ := findText_spec h
  simp only [List.length_append]
  omega

/-- A text as long as the one looked for starts with it, whatever comes behind. -/
theorem isPrefixOf_append (h : needle.length ≤ x.length) (y : Bytes) :
    needle.isPrefixOf (x ++ y) = needle.isPrefixOf x := by
  rw [Bool.eq_iff_iff, List.isPrefixOf_iff_prefix, List.isPrefixOf_iff_prefix]
  exact ⟨fun hp => List.prefix_of_prefix_length_le hp (List.prefix_append x y) h,
    fun hp => hp.trans (List.prefix_append x y)⟩

/-- **What is found is found in a longer text.** -/
theorem findText_append (h : findText needle x = some i) (y : Bytes) : findText needle (x ++ y) = some i := by
  induction x generalizing i with
  | nil =>
    rw [findText] at h
    split at h
    · next hn =>
      obtain rfl := Option.some.inj h
      obtain rfl : needle = [] := by simpa using hn
      cases y <;> rfl
    · cases h
  | cons b x ih =>
    have hle := findText_le h
    rw [List.cons_append, findText, ← List.cons_append, isPrefixOf_append (by omega)]
    rw [findText] at h
    split at h
    · next hn => rw [if_pos hn, h]
    · next hn =>
      obtain ⟨j, hj, rfl⟩ := Option.map_eq_some_iff.mp h
      rw [if_neg hn, ih hj, Option.map_some]

/-- **What is found is found in as much of the text as holds it.** -/
theorem findText_take (h : findText needle s = some i) (hle : i + needle.length ≤ n) :
    findText needle (s.take n) = some i := by
  induction s generalizing i n with
  | nil => rwa [List.take_nil]
  | cons b s ih =>
    have hlen := findText_le h
    cases n with
    | zero =>
      obtain rfl : needle = [] := List.eq_nil_of_length_eq_zero (by omega)
      obtain rfl : i = 0 := by omega
      rfl
    | succ n =>
      have hprefix : needle.isPrefixOf (b :: s) = needle.isPrefixOf ((b :: s).take (n + 1)) := by
        have hfits : needle.length ≤ ((b :: s).take (n + 1)).length := by
          rw [List.length_take]
          omega
        have happend := isPrefixOf_append hfits ((b :: s).drop (n + 1))
        rwa [List.take_append_drop] at happend
      rw [List.take_succ_cons, findText, ← List.take_succ_cons, ← hprefix]
      rw [findText] at h
      split at h
      · next hn => rw [if_pos hn, h]
      · next hn =>
        obtain ⟨j, hj, rfl⟩ := Option.map_eq_some_iff.mp h
        rw [if_neg hn, ih hj (by omega), Option.map_some]

/-- Nothing is found before the byte it starts with. -/
theorem findText_behind {b : UInt8} (h : b ∉ x) :
    findText (b :: needle) (x ++ y) = (findText (b :: needle) y).map (· + x.length) := by
  induction x with
  | nil => simp
  | cons c x ih =>
    rw [List.mem_cons, not_or] at h
    have hno : (b :: needle).isPrefixOf (c :: (x ++ y)) = false := by
      rw [List.isPrefixOf_cons_cons, beq_eq_false_iff_ne.mpr h.1, Bool.false_and]
    rw [List.cons_append, findText, hno, if_neg (by decide), ih h.2, Option.map_map]
    rfl

end Find

end Lib
