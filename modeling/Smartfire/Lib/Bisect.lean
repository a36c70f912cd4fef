/-
  File:      Smartfire/Lib/Bisect.lean
  Subject:   Searching a sorted list by halving, and inserting there.

  * `bisect` -- where a test stops holding, by halving; `bisect_spec`;
  * `pairwise_insertAt` -- **what is inserted where the search ends keeps the list sorted**.
-/
import Mathlib.Algebra.Order.Ring.Int
import Mathlib.Data.List.Basic

namespace Lib

universe u v

/-- The first place of a stretch where the test fails, or the stretch's end. -/
def bisect (p : Nat → Bool) (low high : Nat) : Nat :=
  if low < high then
    if p ((low + high) / 2) then bisect p ((low + high) / 2 + 1) high
    else bisect p low ((low + high) / 2)
  else low
termination_by high - low

/-- **The search divides the stretch**, when the test holds of a first part only. -/
theorem bisect_spec {p : Nat → Bool} {low high : Nat} (hle : low ≤ high)
    (hp : ∀ i j, low ≤ i → i ≤ j → j < high → p j = true → p i = true) :
    low ≤ bisect p low high ∧ bisect p low high ≤ high ∧
      (∀ i, low ≤ i → i < bisect p low high → p i = true) ∧
      ∀ i, bisect p low high ≤ i → i < high → p i = false := by
  fun_induction bisect p low high with
  | case1 low high hlt hmiddle ih =>
    obtain ⟨hlow, hhigh, hbelow, habove⟩ :=
      ih (by omega) fun i j hi hij hj => hp i j (by omega) hij hj
    refine ⟨by omega, hhigh, fun i hi hib => ?_, habove⟩
    by_cases h : i ≤ (low + high) / 2
    · exact hp i _ hi h (by omega) hmiddle
    · exact hbelow i (by omega) hib
  | case2 low high hlt hmiddle ih =>
    obtain ⟨hlow, hhigh, hbelow, habove⟩ :=
      ih (by omega) fun i j hi hij hj => hp i j hi hij (by omega)
    refine ⟨hlow, by omega, hbelow, fun i hi hih => ?_⟩
    by_cases h : i < (low + high) / 2
    · exact habove i hi h
    · by_contra htrue
      exact hmiddle (hp _ i (by omega) (by omega) hih (by simpa using htrue))
  | case3 low high hge =>
    exact ⟨Nat.le_refl _, hle, fun i hi hib => by omega, fun i hi hih => by omega⟩

section Insert

variable {α : Type u} {κ : Type v} [LinearOrder κ] {key : α → κ} {l : List α} {x : α}

/-- **What is inserted where the search ends keeps the list sorted.** -/
theorem pairwise_insertAt {p : Nat → Bool} (hl : l.Pairwise fun a b => key a < key b)
    (hx : ∀ a ∈ l, key a ≠ key x) (hp : ∀ i (h : i < l.length), p i = decide (key l[i] < key x)) :
    (l.take (bisect p 0 l.length) ++ x :: l.drop (bisect p 0 l.length)).Pairwise fun a b => key a < key b := by
  have hsorted := List.pairwise_iff_getElem.mp hl
  have hdown : ∀ i j, 0 ≤ i → i ≤ j → j < l.length → p j = true → p i = true := by
    intro i j _ hij hj htrue
    rw [hp j hj, decide_eq_true_eq] at htrue
    rw [hp i (by omega), decide_eq_true_eq]
    obtain rfl | hlt := Nat.eq_or_lt_of_le hij
    · exact htrue
    · exact (hsorted i j (by omega) hj hlt).trans htrue
  obtain ⟨-, hle, hbelow, habove⟩ := bisect_spec (Nat.zero_le _) hdown
  generalize bisect p 0 l.length = n at hle hbelow habove
  have hfront : ∀ a ∈ l.take n, key a < key x := by
    intro a ha
    obtain ⟨i, hi, rfl⟩ := List.getElem_of_mem ha
    rw [List.length_take] at hi
    rw [List.getElem_take]
    have htrue := hbelow i (Nat.zero_le i) (by omega)
    rwa [hp i (by omega), decide_eq_true_eq] at htrue
  have hback : ∀ b ∈ l.drop n, key x < key b := by
    intro b hb
    obtain ⟨i, hi, rfl⟩ := List.getElem_of_mem hb
    rw [List.length_drop] at hi
    rw [List.getElem_drop]
    have hfalse := habove (n + i) (Nat.le_add_right n i) (by omega)
    rw [hp (n + i) (by omega), decide_eq_false_iff_not, not_lt] at hfalse
    exact lt_of_le_of_ne hfalse (hx _ (List.getElem_mem _)).symm
  refine List.pairwise_append.mpr ⟨hl.sublist (List.take_sublist n l), ?_, ?_⟩
  · exact List.pairwise_cons.mpr ⟨hback, hl.sublist (List.drop_sublist n l)⟩
  · intro a ha b hb
    obtain rfl | hb := List.mem_cons.mp hb
    · exact hfront a ha
    · exact (hfront a ha).trans (hback b hb)

theorem mem_insertAt (n : Nat) {a : α} : a ∈ l.take n ++ x :: l.drop n ↔ a = x ∨ a ∈ l := by
  have hsplit : a ∈ l ↔ a ∈ l.take n ∨ a ∈ l.drop n := by
    rw [← List.mem_append, List.take_append_drop]
  rw [List.mem_append, List.mem_cons, hsplit]
  exact or_left_comm

end Insert

end Lib
