/-
  File:      Smartfire/Lib/Split.lean
  Subject:   What splitting at a separator gives.

  * `not_of_mem_splitOnP`, `not_mem_of_mem_splitOn` -- no part holds the separator;
  * `subset_of_mem_splitOn` -- a part holds what the text does;
  * `splitOnce_append`, `splitOnce_eq_none` -- a text cut at its first separator;
  * `intercalate_eq_flatMap` -- parts joined: the first, and each other behind the separator.
-/
import Mathlib.Data.List.Basic
import Smartfire.Lib.Bytes

namespace Lib

variable {α : Type*}

/-- **No part holds a separator.** -/
theorem not_of_mem_splitOnP {p : α → Bool} {s t : List α} (h : t ∈ s.splitOnP p) : ∀ c ∈ t, p c = false := by
  induction s generalizing t with
  | nil =>
    rw [List.splitOnP_nil, List.mem_singleton] at h
    rw [h]
    exact fun c hc => absurd hc List.not_mem_nil
  | cons x s ih =>
    rw [List.splitOnP_cons_eq_if_modifyHead] at h
    split at h
    · rcases List.mem_cons.mp h with rfl | h
      · exact fun c hc => absurd hc List.not_mem_nil
      · exact ih h
    · next hx =>
      cases hsplit : s.splitOnP p with
      | nil => exact absurd hsplit (List.splitOnP_ne_nil p s)
      | cons first rest =>
        rw [hsplit, List.modifyHead_cons] at h
        rcases List.mem_cons.mp h with rfl | h
        · intro c hc
          rcases List.mem_cons.mp hc with rfl | hc
          · exact Bool.eq_false_iff.mpr hx
          · exact ih (hsplit ▸ List.mem_cons_self) c hc
        · exact ih (hsplit ▸ List.mem_cons_of_mem _ h)

theorem not_mem_of_mem_splitOn [DecidableEq α] {a : α} {s t : List α} (h : t ∈ s.splitOn a) : a ∉ t := by
  rw [List.splitOn_eq_splitOnP] at h
  intro ha
  simpa using not_of_mem_splitOnP h a ha

theorem subset_of_mem_splitOnP {p : α → Bool} {s t : List α} (h : t ∈ s.splitOnP p) : t ⊆ s := by
  induction s generalizing t with
  | nil =>
    rw [List.splitOnP_nil, List.mem_singleton] at h
    rw [h]
    exact List.Subset.refl _
  | cons x s ih =>
    rw [List.splitOnP_cons_eq_if_modifyHead] at h
    split at h
    · rcases List.mem_cons.mp h with rfl | h
      · exact List.nil_subset _
      · exact List.subset_cons_of_subset x (ih h)
    · cases hsplit : s.splitOnP p with
      | nil => exact absurd hsplit (List.splitOnP_ne_nil p s)
      | cons first rest =>
        rw [hsplit, List.modifyHead_cons] at h
        rcases List.mem_cons.mp h with rfl | h
        · exact List.cons_subset_cons x (ih (hsplit ▸ List.mem_cons_self))
        · exact List.subset_cons_of_subset x (ih (hsplit ▸ List.mem_cons_of_mem _ h))

theorem subset_of_mem_splitOn [DecidableEq α] {a : α} {s t : List α} (h : t ∈ s.splitOn a) : t ⊆ s := by
  rw [List.splitOn_eq_splitOnP] at h
  exact subset_of_mem_splitOnP h

theorem intercalate_eq_flatMap (sep first : List α) (rest : List (List α)) :
    sep.intercalate (first :: rest) = first ++ rest.flatMap (sep ++ ·) := by
  induction rest generalizing first with
  | nil => simp [List.intercalate]
  | cons part rest ih =>
    rw [List.flatMap_cons, List.append_assoc, ← ih part]
    simp [List.intercalate, List.intersperse_cons_cons]

theorem splitOnce_append {sep : UInt8} {x y : Bytes} (h : sep ∉ x) :
    splitOnce sep (x ++ sep :: y) = some (x, y) := by
  induction x with
  | nil => simp [splitOnce]
  | cons b x ih =>
    have hb : b ≠ sep := fun he => h (he ▸ List.mem_cons_self)
    have hx : sep ∉ x := fun he => h (List.mem_cons_of_mem b he)
    simp [splitOnce, hb, ih hx]

theorem splitOnce_eq_none {sep : UInt8} {x : Bytes} (h : sep ∉ x) : splitOnce sep x = none := by
  induction x with
  | nil => rfl
  | cons b x ih =>
    have hb : b ≠ sep := fun he => h (he ▸ List.mem_cons_self)
    have hx : sep ∉ x := fun he => h (List.mem_cons_of_mem b he)
    simp [splitOnce, hb, ih hx]

end Lib
