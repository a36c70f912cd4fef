/-
  File:      Smartfire/Lib/Insert.lean
  Subject:   Putting an element before the first one it comes before.

  * `insertBefore` -- by the index of that element, at the end where there is none;
  * `insertBefore_eq` -- what comes before, the element, and the rest;
  * `pairwise_insertBefore` -- a sorted list stays sorted.
-/
import Mathlib.Algebra.Order.Ring.Int
import Mathlib.Data.List.Basic
import Mathlib.Data.List.InsertIdx
import Mathlib.Data.List.TakeWhile
import Mathlib.Order.Basic
import Mathlib.Tactic.Common

namespace Lib

universe u v

variable {α : Type u} {κ : Type v} {p : α → Bool} {a x : α} {l : List α}

/-- `x` at the index of the first element that meets `p`, or at the end. -/
def insertBefore (p : α → Bool) (x : α) (l : List α) : List α :=
  match l.findIdx? p with
  | none => l ++ [x]
  | some index => l.insertIdx index x

theorem insertBefore_cons (p : α → Bool) (x a : α) (l : List α) :
    insertBefore p x (a :: l) = if p a then x :: a :: l else a :: insertBefore p x l := by
  unfold insertBefore
  rw [List.findIdx?_cons]
  by_cases h : p a = true
  · rw [if_pos h, if_pos h]
    rfl
  · rw [if_neg h, if_neg h]
    cases l.findIdx? p with
    | none => rfl
    | some index => rfl

/-- **Where the element stands**: after those it doesn't come before. -/
theorem insertBefore_eq (p : α → Bool) (x : α) (l : List α) :
    insertBefore p x l = l.takeWhile (fun a => !p a) ++ x :: l.dropWhile fun a => !p a := by
  induction l with
  | nil => rfl
  | cons a l ih =>
    rw [insertBefore_cons, List.takeWhile_cons, List.dropWhile_cons]
    cases h : p a with
    | true => rfl
    | false => rw [ih]; rfl

@[simp] theorem mem_insertBefore : a ∈ insertBefore p x l ↔ a = x ∨ a ∈ l := by
  have hl : a ∈ l ↔ a ∈ l.takeWhile (fun a => !p a) ∨ a ∈ l.dropWhile fun a => !p a := by
    rw [← List.mem_append, List.takeWhile_append_dropWhile]
  rw [insertBefore_eq, List.mem_append, List.mem_cons, hl]
  tauto

/-- What the element isn't among stays as it was. -/
theorem filter_insertBefore {q : α → Bool} (hx : q x = false) :
    (insertBefore p x l).filter q = l.filter q := by
  rw [insertBefore_eq, List.filter_append, List.filter_cons_of_neg (by simp [hx]), ← List.filter_append,
    List.takeWhile_append_dropWhile]

section Sorted

variable [LinearOrder κ] {key : α → κ}

/-- What comes after the first element the new one comes before, it comes before too. -/
theorem lt_of_mem_dropWhile (hs : l.Pairwise fun a b => key a < key b)
    (hp : ∀ b ∈ l, p b = true ↔ key x < key b) (ha : a ∈ l.dropWhile fun b => !p b) : key x < key a := by
  induction l with
  | nil => cases ha
  | cons b l ih =>
    obtain ⟨hb, hl⟩ := List.pairwise_cons.mp hs
    rw [List.dropWhile_cons] at ha
    split at ha
    · exact ih hl (fun c hc => hp c (List.mem_cons_of_mem _ hc)) ha
    · next hb' =>
      have hxb : key x < key b := (hp b (List.mem_cons_self ..)).mp (by simpa using hb')
      rcases List.mem_cons.mp ha with rfl | ha
      · exact hxb
      · exact hxb.trans (hb a ha)

/-- **Insertion keeps a list sorted.** -/
theorem pairwise_insertBefore (hs : l.Pairwise fun a b => key a < key b)
    (hp : ∀ b ∈ l, p b = true ↔ key x < key b) (hx : ∀ b ∈ l, key b ≠ key x) :
    (insertBefore p x l).Pairwise fun a b => key a < key b := by
  have hbefore : ∀ a ∈ l.takeWhile fun b => !p b, key a < key x := by
    intro a ha
    have hin : a ∈ l := (List.takeWhile_prefix _).subset ha
    have hnot : ¬ key x < key a := fun hlt => by
      have := List.mem_takeWhile_imp ha
      rw [(hp a hin).mpr hlt] at this
      cases this
    exact lt_of_le_of_ne (not_lt.mp hnot) (hx a hin)
  have hafter : ∀ a ∈ l.dropWhile fun b => !p b, key x < key a := fun a ha => lt_of_mem_dropWhile hs hp ha
  rw [insertBefore_eq, List.pairwise_append, List.pairwise_cons]
  refine ⟨hs.sublist (List.takeWhile_prefix _).sublist,
    ⟨hafter, hs.sublist (List.dropWhile_suffix _).sublist⟩, fun a ha b hb => ?_⟩
  rcases List.mem_cons.mp hb with rfl | hb
  · exact hbefore a ha
  · exact (hbefore a ha).trans (hafter b hb)

theorem nodup_of_sorted (hs : l.Pairwise fun a b => key a < key b) : l.Nodup := by
  refine List.Pairwise.imp (fun hab heq => ?_) hs
  rw [heq] at hab
  exact lt_irrefl _ hab

/-- Two sorted lists of the same elements are the same. -/
theorem eq_of_sorted {l' : List α} (hs : l.Pairwise fun a b => key a < key b)
    (hs' : l'.Pairwise fun a b => key a < key b) (hmem : ∀ a, a ∈ l ↔ a ∈ l') : l = l' := by
  refine List.Perm.eq_of_pairwise (fun a b _ _ hab hba => ?_) hs hs'
    ((List.perm_ext_iff_of_nodup (nodup_of_sorted hs) (nodup_of_sorted hs')).mpr hmem)
  exact absurd (hab.trans hba) (lt_irrefl _)

end Sorted

end Lib
