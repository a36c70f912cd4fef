/-
  File:      Smartfire/Lib/Keyed.lean
  Subject:   Lists in which a key stands once.

  * `find?_keyed` -- an element is found by its key;
  * `perm_erase` -- an element, and those with another key, are all;
  * `find?_erase` -- without a key, the others are found as before;
  * `find?_map_keyed` -- where elements are changed and keep their keys.
-/
import Mathlib.Data.List.Basic
import Mathlib.Data.List.Nodup

namespace Lib

universe u v

section Keyed

variable {α : Type u} {κ : Type v} [DecidableEq κ] {key : α → κ} {l : List α} {a : α} {k : κ}

theorem mem_of_find?_key (h : l.find? (key · = k) = some a) : a ∈ l ∧ key a = k :=
  ⟨List.mem_of_find?_eq_some h, by simpa using List.find?_some h⟩

theorem find?_key_eq_none : l.find? (key · = k) = none ↔ k ∉ l.map key := by
  rw [List.find?_eq_none, List.mem_map]
  constructor
  · rintro h ⟨a, ha, rfl⟩
    exact h a ha (by simp)
  · intro h a ha hk
    exact h ⟨a, ha, by simpa using hk⟩

/-- **An element is found by its key.** -/
theorem find?_keyed (hd : (l.map key).Nodup) (h : a ∈ l) : l.find? (key · = key a) = some a := by
  cases hfind : l.find? (key · = key a) with
  | none => exact absurd (List.mem_map.mpr ⟨a, h, rfl⟩) (find?_key_eq_none.mp hfind)
  | some found =>
    obtain ⟨hmem, hkey⟩ := mem_of_find?_key hfind
    rw [List.inj_on_of_nodup_map hd hmem h hkey]

/-- **What has another key, and the element, are all.** -/
theorem perm_erase (hd : (l.map key).Nodup) (h : a ∈ l) : (a :: l.filter (key · ≠ key a)).Perm l := by
  induction l with
  | nil => cases h
  | cons b rest ih =>
    obtain ⟨hfresh, hrest⟩ := List.nodup_cons.mp hd
    obtain rfl | hmem := List.mem_cons.mp h
    · have hkeep : rest.filter (key · ≠ key a) = rest := by
        refine List.filter_eq_self.mpr fun b hb => ?_
        simpa using fun hkey : key b = key a => hfresh (List.mem_map.mpr ⟨b, hb, hkey⟩)
      rw [List.filter_cons_of_neg (by simp), hkeep]
    · have hne : key b ≠ key a := fun hkey => hfresh (List.mem_map.mpr ⟨a, hmem, hkey.symm⟩)
      rw [List.filter_cons_of_pos (by simpa using hne)]
      exact (List.Perm.swap b a _).trans ((ih hrest hmem).cons b)

/-- Without a key, the others are found as before. -/
theorem find?_erase (l : List α) (k k' : κ) :
    (l.filter (key · ≠ k)).find? (key · = k') = if k' = k then none else l.find? (key · = k') := by
  split
  · next h =>
    subst h
    rw [List.find?_eq_none]
    intro a ha
    simpa using (List.mem_filter.mp ha).2
  · next h =>
    rw [List.find?_filter]
    congr 1
    funext a
    by_cases hkey : key a = k'
    · simp [hkey, h]
    · simp [hkey]

/-- Elements changed, their keys kept. -/
theorem find?_map_keyed {f : α → α} (hf : ∀ a, key (f a) = key a) (k : κ) :
    (l.map f).find? (key · = k) = (l.find? (key · = k)).map f := by
  have hkeep : (fun a => decide (key a = k)) ∘ f = fun a => decide (key a = k) := by
    funext a
    rw [Function.comp_apply, hf]
  rw [List.find?_map, hkeep]

end Keyed

end Lib
