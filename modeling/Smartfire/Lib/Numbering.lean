/-
  File:      Smartfire/Lib/Numbering.lean
  Subject:   Lists numbered by index.

  * `map_idxOf` -- the indices of a list without repetition are `0 .. n-1`;
  * `eq_of_idxOf_sorted` -- what is sorted by its index in a list is that list;
  * `foldl_number` -- writing numbers one by one;
  * `numbered_of_sorted` -- sorted with the missing numbers last, the numbers `0 .. k-1` come first,
    in their order.
-/
import Mathlib.Data.List.Basic
import Mathlib.Data.List.Nodup
import Mathlib.Data.List.NodupEquivFin
import Mathlib.Data.List.Range
import Mathlib.Order.Basic

namespace Lib

universe u

section Index

variable {α : Type u} [DecidableEq α] {l ids : List α}

theorem map_idxOf (h : ids.Nodup) : ids.map ids.idxOf = List.range ids.length := by
  refine List.ext_getElem (by simp) fun i hi hi' => ?_
  rw [List.getElem_map, List.getElem_range]
  exact h.idxOf_getElem i _

/-- **What is sorted by its index in a list is that list.** -/
theorem eq_of_idxOf_sorted (hids : ids.Nodup) (hl : l.Nodup) (hmem : ∀ a, a ∈ l ↔ a ∈ ids)
    (hs : l.Pairwise fun a b => ids.idxOf a ≤ ids.idxOf b) : l = ids := by
  have hsorted : ids.Pairwise fun a b => ids.idxOf a ≤ ids.idxOf b := by
    have hmap : (ids.map ids.idxOf).Pairwise (· ≤ ·) := by
      rw [map_idxOf hids]
      exact List.pairwise_le_range
    exact List.pairwise_map.mp hmap
  refine List.Perm.eq_of_pairwise (fun a b ha hb hab hba => ?_) hs hsorted
    ((List.perm_ext_iff_of_nodup hl hids).mpr hmem)
  exact (List.idxOf_inj ((hmem a).mp ha)).mp (Nat.le_antisymm hab hba)

end Index

section Writes

variable {α : Type u} {rows : List α}

/-- A row rewritten where it stays in the selection, and the selection told by the old row. -/
theorem filter_map_of {p q : α → Bool} {f : α → α} (hp : ∀ r ∈ rows, p (f r) = q r)
    (hf : ∀ r ∈ rows, q r = true → f r = r) : (rows.map f).filter p = rows.filter q := by
  induction rows with
  | nil => rfl
  | cons r rows ih =>
    have ih := ih (fun r hr => hp r (List.mem_cons_of_mem _ hr)) fun r hr => hf r (List.mem_cons_of_mem _ hr)
    have hr := hp r (List.mem_cons_self ..)
    cases hq : q r with
    | true =>
      rw [hq] at hr
      rw [List.map_cons, List.filter_cons_of_pos hr, List.filter_cons_of_pos hq, ih, hf r (List.mem_cons_self ..) hq]
    | false =>
      rw [hq] at hr
      rw [List.map_cons, List.filter_cons_of_neg (by simp [hr]), List.filter_cons_of_neg (by simp [hq]), ih]

/-- **Numbering rows one by one**: each row of the list gets its index. -/
theorem foldl_number (key : α → Nat) {set : Nat → α → α} (hkey : ∀ k a, key (set k a) = key a) {ids : List Nat}
    (h : ids.Nodup) (k : Nat) (rows : List α) :
    (ids.zipIdx k).foldl (fun rows q => rows.map fun r => if key r = q.1 then set q.2 r else r) rows =
      rows.map fun r => if key r ∈ ids then set (k + ids.idxOf (key r)) r else r := by
  induction ids generalizing k rows with
  | nil => simp
  | cons i ids ih =>
    obtain ⟨hi, hids⟩ := List.nodup_cons.mp h
    rw [List.zipIdx_cons, List.foldl_cons, ih hids, List.map_map]
    refine List.map_congr_left fun r _ => ?_
    rw [Function.comp_apply]
    by_cases hr : key r = i
    · subst hr
      simp [hkey, hi]
    · rw [if_neg hr]
      by_cases hin : key r ∈ ids
      · rw [if_pos hin, if_pos (List.mem_cons_of_mem _ hin), List.idxOf_cons_ne _ (Ne.symm hr)]
        congr 1
        omega
      · rw [if_neg hin, if_neg fun hmem => (List.mem_cons.mp hmem).elim hr hin]

end Writes

/-- Numbers come before those that have none. -/
def NoneLast (a b : Option Nat) : Prop :=
  match a, b with
  | some p, some q => p ≤ q
  | some _, none => True
  | none, some _ => False
  | none, none => True

/-- Sorted numbers, then those that have none. -/
theorem eq_append_of_noneLast {l : List (Option Nat)} (h : l.Pairwise NoneLast) :
    l = (l.filterMap id).map some ++ List.replicate (l.length - (l.filterMap id).length) none ∧
      (l.filterMap id).Pairwise (· ≤ ·) := by
  induction l with
  | nil => exact ⟨rfl, List.Pairwise.nil⟩
  | cons a l ih =>
    obtain ⟨ha, hl⟩ := List.pairwise_cons.mp h
    obtain ⟨heq, hs⟩ := ih hl
    cases a with
    | some p =>
      have hcons : (some p :: l).filterMap id = p :: l.filterMap id := rfl
      rw [hcons]
      refine ⟨?_, List.pairwise_cons.mpr ⟨fun q hq => ?_, hs⟩⟩
      · rw [List.map_cons, List.cons_append, List.length_cons, List.length_cons, Nat.add_sub_add_right, ← heq]
      · obtain ⟨b, hb, hbq⟩ := List.mem_filterMap.mp hq
        have hle := ha b hb
        rw [id_eq] at hbq
        rw [hbq] at hle
        exact hle
    | none =>
      have hnone : ∀ b ∈ l, b = none := fun b hb => by
        have hle := ha b hb
        cases b with
        | none => rfl
        | some q => exact hle.elim
      have hnil : l.filterMap id = [] := List.filterMap_eq_nil_iff.mpr fun b hb => hnone b hb
      have hcons : (none :: l).filterMap id = l.filterMap id := rfl
      rw [hcons, hnil]
      refine ⟨?_, List.Pairwise.nil⟩
      rw [List.eq_replicate_of_mem hnone]
      simp [List.replicate_succ]

/-- **Sorted with the missing numbers last**, the numbers `0 .. k-1` come first, in their order. -/
theorem numbered_of_sorted {l : List (Option Nat)} {k : Nat} (h : l.Pairwise NoneLast)
    (hp : (l.filterMap id).Perm (List.range k)) :
    ∃ m, l = (List.range k).map some ++ List.replicate m none := by
  obtain ⟨heq, hs⟩ := eq_append_of_noneLast h
  have hrange : l.filterMap id = List.range k :=
    List.Perm.eq_of_pairwise (fun a b _ _ hab hba => Nat.le_antisymm hab hba) hs List.pairwise_le_range hp
  rw [hrange] at heq
  exact ⟨_, heq⟩

end Lib
