/-
  File:      Smartfire/Lib/Keyset.lean
  Subject:   Paging by the last row's key.

  Rows stand in the order of their keys. A page holds the first rows past a cursor, and its own cursor is
  its last row's.

  * `sortBy`, `sortBy_filter` -- rows in the order of their keys; picked before or after;
  * `filter_past` -- what is past a row's key is what stands after the row;
  * `Follows`, `Follows.unique` -- the pages from a cursor to the end;
  * `rests`, `follows_rests` -- the pages are the rows' fronts, one after another.
-/
import Mathlib.Data.List.Basic
import Mathlib.Data.List.Induction
import Mathlib.Data.List.Sort
import Mathlib.Tactic.Common

namespace Lib

universe u v w

/-! ## 1. Rows in the order of their keys -/

section Sorted

variable {α : Type u} {κ : Type v} [LinearOrder κ] {key : α → κ} {l : List α}

/-- `ORDER BY key`. -/
def sortBy (key : α → κ) (l : List α) : List α := l.insertionSort fun a b => key a ≤ key b

theorem sortBy_perm (key : α → κ) (l : List α) : (sortBy key l).Perm l := List.perm_insertionSort _ _

theorem sortBy_le (key : α → κ) (l : List α) : (sortBy key l).Pairwise fun a b => key a ≤ key b := by
  have : Std.Total fun a b : α => key a ≤ key b := ⟨fun a b => le_total _ _⟩
  have : IsTrans α fun a b => key a ≤ key b := ⟨fun a b c => le_trans⟩
  exact List.pairwise_insertionSort _ _

/-- Keys that differ are in strict order. -/
theorem sortBy_lt (h : (l.map key).Nodup) : (sortBy key l).Pairwise fun a b => key a < key b := by
  have hnodup : ((sortBy key l).map key).Nodup := ((sortBy_perm key l).map key).nodup_iff.mpr h
  have hne : (sortBy key l).Pairwise fun a b => key a ≠ key b := List.pairwise_map.mp hnodup
  exact (sortBy_le key l).imp₂ (fun a b hle hne => lt_of_le_of_ne hle hne) hne

/-- **Picked, then sorted**: as sorted, then picked. -/
theorem sortBy_filter (h : (l.map key).Nodup) (p : α → Bool) : sortBy key (l.filter p) = (sortBy key l).filter p := by
  refine List.Perm.eq_of_pairwise (fun a b ha hb hab hba => ?_) (sortBy_le key _) ((sortBy_le key l).filter p)
    ((sortBy_perm key _).trans ((sortBy_perm key l).filter p).symm)
  have ha := (List.mem_filter.mp ((sortBy_perm key _).mem_iff.mp ha)).1
  have hb := (sortBy_perm key l).mem_iff.mp (List.mem_filter.mp hb).1
  exact List.inj_on_of_nodup_map h ha hb (le_antisymm hab hba)

/-- **Past a row's key** stands what follows the row. -/
theorem filter_past {before after : List α} {a : α}
    (h : (before ++ a :: after).Pairwise fun a b => key a < key b) :
    (before ++ a :: after).filter (fun b => key a < key b) = after := by
  obtain ⟨-, hafter, hcross⟩ := List.pairwise_append.mp h
  have hbefore : before.filter (fun b => key a < key b) = [] :=
    List.filter_eq_nil_iff.mpr fun b hb => by simpa using (hcross b hb a (List.mem_cons_self ..)).le
  have hrest : after.filter (fun b => key a < key b) = after :=
    List.filter_eq_self.mpr fun b hb => decide_eq_true ((List.pairwise_cons.mp hafter).1 b hb)
  rw [List.filter_append, hbefore, List.filter_cons_of_neg (by simp), hrest, List.nil_append]

/-- **A query past a cursor** reads the front of what follows the cursor's row. -/
theorem query_past {C : Type w} (query : Option C → List α) (cursor : α → C) {n : Nat} (h : (l.map key).Nodup)
    (hnone : query none = (sortBy key l).take n)
    (hsome : ∀ a, query (some (cursor a)) = (sortBy key (l.filter fun b => key a < key b)).take n)
    {before rest : List α} (hl : before ++ rest = sortBy key l) :
    query (before.getLast?.map cursor) = rest.take n := by
  cases before using List.reverseRecOn with
  | nil =>
    rw [List.nil_append] at hl
    rw [hl]
    exact hnone
  | append_singleton before a =>
    have hl : before ++ a :: rest = sortBy key l := by rw [← hl, List.append_assoc, List.singleton_append]
    have hpast := filter_past (hl ▸ sortBy_lt h)
    rw [List.getLast?_concat, Option.map_some, hsome, sortBy_filter h, ← hl, hpast]

end Sorted

/-! ## 2. Following the cursors -/

section Follow

variable {P : Type u} {κ : Type v} {page : Option κ → P} {next : P → Option κ} {c : Option κ} {pages : List P}

/-- The pages from a cursor on, each at the cursor of the one before, until one has none. -/
inductive Follows (page : Option κ → P) (next : P → Option κ) : Option κ → List P → Prop where
  | last (c : Option κ) (h : next (page c) = none) : Follows page next c [page c]
  | more (c : Option κ) (d : κ) (pages : List P) (h : next (page c) = some d) (hrest : Follows page next (some d) pages) :
      Follows page next c (page c :: pages)

/-- **There is one way to follow them.** -/
theorem Follows.unique (h : Follows page next c pages) {pages' : List P} (h' : Follows page next c pages') :
    pages' = pages := by
  induction h generalizing pages' with
  | last c hnone =>
    cases h' with
    | last _ _ => rfl
    | more _ d _ hsome _ => rw [hnone] at hsome; cases hsome
  | more c d pages hsome _ ih =>
    cases h' with
    | last _ hnone => rw [hnone] at hsome; cases hsome
    | more _ e pages' hsome' hrest' =>
      obtain rfl := Option.some.inj (hsome.symm.trans hsome')
      rw [ih hrest']

end Follow

/-! ## 3. Pages of `n` rows -/

section Rests

variable {α : Type u} {n : Nat} {l : List α}

/-- What is left before each page of `n` rows. -/
def rests (n : Nat) (l : List α) : List (List α) :=
  if _h : 0 < n ∧ n < l.length then l :: rests n (l.drop n) else [l]
termination_by l.length
decreasing_by
  rw [List.length_drop]
  omega

theorem rests_more (hn : 0 < n) (h : n < l.length) : rests n l = l :: rests n (l.drop n) := by
  rw [rests, dif_pos ⟨hn, h⟩]

theorem rests_last (h : l.length ≤ n) : rests n l = [l] := by
  rw [rests, dif_neg (by omega)]

theorem rests_ne_nil (n : Nat) (l : List α) : rests n l ≠ [] := by
  rw [rests]
  split
  · exact List.cons_ne_nil _ _
  · exact List.cons_ne_nil _ _

/-- An induction page by page. -/
theorem rests_induct (hn : 0 < n) {motive : List α → Prop} (last : ∀ l, l.length ≤ n → motive l)
    (more : ∀ l, n < l.length → motive (l.drop n) → motive l) (l : List α) : motive l := by
  induction hlength : l.length using Nat.strong_induction_on generalizing l with
  | _ m ih =>
    subst hlength
    by_cases h : n < l.length
    · exact more l h (ih _ (by rw [List.length_drop]; omega) _ rfl)
    · exact last l (by omega)

/-- **The pages' rows are all rows**, in their order. -/
theorem flatMap_rests (hn : 0 < n) (l : List α) : (rests n l).flatMap (List.take n) = l := by
  induction l using rests_induct hn with
  | last l h => rw [rests_last h, List.flatMap_singleton, List.take_of_length_le h]
  | more l h ih => rw [rests_more hn h, List.flatMap_cons, ih, List.take_append_drop]

/-- Every page but the last has rows after it, and the last has none. -/
theorem length_rests (hn : 0 < n) (l : List α) :
    (∀ rest ∈ (rests n l).dropLast, n < rest.length) ∧ ∀ rest ∈ (rests n l).getLast?, rest.length ≤ n := by
  induction l using rests_induct hn with
  | last l h =>
    rw [rests_last h]
    refine ⟨by simp, fun rest hrest => ?_⟩
    obtain rfl := Option.some.inj hrest
    exact h
  | more l h ih =>
    have hne := rests_ne_nil n (l.drop n)
    obtain ⟨rest, rests', hcons⟩ := List.exists_cons_of_ne_nil hne
    rw [rests_more hn h, hcons, List.dropLast_cons_cons, List.getLast?_cons_cons, ← hcons]
    refine ⟨fun r hr => ?_, ih.2⟩
    rcases List.mem_cons.mp hr with rfl | hr
    · exact h
    · exact ih.1 r hr

variable {P : Type v} {κ : Type w} (page : Option κ → P) {next : P → Option κ} {cursor : α → κ} {render : List α → P}

/-- **Following the cursors goes through all rows**: where a page shows the front of what is past its cursor,
    and its own cursor is its last row's, if more follow. -/
theorem follows_rests (hn : 0 < n)
    (hnext : ∀ rest, next (render rest) = if n < rest.length then (rest.take n).getLast?.map cursor else none)
    (hpage : ∀ before rest, before ++ rest = l → page (before.getLast?.map cursor) = render rest) :
    Follows page next none ((rests n l).map render) := by
  have hfrom (rest : List α) : ∀ before, before ++ rest = l →
      Follows page next (before.getLast?.map cursor) ((rests n rest).map render) := by
    induction rest using rests_induct hn with
    | last rest h =>
      intro before hl
      rw [rests_last h, List.map_singleton, ← hpage before rest hl]
      refine .last _ ?_
      rw [hpage before rest hl, hnext, if_neg (by omega)]
    | more rest h ih =>
      intro before hl
      have hne : rest.take n ≠ [] := by
        intro hnil
        have := congrArg List.length hnil
        rw [List.length_take, List.length_nil] at this
        omega
      have hlast : (before ++ rest.take n).getLast? = (rest.take n).getLast? := by
        rw [List.getLast?_append]
        obtain ⟨a, ha⟩ := Option.isSome_iff_exists.mp (List.getLast?_isSome.mpr hne)
        rw [ha]
        rfl
      obtain ⟨a, ha⟩ := Option.isSome_iff_exists.mp (List.getLast?_isSome.mpr hne)
      have hrest := ih (before ++ rest.take n) (by rw [List.append_assoc, List.take_append_drop, hl])
      rw [hlast, ha] at hrest
      rw [rests_more hn h, List.map_cons, ← hpage before rest hl]
      refine .more _ (cursor a) _ ?_ hrest
      rw [hpage before rest hl, hnext, if_pos h, ha]
      rfl
  exact hfrom l [] rfl

end Rests

end Lib
