/-
  File:      Smartfire/Lib/Coalesce.lean
  Subject:   Keeping only the last entry of each key, and cutting a list into chunks.

  * `lastPerKey key l` -- the list without the entries that a later one of the same key replaces;
    entries without a key stay. It is computed as the code of a batch does, walking backwards with
    the set of keys seen;
  * `lastPerKey_sublist`, `mem_lastPerKey_or` -- nothing is invented or reordered, and an entry is
    missing only when a kept one of its key comes after it;
  * `chunks n l` -- consecutive pieces of at most `n`; `flatten_chunks` puts them together again.
-/
import Mathlib.Data.List.Basic
import Mathlib.Tactic.Common

namespace Lib

open scoped List

universe u v

variable {α : Type u} {κ : Type v} [DecidableEq κ] (key : α → Option κ)

/-! ## 1. The last entry of each key -/

/-- The first entry of each key not in `seen`, with every entry that has no key. -/
def firstPerKey (key : α → Option κ) : List κ → List α → List α
  | _, [] => []
  | seen, a :: l =>
    match key a with
    | none => a :: firstPerKey key seen l
    | some k => if k ∈ seen then firstPerKey key seen l else a :: firstPerKey key (k :: seen) l

/-- The last entry of each key, with every entry that has no key, in order. -/
def lastPerKey (key : α → Option κ) (l : List α) : List α :=
  (firstPerKey key [] l.reverse).reverse

section Cases

variable {key} {seen : List κ} {a : α} {l : List α} {k : κ}

theorem firstPerKey_none (h : key a = none) :
    firstPerKey key seen (a :: l) = a :: firstPerKey key seen l := by
  simp [firstPerKey, h]

theorem firstPerKey_seen (h : key a = some k) (hk : k ∈ seen) :
    firstPerKey key seen (a :: l) = firstPerKey key seen l := by
  simp [firstPerKey, h, hk]

theorem firstPerKey_new (h : key a = some k) (hk : k ∉ seen) :
    firstPerKey key seen (a :: l) = a :: firstPerKey key (k :: seen) l := by
  simp [firstPerKey, h, hk]

end Cases

theorem firstPerKey_sublist (seen : List κ) (l : List α) : firstPerKey key seen l <+ l := by
  induction l generalizing seen with
  | nil => exact List.Sublist.slnil
  | cons a l ih =>
    cases h : key a with
    | none => rw [firstPerKey_none h]; exact (ih seen).cons_cons a
    | some k =>
      by_cases hk : k ∈ seen
      · rw [firstPerKey_seen h hk]; exact (ih seen).cons a
      · rw [firstPerKey_new h hk]; exact (ih _).cons_cons a

/-- An entry is left out only when its key was seen before, or when a kept entry of its key stands
    before it. -/
theorem firstPerKey_or (seen : List κ) {l : List α} {a : α} (ha : a ∈ l) :
    a ∈ firstPerKey key seen l ∨
      ∃ k, key a = some k ∧
        (k ∈ seen ∨ ∃ b ∈ firstPerKey key seen l, key b = some k ∧ [b, a] <+ l) := by
  induction l generalizing seen with
  | nil => cases ha
  | cons c l ih =>
    rcases List.mem_cons.mp ha with rfl | hl
    · cases h : key a with
      | none => rw [firstPerKey_none h]; exact .inl (List.mem_cons_self ..)
      | some k =>
        by_cases hk : k ∈ seen
        · exact .inr ⟨k, rfl, .inl hk⟩
        · rw [firstPerKey_new h hk]; exact .inl (List.mem_cons_self ..)
    · cases h : key c with
      | none =>
        rw [firstPerKey_none h]
        rcases ih seen hl with hin | ⟨k, hka, hin | ⟨b, hb, hkb, hba⟩⟩
        · exact .inl (List.mem_cons_of_mem _ hin)
        · exact .inr ⟨k, hka, .inl hin⟩
        · exact .inr ⟨k, hka, .inr ⟨b, List.mem_cons_of_mem _ hb, hkb, hba.cons c⟩⟩
      | some k =>
        by_cases hk : k ∈ seen
        · rw [firstPerKey_seen h hk]
          rcases ih seen hl with hin | ⟨k', hka, hin | ⟨b, hb, hkb, hba⟩⟩
          · exact .inl hin
          · exact .inr ⟨k', hka, .inl hin⟩
          · exact .inr ⟨k', hka, .inr ⟨b, hb, hkb, hba.cons c⟩⟩
        · rw [firstPerKey_new h hk]
          rcases ih (k :: seen) hl with hin | ⟨k', hka, hin | ⟨b, hb, hkb, hba⟩⟩
          · exact .inl (List.mem_cons_of_mem _ hin)
          · rcases List.mem_cons.mp hin with rfl | hin
            · -- `c` is the kept entry of the key
              exact .inr ⟨k', hka, .inr ⟨c, List.mem_cons_self .., h,
                (List.singleton_sublist.mpr hl).cons_cons c⟩⟩
            · exact .inr ⟨k', hka, .inl hin⟩
          · exact .inr ⟨k', hka, .inr ⟨b, List.mem_cons_of_mem _ hb, hkb, hba.cons c⟩⟩

/-- Coalescing leaves entries out; it invents and reorders none. -/
theorem lastPerKey_sublist (l : List α) : lastPerKey key l <+ l := by
  have h := (firstPerKey_sublist key [] l.reverse).reverse
  rwa [List.reverse_reverse] at h

theorem mem_of_mem_lastPerKey {l : List α} {a : α} (h : a ∈ lastPerKey key l) : a ∈ l :=
  (lastPerKey_sublist key l).subset h

/-- **An entry is left out only for a later one of the same key that is kept.** -/
theorem mem_lastPerKey_or {l : List α} {a : α} (ha : a ∈ l) :
    a ∈ lastPerKey key l ∨
      ∃ k, key a = some k ∧ ∃ b ∈ lastPerKey key l, key b = some k ∧ [a, b] <+ l := by
  rcases firstPerKey_or key [] (List.mem_reverse.mpr ha) with h | ⟨k, hk, h | ⟨b, hb, hkb, hs⟩⟩
  · exact .inl (List.mem_reverse.mpr h)
  · cases h
  · refine .inr ⟨k, hk, b, List.mem_reverse.mpr hb, hkb, ?_⟩
    simpa using hs.reverse

@[simp] theorem lastPerKey_nil : lastPerKey key ([] : List α) = [] := rfl

/-! ## 2. Chunks -/

/-- Consecutive pieces of `n` entries (the last may be shorter), by a bound on their number. -/
def chunksFuel (n : Nat) : Nat → List α → List (List α)
  | 0, _ => []
  | _ + 1, [] => []
  | fuel + 1, a :: l => (a :: l).take n :: chunksFuel n fuel ((a :: l).drop n)

/-- Consecutive pieces of `n` entries; the last may be shorter. -/
def chunks (n : Nat) (l : List α) : List (List α) := chunksFuel n l.length l

theorem flatten_chunksFuel {n : Nat} (hn : 0 < n) {fuel : Nat} {l : List α}
    (hl : l.length ≤ fuel) : (chunksFuel n fuel l).flatten = l := by
  induction fuel generalizing l with
  | zero => rw [List.length_eq_zero_iff.mp (Nat.le_zero.mp hl)]; rfl
  | succ fuel ih =>
    cases l with
    | nil => rfl
    | cons a l =>
      have hd : ((a :: l).drop n).length ≤ fuel := by
        rw [List.length_drop]
        omega
      rw [chunksFuel, List.flatten_cons, ih hd, List.take_append_drop]

/-- **The pieces make up the list.** -/
theorem flatten_chunks {n : Nat} (hn : 0 < n) (l : List α) : (chunks n l).flatten = l :=
  flatten_chunksFuel hn (Nat.le_refl _)

theorem length_le_of_mem_chunksFuel {n fuel : Nat} {l c : List α} (h : c ∈ chunksFuel n fuel l) :
    c.length ≤ n := by
  induction fuel generalizing l with
  | zero => cases h
  | succ fuel ih =>
    cases l with
    | nil => cases h
    | cons a l =>
      rcases List.mem_cons.mp h with rfl | h
      · rw [List.length_take]; omega
      · exact ih h

theorem length_le_of_mem_chunks {n : Nat} {l c : List α} (h : c ∈ chunks n l) : c.length ≤ n :=
  length_le_of_mem_chunksFuel h

theorem mem_of_mem_chunks {n : Nat} (hn : 0 < n) {l c : List α} {a : α} (hc : c ∈ chunks n l)
    (ha : a ∈ c) : a ∈ l := by
  rw [← flatten_chunks hn l]
  exact List.mem_flatten_of_mem hc ha

@[simp] theorem chunks_nil (n : Nat) : chunks n ([] : List α) = [] := rfl

end Lib
