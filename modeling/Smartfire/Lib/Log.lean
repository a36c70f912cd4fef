/-
  File:      Smartfire/Lib/Log.lean
  Subject:   Append-only logs whose entries carry increasing stamps, and reading one by a cursor.

  A log is a list; `key` gives each entry's stamp. A reader holds a cursor and reads the entries
  past it.

  * `Increasing` -- stamps grow along the log;
  * `past key c l` -- the entries stamped after `c`: on an increasing log this is what is left when
    the leading entries up to `c` are dropped (`dropWhile_eq_past`), which is how a buffer that
    keeps the entries in order finds it;
  * `upTo key d l` -- the entries stamped at most `d`; `past_eq_append` splits a reading at any
    point between.
-/
import Mathlib.Data.List.Basic
import Mathlib.Order.Basic
import Mathlib.Tactic.Common

namespace Lib

open scoped List

universe u

variable {α : Type u} {key : α → Nat}

/-- Stamps grow along the log. -/
def Increasing (key : α → Nat) (l : List α) : Prop := l.Pairwise fun a b => key a < key b

/-- The entries stamped after `c`. -/
def past (key : α → Nat) (c : Nat) (l : List α) : List α := l.filter fun a => c < key a

/-- The entries stamped at most `d`. -/
def upTo (key : α → Nat) (d : Nat) (l : List α) : List α := l.filter fun a => key a ≤ d

/-! ## 1. Increasing logs -/

theorem increasing_nil : Increasing key ([] : List α) := List.Pairwise.nil

theorem Increasing.sublist {l l' : List α} (h : Increasing key l) (hs : l' <+ l) :
    Increasing key l' := List.Pairwise.sublist hs h

theorem increasing_cons {a : α} {l : List α} :
    Increasing key (a :: l) ↔ (∀ b ∈ l, key a < key b) ∧ Increasing key l := List.pairwise_cons

theorem increasing_append {l l' : List α} :
    Increasing key (l ++ l') ↔
      Increasing key l ∧ Increasing key l' ∧ ∀ a ∈ l, ∀ b ∈ l', key a < key b :=
  List.pairwise_append

theorem increasing_pair {a b : α} : Increasing key [a, b] ↔ key a < key b := by
  simp [Increasing]

/-- Appending an entry stamped after every other keeps the log increasing. -/
theorem Increasing.push {l : List α} {a : α} (h : Increasing key l) (ha : ∀ b ∈ l, key b < key a) :
    Increasing key (l ++ [a]) := by
  rw [increasing_append]
  refine ⟨h, List.pairwise_singleton _ _, fun b hb c hc => ?_⟩
  rw [List.mem_singleton.mp hc]
  exact ha b hb

/-- On an increasing log the stamp determines the entry. -/
theorem Increasing.eq_of_key {l : List α} (h : Increasing key l) {a b : α} (ha : a ∈ l)
    (hb : b ∈ l) (hab : key a = key b) : a = b := by
  induction l with
  | nil => cases ha
  | cons c l ih =>
    obtain ⟨hc, hl⟩ := increasing_cons.mp h
    rcases List.mem_cons.mp ha with rfl | hal
    · rcases List.mem_cons.mp hb with rfl | hbl
      · rfl
      · exact absurd hab (Nat.ne_of_lt (hc b hbl))
    · rcases List.mem_cons.mp hb with rfl | hbl
      · exact absurd hab.symm (Nat.ne_of_lt (hc a hal))
      · exact ih hl hal hbl

/-! ## 2. Reading past a cursor -/

@[simp] theorem past_nil (c : Nat) : past key c ([] : List α) = [] := rfl

@[simp] theorem mem_past {c : Nat} {l : List α} {a : α} :
    a ∈ past key c l ↔ a ∈ l ∧ c < key a := by
  simp [past]

theorem past_sublist (c : Nat) (l : List α) : past key c l <+ l := List.filter_sublist

theorem past_append (c : Nat) (l l' : List α) :
    past key c (l ++ l') = past key c l ++ past key c l' := List.filter_append ..

theorem past_eq_self {c : Nat} {l : List α} (h : ∀ a ∈ l, c < key a) : past key c l = l :=
  List.filter_eq_self.mpr fun a ha => decide_eq_true (h a ha)

theorem past_eq_nil {c : Nat} {l : List α} : past key c l = [] ↔ ∀ a ∈ l, key a ≤ c := by
  rw [past, List.filter_eq_nil_iff]
  exact ⟨fun h a ha => Nat.not_lt.mp fun hc => h a ha (decide_eq_true hc),
    fun h a ha hc => Nat.not_lt.mpr (h a ha) (of_decide_eq_true hc)⟩

theorem past_past {c d : Nat} (hcd : d ≤ c) (l : List α) :
    past key c (past key d l) = past key c l := by
  unfold past
  rw [List.filter_filter]
  refine List.filter_congr fun a _ => ?_
  rw [Bool.and_eq_left_iff_imp, decide_eq_true_eq, decide_eq_true_eq]
  exact Nat.lt_of_le_of_lt hcd

theorem past_push {c : Nat} {l : List α} {a : α} (h : c < key a) :
    past key c (l ++ [a]) = past key c l ++ [a] := by
  rw [past_append, past_eq_self (l := [a])]
  intro b hb
  rwa [List.mem_singleton.mp hb]

/-- **The entries past a cursor are what is left of an increasing log when its leading entries up
    to the cursor are dropped.** -/
theorem dropWhile_eq_past {l : List α} (h : Increasing key l) (c : Nat) :
    l.dropWhile (fun a => key a ≤ c) = past key c l := by
  induction l with
  | nil => rfl
  | cons a l ih =>
    obtain ⟨ha, hl⟩ := increasing_cons.mp h
    by_cases hc : key a ≤ c
    · rw [List.dropWhile_cons_of_pos (by simpa using hc), ih hl, past, past,
        List.filter_cons_of_neg (by simpa using hc)]
    · rw [List.dropWhile_cons_of_neg (by simpa using hc)]
      refine (past_eq_self fun b hb => ?_).symm
      rcases List.mem_cons.mp hb with rfl | hb
      · omega
      · have := ha b hb; omega

/-- Dropping the front of an increasing log is reading past the front's stamp. -/
theorem tail_eq_past {l : List α} {a : α} (h : Increasing key (a :: l)) :
    past key (key a) (a :: l) = l := by
  rw [past, List.filter_cons_of_neg (by simp)]
  exact past_eq_self (increasing_cons.mp h).1

/-! ## 3. Splitting a reading -/

@[simp] theorem mem_upTo {d : Nat} {l : List α} {a : α} :
    a ∈ upTo key d l ↔ a ∈ l ∧ key a ≤ d := by
  simp [upTo]

theorem upTo_sublist (d : Nat) (l : List α) : upTo key d l <+ l := List.filter_sublist

theorem upTo_eq_self {d : Nat} {l : List α} (h : ∀ a ∈ l, key a ≤ d) : upTo key d l = l :=
  List.filter_eq_self.mpr fun a ha => decide_eq_true (h a ha)

theorem upTo_eq_nil {d : Nat} {l : List α} (h : ∀ a ∈ l, d < key a) : upTo key d l = [] := by
  rw [upTo, List.filter_eq_nil_iff]
  exact fun a ha hc => Nat.not_lt.mpr (of_decide_eq_true hc) (h a ha)

/-- An increasing log is its part up to any point, then its part past it. -/
theorem upTo_append_past {l : List α} (h : Increasing key l) (d : Nat) :
    upTo key d l ++ past key d l = l := by
  induction l with
  | nil => rfl
  | cons a l ih =>
    obtain ⟨ha, hl⟩ := increasing_cons.mp h
    by_cases hd : key a ≤ d
    · rw [upTo, past, List.filter_cons_of_pos (by simpa using hd),
        List.filter_cons_of_neg (by simpa using hd), List.cons_append]
      exact congrArg (a :: ·) (ih hl)
    · have hd' : d < key a := Nat.lt_of_not_le hd
      have hall : ∀ b ∈ a :: l, d < key b := by
        intro b hb
        rcases List.mem_cons.mp hb with rfl | hb
        · exact hd'
        · exact Nat.lt_trans hd' (ha b hb)
      rw [upTo_eq_nil hall, past_eq_self hall, List.nil_append]

/-- **A reading past `c` splits at any later point `d`**: first what is stamped up to `d`, then a
    reading past `d`. -/
theorem past_eq_append {l : List α} (h : Increasing key l) {c d : Nat} (hcd : c ≤ d) :
    past key c l = upTo key d (past key c l) ++ past key d l := by
  rw [← past_past hcd l, upTo_append_past (h.sublist (past_sublist c l))]

/-- **A reading up to `d'` splits at any earlier point `d`.** -/
theorem upTo_past_append {l : List α} (h : Increasing key l) {c d d' : Nat} (hcd : c ≤ d)
    (hd : d ≤ d') :
    upTo key d' (past key c l) = upTo key d (past key c l) ++ upTo key d' (past key d l) := by
  have hself : upTo key d' (upTo key d (past key c l)) = upTo key d (past key c l) :=
    upTo_eq_self fun a ha => Nat.le_trans (mem_upTo.mp ha).2 hd
  rw [past_eq_append h hcd, upTo, List.filter_append]
  show upTo key d' (upTo key d (past key c l)) ++ upTo key d' (past key d l) = _
  rw [hself, ← past_eq_append h hcd]

/-- Filtering by stamp on both sides commutes. -/
theorem upTo_past_comm (c d : Nat) (l : List α) :
    upTo key d (past key c l) = past key c (upTo key d l) := by
  unfold upTo past
  rw [List.filter_filter, List.filter_filter]
  exact List.filter_congr fun a _ => Bool.and_comm _ _

/-! ## 4. Records that grow by at most one event a step -/

/-- Where an event stands in a record that has just grown by at most one: in the record before, or
    it is the new one. -/
theorem append_eq_split {J es A B : List α} {x : α} (h : J ++ es = A ++ x :: B)
    (hlen : es.length ≤ 1) :
    (∃ B₀, J = A ++ x :: B₀ ∧ B = B₀ ++ es) ∨ es = [x] ∧ A = J ∧ B = [] := by
  match es, hlen with
  | [], _ => exact .inl ⟨B, by rw [← h, List.append_nil], (List.append_nil B).symm⟩
  | [e], _ =>
    rcases List.eq_nil_or_concat B with rfl | ⟨B₀, y, rfl⟩
    · obtain ⟨hA, hx⟩ := List.append_inj' h rfl
      exact .inr ⟨hx, hA.symm, rfl⟩
    · rw [List.concat_eq_append] at h ⊢
      rw [← List.cons_append, ← List.append_assoc] at h
      obtain ⟨hJ, hy⟩ := List.append_inj' h rfl
      exact .inl ⟨B₀, hJ, by rw [hy]⟩

end Lib
