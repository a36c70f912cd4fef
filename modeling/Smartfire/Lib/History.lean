/-
  File:      Smartfire/Lib/History.lean
  Subject:   Newest-first histories, each entry read against what came before it.

  A history grows at its head, so an entry's tail is its past.

  * `Each` -- every entry stands in a relation to its past; `each_iff`: in terms of splits;
  * `since` -- the entries after the newest that resets;
  * `fromReset` -- the newest that resets, and the entries after it.
-/
import Mathlib.Data.List.TakeWhile
import Mathlib.Tactic.Common

namespace Lib

universe u

variable {α : Type u} {P Q : α → List α → Prop} {e : α} {l : List α}

/-- Every entry stands in `P` to its past. -/
def Each (P : α → List α → Prop) : List α → Prop
  | [] => True
  | e :: past => P e past ∧ Each P past

theorem each_cons : Each P (e :: l) ↔ P e l ∧ Each P l := Iff.rfl

theorem each_iff : Each P l ↔ ∀ later e past, l = later ++ e :: past → P e past := by
  induction l with
  | nil => exact ⟨fun _ later e past h => by simp at h, fun _ => trivial⟩
  | cons a l ih =>
    rw [each_cons, ih]
    constructor
    · rintro ⟨ha, hl⟩ later e past heq
      rcases List.cons_eq_append_iff.mp heq with ⟨rfl, hpast⟩ | ⟨later', rfl, hpast⟩
      · cases hpast
        exact ha
      · exact hl later' e past hpast
    · exact fun h => ⟨h [] a l rfl, fun later e past heq => h (a :: later) e past (by rw [heq]; rfl)⟩

/-- The entries after the newest that resets. -/
def since (reset : α → Bool) (l : List α) : List α := l.takeWhile fun e => !reset e

variable {reset : α → Bool}

theorem since_cons_of_reset (h : reset e = true) : since reset (e :: l) = [] := by
  simp [since, h]

theorem since_cons (h : reset e = false) : since reset (e :: l) = e :: since reset l := by
  simp [since, h]

theorem mem_of_mem_since (h : e ∈ since reset l) : e ∈ l := (List.takeWhile_prefix _).subset h

/-- The newest entry that resets and the entries after it, all of them where none does. -/
def fromReset (reset : α → Bool) : List α → List α
  | [] => []
  | e :: l => if reset e then [e] else e :: fromReset reset l

theorem fromReset_cons_of_reset (h : reset e = true) : fromReset reset (e :: l) = [e] := if_pos h

theorem fromReset_cons (h : reset e = false) : fromReset reset (e :: l) = e :: fromReset reset l :=
  if_neg (Bool.eq_false_iff.mp h)

theorem mem_of_mem_fromReset {f : α} (h : f ∈ fromReset reset l) : f ∈ l := by
  induction l with
  | nil => cases h
  | cons e l ih =>
    cases hreset : reset e with
    | true =>
      rw [fromReset_cons_of_reset hreset] at h
      exact List.mem_cons.mpr (.inl (List.mem_singleton.mp h))
    | false =>
      rw [fromReset_cons hreset] at h
      exact List.mem_cons.mpr ((List.mem_cons.mp h).imp_right ih)

end Lib
