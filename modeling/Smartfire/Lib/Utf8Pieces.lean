/-
  File:      Smartfire/Lib/Utf8Pieces.lean
  Subject:   UTF-8 that comes in pieces.

  * `validUpTo` -- how much of a piece is valid, where the rest may be a character's start;
  * `validUpTo_spec`, `not_utf8_of_validUpTo` -- what that says of the piece, and of all that continues it;
  * `Utf8.append_iff` -- behind valid text only the rest counts.
-/
import Smartfire.Lib.Utf8

namespace Lib

/-- `str::from_utf8`: the valid bytes in front, where what is behind them is nothing or a character's start. -/
def validUpToFuel : Nat → Bytes → Option Nat
  | 0, _ => some 0
  | _ + 1, [] => some 0
  | fuel + 1, first :: rest =>
    let (fits, n) := utf8Step (first :: rest)
    if fits then (validUpToFuel fuel ((first :: rest).drop n)).map (n + ·)
    else if 1 < utf8Width first ∧ n = (first :: rest).length then some 0
    else none

def validUpTo (s : Bytes) : Option Nat := validUpToFuel s.length s

section Pieces

variable {s x y : Bytes} {first : UInt8} {rest : Bytes} {n : Nat}

theorem utf8_cases (h : Utf8 s) : s = [] ∨ ∃ c rest, s = c ++ rest ∧ IsChar c ∧ Utf8 rest := by
  cases h with
  | nil => exact .inl rfl
  | @char c rest hc hrest => exact .inr ⟨c, rest, rfl, hc, hrest⟩

/-- What is valid starts with a character. -/
theorem Utf8.step (h : Utf8 s) (hne : s ≠ []) : (utf8Step s).1 = true := by
  rcases utf8_cases h with rfl | ⟨c, rest, rfl, hc, -⟩
  · exact absurd rfl hne
  · rw [hc.step_append]

/-- **Behind valid text only the rest counts.** -/
theorem Utf8.append_iff (h : Utf8 x) : Utf8 (x ++ y) ↔ Utf8 y := by
  refine ⟨fun hall => ?_, h.append⟩
  induction h with
  | nil => exact hall
  | @char c rest hc _ ih =>
    rw [List.append_assoc] at hall
    have hpos := hc.pos
    rcases utf8_cases hall with hempty | ⟨c', rest', heq, hc', hrest'⟩
    · rw [(List.append_eq_nil_iff.mp hempty).1] at hpos
      cases hpos
    · have hstep := hc'.step_append rest'
      rw [← heq, hc.step_append] at hstep
      have hlen : c.length = c'.length := (Prod.mk.inj hstep).2
      obtain ⟨rfl, rfl⟩ := List.append_inj heq hlen
      exact ih hrest'

/-- A start that is broken off for another reason than the piece's end stays broken. -/
theorem utf8Fits_broken (hwidth : utf8Fits first x + 1 < utf8Width first) (hend : utf8Fits first x < x.length)
    (y : Bytes) : utf8Fits first (x ++ y) = utf8Fits first x := by
  cases x with
  | nil => cases hend
  | cons second x =>
    rw [List.cons_append]
    simp only [utf8Fits] at hwidth hend ⊢
    split
    · next hsecond =>
      rw [if_pos hsecond] at hwidth hend
      have hstops : ((x.take (utf8Width first - 2)).takeWhile isContinuation).length ≠
          (x.take (utf8Width first - 2)).length := by
        rw [List.length_take]
        rw [List.length_cons] at hend
        omega
      rw [List.take_append, List.takeWhile_append, if_neg hstops]
    · rfl

theorem validUpToFuel_spec (hn : s.length ≤ n) {v : Nat} (h : validUpToFuel n s = some v) :
    Utf8 (s.take v) ∧ v ≤ s.length ∧ s.length ≤ v + 3 ∧ (s.drop v ≠ [] → ¬ Utf8 (s.drop v)) := by
  induction n generalizing s v with
  | zero =>
    obtain rfl := List.eq_nil_of_length_eq_zero (Nat.le_zero.mp hn)
    cases h
    exact ⟨.nil, Nat.le_refl _, Nat.zero_le _, fun hne => absurd rfl hne⟩
  | succ n ih =>
    cases s with
    | nil =>
      obtain rfl := Option.some.inj h
      exact ⟨.nil, by simp⟩
    | cons first rest =>
      rw [validUpToFuel] at h
      rcases hstep : utf8Step (first :: rest) with ⟨fits, k⟩
      rw [hstep] at h
      cases fits with
      | true =>
        obtain ⟨hc, hpos, hk⟩ := isChar_of_step hstep
        obtain ⟨v, hv, rfl⟩ := Option.map_eq_some_iff.mp h
        have hfewer : ((first :: rest).drop k).length ≤ n := by
          rw [List.length_drop]
          omega
        obtain ⟨hvalid, hle, hleft, hend⟩ := ih hfewer hv
        rw [List.length_drop] at hle hleft
        rw [List.drop_drop] at hend
        refine ⟨?_, by omega, by omega, hend⟩
        rw [List.take_add]
        exact .char hc hvalid
      | false =>
        dsimp only at h
        rw [if_neg (by decide)] at h
        split at h
        · next hstart =>
          obtain rfl := Option.some.inj h
          have hwidth := utf8Fits_lt hstart.1 rest
          have hfour : utf8Width first ≤ 4 := by
            unfold utf8Width
            split <;> [omega; (split <;> [omega; (split <;> [omega; (split <;> omega)])])]
          obtain ⟨hshort, hend⟩ : utf8Fits first rest + 1 ≠ utf8Width first ∧ utf8Fits first rest + 1 = k := by
            rw [utf8Step_long hstart.1] at hstep
            obtain ⟨hshort, hend⟩ := Prod.mk.inj hstep
            exact ⟨of_decide_eq_false hshort, hend⟩
          have hlen := hstart.2
          refine ⟨.nil, Nat.zero_le _, by omega, fun _ hutf8 => ?_⟩
          have htrue := hutf8.step (List.cons_ne_nil first rest)
          rw [List.drop_zero, hstep] at htrue
          cases htrue
        · cases h

/-- **What is found valid is valid, and behind it comes at most a character's start**, which is not valid alone. -/
theorem validUpTo_spec {v : Nat} (h : validUpTo s = some v) :
    Utf8 (s.take v) ∧ v ≤ s.length ∧ s.length ≤ v + 3 ∧ (s.drop v ≠ [] → ¬ Utf8 (s.drop v)) :=
  validUpToFuel_spec le_rfl h

/-- **What is found broken is broken, whatever comes.** -/
theorem not_utf8_of_validUpToFuel (hn : s.length ≤ n) (h : validUpToFuel n s = none) (t : Bytes) : ¬ Utf8 (s ++ t) := by
  induction n generalizing s with
  | zero =>
    obtain rfl := List.eq_nil_of_length_eq_zero (Nat.le_zero.mp hn)
    cases h
  | succ n ih =>
    cases s with
    | nil => cases h
    | cons first rest =>
      rw [validUpToFuel] at h
      rcases hstep : utf8Step (first :: rest) with ⟨fits, k⟩
      rw [hstep] at h
      cases fits with
      | true =>
        obtain ⟨hc, hpos, hk⟩ := isChar_of_step hstep
        have hrest : validUpToFuel n ((first :: rest).drop k) = none := by simpa using h
        have hfewer : ((first :: rest).drop k).length ≤ n := by
          rw [List.length_drop]
          omega
        have hchar : Utf8 ((first :: rest).take k) := by
          have hone := Utf8.char hc .nil
          rwa [List.append_nil] at hone
        rw [← List.take_append_drop k (first :: rest), List.append_assoc, hchar.append_iff]
        exact ih hfewer hrest
      | false =>
        intro hutf8
        have htrue := hutf8.step (by simp)
        dsimp only at h
        rw [if_neg (by decide)] at h
        split at h
        · cases h
        · next hno =>
          rw [List.cons_append] at htrue
          by_cases hwidth : utf8Width first ≤ 1
          · rw [utf8Step_short hwidth] at hstep htrue
            rw [(Prod.mk.inj hstep).1] at htrue
            cases htrue
          · have hlong := Nat.not_le.mp hwidth
            rw [utf8Step_long hlong] at hstep htrue
            obtain ⟨hshort, rfl⟩ := Prod.mk.inj hstep
            have hshort := of_decide_eq_false hshort
            have hfits := utf8Fits_lt hlong rest
            have hle := utf8Fits_le first rest
            have hend : utf8Fits first rest < rest.length := by
              rw [List.length_cons] at hno
              omega
            rw [utf8Fits_broken (by omega) hend] at htrue
            exact hshort (of_decide_eq_true htrue)

theorem not_utf8_of_validUpTo (h : validUpTo s = none) (t : Bytes) : ¬ Utf8 (s ++ t) :=
  not_utf8_of_validUpToFuel le_rfl h t

end Pieces

end Lib
