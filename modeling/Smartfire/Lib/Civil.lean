/-
  File:      Smartfire/Lib/Civil.lean
  Subject:   A date with a time of day, and its place on a line of nanoseconds.

  The line starts with the year 1970; what zone the time is of plays no part.

  * `Civil`, `Civil.nanos` -- a civil time and the nanoseconds up to it;
  * `ofNanos`, `ofNanos_spec` -- the civil time of a nanosecond;
  * `Civil.Before`, `nanos_lt` -- civil times are ordered by year, month, day, hour and so on;
  * `nanos_cycle` -- four hundred years later.
-/
import Smartfire.Lib.Gregorian

namespace Lib.Gregorian

structure Civil where
  date : Date
  hour : Nat
  minute : Nat
  second : Nat
  nano : Nat
deriving DecidableEq

structure Civil.Valid (c : Civil) : Prop where
  date : c.date.Valid
  hour : c.hour < 24
  minute : c.minute < 60
  second : c.second < 60
  nano : c.nano < 1000000000

instance (c : Civil) : Decidable c.Valid :=
  decidable_of_iff (c.date.Valid ∧ c.hour < 24 ∧ c.minute < 60 ∧ c.second < 60 ∧ c.nano < 1000000000)
    ⟨fun ⟨h₁, h₂, h₃, h₄, h₅⟩ => ⟨h₁, h₂, h₃, h₄, h₅⟩, fun h => ⟨h.date, h.hour, h.minute, h.second, h.nano⟩⟩

/-- The day 1970-01-01. -/
def epochDay : Int := 719528

/-- The nanoseconds of a day up to a time. -/
def Civil.dayNanos (c : Civil) : Int :=
  ((c.hour * 3600 + c.minute * 60 + c.second : Nat) : Int) * 1000000000 + c.nano

def Civil.nanos (c : Civil) : Int := (c.date.number - epochDay) * 86400000000000 + c.dayNanos

def ofNanos (n : Int) : Civil :=
  let rest := (n % 86400000000000).toNat
  ⟨ofNumber (n / 86400000000000 + epochDay), rest / 3600000000000, rest / 60000000000 % 60,
    rest / 1000000000 % 60, rest % 1000000000⟩

section Civil

variable {c c' : Civil}

theorem dayNanos_bounds (h : c.Valid) : 0 ≤ c.dayNanos ∧ c.dayNanos < 86400000000000 := by
  have hhour := h.hour
  have hminute := h.minute
  have hsecond := h.second
  have hnano := h.nano
  unfold Civil.dayNanos
  omega

/-- **Every nanosecond is that of its civil time.** -/
theorem ofNanos_spec (n : Int) : (ofNanos n).Valid ∧ (ofNanos n).nanos = n := by
  obtain ⟨hvalid, hnumber⟩ := ofNumber_spec (n / 86400000000000 + epochDay)
  refine ⟨⟨hvalid, ?_, ?_, ?_, ?_⟩, ?_⟩
  · simp only [ofNanos]
    omega
  · exact Nat.mod_lt _ (by decide)
  · exact Nat.mod_lt _ (by decide)
  · exact Nat.mod_lt _ (by decide)
  · simp only [Civil.nanos, Civil.dayNanos, ofNanos, hnumber]
    omega

/-- Two times of the same day are the same where their nanoseconds are. -/
theorem eq_of_dayNanos (h : c.Valid) (h' : c'.Valid) (hdate : c.date = c'.date) (heq : c.dayNanos = c'.dayNanos) :
    c = c' := by
  obtain ⟨d, hour, minute, second, nano⟩ := c
  obtain ⟨d', hour', minute', second', nano'⟩ := c'
  have h₁ := h.hour
  have h₂ := h.minute
  have h₃ := h.second
  have h₄ := h.nano
  have h₁' := h'.hour
  have h₂' := h'.minute
  have h₃' := h'.second
  have h₄' := h'.nano
  simp only [Civil.dayNanos] at heq h₁ h₂ h₃ h₄ h₁' h₂' h₃' h₄'
  simp only [Civil.mk.injEq]
  refine ⟨hdate, ?_, ?_, ?_, ?_⟩ <;> omega

/-- A time's place says its day and its place in the day. -/
theorem nanos_split (h : c.Valid) :
    c.date.number = c.nanos / 86400000000000 + epochDay ∧ c.dayNanos = c.nanos % 86400000000000 := by
  have hday := dayNanos_bounds h
  unfold Civil.nanos
  omega

theorem nanos_inj (h : c.Valid) (h' : c'.Valid) (heq : c.nanos = c'.nanos) : c = c' := by
  have hsplit := nanos_split h
  have hsplit' := nanos_split h'
  rw [heq] at hsplit
  have hdate := number_inj h.date h'.date (hsplit.1.trans hsplit'.1.symm)
  exact eq_of_dayNanos h h' hdate (hsplit.2.trans hsplit'.2.symm)

/-- By year, month, day, hour, minute, second and nanosecond. -/
def Civil.Before (c c' : Civil) : Prop :=
  c.date.Before c'.date ∨ c.date = c'.date ∧ (c.hour < c'.hour ∨ c.hour = c'.hour ∧ (c.minute < c'.minute ∨
    c.minute = c'.minute ∧ (c.second < c'.second ∨ c.second = c'.second ∧ c.nano < c'.nano)))

/-- **Nanoseconds are ordered as civil times are.** -/
theorem nanos_lt (h : c.Valid) (h' : c'.Valid) : c.nanos < c'.nanos ↔ c.Before c' := by
  have hday := dayNanos_bounds h
  have hday' := dayNanos_bounds h'
  have htime : c.dayNanos < c'.dayNanos ↔ (c.hour < c'.hour ∨ c.hour = c'.hour ∧ (c.minute < c'.minute ∨
      c.minute = c'.minute ∧ (c.second < c'.second ∨ c.second = c'.second ∧ c.nano < c'.nano))) := by
    have h₂ := h.minute
    have h₃ := h.second
    have h₄ := h.nano
    have h₂' := h'.minute
    have h₃' := h'.second
    have h₄' := h'.nano
    unfold Civil.dayNanos
    omega
  rw [Civil.Before, ← htime, ← number_lt h.date h'.date]
  have hdate : c.date = c'.date ↔ c.date.number = c'.date.number :=
    ⟨congrArg Date.number, number_inj h.date h'.date⟩
  rw [hdate]
  unfold Civil.nanos
  omega

/-- The calendar's cycle in nanoseconds. -/
def cycleNanos : Int := 146097 * 86400000000000

/-- **Four hundred years later.** -/
theorem nanos_cycle (year k : Int) (month day hour minute second nano : Nat) :
    (Civil.mk ⟨year + 400 * k, month, day⟩ hour minute second nano).nanos =
      (Civil.mk ⟨year, month, day⟩ hour minute second nano).nanos + cycleNanos * k := by
  simp only [Civil.nanos, Civil.dayNanos, number_cycle, cycleNanos]
  omega

end Civil

example : (Civil.mk ⟨2026, 3, 8⟩ 6 30 0 5).nanos = 1772951400000000005 := by decide

end Lib.Gregorian
