/-
  File:      Smartfire/Lib/Gregorian.lean
  Subject:   The Gregorian calendar, before and after its beginning, and the number of a day.

  Days are counted from the first of January of the year 0.

  * `Date`, `Date.Valid` -- a year, a month and a day of it;
  * `Date.number`, `number_lt` -- a day's number, which grows with the date;
  * `ofNumber`, `ofNumber_spec` -- the date of a number;
  * `number_cycle` -- four hundred years later, 146097 days later.
-/
import Mathlib.Tactic.Common

namespace Lib.Gregorian

/-! ## 1. Dates -/

structure Date where
  year : Int
  month : Nat
  day : Nat
deriving DecidableEq

def isLeap (year : Int) : Bool := year % 4 = 0 && (year % 100 ≠ 0 || year % 400 = 0)

/-- The days of a year before a month, in a year that is not a leap year. -/
def daysBefore : Nat → Nat
  | 1 => 0
  | 2 => 31
  | 3 => 59
  | 4 => 90
  | 5 => 120
  | 6 => 151
  | 7 => 181
  | 8 => 212
  | 9 => 243
  | 10 => 273
  | 11 => 304
  | 12 => 334
  | _ => 365

/-- The days of a year before a month; of the whole year before the thirteenth. -/
def daysBeforeMonth (leap : Bool) (month : Nat) : Nat := daysBefore month + if leap ∧ 2 < month then 1 else 0

def daysInMonth (year : Int) (month : Nat) : Nat :=
  daysBeforeMonth (isLeap year) (month + 1) - daysBeforeMonth (isLeap year) month

structure Date.Valid (d : Date) : Prop where
  month_pos : 1 ≤ d.month
  month_le : d.month ≤ 12
  day_pos : 1 ≤ d.day
  day_le : d.day ≤ daysInMonth d.year d.month

instance (d : Date) : Decidable d.Valid :=
  decidable_of_iff (1 ≤ d.month ∧ d.month ≤ 12 ∧ 1 ≤ d.day ∧ d.day ≤ daysInMonth d.year d.month)
    ⟨fun ⟨h₁, h₂, h₃, h₄⟩ => ⟨h₁, h₂, h₃, h₄⟩, fun h => ⟨h.month_pos, h.month_le, h.day_pos, h.day_le⟩⟩

/-- The days from the year 0 to a year. -/
def daysBeforeYear (year : Int) : Int := 365 * year + (year + 3) / 4 - (year + 99) / 100 + (year + 399) / 400

def Date.number (d : Date) : Int :=
  daysBeforeYear d.year + daysBeforeMonth (isLeap d.year) d.month + d.day - 1

/-- By year, month and day. -/
def Date.Before (d d' : Date) : Prop :=
  d.year < d'.year ∨ d.year = d'.year ∧ (d.month < d'.month ∨ d.month = d'.month ∧ d.day < d'.day)

/-! ## 2. Years and months -/

theorem daysBeforeYear_succ (year : Int) :
    daysBeforeYear (year + 1) = daysBeforeYear year + 365 + if isLeap year then 1 else 0 := by
  have hleap : isLeap year = true ↔ year % 4 = 0 ∧ (year % 100 ≠ 0 ∨ year % 400 = 0) := by
    simp [isLeap]
  unfold daysBeforeYear
  split
  · next h =>
    have h := hleap.mp h
    omega
  · next h =>
    have h := mt hleap.mpr h
    omega

theorem daysBeforeYear_mono {year year' : Int} (h : year ≤ year') : daysBeforeYear year ≤ daysBeforeYear year' := by
  unfold daysBeforeYear
  omega

/-- The days of a year are those before its thirteenth month. -/
theorem daysBeforeYear_next (year : Int) :
    daysBeforeYear (year + 1) = daysBeforeYear year + daysBeforeMonth (isLeap year) 13 := by
  rw [daysBeforeYear_succ]
  cases isLeap year <;> simp [daysBeforeMonth, daysBefore]
  all_goals omega

theorem daysBeforeMonth_mono {leap : Bool} {m m' : Nat} (h : m ≤ m') (h₁ : 1 ≤ m) (h' : m' ≤ 13) :
    daysBeforeMonth leap m ≤ daysBeforeMonth leap m' := by
  have hall : ∀ (leap : Bool) (m m' : Fin 14), m.val ≤ m'.val → 1 ≤ m.val →
      daysBeforeMonth leap m.val ≤ daysBeforeMonth leap m'.val := by decide +kernel
  exact hall leap ⟨m, by omega⟩ ⟨m', by omega⟩ h h₁

/-- A month has at least a day more than its days. -/
theorem daysInMonth_add (year : Int) {m : Nat} (h₁ : 1 ≤ m) (h₂ : m ≤ 12) :
    daysBeforeMonth (isLeap year) m + daysInMonth year m = daysBeforeMonth (isLeap year) (m + 1) := by
  have hmono : daysBeforeMonth (isLeap year) m ≤ daysBeforeMonth (isLeap year) (m + 1) :=
    daysBeforeMonth_mono (Nat.le_succ m) h₁ (by omega)
  unfold daysInMonth
  omega

/-- A month has between 28 and 31 days. -/
theorem daysInMonth_bounds (year : Int) {m : Nat} (h₁ : 1 ≤ m) (h₂ : m ≤ 12) :
    28 ≤ daysInMonth year m ∧ daysInMonth year m ≤ 31 := by
  have hall : ∀ (leap : Bool) (m : Fin 13), 1 ≤ m.val →
      28 ≤ daysBeforeMonth leap (m.val + 1) - daysBeforeMonth leap m.val ∧
        daysBeforeMonth leap (m.val + 1) - daysBeforeMonth leap m.val ≤ 31 := by decide +kernel
  exact hall (isLeap year) ⟨m, by omega⟩ h₁

/-! ## 3. The number of a day -/

section Number

variable {d d' : Date}

/-- A date's number lies in its month. -/
theorem number_bounds (h : d.Valid) :
    daysBeforeYear d.year + daysBeforeMonth (isLeap d.year) d.month ≤ d.number ∧
      d.number < daysBeforeYear d.year + daysBeforeMonth (isLeap d.year) (d.month + 1) := by
  have hmonth := daysInMonth_add d.year h.month_pos h.month_le
  have hpos := h.day_pos
  have hle := h.day_le
  unfold Date.number
  omega

/-- A date's number lies in its year. -/
theorem number_bounds_year (h : d.Valid) :
    daysBeforeYear d.year ≤ d.number ∧ d.number < daysBeforeYear (d.year + 1) := by
  have hmonth := number_bounds h
  have hend : daysBeforeMonth (isLeap d.year) (d.month + 1) ≤ daysBeforeMonth (isLeap d.year) 13 :=
    daysBeforeMonth_mono (by have := h.month_le; omega) (by omega) (Nat.le_refl 13)
  rw [daysBeforeYear_next]
  omega

/-- **A later date has a larger number.** -/
theorem number_lt_of_before (h : d.Valid) (h' : d'.Valid) (hb : d.Before d') : d.number < d'.number := by
  obtain hyear | ⟨hyear, hmonth | ⟨hmonth, hday⟩⟩ := hb
  · have hmono := daysBeforeYear_mono (show d.year + 1 ≤ d'.year by omega)
    have hd := number_bounds_year h
    have hd' := number_bounds_year h'
    omega
  · have hmono : daysBeforeMonth (isLeap d.year) (d.month + 1) ≤ daysBeforeMonth (isLeap d.year) d'.month :=
      daysBeforeMonth_mono hmonth (by omega) (by have := h'.month_le; omega)
    have hd := number_bounds h
    have hd' := number_bounds h'
    rw [← hyear] at hd'
    omega
  · unfold Date.number
    rw [hyear, hmonth]
    omega

theorem before_trichotomy (d d' : Date) : d.Before d' ∨ d = d' ∨ d'.Before d := by
  obtain ⟨y, m, day⟩ := d
  obtain ⟨y', m', day'⟩ := d'
  simp only [Date.Before, Date.mk.injEq]
  omega

/-- **Numbers are ordered as dates are.** -/
theorem number_lt (h : d.Valid) (h' : d'.Valid) : d.number < d'.number ↔ d.Before d' := by
  refine ⟨fun hlt => ?_, number_lt_of_before h h'⟩
  obtain hb | rfl | hb := before_trichotomy d d'
  · exact hb
  · omega
  · have hgt := number_lt_of_before h' h hb
    omega

theorem number_inj (h : d.Valid) (h' : d'.Valid) (heq : d.number = d'.number) : d = d' := by
  obtain hb | rfl | hb := before_trichotomy d d'
  · have hlt := number_lt_of_before h h' hb
    omega
  · rfl
  · have hlt := number_lt_of_before h' h hb
    omega

end Number

/-! ## 4. The date of a number -/

/-- The year of a day's number: an estimate, and one more or less. -/
def yearOf (n : Int) : Int :=
  let y := n * 400 / 146097
  if n < daysBeforeYear y then y - 1 else if n < daysBeforeYear (y + 1) then y else y + 1

/-- The last month that begins by a day of the year. -/
def monthOf (leap : Bool) (day : Nat) : Nat :=
  if day < daysBeforeMonth leap 2 then 1 else if day < daysBeforeMonth leap 3 then 2
  else if day < daysBeforeMonth leap 4 then 3 else if day < daysBeforeMonth leap 5 then 4
  else if day < daysBeforeMonth leap 6 then 5 else if day < daysBeforeMonth leap 7 then 6
  else if day < daysBeforeMonth leap 8 then 7 else if day < daysBeforeMonth leap 9 then 8
  else if day < daysBeforeMonth leap 10 then 9 else if day < daysBeforeMonth leap 11 then 10
  else if day < daysBeforeMonth leap 12 then 11 else 12

def ofNumber (n : Int) : Date :=
  let year := yearOf n
  let day := (n - daysBeforeYear year).toNat
  let month := monthOf (isLeap year) day
  ⟨year, month, day - daysBeforeMonth (isLeap year) month + 1⟩

/-- Years are as long as in the mean, but for less than two days. -/
theorem daysBeforeYear_bounds (year : Int) :
    146097 * year - 396 ≤ 400 * daysBeforeYear year ∧ 400 * daysBeforeYear year ≤ 146097 * year + 699 := by
  unfold daysBeforeYear
  omega

theorem yearOf_bounds (n : Int) : daysBeforeYear (yearOf n) ≤ n ∧ n < daysBeforeYear (yearOf n + 1) := by
  unfold yearOf
  dsimp only
  have hbefore := daysBeforeYear_bounds (n * 400 / 146097 - 1)
  have hbehind := daysBeforeYear_bounds (n * 400 / 146097 + 1 + 1)
  split
  · next h =>
    rw [Int.sub_add_cancel]
    omega
  · split
    · omega
    · omega

theorem monthOf_bounds {leap : Bool} {day : Nat} (h : day < daysBeforeMonth leap 13) :
    (1 ≤ monthOf leap day ∧ monthOf leap day ≤ 12) ∧ daysBeforeMonth leap (monthOf leap day) ≤ day ∧
      day < daysBeforeMonth leap (monthOf leap day + 1) := by
  have hall : ∀ (leap : Bool) (day : Fin 366), day.val < daysBeforeMonth leap 13 →
      (1 ≤ monthOf leap day ∧ monthOf leap day ≤ 12) ∧ daysBeforeMonth leap (monthOf leap day) ≤ day ∧
        day < daysBeforeMonth leap (monthOf leap day + 1) := by decide +kernel
  have hlt : daysBeforeMonth leap 13 ≤ 366 := by cases leap <;> decide
  exact hall leap ⟨day, by omega⟩ h

/-- **Every number is that of its date.** -/
theorem ofNumber_spec (n : Int) : (ofNumber n).Valid ∧ (ofNumber n).number = n := by
  obtain ⟨hlo, hhi⟩ := yearOf_bounds n
  rw [daysBeforeYear_next] at hhi
  have hday : (n - daysBeforeYear (yearOf n)).toNat < daysBeforeMonth (isLeap (yearOf n)) 13 := by omega
  obtain ⟨⟨h₁, h₁₂⟩, hbegin, hend⟩ := monthOf_bounds hday
  have hmonth := daysInMonth_add (yearOf n) h₁ h₁₂
  refine ⟨⟨h₁, h₁₂, Nat.le_add_left 1 _, ?_⟩, ?_⟩
  · simp only [ofNumber]
    omega
  · simp only [ofNumber, Date.number]
    omega

/-! ## 5. The cycle of the calendar -/

theorem isLeap_cycle (year k : Int) : isLeap (year + 400 * k) = isLeap year := by
  have h₄ : (year + 400 * k) % 4 = year % 4 := by omega
  have h₁₀₀ : (year + 400 * k) % 100 = year % 100 := by omega
  have h₄₀₀ : (year + 400 * k) % 400 = year % 400 := by omega
  simp only [isLeap, h₄, h₁₀₀, h₄₀₀]

theorem daysBeforeYear_cycle (year k : Int) :
    daysBeforeYear (year + 400 * k) = daysBeforeYear year + 146097 * k := by
  unfold daysBeforeYear
  omega

/-- **Every four hundred years the calendar repeats itself.** -/
theorem number_cycle (year k : Int) (month day : Nat) :
    (Date.mk (year + 400 * k) month day).number = (Date.mk year month day).number + 146097 * k := by
  simp only [Date.number, isLeap_cycle, daysBeforeYear_cycle]
  omega

theorem valid_cycle {year k : Int} {month day : Nat} :
    (Date.mk (year + 400 * k) month day).Valid ↔ (Date.mk year month day).Valid := by
  have hdays : daysInMonth (year + 400 * k) month = daysInMonth year month := by
    simp only [daysInMonth, isLeap_cycle]
  constructor
  · exact fun h => ⟨h.month_pos, h.month_le, h.day_pos, hdays ▸ h.day_le⟩
  · exact fun h => ⟨h.month_pos, h.month_le, h.day_pos, hdays.symm ▸ h.day_le⟩

example : (Date.mk 1970 1 1).number = 719528 := by decide

end Lib.Gregorian
