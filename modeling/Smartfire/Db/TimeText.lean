/-
  File:      Smartfire/Db/TimeText.lean
  Subject:   The database's text of an instant is its civil time, ordered as instants are.

  * `dbText`, `toDb_eq` -- the text is that of the Gregorian calendar, in every year;
  * `dbText_lt` -- in the years 0 to 9999 texts are ordered as instants.
-/
import Smartfire.Db.Time

namespace Smartfire.Db.Time

open Lib Lib.Decimal Lib.Gregorian

/-! ## 1. The text -/

/-- The civil time of an instant, in UTC. -/
def civil (t : Int) : Civil := ofNanos (t * 1000)

def fractionText (us : Nat) : Bytes := if us = 0 then [] else text "." ++ padded 6 us

def dbText (t : Int) : Bytes :=
  yearText (civil t).date.year ++ monthToSecond (civil t) ++ fractionText (t % 1000000).toNat

variable {jiff : Jiff} {t : Int}

theorem civil_spec (t : Int) : (civil t).Valid ∧ (civil t).nanos = t * 1000 := ofNanos_spec (t * 1000)

theorem civil_nano (t : Int) : (civil t).nano = (t % 1000000).toNat * 1000 := by
  simp only [civil, ofNanos]
  omega

theorem i512_of_bounds {x : Int} (h₁ : -2 ^ 511 ≤ x) (h₂ : x ≤ i512Max) : i512 x = some x := if_pos ⟨h₁, h₂⟩

theorem i64_of_bounds {x : Int} (h₁ : -2 ^ 63 ≤ x) (h₂ : x < 2 ^ 63) : i64 x = some x := if_pos ⟨h₁, h₂⟩

/-- jiff holds an instant, or it does not. -/
theorem tryJiff_eq (hd : Documented jiff) (t : Int) :
    tryJiff jiff t = if minNanos ≤ t * 1000 ∧ t * 1000 ≤ maxNanos then some (t * 1000) else none := by
  by_cases h : minNanos ≤ t * 1000 ∧ t * 1000 ≤ maxNanos
  · have hfits : i64 t = some t := by
      unfold minNanos maxNanos at h
      exact i64_of_bounds (by omega) (by omega)
    simp [tryJiff, hfits, hd.fromMicrosecond, h]
  · rw [if_neg h, tryJiff]
    cases hfits : i64 t with
    | none => rfl
    | some x =>
      obtain rfl : x = t := by
        unfold i64 at hfits
        split at hfits
        · exact (Option.some.inj hfits).symm
        · cases hfits
      simp [hd.fromMicrosecond, h]

/-- The first instant of the years from which the proxies are counted. -/
theorem base_spec (hd : Documented jiff) (t : Int) :
    ∃ date n, jiff.dateNew (if t < 0 then -9600 else 9200) 1 1 = some date ∧
      jiff.timestamp ⟨date, 0, 0, 0, 0⟩ = some n ∧
      microsOf n = if t < 0 then -365113958400000000 else 228156739200000000 := by
  split
  · have hvalid : (Civil.mk ⟨-9600, 1, 1⟩ 0 0 0 0).Valid := by decide
    have hn : (Civil.mk ⟨-9600, 1, 1⟩ 0 0 0 0).nanos = -365113958400000000000 := by decide
    refine ⟨⟨-9600, 1, 1⟩, -365113958400000000000, ?_, ?_, by decide⟩
    · rw [hd.dateNew]
      exact if_pos ⟨by decide, by decide, by decide, hvalid.date⟩
    · rw [hd.timestamp _ hvalid, hn]
      exact if_pos (by decide)
  · have hvalid : (Civil.mk ⟨9200, 1, 1⟩ 0 0 0 0).Valid := by decide
    have hn : (Civil.mk ⟨9200, 1, 1⟩ 0 0 0 0).nanos = 228156739200000000000 := by decide
    refine ⟨⟨9200, 1, 1⟩, 228156739200000000000, ?_, ?_, by decide⟩
    · rw [hd.dateNew]
      exact if_pos ⟨by decide, by decide, by decide, hvalid.date⟩
    · rw [hd.timestamp _ hvalid, hn]
      exact if_pos (by decide)

/-- **The proxy is as many cycles away as the years it says, and jiff holds it.** -/
theorem calendarProxy_spec (hd : Documented jiff) (ht : t.natAbs ≤ 2 ^ 511 - 2 ^ 70) :
    ∃ n k, calendarProxy jiff t = .ok (n, 400 * k) ∧ (minNanos ≤ n ∧ n ≤ maxNanos) ∧ n + cycleNanos * k = t * 1000 ∧
      (400 * k).natAbs ≤ t.natAbs := by
  unfold calendarProxy
  rw [tryJiff_eq hd]
  by_cases hin : minNanos ≤ t * 1000 ∧ t * 1000 ≤ maxNanos
  · rw [if_pos hin]
    exact ⟨t * 1000, 0, rfl, hin, by omega, by omega⟩
  · rw [if_neg hin]
    obtain ⟨date, base, hdate, hbase, hmicros⟩ := base_spec hd t
    -- The cycles from the base to the instant, and the rest of the last of them.
    have hrest : 0 ≤ (t - microsOf base) % cycleMicros ∧ (t - microsOf base) % cycleMicros < cycleMicros :=
      ⟨Int.emod_nonneg _ (by decide), Int.emod_lt_of_pos _ (by decide)⟩
    have hsum := Int.mul_ediv_add_emod (t - microsOf base) cycleMicros
    generalize hk : (t - microsOf base) / cycleMicros = k at hsum
    generalize (t - microsOf base) % cycleMicros = rest at hsum hrest
    unfold minNanos maxNanos at hin
    unfold cycleMicros at hsum hrest
    have hlimit : i512Max = 2 ^ 511 - 1 := rfl
    have hproxy : t - k * cycleMicros = microsOf base + rest := by
      unfold cycleMicros
      omega
    have hrange : minNanos ≤ (microsOf base + rest) * 1000 ∧ (microsOf base + rest) * 1000 ≤ maxNanos := by
      unfold minNanos maxNanos
      split at hmicros <;> omega
    refine ⟨(microsOf base + rest) * 1000, k, ?_, hrange, ?_, ?_⟩
    · have h₁ : i512 (t - microsOf base) = some (t - microsOf base) := by
        split at hmicros <;> exact i512_of_bounds (by omega) (by omega)
      have h₂ : i512 (k * cycleMicros) = some (k * cycleMicros) := by
        unfold cycleMicros
        split at hmicros <;> exact i512_of_bounds (by omega) (by omega)
      have h₃ : i512 (microsOf base + rest) = some (microsOf base + rest) := by
        split at hmicros <;> exact i512_of_bounds (by omega) (by omega)
      have h₄ : i64 (microsOf base + rest) = some (microsOf base + rest) := by
        split at hmicros <;> exact i64_of_bounds (by omega) (by omega)
      have h₅ : i512 (k * 400) = some (400 * k) := by
        rw [Int.mul_comm]
        split at hmicros <;> exact i512_of_bounds (by omega) (by omega)
      simp only [hdate, hbase, orPanic, bind, Except.bind, h₁, hk, h₂, hproxy, h₃, h₄, Option.bind,
        hd.fromMicrosecond, if_pos hrange, h₅, pure, Except.pure]
    · unfold cycleNanos
      omega
    · split at hmicros <;> omega

/-- A civil time so many cycles away. -/
def shifted (c : Civil) (k : Int) : Civil := { c with date := { c.date with year := c.date.year + 400 * k } }

theorem shifted_valid {c : Civil} (h : c.Valid) (k : Int) : (shifted c k).Valid :=
  ⟨valid_cycle.mpr h.date, h.hour, h.minute, h.second, h.nano⟩

theorem shifted_nanos (c : Civil) (k : Int) : (shifted c k).nanos = c.nanos + cycleNanos * k :=
  nanos_cycle c.date.year k c.date.month c.date.day c.hour c.minute c.second c.nano

/-- The years of jiff's instants. -/
theorem year_bounds {c : Civil} (h : c.Valid) (hn : minNanos ≤ c.nanos ∧ c.nanos ≤ maxNanos) :
    -9999 ≤ c.date.year ∧ c.date.year ≤ 9999 := by
  have hyear := number_bounds_year h.date
  have hsplit := nanos_split h
  have hlo := daysBeforeYear_bounds c.date.year
  have hhi := daysBeforeYear_bounds (c.date.year + 1)
  unfold minNanos maxNanos at hn
  unfold epochDay at hsplit
  omega

/-- **The database's text is that of the Gregorian calendar**, in jiff's years and beyond. -/
theorem toDb_eq (hd : Documented jiff) (ht : t.natAbs ≤ 2 ^ 511 - 2 ^ 70) : toDb jiff t = .ok (dbText t) := by
  obtain ⟨n, k, hproxy, hn, hsum, hk⟩ := calendarProxy_spec hd ht
  obtain ⟨hvalid, hnanos⟩ := hd.utc n hn.1 hn.2
  have hcivil : civil t = shifted (jiff.utc n) k := by
    refine nanos_inj (civil_spec t).1 (shifted_valid hvalid k) ?_
    rw [(civil_spec t).2, shifted_nanos, hnanos, hsum]
  have hbounds := year_bounds hvalid (by rwa [hnanos])
  have hlimit : i512Max = 2 ^ 511 - 1 := rfl
  have hyear : i512 ((jiff.utc n).date.year + 400 * k) = some ((jiff.utc n).date.year + 400 * k) :=
    i512_of_bounds (by omega) (by omega)
  have hmonth : monthToSecond (shifted (jiff.utc n) k) = monthToSecond (jiff.utc n) := rfl
  simp only [toDb, hproxy, orPanic, hyear, bind, Except.bind, pure, Except.pure, dbText, hcivil, hmonth, fractionText]
  split
  · rw [List.append_nil]
    rfl
  · rw [← List.append_assoc]
    rfl

/-! ## 2. Order -/

section Order

theorem append_lt_append {x x' y y' : Bytes} (hlen : x.length = x'.length) :
    x ++ y < x' ++ y' ↔ x < x' ∨ x = x' ∧ y < y' := by
  induction x generalizing x' with
  | nil =>
    obtain rfl := List.eq_nil_of_length_eq_zero hlen.symm
    simp
  | cons b x ih =>
    cases x' with
    | nil => cases hlen
    | cons b' x' =>
      rw [List.cons_append, List.cons_append, List.cons_lt_cons_iff, List.cons_lt_cons_iff,
        ih (by simpa using hlen), List.cons.injEq]
      tauto

theorem padded_inj {w n n' : Nat} (h : padded w n = padded w n') : n = n' := by
  rw [← value_padded w n, h, value_padded]

/-- Two numbers of one width in front of texts. -/
theorem padded_append_lt {w n n' : Nat} {y y' : Bytes} (hw : 0 < w) (h : n < 10 ^ w) (h' : n' < 10 ^ w) :
    padded w n ++ y < padded w n' ++ y' ↔ n < n' ∨ n = n' ∧ y < y' := by
  have hlen : (padded w n).length = (padded w n').length := by rw [length_padded hw h, length_padded hw h']
  rw [append_lt_append hlen, lt_iff_value hlen (fun b => isDigit_padded) (fun b => isDigit_padded), value_padded,
    value_padded]
  have heq : padded w n = padded w n' ↔ n = n' := ⟨padded_inj, fun h => by rw [h]⟩
  rw [heq]

theorem text_append_lt (s : String) (y y' : Bytes) : text s ++ y < text s ++ y' ↔ y < y' := by
  rw [append_lt_append rfl]
  have hirr : ¬ text s < text s := List.lt_irrefl _
  simp [hirr]

/-- Fractions are ordered as microseconds, none being the first. -/
theorem fractionText_lt {us us' : Nat} (h : us < 1000000) (h' : us' < 1000000) :
    fractionText us < fractionText us' ↔ us < us' := by
  unfold fractionText
  split
  · next hz =>
    split
    · next hz' => simp [hz, hz']
    · next hz' =>
      have hlt : ([] : Bytes) < text "." ++ padded 6 us' := List.nil_lt_cons _ _
      exact iff_of_true hlt (by omega)
  · next hz =>
    split
    · next hz' => simp [hz']
    · have hlen : (padded 6 us).length = (padded 6 us').length := by
        rw [length_padded (by decide) h, length_padded (by decide) h']
      rw [text_append_lt, lt_iff_value hlen (fun b => isDigit_padded) (fun b => isDigit_padded), value_padded,
        value_padded]

/-- The text of a year that is not negative, part by part. -/
theorem dbText_eq (h : 0 ≤ (civil t).date.year) : dbText t = padded 4 (civil t).date.year.toNat ++ (text "-" ++
    (padded 2 (civil t).date.month ++ (text "-" ++ (padded 2 (civil t).date.day ++ (text " " ++
      (padded 2 (civil t).hour ++ (text ":" ++ (padded 2 (civil t).minute ++ (text ":" ++
        (padded 2 (civil t).second ++ fractionText (t % 1000000).toNat)))))))))) := by
  rw [dbText, yearText, if_neg (by omega)]
  simp only [monthToSecond, List.append_assoc]

/-- **In the years 0 to 9999 texts are ordered as instants.** -/
theorem dbText_lt {t t' : Int} (h : 0 ≤ (civil t).date.year ∧ (civil t).date.year ≤ 9999)
    (h' : 0 ≤ (civil t').date.year ∧ (civil t').date.year ≤ 9999) : dbText t < dbText t' ↔ t < t' := by
  obtain ⟨hc, hn⟩ := civil_spec t
  obtain ⟨hc', hn'⟩ := civil_spec t'
  have hnano := civil_nano t
  have hnano' := civil_nano t'
  have hday := (daysInMonth_bounds (civil t).date.year hc.date.month_pos hc.date.month_le).2
  have hday' := (daysInMonth_bounds (civil t').date.year hc'.date.month_pos hc'.date.month_le).2
  have hmonth := hc.date.month_le
  have hmonth' := hc'.date.month_le
  have hlast := hc.date.day_le
  have hlast' := hc'.date.day_le
  have hhour := hc.hour
  have hhour' := hc'.hour
  have hminute := hc.minute
  have hminute' := hc'.minute
  have hsecond := hc.second
  have hsecond' := hc'.second
  have hfraction := fractionText_lt (show (t % 1000000).toNat < 1000000 by omega)
    (show (t' % 1000000).toNat < 1000000 by omega)
  rw [dbText_eq h.1, dbText_eq h'.1, padded_append_lt (by decide) (by omega) (by omega), text_append_lt,
    padded_append_lt (by decide) (by omega) (by omega), text_append_lt,
    padded_append_lt (by decide) (by omega) (by omega), text_append_lt,
    padded_append_lt (by decide) (by omega) (by omega), text_append_lt,
    padded_append_lt (by decide) (by omega) (by omega), text_append_lt,
    padded_append_lt (by decide) (by omega) (by omega), hfraction]
  have hbefore := nanos_lt hc hc'
  have hdate : (civil t).date = (civil t').date ↔ (civil t).date.year = (civil t').date.year ∧
      (civil t).date.month = (civil t').date.month ∧ (civil t).date.day = (civil t').date.day := by
    cases hd : (civil t).date
    cases hd' : (civil t').date
    simp only [Date.mk.injEq]
  rw [hn, hn', Civil.Before, Date.Before, hdate] at hbefore
  omega

end Order

end Smartfire.Db.Time
