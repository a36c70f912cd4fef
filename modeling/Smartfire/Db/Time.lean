/-
  File:      Smartfire/Db/Time.lean
  Subject:   Instants and the text the database keeps of them (crates/db/src/time.rs).

  A `Timestamp` is its number of microseconds, of type `I512`. jiff's instants are nanoseconds; jiff and the
  reading of an `I512` are parameters, of which `Documented` says what their documentation says.

  * `Jiff`, `Documented` -- civil times, and the instants jiff can hold;
  * `calendarProxy`, `fromWideShiftedJiff`, `since` -- instants beyond jiff's years;
  * `toDb`, `parseDb` -- the text, and reading it.
-/
import Mathlib.Algebra.Order.Ring.Int
import Smartfire.Lib.Civil
import Smartfire.Lib.Decimal
import Smartfire.Lib.Utf8

namespace Smartfire.Db.Time

open Lib Lib.Decimal Lib.Gregorian

/-! ## 1. What the crates give -/

/-- jiff's civil times in UTC and instants, and the reading of a number of type `I512`. -/
structure Jiff where
  fromMicrosecond : Int → Option Int
  utc : Int → Civil
  dateNew : Int → Int → Int → Option Date
  timeNew : Int → Int → Int → Int → Option (Nat × Nat × Nat × Nat)
  timestamp : Civil → Option Int
  parseI512 : Bytes → Option Int

/-- The first and the last of jiff's instants: the ends of its years, and a largest offset. -/
def minNanos : Int := -377705023201 * 1000000000

def maxNanos : Int := 253402207200 * 1000000000 + 999999999

def i512Max : Int := 2 ^ 511 - 1

structure Documented (jiff : Jiff) : Prop where
  fromMicrosecond : ∀ us, jiff.fromMicrosecond us =
    if minNanos ≤ us * 1000 ∧ us * 1000 ≤ maxNanos then some (us * 1000) else none
  utc : ∀ n, minNanos ≤ n → n ≤ maxNanos → (jiff.utc n).Valid ∧ (jiff.utc n).nanos = n
  dateNew : ∀ year month day : Int, jiff.dateNew year month day =
    if (-9999 ≤ year ∧ year ≤ 9999) ∧ 0 ≤ month ∧ 0 ≤ day ∧ (Date.mk year month.toNat day.toNat).Valid then
      some ⟨year, month.toNat, day.toNat⟩ else none
  timeNew : ∀ hour minute second nano : Int, jiff.timeNew hour minute second nano =
    if (0 ≤ hour ∧ hour < 24) ∧ (0 ≤ minute ∧ minute < 60) ∧ (0 ≤ second ∧ second < 60) ∧
      0 ≤ nano ∧ nano < 1000000000 then some (hour.toNat, minute.toNat, second.toNat, nano.toNat) else none
  timestamp : ∀ c, c.Valid → jiff.timestamp c =
    if minNanos ≤ c.nanos ∧ c.nanos ≤ maxNanos then some c.nanos else none
  parseI512 : ∀ s, jiff.parseI512 s = parseInt (-2 ^ 511) i512Max s

/-- Why there is no result: a panic, or a `None`. -/
inductive Stop where
  | panicked
  | refused
deriving DecidableEq

def orPanic {α : Type} : Option α → Except Stop α
  | some a => .ok a
  | none => .error .panicked

def orRefuse {α : Type} : Option α → Except Stop α
  | some a => .ok a
  | none => .error .refused

def refuseIf (c : Prop) [Decidable c] : Except Stop Unit := if c then .error .refused else .ok ()

/-- A number of type `I512`. -/
def i512 (x : Int) : Option Int := if -2 ^ 511 ≤ x ∧ x ≤ i512Max then some x else none

def i64 (x : Int) : Option Int := if -2 ^ 63 ≤ x ∧ x < 2 ^ 63 then some x else none

def i32 (x : Int) : Option Int := if -2 ^ 31 ≤ x ∧ x < 2 ^ 31 then some x else none

def i16 (x : Int) : Option Int := if -2 ^ 15 ≤ x ∧ x < 2 ^ 15 then some x else none

/-! ## 2. Wide instants -/

/-- The largest wide-instant magnitude, in microseconds. -/
def wideLimit : Int := i512Max - 2 ^ 100

def cycleMicros : Int := 146097 * 86400000000

section Wide

variable (jiff : Jiff)

/-- `as_microsecond` of a jiff instant. -/
def microsOf (n : Int) : Int := n / 1000

/-- `offset_nanos`. -/
def offsetNanos (t nanos : Int) : Option Int := i512 (t + nanos / 1000)

def since (t nanos : Int) : Option Int := offsetNanos t nanos

def tryJiff (t : Int) : Option Int := do jiff.fromMicrosecond (← i64 t)

def fromWideShiftedJiff (n yearShift : Int) : Option Int :=
  if Int.tmod yearShift 400 ≠ 0 then none
  else do
    let shift ← i512 (Int.tdiv yearShift 400 * cycleMicros)
    let micros ← i512 (shift + microsOf n)
    if micros.natAbs ≤ wideLimit.natAbs then some micros else none

/-- A nearby instant at the same place in the calendar's cycle, and the years between. -/
def calendarProxy (t : Int) : Except Stop (Int × Int) :=
  match tryJiff jiff t with
  | some n => .ok (n, 0)
  | none => do
    let baseYear : Int := if t < 0 then -9600 else 9200
    let date ← orPanic (jiff.dateNew baseYear 1 1)
    let base := microsOf (← orPanic (jiff.timestamp ⟨date, 0, 0, 0, 0⟩))
    let cycles := (← orPanic (i512 (t - base))) / cycleMicros
    let proxy ← orPanic (i512 (t - (← orPanic (i512 (cycles * cycleMicros)))))
    let n ← orPanic (do jiff.fromMicrosecond (← i64 proxy))
    return (n, ← orPanic (i512 (cycles * 400)))

/-! ## 3. The text -/

/-- `strftime("-%m-%d %H:%M:%S")`. -/
def monthToSecond (c : Civil) : Bytes :=
  text "-" ++ padded 2 c.date.month ++ text "-" ++ padded 2 c.date.day ++ text " " ++ padded 2 c.hour ++ text ":" ++
    padded 2 c.minute ++ text ":" ++ padded 2 c.second

def yearText (year : Int) : Bytes :=
  if year < 0 then text "-" ++ padded 4 year.natAbs else padded 4 year.toNat

/-- The exact text Active Record writes to SQLite, including signed years. -/
def toDb (t : Int) : Except Stop Bytes := do
  let (proxy, shift) ← calendarProxy jiff t
  let year ← orPanic (i512 ((jiff.utc proxy).date.year + shift))
  let base := yearText year ++ monthToSecond (jiff.utc proxy)
  let us := (t % 1000000).toNat
  return if us = 0 then base else base ++ text "." ++ padded 6 us

/-- The characters of white space, each as its bytes. -/
def whitespace : List Bytes :=
  [[0x09], [0x0A], [0x0B], [0x0C], [0x0D], [0x20], [0xC2, 0x85], [0xC2, 0xA0], [0xE1, 0x9A, 0x80],
    [0xE2, 0x80, 0x80], [0xE2, 0x80, 0x81], [0xE2, 0x80, 0x82], [0xE2, 0x80, 0x83], [0xE2, 0x80, 0x84],
    [0xE2, 0x80, 0x85], [0xE2, 0x80, 0x86], [0xE2, 0x80, 0x87], [0xE2, 0x80, 0x88], [0xE2, 0x80, 0x89],
    [0xE2, 0x80, 0x8A], [0xE2, 0x80, 0xA8], [0xE2, 0x80, 0xA9], [0xE2, 0x80, 0xAF], [0xE2, 0x81, 0x9F],
    [0xE3, 0x80, 0x80]]

def trimStart : Nat → Bytes → Bytes
  | 0, s => s
  | n + 1, s =>
    match whitespace.find? (·.isPrefixOf s) with
    | some w => trimStart n (s.drop w.length)
    | none => s

def trimEnd : Nat → Bytes → Bytes
  | 0, s => s
  | n + 1, s =>
    match whitespace.find? (·.isSuffixOf s) with
    | some w => trimEnd n (s.take (s.length - w.length))
    | none => s

/-- `str::trim`. -/
def trim (s : Bytes) : Bytes := trimEnd s.length (trimStart s.length s)

def stripSuffix (s suffix : Bytes) : Option Bytes :=
  if suffix.isSuffixOf s then some (s.take (s.length - suffix.length)) else none

/-- Without the name of the zone. -/
def withoutZone (s : Bytes) : Bytes :=
  ((stripSuffix (trim s) (text " UTC")).or (stripSuffix (trim s) (text "Z"))).getD (trim s)

/-- The microseconds of a fraction: its first six digits. -/
def fractionMicros (fraction : Bytes) : Option Int :=
  match fraction with
  | [] => some 0
  | dot :: d =>
    if dot = byte '.' ∧ d ≠ [] ∧ d.all Decimal.isDigit then
      parseInt (-2 ^ 31) (2 ^ 31 - 1) (d.take 6 ++ List.replicate (6 - (d.take 6).length) (byte '0'))
    else none

/-- The number of two bytes, of type `i8`. -/
def num (whole : Bytes) (start : Nat) : Except Stop Int := do
  orRefuse (parseInt (-128) 127 (← orRefuse (Lib.slice whole start (start + 2))))

/-- A year jiff has, at the same place of the calendar's cycle. -/
def proxyYear (year : Int) : Except Stop Int :=
  if -9998 ≤ year ∧ year ≤ 9998 then .ok year else do
    orPanic (i16 (2000 + (← orRefuse (i16 (year % 400)))))

/-- The year, up to the first minus that is not its sign, and what comes behind it. -/
def parseYear (s : Bytes) : Except Stop (Int × Bytes) := do
  let signed := if s.head? = some (byte '-') then 1 else 0
  let behindSign ← orRefuse (Lib.slice s signed s.length)
  let yearEnd := (← orRefuse (behindSign.findIdx? (· = byte '-'))) + signed
  let year ← orRefuse (jiff.parseI512 (← orRefuse (Lib.slice s 0 yearEnd)))
  return (year, ← orRefuse (Lib.slice s (yearEnd + 1) s.length))

/-- Month to second, and the separators between them. -/
def parseWhole (remainder : Bytes) : Except Stop Bytes := do
  refuseIf (remainder.length < 14)
  let whole ← orRefuse (Lib.slice remainder 0 14)
  let b₂ ← orPanic whole[2]?
  let b₅ ← orPanic whole[5]?
  let b₈ ← orPanic whole[8]?
  let b₁₁ ← orPanic whole[11]?
  refuseIf (b₂ ≠ byte '-' ∨ ¬ (b₅ = byte ' ' ∨ b₅ = byte 'T') ∨ b₈ ≠ byte ':' ∨ b₁₁ ≠ byte ':')
  return whole

/-- Rails' signed/extended-year UTC datetime(6) encoding. -/
def parseDb (s : Bytes) : Except Stop Int := do
  let (year, remainder) ← parseYear jiff (withoutZone s)
  let whole ← parseWhole remainder
  let proxy ← proxyYear year
  let month ← num whole 0
  let day ← num whole 3
  let date ← orRefuse (jiff.dateNew proxy month day)
  let micros ← orRefuse (fractionMicros (← orRefuse (Lib.slice remainder 14 remainder.length)))
  let hour ← num whole 6
  let minute ← num whole 9
  let second ← num whole 12
  let nano ← orPanic (i32 (micros * 1000))
  let (h, m, s, n) ← orRefuse (jiff.timeNew hour minute second nano)
  let instant ← orRefuse (jiff.timestamp ⟨date, h, m, s, n⟩)
  orRefuse (fromWideShiftedJiff instant (← orRefuse (i512 (year - proxy))))

end Wide

end Smartfire.Db.Time
