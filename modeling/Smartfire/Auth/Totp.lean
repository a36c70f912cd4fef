/-
  File:      Smartfire/Auth/Totp.lean
  Subject:   One-time codes (crates/rails_compat/src/totp.rs `verify_code`, `decode_base32`,
             `code_for_step`).

  A code belongs to a step of 30 seconds. A check tries the steps of the window from the oldest to
  the newest, leaves out those up to the last accepted one, and answers the newest that matches.

  * `codeForStep`, `verifyCode` -- the code of a step, and the check;
  * `verifyCode_spec` -- a matched step is past the last accepted one, within one of the current
    one, and the code is the step's.

  HMAC-SHA1 and the upper case of a character are parameters; times are seconds.
-/
import Mathlib.Algebra.Order.Ring.Int
import Smartfire.Lib.Bytes

namespace Smartfire.Totp

open Lib

/-! ## 1. Codes -/

abbrev stepSeconds : Int := 30

inductive InvalidTotp where
  | secret
  | time
deriving DecidableEq, Repr

/-- `ruby_code_whitespace` -/
def rubyCodeWhitespace (c : Char) : Bool :=
  c = ' ' || c = '\t' || c = '\n' || c = '\r' || c = '\x0b' || c = '\x0c'

def base32 : List Char := "ABCDEFGHIJKLMNOPQRSTUVWXYZ234567".toList

/-- What is left to decode after some symbols: `buffer` holds `bits` bits not yet put out. -/
def decodeSymbols : List Char → UInt32 → UInt32 → Except InvalidTotp Bytes
  | [], _, _ => .ok []
  | c :: cs, buffer, bits =>
    match base32.idxOf? c with
    | none => .error .secret
    | some value =>
      let buffer := (buffer <<< 5) ||| UInt32.ofNat value
      let bits := bits + 5
      if 8 ≤ bits then
        (decodeSymbols cs buffer (bits - 8)).map ((buffer >>> (bits - 8)).toUInt8 :: ·)
      else decodeSymbols cs buffer bits

def decodeBase32 (toUppercase : Char → List Char) (secret : List Char) : Except InvalidTotp Bytes :=
  decodeSymbols ((secret.filter (· ≠ '=')).flatMap toUppercase) 0 0

/-- `u64::to_be_bytes` -/
def beBytes (counter : Nat) : Bytes := (List.range 8).reverse.map fun i => UInt8.ofNat (counter / 256 ^ i)

/-- The four bytes a digest's last half byte points to, without their top bit. -/
def truncated (digest : Fin 20 → UInt8) : Nat :=
  let offset : Fin 16 := ⟨(digest 19).toNat % 16, Nat.mod_lt _ (by decide)⟩
  let byte (i : Fin 4) : Nat := (digest ⟨offset + i, by omega⟩).toNat
  (((byte 0 * 256 + byte 1) * 256 + byte 2) * 256 + byte 3) % 2 ^ 31

/-- `format!("{:06}", …)` -/
def sixDigits (n : Nat) : List Char :=
  List.replicate (6 - (Nat.toDigits 10 n).length) '0' ++ Nat.toDigits 10 n

/-- `HOTP(key, counter)` -/
def hotp (hmacSha1 : Bytes → Bytes → Fin 20 → UInt8) (key : Bytes) (counter : Nat) : List Char :=
  sixDigits (truncated (hmacSha1 key (beBytes counter)) % 1000000)

/-- A counter is a `u64`: there is no step before the epoch. -/
def codeForStep (hmacSha1 : Bytes → Bytes → Fin 20 → UInt8) (key : Bytes) (step : Int) :
    Except InvalidTotp (List Char) :=
  if step < 0 then .error .time else .ok (hotp hmacSha1 key step.toNat)

/-! ## 2. The check -/

/-- `i64` arithmetic that fails outside its range. -/
def checked (n : Int) : Option Int := if -2 ^ 63 ≤ n ∧ n < 2 ^ 63 then some n else none

def checkedTime (n : Int) : Except InvalidTotp Int :=
  match checked n with
  | some n => .ok n
  | none => .error .time

section Check

variable (hmacSha1 : Bytes → Bytes → Fin 20 → UInt8) (key : Bytes) (code : List Char) (after : Option Int)

/-- The step is in or before that of the last accepted code. -/
def isSpent (step : Int) : Bool := after.any fun after => step ≤ after / stepSeconds

/-- The loop over the steps left to try; `matched` is the start of the newest that matched. -/
def matchSteps : List Int → Option Int → Except InvalidTotp (Option Int)
  | [], matched => .ok matched
  | step :: steps, matched =>
    if isSpent after step then matchSteps steps matched
    else do
      let generated ← codeForStep hmacSha1 key step
      if code = generated then
        let at' ← checkedTime (step * stepSeconds)
        matchSteps steps (some at')
      else matchSteps steps matched

/-- `start..=end` -/
def stepsBetween (start stop : Int) : List Int := (List.range (stop + 1 - start).toNat).map fun i : Nat => start + i

end Check

def withoutWhitespace (code : List Char) : List Char := code.filter fun c => !rubyCodeWhitespace c

/-- `verify_code`: the start of the newest step the code matches. -/
def verifyCode (hmacSha1 : Bytes → Bytes → Fin 20 → UInt8) (toUppercase : Char → List Char)
    (secret code : List Char) (unixSeconds : Int) (after : Option Int) :
    Except InvalidTotp (Option Int) :=
  let code := withoutWhitespace code
  if code.isEmpty then .ok none
  else do
    let key ← decodeBase32 toUppercase secret
    let start ← checkedTime (unixSeconds - stepSeconds)
    let stop ← checkedTime (unixSeconds + stepSeconds)
    matchSteps hmacSha1 key code after (stepsBetween (start / stepSeconds) (stop / stepSeconds)) none

/-! ## 3. What is matched -/

variable {hmacSha1 : Bytes → Bytes → Fin 20 → UInt8} {toUppercase : Char → List Char} {key : Bytes}
  {secret code : List Char} {after matched : Option Int} {steps : List Int} {unixSeconds at' : Int}

theorem checkedTime_eq {n m : Int} (h : checkedTime n = .ok m) : m = n := by
  unfold checkedTime checked at h
  split at h
  next n' hn =>
    split at hn
    next => cases hn; cases h; rfl
    next => cases hn
  next => cases h

theorem codeForStep_eq {step : Int} (h : codeForStep hmacSha1 key step = .ok code) :
    0 ≤ step ∧ code = hotp hmacSha1 key step.toNat := by
  unfold codeForStep at h
  split at h
  next => cases h
  next hn => cases h; exact ⟨by omega, rfl⟩

/-- What a check's answer says: it is the start of a step the code matches. -/
structure Matches (hmacSha1 : Bytes → Bytes → Fin 20 → UInt8) (key : Bytes) (code : List Char)
    (after : Option Int) (step : Int) : Prop where
  natural : 0 ≤ step
  unspent : isSpent after step = false
  code : code = hotp hmacSha1 key step.toNat

theorem matchSteps_spec (h : matchSteps hmacSha1 key code after steps matched = .ok (some at')) :
    matched = some at' ∨ ∃ step ∈ steps, at' = step * stepSeconds ∧ Matches hmacSha1 key code after step := by
  induction steps generalizing matched with
  | nil => cases h; exact .inl rfl
  | cons step steps ih =>
    have later {matched : Option Int} (h : matchSteps hmacSha1 key code after steps matched = .ok (some at')) :
        matched = some at' ∨
          ∃ s ∈ step :: steps, at' = s * stepSeconds ∧ Matches hmacSha1 key code after s := by
      rcases ih h with h | ⟨s, hs, hm⟩
      · exact .inl h
      · exact .inr ⟨s, List.mem_cons_of_mem step hs, hm⟩
    rw [matchSteps] at h
    split at h
    next => exact later h
    next hspent =>
      cases hgen : codeForStep hmacSha1 key step with
      | error e => rw [hgen] at h; cases h
      | ok generated =>
        obtain ⟨hnat, hcode⟩ := codeForStep_eq hgen
        rw [hgen] at h
        by_cases heq : code = generated
        · cases htime : checkedTime (step * stepSeconds) with
          | error e => simp [heq, htime, bind, Except.bind] at h
          | ok t =>
            cases checkedTime_eq htime
            simp only [bind, Except.bind, if_pos heq, htime] at h
            rcases later h with h | h
            · cases h
              exact .inr ⟨step, List.mem_cons_self, rfl, hnat, eq_false_of_ne_true hspent, heq.trans hcode⟩
            · exact .inr h
        · simp only [bind, Except.bind, if_neg heq] at h
          exact later h

theorem mem_stepsBetween {start stop step : Int} (h : step ∈ stepsBetween start stop) :
    start ≤ step ∧ step ≤ stop := by
  obtain ⟨i, hi, rfl⟩ := List.mem_map.mp h
  have := List.mem_range.mp hi
  omega

/-- **A matched step is past the last accepted one and within one of the current one, and the code
    is the step's.** -/
theorem verifyCode_spec (h : verifyCode hmacSha1 toUppercase secret code unixSeconds after = .ok (some at')) :
    ∃ key step, decodeBase32 toUppercase secret = .ok key ∧ at' = step * stepSeconds ∧
      Matches hmacSha1 key (withoutWhitespace code) after step ∧
      unixSeconds / stepSeconds - 1 ≤ step ∧ step ≤ unixSeconds / stepSeconds + 1 := by
  unfold verifyCode at h
  dsimp only at h
  split at h
  next => cases h
  next =>
    cases hkey : decodeBase32 toUppercase secret with
    | error e => rw [hkey] at h; cases h
    | ok key =>
      rw [hkey] at h
      cases hstart : checkedTime (unixSeconds - stepSeconds) with
      | error e => rw [hstart] at h; cases h
      | ok start =>
        cases hstop : checkedTime (unixSeconds + stepSeconds) with
        | error e => rw [hstart, hstop] at h; cases h
        | ok stop =>
          rw [hstart, hstop] at h
          cases checkedTime_eq hstart
          cases checkedTime_eq hstop
          rcases matchSteps_spec h with h | ⟨step, hmem, hat, hm⟩
          · cases h
          · have hwithin := mem_stepsBetween hmem
            unfold stepSeconds at hwithin ⊢
            exact ⟨key, step, rfl, hat, hm, by omega, by omega⟩

end Smartfire.Totp
