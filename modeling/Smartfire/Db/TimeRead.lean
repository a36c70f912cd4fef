/-
  File:      Smartfire/Db/TimeRead.lean
  Subject:   The database's text of an instant is read back, and all that is read denotes its instant.

  * `calm_parseDb` -- nothing panics;
  * `parseDb_dbText` -- the text is read back, or is of the instants given up;
  * `Denotes`, `denotes_of_parseDb` -- what is read denotes the instant;
  * `timestamps_roundTrip` -- the three, and the order of the texts.
-/
import Smartfire.Db.TimeText

namespace Smartfire.Db.Time

open Lib Lib.Decimal Lib.Gregorian

variable {jiff : Jiff} {t : Int}

/-! ## 1. Reading never panics -/

section Reading

variable {α β : Type}

theorem bind_eq_ok {x : Except Stop α} {f : α → Except Stop β} {r : β} :
    (x >>= f) = .ok r ↔ ∃ a, x = .ok a ∧ f a = .ok r := by
  cases x with
  | error e => simp [bind, Except.bind]
  | ok a => simp [bind, Except.bind]

theorem orRefuse_eq_ok {x : Option α} {a : α} : orRefuse x = .ok a ↔ x = some a := by
  cases x <;> simp [orRefuse]

theorem orPanic_eq_ok {x : Option α} {a : α} : orPanic x = .ok a ↔ x = some a := by
  cases x <;> simp [orPanic]

theorem refuseIf_eq_ok {c : Prop} [Decidable c] {u : Unit} : refuseIf c = .ok u ↔ ¬ c := by
  unfold refuseIf
  split <;> simp_all

/-- It ends with a result or a `None`. -/
def Calm (x : Except Stop α) : Prop := x ≠ .error .panicked

theorem Calm.bind {x : Except Stop α} {f : α → Except Stop β} (hx : Calm x) (hf : ∀ a, x = .ok a → Calm (f a)) :
    Calm (x >>= f) := by
  cases x with
  | error e => exact fun h => hx (by simpa [Bind.bind, Except.bind] using h)
  | ok a => exact hf a rfl

theorem calm_ok (a : α) : Calm (.ok a) := fun h => nomatch h

theorem calm_orRefuse (x : Option α) : Calm (orRefuse x) := by
  cases x with
  | none => exact fun h => nomatch h
  | some a => exact calm_ok a

theorem calm_refuseIf (c : Prop) [Decidable c] : Calm (refuseIf c) := by
  unfold refuseIf
  split
  · exact fun h => nomatch h
  · exact calm_ok ()

theorem calm_orPanic {x : Option α} (h : x ≠ none) : Calm (orPanic x) := by
  cases x with
  | none => exact absurd rfl h
  | some a => exact calm_ok a

theorem slice_length {s part : Bytes} {start stop : Nat} (h : Lib.slice s start stop = some part) :
    part = (s.take stop).drop start ∧ start ≤ stop ∧ stop ≤ s.length := by
  unfold Lib.slice at h
  split at h
  · next hs => exact ⟨(Option.some.inj h).symm, hs.1, hs.2.1⟩
  · cases h

theorem calm_parseWhole (remainder : Bytes) : Calm (parseWhole remainder) := by
  refine (calm_refuseIf _).bind fun _ _ => (calm_orRefuse _).bind fun whole hwhole => ?_
  obtain ⟨rfl, -, hlen⟩ := slice_length (orRefuse_eq_ok.mp hwhole)
  have hget : ∀ i < 14, ((remainder.take 14).drop 0)[i]? ≠ none := by
    intro i hi
    rw [Ne, List.getElem?_eq_none_iff]
    simp only [List.drop_zero, List.length_take]
    omega
  refine (calm_orPanic (hget 2 (by decide))).bind fun _ _ => (calm_orPanic (hget 5 (by decide))).bind fun _ _ =>
    (calm_orPanic (hget 8 (by decide))).bind fun _ _ => (calm_orPanic (hget 11 (by decide))).bind fun _ _ =>
    (calm_refuseIf _).bind fun _ _ => calm_ok _

theorem calm_proxyYear (year : Int) : Calm (proxyYear year) := by
  unfold proxyYear
  split
  · exact calm_ok year
  · refine (calm_orRefuse _).bind fun r hr => calm_orPanic ?_
    have hr := orRefuse_eq_ok.mp hr
    unfold i16 at hr ⊢
    split at hr
    · obtain rfl := Option.some.inj hr
      rw [if_pos (by omega)]
      exact Option.some_ne_none _
    · cases hr

/-- What a fraction of a second says, in microseconds and cut there. -/
inductive Fraction : Bytes → Nat → Prop
  | none : Fraction [] 0
  | digits {d : Bytes} (hne : d ≠ []) (hd : d.all Decimal.isDigit = true) :
      Fraction (byte '.' :: d) (value d * 1000000 / 10 ^ d.length)

/-- The first six digits, with zeros behind where there are fewer. -/
theorem value_take_six {d : Bytes} (hd : d.all Decimal.isDigit = true) :
    value (d.take 6 ++ List.replicate (6 - (d.take 6).length) (byte '0')) = value d * 1000000 / 10 ^ d.length := by
  rw [value_append, value_zeros, List.length_replicate, Nat.add_zero]
  have hten : (1000000 : Nat) = 10 ^ 6 := rfl
  rcases Nat.le_total d.length 6 with hlen | hlen
  · rw [List.take_of_length_le hlen, hten, ← Nat.pow_sub_mul_pow 10 hlen, ← Nat.mul_assoc,
      Nat.mul_div_cancel _ (Nat.pow_pos (by decide))]
  · have hsix : (d.take 6).length = 6 := by rw [List.length_take]; omega
    have hsplit := value_append (d.take 6) (d.drop 6)
    rw [List.take_append_drop, List.length_drop] at hsplit
    have hlt : value (d.drop 6) < 10 ^ (d.length - 6) := by
      have hrest := value_lt fun b hb => List.all_eq_true.mp hd b ((List.drop_sublist 6 d).subset hb)
      rwa [List.length_drop] at hrest
    rw [hsix, Nat.sub_self, Nat.pow_zero, Nat.mul_one, hten, ← Nat.pow_sub_mul_pow 10 hlen,
      Nat.mul_div_mul_right _ _ (by decide), hsplit, Nat.mul_comm (value (d.take 6)),
      Nat.mul_add_div (Nat.pow_pos (by decide)), Nat.div_eq_of_lt hlt, Nat.add_zero]

theorem fractionMicros_spec {fraction : Bytes} {us : Int} (h : fractionMicros fraction = some us) :
    ∃ n : Nat, us = n ∧ Fraction fraction n := by
  cases fraction with
  | nil => exact ⟨0, (Option.some.inj h).symm, .none⟩
  | cons dot d =>
    rw [fractionMicros] at h
    split at h
    · next hc =>
      obtain ⟨rfl, hne, hd⟩ := hc
      have hsix : readNat (d.take 6 ++ List.replicate (6 - (d.take 6).length) (byte '0')) =
          some (value d * 1000000 / 10 ^ d.length) := by
        rw [readNat, if_pos, value_take_six hd]
        constructor
        · cases d with
          | nil => exact absurd rfl hne
          | cons b d => simp
        · rw [List.all_append, Bool.and_eq_true]
          refine ⟨List.all_eq_true.mpr fun b hb => List.all_eq_true.mp hd b ((List.take_sublist 6 d).subset hb), ?_⟩
          exact List.all_eq_true.mpr fun b hb => by
            rw [List.eq_of_mem_replicate hb]
            decide
      have hread := (parseInt_eq_some h).1
      rw [readInt_of_readNat hsix] at hread
      exact ⟨_, (Option.some.inj hread).symm, .digits hne hd⟩
    · cases h

theorem Fraction.lt {fraction : Bytes} {n : Nat} (h : Fraction fraction n) : n < 1000000 := by
  cases h with
  | none => decide
  | @digits d hne hd =>
    have hlt := value_lt fun b hb => List.all_eq_true.mp hd b hb
    rw [Nat.div_lt_iff_lt_mul (Nat.pow_pos (by decide)), Nat.mul_comm]
    exact Nat.mul_lt_mul_of_pos_left hlt (by decide)

/-- A fraction is less than a second. -/
theorem fractionMicros_bounds {fraction : Bytes} {us : Int} (h : fractionMicros fraction = some us) :
    0 ≤ us ∧ us < 1000000 := by
  obtain ⟨n, rfl, hn⟩ := fractionMicros_spec h
  have hlt := hn.lt
  omega

/-- **Reading never panics**, whatever the text. -/
theorem calm_parseDb (jiff : Jiff) (s : Bytes) : Calm (parseDb jiff s) := by
  have hnum : ∀ whole start, Calm (num whole start) := fun whole start =>
    (calm_orRefuse _).bind fun _ _ => calm_orRefuse _
  have hyear : Calm (parseYear jiff (withoutZone s)) := (calm_orRefuse _).bind fun _ _ =>
    (calm_orRefuse _).bind fun _ _ => (calm_orRefuse _).bind fun _ _ => (calm_orRefuse _).bind fun _ _ =>
    (calm_orRefuse _).bind fun _ _ => calm_ok _
  refine hyear.bind fun (year, remainder) _ => (calm_parseWhole remainder).bind fun whole _ =>
    (calm_proxyYear year).bind fun proxy _ => (hnum whole 0).bind fun month _ => (hnum whole 3).bind fun day _ =>
    (calm_orRefuse _).bind fun date _ => (calm_orRefuse _).bind fun fraction _ =>
    (calm_orRefuse _).bind fun micros hmicros => (hnum whole 6).bind fun hour _ => (hnum whole 9).bind fun minute _ =>
    (hnum whole 12).bind fun second _ => (calm_orPanic ?_).bind fun nano _ => (calm_orRefuse _).bind fun _ _ =>
    (calm_orRefuse _).bind fun _ _ => (calm_orRefuse _).bind fun _ _ => calm_orRefuse _
  have hbounds := fractionMicros_bounds (orRefuse_eq_ok.mp hmicros)
  rw [i32, if_pos (by omega)]
  exact Option.some_ne_none _

end Reading

/-! ## 2. A year in front -/

section Year

/-- A byte of a number. -/
def Plain (b : UInt8) : Prop := Decimal.isDigit b = true ∨ b = byte '-'

instance (b : UInt8) : Decidable (Plain b) := inferInstanceAs (Decidable (_ ∨ _))

theorem plain_whitespace {b : UInt8} (h : Plain b) {w : Bytes} (hw : w ∈ whitespace) :
    w.head? ≠ some b ∧ w.getLast? ≠ some b ∧ w ≠ [] := by
  have hall : ∀ n : Fin 256, Plain (UInt8.ofNat n) → ∀ w ∈ whitespace,
      w.head? ≠ some (UInt8.ofNat n) ∧ w.getLast? ≠ some (UInt8.ofNat n) ∧ w ≠ [] := by decide +kernel
  have hb := hall ⟨b.toNat, b.toNat_lt⟩
  simp only [UInt8.ofNat_toNat] at hb
  exact hb h w hw

/-- A text that starts and ends with a number has nothing to trim, and names no zone. -/
theorem withoutZone_of_ends {s : Bytes} {first last : UInt8} (hfirst : s.head? = some first)
    (hlast : s.getLast? = some last) (h₁ : Plain first) (h₂ : Plain last) : withoutZone s = s := by
  have hfront : whitespace.find? (·.isPrefixOf s) = none := by
    rw [List.find?_eq_none]
    intro w hw hmatch
    obtain ⟨hhead, -, hne⟩ := plain_whitespace h₁ hw
    obtain ⟨rest, rfl⟩ := List.isPrefixOf_iff_prefix.mp hmatch
    rw [List.head?_append_of_ne_nil _ hne] at hfirst
    exact hhead hfirst
  have hback : whitespace.find? (·.isSuffixOf s) = none := by
    rw [List.find?_eq_none]
    intro w hw hmatch
    obtain ⟨-, hend, hne⟩ := plain_whitespace h₂ hw
    obtain ⟨rest, rfl⟩ := List.isSuffixOf_iff_suffix.mp hmatch
    rw [List.getLast?_append_of_ne_nil _ hne] at hlast
    exact hend hlast
  have hstart : ∀ n, trimStart n s = s := by
    intro n
    cases n with
    | zero => rfl
    | succ n => rw [trimStart, hfront]
  have hend : ∀ n, trimEnd n s = s := by
    intro n
    cases n with
    | zero => rfl
    | succ n => rw [trimEnd, hback]
  have htrim : trim s = s := by rw [trim, hstart, hend]
  have hzone : ∀ suffix : Bytes, suffix ≠ [] → suffix.getLast? ≠ some last → stripSuffix s suffix = none := by
    intro suffix hne hno
    unfold stripSuffix
    split
    · next hmatch =>
      obtain ⟨rest, rfl⟩ := List.isSuffixOf_iff_suffix.mp hmatch
      rw [List.getLast?_append_of_ne_nil _ hne] at hlast
      exact absurd hlast hno
    · rfl
  have hutc : ∀ n : Fin 256, Plain (UInt8.ofNat n) →
      (text " UTC").getLast? ≠ some (UInt8.ofNat n) ∧ (text "Z").getLast? ≠ some (UInt8.ofNat n) := by decide +kernel
  have hnames := hutc ⟨last.toNat, last.toNat_lt⟩
  simp only [UInt8.ofNat_toNat] at hnames
  rw [withoutZone, htrim, hzone _ (by decide) (hnames h₂).1, hzone _ (by decide) (hnames h₂).2]
  rfl

/-- The first minus behind digits. -/
theorem findIdx?_minus {digits : Bytes} (h : ∀ b ∈ digits, Decimal.isDigit b = true) (rest : Bytes) :
    (digits ++ byte '-' :: rest).findIdx? (· = byte '-') = some digits.length := by
  induction digits with
  | nil => rw [List.nil_append, List.findIdx?_cons, decide_eq_true rfl, if_pos rfl, List.length_nil]
  | cons b digits ih =>
    have hb : b ≠ byte '-' := by
      rintro rfl
      exact absurd (h _ List.mem_cons_self) (by decide)
    rw [List.cons_append, List.findIdx?_cons, ih fun c hc => h c (List.mem_cons_of_mem b hc)]
    simp [hb]

theorem ascii_of_isDigit {b : UInt8} (h : Decimal.isDigit b = true) : b < 0x80 := by
  have hb := isDigit_iff.mp h
  rw [UInt8.lt_iff_toNat_lt]
  exact Nat.lt_of_le_of_lt hb.2 (by decide)

/-- A sign and digits are cut at the minus behind them. -/
theorem parseYear_append (jiff : Jiff) {sign digits rest : Bytes} (hsign : sign = [] ∨ sign = text "-")
    (hne : digits ≠ []) (hdigits : ∀ b ∈ digits, Decimal.isDigit b = true) (hrest : ∀ b ∈ rest, b < 0x80) :
    parseYear jiff (sign ++ (digits ++ byte '-' :: rest)) =
      (do return (← orRefuse (jiff.parseI512 (sign ++ digits)), rest)) := by
  have hminus : ∀ b ∈ sign, b < 0x80 := by
    rcases hsign with rfl | rfl
    · exact fun b hb => nomatch hb
    · exact forall_mem_of_all (by decide)
  have hascii : ∀ b ∈ sign ++ (digits ++ byte '-' :: rest), b < 0x80 := by
    intro b hb
    simp only [List.mem_append, List.mem_cons] at hb
    rcases hb with hb | hb | rfl | hb
    · exact hminus b hb
    · exact ascii_of_isDigit (hdigits b hb)
    · decide
    · exact hrest b hb
  have hsigned : (if (sign ++ (digits ++ byte '-' :: rest)).head? = some (byte '-') then 1 else 0) = sign.length := by
    rcases hsign with rfl | rfl
    · cases digits with
      | nil => exact absurd rfl hne
      | cons b digits =>
        have hb : b ≠ byte '-' := by
          rintro rfl
          exact absurd (hdigits _ List.mem_cons_self) (by decide)
        simp [hb]
    · rfl
  have hlen : (sign ++ (digits ++ byte '-' :: rest)).length = sign.length + (digits.length + (rest.length + 1)) := by
    simp
  have hyear : (sign ++ (digits ++ byte '-' :: rest)).take (digits.length + sign.length) = sign ++ digits := by
    rw [← List.append_assoc, Nat.add_comm, ← List.length_append, List.take_left]
  have hbehind : (sign ++ (digits ++ byte '-' :: rest)).drop (digits.length + sign.length + 1) = rest := by
    rw [Nat.add_comm digits.length, Nat.add_assoc, List.drop_length_add_append, List.drop_length_add_append]
    rfl
  simp only [parseYear, hsigned, slice_ascii hascii (show sign.length ≤ _ by omega) le_rfl, List.take_length,
    List.drop_left, orRefuse, findIdx?_minus hdigits, bind, Except.bind,
    slice_ascii hascii (Nat.zero_le _) (show digits.length + sign.length ≤ _ by omega), hyear, List.drop_zero,
    slice_ascii hascii (show digits.length + sign.length + 1 ≤ _ by omega) le_rfl, hbehind]

/-- A year is read up to the minus behind it, whatever text of ASCII follows. -/
theorem parseYear_yearText (hd : Documented jiff) {year : Int} (hyear : -2 ^ 511 ≤ year ∧ year ≤ i512Max) {rest : Bytes}
    (hrest : ∀ b ∈ rest, b < 0x80) : parseYear jiff (yearText year ++ byte '-' :: rest) = .ok (year, rest) := by
  have hdigits : ∀ n, ∀ b ∈ padded 4 n, Decimal.isDigit b = true := fun n b hb => isDigit_padded hb
  unfold yearText
  split
  · next hneg =>
    have hread : readInt (text "-" ++ padded 4 year.natAbs) = some year := by
      have hminus : text "-" ++ padded 4 year.natAbs = byte '-' :: padded 4 year.natAbs := rfl
      have hneg : -(year.natAbs : Int) = year := by omega
      rw [hminus, readInt, if_pos rfl, readNat_padded]
      exact congrArg some hneg
    rw [List.append_assoc, parseYear_append jiff (.inr rfl) (padded_ne_nil 4 _) (hdigits _) hrest, hd.parseI512,
      parseInt_of_bounds hread hyear.1 hyear.2]
    rfl
  · next hpos =>
    have hread : readInt (padded 4 year.toNat) = some year := by
      rw [readInt_of_readNat (readNat_padded 4 year.toNat)]
      congr 1
      omega
    have happend := parseYear_append jiff (.inl rfl) (padded_ne_nil 4 year.toNat) (hdigits _) hrest
    rw [List.nil_append, List.nil_append, hd.parseI512, parseInt_of_bounds hread hyear.1 hyear.2] at happend
    exact happend

end Year

/-! ## 3. From the years of the proxies back -/

section Proxy

theorem proxyYear_spec (year : Int) :
    ∃ proxy k, proxyYear year = .ok proxy ∧ year = proxy + 400 * k ∧ -9998 ≤ proxy ∧ proxy ≤ 9998 := by
  unfold proxyYear
  split
  · next h => exact ⟨year, 0, rfl, by omega, h⟩
  · refine ⟨2000 + year % 400, year / 400 - 5, ?_, by omega, by omega, by omega⟩
    have h₁ : i16 (year % 400) = some (year % 400) := if_pos (by omega)
    have h₂ : i16 (2000 + year % 400) = some (2000 + year % 400) := if_pos (by omega)
    simp [h₁, h₂, orRefuse, orPanic, bind, Except.bind]

/-- **So many cycles from an instant of jiff's**: the instants of the widest magnitude are given up. -/
theorem fromWideShiftedJiff_eq {n k : Int} (hn : minNanos ≤ n ∧ n ≤ maxNanos) :
    fromWideShiftedJiff n (400 * k) = if (k * cycleMicros + n / 1000).natAbs ≤ wideLimit.natAbs then
      some (k * cycleMicros + n / 1000) else none := by
  have hlimit : wideLimit = 2 ^ 511 - 1 - 2 ^ 100 := rfl
  have hmax : i512Max = 2 ^ 511 - 1 := rfl
  unfold minNanos maxNanos at hn
  rw [fromWideShiftedJiff, Int.mul_tmod_right, if_neg (by decide), Int.mul_tdiv_cancel_left _ (by decide), microsOf]
  generalize k * cycleMicros = shift
  by_cases hfits : -2 ^ 511 ≤ shift ∧ shift ≤ i512Max
  · rw [i512_of_bounds hfits.1 hfits.2]
    by_cases hsum : -2 ^ 511 ≤ shift + n / 1000 ∧ shift + n / 1000 ≤ i512Max
    · simp [i512_of_bounds hsum.1 hsum.2]
    · simp only [i512, if_neg hsum, Option.bind_eq_bind, Option.bind_some, Option.bind_none]
      rw [if_neg (by omega)]
  · simp only [i512, if_neg hfits, Option.bind_eq_bind, Option.bind_none]
    rw [if_neg (by omega)]

theorem nanos_bounds {c : Civil} (h : c.Valid) (hyear : -9998 ≤ c.date.year ∧ c.date.year ≤ 9998) :
    minNanos ≤ c.nanos ∧ c.nanos ≤ maxNanos := by
  have hnumber := number_bounds_year h.date
  have hsplit := nanos_split h
  have hlo := daysBeforeYear_bounds c.date.year
  have hhi := daysBeforeYear_bounds (c.date.year + 1)
  unfold minNanos maxNanos
  unfold epochDay at hsplit
  omega

/-- A civil time of whole microseconds, from its proxy. -/
theorem shifted_micros {c : Civil} {k t : Int} (h : (shifted c k).nanos = t * 1000) :
    k * cycleMicros + c.nanos / 1000 = t := by
  rw [shifted_nanos] at h
  unfold cycleNanos at h
  unfold cycleMicros
  omega

end Proxy

/-! ## 4. The database's text is read back -/

section RoundTrip

theorem ascii_padded {width n : Nat} : ∀ b ∈ padded width n, b < 0x80 := fun _ hb =>
  ascii_of_isDigit (isDigit_padded hb)

/-- A number of two digits, byte by byte. -/
theorem padded_two {n : Nat} (h : n < 100) :
    ∃ b₁ b₂, padded 2 n = [b₁, b₂] ∧ (Decimal.isDigit b₁ = true ∧ Decimal.isDigit b₂ = true) ∧
      parseInt (-128) 127 [b₁, b₂] = some (n : Int) := by
  have hlen : (padded 2 n).length = 2 := length_padded (by decide) h
  obtain ⟨b₁, b₂, hb⟩ := List.length_eq_two.mp hlen
  have hdigit : ∀ b ∈ [b₁, b₂], Decimal.isDigit b = true := fun b hmem => isDigit_padded (hb ▸ hmem)
  refine ⟨b₁, b₂, hb, ⟨hdigit b₁ (by simp), hdigit b₂ (by simp)⟩, ?_⟩
  rw [← hb]
  exact parseInt_of_bounds (readInt_of_readNat (readNat_padded 2 n)) (by omega) (by omega)

theorem fractionMicros_fractionText {us : Nat} (h : us < 1000000) :
    fractionMicros (fractionText us) = some (us : Int) := by
  unfold fractionText
  split
  · next hz => rw [hz]; rfl
  · have hlen : (padded 6 us).length = 6 := length_padded (by decide) h
    have hall : (padded 6 us).all Decimal.isDigit = true := List.all_eq_true.mpr fun b hb => isDigit_padded hb
    have hdot : text "." ++ padded 6 us = byte '.' :: padded 6 us := rfl
    rw [hdot, fractionMicros, if_pos ⟨rfl, padded_ne_nil 6 us, hall⟩, List.take_of_length_le (by omega), hlen,
      Nat.sub_self, List.replicate_zero, List.append_nil]
    exact parseInt_of_bounds (readInt_of_readNat (readNat_padded 6 us)) (by omega) (by omega)

/-- Fourteen bytes with their separators, and what comes behind them. -/
theorem parseWhole_append {m₁ m₂ d₁ d₂ h₁ h₂ n₁ n₂ s₁ s₂ separator : UInt8} {fraction : Bytes}
    (hseparator : separator = byte ' ' ∨ separator = byte 'T')
    (hascii : ∀ b ∈ m₁ :: m₂ :: byte '-' :: d₁ :: d₂ :: separator :: h₁ :: h₂ :: byte ':' :: n₁ :: n₂ :: byte ':' ::
      s₁ :: s₂ :: fraction, b < 0x80) :
    parseWhole (m₁ :: m₂ :: byte '-' :: d₁ :: d₂ :: separator :: h₁ :: h₂ :: byte ':' :: n₁ :: n₂ :: byte ':' :: s₁ ::
      s₂ :: fraction) = .ok [m₁, m₂, byte '-', d₁, d₂, separator, h₁, h₂, byte ':', n₁, n₂, byte ':', s₁, s₂] := by
  have hslice := slice_ascii hascii (Nat.zero_le 14) (by simp)
  simp only [List.take_succ_cons, List.take_zero, List.drop_zero] at hslice
  rw [parseWhole, refuseIf, if_neg (by simp), hslice]
  have hrefuse : ¬ (byte '-' ≠ byte '-' ∨ ¬ (separator = byte ' ' ∨ separator = byte 'T') ∨ byte ':' ≠ byte ':' ∨
      byte ':' ≠ byte ':') := by
    simp [hseparator]
  simp only [orRefuse, orPanic, bind, Except.bind, List.getElem?_cons_succ, List.getElem?_cons_zero, refuseIf,
    if_neg hrefuse, pure, Except.pure]

/-- Two bytes of ASCII are a number as they stand. -/
theorem num_eq {whole : Bytes} (start : Nat) {b₁ b₂ : UInt8} {n : Int} (hascii : ∀ b ∈ whole, b < 0x80)
    (hlen : start + 2 ≤ whole.length) (hbytes : (whole.take (start + 2)).drop start = [b₁, b₂])
    (hn : parseInt (-128) 127 [b₁, b₂] = some n) : num whole start = .ok n := by
  rw [num, slice_ascii hascii (by omega) hlen, hbytes, orRefuse, bind, Monad.toBind, Except.instMonad]
  simp only [Except.bind, hn, orRefuse]

/-- **A text of a year, of fourteen bytes and of a fraction gives the instant of its civil time**, unless that is of
the instants given up. -/
theorem parseDb_of (hd : Documented jiff) {c : Civil} (hc : c.Valid) (hn : c.nanos = t * 1000) {s fraction : Bytes}
    {m₁ m₂ d₁ d₂ h₁ h₂ n₁ n₂ s₁ s₂ separator : UInt8} {us : Int}
    (hseparator : separator = byte ' ' ∨ separator = byte 'T')
    (hyear : parseYear jiff (withoutZone s) = .ok (c.date.year, m₁ :: m₂ :: byte '-' :: d₁ :: d₂ :: separator :: h₁ ::
      h₂ :: byte ':' :: n₁ :: n₂ :: byte ':' :: s₁ :: s₂ :: fraction))
    (hascii : ∀ b ∈ m₁ :: m₂ :: byte '-' :: d₁ :: d₂ :: separator :: h₁ :: h₂ :: byte ':' :: n₁ :: n₂ :: byte ':' ::
      s₁ :: s₂ :: fraction, b < 0x80)
    (hmonth : parseInt (-128) 127 [m₁, m₂] = some (c.date.month : Int))
    (hday : parseInt (-128) 127 [d₁, d₂] = some (c.date.day : Int))
    (hhour : parseInt (-128) 127 [h₁, h₂] = some (c.hour : Int))
    (hminute : parseInt (-128) 127 [n₁, n₂] = some (c.minute : Int))
    (hsecond : parseInt (-128) 127 [s₁, s₂] = some (c.second : Int))
    (hus : fractionMicros fraction = some us) (hnano : (c.nano : Int) = us * 1000)
    (hrange : -2 ^ 511 + 10000 ≤ c.date.year ∧ c.date.year ≤ i512Max - 10000) :
    parseDb jiff s = if t.natAbs ≤ wideLimit.natAbs then .ok t else .error .refused := by
  have hwhole := parseWhole_append hseparator hascii
  have hwholeAscii : ∀ b ∈ [m₁, m₂, byte '-', d₁, d₂, separator, h₁, h₂, byte ':', n₁, n₂, byte ':', s₁, s₂],
      b < 0x80 := fun b hb => hascii b (List.mem_append_left fraction hb)
  have hfraction := slice_ascii hascii (show 14 ≤ _ by simp) le_rfl
  rw [List.take_length] at hfraction
  simp only [List.drop_succ_cons, List.drop_zero] at hfraction
  obtain ⟨proxy, k, hproxy, hshift, hlo, hhi⟩ := proxyYear_spec c.date.year
  -- The civil time at the year of the proxy.
  have hback : c = shifted { c with date := { c.date with year := proxy } } k := by
    simp only [shifted, ← hshift]
  have hvalid : (Civil.mk ⟨proxy, c.date.month, c.date.day⟩ c.hour c.minute c.second c.nano).Valid := by
    have hdate : (Date.mk (proxy + 400 * k) c.date.month c.date.day).Valid := by
      rw [← hshift]
      exact hc.date
    exact ⟨valid_cycle.mp hdate, hc.hour, hc.minute, hc.second, hc.nano⟩
  have hplace := nanos_bounds hvalid ⟨hlo, hhi⟩
  have hmicros := shifted_micros (hback ▸ hn)
  have hdate : jiff.dateNew proxy c.date.month c.date.day = some ⟨proxy, c.date.month, c.date.day⟩ := by
    rw [hd.dateNew, if_pos ⟨by omega, by omega, by omega, hvalid.date⟩]
    rfl
  have htime : jiff.timeNew c.hour c.minute c.second (us * 1000) = some (c.hour, c.minute, c.second, c.nano) := by
    have h₁ := hc.hour
    have h₂ := hc.minute
    have h₃ := hc.second
    have h₄ := hc.nano
    rw [← hnano, hd.timeNew, if_pos (by omega)]
    rfl
  have hinstant := hd.timestamp _ hvalid
  rw [if_pos hplace] at hinstant
  have hnanoFits : i32 (us * 1000) = some (us * 1000) := by
    have h₄ := hc.nano
    exact if_pos (by omega)
  have hyears : i512 (c.date.year - proxy) = some (400 * k) := by
    rw [i512_of_bounds (by omega) (by omega)]
    exact congrArg some (by omega)
  have hend := fromWideShiftedJiff_eq (k := k) hplace
  rw [hmicros] at hend
  simp only [parseDb, hyear, bind, Except.bind, hwhole, hproxy, num_eq 0 hwholeAscii (by simp) rfl hmonth,
    num_eq 3 hwholeAscii (by simp) rfl hday, num_eq 6 hwholeAscii (by simp) rfl hhour,
    num_eq 9 hwholeAscii (by simp) rfl hminute, num_eq 12 hwholeAscii (by simp) rfl hsecond, hdate,
    orRefuse, hfraction, hus, orPanic, hnanoFits, htime, hinstant, hyears]
  by_cases hwide : t.natAbs ≤ wideLimit.natAbs
  · rw [hend, if_pos hwide, if_pos hwide]
  · rw [hend, if_neg hwide, if_neg hwide]

/-- A year starts with its sign or a digit. -/
theorem yearText_cons (year : Int) : ∃ first rest, yearText year = first :: rest ∧ Plain first := by
  unfold yearText
  split
  · exact ⟨byte '-', padded 4 year.natAbs, rfl, .inr rfl⟩
  · obtain ⟨first, rest, hpadded⟩ := List.exists_cons_of_ne_nil (padded_ne_nil 4 year.toNat)
    exact ⟨first, rest, hpadded, .inl (isDigit_padded (hpadded ▸ List.mem_cons_self))⟩

/-- A text ends with a digit where it ends with a number. -/
theorem getLast?_padded (s : Bytes) (width n : Nat) :
    ∃ last, (s ++ padded width n).getLast? = some last ∧ Plain last := by
  rw [List.getLast?_append_of_ne_nil _ (padded_ne_nil width n)]
  refine ⟨_, List.getLast?_eq_some_getLast (padded_ne_nil width n), .inl (isDigit_padded (List.getLast_mem _))⟩

theorem dbText_last (t : Int) : ∃ last, (dbText t).getLast? = some last ∧ Plain last := by
  unfold dbText fractionText
  split
  · rw [List.append_nil, monthToSecond, ← List.append_assoc]
    exact getLast?_padded _ 2 (civil t).second
  · rw [← List.append_assoc]
    exact getLast?_padded _ 6 (t % 1000000).toNat

theorem ascii_dbText (t : Int) : ∀ b ∈ dbText t, b < 0x80 := by
  have htext : ∀ s ∈ [text "-", text " ", text ":", text "."], ∀ b ∈ s, b < 0x80 :=
    forall_mem_of_all (P := fun s => ∀ b ∈ s, b < 0x80) (by decide +kernel)
  have hyear : ∀ b ∈ yearText (civil t).date.year, b < 0x80 := by
    unfold yearText
    split
    · exact List.forall_mem_append.mpr ⟨htext _ (by simp), ascii_padded⟩
    · exact ascii_padded
  have hfraction : ∀ b ∈ fractionText (t % 1000000).toNat, b < 0x80 := by
    unfold fractionText
    split
    · exact fun b hb => nomatch hb
    · exact List.forall_mem_append.mpr ⟨htext _ (by simp), ascii_padded⟩
  have hmonth : ∀ b ∈ monthToSecond (civil t), b < 0x80 := by
    have hdash := htext (text "-") (by simp)
    have hspace := htext (text " ") (by simp)
    have hcolon := htext (text ":") (by simp)
    simp only [monthToSecond, List.forall_mem_append]
    exact ⟨⟨⟨⟨⟨⟨⟨⟨⟨hdash, ascii_padded⟩, hdash⟩, ascii_padded⟩, hspace⟩, ascii_padded⟩, hcolon⟩, ascii_padded⟩, hcolon⟩,
      ascii_padded⟩
  exact List.forall_mem_append.mpr ⟨List.forall_mem_append.mpr ⟨hyear, hmonth⟩, hfraction⟩

/-- The years of the instants that have a text. -/
theorem year_limits (ht : t.natAbs ≤ 2 ^ 511 - 2 ^ 70) :
    -2 ^ 511 + 10000 ≤ (civil t).date.year ∧ (civil t).date.year ≤ i512Max - 10000 := by
  obtain ⟨hc, hn⟩ := civil_spec t
  have hmax : i512Max = 2 ^ 511 - 1 := rfl
  have hnumber := number_bounds_year hc.date
  have hsplit := nanos_split hc
  have hlo := daysBeforeYear_bounds (civil t).date.year
  have hhi := daysBeforeYear_bounds ((civil t).date.year + 1)
  unfold epochDay at hsplit
  omega

/-- **The database's text is read back**, or is of the instants given up. -/
theorem parseDb_dbText (hd : Documented jiff) (ht : t.natAbs ≤ 2 ^ 511 - 2 ^ 70) :
    parseDb jiff (dbText t) = if t.natAbs ≤ wideLimit.natAbs then .ok t else .error .refused := by
  obtain ⟨hc, hn⟩ := civil_spec t
  have hday := (daysInMonth_bounds (civil t).date.year hc.date.month_pos hc.date.month_le).2
  have hmonth := hc.date.month_le
  have hlast := hc.date.day_le
  have hminute := hc.minute
  have hsecond := hc.second
  have hhour := hc.hour
  have hus : (t % 1000000).toNat < 1000000 := by omega
  obtain ⟨m₁, m₂, hm, ⟨-, -⟩, hmonthRead⟩ := padded_two (show (civil t).date.month < 100 by omega)
  obtain ⟨d₁, d₂, hdd, ⟨-, -⟩, hdayRead⟩ := padded_two (show (civil t).date.day < 100 by omega)
  obtain ⟨h₁, h₂, hh, ⟨-, -⟩, hhourRead⟩ := padded_two (show (civil t).hour < 100 by omega)
  obtain ⟨n₁, n₂, hnn, ⟨-, -⟩, hminuteRead⟩ := padded_two (show (civil t).minute < 100 by omega)
  obtain ⟨s₁, s₂, hs, ⟨-, hs₂⟩, hsecondRead⟩ := padded_two (show (civil t).second < 100 by omega)
  have hrest : monthToSecond (civil t) ++ fractionText (t % 1000000).toNat = byte '-' :: m₁ :: m₂ :: byte '-' ::
      d₁ :: d₂ :: byte ' ' :: h₁ :: h₂ :: byte ':' :: n₁ :: n₂ :: byte ':' :: s₁ :: s₂ ::
      fractionText (t % 1000000).toNat := by
    rw [monthToSecond, hm, hdd, hh, hnn, hs]
    rfl
  have hwhole : dbText t = yearText (civil t).date.year ++ byte '-' :: m₁ :: m₂ :: byte '-' :: d₁ :: d₂ :: byte ' ' ::
      h₁ :: h₂ :: byte ':' :: n₁ :: n₂ :: byte ':' :: s₁ :: s₂ :: fractionText (t % 1000000).toNat := by
    rw [dbText, List.append_assoc, hrest]
  obtain ⟨first, rest, hfirst, hplain⟩ := yearText_cons (civil t).date.year
  obtain ⟨last, hend, hplain'⟩ := dbText_last t
  have hhead : (dbText t).head? = some first := by
    rw [hwhole, hfirst]
    rfl
  have hascii : ∀ b ∈ m₁ :: m₂ :: byte '-' :: d₁ :: d₂ :: byte ' ' :: h₁ :: h₂ :: byte ':' :: n₁ :: n₂ :: byte ':' ::
      s₁ :: s₂ :: fractionText (t % 1000000).toNat, b < 0x80 := by
    have hall := ascii_dbText t
    rw [hwhole] at hall
    exact fun b hb => hall b (List.mem_append_right _ (List.mem_cons_of_mem _ hb))
  have hyears := year_limits ht
  have hyearFits : -2 ^ 511 ≤ (civil t).date.year ∧ (civil t).date.year ≤ i512Max := by omega
  have hyear := parseYear_yearText hd hyearFits hascii
  rw [← hwhole, ← withoutZone_of_ends hhead hend hplain hplain'] at hyear
  refine parseDb_of hd hc hn (.inl rfl) hyear hascii hmonthRead hdayRead hhourRead hminuteRead hsecondRead
    (fractionMicros_fractionText hus) ?_ hyears
  rw [civil_nano]
  rfl

/-- The instants of the years 0 to 9999 have a text. -/
theorem natAbs_of_years (h : 0 ≤ (civil t).date.year ∧ (civil t).date.year ≤ 9999) : t.natAbs ≤ 2 ^ 511 - 2 ^ 70 := by
  obtain ⟨hc, hn⟩ := civil_spec t
  have hnumber := number_bounds_year hc.date
  have hsplit := nanos_split hc
  have hlo := daysBeforeYear_bounds (civil t).date.year
  have hhi := daysBeforeYear_bounds ((civil t).date.year + 1)
  unfold epochDay at hsplit
  omega

end RoundTrip

/-! ## 5. What is read denotes its instant -/

/-- The parts of a text of an instant. -/
structure Parts where
  year : Bytes
  month : Bytes
  day : Bytes
  separator : UInt8
  hour : Bytes
  minute : Bytes
  second : Bytes
  fraction : Bytes

def Parts.bytes (p : Parts) : Bytes :=
  p.year ++ byte '-' :: (p.month ++ byte '-' :: (p.day ++ p.separator :: (p.hour ++ byte ':' :: (p.minute ++ byte ':' ::
    (p.second ++ p.fraction)))))

/-- The parts are the numbers of a civil time, of two bytes each behind the year. -/
structure Parts.Are (p : Parts) (c : Civil) : Prop where
  year : readInt p.year = some c.date.year
  month : readInt p.month = some (c.date.month : Int) ∧ p.month.length = 2
  day : readInt p.day = some (c.date.day : Int) ∧ p.day.length = 2
  separator : p.separator = byte ' ' ∨ p.separator = byte 'T'
  hour : readInt p.hour = some (c.hour : Int) ∧ p.hour.length = 2
  minute : readInt p.minute = some (c.minute : Int) ∧ p.minute.length = 2
  second : readInt p.second = some (c.second : Int) ∧ p.second.length = 2
  fraction : ∃ us, Fraction p.fraction us ∧ c.nano = us * 1000

/-- A text is white space, the parts of the instant's civil time, the zone's name or none, and white space. -/
def Denotes (s : Bytes) (t : Int) : Prop :=
  ∃ (p : Parts) (c : Civil) (front back : List Bytes) (zone : Bytes),
    s = front.flatten ++ (p.bytes ++ zone) ++ back.flatten ∧ (∀ w ∈ front ++ back, w ∈ whitespace) ∧
      (zone = [] ∨ zone = text " UTC" ∨ zone = text "Z") ∧ p.Are c ∧ c.Valid ∧ c.nanos = t * 1000

section Denoting

theorem trimStart_spec (n : Nat) (s : Bytes) :
    ∃ front : List Bytes, s = front.flatten ++ trimStart n s ∧ ∀ w ∈ front, w ∈ whitespace := by
  induction n generalizing s with
  | zero => exact ⟨[], rfl, fun _ hw => nomatch hw⟩
  | succ n ih =>
    unfold trimStart
    split
    · next w hw =>
      have hmatch := List.find?_some hw
      obtain ⟨rest, hrest⟩ := List.isPrefixOf_iff_prefix.mp hmatch
      obtain ⟨front, hfront, hall⟩ := ih (s.drop w.length)
      refine ⟨w :: front, ?_, List.forall_mem_cons.mpr ⟨List.mem_of_find?_eq_some hw, hall⟩⟩
      rw [List.flatten_cons, List.append_assoc, ← hfront, ← hrest, List.drop_left]
    · exact ⟨[], rfl, fun _ hw => nomatch hw⟩

theorem trimEnd_spec (n : Nat) (s : Bytes) :
    ∃ back : List Bytes, s = trimEnd n s ++ back.flatten ∧ ∀ w ∈ back, w ∈ whitespace := by
  induction n generalizing s with
  | zero => exact ⟨[], by simp [trimEnd], fun _ hw => nomatch hw⟩
  | succ n ih =>
    unfold trimEnd
    split
    · next w hw =>
      have hmatch := List.find?_some hw
      obtain ⟨rest, hrest⟩ := List.isSuffixOf_iff_suffix.mp hmatch
      obtain ⟨back, hback, hall⟩ := ih (s.take (s.length - w.length))
      refine ⟨back ++ [w], ?_, List.forall_mem_append.mpr ⟨hall, ?_⟩⟩
      · have htake : s.take (s.length - w.length) = rest := by
          rw [← hrest, List.length_append, Nat.add_sub_cancel, List.take_left]
        rw [List.flatten_append, ← List.append_assoc, ← hback, htake, List.flatten_singleton, hrest]
      · exact fun x hx => by
          rw [List.mem_singleton.mp hx]
          exact List.mem_of_find?_eq_some hw
    · exact ⟨[], by simp, fun _ hw => nomatch hw⟩

theorem trim_spec (s : Bytes) :
    ∃ front back : List Bytes, (∀ w ∈ front ++ back, w ∈ whitespace) ∧ s = front.flatten ++ trim s ++ back.flatten := by
  obtain ⟨front, hfront, hfrontAll⟩ := trimStart_spec s.length s
  obtain ⟨back, hback, hbackAll⟩ := trimEnd_spec s.length (trimStart s.length s)
  refine ⟨front, back, List.forall_mem_append.mpr ⟨hfrontAll, hbackAll⟩, ?_⟩
  rw [trim, List.append_assoc, ← hback, ← hfront]

theorem stripSuffix_eq_some {s suffix rest : Bytes} (h : stripSuffix s suffix = some rest) : s = rest ++ suffix := by
  unfold stripSuffix at h
  split at h
  · next hs =>
    obtain ⟨front, hfront⟩ := List.isSuffixOf_iff_suffix.mp hs
    obtain rfl := Option.some.inj h
    rw [← hfront, List.length_append, Nat.add_sub_cancel, List.take_left]
  · cases h

theorem withoutZone_spec (s : Bytes) :
    ∃ zone, trim s = withoutZone s ++ zone ∧ (zone = [] ∨ zone = text " UTC" ∨ zone = text "Z") := by
  unfold withoutZone
  cases hutc : stripSuffix (trim s) (text " UTC") with
  | some rest => exact ⟨text " UTC", stripSuffix_eq_some hutc, .inr (.inl rfl)⟩
  | none =>
    cases hz : stripSuffix (trim s) (text "Z") with
    | some rest => exact ⟨text "Z", stripSuffix_eq_some hz, .inr (.inr rfl)⟩
    | none => exact ⟨[], by simp, .inl rfl⟩

theorem parseYear_spec {s remainder : Bytes} {year : Int} (h : parseYear jiff s = .ok (year, remainder)) :
    ∃ yearText, s = yearText ++ byte '-' :: remainder ∧ jiff.parseI512 yearText = some year := by
  unfold parseYear at h
  simp only [bind_eq_ok, orRefuse_eq_ok, pure, Except.pure, Except.ok.injEq, Prod.mk.injEq] at h
  generalize (if s.head? = some (byte '-') then 1 else 0) = signed at h
  obtain ⟨behindSign, hbehind, i, hi, front, hfront, _, hread, rest, hrest, rfl, rfl⟩ := h
  obtain ⟨rfl, -, -⟩ := slice_length hbehind
  obtain ⟨rfl, -, hend⟩ := slice_length hfront
  obtain ⟨rfl, hrange, -⟩ := slice_length hrest
  obtain ⟨hlt, hminus, -⟩ := List.findIdx?_eq_some_iff_getElem.mp hi
  have hbyte : s[i + signed] = byte '-' := by
    simpa [Nat.add_comm] using hminus
  refine ⟨s.take (i + signed), ?_, hread⟩
  rw [← hbyte, List.take_length, List.getElem_cons_drop, List.take_append_drop]

/-- Fourteen bytes with their separators stand in front. -/
theorem parseWhole_spec {remainder whole : Bytes} (h : parseWhole remainder = .ok whole) :
    ∃ m₁ m₂ d₁ d₂ separator h₁ h₂ n₁ n₂ s₁ s₂ fraction, (separator = byte ' ' ∨ separator = byte 'T') ∧
      whole = [m₁, m₂, byte '-', d₁, d₂, separator, h₁, h₂, byte ':', n₁, n₂, byte ':', s₁, s₂] ∧
      remainder = whole ++ fraction := by
  unfold parseWhole at h
  simp only [bind_eq_ok, orRefuse_eq_ok, orPanic_eq_ok, refuseIf_eq_ok, pure, Except.pure, Except.ok.injEq] at h
  obtain ⟨-, -, whole', hslice, b₂, hb₂, b₅, hb₅, b₈, hb₈, b₁₁, hb₁₁, -, hseparators, rfl⟩ := h
  obtain ⟨hwhole, -, hlen⟩ := slice_length hslice
  rw [List.drop_zero] at hwhole
  have hsplit : remainder = whole' ++ remainder.drop 14 := by rw [hwhole, List.take_append_drop]
  have hlen' : whole'.length = 14 := by rw [hwhole, List.length_take]; omega
  clear hwhole hslice
  -- Its fourteen bytes by name.
  rcases whole' with _ | ⟨m₁, _ | ⟨m₂, _ | ⟨x₂, _ | ⟨d₁, _ | ⟨d₂, _ | ⟨separator, _ | ⟨h₁, _ | ⟨h₂, _ | ⟨x₈, _ |
    ⟨n₁, _ | ⟨n₂, _ | ⟨x₁₁, _ | ⟨s₁, _ | ⟨s₂, rest⟩⟩⟩⟩⟩⟩⟩⟩⟩⟩⟩⟩⟩⟩
  all_goals try (simp only [List.length_cons, List.length_nil] at hlen'; omega)
  obtain rfl : rest = [] := List.eq_nil_of_length_eq_zero (by simpa using hlen')
  simp only [List.getElem?_cons_succ, List.getElem?_cons_zero, Option.some.injEq] at hb₂ hb₅ hb₈ hb₁₁
  subst hb₂ hb₅ hb₈ hb₁₁
  simp only [not_or, not_not] at hseparators
  obtain ⟨rfl, hseparator, rfl, rfl⟩ := hseparators
  exact ⟨m₁, m₂, d₁, d₂, separator, h₁, h₂, n₁, n₂, s₁, s₂, remainder.drop 14,
    or_iff_not_and_not.mpr hseparator, rfl, hsplit⟩

theorem num_spec {whole : Bytes} {start : Nat} {n : Int} (h : num whole start = .ok n) :
    readInt ((whole.take (start + 2)).drop start) = some n := by
  unfold num at h
  simp only [bind_eq_ok, orRefuse_eq_ok] at h
  obtain ⟨part, hpart, hn⟩ := h
  obtain ⟨rfl, -, -⟩ := slice_length hpart
  exact (parseInt_eq_some hn).1

theorem i512_eq_some {x y : Int} (h : i512 x = some y) : y = x := by
  unfold i512 at h
  split at h
  · exact (Option.some.inj h).symm
  · cases h

theorem i32_eq_some {x y : Int} (h : i32 x = some y) : y = x := by
  unfold i32 at h
  split at h
  · exact (Option.some.inj h).symm
  · cases h

/-- **What is read denotes the instant it is read as.** -/
theorem denotes_of_parseDb (hd : Documented jiff) {s : Bytes} (h : parseDb jiff s = .ok t) :
    Denotes s t ∧ t.natAbs ≤ wideLimit.natAbs := by
  unfold parseDb at h
  simp only [bind_eq_ok, orRefuse_eq_ok, orPanic_eq_ok] at h
  obtain ⟨⟨year, remainder⟩, hyear, whole, hwhole, proxy, hproxy, month, hmonth, day, hday, date, hdate, fraction,
    hfraction, micros, hmicros, hour, hhour, minute, hminute, second, hsecond, nano, hnano, ⟨hr, mi, se, na⟩, htime,
    instant, hinstant, years, hyears, hresult⟩ := h
  obtain ⟨yearText, htext, hread⟩ := parseYear_spec hyear
  obtain ⟨m₁, m₂, d₁, d₂, separator, h₁, h₂, n₁, n₂, s₁, s₂, tail, hseparator, rfl, rfl⟩ := parseWhole_spec hwhole
  obtain ⟨htail, -, -⟩ := slice_length hfraction
  rw [List.take_length] at htail
  obtain rfl : fraction = tail := htail
  obtain ⟨us, rfl, hus⟩ := fractionMicros_spec hmicros
  obtain rfl := i32_eq_some hnano
  obtain rfl := i512_eq_some hyears
  obtain ⟨proxy', k, hproxy', hshift, hlo, hhi⟩ := proxyYear_spec year
  obtain rfl : proxy = proxy' := Except.ok.inj (hproxy.symm.trans hproxy')
  rw [hd.parseI512] at hread
  rw [hd.dateNew] at hdate
  rw [hd.timeNew] at htime
  split at hdate
  case isFalse => cases hdate
  next hdateBounds =>
  split at htime
  case isFalse => cases htime
  next htimeBounds =>
  obtain rfl := Option.some.inj hdate
  simp only [Option.some.injEq, Prod.mk.injEq] at htime
  obtain ⟨rfl, rfl, rfl, rfl⟩ := htime
  -- The civil time that was built, at the year of its proxy and at its own.
  have hvalid : (Civil.mk ⟨proxy, month.toNat, day.toNat⟩ hour.toNat minute.toNat second.toNat
      ((us : Int) * 1000).toNat).Valid :=
    ⟨hdateBounds.2.2.2, (by omega : hour.toNat < 24), (by omega : minute.toNat < 60), (by omega : second.toNat < 60),
      (by omega : ((us : Int) * 1000).toNat < 1000000000)⟩
  have hplace := nanos_bounds hvalid ⟨hlo, hhi⟩
  rw [hd.timestamp _ hvalid, if_pos hplace] at hinstant
  obtain rfl := Option.some.inj hinstant
  have hyearsEq : year - proxy = 400 * k := by omega
  rw [hyearsEq, fromWideShiftedJiff_eq hplace] at hresult
  split at hresult
  case isFalse => cases hresult
  next hwide =>
  have ht := Option.some.inj hresult
  rw [ht] at hwide
  have hbytes : withoutZone s =
      (Parts.mk yearText [m₁, m₂] [d₁, d₂] separator [h₁, h₂] [n₁, n₂] [s₁, s₂] fraction).bytes := htext
  obtain ⟨front, back, hspace, htrim⟩ := trim_spec s
  obtain ⟨zone, hzone, hname⟩ := withoutZone_spec s
  rw [hzone, hbytes] at htrim
  refine ⟨?_, hwide⟩
  refine ⟨_, shifted _ k, front, back, zone, htrim, hspace, hname, ?_, shifted_valid hvalid k, ?_⟩
  · have hnat : ∀ {part : Bytes} {x : Int}, 0 ≤ x → readInt part = some x → readInt part = some (x.toNat : Int) :=
      fun hx h => h.trans (congrArg some (Int.toNat_of_nonneg hx).symm)
    exact ⟨(parseInt_eq_some hread).1.trans (congrArg some hshift), ⟨hnat hdateBounds.2.1 (num_spec hmonth), rfl⟩,
      ⟨hnat hdateBounds.2.2.1 (num_spec hday), rfl⟩, hseparator, ⟨hnat htimeBounds.1.1 (num_spec hhour), rfl⟩,
      ⟨hnat htimeBounds.2.1.1 (num_spec hminute), rfl⟩, ⟨hnat htimeBounds.2.2.1.1 (num_spec hsecond), rfl⟩,
      us, hus, Int.toNat_natCast (us * 1000)⟩
  · have hmicros : (Civil.mk ⟨proxy, month.toNat, day.toNat⟩ hour.toNat minute.toNat second.toNat
        ((us : Int) * 1000).toNat).nanos % 1000 = 0 := by
      simp only [Civil.nanos, Civil.dayNanos]
      omega
    rw [shifted_nanos]
    unfold cycleNanos
    unfold cycleMicros at ht
    omega

end Denoting

/-! ## 6. Timestamps -/

/-- The calendar's own civil times and instants, within jiff's bounds. -/
def gregorian : Jiff where
  fromMicrosecond us := if minNanos ≤ us * 1000 ∧ us * 1000 ≤ maxNanos then some (us * 1000) else none
  utc := ofNanos
  dateNew year month day :=
    if (-9999 ≤ year ∧ year ≤ 9999) ∧ 0 ≤ month ∧ 0 ≤ day ∧ (Date.mk year month.toNat day.toNat).Valid then
      some ⟨year, month.toNat, day.toNat⟩ else none
  timeNew hour minute second nano :=
    if (0 ≤ hour ∧ hour < 24) ∧ (0 ≤ minute ∧ minute < 60) ∧ (0 ≤ second ∧ second < 60) ∧ 0 ≤ nano ∧ nano < 1000000000
      then some (hour.toNat, minute.toNat, second.toNat, nano.toNat) else none
  timestamp c := if minNanos ≤ c.nanos ∧ c.nanos ≤ maxNanos then some c.nanos else none
  parseI512 := parseInt (-2 ^ 511) i512Max

theorem documented_gregorian : Documented gregorian where
  fromMicrosecond _ := rfl
  utc n _ _ := ofNanos_spec n
  dateNew _ _ _ := rfl
  timeNew _ _ _ _ := rfl
  timestamp _ _ := rfl
  parseI512 _ := rfl

/-- **Timestamps are read back, their texts are ordered as they are, reading never panics, and what is read denotes the
instant.** -/
theorem timestamps_roundTrip (hd : Documented jiff) :
    (∀ t : Int, t.natAbs ≤ wideLimit.natAbs → ∃ s, toDb jiff t = .ok s ∧ parseDb jiff s = .ok t) ∧
      (∀ t t' : Int, 0 ≤ (civil t).date.year ∧ (civil t).date.year ≤ 9999 →
        0 ≤ (civil t').date.year ∧ (civil t').date.year ≤ 9999 →
        ∃ s s', toDb jiff t = .ok s ∧ toDb jiff t' = .ok s' ∧ (s < s' ↔ t < t')) ∧
      (∀ s, parseDb jiff s ≠ .error .panicked) ∧
      ∀ s t, parseDb jiff s = .ok t → Denotes s t ∧ t.natAbs ≤ wideLimit.natAbs := by
  have hlimit : wideLimit = 2 ^ 511 - 1 - 2 ^ 100 := rfl
  refine ⟨fun t ht => ?_, fun t t' h h' => ?_, calm_parseDb jiff, fun s t => denotes_of_parseDb hd⟩
  · have hfits : t.natAbs ≤ 2 ^ 511 - 2 ^ 70 := by omega
    exact ⟨dbText t, toDb_eq hd hfits, by rw [parseDb_dbText hd hfits, if_pos ht]⟩
  · exact ⟨dbText t, dbText t', toDb_eq hd (natAbs_of_years h), toDb_eq hd (natAbs_of_years h'), dbText_lt h h'⟩

theorem timestamps_roundTrip_sample :
    ∃ s, toDb gregorian 253402300800000000 = .ok s ∧ parseDb gregorian s = .ok 253402300800000000 :=
  (timestamps_roundTrip documented_gregorian).1 253402300800000000 (by unfold wideLimit i512Max; omega)

/-- A microsecond after the last instant that is read there is an instant, and a text of it, that is given up. -/
theorem since_wideLimit_refused : since wideLimit 1000 = some (wideLimit + 1) ∧
    ∃ s, toDb gregorian (wideLimit + 1) = .ok s ∧ parseDb gregorian s = .error .refused := by
  have hlimit : wideLimit = 2 ^ 511 - 1 - 2 ^ 100 := rfl
  have hmax : i512Max = 2 ^ 511 - 1 := rfl
  have hfits : (wideLimit + 1).natAbs ≤ 2 ^ 511 - 2 ^ 70 := by omega
  have hstep : (1000 : Int) / 1000 = 1 := by decide
  refine ⟨?_, dbText (wideLimit + 1), toDb_eq documented_gregorian hfits, ?_⟩
  · rw [since, offsetNanos, hstep, i512_of_bounds (by omega) (by omega)]
  rw [parseDb_dbText documented_gregorian hfits, if_neg (by omega)]

end Smartfire.Db.Time
