/-
  File:      Smartfire/Auth/TwoFactorRuns.lean
  Subject:   No second-factor code is accepted twice.

  What a transaction does is said once (`Moves`, `moves_run`), and the history inherits it: the step
  of the last accepted code only grows, a spent backup code stays spent until its set goes, and
  between successes the lockouts only mount.

  * `OneTime` -- the property, of a history;
  * `oneTime_of_reach` -- it holds of every run whose texts SHA-256 tells apart, as long as a lock
    isn't set by a clock that stepped back behind the lock it replaces;
  * `lock_shortened` -- a run in which the clock does, inside one transaction.
-/
import Mathlib.Algebra.Order.Group.Int
import Mathlib.Algebra.Order.Ring.Int
import Smartfire.Auth.TwoFactor

namespace Smartfire.TwoFactor

open Lib Totp
open TwoFactorBackupCode (normalize digest isSpendable generateCode createAll create)

/-! ## 1. What is claimed -/

section Property

variable (P : Primitives)

/-- An accepted code is that of a step within one of the current one. -/
def Genuine (secret code : List Char) (at' now : Int) : Prop :=
  ∃ key step, decodeBase32 P.toUppercase secret = .ok key ∧ at' = step * stepSeconds ∧ 0 ≤ step ∧
    withoutWhitespace code = hotp P.hmacSha1 key step.toNat ∧
    asSecond now / stepSeconds - 1 ≤ step ∧ step ≤ asSecond now / stepSeconds + 1

/-- The step of an accepted code. -/
def Entry.step? (e : Entry) : Option Int :=
  match e.event with
  | .accepted _ _ at' _ => some (at' / stepSeconds)
  | _ => none

def Entry.succeeded (e : Entry) : Bool := e.event = .succeeded

/-- A lock that ends before the time at which the earlier one was found to have ended. -/
def Entry.steppedBack (e : Entry) : Bool :=
  match e.event with
  | .locked checkedAt => e.credential.lockedUntil.any fun untilAt => untilAt < checkedAt
  | _ => false

/-- A set of codes of the credential is drawn. -/
def Entry.regenerates (credentialId : Nat) (e : Entry) : Bool :=
  match e.event with
  | .regenerated id _ => id = credentialId
  | _ => false

/-- The codes of the newest set, if one was drawn. -/
def lastSet (credentialId : Nat) : List Entry → Option (List (List Char))
  | [] => none
  | e :: past =>
    match e.event with
    | .regenerated id codes => if id = credentialId then some codes else lastSet credentialId past
    | _ => lastSet credentialId past

/-- Nothing becomes something, and nothing becomes smaller. -/
def Grown (a b : Option Int) : Prop := ∀ x, a = some x → ∃ y, b = some y ∧ x ≤ y

/-- **No code is accepted twice.** Spellings of a backup code have one `key`; `ends` says which entries
    end the reach of the locks before them. -/
structure OneTime (key : List Char → List Char) (ends : Entry → Bool) (log : List Entry) : Prop where
  /-- The steps of the accepted codes grow. -/
  steps : (log.filterMap Entry.step?).Pairwise (· > ·)
  genuine : ∀ e ∈ log, ∀ secret code at' now, e.event = .accepted secret code at' now →
    Genuine P secret code at' now
  /-- A backup code is spent once, in any spelling, while its set lasts, and only of its set. -/
  spent : Each (fun e past => ∀ id code, e.event = .consumed id code →
    (∀ f ∈ since (Entry.regenerates id) past, ∀ code', f.event = .consumed id code' →
      key code' ≠ key code) ∧
    ∀ codes, lastSet id past = some codes → ∃ code' ∈ codes, key code' = key code) log
  /-- From a success on to the next the count of lockouts doesn't fall. -/
  lockouts : Each (fun e past => ∀ f ∈ fromReset Entry.succeeded (e :: past),
    f.credential.lockoutCount ≤ e.credential.lockoutCount) log
  /-- A lock isn't shortened, the lock of an entry that ends an earlier one's reach included. -/
  locks : Each (fun e past => ∀ f ∈ fromReset ends (e :: past),
    Grown f.credential.lockedUntil e.credential.lockedUntil) log

/-- What the codes drawn and spent in the history are hashed as. -/
def Event.codes : Event → List (List Char)
  | .regenerated _ codes => codes
  | .consumed _ code => [code]
  | _ => []

def hashed (code : List Char) : Bytes := (normalize P code).flatMap String.utf8EncodeChar

/-- SHA-256 tells the texts of the history apart. -/
def ToldApart (log : List Entry) : Prop :=
  ∀ e ∈ log, ∀ f ∈ log, ∀ x ∈ e.event.codes, ∀ y ∈ f.event.codes,
    P.sha256 (hashed P x) = P.sha256 (hashed P y) → hashed P x = hashed P y

end Property

/-! ## 2. Digests -/

section Digests

variable {P : Primitives} {x y : List Char}

theorem utf8_inj (h : x.flatMap String.utf8EncodeChar = y.flatMap String.utf8EncodeChar) : x = y := by
  have hbytes : x.utf8Encode = y.utf8Encode := by
    rw [List.utf8Encode, List.utf8Encode, h]
  have hstring : String.ofList x = String.ofList y := by
    rw [← String.toByteArray_inj, String.toByteArray_ofList, String.toByteArray_ofList, hbytes]
  rw [← String.toList_ofList (l := x), hstring, String.toList_ofList]

theorem hexDigit_inj : ∀ a b : Fin 16, TwoFactorBackupCode.hexDigit a = TwoFactorBackupCode.hexDigit b → a = b := by
  decide +kernel

theorem hexByte_inj {a b : UInt8}
    (h : [TwoFactorBackupCode.hexDigit (a.toNat / 16), TwoFactorBackupCode.hexDigit (a.toNat % 16)] =
      [TwoFactorBackupCode.hexDigit (b.toNat / 16), TwoFactorBackupCode.hexDigit (b.toNat % 16)]) : a = b := by
  have ha := a.toNat_lt
  have hb := b.toNat_lt
  have hhigh := hexDigit_inj ⟨a.toNat / 16, by omega⟩ ⟨b.toNat / 16, by omega⟩ (List.cons.inj h).1
  have hlow := hexDigit_inj ⟨a.toNat % 16, by omega⟩ ⟨b.toNat % 16, by omega⟩
    (List.cons.inj (List.cons.inj h).2).1
  have hhigh := Fin.mk.inj hhigh
  have hlow := Fin.mk.inj hlow
  exact UInt8.toNat_inj.mp (by omega)

theorem hexEncode_inj {a b : Bytes} (h : TwoFactorBackupCode.hexEncode a = TwoFactorBackupCode.hexEncode b) :
    a = b := by
  induction a generalizing b with
  | nil =>
    cases b with
    | nil => rfl
    | cons y b => simp [TwoFactorBackupCode.hexEncode] at h
  | cons x a ih =>
    cases b with
    | nil => simp [TwoFactorBackupCode.hexEncode] at h
    | cons y b =>
      have hsplit : [TwoFactorBackupCode.hexDigit (x.toNat / 16), TwoFactorBackupCode.hexDigit (x.toNat % 16)] ++
            TwoFactorBackupCode.hexEncode a =
          [TwoFactorBackupCode.hexDigit (y.toNat / 16), TwoFactorBackupCode.hexDigit (y.toNat % 16)] ++
            TwoFactorBackupCode.hexEncode b := h
      obtain ⟨hbyte, hrest⟩ := List.append_inj hsplit rfl
      rw [hexByte_inj hbyte, ih hrest]

theorem digest_congr (h : normalize P x = normalize P y) : digest P x = digest P y := by
  unfold digest
  rw [h]

end Digests

/-! ## 3. What a transaction does -/

theorem Grown.refl (a : Option Int) : Grown a a := fun x hx => ⟨x, hx, le_rfl⟩

theorem Grown.trans {a b c : Option Int} (hab : Grown a b) (hbc : Grown b c) : Grown a c := by
  intro x hx
  obtain ⟨y, hy, hxy⟩ := hab x hx
  obtain ⟨z, hz, hyz⟩ := hbc y hy
  exact ⟨z, hz, hxy.trans hyz⟩

/-- The step of the last accepted code. -/
def TwoFactorCredential.lastStep (credential : TwoFactorCredential) : Option Int :=
  credential.lastTotpAt.map (· / stepSeconds)

/-- What a transaction does to the rows, by its event. -/
structure Moves (P : Primitives) (db : Db) (event : Event) (db' : Db) : Prop where
  step : Grown db.credential.lastStep db'.credential.lastStep
  accepted : ∀ secret code at' now, event = .accepted secret code at' now →
    Genuine P secret code at' now ∧ db'.credential.lastStep = some (at' / stepSeconds) ∧
      ∀ last, db.credential.lastStep = some last → last < at' / stepSeconds
  lockouts : event ≠ .succeeded → db.credential.lockoutCount ≤ db'.credential.lockoutCount
  lock : event ≠ .succeeded → Grown db.credential.lockedUntil db'.credential.lockedUntil ∨
    ∃ checkedAt, event = .locked checkedAt ∧
      (∀ untilAt, db.credential.lockedUntil = some untilAt → untilAt ≤ checkedAt) ∧
      ∃ untilAt, db'.credential.lockedUntil = some untilAt
  /-- Without a new set, each row was there and has not become spendable. -/
  rows : ∀ id, (∀ codes, event ≠ .regenerated id codes) → ∀ row ∈ db'.backupCodes,
    row.twoFactorCredentialId = id → ∃ old ∈ db.backupCodes, old.twoFactorCredentialId = id ∧
      old.codeDigest = row.codeDigest ∧ (row.usedAt = none → old.usedAt = none)
  drawn : ∀ id codes, event = .regenerated id codes → ∀ row ∈ db'.backupCodes,
    row.twoFactorCredentialId = id → ∃ code ∈ codes, digest P code = row.codeDigest
  consumed : ∀ id code, event = .consumed id code →
    (∃ row ∈ db.backupCodes, isSpendable id (digest P code) row = true) ∧
    ∀ row ∈ db'.backupCodes, row.twoFactorCredentialId = id → row.codeDigest = digest P code →
      row.usedAt ≠ none

section Operations

variable {P : Primitives} {db db' : Db} {copy : TwoFactorCredential} {clock : Clock} {code secret : List Char}
  {after : Option Int} {now at' : Int} {event : Event}

theorem find_eq {id : Nat} {row : TwoFactorCredential} (h : db.find id = some row) :
    row = db.credential ∧ id = row.id := by
  unfold Db.find at h
  split at h
  next hid => cases h; exact ⟨rfl, hid.symm⟩
  next => cases h

theorem update_of_find {id : Nat} {f : TwoFactorCredential → TwoFactorCredential} (h : db.credential.id = id) :
    db.update id f = { db with credential := f db.credential } := if_pos h

/-- The rows a transaction leaves alone. -/
theorem rows_same (h : db'.backupCodes = db.backupCodes) (id : Nat) : ∀ row ∈ db'.backupCodes,
    row.twoFactorCredentialId = id → ∃ old ∈ db.backupCodes, old.twoFactorCredentialId = id ∧
      old.codeDigest = row.codeDigest ∧ (row.usedAt = none → old.usedAt = none) := by
  intro row hrow hid
  rw [h] at hrow
  exact ⟨row, hrow, hid, rfl, fun hn => hn⟩

/-- A transaction that leaves the last step, the lockout and the backup codes alone, or succeeds. -/
theorem moves_of_same (hstep : db'.credential.lastTotpAt = db.credential.lastTotpAt)
    (hcount : event ≠ .succeeded → db'.credential.lockoutCount = db.credential.lockoutCount)
    (hlock : event ≠ .succeeded → db'.credential.lockedUntil = db.credential.lockedUntil)
    (hcodes : db'.backupCodes = db.backupCodes)
    (hevent : event = .nothing ∨ event = .failed ∨ event = .succeeded) : Moves P db event db' := by
  refine ⟨?_, ?_, fun hne => (hcount hne).ge, fun hne => .inl (hlock hne ▸ Grown.refl _),
    fun id _ => rows_same hcodes id, ?_, ?_⟩
  · rw [TwoFactorCredential.lastStep, TwoFactorCredential.lastStep, hstep]
    exact Grown.refl _
  all_goals
    rcases hevent with rfl | rfl | rfl <;> exact fun _ _ => nofun

theorem matchedStep_spec (h : matchedStep P secret code now after = some (some at')) :
    Genuine P secret code at' now ∧ ∀ last, after = some last → last / stepSeconds < at' / stepSeconds := by
  unfold matchedStep at h
  split at h
  next at'' hv =>
    cases h
    obtain ⟨key, step, hkey, rfl, hm, hlow, hhigh⟩ := verifyCode_spec hv
    refine ⟨⟨key, step, hkey, rfl, hm.natural, hm.code, hlow, hhigh⟩, ?_⟩
    rintro last rfl
    have hunspent := hm.unspent
    simp only [isSpent, Option.any_some, decide_eq_false_iff_not] at hunspent
    unfold stepSeconds at hunspent ⊢
    omega
  next => cases h
  next => cases h

/-- Both ways a code is accepted come to this. -/
theorem moves_accepted (hm : matchedStep P secret code now db.credential.lastTotpAt = some (some at'))
    (hat : db'.credential.lastTotpAt = some at')
    (hcount : db'.credential.lockoutCount = db.credential.lockoutCount)
    (hlock : db'.credential.lockedUntil = db.credential.lockedUntil)
    (hcodes : db'.backupCodes = db.backupCodes) : Moves P db (.accepted secret code at' now) db' := by
  obtain ⟨hgenuine, hnew⟩ := matchedStep_spec hm
  have hlast : db'.credential.lastStep = some (at' / stepSeconds) := by
    rw [TwoFactorCredential.lastStep, hat, Option.map_some]
  have hpast : ∀ last, db.credential.lastStep = some last → last < at' / stepSeconds := by
    intro last hl
    obtain ⟨t, ht, rfl⟩ := Option.map_eq_some_iff.mp hl
    exact hnew t ht
  refine ⟨fun x hx => ⟨_, hlast, (hpast x hx).le⟩, ?_, fun _ => hcount.ge,
    fun _ => .inl (hlock ▸ Grown.refl _), fun id _ => rows_same hcodes id, fun _ _ => nofun, fun _ _ => nofun⟩
  intro s c t n he
  cases he
  exact ⟨hgenuine, hlast, hpast⟩

theorem moves_verifyCode {out : Outcome Bool} (h : copy.verifyCode P db clock code = some out) :
    Moves P db (if out.answer then acceptedEvent P db.credential.encryptedSecret code (clock 0) out.copy
      else .nothing) out.db := by
  unfold TwoFactorCredential.verifyCode at h
  split at h
  next =>
    cases h
    exact moves_of_same rfl (fun _ => rfl) (fun _ => rfl) rfl (.inl rfl)
  next =>
    obtain ⟨self, hself, h⟩ := Option.bind_eq_some_iff.mp h
    obtain ⟨secret, hsecret, h⟩ := Option.bind_eq_some_iff.mp h
    obtain ⟨matched, hm, h⟩ := Option.bind_eq_some_iff.mp h
    obtain ⟨rfl, -⟩ := find_eq hself
    cases matched with
    | none =>
      cases h
      exact moves_of_same rfl (fun _ => rfl) (fun _ => rfl) rfl (.inl rfl)
    | some at' =>
      obtain ⟨self, hfind, h⟩ := Option.bind_eq_some_iff.mp h
      cases h
      rw [update_of_find rfl] at hfind
      obtain ⟨rfl, -⟩ := find_eq hfind
      rw [if_pos rfl, acceptedEvent, hsecret, update_of_find rfl]
      exact moves_accepted hm rfl rfl rfl rfl

theorem moves_confirmWithSetupSecret {out : Outcome Bool} {setup : TwoFactorSetupSecret}
    (h : copy.confirmWithSetupSecret P db clock setup code = some out) :
    Moves P db (if out.answer then acceptedEvent P setup.encryptedSecret code (clock 0) out.copy
      else .nothing) out.db := by
  unfold TwoFactorCredential.confirmWithSetupSecret at h
  split at h
  next =>
    cases h
    exact moves_of_same rfl (fun _ => rfl) (fun _ => rfl) rfl (.inl rfl)
  next =>
    obtain ⟨self, hself, h⟩ := Option.bind_eq_some_iff.mp h
    obtain ⟨secret, hsecret, h⟩ := Option.bind_eq_some_iff.mp h
    obtain ⟨matched, hm, h⟩ := Option.bind_eq_some_iff.mp h
    obtain ⟨rfl, -⟩ := find_eq hself
    cases matched with
    | none =>
      cases h
      exact moves_of_same rfl (fun _ => rfl) (fun _ => rfl) rfl (.inl rfl)
    | some at' =>
      obtain ⟨self, hfind, h⟩ := Option.bind_eq_some_iff.mp h
      cases h
      rw [update_of_find rfl] at hfind
      obtain ⟨rfl, -⟩ := find_eq hfind
      rw [if_pos rfl, acceptedEvent, hsecret, update_of_find rfl]
      exact moves_accepted hm rfl rfl rfl rfl

theorem moves_registerChallengeSuccess {out : Outcome Unit}
    (h : copy.registerChallengeSuccess db clock = some out) : Moves P db .succeeded out.db := by
  unfold TwoFactorCredential.registerChallengeSuccess at h
  obtain ⟨self, hself, h⟩ := Option.bind_eq_some_iff.mp h
  cases h
  by_cases hid : db.credential.id = copy.id
  · rw [update_of_find hid]
    exact moves_of_same rfl (fun hne => absurd rfl hne) (fun hne => absurd rfl hne) rfl (.inr (.inr rfl))
  · rw [Db.update, if_neg hid]
    exact moves_of_same rfl (fun hne => absurd rfl hne) (fun hne => absurd rfl hne) rfl (.inr (.inr rfl))

theorem moves_registerChallengeFailure {out : Outcome TwoFactorCredential.ChallengeFailure}
    (h : copy.registerChallengeFailure db clock = some out) :
    Moves P db (match out.answer with
      | .failed => .failed
      | .locked => .locked (clock 0)) out.db := by
  unfold TwoFactorCredential.registerChallengeFailure at h
  obtain ⟨self, hself, h⟩ := Option.bind_eq_some_iff.mp h
  obtain ⟨rfl, -⟩ := find_eq hself
  split at h
  next =>
    cases h
    exact moves_of_same rfl (fun _ => rfl) (fun _ => rfl) rfl (.inr (.inl rfl))
  next hlocked =>
    obtain ⟨failures, hfailures, h⟩ := Option.bind_eq_some_iff.mp h
    split at h
    next =>
      obtain ⟨level, hlevel, h⟩ := Option.bind_eq_some_iff.mp h
      obtain ⟨self, hfind, h⟩ := Option.bind_eq_some_iff.mp h
      cases h
      rw [update_of_find rfl]
      have hcount : level = db.credential.lockoutCount + 1 := by
        unfold checked at hlevel
        split at hlevel
        next => cases hlevel; rfl
        next => cases hlevel
      refine ⟨Grown.refl _, fun _ _ _ _ => nofun, fun _ => ?_, fun _ => .inr ⟨clock 0, rfl, ?_, _, rfl⟩,
        fun id _ => rows_same rfl id, fun _ _ => nofun, fun _ _ => nofun⟩
      · dsimp only
        omega
      · intro untilAt hu
        simpa [TwoFactorCredential.lockedOut, hu] using hlocked
    next =>
      obtain ⟨self, hfind, h⟩ := Option.bind_eq_some_iff.mp h
      cases h
      rw [update_of_find rfl]
      exact moves_of_same rfl (fun _ => rfl) (fun _ => rfl) rfl (.inr (.inl rfl))

/-! ### Backup codes -/

theorem create_spec {credentialId : Nat} {codeDigest : List Char}
    (h : create db credentialId codeDigest now = some db') : db'.credential = db.credential ∧
      ∀ row ∈ db'.backupCodes, row ∈ db.backupCodes ∨
        row.twoFactorCredentialId = credentialId ∧ row.codeDigest = codeDigest := by
  unfold create at h
  split at h
  next => cases h
  next =>
    cases h
    refine ⟨rfl, fun row hrow => ?_⟩
    rcases List.mem_append.mp hrow with hrow | hrow
    · exact .inl hrow
    · cases List.mem_singleton.mp hrow
      exact .inr ⟨rfl, rfl⟩

theorem createAll_spec {credentialId : Nat} {codes : List (List Char)}
    (h : createAll P credentialId codes clock db = some db') : db'.credential = db.credential ∧
      ∀ row ∈ db'.backupCodes, row ∈ db.backupCodes ∨
        row.twoFactorCredentialId = credentialId ∧ ∃ code ∈ codes, digest P code = row.codeDigest := by
  induction codes generalizing clock db with
  | nil => cases h; exact ⟨rfl, fun row hrow => .inl hrow⟩
  | cons code codes ih =>
    obtain ⟨db₁, hcreate, h⟩ := Option.bind_eq_some_iff.mp h
    obtain ⟨hcred₁, hrows₁⟩ := create_spec hcreate
    obtain ⟨hcred, hrows⟩ := ih h
    refine ⟨hcred.trans hcred₁, fun row hrow => ?_⟩
    rcases hrows row hrow with hrow | ⟨hid, c, hc, hd⟩
    · rcases hrows₁ row hrow with hrow | ⟨hid, hd⟩
      · exact .inl hrow
      · exact .inr ⟨hid, code, List.mem_cons_self, hd.symm⟩
    · exact .inr ⟨hid, c, List.mem_cons_of_mem code hc, hd⟩

theorem moves_regenerateSet {credentialId : Nat} {drawn codes : List (List Char)}
    (h : TwoFactorBackupCode.regenerateSet P db credentialId drawn clock = some (codes, db')) :
    Moves P db (.regenerated credentialId codes) db' := by
  obtain ⟨db₁, hall, h⟩ := Option.bind_eq_some_iff.mp h
  cases h
  obtain ⟨hcred, hrows⟩ := createAll_spec hall
  refine ⟨?_, fun _ _ _ _ => nofun, fun _ => ?_, fun _ => .inl ?_, ?_, ?_, fun _ _ => nofun⟩
  · rw [hcred]
    exact Grown.refl _
  · rw [hcred]
  · rw [hcred]
    exact Grown.refl _
  · intro id hne row hrow hid
    rcases hrows row hrow with hrow | ⟨hid', -⟩
    · exact ⟨row, (List.mem_filter.mp hrow).1, hid, rfl, fun hn => hn⟩
    · exact absurd (hid'.symm.trans hid ▸ rfl) (hne (drawn.map generateCode))
  · intro id codes he row hrow hid
    cases he
    rcases hrows row hrow with hrow | ⟨-, hd⟩
    · have hother := (List.mem_filter.mp hrow).2
      simp [hid] at hother
    · exact hd

theorem moves_consume {credentialId : Nat} :
    Moves P db (if (TwoFactorBackupCode.consume P db credentialId code clock).1 then
      .consumed credentialId code else .nothing) (TwoFactorBackupCode.consume P db credentialId code clock).2 := by
  unfold TwoFactorBackupCode.consume
  split
  next => exact moves_of_same rfl (fun _ => rfl) (fun _ => rfl) rfl (.inl rfl)
  next =>
    dsimp only
    have hrows (id : Nat) : ∀ row ∈ db.backupCodes.map (fun row =>
          if isSpendable credentialId (digest P code) row then
            { row with usedAt := some (clock 0), updatedAt := clock 1 } else row),
        row.twoFactorCredentialId = id → ∃ old ∈ db.backupCodes, old.twoFactorCredentialId = id ∧
          old.codeDigest = row.codeDigest ∧ (row.usedAt = none → old.usedAt = none) := by
      intro row hrow hid
      obtain ⟨old, hold, rfl⟩ := List.mem_map.mp hrow
      refine ⟨old, hold, ?_⟩
      split at hid
      next hspend => rw [if_pos hspend]; exact ⟨hid, rfl, nofun⟩
      next hspend => rw [if_neg hspend]; exact ⟨hid, rfl, fun hn => hn⟩
    by_cases hone : db.backupCodes.countP (isSpendable credentialId (digest P code)) = 1
    · rw [if_pos (decide_eq_true hone)]
      refine ⟨Grown.refl _, fun _ _ _ _ => nofun, fun _ => le_rfl, fun _ => .inl (Grown.refl _),
        fun id _ => hrows id, fun _ _ => nofun, ?_⟩
      intro id c he
      cases he
      refine ⟨List.countP_pos_iff.mp (by omega), fun row hrow hid hd => ?_⟩
      obtain ⟨old, hold, rfl⟩ := List.mem_map.mp hrow
      split at hid
      next hspend =>
        rw [if_pos hspend]
        exact nofun
      next hspend =>
        rw [if_neg hspend] at hd ⊢
        simpa [isSpendable, hid, hd] using hspend
    · rw [if_neg (by simpa using hone)]
      exact ⟨Grown.refl _, fun _ _ _ _ => nofun, fun _ => le_rfl, fun _ => .inl (Grown.refl _),
        fun id _ => hrows id, fun _ _ => nofun, fun _ _ => nofun⟩

/-- **Every operation moves as its event says.** -/
theorem moves_run {op : Op} (h : op.run P db clock = some (event, db')) : Moves P db event db' := by
  cases op with
  | verifyCode copy code =>
    obtain ⟨out, hout, h⟩ := Option.bind_eq_some_iff.mp h
    cases h
    exact moves_verifyCode hout
  | confirmWithSetupSecret copy setup code =>
    obtain ⟨out, hout, h⟩ := Option.bind_eq_some_iff.mp h
    cases h
    exact moves_confirmWithSetupSecret hout
  | registerChallengeFailure copy =>
    obtain ⟨out, hout, h⟩ := Option.bind_eq_some_iff.mp h
    cases h
    exact moves_registerChallengeFailure hout
  | registerChallengeSuccess copy =>
    obtain ⟨out, hout, h⟩ := Option.bind_eq_some_iff.mp h
    cases h
    exact moves_registerChallengeSuccess hout
  | regenerateSet credentialId drawn =>
    obtain ⟨⟨codes, db₁⟩, hset, h⟩ := Option.bind_eq_some_iff.mp h
    cases h
    exact moves_regenerateSet hset
  | consume credentialId code =>
    cases h
    exact moves_consume

theorem moves_nothing (db : Db) : Moves P db .nothing db :=
  moves_of_same rfl (fun _ => rfl) (fun _ => rfl) rfl (.inl rfl)

end Operations

/-! ## 4. Runs -/

/-- The entries that end the reach of an earlier lock: a success, and a lock set by a clock that stepped back. -/
def Entry.endsLock (e : Entry) : Bool := e.succeeded || e.steppedBack

/-- What the rows know of the history. -/
structure Inv (P : Primitives) (s : Run) : Prop where
  last : ∀ f ∈ s.log, ∀ step, f.step? = some step → ∃ l, s.db.credential.lastStep = some l ∧ step ≤ l
  count : ∀ f ∈ fromReset Entry.succeeded s.log, f.credential.lockoutCount ≤ s.db.credential.lockoutCount
  lock : ∀ f ∈ fromReset Entry.endsLock s.log, Grown f.credential.lockedUntil s.db.credential.lockedUntil
  spent : ∀ id, ∀ f ∈ since (Entry.regenerates id) s.log, ∀ code, f.event = .consumed id code →
    ∀ row ∈ s.db.backupCodes, row.twoFactorCredentialId = id → row.codeDigest = digest P code →
      row.usedAt ≠ none
  drawn : ∀ id codes, lastSet id s.log = some codes → ∀ row ∈ s.db.backupCodes,
    row.twoFactorCredentialId = id → ∃ code ∈ codes, digest P code = row.codeDigest
  once : OneTime P (digest P) Entry.endsLock s.log

section Runs

variable {P : Primitives} {s s' : Run} {db' : Db} {event : Event} {id : Nat} {e : Entry} {log : List Entry}

theorem lastSet_of_ne (h : ∀ codes, e.event ≠ .regenerated id codes) :
    lastSet id (e :: log) = lastSet id log := by
  obtain ⟨event, credential⟩ := e
  cases event with
  | regenerated id' codes => exact if_neg fun heq => h codes (by rw [← heq])
  | _ => rfl

theorem lastSet_of_regenerated {codes : List (List Char)} (h : e.event = .regenerated id codes) :
    lastSet id (e :: log) = some codes := by
  obtain ⟨event, credential⟩ := e
  cases h
  exact if_pos rfl

theorem step?_eq {step : Int} (h : e.step? = some step) :
    ∃ secret code at' now, e.event = .accepted secret code at' now ∧ at' / stepSeconds = step := by
  obtain ⟨event, credential⟩ := e
  cases event with
  | accepted secret code at' now => cases h; exact ⟨_, _, _, _, rfl, rfl⟩
  | _ => cases h

/-- The new entry after its past. -/
theorem oneTime_next (h : Inv P s) (hm : Moves P s.db event db') :
    OneTime P (digest P) Entry.endsLock (⟨event, db'.credential⟩ :: s.log) := by
  refine ⟨?_, ?_, ⟨?_, h.once.spent⟩, ⟨?_, h.once.lockouts⟩, ⟨?_, h.once.locks⟩⟩
  · cases hstep : Entry.step? ⟨event, db'.credential⟩ with
    | none => rw [List.filterMap_cons_none hstep]; exact h.once.steps
    | some step =>
      rw [List.filterMap_cons_some hstep]
      obtain ⟨secret, code, at', now, he, rfl⟩ := step?_eq hstep
      obtain ⟨-, -, hpast⟩ := hm.accepted secret code at' now he
      refine List.pairwise_cons.mpr ⟨fun earlier hmem => ?_, h.once.steps⟩
      obtain ⟨f, hf, hstep'⟩ := List.mem_filterMap.mp hmem
      obtain ⟨l, hl, hle⟩ := h.last f hf earlier hstep'
      exact lt_of_le_of_lt hle (hpast l hl)
  · intro f hf secret code at' now he
    rcases List.mem_cons.mp hf with rfl | hf
    · exact (hm.accepted secret code at' now he).1
    · exact h.once.genuine f hf secret code at' now he
  · intro id code he
    obtain ⟨⟨row, hrow, hspend⟩, -⟩ := hm.consumed id code he
    simp only [isSpendable, Bool.and_eq_true, decide_eq_true_eq, Option.isNone_iff_eq_none] at hspend
    obtain ⟨⟨hid, hd⟩, hused⟩ := hspend
    refine ⟨fun f hf code' he' heq => ?_, fun codes hset => ?_⟩
    · exact h.spent id f hf code' he' row hrow hid (hd.trans heq.symm) hused
    · obtain ⟨code', hc, hd'⟩ := h.drawn id codes hset row hrow hid
      exact ⟨code', hc, hd'.trans hd⟩
  · intro f hf
    cases hs : Entry.succeeded ⟨event, db'.credential⟩ with
    | true =>
      rw [fromReset_cons_of_reset hs] at hf
      cases List.mem_singleton.mp hf
      exact le_rfl
    | false =>
      rw [fromReset_cons hs] at hf
      rcases List.mem_cons.mp hf with rfl | hf
      · exact le_rfl
      · exact (h.count f hf).trans (hm.lockouts (of_decide_eq_false hs))
  · intro f hf
    cases hs : Entry.endsLock ⟨event, db'.credential⟩ with
    | true =>
      rw [fromReset_cons_of_reset hs] at hf
      cases List.mem_singleton.mp hf
      exact Grown.refl _
    | false =>
      rw [fromReset_cons hs] at hf
      rcases List.mem_cons.mp hf with rfl | hmem
      · exact Grown.refl _
      · obtain ⟨hsucc, hback⟩ := Bool.or_eq_false_iff.mp hs
        rcases hm.lock (of_decide_eq_false hsucc) with hgrown | ⟨checkedAt, rfl, hended, untilAt, huntil⟩
        · exact (h.lock f hmem).trans hgrown
        · -- the earlier lock had ended by `checkedAt`, and the new one hasn't
          intro x hx
          obtain ⟨y, hy, hxy⟩ := h.lock f hmem x hx
          have hnot : checkedAt ≤ untilAt := by
            simpa [Entry.steppedBack, huntil] using hback
          exact ⟨untilAt, huntil, hxy.trans ((hended y hy).trans hnot)⟩

theorem Inv.next (h : Inv P s) (hm : Moves P s.db event db') :
    Inv P ⟨db', ⟨event, db'.credential⟩ :: s.log⟩ := by
  have hnext := oneTime_next h hm
  refine ⟨?_, hnext.lockouts.1, hnext.locks.1, ?_, ?_, hnext⟩
  · intro f hf step hstep
    rcases List.mem_cons.mp hf with rfl | hf
    · obtain ⟨secret, code, at', now, he, rfl⟩ := step?_eq hstep
      exact ⟨_, (hm.accepted secret code at' now he).2.1, le_rfl⟩
    · obtain ⟨l, hl, hle⟩ := h.last f hf step hstep
      obtain ⟨l', hl', hle'⟩ := hm.step l hl
      exact ⟨l', hl', hle.trans hle'⟩
  · intro id f hf code he row hrow hid hd
    cases hreset : Entry.regenerates id ⟨event, db'.credential⟩ with
    | true => rw [since_cons_of_reset hreset] at hf; cases hf
    | false =>
      rw [since_cons hreset] at hf
      rcases List.mem_cons.mp hf with rfl | hf
      · exact (hm.consumed id code he).2 row hrow hid hd
      · have hne : ∀ codes, event ≠ .regenerated id codes := by
          rintro codes rfl
          simp [Entry.regenerates] at hreset
        obtain ⟨old, hold, hid', hd', hused⟩ := hm.rows id hne row hrow hid
        exact fun hn => h.spent id f hf code he old hold hid' (hd'.trans hd) (hused hn)
  · intro id codes hset row hrow hid
    by_cases hne : ∀ codes, event ≠ .regenerated id codes
    · rw [lastSet_of_ne hne] at hset
      obtain ⟨old, hold, hid', hd', -⟩ := hm.rows id hne row hrow hid
      obtain ⟨code, hc, hd⟩ := h.drawn id codes hset old hold hid'
      exact ⟨code, hc, hd.trans hd'⟩
    · obtain ⟨codes', hne⟩ := not_forall.mp hne
      have heq := not_not.mp hne
      subst heq
      rw [lastSet_of_regenerated rfl] at hset
      cases hset
      exact hm.drawn id _ rfl row hrow hid

theorem inv_start (h : (twoFactorSystem P).start s) : Inv P s := by
  obtain ⟨db, log⟩ := s
  change log = [⟨.opened, db.credential⟩] at h
  subst h
  refine ⟨?_, ?_, ?_, ?_, fun id codes => nofun, List.Pairwise.nil, ?_, ⟨fun _ _ => nofun, trivial⟩,
    ⟨?_, trivial⟩, ⟨?_, trivial⟩⟩
  · intro f hf step hstep
    cases List.mem_singleton.mp hf
    cases hstep
  · intro f hf
    cases List.mem_singleton.mp (mem_of_mem_fromReset hf)
    exact le_rfl
  · intro f hf
    cases List.mem_singleton.mp (mem_of_mem_fromReset hf)
    exact Grown.refl _
  · intro id f hf code he
    cases List.mem_singleton.mp (mem_of_mem_since hf)
    cases he
  · intro f hf secret code at' now he
    cases List.mem_singleton.mp hf
    cases he
  · intro f hf
    cases List.mem_singleton.mp (mem_of_mem_fromReset hf)
    exact le_rfl
  · intro f hf
    cases List.mem_singleton.mp (mem_of_mem_fromReset hf)
    exact Grown.refl _

theorem inv_step {t : Transaction} (h : Inv P s) (hs : (twoFactorSystem P).step s t = some s') : Inv P s' := by
  cases hs
  unfold Run.after
  split
  next event db' hrun =>
    split at hrun
    next => exact h.next (moves_run hrun)
    next => cases hrun
  next => exact h.next (moves_nothing s.db)

theorem inv_reach (h : Reach (twoFactorSystem P) s) : Inv P s :=
  h.induct (fun _ => inv_start) fun _ _ _ _ hi _ => inv_step hi

/-- Digests tell apart what SHA-256 does. -/
theorem normalize_of_digest {x y : List Char} (h : ToldApart P log) {e f : Entry} (he : e ∈ log) (hf : f ∈ log)
    (hx : x ∈ e.event.codes) (hy : y ∈ f.event.codes) (hd : digest P x = digest P y) :
    normalize P x = normalize P y :=
  utf8_inj (h e he f hf x hx y hy (TwoFactor.hexEncode_inj hd))

theorem mem_of_lastSet {codes : List (List Char)} (h : lastSet id log = some codes) :
    ∃ e ∈ log, e.event = .regenerated id codes := by
  induction log with
  | nil => cases h
  | cons e log ih =>
    have later (h : lastSet id log = some codes) : ∃ f ∈ e :: log, f.event = .regenerated id codes := by
      obtain ⟨f, hf, he⟩ := ih h
      exact ⟨f, List.mem_cons_of_mem e hf, he⟩
    rw [lastSet] at h
    split at h
    next id' codes' he =>
      split at h
      next hid =>
        cases h
        exact ⟨e, List.mem_cons_self, by rw [he, hid]⟩
      next => exact later h
    next => exact later h

/-- **No second-factor code is accepted twice**, in every run whose texts SHA-256 tells apart; a lock
    isn't shortened unless the clock steps back, inside one failure, behind the lock it replaces. -/
theorem oneTime_of_reach (h : Reach (twoFactorSystem P) s) (hsha : ToldApart P s.log) :
    OneTime P (normalize P) Entry.endsLock s.log := by
  have honce := (inv_reach h).once
  refine { honce with spent := each_iff.mpr fun later e past heq id code he => ?_ }
  obtain ⟨hdistinct, hset⟩ := each_iff.mp honce.spent later e past heq id code he
  refine ⟨fun f hf code' he' hn => hdistinct f hf code' he' (digest_congr hn), fun codes hcodes => ?_⟩
  obtain ⟨code', hc, hd⟩ := hset codes hcodes
  obtain ⟨f, hf, he'⟩ := mem_of_lastSet hcodes
  have hmem : e ∈ s.log ∧ f ∈ s.log := by
    rw [heq]
    exact ⟨by simp, by simp [hf]⟩
  exact ⟨code', hc, normalize_of_digest hsha hmem.2 hmem.1 (by rw [he']; exact hc)
    (by rw [he]; exact List.mem_singleton_self code) hd⟩

end Runs

/-! ## 5. Two runs -/

/-- The values the hashes have for the texts of the run below. -/
def samplePrimitives : Primitives where
  hmacSha1 key message :=
    if key = text "12345678901234567890" ∧ message = beBytes 1 then
      [0x75, 0xa4, 0x8a, 0x19, 0xd4, 0xcb, 0xe1, 0x00, 0x64, 0x4e, 0x8a, 0xc1, 0x39, 0x7e, 0xea, 0x74, 0x7a,
        0x2d, 0x33, 0xab].get
    else fun _ => 0
  sha256 bytes :=
    if bytes = text "abc" then
      [0xba, 0x78, 0x16, 0xbf, 0x8f, 0x01, 0xcf, 0xea, 0x41, 0x41, 0x40, 0xde, 0x5d, 0xae, 0x22, 0x23, 0xb0,
        0x03, 0x61, 0xa3, 0x96, 0x17, 0x7a, 0x9c, 0xb4, 0x10, 0xff, 0x61, 0xf2, 0x00, 0x15, 0xad]
    else []
  toUppercase c := [c.toUpper]
  toLowercase c := [c.toLower]
  encryptWithEncoding _ _ := "secret"
  decryptBytes _ := some (text "GEZDGNBVGY3TQOJQGEZDGNBVGY3TQOJQ", "ASCII-8BIT")

def sampleCredential : TwoFactorCredential := ⟨1, 1, "secret", none, none, 4, 0, some 1059000000, 0, 0⟩

def sampleStart : Run := ⟨⟨sampleCredential, [], [], 1⟩, [⟨.opened, sampleCredential⟩]⟩

/-- A code and its replay, a set of one backup code and two spellings of it. -/
def sampleRun : List Transaction :=
  [⟨.verifyCode sampleCredential "287 082".toList, fun _ => 59000000, true⟩,
    ⟨.verifyCode sampleCredential "287082".toList, fun _ => 59000000, true⟩,
    ⟨.regenerateSet 1 ["ABC".toList], fun _ => 60000000, true⟩,
    ⟨.consume 1 "A-b c".toList, fun _ => 61000000, true⟩,
    ⟨.consume 1 "abc".toList, fun _ => 61000000, true⟩]

instance instDecidableToldApart (P : Primitives) (log : List Entry) : Decidable (ToldApart P log) :=
  inferInstanceAs (Decidable (∀ e ∈ log, ∀ f ∈ log, ∀ x ∈ e.event.codes, ∀ y ∈ f.event.codes,
    P.sha256 (hashed P x) = P.sha256 (hashed P y) → hashed P x = hashed P y))

theorem oneTime_of_reach_sample : ∃ s, Reach (twoFactorSystem samplePrimitives) s ∧
    s.log.map Entry.event = [.nothing, .consumed 1 "A-b c".toList, .regenerated 1 ["abc".toList], .nothing,
      .accepted "GEZDGNBVGY3TQOJQGEZDGNBVGY3TQOJQ".toList "287 082".toList 30 59000000, .opened] ∧
    OneTime samplePrimitives (normalize samplePrimitives) Entry.endsLock s.log := by
  obtain ⟨s, hs, hp⟩ := exists_reachWhen_of_replay (T := twoFactorSystem samplePrimitives)
    (G := fun _ _ => True) (s := sampleStart) (l := sampleRun)
    (p := fun s => s.log.map Entry.event = [.nothing, .consumed 1 "A-b c".toList,
      .regenerated 1 ["abc".toList], .nothing,
      .accepted "GEZDGNBVGY3TQOJQGEZDGNBVGY3TQOJQ".toList "287 082".toList 30 59000000, .opened] ∧
      ToldApart samplePrimitives s.log)
    rfl (by decide +kernel)
  obtain ⟨hlog, hsha⟩ := of_decide_eq_true hp
  exact ⟨s, hs, hlog, oneTime_of_reach hs hsha⟩

/-- The lock has just ended when a fifth failure is counted; the next reading of the clock is two
    minutes earlier, and the new lock of one minute ends before the first. -/
def steppedBackRun : List Transaction :=
  [⟨.registerChallengeFailure sampleCredential, fun i => if i = 0 then 1059000000 else 939000000, true⟩]

/-- **A clock that steps back inside a failure shortens a lock.** -/
theorem lock_shortened : ¬ ∀ P s, Reach (twoFactorSystem P) s → ToldApart P s.log →
    OneTime P (normalize P) Entry.succeeded s.log := by
  intro hall
  obtain ⟨s, hs, hp⟩ := exists_reachWhen_of_replay (T := twoFactorSystem samplePrimitives)
    (G := fun _ _ => True) (s := sampleStart) (l := steppedBackRun)
    (p := fun s => s.log = [⟨.locked 1059000000,
      { sampleCredential with
        consecutiveFailures := 0
        lockoutCount := 1
        lockedUntil := some 999000000
        updatedAt := 939000000 }⟩, ⟨.opened, sampleCredential⟩] ∧ ToldApart samplePrimitives s.log)
    rfl (by decide +kernel)
  obtain ⟨hlog, hsha⟩ := of_decide_eq_true hp
  have hlocks := (hall samplePrimitives s hs hsha).locks
  rw [hlog] at hlocks
  obtain ⟨y, hy, hle⟩ := hlocks.1 ⟨.opened, sampleCredential⟩ (by decide +kernel) 1059000000 rfl
  cases hy
  omega

end Smartfire.TwoFactor
