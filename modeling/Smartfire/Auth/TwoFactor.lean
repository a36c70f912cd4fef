/-
  File:      Smartfire/Auth/TwoFactor.lean
  Subject:   A user's second factor (crates/db/src/models/two_factor.rs): the credential's codes, its
             lockout, and the backup codes.

  Every operation runs in the writer's transaction. It takes a copy of the record that may be stale,
  of which it uses the id, and reads the row again.

  * `TwoFactorCredential.verifyCode`, `confirmWithSetupSecret` -- the two ways a code is accepted;
  * `registerChallengeFailure`, `registerChallengeSuccess` -- the lockout;
  * `TwoFactorBackupCode.regenerateSet`, `consume` -- the backup codes;
  * `twoFactorSystem` -- transactions on one credential, with a record of what each accepted.

  Times are microseconds; each reading of the clock is its own, and an operation that fails (`none`)
  is rolled back. The hashes, Unicode's case tables and the encryption of the stored secrets are
  parameters. The tables of other users, and what the callers check before a setup secret is used, are
  left out.
-/
import Smartfire.Auth.Totp
import Smartfire.Lib.History
import Smartfire.Lib.Runs
import Smartfire.Richtext.Sanitizer

namespace Smartfire.TwoFactor

open Lib Totp

/-- What stands outside the repository: the hashes, the case tables, the encryption at rest. -/
structure Primitives where
  hmacSha1 : Bytes → Bytes → Fin 20 → UInt8
  sha256 : Bytes → Bytes
  toUppercase : Char → List Char
  toLowercase : Char → List Char
  /-- `ArEncryption::encrypt_with_encoding` -/
  encryptWithEncoding : Bytes → String → String
  /-- `ArEncryption::decrypt_bytes`: the bytes and the name of their encoding. -/
  decryptBytes : String → Option (Bytes × String)

/-! ## 1. Rows -/

structure TwoFactorCredential where
  id : Nat
  userId : Nat
  encryptedSecret : String
  confirmedAt : Option Int
  lastTotpAt : Option Int
  consecutiveFailures : Int
  lockoutCount : Int
  lockedUntil : Option Int
  createdAt : Int
  updatedAt : Int
deriving DecidableEq, Repr

structure TwoFactorBackupCode where
  id : Nat
  twoFactorCredentialId : Nat
  codeDigest : List Char
  usedAt : Option Int
  createdAt : Int
  updatedAt : Int
deriving DecidableEq, Repr

structure TwoFactorSetupSecret where
  id : Nat
  sessionId : Nat
  encryptedSecret : String
  expiresAt : Int
  createdAt : Int
  updatedAt : Int
deriving DecidableEq, Repr

/-- The credential's row, and the tables beside it. -/
structure Db where
  credential : TwoFactorCredential
  setupSecrets : List TwoFactorSetupSecret
  backupCodes : List TwoFactorBackupCode
  /-- Where the ids of new backup codes go on (`AUTOINCREMENT`). -/
  nextBackupCodeId : Nat
deriving DecidableEq, Repr

/-- `TwoFactorCredential::find` -/
def Db.find (db : Db) (id : Nat) : Option TwoFactorCredential :=
  if db.credential.id = id then some db.credential else none

/-- `UPDATE two_factor_credentials SET f WHERE id = ?` -/
def Db.update (db : Db) (id : Nat) (f : TwoFactorCredential → TwoFactorCredential) : Db :=
  if db.credential.id = id then { db with credential := f db.credential } else db

/-- The readings of the clock in a transaction, in order. -/
abbrev Clock := Nat → Int

/-- `Timestamp::as_second` -/
def asSecond (microseconds : Int) : Int := microseconds / 1000000

def failuresBeforeLockout : Int := 5

def lockoutSeconds (level : Int) : Int :=
  if level = 1 ∨ level = -2 then 60 else if level = 2 ∨ level = -1 then 300 else 900

/-- `lockout_duration_for`, in microseconds. -/
def lockoutDurationFor (level : Int) : Int := lockoutSeconds level * 1000000

/-- `locked_out` -/
def TwoFactorCredential.lockedOut (credential : TwoFactorCredential) (now : Int) : Bool :=
  credential.lockedUntil.any fun untilAt => now < untilAt

/-! ## 2. Codes of the credential -/

section Codes

variable (P : Primitives)

/-- `String::from_utf8` -/
def fromUtf8 (bytes : Bytes) : Option (List Char) := (String.fromUTF8? ⟨bytes.toArray⟩).map String.toList

/-- `decrypt_totp_secret` -/
def decryptTotpSecret (ciphertext : String) : Option (List Char) :=
  match P.decryptBytes ciphertext with
  | none => none
  | some (bytes, encoding) =>
    if encoding ≠ "UTF-8" && !bytes.all (· < 0x80) then none else fromUtf8 bytes

/-- `matched_step`: a time out of range matches nothing, a secret that isn't base32 fails. -/
def matchedStep (secret code : List Char) (now : Int) (after : Option Int) : Option (Option Int) :=
  match verifyCode P.hmacSha1 P.toUppercase secret code (asSecond now) after with
  | .ok at' => some at'
  | .error .time => some none
  | .error .secret => none

/-- What an operation on a copy comes to: the copy as it leaves it, its answer, the rows. -/
structure Outcome (α : Type) where
  copy : TwoFactorCredential
  answer : α
  db : Db
deriving DecidableEq, Repr

namespace TwoFactorCredential

variable (copy : TwoFactorCredential) (db : Db) (clock : Clock)

def verifyCode (code : List Char) : Option (Outcome Bool) :=
  if code.all rubyCodeWhitespace then some ⟨copy, false, db⟩
  else do
    let self ← db.find copy.id
    let secret ← decryptTotpSecret P self.encryptedSecret
    match ← matchedStep P secret code (clock 0) self.lastTotpAt with
    | none => some ⟨self, false, db⟩
    | some at' =>
      let db := db.update self.id fun row => { row with lastTotpAt := some at', updatedAt := clock 1 }
      let self ← db.find self.id
      some ⟨self, true, db⟩

def confirmWithSetupSecret (setup : TwoFactorSetupSecret) (code : List Char) : Option (Outcome Bool) :=
  if code.all rubyCodeWhitespace then some ⟨copy, false, db⟩
  else do
    let self ← db.find copy.id
    let secret ← decryptTotpSecret P setup.encryptedSecret
    match ← matchedStep P secret code (clock 0) self.lastTotpAt with
    | none => some ⟨self, false, db⟩
    | some at' =>
      let now := clock 1
      let encrypted := P.encryptWithEncoding (secret.flatMap String.utf8EncodeChar) "ASCII-8BIT"
      let db := db.update self.id fun row =>
        { row with
          encryptedSecret := encrypted
          confirmedAt := some now
          lastTotpAt := some at'
          updatedAt := now }
      let db := { db with setupSecrets := db.setupSecrets.filter (·.id ≠ setup.id) }
      let self ← db.find self.id
      some ⟨self, true, db⟩

/-! ## 3. The lockout -/

/-- `ChallengeFailure` -/
inductive ChallengeFailure where
  | failed
  | locked
deriving DecidableEq, Repr

def registerChallengeFailure : Option (Outcome ChallengeFailure) := do
  let self ← db.find copy.id
  if self.lockedOut (clock 0) then some ⟨self, .failed, db⟩
  else do
    let failures ← checked (self.consecutiveFailures + 1)
    if failuresBeforeLockout ≤ failures then do
      let level ← checked (self.lockoutCount + 1)
      let untilAt := clock 1 + lockoutDurationFor level
      let db := db.update self.id fun row =>
        { row with
          consecutiveFailures := 0
          lockoutCount := level
          lockedUntil := some untilAt
          updatedAt := clock 2 }
      let self ← db.find self.id
      some ⟨self, .locked, db⟩
    else do
      let db := db.update self.id fun row =>
        { row with consecutiveFailures := failures, updatedAt := clock 1 }
      let self ← db.find self.id
      some ⟨self, .failed, db⟩

def registerChallengeSuccess : Option (Outcome Unit) := do
  let db := db.update copy.id fun row =>
    { row with
      consecutiveFailures := 0
      lockoutCount := 0
      lockedUntil := none
      updatedAt := clock 0 }
  let self ← db.find copy.id
  some ⟨self, (), db⟩

end TwoFactorCredential

/-! ## 4. Backup codes -/

namespace TwoFactorBackupCode

def normalize (code : List Char) : List Char :=
  (code.filter fun c => !rubyCodeWhitespace c && c ≠ '-').flatMap P.toLowercase

def hexDigit (n : Nat) : Char := "0123456789abcdef".toList.getD n '0'

/-- `hex::encode` -/
def hexEncode (bytes : Bytes) : List Char :=
  bytes.flatMap fun b => [hexDigit (b.toNat / 16), hexDigit (b.toNat % 16)]

def digest (code : List Char) : List Char :=
  hexEncode (P.sha256 ((normalize P code).flatMap String.utf8EncodeChar))

/-- `generate_code`, of the characters drawn for it. -/
def generateCode (drawn : List Char) : List Char := drawn.map Char.toLower

def blank (value : List Char) : Bool := value.all isCharWhitespace

/-- `create`: refused unless the credential is there and the digest is new. -/
def create (db : Db) (credentialId : Nat) (codeDigest : List Char) (now : Int) : Option Db :=
  if (db.find credentialId).isNone || blank codeDigest || db.backupCodes.any (·.codeDigest = codeDigest) then
    none
  else
    some { db with
      backupCodes := db.backupCodes ++
        [⟨db.nextBackupCodeId, credentialId, codeDigest, none, now, now⟩]
      nextBackupCodeId := db.nextBackupCodeId + 1 }

/-- The loop that stores the codes; the `i`th reads the clock once. -/
def createAll (credentialId : Nat) : List (List Char) → Clock → Db → Option Db
  | [], _, db => some db
  | code :: codes, clock, db => do
    let db ← create db credentialId (digest P code) (clock 0)
    createAll credentialId codes (fun i => clock (i + 1)) db

/-- `regenerate_set`, of the characters drawn for each code. -/
def regenerateSet (db : Db) (credentialId : Nat) (drawn : List (List Char)) (clock : Clock) :
    Option (List (List Char) × Db) := do
  let codes := drawn.map generateCode
  let db := { db with backupCodes := db.backupCodes.filter (·.twoFactorCredentialId ≠ credentialId) }
  let db ← createAll P credentialId codes clock db
  some (codes, db)

/-- The rows that `consume` spends. -/
def isSpendable (credentialId : Nat) (codeDigest : List Char) (row : TwoFactorBackupCode) : Bool :=
  row.twoFactorCredentialId = credentialId && row.codeDigest = codeDigest && row.usedAt.isNone

def consume (db : Db) (credentialId : Nat) (code : List Char) (clock : Clock) : Bool × Db :=
  if blank (normalize P code) then (false, db)
  else
    let spends := isSpendable credentialId (digest P code)
    (db.backupCodes.countP spends = 1,
      { db with
        backupCodes := db.backupCodes.map fun row =>
          if spends row then { row with usedAt := some (clock 0), updatedAt := clock 1 } else row })

end TwoFactorBackupCode

end Codes

/-! ## 5. Transactions -/

open TwoFactorCredential TwoFactorBackupCode

/-- An operation with its arguments; every `copy` is any record, as stale as may be. -/
inductive Op where
  | verifyCode (copy : TwoFactorCredential) (code : List Char)
  | confirmWithSetupSecret (copy : TwoFactorCredential) (setup : TwoFactorSetupSecret) (code : List Char)
  | registerChallengeFailure (copy : TwoFactorCredential)
  | registerChallengeSuccess (copy : TwoFactorCredential)
  | regenerateSet (credentialId : Nat) (drawn : List (List Char))
  | consume (credentialId : Nat) (code : List Char)

/-- What a transaction did. -/
inductive Event where
  /-- The record as the run finds it. -/
  | opened
  /-- A code was accepted for the step that starts at `at'`, under the secret, at a time. -/
  | accepted (secret code : List Char) (at' now : Int)
  | failed
  /-- A lock was set; at `checkedAt` none was found to run. -/
  | locked (checkedAt : Int)
  | succeeded
  | regenerated (credentialId : Nat) (codes : List (List Char))
  | consumed (credentialId : Nat) (code : List Char)
  /-- Nothing came of it: refused, failed or rolled back. -/
  | nothing
deriving DecidableEq, Repr

/-- An event, with the credential as it left it. -/
structure Entry where
  event : Event
  credential : TwoFactorCredential
deriving DecidableEq, Repr

/-- A transaction: an operation, the clock's readings, and whether it commits. -/
structure Transaction where
  op : Op
  clock : Clock
  commits : Bool

section Transactions

variable (P : Primitives)

/-- The event of an accepted code: the step's start is what the row now holds. -/
def acceptedEvent (encrypted : String) (code : List Char) (now : Int) (copy : TwoFactorCredential) : Event :=
  .accepted ((decryptTotpSecret P encrypted).getD []) code (copy.lastTotpAt.getD 0) now

/-- The operation's event and the rows it leaves. -/
def Op.run (db : Db) (clock : Clock) : Op → Option (Event × Db)
  | .verifyCode copy code => do
    let out ← copy.verifyCode P db clock code
    some (if out.answer then acceptedEvent P db.credential.encryptedSecret code (clock 0) out.copy
      else .nothing, out.db)
  | .confirmWithSetupSecret copy setup code => do
    let out ← copy.confirmWithSetupSecret P db clock setup code
    some (if out.answer then acceptedEvent P setup.encryptedSecret code (clock 0) out.copy
      else .nothing, out.db)
  | .registerChallengeFailure copy => do
    let out ← copy.registerChallengeFailure db clock
    some (match out.answer with
      | .failed => .failed
      | .locked => .locked (clock 0), out.db)
  | .registerChallengeSuccess copy => do
    let out ← copy.registerChallengeSuccess db clock
    some (.succeeded, out.db)
  | .regenerateSet credentialId drawn => do
    let (codes, db) ← TwoFactorBackupCode.regenerateSet P db credentialId drawn clock
    some (.regenerated credentialId codes, db)
  | .consume credentialId code =>
    let (spent, db) := TwoFactorBackupCode.consume P db credentialId code clock
    some (if spent then .consumed credentialId code else .nothing, db)

/-- The rows, with the history of the run, the newest entry first. -/
structure Run where
  db : Db
  log : List Entry
deriving DecidableEq, Repr

def Run.after (s : Run) (t : Transaction) : Run :=
  match if t.commits then t.op.run P s.db t.clock else none with
  | some (event, db) => ⟨db, ⟨event, db.credential⟩ :: s.log⟩
  | none => ⟨s.db, ⟨.nothing, s.db.credential⟩ :: s.log⟩

/-- Transactions on one credential, from any rows. -/
def twoFactorSystem : System Run Transaction where
  start s := s.log = [⟨.opened, s.db.credential⟩]
  step s t := some (s.after P t)

end Transactions

end Smartfire.TwoFactor
