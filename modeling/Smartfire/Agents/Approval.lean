/-
  File:      Smartfire/Agents/Approval.lean
  Subject:   An agent's approval request (crates/db/src/models/agent_approval.rs `expire_if_due`,
             `decide`, `decide_authorized`, `cancel_by_agent`; database.rs `revision_after`).

  Each operation runs in a writer transaction on a copy of the record, of which it uses the id: it
  reads the row again before it looks at anything.

  * `expireIfDue`, `decide`, `decideAuthorized`, `cancelByAgent`;
  * `approvalSystem` -- transactions on one request, with a history of what each did.

  Times are microseconds, and each reading of the clock is its own. What fails (`none`) is rolled back,
  and so is any transaction that does not commit. The status is one of the five; what only creation
  checks, the activity items and the delivery of events are left out.
-/
import Smartfire.Lib.Runs
import Smartfire.Richtext.PlainText

namespace Smartfire.AgentApprovals

open Lib

/-! ## 1. Rows -/

inductive ApprovalStatus where
  | pending
  | approved
  | denied
  | cancelled
  | expired
deriving DecidableEq, Repr

def ApprovalStatus.name : ApprovalStatus → String
  | .pending => "pending"
  | .approved => "approved"
  | .denied => "denied"
  | .cancelled => "cancelled"
  | .expired => "expired"

structure AgentApproval where
  id : Nat
  agentId : Nat
  roomId : Option Nat
  action : String
  summary : String
  payload : Option String
  externalId : Option String
  status : ApprovalStatus
  expiresAt : Int
  decidedById : Option Nat
  decidedAt : Option Int
  decisionNote : Option String
  updatedAt : Int
deriving DecidableEq, Repr

structure UserRow where
  status : Nat
  role : Nat
deriving DecidableEq, Repr

structure AgentRow where
  userId : Nat
  ownerId : Option Nat
deriving DecidableEq, Repr

/-- What a transaction reads in other tables. -/
structure Surroundings where
  user : Nat → Option UserRow
  agent : Nat → Option AgentRow
  /-- Another request of the agent has the external id. -/
  externalIdTaken : Bool
  /-- The agent has a webhook that may have the event. -/
  opensWebhook : Bool

/-- The `User` a caller passes, as it has it. -/
structure User where
  id : Nat
  displayName : String
deriving DecidableEq, Repr

/-- The readings of the clock, in the order the code takes them. -/
structure Readings where
  /-- Whether the request is due to expire. -/
  due : Int
  /-- The revision of an expiry. -/
  expired : Int
  /-- Whether the request is pending. -/
  pending : Int
  /-- The time of a decision. -/
  decided : Int
  /-- The revision of a decision or a cancellation. -/
  revision : Int
deriving DecidableEq, Repr

/-- The metadata of an `approval_decided` event. -/
structure ApprovalDecided where
  agentId : Nat
  roomId : Option Nat
  actorId : Nat
  approvalId : Nat
  status : ApprovalStatus
  decidedBy : String
  note : Option String
deriving DecidableEq, Repr

/-- What a transaction does beside the row. -/
inductive Effect where
  | activityHandled (approvalId : Nat)
  | approvalChange (approvalId : Nat)
  | approvalDecided (event : ApprovalDecided)
  | githubAction (approvalId : Nat)
  | fizzyAction (approvalId : Nat)
  | eventWebhook
deriving DecidableEq, Repr

/-- A write in progress: the row, and what else it did so far. -/
structure Tx where
  row : AgentApproval
  effects : List Effect
deriving DecidableEq, Repr

def Tx.emit (tx : Tx) (effects : List Effect) : Tx := { tx with effects := tx.effects ++ effects }

/-- `revision_after`: past the stored version, whatever the clock shows. -/
def revisionAfter (now previous : Int) : Int := max now (previous + 1)

abbrev Errors := List (String × String)

namespace AgentApproval

variable (self : AgentApproval) (env : Surroundings)

/-- `find` -/
def find (tx : Tx) (id : Nat) : Option AgentApproval := if tx.row.id = id then some tx.row else none

/-! ## 2. Checks -/

def githubAction : Bool := "github.".toList.isPrefixOf self.action.toList

def fizzyAction : Bool := "fizzy.".toList.isPrefixOf self.action.toList

def isActionChar (c : Char) : Bool := c.isLower || c.isDigit || c = '_' || c = '.' || c = '-'

def textErrors (field text : String) (limit : Nat) : Errors :=
  (if Richtext.isBlank text.toList then [(field, "can't be blank")] else []) ++
  (if limit < text.length then
    [(field, "is too long (maximum is " ++ toString limit ++ " characters)")] else []) ++
  (if field = "action" && (text.toList.isEmpty || !text.toList.all isActionChar) then
    [(field, "is invalid")] else [])

/-- `validate` of a stored record. -/
def validate : Errors :=
  (if (env.agent self.agentId).isNone then [("agent", "must exist")] else []) ++
  textErrors "action" self.action 60 ++ textErrors "summary" self.summary 500 ++
  (if self.decisionNote.any (200 < ·.length) then
    [("decision_note", "is too long (maximum is 200 characters)")] else []) ++
  (if self.externalId.isSome && env.externalIdTaken then
    [("external_id", "has already been taken")] else []) ++
  (if self.payload.any (4096 < ·.utf8ByteSize) then
    [("payload", "is too large (maximum is 4 KB)")] else [])

/-- `decidable_by`: an active administrator, or the agent's active owner, of an active bot. -/
def decidableBy (userId : Nat) : Bool :=
  (env.agent self.agentId).any fun a =>
    (env.user a.userId).any (·.status = 0) &&
    (env.user userId).any fun actor =>
      actor.status = 0 && actor.role ≠ 2 && (actor.role = 1 || a.ownerId = some userId)

def approvableBy (userId : Nat) : Bool :=
  self.decidableBy env userId &&
    (!(self.githubAction || self.fizzyAction) || (env.user userId).any (·.role = 1))

def effectiveStatus (now : Int) : ApprovalStatus :=
  if self.status = .pending ∧ self.expiresAt ≤ now then .expired else self.status

def pendingErrors (now : Int) : Errors :=
  if self.effectiveStatus now ≠ .pending then
    [("base", if self.status = .expired then "Request has expired"
      else "Request is already " ++ self.status.name)]
  else []

/-! ## 3. Operations -/

variable (r : Readings) (tx : Tx)

/-- What a change of status leaves behind: the inbox items handled, the change announced. -/
def announced : List Effect := [.activityHandled self.id, .approvalChange self.id]

def expireIfDue : Option (AgentApproval × Bool × Tx) := do
  let self ← find tx self.id
  if self.status ≠ .pending ∨ r.due < self.expiresAt then some (self, false, tx)
  else if !(validate { self with status := .expired } env).isEmpty then none
  else
    let expired := { self with status := .expired, updatedAt := revisionAfter r.expired self.updatedAt }
    some (expired, true, ({ tx with row := expired } : Tx).emit self.announced)

/-- The decisions there are. -/
def decisionStatus (decision : String) : Option ApprovalStatus :=
  if decision = "approved" then some .approved else if decision = "denied" then some .denied else none

/-- The jobs an approval enqueues. -/
def actionJobs : List Effect :=
  (if self.githubAction then [.githubAction self.id] else []) ++
    if self.fizzyAction then [.fizzyAction self.id] else []

def decidedEvent (user : User) : ApprovalDecided :=
  { agentId := self.agentId
    roomId := self.roomId
    actorId := user.id
    approvalId := self.id
    status := self.status
    decidedBy := user.displayName
    note := self.decisionNote }

/-- What a decision leaves behind: the event, and on approval the external action. -/
def decisionEffects (decision : String) (user : User) (opensWebhook : Bool) : List Effect :=
  self.announced ++ [.approvalDecided (self.decidedEvent user)] ++
    (if decision = "approved" then self.actionJobs else []) ++
    if opensWebhook then [.eventWebhook] else []

def decide (decision : String) (user : User) (note : Option String) :
    Option (AgentApproval × Errors × Tx) := do
  let status ← decisionStatus decision
  let (self, _, tx) ← self.expireIfDue env r tx
  let errors := self.pendingErrors r.pending
  if !errors.isEmpty then some (self, errors, tx)
  else
    let note := note.filter fun s => !Richtext.isBlank s.toList
    let decided :=
      { self with
        status
        decidedById := some user.id
        decidedAt := some r.decided
        decisionNote := note }
    let errors := decided.validate env
    if !errors.isEmpty then some (self, errors, tx)
    else
      let decided := { decided with updatedAt := revisionAfter r.revision self.updatedAt }
      some (decided, [],
        ({ tx with row := decided } : Tx).emit (decided.decisionEffects decision user env.opensWebhook))

inductive ApprovalDecision where
  | applied
  | forbidden
  | invalid (errors : Errors)
deriving DecidableEq, Repr

def decideAuthorized (decision : String) (user : User) (note : Option String) :
    Option (AgentApproval × ApprovalDecision × Tx) := do
  let self ← find tx self.id
  if !self.decidableBy env user.id || (decision = "approved" && !self.approvableBy env user.id) then
    some (self, .forbidden, tx)
  else
    let (self, errors, tx) ← self.decide env r tx decision user note
    some (self, if errors.isEmpty then .applied else .invalid errors, tx)

def cancelByAgent : Option (AgentApproval × Errors × Tx) := do
  let (self, _, tx) ← self.expireIfDue env r tx
  let errors := self.pendingErrors r.pending
  if !errors.isEmpty then some (self, errors, tx)
  else
    let errors := validate { self with status := .cancelled } env
    if !errors.isEmpty then some (self, errors, tx)
    else
      let cancelled :=
        { self with status := .cancelled, updatedAt := revisionAfter r.revision self.updatedAt }
      some (cancelled, [], ({ tx with row := cancelled } : Tx).emit self.announced)

end AgentApproval

/-! ## 4. Transactions -/

open AgentApproval

/-- An operation on a copy of the record, as stale as may be. -/
inductive Op where
  | decideAuthorized (copy : AgentApproval) (decision : String) (user : User) (note : Option String)
  | cancelByAgent (copy : AgentApproval)
  | expireIfDue (copy : AgentApproval)

inductive Answer where
  | decided (decision : ApprovalDecision)
  | cancelled (errors : Errors)
  | expired (due : Bool)
  /-- It failed, or was rolled back. -/
  | undone
deriving DecidableEq, Repr

structure Transaction where
  op : Op
  env : Surroundings
  readings : Readings
  commits : Bool

/-- What the operation answers, and what it leaves of the row. -/
def Op.run (env : Surroundings) (r : Readings) (tx : Tx) : Op → Option (Answer × Tx)
  | .decideAuthorized copy decision user note =>
    (copy.decideAuthorized env r tx decision user note).map fun (_, answer, tx) => (.decided answer, tx)
  | .cancelByAgent copy => (copy.cancelByAgent env r tx).map fun (_, errors, tx) => (.cancelled errors, tx)
  | .expireIfDue copy => (copy.expireIfDue env r tx).map fun (_, due, tx) => (.expired due, tx)

/-- A transaction, with the row before and after it. -/
structure Entry where
  transaction : Transaction
  before : AgentApproval
  after : AgentApproval
  answer : Answer
  effects : List Effect

/-- The row, with the history of the run, the newest entry first. -/
structure Run where
  opened : AgentApproval
  row : AgentApproval
  log : List Entry

def Run.after (s : Run) (t : Transaction) : Run :=
  match if t.commits then t.op.run t.env t.readings ⟨s.row, []⟩ else none with
  | some (answer, tx) => { s with row := tx.row, log := ⟨t, s.row, tx.row, answer, tx.effects⟩ :: s.log }
  | none => { s with log := ⟨t, s.row, s.row, .undone, []⟩ :: s.log }

/-- Transactions on one request, from any row. -/
def approvalSystem : System Run Transaction where
  start s := s.row = s.opened ∧ s.log = []
  step s t := some (s.after t)

end Smartfire.AgentApprovals
