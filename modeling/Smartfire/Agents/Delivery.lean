/-
  File:      Smartfire/Agents/Delivery.lean
  Subject:   An agent event's webhook (crates/db/src/models/agent_delivery.rs).

  Every function runs inside a writer transaction, so it is a function of the event's row. What else
  it reads (the webhook's presence, access, the rate limit) stands in its arguments. A worker holds a
  copy of the row as its claim left it while it sends.

  * `performDelivery`, `claimWebhook`, `finishWebhook` -- the webhook opened, an attempt claimed, its
    outcome recorded;
  * `recoveryCandidates`, `recoverOne`, `failExhausted` -- the sweep for stranded rows;
  * `Delivery`, `deliverySystem` -- an event with the jobs enqueued, the workers sending, and what
    happened so far.
-/
import Mathlib.Algebra.Order.Ring.Int
import Mathlib.Data.List.Basic
import Smartfire.Lib.Runs

namespace Smartfire.AgentDelivery

open Lib

/-! ## 1. The row -/

def maxAttempts : Nat := 5

def rateLimit : Nat := 20

def messageTypes : List String := ["mention", "direct_message", "reply"]

inductive EventOutcome where
  | pending
  | delivered
  | acknowledged
  | suppressed
deriving DecidableEq

inductive WebhookStatus where
  | none
  | pending
  | delivered
  | failed
deriving DecidableEq

/-- `agent_events`, what a delivery reads and writes of it. -/
structure AgentEvent where
  eventType : String
  outcome : Option EventOutcome
  hop : Int
  detail : Option String
  createdAt : Int
  webhookStatus : WebhookStatus
  webhookAttempts : Nat
  webhookNextAttemptAt : Option Int
  webhookLastError : Option String
deriving DecidableEq

/-- What a delivery reads beside the row. -/
structure Surroundings where
  hasWebhook : Bool
  authorized : Bool
  /-- The message is there, and its room is not deleted. -/
  available : Bool
  rateLimited : Bool
deriving DecidableEq

structure EventWebhookJob where
  attempt : Option Nat
deriving DecidableEq

/-- A job on the queue, with how long it waits, in microseconds. -/
structure QueuedWebhook where
  wait : Nat
  job : EventWebhookJob
deriving DecidableEq

/-- The event with what its transactions leave behind: jobs, and ledger rows of suppressed deliveries. -/
structure Ledger where
  event : AgentEvent
  jobs : List QueuedWebhook
  suppressions : List (String × String)
deriving DecidableEq

namespace Ledger

variable (l : Ledger)

def enqueueWebhook (e : AgentEvent) (wait : Nat) : Ledger :=
  { l with jobs := l.jobs ++ [⟨wait, ⟨some e.webhookAttempts⟩⟩] }

/-- Why a pending delivery is suppressed, if it is. -/
def suppression (env : Surroundings) : Option (String × String) :=
  if !env.authorized then some ("delivery_suppressed_revoked", "Grant revoked or room access removed")
  else if 3 ≤ l.event.hop then
    some ("delivery_suppressed_hop_limit", "Hop limit reached (hop " ++ toString l.event.hop ++ ")")
  else if env.rateLimited then
    some ("delivery_suppressed_rate_limit", "Rate limit exceeded (" ++ toString rateLimit ++ " per minute)")
  else none

def suppressed (detail : String) : Ledger :=
  { l with event := { l.event with outcome := some .suppressed, detail := some detail } }

/-- DeliveryJob's claim of a pending outcome. An acknowledged event still owes its webhook. -/
def performDelivery (env : Surroundings) (now : Int) : Ledger :=
  let e := l.event
  if !messageTypes.contains e.eventType then l
  else if e.outcome = some .acknowledged then
    if env.hasWebhook && env.authorized && e.webhookStatus = .none then
      let opened := { e with webhookStatus := .pending, webhookNextAttemptAt := some now }
      ({ l with event := opened } : Ledger).enqueueWebhook e 0
    else l
  else if e.outcome ≠ some .pending then l
  else if !env.available then l.suppressed "Message no longer available"
  else
    match l.suppression env with
    | some (kind, detail) => { l.suppressed detail with suppressions := l.suppressions ++ [(kind, detail)] }
    | none =>
      if env.hasWebhook then
        let opened :=
          { e with outcome := some .delivered, webhookStatus := .pending, webhookNextAttemptAt := some now }
        ({ l with event := opened } : Ledger).enqueueWebhook e 0
      else
        { l with
          event :=
            { e with outcome := some .delivered, webhookStatus := .none, webhookNextAttemptAt := none } }

end Ledger

/-! ## 2. Attempts -/

/-- The attempt's compare-and-set: the row afterwards, and the worker's copy where it claimed. -/
def claimWebhook (e : AgentEvent) (job : EventWebhookJob) (hasWebhook : Bool) (now : Int) :
    AgentEvent × Option AgentEvent :=
  if e.webhookStatus = .delivered then (e, none)
  else if !hasWebhook then ({ e with webhookStatus := .none }, none)
  else
    let attempt := job.attempt.getD e.webhookAttempts
    if e.webhookAttempts = attempt ∧ e.webhookStatus = .pending then
      let claimed := { e with webhookAttempts := attempt + 1, webhookNextAttemptAt := some now }
      (claimed, some claimed)
    else (e, none)

inductive AttemptOutcome where
  | delivered
  | permanent (error : String)
  /-- With the wait the answer asked for, in microseconds. -/
  | retry (error : String) (hint : Option Nat)
deriving DecidableEq

def shortenError (error : String) : String :=
  if 500 < error.length then String.ofList (error.toList.take 497) ++ "..." else error

/-- A worker records its outcome, from the copy `e` its claim gave it. -/
def Ledger.finishWebhook (l : Ledger) (e : AgentEvent) (result : AttemptOutcome) (now : Int) : Ledger :=
  let write (status : WebhookStatus) (attempts : Nat) (error : Option String) (next : Option Int) : Ledger :=
    { l with
      event :=
        { l.event with
          webhookStatus := status
          webhookAttempts := attempts
          webhookLastError := error.map shortenError
          webhookNextAttemptAt := next } }
  match result with
  | .delivered => write .delivered e.webhookAttempts none e.webhookNextAttemptAt
  | .permanent error => write .failed (e.webhookAttempts - 1) (some error) e.webhookNextAttemptAt
  | .retry error hint =>
    if maxAttempts ≤ e.webhookAttempts then
      write .failed e.webhookAttempts (some error) e.webhookNextAttemptAt
    else
      let wait := hint.getD ((e.webhookAttempts ^ 4 + 2) * 1000000)
      (write .pending e.webhookAttempts (some error) (some (now + wait))).enqueueWebhook e wait

/-! ## 3. Recovery -/

inductive Recovery where
  | delivery
  | webhook (attempt : Nat) (next : Option Int)
deriving DecidableEq

def minutes (n : Int) : Int := n * 60 * 1000000

/-- `next IS NULL AND created_at < t OR next < t` -/
def overdue (e : AgentEvent) (t : Int) : Bool :=
  match e.webhookNextAttemptAt with
  | none => e.createdAt < t
  | some next => next < t

/-- A sweep's snapshot of the event. -/
def recoveryCandidates (e : AgentEvent) (now : Int) : List Recovery :=
  let grace := now - minutes 2
  (if e.outcome = some .pending ∧ messageTypes.contains e.eventType ∧ e.createdAt < grace then [.delivery] else []) ++
  if e.webhookStatus = .pending ∧ e.webhookAttempts < 5 ∧ overdue e grace then
    [.webhook e.webhookAttempts e.webhookNextAttemptAt]
  else []

def failExhausted (e : AgentEvent) (now : Int) : AgentEvent :=
  if e.webhookStatus = .pending ∧ 5 ≤ e.webhookAttempts ∧ overdue e (now - minutes 7) then
    { e with
      webhookStatus := .failed
      webhookLastError := some "Delivery attempts exhausted without a recorded outcome" }
  else e

/-- A candidate gets its job again, and its stamp where the snapshot still holds. -/
def Ledger.recoverOne (l : Ledger) (now : Int) : Recovery → Ledger
  | .delivery => l
  | .webhook attempt next =>
    { l with
      jobs := l.jobs ++ [⟨0, ⟨some attempt⟩⟩]
      event :=
        if l.event.webhookStatus = .pending ∧ l.event.webhookAttempts = attempt ∧
            l.event.webhookNextAttemptAt = next then
          { l.event with webhookNextAttemptAt := some now }
        else l.event }

/-! ## 4. Runs -/

/-- A worker that claimed, while it sends: how many claims there were by then, and its copy. -/
structure Worker where
  number : Nat
  event : AgentEvent
deriving DecidableEq

/-- What a transaction did to the row. -/
inductive Entry where
  | claimed (before after : AgentEvent)
  | finished (worker : Worker) (result : AttemptOutcome) (before after : AgentEvent)
  | other (before after : AgentEvent)
deriving DecidableEq

namespace Entry

def before : Entry → AgentEvent
  | .claimed b _ | .finished _ _ b _ | .other b _ => b

def after : Entry → AgentEvent
  | .claimed _ a | .finished _ _ _ a | .other _ a => a

def isClaim : Entry → Bool
  | .claimed _ _ => true
  | _ => false

end Entry

structure Delivery where
  ledger : Ledger
  now : Int
  workers : List Worker
  candidates : List Recovery
  log : List Entry
deriving DecidableEq

inductive Label where
  | tick (elapsed : Nat)
  | acknowledge
  | perform (env : Surroundings)
  /-- Any job ever enqueued runs, perhaps again. -/
  | claim (job : Nat) (hasWebhook : Bool)
  | finish (worker : Nat) (result : AttemptOutcome)
  | sweep
  | recover (candidate : Nat)
  | exhaust (since : Nat)
deriving DecidableEq

namespace Delivery

variable (s : Delivery)

def claims : Nat := s.log.countP Entry.isClaim

/-- The ledger after a transaction, noted. -/
def did (ledger : Ledger) : Delivery :=
  { s with ledger := ledger, log := s.log ++ [.other s.ledger.event ledger.event] }

def step : Label → Option Delivery
  | .tick elapsed => some { s with now := s.now + elapsed }
  | .acknowledge =>
    some (s.did { s.ledger with event := { s.ledger.event with outcome := some .acknowledged } })
  | .perform env => some (s.did (s.ledger.performDelivery env s.now))
  | .claim job hasWebhook =>
    match s.ledger.jobs[job]? with
    | none => none
    | some queued =>
      match claimWebhook s.ledger.event queued.job hasWebhook s.now with
      | (event, none) => some (s.did { s.ledger with event := event })
      | (event, some copy) =>
        some
          { s with
            ledger := { s.ledger with event := event }
            workers := s.workers ++ [⟨s.claims + 1, copy⟩]
            log := s.log ++ [.claimed s.ledger.event event] }
  | .finish worker result =>
    match s.workers[worker]? with
    | none => none
    | some w =>
      let ledger := s.ledger.finishWebhook w.event result s.now
      some
        { s with
          ledger := ledger
          workers := s.workers.eraseIdx worker
          log := s.log ++ [.finished w result s.ledger.event ledger.event] }
  | .sweep => some { s with candidates := s.candidates ++ recoveryCandidates s.ledger.event s.now }
  | .recover candidate =>
    match s.candidates[candidate]? with
    | none => none
    | some c => some (s.did (s.ledger.recoverOne s.now c))
  | .exhaust since => some (s.did { s.ledger with event := failExhausted s.ledger.event (s.now - since) })

end Delivery

/-- A new ledger row. -/
def newEvent (eventType : String) (outcome : Option EventOutcome) (hop : Int) (now : Int) : AgentEvent where
  eventType := eventType
  outcome := outcome
  hop := hop
  detail := none
  createdAt := now
  webhookStatus := .none
  webhookAttempts := 0
  webhookNextAttemptAt := none
  webhookLastError := none

def deliverySystem : System Delivery Label where
  start s := ∃ eventType outcome hop now,
    s = ⟨⟨newEvent eventType outcome hop now, [], []⟩, now, [], [], []⟩
  step := Delivery.step

end Smartfire.AgentDelivery
