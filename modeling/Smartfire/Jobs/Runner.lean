/-
  File:      Smartfire/Jobs/Runner.lean
  Subject:   Any number of runners over one `background_jobs` table (crates/jobs/src/runner.rs).

  A runner claims due jobs and performs each on a task of its own; the task's outcome is written once
  it has one, or never. Meanwhile leases are extended, expire and are recovered, by any runner. Every
  write is one step; between two of them anything else may happen.

  A claim is known by its place in the history. What a heartbeat or a sweep takes to be performed is
  any list of ids, so that late and early views of that set are covered.

  * `JobSystem`, `JobAct`, `jobSystem` -- the runners and their steps;
  * `holder` -- the claim that holds a job, by the history;
  * `claimsSince`, `releasesSince` -- a job's claims and releases since its last fresh run;
  * `ClaimsIdle` -- a claim takes no job the runner is still performing.
-/
import Smartfire.Jobs.Store
import Smartfire.Lib.Runs

namespace Smartfire

open Lib

/-! ## 1. The runners -/

/-- A claimed job whose outcome is not written yet. -/
structure JobExecution where
  /-- The place in the history of the claim that started it. -/
  claim : Nat
  runner : String
  /-- The row as claimed. -/
  job : JobRow
deriving DecidableEq, Repr

/-- What a write did, for the record. -/
inductive JobEvent where
  | claimed (id : Nat) (runner : String)
  /-- An outcome was written to the row. -/
  | finished (id : Nat) (decision : Decision)
  | recovered (id : Nat)
  | released (id : Nat)
deriving DecidableEq, Repr

structure JobSystem where
  now : Int
  /-- The next row's id (`AUTOINCREMENT`). -/
  nextId : Nat
  rows : List JobRow
  executions : List JobExecution
  /-- Orphans listed and not recovered yet. -/
  listed : List JobRow
  /-- Runners that claim no more. -/
  stopped : List String
  history : List JobEvent

/-- A step of a runner, or of its surroundings. -/
inductive JobAct where
  | tick (by_ : Nat)
  | enqueue (queue jobClass arguments : String) (runAt : Int)
  | claim (runner queue : String) (concurrency limit : Nat) (lease : Nat)
  | heartbeat (runner : String) (ids : List Nat) (lease : Nat)
  /-- The `k`-th execution's outcome is written. -/
  | finish (k : Nat) (result : JobResult) (delay : Int)
  /-- The `k`-th execution ends with no outcome written. -/
  | drop (k : Nat)
  | orphans (runner : String) (performing : List Nat)
  /-- The `k`-th orphan listed is recovered. -/
  | recover (k : Nat)
  | stop (runner : String)
  | release (runner : String)
  | makeDue (queue jobClass : String) (chosen : RetryState → Bool)

namespace JobSystem

def empty : JobSystem := ⟨0, 1, [], [], [], [], []⟩

section Steps

-- the registry: how many attempts a class has
variable (policy : String → Option Nat) (s : JobSystem)

/-- A class without a handler isn't retried. -/
def policyAttempts (jobClass : String) : Nat := (policy jobClass).getD 1

/-- The claim of the jobs, in order. -/
def claimJobs (jobs : List JobRow) (runner : String) (lease : Nat) : JobSystem :=
  { s with
    rows := claim (jobs.map (·.id)) runner (s.now + lease) s.rows
    executions := s.executions ++ jobs.zipIdx.map fun (job, i) =>
      ⟨s.history.length + i, runner, job.claimedFor runner (s.now + lease)⟩
    history := s.history ++ jobs.map fun job => .claimed job.id runner }

/-- The rows after an outcome of the execution is written. -/
def decided (e : JobExecution) (decision : Decision) (arguments : Option RetryState) : List JobRow :=
  let rows := match arguments with
    | some arguments => setArguments e.job.id e.runner arguments s.rows
    | none => s.rows
  match decision with
  | .delete => deleteJob e.job.id e.runner rows
  | .reschedule wait error resetAttempts =>
    reschedule e.job.id e.runner (s.now + wait) error resetAttempts rows
  | .fail error => failJob e.job.id e.runner error s.now rows

/-- `finish`: the outcome is written where the row is still the runner's. -/
def finishJob (k : Nat) (e : JobExecution) (result : JobResult) (delay : Int) : JobSystem :=
  let (decision, arguments) :=
    decisionWithMetadata (policyAttempts policy e.job.jobClass) e.job result delay
  let owned := s.rows.any (·.isHeld e.job.id e.runner)
  { s with
    rows := s.decided e decision arguments
    executions := s.executions.eraseIdx k
    history := if owned then s.history ++ [.finished e.job.id decision] else s.history }

/-- The text of a recovered job's error. -/
def recoveredError (interrupted attempts : Nat) : String :=
  "the process performing it stopped (execution " ++ toString interrupted ++ " of " ++
    toString attempts ++ ")"

def recoverJob (k : Nat) (orphan : JobRow) : JobSystem :=
  let attempts := policyAttempts policy orphan.jobClass
  let interrupted := orphan.arguments.interruptedExecutions orphan.attempts
  let taken := s.rows.any fun row => row.id = orphan.id && row.expired s.now
  { s with
    rows := recover orphan.id (interrupted < attempts) (recoveredError interrupted attempts) s.now s.rows
    listed := s.listed.eraseIdx k
    history := if taken then s.history ++ [.recovered orphan.id] else s.history }

def releaseJobs (runner : String) : JobSystem :=
  { s with
    rows := release runner s.now s.rows
    history := s.history ++ (s.rows.filter (·.heldBy runner)).map fun row => .released row.id }

def step : JobAct → Option JobSystem
  | .tick n => some { s with now := s.now + n }
  | .enqueue queue jobClass arguments runAt =>
    some { s with
      nextId := s.nextId + 1
      rows := s.rows ++ [newJob s.nextId queue jobClass ⟨arguments, []⟩ runAt] }
  | .claim runner queue concurrency limit lease =>
    if runner ∈ s.stopped then none
    else some (s.claimJobs (claimable queue concurrency limit s.now s.rows) runner lease)
  | .heartbeat runner ids lease => some { s with rows := Smartfire.heartbeat runner ids (s.now + lease) s.rows }
  | .finish k result delay => (s.executions[k]?).map fun e => s.finishJob policy k e result delay
  | .drop k => some { s with executions := s.executions.eraseIdx k }
  | .orphans runner performing =>
    some { s with listed := s.listed ++ Smartfire.orphans runner performing s.now s.rows }
  | .recover k => (s.listed[k]?).map fun orphan => s.recoverJob policy k orphan
  | .stop runner => some { s with stopped := runner :: s.stopped }
  | .release runner => if runner ∈ s.stopped then some (s.releaseJobs runner) else none
  | .makeDue queue jobClass chosen =>
    some { s with rows := Smartfire.makeDue queue jobClass chosen s.now s.rows }

end Steps

end JobSystem

/-- The runners, under any order of steps. -/
def jobSystem (policy : String → Option Nat) : System JobSystem JobAct where
  start s := s = .empty
  step := JobSystem.step policy

/-! ## 2. By the history -/

namespace JobEvent

/-- The job the event is about. -/
def id : JobEvent → Nat
  | claimed id _ | finished id _ | recovered id | released id => id

/-- Whether the event makes the job's next execution its first. -/
def resets : JobEvent → Bool
  | finished _ (.reschedule _ _ true) => true
  | _ => false

def isClaim : JobEvent → Bool
  | claimed .. => true
  | _ => false

def isRelease : JobEvent → Bool
  | released _ => true
  | _ => false

end JobEvent

/-- Who holds the job after the event, with its place: a claim takes the job, anything else lets it
    go. -/
def holds (id : Nat) (held : Option (Nat × String)) (e : JobEvent × Nat) : Option (Nat × String) :=
  if e.1.id = id then
    match e.1 with
    | .claimed _ runner => some (e.2, runner)
    | _ => none
  else held

/-- The claim that holds the job, and its runner. -/
def holder (history : List JobEvent) (id : Nat) : Option (Nat × String) :=
  history.zipIdx.foldl (holds id) none

/-- The job's events since its last fresh run, newest first. -/
def sinceReset (history : List JobEvent) (id : Nat) : List JobEvent :=
  (history.reverse.filter (·.id = id)).takeWhile fun e => !e.resets

def claimsSince (history : List JobEvent) (id : Nat) : Nat := (sinceReset history id).countP (·.isClaim)

def releasesSince (history : List JobEvent) (id : Nat) : Nat :=
  (sinceReset history id).countP (·.isRelease)

/-- **A claim takes no job of which the runner still performs an earlier claim.** -/
def ClaimsIdle (s : JobSystem) : JobAct → Prop
  | .claim runner queue concurrency limit _ =>
    ∀ job ∈ claimable queue concurrency limit s.now s.rows,
      ∀ e ∈ s.executions, e.runner = runner → e.job.id ≠ job.id
  | _ => True

end Smartfire
