/-
  File:      Smartfire/Jobs/Store.lean
  Subject:   The `background_jobs` table and what becomes of a job (crates/jobs/src/store.rs,
             kind.rs, retry.rs, runner.rs `decide`, `decision_with_metadata`).

  Every statement is a conditional UPDATE or DELETE inside a write, so it is a function of the rows.
  A runner owns a row while the row is running and claimed by it.

  * `claim`, `heartbeat`, `delete`, `reschedule`, `fail`, `orphans`, `recover`, `release`, `makeDue`;
  * `Decision`, `decide`, `decisionWithMetadata` -- what becomes of a job after an execution.

  Arguments are kept as `retry::State` holds them; their JSON text is left out.
-/
import Mathlib.Algebra.Order.Ring.Int
import Mathlib.Data.List.Sort

namespace Smartfire

/-! ## 1. Rows -/

inductive JobStatus where
  | ready
  | running
  | failed
deriving DecidableEq, Repr

/-- `retry::State`: a job's arguments, with how often each retry group's error was met. -/
structure RetryState where
  arguments : String
  counts : List (String × Nat)
deriving DecidableEq, Repr

structure JobRow where
  id : Nat
  queue : String
  jobClass : String
  arguments : RetryState
  status : JobStatus
  attempts : Nat
  runAt : Int
  claimedBy : Option String
  leaseExpiresAt : Option Int
  lastError : Option String
  failedAt : Option Int
deriving DecidableEq, Repr

/-- The longest `last_error` kept, in bytes. -/
def errorLimit : Nat := 8 * 1024

/-- The characters that fit in so many bytes. -/
def takeBytes : Nat → List Char → List Char
  | _, [] => []
  | n, c :: cs => if c.utf8Size ≤ n then c :: takeBytes (n - c.utf8Size) cs else []

def truncate (error : String) : String :=
  if error.utf8ByteSize ≤ errorLimit then error else String.ofList (takeBytes errorLimit error.toList)

namespace JobRow

/-- `"status" = 'running' AND "claimed_by" = runner`. -/
def heldBy (runner : String) (row : JobRow) : Bool := row.status = .running ∧ row.claimedBy = some runner

/-- The row is `id`, held by `runner`. -/
def isHeld (id : Nat) (runner : String) (row : JobRow) : Bool := row.id = id && row.heldBy runner

/-- `"status" = 'running' AND "lease_expires_at" <= now`. -/
def expired (now : Int) (row : JobRow) : Bool :=
  row.status = .running && row.leaseExpiresAt.any fun lease => lease ≤ now

end JobRow

/-! ## 2. Statements -/

/-- `UPDATE … SET f WHERE p`. -/
def updateWhere (p : JobRow → Bool) (f : JobRow → JobRow) (rows : List JobRow) : List JobRow :=
  rows.map fun row => if p row then f row else row

def newJob (id : Nat) (queue jobClass : String) (arguments : RetryState) (runAt : Int) : JobRow :=
  { id, queue, jobClass, arguments, status := .ready, attempts := 0, runAt, claimedBy := none,
    leaseExpiresAt := none, lastError := none, failedAt := none }

/-- The due jobs of the queue, oldest due first. -/
def dueJobs (queue : String) (now : Int) (rows : List JobRow) : List JobRow :=
  (rows.filter fun row => row.status = .ready && row.queue = queue && row.runAt ≤ now).insertionSort
    fun a b => a.runAt < b.runAt ∨ a.runAt = b.runAt ∧ a.id ≤ b.id

/-- The jobs of the queue that run under live leases. -/
def liveJobs (queue : String) (now : Int) (rows : List JobRow) : Nat :=
  rows.countP fun row =>
    row.status = .running && row.queue = queue && row.leaseExpiresAt.any fun lease => now < lease

/-- The jobs a claim takes. -/
def claimable (queue : String) (concurrency limit : Nat) (now : Int) (rows : List JobRow) :
    List JobRow :=
  (dueJobs queue now rows).take (min limit (concurrency - liveJobs queue now rows))

/-- The row as its claim leaves it. -/
def JobRow.claimedFor (runner : String) (leaseUntil : Int) (row : JobRow) : JobRow :=
  { row with
    status := .running
    claimedBy := some runner
    leaseExpiresAt := some leaseUntil
    attempts := row.attempts + 1 }

/-- The rows after the claim of the ids. -/
def claim (ids : List Nat) (runner : String) (leaseUntil : Int) (rows : List JobRow) : List JobRow :=
  updateWhere (fun row => row.status = .ready && ids.contains row.id) (.claimedFor runner leaseUntil)
    rows

/-- Makes the class's jobs with such arguments, in their initial hold, due now. -/
def makeDue (queue jobClass : String) (chosen : RetryState → Bool) (now : Int) (rows : List JobRow) :
    List JobRow :=
  updateWhere (fun row => row.status = .ready && row.queue = queue && row.jobClass = jobClass &&
    now < row.runAt && row.leaseExpiresAt.isNone && row.attempts = 0 && chosen row.arguments)
    (fun row => { row with runAt := now }) rows

/-- Deletes a job `runner` still holds. -/
def deleteJob (id : Nat) (runner : String) (rows : List JobRow) : List JobRow :=
  rows.filter fun row => !row.isHeld id runner

/-- Puts a job `runner` holds back in its queue, due at `runAt`. -/
def reschedule (id : Nat) (runner : String) (runAt : Int) (error : Option String)
    (resetAttempts : Bool) (rows : List JobRow) : List JobRow :=
  updateWhere (·.isHeld id runner) (fun row =>
    { row with
      status := .ready
      runAt
      claimedBy := none
      lastError := (error.map truncate).or row.lastError
      attempts := if resetAttempts then 0 else row.attempts }) rows

/-- Marks a job `runner` holds as failed for good. -/
def failJob (id : Nat) (runner error : String) (now : Int) (rows : List JobRow) : List JobRow :=
  updateWhere (·.isHeld id runner) (fun row =>
    { row with
      status := .failed
      failedAt := some now
      lastError := some (truncate error)
      claimedBy := none }) rows

/-- Writes the arguments of a job `runner` holds. -/
def setArguments (id : Nat) (runner : String) (arguments : RetryState) (rows : List JobRow) :
    List JobRow :=
  updateWhere (·.isHeld id runner) (fun row => { row with arguments }) rows

/-- Extends the leases of the jobs `runner` is performing. -/
def heartbeat (runner : String) (ids : List Nat) (leaseUntil : Int) (rows : List JobRow) :
    List JobRow :=
  updateWhere (fun row => row.heldBy runner && ids.contains row.id)
    (fun row => { row with leaseExpiresAt := some leaseUntil }) rows

/-- Running jobs whose lease has expired, other than those `runner` is still performing. -/
def orphans (runner : String) (performing : List Nat) (now : Int) (rows : List JobRow) : List JobRow :=
  rows.filter fun row => row.expired now && !(row.claimedBy = some runner && performing.contains row.id)

/-- Takes an orphan back: due again now, or failed for good. -/
def recover (id : Nat) (retry : Bool) (error : String) (now : Int) (rows : List JobRow) :
    List JobRow :=
  updateWhere (fun row => row.id = id && row.expired now) (fun row =>
    if retry then
      { row with status := .ready, runAt := now, claimedBy := none, lastError := some error }
    else
      { row with status := .failed, failedAt := some now, claimedBy := none, lastError := some error })
    rows

/-- Hands back the jobs `runner` still holds, without counting the interrupted execution. -/
def release (runner : String) (now : Int) (rows : List JobRow) : List JobRow :=
  updateWhere (·.heldBy runner) (fun row =>
    { row with status := .ready, runAt := now, claimedBy := none, attempts := row.attempts - 1 }) rows

/-! ## 3. What becomes of a job -/

/-- What an execution comes to. -/
inductive JobResult where
  | done
  | again (wait : Int)
  /-- Retried where the class's `retry_on` matches it. -/
  | error (message : String) (retryOn : Bool)
  | retry (message : String)
  | retryGroup (message key : String) (attempts : Nat) (discardExhausted : Bool)
  | discard (message : String)
  | fail (message : String)
deriving DecidableEq, Repr

/-- What becomes of a job after an execution. -/
inductive Decision where
  /-- Done or discarded: the row goes. -/
  | delete
  /-- Due again after `wait`: a retry, or a fresh run. -/
  | reschedule (wait : Int) (error : Option String) (resetAttempts : Bool)
  | fail (error : String)
deriving DecidableEq, Repr

/-- `RetryPolicy::retry_delay`: `delay` is the wait the policy and the jitter make, unless the attempts
    are used up. -/
def retryDelay (attempts executions : Nat) (delay : Int) : Option Int :=
  if max attempts 1 ≤ executions then none else some delay

/-- `decide`, for a class with so many attempts. -/
def decideJob (attempts executions : Nat) (result : JobResult) (delay : Int) : Decision :=
  match result with
  | .done => .delete
  | .again wait => .reschedule wait none true
  | .discard _ => .delete
  | .fail message => .fail message
  | .retryGroup message _ groupAttempts discardExhausted =>
    match retryDelay groupAttempts executions delay with
    | some wait => .reschedule wait (some message) false
    | none => if discardExhausted then .delete else .fail message
  | .retry message =>
    match retryDelay attempts executions delay with
    | some wait => .reschedule wait (some message) false
    | none => .fail message
  | .error message retryOn =>
    match if retryOn then retryDelay attempts executions delay else none with
    | some wait => .reschedule wait (some message) false
    | none => .fail message

namespace RetryState

/-- The largest `u32`. -/
def countLimit : Nat := 2 ^ 32 - 1

def count (state : RetryState) (key : String) : Nat := (state.counts.lookup key).getD 0

/-- `State::increment`: the group's count, one more, and the state with it. -/
def increment (state : RetryState) (key : String) : RetryState × Nat :=
  let n := min (state.count key + 1) countLimit
  ({ state with counts := (key, n) :: state.counts.filter (·.1 ≠ key) }, n)

/-- `State::interrupted_executions`. -/
def interruptedExecutions (state : RetryState) (total : Nat) : Nat :=
  total - state.counts.foldl (fun sum group => min (sum + group.2) countLimit) 0

end RetryState

/-- `decision_with_metadata`: the decision, and the arguments to write with it. -/
def decisionWithMetadata (attempts : Nat) (job : JobRow) (result : JobResult) (delay : Int) :
    Decision × Option RetryState :=
  match result with
  | .retryGroup _ key _ _ =>
    let (state, count) := job.arguments.increment key
    (decideJob attempts count result delay, some state)
  | .again _ =>
    if job.arguments.counts ≠ [] then
      (decideJob attempts job.attempts result delay, some { job.arguments with counts := [] })
    else (decideJob attempts job.attempts result delay, none)
  | _ => (decideJob attempts job.attempts result delay, none)

/-- The results that delete the row of their job. -/
def JobResult.Deletes (job : JobRow) : JobResult → Prop
  | done | discard _ => True
  | retryGroup _ key attempts discardExhausted =>
    discardExhausted = true ∧ max attempts 1 ≤ (job.arguments.increment key).2
  | _ => False

/-- **A row goes only for a result that is done or discarded**, or a group exhausted that discards. -/
theorem deletes_of_delete {attempts : Nat} {job : JobRow} {result : JobResult} {delay : Int}
    (h : (decisionWithMetadata attempts job result delay).1 = .delete) : result.Deletes job := by
  cases result with
  | done | discard => trivial
  | again wait =>
    simp only [decisionWithMetadata] at h
    split at h <;> cases h
  | fail => cases h
  | retry message =>
    simp only [decisionWithMetadata, decideJob] at h
    split at h <;> cases h
  | error message retryOn =>
    simp only [decisionWithMetadata, decideJob] at h
    split at h <;> cases h
  | retryGroup message key groupAttempts discardExhausted =>
    simp only [decisionWithMetadata, decideJob] at h
    split at h
    · cases h
    · next hnone =>
      unfold retryDelay at hnone
      split at hnone
      · next hle =>
        cases discardExhausted with
        | true => exact ⟨rfl, hle⟩
        | false => cases h
      · cases hnone

end Smartfire
