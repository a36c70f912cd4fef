/-
  File:      Smartfire/Db/Write.lean
  Subject:   A whole write (crates/db/src/database.rs `run_write`).

  BEGIN, the program, the preparations it registered and those these register, what the queue persists,
  COMMIT; then the finalizers, the queue and the settled broadcasts. An error before COMMIT rolls back.

  * `prepareCommit`, `persistCallbacks`, `runCallbacks` -- the phases;
  * `finishWrite`, `runWrite` -- what a write answers, whether it committed, the rows and what it showed;
  * `prepareCommit_drained` -- the rounds end with nothing left to prepare;
  * `runWrite_rolledBack` -- a write that does not commit leaves the rows alone and shows nothing deferred;
  * `TxFrame`, `resume`, `finishWrite_since` -- the rest of a run, and what it does not depend on;
  * `Tx.left`, `NotEntered` -- what a savepoint that fails leaves, and how the run goes on from there.

  A callback's own further write (`write_after_commit`) and panics are left out.
-/
import Smartfire.Db.Tx

namespace Smartfire

universe u v w

variable {Db : Type u} {E : Type v} {ε : Type w} [DecidableEq E]

/-! ## 1. Before COMMIT -/

/-- Takes the slot of the first of its kind, or the next one. -/
def putLatest {α : Type u} (same : α → α → Bool) (item : α) : List α → List α
  | [] => [item]
  | first :: rest => if same first item then item :: rest else first :: putLatest same item rest

/-- Of each kind the last registration, in the slot of the first. -/
def latest {α : Type u} (same : α → α → Bool) (items : List α) : List α :=
  items.foldl (fun pending item => putLatest same item pending) []

omit [DecidableEq E] in
def CommitPreparation.same (a b : CommitPreparation Db E ε) : Bool := a.key = b.key && a.id = b.id

def runPreparations (env : TxEnv Db E ε) :
    List (CommitPreparation Db E ε) → Tx Db E ε → Except ε Unit × Tx Db E ε
  | [], tx => (.ok (), tx)
  | preparation :: rest, tx =>
    match exec env preparation.hook tx with
    | (.ok _, after) => runPreparations env rest after
    | (.error error, after) => (.error error, after)

/-- How deep preparations register preparations. -/
def TxProgram.prepares : TxProgram Db E ε → Nat
  | .ok => 0
  | .fail _ => 0
  | .change _ next => next.prepares
  | .branch _ yes no => max yes.prepares no.prepares
  | .savepoint body next => max body.prepares next.prepares
  | .rescue body next handler => max body.prepares (max next.prepares handler.prepares)
  | .op _ next => next.prepares
  | .afterCommit _ next => next.prepares
  | .afterCommitRecord _ _ _ next => next.prepares
  | .afterCommitRecordLatest _ _ _ next => next.prepares
  | .beforeCommitRecordLatest _ _ hook next => max (hook.prepares + 1) next.prepares

/-- Rounds that suffice for the preparations queued. -/
def Tx.rounds (tx : Tx Db E ε) : Nat :=
  (tx.commitPreparations.map fun preparation => preparation.hook.prepares + 1).foldr max 0

/-- `prepare_commit`, with a bound on its rounds. -/
def prepareCommit (env : TxEnv Db E ε) : Nat → Tx Db E ε → Except ε Unit × Tx Db E ε
  | 0, tx => (.ok (), tx)
  | rounds + 1, tx =>
    if tx.commitPreparations.isEmpty then (.ok (), tx)
    else
      match runPreparations env (latest CommitPreparation.same tx.commitPreparations)
          { tx with commitPreparations := [] } with
      | (.ok _, after) => prepareCommit env rounds after
      | (.error error, after) => (.error error, after)

/-- The same record's callback. -/
def AfterCommit.sameHook : AfterCommit Db E ε → AfterCommit Db E ε → Bool
  | .recordHook key id _, .recordHook key' id' _ => key = key' && id = id'
  | _, _ => false

/-- The record survives, and its job's condition holds. -/
def shouldEnqueue (env : TxEnv Db E ε) (table : String) (id : Int)
    (condition : Option (Db → Int → Except ε Bool)) (db : Db) : Except ε Bool :=
  match env.survives table id db, condition with
  | .ok true, some test => test db id
  | survives, _ => survives

/-- A record's job is persisted, or dropped where it should not be enqueued. -/
def persistCallback (env : TxEnv Db E ε) (db : Db) :
    AfterCommit Db E ε → Except ε (AfterCommit Db E ε × Db)
  | .recordJob table id event condition =>
    match shouldEnqueue env table id condition db, event with
    | .error error, _ => .error error
    | .ok false, _ => .ok (.recordJob table id none condition, db)
    | .ok true, none => .ok (.recordJob table id none condition, db)
    | .ok true, some job =>
      match env.persist job db with
      | (.ok _, db) => .ok (.recordJob table id (some job) condition, db)
      | (.error error, _) => .error error
  | item => .ok (item, db)

def persistCallbacks (env : TxEnv Db E ε) :
    List (AfterCommit Db E ε) → Db → Except ε (List (AfterCommit Db E ε) × Db)
  | [], db => .ok ([], db)
  | item :: queue, db =>
    match persistCallback env db item with
    | .error error => .error error
    | .ok (item, db) =>
      match persistCallbacks env queue db with
      | .error error => .error error
      | .ok (queue, db) => .ok (item :: queue, db)

/-! ## 2. After COMMIT -/

def AfterCommit.settled? : AfterCommit Db E ε → Option E
  | .settledBroadcast e => some e
  | _ => none

/-- Queue rows were persisted before COMMIT: their runner is woken even where a callback failed. -/
def wakeCommittedJob (env : TxEnv Db E ε) (after : Tx Db E ε) : AfterCommit Db E ε → Tx Db E ε
  | .recordJob _ _ (some event) _ => after.emit (.emitted event)
  | .event event => if env.isJob event then after.emit (.emitted event) else after
  | _ => after

def runHook (env : TxEnv Db E ε) (hook : TxProgram Db E ε) (after : Tx Db E ε) : Except ε Unit × Tx Db E ε :=
  exec env hook (after.emit .callback)

def runHooks (env : TxEnv Db E ε) : List (TxProgram Db E ε) → Tx Db E ε → Except ε Unit × Tx Db E ε
  | [], after => (.ok (), after)
  | hook :: hooks, after =>
    match runHook env hook after with
    | (.ok _, after) => runHooks env hooks after
    | (.error error, after) => (.error error, after)

def runCallback (env : TxEnv Db E ε) (after : Tx Db E ε) : AfterCommit Db E ε → Except ε Unit × Tx Db E ε
  | .recordJob _ _ (some event) _ => (.ok (), after.emit (.emitted event))
  | .recordJob _ _ none _ => (.ok (), after)
  | .event event => (.ok (), after.emit (.emitted event))
  | .recordBroadcast table id event =>
    match env.survives table id after.db with
    | .ok true => (.ok (), after.emit (.emitted event))
    -- a failed query is only logged
    | _ => (.ok (), after)
  | .recordHook _ _ hook => runHook env hook after
  | .recordHooks _ _ hooks => runHooks env hooks after
  | .hook hook => runHook env hook after
  -- collected after COMMIT
  | .settledBroadcast _ => (.ok (), after)

def runCallbacks (env : TxEnv Db E ε) : List (AfterCommit Db E ε) → Tx Db E ε → Except ε Unit × Tx Db E ε
  | [], after => (.ok (), after)
  | item :: queue, after =>
    match runCallback env after item with
    | (.ok _, after) => runCallbacks env queue after
    | (.error error, after) => (.error error, queue.foldl (wakeCommittedJob env) after)

/-! ## 3. The write -/

structure WriteResult (Db : Type u) (E : Type v) (ε : Type w) where
  answer : Except ε Unit
  committed : Bool
  db : Db
  trace : List (TxEffect E)

/-- ROLLBACK: the rows as BEGIN found them. Its `flush_settled_broadcasts` is left out: nothing has entered the
    collection before COMMIT. -/
def WriteResult.rollback (began : Db) (error : ε) (trace : List (TxEffect E)) : WriteResult Db E ε :=
  ⟨.error error, false, began, trace⟩

/-- From COMMIT on, with the rows committed. -/
def afterCommit (env : TxEnv Db E ε) (queue : List (AfterCommit Db E ε)) (db : Db) (tx : Tx Db E ε) :
    WriteResult Db E ε :=
  let tx := (queue.filterMap AfterCommit.settled?).foldl Tx.collectSettledBroadcast tx
  let queue := queue.filter (·.settled?.isNone)
  let tx := tx.commitFinalizers.foldl (fun tx finalizer => tx.emit (.finalized finalizer)) tx
  let (answer, after) := runCallbacks env queue (.fresh db tx.settledBroadcasts tx.trace)
  -- `flush_settled_broadcasts`, whatever the answer
  ⟨answer, true, after.db, after.trace ++ after.settledBroadcasts.map .emitted⟩

/-- From the end of the preparations on. -/
def commitWrite (env : TxEnv Db E ε) (began : Db) (tx : Tx Db E ε) : WriteResult Db E ε :=
  match tx.persistError with
  | some error => .rollback began error tx.trace
  | none =>
    match persistCallbacks env (latest AfterCommit.sameHook tx.afterCommit) tx.db with
    | .error error => .rollback began error tx.trace
    | .ok (queue, db) =>
      match env.commit db with
      | .error error => .rollback began error tx.trace
      | .ok _ => afterCommit env queue db tx

/-- From the end of the program, or of a preparation with `pending` ones behind it, on. -/
def finishWrite (env : TxEnv Db E ε) (began : Db) (pending : List (CommitPreparation Db E ε)) :
    Except ε Unit × Tx Db E ε → WriteResult Db E ε
  | (.error error, tx) => .rollback began error tx.trace
  | (.ok _, tx) =>
    match runPreparations env pending tx with
    | (.error error, tx) => .rollback began error tx.trace
    | (.ok _, tx) =>
      match prepareCommit env tx.rounds tx with
      | (.error error, tx) => .rollback began error tx.trace
      | (.ok _, tx) => commitWrite env began tx

def Tx.begin (db : Db) : Tx Db E ε := ⟨db, true, [], [], [], [], none, []⟩

def runWrite (env : TxEnv Db E ε) (began : Db) (program : TxProgram Db E ε) : WriteResult Db E ε :=
  match env.start began with
  | .error error => .rollback began error []
  | .ok _ => finishWrite env began [] (exec env program (.begin began))

/-! ## 4. The rounds end -/

section Rounds

variable {env : TxEnv Db E ε} {tx : Tx Db E ε} {n : Nat}

theorem mem_putLatest {α : Type u} {same : α → α → Bool} {item a : α} {items : List α}
    (h : a ∈ putLatest same item items) : a = item ∨ a ∈ items := by
  induction items with
  | nil => simpa [putLatest] using h
  | cons first rest ih =>
    unfold putLatest at h
    split at h
    · simp only [List.mem_cons] at h ⊢; tauto
    · simp only [List.mem_cons] at h ⊢; tauto

theorem mem_of_mem_latest {α : Type u} {same : α → α → Bool} {a : α} {items : List α}
    (h : a ∈ latest same items) : a ∈ items := by
  suffices hfold : ∀ pending, a ∈ items.foldl (fun pending item => putLatest same item pending) pending →
      a ∈ pending ∨ a ∈ items from (hfold [] h).resolve_left (List.not_mem_nil)
  clear h
  induction items with
  | nil => exact fun pending h => .inl h
  | cons item items ih =>
    intro pending h
    rcases ih _ h with h | h
    · rcases mem_putLatest h with rfl | h
      · exact .inr List.mem_cons_self
      · exact .inl h
    · exact .inr (List.mem_cons_of_mem _ h)

/-- Every preparation queued goes less than `n` deep. -/
def Tx.PreparesBelow (tx : Tx Db E ε) (n : Nat) : Prop :=
  ∀ preparation ∈ tx.commitPreparations, preparation.hook.prepares < n

omit [DecidableEq E] in
theorem commitPreparations_persist (event : E) :
    (tx.persist env event).2.commitPreparations = tx.commitPreparations := by
  unfold Tx.persist
  split <;> rfl

theorem commitPreparations_apply (o : TxOp Db E ε) :
    (tx.apply env o).commitPreparations = tx.commitPreparations := by
  have hpersist : ∀ event, (tx.persist env event).2.commitPreparations = tx.commitPreparations :=
    fun _ => commitPreparations_persist _
  have hemit : ∀ event, (tx.emitAfterCommit env event).commitPreparations = tx.commitPreparations := by
    intro event
    unfold Tx.emitAfterCommit
    have := hpersist event
    grind [Tx.push, Tx.emit]
  cases o with
  | emitNow event =>
    have := hpersist event
    grind [Tx.apply, Tx.emitNow, Tx.emit]
  | emitAfterCommit event => exact hemit event
  | emitRecordJobOnceIf table id event condition =>
    grind [Tx.apply, Tx.emitRecordJobOnceIf, Tx.push]
  | emitBroadcastOnce table id event =>
    have := hpersist event
    grind [Tx.apply, Tx.emitBroadcastOnce, Tx.push, Tx.emit]
  | broadcastAfterCommitOnce event => grind [Tx.apply, Tx.broadcastAfterCommitOnce]
  | broadcastAfterCommitSettledOnce event =>
    have := hpersist event
    grind [Tx.apply, Tx.broadcastAfterCommitSettledOnce, Tx.push, Tx.collectSettledBroadcast]
  | registerRecord table id => grind [Tx.apply, Tx.registerRecord, Tx.push]
  | onCommitSuccess finalizer => grind [Tx.apply, Tx.onCommitSuccess, Tx.emit]

omit [DecidableEq E] in
theorem Tx.PreparesBelow.undo {after : Tx Db E ε} (h : tx.PreparesBelow n) (hextends : tx.Extends after) :
    (tx.undo after).PreparesBelow n := by
  rw [hextends.undo]
  exact h

/-- What a program registers goes less deep than the program. -/
theorem Tx.PreparesBelow.exec {program : TxProgram Db E ε} (hprogram : program.prepares ≤ n)
    (h : tx.PreparesBelow n) : (exec env program tx).2.PreparesBelow n := by
  induction program generalizing tx with
  | ok => exact h
  | fail error => exact h
  | change f next ih =>
    unfold Smartfire.exec
    split
    · exact ih hprogram h
    · exact h
  | branch test yes no ihyes ihno =>
    obtain ⟨hyes, hno⟩ := Nat.max_le.1 hprogram
    unfold Smartfire.exec
    split
    · exact ihyes hyes h
    · exact ihno hno h
  | savepoint body next ihbody ihnext =>
    obtain ⟨hbody, hnext⟩ := Nat.max_le.1 hprogram
    have hran := ihbody hbody h
    have hextends := extends_exec env body tx
    unfold Smartfire.exec
    generalize Smartfire.exec env body tx = ran at hran hextends ⊢
    obtain ⟨answer, after⟩ := ran
    cases answer with
    | ok _ => exact ihnext hnext hran
    | error error => exact h.undo hextends
  | rescue body next handler ihbody ihnext ihhandler =>
    obtain ⟨hbody, hrest⟩ := Nat.max_le.1 hprogram
    obtain ⟨hnext, hhandler⟩ := Nat.max_le.1 hrest
    have hran := ihbody hbody h
    have hextends := extends_exec env body tx
    unfold Smartfire.exec
    generalize Smartfire.exec env body tx = ran at hran hextends ⊢
    obtain ⟨answer, after⟩ := ran
    cases answer with
    | ok _ => exact ihnext hnext hran
    | error error => exact ihhandler hhandler (h.undo hextends)
  | op o next ih =>
    refine ih hprogram ?_
    rw [PreparesBelow, commitPreparations_apply]
    exact h
  | afterCommit hook next _ ih =>
    unfold Smartfire.exec
    split
    · exact ih hprogram h
    · exact ih hprogram h
  | afterCommitRecord table id hook next _ ih =>
    unfold Smartfire.exec
    split
    · refine ih hprogram ?_
      have hsame : (tx.addRecordHook table id hook).commitPreparations = tx.commitPreparations := by
        grind [addRecordHook, registerRecord, push]
      rw [PreparesBelow, hsame]
      exact h
    · exact ih hprogram h
  | afterCommitRecordLatest key id hook next _ ih =>
    unfold Smartfire.exec
    split
    · exact ih hprogram h
    · exact ih hprogram h
  | beforeCommitRecordLatest key id hook next ihhook ih =>
    obtain ⟨hhook, hnext⟩ := Nat.max_le.1 hprogram
    have hran := ihhook (Nat.le_of_lt hhook) h
    unfold Smartfire.exec
    split
    · refine ih hnext fun preparation hmem => ?_
      rcases List.mem_append.1 hmem with hold | hnew
      · exact h preparation hold
      · rw [List.mem_singleton.1 hnew]; exact hhook
    · generalize Smartfire.exec env hook tx = ran at hran ⊢
      obtain ⟨answer, after⟩ := ran
      cases answer with
      | ok _ => exact ih hnext hran
      | error error => exact hran

theorem Tx.PreparesBelow.runPreparations {pending : List (CommitPreparation Db E ε)}
    (hpending : ∀ preparation ∈ pending, preparation.hook.prepares ≤ n) (h : tx.PreparesBelow n) :
    (runPreparations env pending tx).2.PreparesBelow n := by
  induction pending generalizing tx with
  | nil => exact h
  | cons preparation rest ih =>
    have hran : (Smartfire.exec env preparation.hook tx).2.PreparesBelow n :=
      .exec (hpending preparation List.mem_cons_self) h
    unfold Smartfire.runPreparations
    split
    · next after heq =>
      rw [heq] at hran
      exact ih (fun p hp => hpending p (List.mem_cons_of_mem _ hp)) hran
    · next after heq => rw [heq] at hran; exact hran

/-- Each round goes less deep than the one before. -/
theorem prepareCommit_below {after : Tx Db E ε} (h : tx.PreparesBelow n)
    (hran : prepareCommit env n tx = (.ok (), after)) : after.commitPreparations = [] := by
  induction n generalizing tx with
  | zero =>
    obtain ⟨-, rfl⟩ := Prod.mk.injEq .. ▸ hran
    exact List.eq_nil_iff_forall_not_mem.2 fun preparation hmem => absurd (h preparation hmem) (Nat.not_lt_zero _)
  | succ n ih =>
    unfold prepareCommit at hran
    split at hran
    · next hnil =>
      obtain ⟨-, rfl⟩ := Prod.mk.injEq .. ▸ hran
      exact List.isEmpty_iff.1 hnil
    · have hround : (runPreparations env (latest CommitPreparation.same tx.commitPreparations)
          { tx with commitPreparations := [] }).2.PreparesBelow n :=
        .runPreparations (fun preparation hmem => Nat.le_of_lt_succ (h preparation (mem_of_mem_latest hmem)))
          (fun _ hmem => absurd hmem List.not_mem_nil)
      split at hran
      · next after heq => rw [heq] at hround; exact ih hround hran
      · cases hran

omit [DecidableEq E] in
theorem preparesBelow_rounds (tx : Tx Db E ε) : tx.PreparesBelow tx.rounds := by
  unfold Tx.PreparesBelow Tx.rounds
  generalize tx.commitPreparations = preparations
  induction preparations with
  | nil => simp
  | cons first rest ih =>
    intro preparation hmem
    simp only [List.map_cons, List.foldr_cons]
    rcases List.mem_cons.1 hmem with rfl | hmem
    · omega
    · have := ih preparation hmem; omega

/-- **The rounds suffice**: preparations that all went through leave none. -/
theorem prepareCommit_drained {after : Tx Db E ε} (hran : prepareCommit env tx.rounds tx = (.ok (), after)) :
    after.commitPreparations = [] := prepareCommit_below (preparesBelow_rounds tx) hran

end Rounds

/-! ## 5. A write that does not commit -/

section RolledBack

variable {env : TxEnv Db E ε} {tx tx' tx'' : Tx Db E ε}

/-- Still in the transaction, and only what is emitted right away was shown. -/
structure Tx.ShowsNow (tx tx' : Tx Db E ε) : Prop where
  inTransaction : tx'.inTransaction = true
  trace : ∃ events : List E, tx'.trace = tx.trace ++ events.map .now
  persistError : ∀ error, tx.persistError = some error → tx'.persistError = some error

omit [DecidableEq E] in
theorem Tx.ShowsNow.refl (hin : tx.inTransaction = true) : tx.ShowsNow tx :=
  ⟨hin, ⟨[], by simp⟩, fun _ h => h⟩

omit [DecidableEq E] in
theorem Tx.ShowsNow.trans (h : tx.ShowsNow tx') (h' : tx'.ShowsNow tx'') : tx.ShowsNow tx'' := by
  obtain ⟨events, he⟩ := h.trace
  obtain ⟨events', he'⟩ := h'.trace
  exact ⟨h'.inTransaction, ⟨events ++ events', by rw [he', he, List.map_append, List.append_assoc]⟩,
    fun error herror => h'.persistError error (h.persistError error herror)⟩

omit [DecidableEq E] in
theorem Tx.Extends.showsNow (h : tx.Extends tx') (hin : tx.inTransaction = true) : tx.ShowsNow tx' :=
  ⟨h.inTransaction.trans hin, h.trace hin, h.persistError⟩

theorem showsNow_runPreparations (env : TxEnv Db E ε) (pending : List (CommitPreparation Db E ε)) (hin : tx.inTransaction = true) :
    tx.ShowsNow (runPreparations env pending tx).2 := by
  induction pending generalizing tx with
  | nil => exact .refl hin
  | cons preparation rest ih =>
    have hran := (extends_exec env preparation.hook tx).showsNow hin
    unfold runPreparations
    split
    · next after heq => rw [heq] at hran; exact hran.trans (ih hran.inTransaction)
    · next after heq => rw [heq] at hran; exact hran

theorem showsNow_prepareCommit (env : TxEnv Db E ε) (rounds : Nat) (hin : tx.inTransaction = true) :
    tx.ShowsNow (prepareCommit env rounds tx).2 := by
  induction rounds generalizing tx with
  | zero => exact .refl hin
  | succ rounds ih =>
    unfold prepareCommit
    split
    · exact .refl hin
    · have hround : tx.ShowsNow (runPreparations env (latest CommitPreparation.same tx.commitPreparations)
          { tx with commitPreparations := [] }).2 := by
        have htaken : tx.ShowsNow { tx with commitPreparations := [] } :=
          ⟨hin, ⟨[], by simp⟩, fun _ h => h⟩
        exact htaken.trans (showsNow_runPreparations env _ hin)
      split
      · next after heq => rw [heq] at hround; exact hround.trans (ih hround.inTransaction)
      · next after heq => rw [heq] at hround; exact hround

/-- The write failed, the rows are as they were, and all that was shown since is `.now`. -/
structure WriteResult.RolledBack (began : Db) (shown : List (TxEffect E)) (r : WriteResult Db E ε) : Prop where
  answer : ∃ error, r.answer = .error error
  db : r.db = began
  trace : ∃ events : List E, r.trace = shown ++ events.map .now

omit [DecidableEq E] in
theorem rolledBack_rollback (began : Db) (error : ε) (h : tx.ShowsNow tx') :
    (WriteResult.rollback began error tx'.trace).RolledBack began tx.trace :=
  ⟨⟨error, rfl⟩, rfl, h.trace⟩

theorem commitWrite_rolledBack {began : Db} (h : tx.ShowsNow tx')
    (hnot : (commitWrite env began tx').committed = false) :
    (commitWrite env began tx').RolledBack began tx.trace := by
  unfold commitWrite at hnot ⊢
  split
  · exact rolledBack_rollback began _ h
  · next hpersisted =>
    rw [hpersisted] at hnot
    split
    · exact rolledBack_rollback began _ h
    · next queue db hqueue =>
      simp only [hqueue] at hnot
      split
      · exact rolledBack_rollback began _ h
      · next hcommit =>
        -- past COMMIT the result says so
        simp only [hcommit] at hnot
        exact absurd hnot (by simp [afterCommit])

/-- From any point of the transaction on. -/
theorem finishWrite_rolledBack {began : Db} {pending : List (CommitPreparation Db E ε)}
    {answer : Except ε Unit} (h : tx.ShowsNow tx')
    (hnot : (finishWrite env began pending (answer, tx')).committed = false) :
    (finishWrite env began pending (answer, tx')).RolledBack began tx.trace := by
  cases answer with
  | error error => exact rolledBack_rollback began error h
  | ok _ =>
    have hpending := h.trans (showsNow_runPreparations env pending h.inTransaction)
    simp only [finishWrite] at hnot ⊢
    generalize runPreparations env pending tx' = ran at hpending hnot ⊢
    obtain ⟨answer, ran⟩ := ran
    cases answer with
    | error error => exact rolledBack_rollback began error hpending
    | ok _ =>
      have hrounds := hpending.trans (showsNow_prepareCommit env ran.rounds hpending.inTransaction)
      simp only at hnot ⊢
      generalize prepareCommit env ran.rounds ran = prepared at hrounds hnot ⊢
      obtain ⟨answer, prepared⟩ := prepared
      cases answer with
      | error error => exact rolledBack_rollback began error hrounds
      | ok _ => exact commitWrite_rolledBack hrounds hnot

/-- **A write that does not commit** leaves the rows as BEGIN found them and has shown nothing but what it
emitted right away. -/
theorem runWrite_rolledBack {began : Db} {program : TxProgram Db E ε}
    (hnot : (runWrite env began program).committed = false) :
    (runWrite env began program).RolledBack began [] := by
  unfold runWrite at hnot ⊢
  split
  · exact ⟨⟨_, rfl⟩, rfl, [], rfl⟩
  · next hstart =>
    simp only [hstart] at hnot
    exact finishWrite_rolledBack ((extends_exec env program (.begin began)).showsNow rfl) hnot

end RolledBack

/-! ## 6. The rest of a run -/

/-- A savepoint that is open, and what is left to do once its body ends. -/
inductive TxFrame (Db : Type u) (E : Type v) (ε : Type w) where
  | savepoint (before : Tx Db E ε) (next : TxProgram Db E ε)
  | rescue (before : Tx Db E ε) (next handler : TxProgram Db E ε)

/-- One open savepoint whose body has ended. -/
def TxFrame.resume (env : TxEnv Db E ε) : TxFrame Db E ε → Except ε Unit × Tx Db E ε → Except ε Unit × Tx Db E ε
  | .savepoint _ next, (.ok _, after) => exec env next after
  | .savepoint before _, (.error error, after) => (.error error, before.undo after)
  | .rescue _ next _, (.ok _, after) => exec env next after
  | .rescue before _ handler, (.error _, after) => exec env handler (before.undo after)

/-- All that are open, the innermost first. -/
def resume (env : TxEnv Db E ε) (frames : List (TxFrame Db E ε)) (ran : Except ε Unit × Tx Db E ε) :
    Except ε Unit × Tx Db E ε := frames.foldl (fun ran frame => frame.resume env ran) ran

section Rest

variable (env : TxEnv Db E ε) (shown : List (TxEffect E)) (tx : Tx Db E ε)

theorem exec_savepoint (body next : TxProgram Db E ε) :
    exec env (.savepoint body next) tx = (TxFrame.savepoint tx next).resume env (exec env body tx) := by
  simp only [exec]
  split <;> next heq => rw [heq]; rfl

theorem exec_rescue (body next handler : TxProgram Db E ε) :
    exec env (.rescue body next handler) tx = (TxFrame.rescue tx next handler).resume env (exec env body tx) := by
  simp only [exec]
  split <;> next heq => rw [heq]; rfl

/-- What was shown or failed before. -/
def sinceRan (shown : List (TxEffect E)) (failed : Option ε) (ran : Except ε Unit × Tx Db E ε) :
    Except ε Unit × Tx Db E ε := (ran.1, ran.2.since shown failed)

theorem resume_since (failed : Option ε) (frames : List (TxFrame Db E ε)) (ran : Except ε Unit × Tx Db E ε) :
    resume env frames (sinceRan shown failed ran) = sinceRan shown failed (resume env frames ran) := by
  induction frames generalizing ran with
  | nil => rfl
  | cons frame frames ih =>
    have hframe : frame.resume env (sinceRan shown failed ran) = sinceRan shown failed (frame.resume env ran) := by
      obtain ⟨answer, after⟩ := ran
      cases frame with
      | savepoint before next => cases answer with
        | ok _ => exact exec_since env shown after next failed
        | error error => rfl
      | rescue before next handler => cases answer with
        | ok _ => exact exec_since env shown after next failed
        | error error => exact exec_since env shown (before.undo after) handler failed
    simp only [resume, List.foldl_cons, hframe]
    exact ih _

theorem runPreparations_since (pending : List (CommitPreparation Db E ε)) (failed : Option ε) :
    runPreparations env pending (tx.since shown failed) = sinceRan shown failed (runPreparations env pending tx) := by
  induction pending generalizing tx with
  | nil => rfl
  | cons preparation rest ih =>
    simp only [runPreparations, exec_since]
    match exec env preparation.hook tx with
    | (.ok _, after) => exact ih after
    | (.error error, after) => rfl

theorem prepareCommit_since (rounds : Nat) (failed : Option ε) :
    prepareCommit env rounds (tx.since shown failed) = sinceRan shown failed (prepareCommit env rounds tx) := by
  induction rounds generalizing tx with
  | zero => rfl
  | succ rounds ih =>
    have hround := runPreparations_since env shown { tx with commitPreparations := [] }
      (latest CommitPreparation.same tx.commitPreparations) failed
    unfold prepareCommit
    by_cases hnil : tx.commitPreparations.isEmpty = true
    · simp [hnil, sinceRan, Tx.since]
    · have hnil' : ¬ (tx.since shown failed).commitPreparations.isEmpty = true := hnil
      rw [if_neg hnil, if_neg hnil']
      change (match runPreparations env (latest CommitPreparation.same tx.commitPreparations)
        (Tx.since shown failed { tx with commitPreparations := [] }) with
        | (.ok _, after) => prepareCommit env rounds after
        | (.error error, after) => (.error error, after)) = _
      rw [hround]
      generalize runPreparations env (latest CommitPreparation.same tx.commitPreparations)
        { tx with commitPreparations := [] } = ran
      obtain ⟨answer, after⟩ := ran
      cases answer with
      | ok _ => exact ih after
      | error error => rfl

/-! ### Past COMMIT -/

theorem runHooks_since (hooks : List (TxProgram Db E ε)) :
    runHooks env hooks (tx.since shown none) = sinceRan shown none (runHooks env hooks tx) := by
  induction hooks generalizing tx with
  | nil => rfl
  | cons hook hooks ih =>
    simp only [runHooks, runHook, Tx.emit_since, exec_since]
    match exec env hook (tx.emit .callback) with
    | (.ok _, after) => exact ih after
    | (.error error, after) => rfl

theorem runCallback_since (item : AfterCommit Db E ε) :
    runCallback env (tx.since shown none) item = sinceRan shown none (runCallback env tx item) := by
  cases item with
  | recordJob table id event condition => cases event with
    | some event => simp only [runCallback, Tx.emit_since, sinceRan]
    | none => rfl
  | event event => simp only [runCallback, Tx.emit_since, sinceRan]
  | recordBroadcast table id event =>
    simp only [runCallback, Tx.db_since, Tx.emit_since]
    split <;> rfl
  | recordHook key id hook => simp only [runCallback, runHook, Tx.emit_since, exec_since, sinceRan]
  | recordHooks table id hooks => exact runHooks_since env shown tx hooks
  | hook hook => simp only [runCallback, runHook, Tx.emit_since, exec_since, sinceRan]
  | settledBroadcast event => rfl

omit [DecidableEq E] in
theorem wakeCommittedJob_since (queue : List (AfterCommit Db E ε)) :
    queue.foldl (wakeCommittedJob env) (tx.since shown none) =
      (queue.foldl (wakeCommittedJob env) tx).since shown none := by
  induction queue generalizing tx with
  | nil => rfl
  | cons item queue ih =>
    have hitem : wakeCommittedJob env (tx.since shown none) item =
        (wakeCommittedJob env tx item).since shown none := by
      unfold wakeCommittedJob
      split
      · exact Tx.emit_since ..
      · split
        · exact Tx.emit_since ..
        · rfl
      · rfl
    rw [List.foldl_cons, List.foldl_cons, hitem, ih]

theorem runCallbacks_since (queue : List (AfterCommit Db E ε)) :
    runCallbacks env queue (tx.since shown none) = sinceRan shown none (runCallbacks env queue tx) := by
  induction queue generalizing tx with
  | nil => rfl
  | cons item queue ih =>
    simp only [runCallbacks, runCallback_since, sinceRan]
    match runCallback env tx item with
    | (.ok _, after) => exact ih after
    | (.error error, after) => exact congrArg (Prod.mk _) (wakeCommittedJob_since env shown after queue)

/-- The same result, `shown` before it. -/
def WriteResult.since (shown : List (TxEffect E)) (r : WriteResult Db E ε) : WriteResult Db E ε :=
  { r with trace := shown ++ r.trace }

theorem collectSettledBroadcasts_since (events : List E) :
    events.foldl Tx.collectSettledBroadcast (tx.since shown none) =
      (events.foldl Tx.collectSettledBroadcast tx).since shown none := by
  induction events generalizing tx with
  | nil => rfl
  | cons event events ih =>
    have hevent : (tx.since shown none).collectSettledBroadcast event =
        (tx.collectSettledBroadcast event).since shown none := by
      simp only [Tx.collectSettledBroadcast, Tx.settledBroadcasts_since, apply_ite (Tx.since shown none)]
      rfl
    rw [List.foldl_cons, List.foldl_cons, hevent, ih]

omit [DecidableEq E] in
theorem finalizers_since (finalizers : List Nat) :
    finalizers.foldl (fun tx finalizer => tx.emit (.finalized finalizer)) (tx.since shown none) =
      (finalizers.foldl (fun tx finalizer => tx.emit (.finalized finalizer)) tx).since shown none := by
  induction finalizers generalizing tx with
  | nil => rfl
  | cons finalizer finalizers ih => rw [List.foldl_cons, List.foldl_cons, Tx.emit_since, ih]

theorem afterCommit_since (queue : List (AfterCommit Db E ε)) (db : Db) :
    afterCommit env queue db (tx.since shown none) = (afterCommit env queue db tx).since shown := by
  have hfinalizers : ∀ tx : Tx Db E ε, (tx.since shown none).commitFinalizers = tx.commitFinalizers := fun _ => rfl
  have hfresh : ∀ tx : Tx Db E ε, Tx.fresh db (tx.since shown none).settledBroadcasts
      (tx.since shown none).trace = (Tx.fresh db tx.settledBroadcasts tx.trace).since shown none := fun _ => rfl
  simp only [afterCommit, collectSettledBroadcasts_since, hfinalizers, finalizers_since, hfresh,
    runCallbacks_since]
  simp only [sinceRan, WriteResult.since, Tx.since, List.append_assoc]

theorem commitWrite_since (began : Db) :
    commitWrite env began (tx.since shown none) = (commitWrite env began tx).since shown := by
  have hfailed : (tx.since shown none).persistError = tx.persistError := rfl
  simp only [commitWrite, hfailed, Tx.db_since, Tx.afterCommit_since, afterCommit_since]
  split
  · rfl
  split
  · rfl
  · split <;> rfl

/-- **The rest of a run does not depend on what was shown before.** -/
theorem finishWrite_since (began : Db) (pending : List (CommitPreparation Db E ε))
    (ran : Except ε Unit × Tx Db E ε) :
    finishWrite env began pending (sinceRan shown none ran) = (finishWrite env began pending ran).since shown := by
  obtain ⟨answer, tx⟩ := ran
  cases answer with
  | error error => rfl
  | ok _ =>
    simp only [finishWrite, sinceRan, runPreparations_since]
    match runPreparations env pending tx with
    | (.error error, tx) => rfl
    | (.ok _, tx) =>
      change (match prepareCommit env tx.rounds (tx.since shown none) with
        | (.error error, tx) => WriteResult.rollback began error tx.trace
        | (.ok _, tx) => commitWrite env began tx) = _
      rw [prepareCommit_since]
      simp only [sinceRan]
      match prepareCommit env tx.rounds tx with
      | (.error error, tx) => rfl
      | (.ok _, tx) => exact commitWrite_since env shown tx began

end Rest

/-! ## 7. A savepoint that fails -/

/-- The rows and the queues of `before`; what is not undone is `after`'s. -/
def Tx.left (before after : Tx Db E ε) : Tx Db E ε :=
  { before with
    settledBroadcasts := after.settledBroadcasts
    persistError := after.persistError
    trace := after.trace }

/-- **The rest of a run goes from `left` as from `before`**: whatever is open around it, is still to be
prepared and is run next, the write ends the same way, with what was shown right away shown besides. Only an
event that could not be persisted still fails the write. -/
structure NotEntered (env : TxEnv Db E ε) (before left : Tx Db E ε) : Prop where
  shown : ∃ events : List E, left.trace = before.trace ++ events.map .now
  same : left.persistError = before.persistError →
    ∀ began pending frames rest, ∃ result : WriteResult Db E ε,
      finishWrite env began pending (resume env frames (exec env rest before)) = result.since before.trace ∧
      finishWrite env began pending (resume env frames (exec env rest left)) = result.since left.trace
  failed : left.persistError ≠ before.persistError → ∀ began pending frames rest,
    (finishWrite env began pending (resume env frames (exec env rest left))).RolledBack began before.trace

section Savepoint

variable {env : TxEnv Db E ε} {tx tx' : Tx Db E ε}

omit [DecidableEq E] in
theorem Tx.ShowsNow.undo (before : Tx Db E ε) (h : tx.ShowsNow tx') : tx.ShowsNow (before.undo tx') :=
  ⟨h.inTransaction, h.trace, h.persistError⟩

theorem Tx.ShowsNow.exec (env : TxEnv Db E ε) (h : tx.ShowsNow tx') (program : TxProgram Db E ε) :
    tx.ShowsNow (exec env program tx').2 :=
  h.trans ((extends_exec env program tx').showsNow h.inTransaction)

theorem Tx.ShowsNow.resume (env : TxEnv Db E ε) (frames : List (TxFrame Db E ε)) {answer : Except ε Unit}
    (h : tx.ShowsNow tx') :
    tx.ShowsNow (resume env frames (answer, tx')).2 := by
  suffices hall : ∀ (frames : List (TxFrame Db E ε)) (ran : Except ε Unit × Tx Db E ε), tx.ShowsNow ran.2 →
      tx.ShowsNow (Smartfire.resume env frames ran).2 from hall frames (answer, tx') h
  intro frames
  induction frames with
  | nil => exact fun ran h => h
  | cons frame frames ih =>
    rintro ⟨answer, after⟩ h
    refine ih _ ?_
    cases frame with
    | savepoint before next => cases answer with
      | ok _ => exact h.exec env next
      | error error => exact h.undo before
    | rescue before next handler => cases answer with
      | ok _ => exact h.exec env next
      | error error => exact (h.undo before).exec env handler

/-- An event that could not be persisted fails the write. -/
theorem finishWrite_failed {began : Db} {pending : List (CommitPreparation Db E ε)} {answer : Except ε Unit}
    {error : ε} (hin : tx.inTransaction = true) (hfailed : tx.persistError = some error) :
    (finishWrite env began pending (answer, tx)).committed = false := by
  cases answer with
  | error error => rfl
  | ok _ =>
    have hpending := showsNow_runPreparations env pending hin
    simp only [finishWrite]
    generalize runPreparations env pending tx = ran at hpending ⊢
    obtain ⟨answer, ran⟩ := ran
    cases answer with
    | error error => rfl
    | ok _ =>
      have hrounds := hpending.trans (showsNow_prepareCommit env ran.rounds hpending.inTransaction)
      simp only
      generalize prepareCommit env ran.rounds ran = prepared at hrounds ⊢
      obtain ⟨answer, prepared⟩ := prepared
      cases answer with
      | error error => rfl
      | ok _ =>
        have hkept : prepared.persistError = some error := hrounds.persistError error hfailed
        simp only [commitWrite, hkept]
        rfl

/-- What failed or was shown before a failed savepoint differs from what did after it only there. -/
theorem notEntered_left (body : TxProgram Db E ε) (hin : tx.inTransaction = true) :
    NotEntered env tx (tx.left (exec env body tx).2) := by
  have hextends := extends_exec env body tx
  generalize (exec env body tx).2 = after at hextends ⊢
  have hshows : tx.ShowsNow (tx.left after) := ⟨hin, hextends.trace hin, hextends.persistError⟩
  refine ⟨hextends.trace hin, fun hsame began pending frames rest => ?_, fun hne began pending frames rest => ?_⟩
  · -- both are one write with different things shown before it
    let quiet : Tx Db E ε := { tx with trace := [] }
    have htx : tx = quiet.since tx.trace none := by simp [quiet, Tx.since]
    have hleft : tx.left after = quiet.since after.trace none := by
      have hsettled := hextends.settled hin
      have hfailed : after.persistError = tx.persistError := hsame
      simp [quiet, Tx.since, Tx.left, hsettled, hfailed]
    have hrest : ∀ shown, finishWrite env began pending (resume env frames (exec env rest (quiet.since shown none))) =
        (finishWrite env began pending (resume env frames (exec env rest quiet))).since shown := by
      intro shown
      rw [exec_since, ← finishWrite_since, ← resume_since]
      rfl
    refine ⟨finishWrite env began pending (resume env frames (exec env rest quiet)), ?_, ?_⟩
    · rw [← hrest, ← htx]
    · have htrace : (tx.left after).trace = after.trace := rfl
      rw [htrace, hleft]
      exact hrest after.trace
  · obtain ⟨error, herror⟩ : ∃ error, (tx.left after).persistError = some error := by
      cases hafter : (tx.left after).persistError with
      | some error => exact ⟨error, rfl⟩
      | none =>
        -- an error once kept is never dropped
        cases hbefore : tx.persistError with
        | none => exact absurd (hafter.trans hbefore.symm) hne
        | some error =>
          have hkept : (tx.left after).persistError = some error := hextends.persistError error hbefore
          exact ⟨error, hafter.symm.trans hkept⟩
    have hrefl : (tx.left after).ShowsNow (tx.left after) := .refl hin
    have hframes : (tx.left after).ShowsNow (resume env frames (exec env rest (tx.left after))).2 :=
      (hrefl.exec env rest).resume env frames
    exact finishWrite_rolledBack (hshows.trans hframes)
      (finishWrite_failed hframes.inTransaction (hframes.persistError error herror))

/-- **A write in all its outcomes.** Where it does not commit, the rows are the ones BEGIN found, and nothing
was emitted, finalized or called back but what is emitted right away. A savepoint whose body fails, wherever
it stands, leaves the rows and the queues it found, and inside the transaction the run goes on from there as
if it had not been entered. -/
theorem runWrite_atomic (env : TxEnv Db E ε) :
    (∀ began program, (runWrite env began program).committed = false →
      (runWrite env began program).RolledBack began []) ∧
    ∀ (tx : Tx Db E ε) (body : TxProgram Db E ε) error, (exec env body tx).1 = .error error →
      (∀ next, exec env (.savepoint body next) tx = (.error error, tx.left (exec env body tx).2)) ∧
      (∀ next handler,
        exec env (.rescue body next handler) tx = exec env handler (tx.left (exec env body tx).2)) ∧
      (tx.inTransaction = true → NotEntered env tx (tx.left (exec env body tx).2)) := by
  refine ⟨fun _ _ => runWrite_rolledBack, fun tx body error herror => ⟨fun next => ?_, fun next handler => ?_,
    notEntered_left body⟩⟩
  · rw [exec_savepoint, ← Prod.eta (exec env body tx), herror]
    exact congrArg (Prod.mk _) (undo_exec env body tx)
  · rw [exec_rescue, ← Prod.eta (exec env body tx), herror]
    exact congrArg (exec env handler) (undo_exec env body tx)

/-- Rows are a number; the event 0 cannot be persisted. -/
def sampleTxEnv : TxEnv Nat Nat String where
  persist event db := if event = 0 then (.error "queue", db) else (.ok (), db + event)
  survives _ _ _ := .ok true
  start _ := .ok ()
  commit _ := .ok ()
  isJob _ := true

/-- A write whose event cannot be persisted, and a savepoint that registers a hook and an event, then fails. -/
theorem runWrite_atomic_sample :
    let body : TxProgram Nat Nat String :=
      .afterCommitRecord "messages" 1 .ok (.op (.emitAfterCommit 2) (.fail "invalid"))
    (runWrite sampleTxEnv 5 (.op (.emitNow 3) (.op (.emitAfterCommit 0) .ok))).RolledBack 5 [] ∧
      exec sampleTxEnv (.rescue body .ok (.fail "rescued")) (.begin 5) =
        exec sampleTxEnv (.fail "rescued") (Tx.left (.begin 5) (exec sampleTxEnv body (.begin 5)).2) ∧
      NotEntered sampleTxEnv (.begin 5) (Tx.left (.begin 5) (exec sampleTxEnv body (.begin 5)).2) :=
  have hall := runWrite_atomic sampleTxEnv
  have hbody := hall.2 (.begin 5) (.afterCommitRecord "messages" 1 .ok (.op (.emitAfterCommit 2) (.fail "invalid")))
    "invalid" (by rfl)
  ⟨hall.1 5 _ (by rfl), hbody.2.1 .ok (.fail "rescued"), hbody.2.2 rfl⟩

end Savepoint

end Smartfire
