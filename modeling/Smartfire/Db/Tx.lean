/-
  File:      Smartfire/Db/Tx.lean
  Subject:   A write in progress (crates/db/src/database.rs `Tx`).

  What a write does is a program: statements, tests of the database, savepoints whose errors go on or are
  rescued, and registrations of work for the commit or after it. Work registered is a program itself. Run
  inside the transaction it is queued; run after commit, outside one, the same calls act at once.

  The database is any state. What the sink persists for an event, whether a record survives and what an
  error is are parameters; an event emitted and a callback run are entries of a trace.

  * `TxOp`, `TxProgram` -- what a write does;
  * `AfterCommit`, `Tx` -- the queues;
  * `exec` -- running a program, `Tx.undo` -- what a savepoint that fails leaves;
  * `Extends`, `extends_exec`, `undo_exec` -- a program only adds to the queues, so undoing takes exactly
    that away;
  * `Tx.since`, `exec_since` -- what a write did before, that is no row and no queue, changes nothing of
    what it does later.
-/
import Mathlib.Data.List.Forall2
import Mathlib.Tactic.Common

namespace Smartfire

universe u v w

/-! ## 1. Programs -/

/-- A call that registers an event, a finalizer or a record. -/
inductive TxOp (Db : Type u) (E : Type v) (ε : Type w) where
  | emitNow (event : E)
  | emitAfterCommit (event : E)
  | emitRecordJobOnceIf (table : String) (id : Int) (event : E)
      (condition : Option (Db → Int → Except ε Bool))
  | emitBroadcastOnce (table : String) (id : Int) (event : E)
  | broadcastAfterCommitOnce (event : E)
  | broadcastAfterCommitSettledOnce (event : E)
  | registerRecord (table : String) (id : Int)
  | onCommitSuccess (finalizer : Nat)

/-- A write, or work registered by one. -/
inductive TxProgram (Db : Type u) (E : Type v) (ε : Type w) where
  | ok
  | fail (error : ε)
  /-- A statement. -/
  | change (f : Db → Except ε Db) (next : TxProgram Db E ε)
  | branch (test : Db → Bool) (yes no : TxProgram Db E ε)
  /-- `tx.savepoint(body)?`. -/
  | savepoint (body next : TxProgram Db E ε)
  /-- A savepoint whose error is rescued. -/
  | rescue (body next handler : TxProgram Db E ε)
  | op (o : TxOp Db E ε) (next : TxProgram Db E ε)
  | afterCommit (hook next : TxProgram Db E ε)
  | afterCommitRecord (table : String) (id : Int) (hook next : TxProgram Db E ε)
  | afterCommitRecordLatest (key : String) (id : Int) (hook next : TxProgram Db E ε)
  /-- `tx.before_commit_record_latest(…)?`. -/
  | beforeCommitRecordLatest (key : String) (id : Int) (hook next : TxProgram Db E ε)

/-- Queued after-commit work. -/
inductive AfterCommit (Db : Type u) (E : Type v) (ε : Type w) where
  | recordHook (key : String) (id : Int) (hook : TxProgram Db E ε)
  | recordJob (table : String) (id : Int) (event : Option E) (condition : Option (Db → Int → Except ε Bool))
  | recordBroadcast (table : String) (id : Int) (event : E)
  | recordHooks (table : String) (id : Int) (hooks : List (TxProgram Db E ε))
  | hook (hook : TxProgram Db E ε)
  | event (event : E)
  | settledBroadcast (event : E)

structure CommitPreparation (Db : Type u) (E : Type v) (ε : Type w) where
  key : String
  id : Int
  hook : TxProgram Db E ε

/-- What a write shows outside the database. -/
inductive TxEffect (E : Type v) where
  /-- Emitted right away, inside the transaction. -/
  | now (event : E)
  /-- Emitted after commit. -/
  | emitted (event : E)
  | finalized (finalizer : Nat)
  /-- An after-commit callback starts. -/
  | callback
deriving DecidableEq, Repr

/-- What the sink and the tables decide. -/
structure TxEnv (Db : Type u) (E : Type v) (ε : Type w) where
  /-- `EventSink::persist`, which may leave changes even where it fails. -/
  persist : E → Db → Except ε Unit × Db
  /-- `SELECT EXISTS(SELECT 1 FROM table WHERE id = ?)`. -/
  survives : String → Int → Db → Except ε Bool
  /-- BEGIN IMMEDIATE and COMMIT may fail. -/
  start : Db → Except ε Unit
  commit : Db → Except ε Unit
  /-- The events whose queue rows are persisted with the write. -/
  isJob : E → Bool

structure Tx (Db : Type u) (E : Type v) (ε : Type w) where
  db : Db
  inTransaction : Bool
  afterCommit : List (AfterCommit Db E ε)
  settledBroadcasts : List E
  commitFinalizers : List Nat
  commitPreparations : List (CommitPreparation Db E ε)
  /-- The first error persisting an emitted event, which rolls the transaction back. -/
  persistError : Option ε
  trace : List (TxEffect E)

variable {Db : Type u} {E : Type v} {ε : Type w} [DecidableEq E]

/-! ## 2. Registering -/

namespace AfterCommit

/-- The record's job is queued already. -/
def isJob (table : String) (id : Int) (event : E) : AfterCommit Db E ε → Bool
  | recordJob t i (some e) _ => t = table && i = id && e = event
  | _ => false

def isBroadcast (table : String) (id : Int) (event : E) : AfterCommit Db E ε → Bool
  | recordBroadcast t i e => t = table && i = id && e = event
  | _ => false

def isEvent (event : E) : AfterCommit Db E ε → Bool
  | .event e => e = event
  | _ => false

def isSettled (event : E) : AfterCommit Db E ε → Bool
  | settledBroadcast e => e = event
  | _ => false

omit [DecidableEq E] in
def isRecord (table : String) (id : Int) : AfterCommit Db E ε → Bool
  | recordHooks t i _ => t = table && i = id
  | _ => false

/-- One more hook of the record. -/
def addHook (hook : TxProgram Db E ε) : AfterCommit Db E ε → AfterCommit Db E ε
  | recordHooks t i hooks => recordHooks t i (hooks ++ [hook])
  | item => item

/-- The hooks it had, of a record that may have more by now. -/
def restore : AfterCommit Db E ε → AfterCommit Db E ε → AfterCommit Db E ε
  | recordHooks _ _ hooks, recordHooks t i hooks' => recordHooks t i (hooks'.take hooks.length)
  | _, item => item

end AfterCommit

namespace Tx

variable (env : TxEnv Db E ε) (tx : Tx Db E ε)

def push (item : AfterCommit Db E ε) : Tx Db E ε := { tx with afterCommit := tx.afterCommit ++ [item] }

def emit (effect : TxEffect E) : Tx Db E ε := { tx with trace := tx.trace ++ [effect] }

/-- `EventSink::persist`; the first failure inside the transaction is kept. -/
def persist (event : E) : Bool × Tx Db E ε :=
  match env.persist event tx.db with
  | (.ok _, db) => (true, { tx with db })
  | (.error error, db) =>
    (false, { tx with
      db
      persistError := if tx.inTransaction then tx.persistError.or (some error) else tx.persistError })

def emitNow (event : E) : Tx Db E ε :=
  let (persisted, tx) := tx.persist env event
  if persisted then tx.emit (.now event) else tx

def emitAfterCommit (event : E) : Tx Db E ε :=
  let (persisted, tx) := tx.persist env event
  if !persisted then tx
  else if tx.inTransaction then tx.push (.event event) else tx.emit (.emitted event)

def emitRecordJobOnceIf (table : String) (id : Int) (event : E)
    (condition : Option (Db → Int → Except ε Bool)) : Tx Db E ε :=
  if !tx.inTransaction then tx.emitAfterCommit env event
  else if tx.afterCommit.any (·.isJob table id event) then tx
  else tx.push (.recordJob table id (some event) condition)

def emitBroadcastOnce (table : String) (id : Int) (event : E) : Tx Db E ε :=
  if tx.inTransaction && tx.afterCommit.any (·.isBroadcast table id event) then tx
  else
    let (persisted, tx) := tx.persist env event
    if !persisted then tx
    else if tx.inTransaction then tx.push (.recordBroadcast table id event) else tx.emit (.emitted event)

def broadcastAfterCommitOnce (event : E) : Tx Db E ε :=
  if tx.afterCommit.any (·.isEvent event) then tx else tx.emitAfterCommit env event

def collectSettledBroadcast (event : E) : Tx Db E ε :=
  if tx.settledBroadcasts.contains event then tx
  else { tx with settledBroadcasts := tx.settledBroadcasts ++ [event] }

def broadcastAfterCommitSettledOnce (event : E) : Tx Db E ε :=
  if tx.afterCommit.any (·.isSettled event) then tx
  else
    let (persisted, tx) := tx.persist env event
    if !persisted then tx
    else if tx.inTransaction then tx.push (.settledBroadcast event) else tx.collectSettledBroadcast event

omit [DecidableEq E] in
def registerRecord (table : String) (id : Int) : Tx Db E ε :=
  if tx.inTransaction && !tx.afterCommit.any (·.isRecord table id) then tx.push (.recordHooks table id [])
  else tx

omit [DecidableEq E] in
def onCommitSuccess (finalizer : Nat) : Tx Db E ε :=
  if tx.inTransaction then { tx with commitFinalizers := tx.commitFinalizers ++ [finalizer] }
  else tx.emit (.finalized finalizer)

def apply : TxOp Db E ε → Tx Db E ε
  | .emitNow event => tx.emitNow env event
  | .emitAfterCommit event => tx.emitAfterCommit env event
  | .emitRecordJobOnceIf table id event condition => tx.emitRecordJobOnceIf env table id event condition
  | .emitBroadcastOnce table id event => tx.emitBroadcastOnce env table id event
  | .broadcastAfterCommitOnce event => tx.broadcastAfterCommitOnce env event
  | .broadcastAfterCommitSettledOnce event => tx.broadcastAfterCommitSettledOnce env event
  | .registerRecord table id => tx.registerRecord table id
  | .onCommitSuccess finalizer => tx.onCommitSuccess finalizer

/-- The first entry that fits, changed. -/
def updateFirst (p : AfterCommit Db E ε → Bool) (f : AfterCommit Db E ε → AfterCommit Db E ε) :
    List (AfterCommit Db E ε) → List (AfterCommit Db E ε)
  | [] => []
  | item :: items => if p item then f item :: items else item :: updateFirst p f items

/-- `after_commit_record`, inside the transaction. -/
def addRecordHook (table : String) (id : Int) (hook : TxProgram Db E ε) : Tx Db E ε :=
  let tx := tx.registerRecord table id
  { tx with afterCommit := updateFirst (·.isRecord table id) (.addHook hook) tx.afterCommit }

/-- `before_commit_record_latest`, inside the transaction. -/
def prepare (preparation : CommitPreparation Db E ε) : Tx Db E ε :=
  { tx with commitPreparations := tx.commitPreparations ++ [preparation] }

/-- A fresh one outside a transaction, for a callback. -/
def fresh (db : Db) (settledBroadcasts : List E) (trace : List (TxEffect E)) : Tx Db E ε :=
  ⟨db, false, [], settledBroadcasts, [], [], none, trace⟩

/-- The one a callback starts with. -/
def callee : Tx Db E ε := .fresh tx.db tx.settledBroadcasts (tx.trace ++ [.callback])

/-- What its caller goes on with. -/
def called (ran : Tx Db E ε) : Tx Db E ε :=
  { tx with db := ran.db, settledBroadcasts := ran.settledBroadcasts, trace := ran.trace }

/-- What a savepoint that fails leaves: the rows and the queues as they were before its body. -/
def undo (before after : Tx Db E ε) : Tx Db E ε :=
  { after with
    db := before.db
    afterCommit := before.afterCommit.zipWith AfterCommit.restore (after.afterCommit.take before.afterCommit.length)
    commitFinalizers := after.commitFinalizers.take before.commitFinalizers.length
    commitPreparations := after.commitPreparations.take before.commitPreparations.length }

end Tx

/-! ## 3. Running -/

/-- Runs a program: what it answers, and what it leaves. -/
def exec (env : TxEnv Db E ε) : TxProgram Db E ε → Tx Db E ε → Except ε Unit × Tx Db E ε
  | .ok, tx => (.ok (), tx)
  | .fail error, tx => (.error error, tx)
  | .change f next, tx =>
    match f tx.db with
    | .ok db => exec env next { tx with db }
    | .error error => (.error error, tx)
  | .branch test yes no, tx => if test tx.db then exec env yes tx else exec env no tx
  | .savepoint body next, tx =>
    match exec env body tx with
    | (.ok _, after) => exec env next after
    | (.error error, after) => (.error error, tx.undo after)
  | .rescue body next handler, tx =>
    match exec env body tx with
    | (.ok _, after) => exec env next after
    | (.error _, after) => exec env handler (tx.undo after)
  | .op o next, tx => exec env next (tx.apply env o)
  | .afterCommit hook next, tx =>
    if tx.inTransaction then exec env next (tx.push (.hook hook))
    -- run at once; its error is only logged
    else exec env next (tx.called (exec env hook tx.callee).2)
  | .afterCommitRecord table id hook next, tx =>
    if tx.inTransaction then exec env next (tx.addRecordHook table id hook)
    else exec env next (tx.called (exec env hook tx.callee).2)
  | .afterCommitRecordLatest key id hook next, tx =>
    if tx.inTransaction then exec env next (tx.push (.recordHook key id hook))
    else exec env next (tx.called (exec env hook tx.callee).2)
  | .beforeCommitRecordLatest key id hook next, tx =>
    if tx.inTransaction then
      exec env next (tx.prepare ⟨key, id, hook⟩)
    else
      match exec env hook tx with
      | (.ok _, after) => exec env next after
      | (.error error, after) => (.error error, after)

/-! ## 4. A program only adds -/

/-- The same entry, or the same record with more hooks. -/
inductive AfterCommit.Grows : AfterCommit Db E ε → AfterCommit Db E ε → Prop
  | same (item : AfterCommit Db E ε) : Grows item item
  | hooks (table : String) (id : Int) (hooks more : List (TxProgram Db E ε)) :
      Grows (.recordHooks table id hooks) (.recordHooks table id (hooks ++ more))

/-- What a later state of a write has kept of an earlier one. -/
structure Tx.Extends (tx tx' : Tx Db E ε) : Prop where
  inTransaction : tx'.inTransaction = tx.inTransaction
  afterCommit : ∃ grown added, tx'.afterCommit = grown ++ added ∧
    List.Forall₂ AfterCommit.Grows tx.afterCommit grown
  finalizers : tx.commitFinalizers <+: tx'.commitFinalizers
  preparations : tx.commitPreparations <+: tx'.commitPreparations
  settled : tx.inTransaction = true → tx'.settledBroadcasts = tx.settledBroadcasts
  /-- Inside a transaction only what is emitted right away shows. -/
  trace : tx.inTransaction = true → ∃ events : List E, tx'.trace = tx.trace ++ events.map .now
  persistError : ∀ error, tx.persistError = some error → tx'.persistError = some error

section Extends

variable {tx tx' tx'' : Tx Db E ε} {a b c : AfterCommit Db E ε} {as bs cs : List (AfterCommit Db E ε)}
omit [DecidableEq E]

theorem AfterCommit.Grows.trans (hab : a.Grows b) (hbc : b.Grows c) : a.Grows c := by
  cases hab with
  | same => exact hbc
  | hooks table id hooks more =>
    cases hbc with
    | same => exact .hooks table id hooks more
    | hooks _ _ _ more' => rw [List.append_assoc]; exact .hooks table id hooks (more ++ more')

theorem AfterCommit.Grows.restore (h : a.Grows b) : a.restore b = a := by
  cases h with
  | same => cases a with
    | recordHooks table id hooks => simp [AfterCommit.restore]
    | _ => rfl
  | hooks table id hooks more => simp [AfterCommit.restore]

theorem forall₂_grows_refl (as : List (AfterCommit Db E ε)) : List.Forall₂ AfterCommit.Grows as as :=
  List.forall₂_same.2 fun item _ => .same item

theorem forall₂_grows_trans (hab : List.Forall₂ AfterCommit.Grows as bs)
    (hbc : List.Forall₂ AfterCommit.Grows bs cs) : List.Forall₂ AfterCommit.Grows as cs := by
  induction hab generalizing cs with
  | nil => exact hbc
  | cons h _ ih =>
    obtain ⟨c, cs, hc, hcs, rfl⟩ := List.forall₂_cons_left_iff.1 hbc
    exact .cons (h.trans hc) (ih hcs)

/-- Restoring takes away what was added. -/
theorem zipWith_restore (h : List.Forall₂ AfterCommit.Grows as bs) : as.zipWith AfterCommit.restore bs = as := by
  induction h with
  | nil => rfl
  | cons hgrows _ ih => rw [List.zipWith_cons_cons, hgrows.restore, ih]

namespace Tx

theorem Extends.refl (tx : Tx Db E ε) : tx.Extends tx where
  inTransaction := rfl
  afterCommit := ⟨tx.afterCommit, [], by simp, forall₂_grows_refl _⟩
  finalizers := List.prefix_rfl
  preparations := List.prefix_rfl
  settled := fun _ => rfl
  trace := fun _ => ⟨[], by simp⟩
  persistError := fun _ h => h

theorem Extends.trans (h : tx.Extends tx') (h' : tx'.Extends tx'') : tx.Extends tx'' := by
  obtain ⟨grown, added, hq, hgrown⟩ := h.afterCommit
  obtain ⟨grown', added', hq', hgrown'⟩ := h'.afterCommit
  refine ⟨h'.inTransaction.trans h.inTransaction, ?_, h.finalizers.trans h'.finalizers,
    h.preparations.trans h'.preparations, fun hin => ?_, fun hin => ?_,
    fun error he => h'.persistError error (h.persistError error he)⟩
  · -- what is added the first time may grow the second time
    have hregrown := List.forall₂_take grown.length hgrown'
    rw [hq, List.take_left] at hregrown
    refine ⟨grown'.take grown.length, grown'.drop grown.length ++ added', ?_,
      forall₂_grows_trans hgrown hregrown⟩
    rw [hq', ← List.append_assoc, List.take_append_drop]
  · rw [h'.settled (h.inTransaction ▸ hin), h.settled hin]
  · obtain ⟨events, he⟩ := h.trace hin
    obtain ⟨events', he'⟩ := h'.trace (h.inTransaction ▸ hin)
    exact ⟨events ++ events', by rw [he', he, List.map_append, List.append_assoc]⟩

/-- **Undoing takes away exactly what was added**; what shows outside stays. -/
theorem Extends.undo (h : tx.Extends tx') : tx.undo tx' =
    { tx with
      settledBroadcasts := tx'.settledBroadcasts
      persistError := tx'.persistError
      trace := tx'.trace } := by
  obtain ⟨grown, added, hq, hgrown⟩ := h.afterCommit
  have hitems : tx.afterCommit.zipWith AfterCommit.restore (tx'.afterCommit.take tx.afterCommit.length) =
      tx.afterCommit := by
    rw [hq, hgrown.length_eq, List.take_left, zipWith_restore hgrown]
  have hfinalizers := List.prefix_iff_eq_take.1 h.finalizers
  have hpreparations := List.prefix_iff_eq_take.1 h.preparations
  simp only [Tx.undo, hitems, ← hfinalizers, ← hpreparations, h.inTransaction]

theorem Extends.extends_undo (h : tx.Extends tx') : tx.Extends (tx.undo tx') := by
  rw [h.undo]
  exact ⟨rfl, ⟨tx.afterCommit, [], by simp, forall₂_grows_refl _⟩, List.prefix_rfl, List.prefix_rfl, h.settled,
    h.trace, h.persistError⟩

/-- A change of the rows only. -/
theorem extends_of_db (tx : Tx Db E ε) (db : Db) : tx.Extends { tx with db } :=
  { Extends.refl tx with inTransaction := rfl }

theorem extends_push (tx : Tx Db E ε) (item : AfterCommit Db E ε) : tx.Extends (tx.push item) :=
  { Extends.refl tx with afterCommit := ⟨tx.afterCommit, [item], rfl, forall₂_grows_refl _⟩ }

theorem extends_prepare (tx : Tx Db E ε) (preparation : CommitPreparation Db E ε) :
    tx.Extends (tx.prepare preparation) :=
  { Extends.refl tx with preparations := List.prefix_append _ _ }

theorem extends_emit_now (tx : Tx Db E ε) (event : E) : tx.Extends (tx.emit (.now event)) :=
  { Extends.refl tx with trace := fun _ => ⟨[event], rfl⟩ }

/-- Outside a transaction anything may show. -/
theorem extends_of_outside (hout : ¬ tx.inTransaction = true) (db : Db) (settled : List E)
    (trace : List (TxEffect E)) : tx.Extends { tx with db, settledBroadcasts := settled, trace } :=
  { Extends.refl tx with
    settled := fun hin => absurd hin hout
    trace := fun hin => absurd hin hout }

theorem extends_persist (env : TxEnv Db E ε) (tx : Tx Db E ε) (event : E) :
    tx.Extends (tx.persist env event).2 := by
  unfold Tx.persist
  match env.persist event tx.db with
  | (.ok _, db) => exact extends_of_db tx db
  | (.error error, db) =>
    refine { Extends.refl tx with persistError := fun first h => ?_, inTransaction := rfl }
    simp [h]

theorem extends_registerRecord (tx : Tx Db E ε) (table : String) (id : Int) :
    tx.Extends (tx.registerRecord table id) := by
  unfold Tx.registerRecord
  split
  · exact extends_push tx _
  · exact .refl tx

theorem extends_onCommitSuccess (tx : Tx Db E ε) (finalizer : Nat) :
    tx.Extends (tx.onCommitSuccess finalizer) := by
  unfold Tx.onCommitSuccess
  split
  · exact { Extends.refl tx with finalizers := List.prefix_append _ _ }
  · next hout => exact extends_of_outside hout tx.db tx.settledBroadcasts _

theorem forall₂_grows_updateFirst (p : AfterCommit Db E ε → Bool) (hook : TxProgram Db E ε)
    (items : List (AfterCommit Db E ε)) :
    List.Forall₂ AfterCommit.Grows items (updateFirst p (.addHook hook) items) := by
  induction items with
  | nil => exact .nil
  | cons item items ih =>
    have hgrows : item.Grows (item.addHook hook) := by
      cases item with
      | recordHooks table id hooks => exact .hooks table id hooks [hook]
      | _ => exact .same _
    unfold updateFirst
    split
    · exact .cons hgrows (forall₂_grows_refl items)
    · exact .cons (.same item) ih

theorem extends_addRecordHook (tx : Tx Db E ε) (table : String) (id : Int) (hook : TxProgram Db E ε) :
    tx.Extends (tx.addRecordHook table id hook) := by
  refine (extends_registerRecord tx table id).trans ?_
  refine { Extends.refl _ with afterCommit := ?_, inTransaction := rfl }
  exact ⟨_, [], (List.append_nil _).symm, forall₂_grows_updateFirst _ hook _⟩

end Tx

end Extends

/-! ### One call -/

namespace Tx

variable (env : TxEnv Db E ε) (tx : Tx Db E ε)

omit [DecidableEq E] in
theorem extends_emitNow (event : E) : tx.Extends (tx.emitNow env event) := by
  have hpersist := extends_persist env tx event
  unfold emitNow
  generalize tx.persist env event = ran at hpersist ⊢
  obtain ⟨persisted, after⟩ := ran
  cases persisted with
  | true => exact hpersist.trans (extends_emit_now after event)
  | false => exact hpersist

omit [DecidableEq E] in
/-- Persisted, then queued inside a transaction or shown outside one. -/
theorem extends_queued (event : E) (item : AfterCommit Db E ε) (shown : Tx Db E ε → Tx Db E ε)
    (hshown : ∀ after : Tx Db E ε, ¬ after.inTransaction = true → after.Extends (shown after)) :
    tx.Extends (
      let (persisted, tx) := tx.persist env event
      if !persisted then tx else if tx.inTransaction then tx.push item else shown tx) := by
  have hpersist := extends_persist env tx event
  generalize tx.persist env event = ran at hpersist ⊢
  obtain ⟨persisted, after⟩ := ran
  cases persisted with
  | false => exact hpersist
  | true =>
    by_cases hin : after.inTransaction = true
    · simpa [hin] using hpersist.trans (extends_push after item)
    · simpa [hin] using hpersist.trans (hshown after hin)

omit [DecidableEq E] in
theorem extends_emitAfterCommit (event : E) : tx.Extends (tx.emitAfterCommit env event) :=
  extends_queued env tx event (.event event) (·.emit (.emitted event)) fun after hout =>
    extends_of_outside hout after.db after.settledBroadcasts _

theorem extends_emitRecordJobOnceIf (table : String) (id : Int) (event : E)
    (condition : Option (Db → Int → Except ε Bool)) :
    tx.Extends (tx.emitRecordJobOnceIf env table id event condition) := by
  unfold emitRecordJobOnceIf
  split
  · exact extends_emitAfterCommit env tx event
  split
  · exact .refl tx
  · exact extends_push tx _

theorem extends_emitBroadcastOnce (table : String) (id : Int) (event : E) :
    tx.Extends (tx.emitBroadcastOnce env table id event) := by
  unfold emitBroadcastOnce
  split
  · exact .refl tx
  · exact extends_queued env tx event (.recordBroadcast table id event) (·.emit (.emitted event))
      fun after hout => extends_of_outside hout after.db after.settledBroadcasts _

theorem extends_broadcastAfterCommitOnce (event : E) : tx.Extends (tx.broadcastAfterCommitOnce env event) := by
  unfold broadcastAfterCommitOnce
  split
  · exact .refl tx
  · exact extends_emitAfterCommit env tx event

theorem extends_collectSettledBroadcast (hout : ¬ tx.inTransaction = true) (event : E) :
    tx.Extends (tx.collectSettledBroadcast event) := by
  unfold collectSettledBroadcast
  split
  · exact .refl tx
  · exact extends_of_outside hout tx.db _ tx.trace

theorem extends_broadcastAfterCommitSettledOnce (event : E) :
    tx.Extends (tx.broadcastAfterCommitSettledOnce env event) := by
  unfold broadcastAfterCommitSettledOnce
  split
  · exact .refl tx
  · exact extends_queued env tx event (.settledBroadcast event) (·.collectSettledBroadcast event)
      fun after hout => extends_collectSettledBroadcast after hout event

theorem extends_apply (o : TxOp Db E ε) : tx.Extends (tx.apply env o) := by
  cases o with
  | emitNow event => exact extends_emitNow env tx event
  | emitAfterCommit event => exact extends_emitAfterCommit env tx event
  | emitRecordJobOnceIf table id event condition =>
    exact extends_emitRecordJobOnceIf env tx table id event condition
  | emitBroadcastOnce table id event => exact extends_emitBroadcastOnce env tx table id event
  | broadcastAfterCommitOnce event => exact extends_broadcastAfterCommitOnce env tx event
  | broadcastAfterCommitSettledOnce event => exact extends_broadcastAfterCommitSettledOnce env tx event
  | registerRecord table id => exact extends_registerRecord tx table id
  | onCommitSuccess finalizer => exact extends_onCommitSuccess tx finalizer

end Tx

/-! ### A whole program -/

/-- **Whatever a program does, it only adds to the queues**, and inside a transaction it shows nothing but
what is emitted right away. -/
theorem extends_exec (env : TxEnv Db E ε) (program : TxProgram Db E ε) (tx : Tx Db E ε) :
    tx.Extends (exec env program tx).2 := by
  induction program generalizing tx with
  | ok => exact .refl tx
  | fail error => exact .refl tx
  | change f next ih =>
    unfold exec
    split
    · next db _ => exact (Tx.extends_of_db tx db).trans (ih _)
    · exact .refl tx
  | branch test yes no ihyes ihno =>
    unfold exec
    split
    · exact ihyes tx
    · exact ihno tx
  | savepoint body next ihbody ihnext =>
    have hbody := ihbody tx
    unfold exec
    split
    · next after heq => rw [heq] at hbody; exact hbody.trans (ihnext after)
    · next after heq => rw [heq] at hbody; exact hbody.extends_undo
  | rescue body next handler ihbody ihnext ihhandler =>
    have hbody := ihbody tx
    unfold exec
    split
    · next after heq => rw [heq] at hbody; exact hbody.trans (ihnext after)
    · next after heq => rw [heq] at hbody; exact hbody.extends_undo.trans (ihhandler _)
  | op o next ih => exact (Tx.extends_apply env tx o).trans (ih _)
  | afterCommit hook next _ ih =>
    unfold exec
    split
    · exact (Tx.extends_push tx _).trans (ih _)
    · next hout => exact (Tx.extends_of_outside hout _ _ _).trans (ih _)
  | afterCommitRecord table id hook next _ ih =>
    unfold exec
    split
    · exact (Tx.extends_addRecordHook tx table id hook).trans (ih _)
    · next hout => exact (Tx.extends_of_outside hout _ _ _).trans (ih _)
  | afterCommitRecordLatest key id hook next _ ih =>
    unfold exec
    split
    · exact (Tx.extends_push tx _).trans (ih _)
    · next hout => exact (Tx.extends_of_outside hout _ _ _).trans (ih _)
  | beforeCommitRecordLatest key id hook next ihhook ih =>
    have hhook := ihhook tx
    unfold exec
    split
    · exact (Tx.extends_prepare tx _).trans (ih _)
    · split
      · next after heq => rw [heq] at hhook; exact hhook.trans (ih after)
      · next after heq => rw [heq] at hhook; exact hhook

/-- **What a savepoint leaves when its body fails**: the rows and the queues it found. -/
theorem undo_exec (env : TxEnv Db E ε) (body : TxProgram Db E ε) (tx : Tx Db E ε) :
    tx.undo (exec env body tx).2 =
      { tx with
        settledBroadcasts := (exec env body tx).2.settledBroadcasts
        persistError := (exec env body tx).2.persistError
        trace := (exec env body tx).2.trace } := (extends_exec env body tx).undo

/-! ## 5. What a program cannot see -/

/-- The same write, `shown` and `failed` before it. -/
def Tx.since (shown : List (TxEffect E)) (failed : Option ε) (tx : Tx Db E ε) : Tx Db E ε :=
  { tx with trace := shown ++ tx.trace, persistError := failed.or tx.persistError }

section Since

variable (env : TxEnv Db E ε) (shown : List (TxEffect E)) (failed : Option ε) (tx : Tx Db E ε)

namespace Tx

omit [DecidableEq E]

@[simp] theorem db_since : (tx.since shown failed).db = tx.db := rfl

@[simp] theorem inTransaction_since : (tx.since shown failed).inTransaction = tx.inTransaction := rfl

@[simp] theorem afterCommit_since : (tx.since shown failed).afterCommit = tx.afterCommit := rfl

@[simp] theorem settledBroadcasts_since :
    (tx.since shown failed).settledBroadcasts = tx.settledBroadcasts := rfl

@[simp] theorem push_since (item : AfterCommit Db E ε) :
    (tx.since shown failed).push item = (tx.push item).since shown failed := rfl

@[simp] theorem emit_since (effect : TxEffect E) :
    (tx.since shown failed).emit effect = (tx.emit effect).since shown failed := by
  simp [Tx.emit, Tx.since]

@[simp] theorem persist_since (event : E) : (tx.since shown failed).persist env event =
    ((tx.persist env event).1, (tx.persist env event).2.since shown failed) := by
  simp only [Tx.persist, Tx.since]
  match env.persist event tx.db with
  | (.ok _, db) => rfl
  | (.error error, db) => by_cases hin : tx.inTransaction = true <;> simp [hin]

@[simp] theorem registerRecord_since (table : String) (id : Int) :
    (tx.since shown failed).registerRecord table id = (tx.registerRecord table id).since shown failed := by
  simp only [registerRecord, inTransaction_since, afterCommit_since, push_since, apply_ite (since shown failed)]
  rfl

@[simp] theorem addRecordHook_since (table : String) (id : Int) (hook : TxProgram Db E ε) :
    (tx.since shown failed).addRecordHook table id hook =
      (tx.addRecordHook table id hook).since shown failed := by
  simp only [addRecordHook, registerRecord_since]
  rfl

@[simp] theorem prepare_since (preparation : CommitPreparation Db E ε) :
    (tx.since shown failed).prepare preparation = (tx.prepare preparation).since shown failed := rfl

/-- A callback fails by itself. -/
@[simp] theorem callee_since : (tx.since shown failed).callee = tx.callee.since shown none := by
  simp [callee, fresh, since]

@[simp] theorem called_since (ran : Tx Db E ε) :
    (tx.since shown failed).called (ran.since shown none) = (tx.called ran).since shown failed := rfl

@[simp] theorem undo_since (after : Tx Db E ε) :
    (tx.since shown failed).undo (after.since shown failed) = (tx.undo after).since shown failed := rfl

@[simp] theorem emitAfterCommit_since (event : E) : (tx.since shown failed).emitAfterCommit env event =
    (tx.emitAfterCommit env event).since shown failed := by
  simp only [emitAfterCommit, persist_since, emit_since, push_since, inTransaction_since,
    apply_ite (since shown failed)]

end Tx

theorem Tx.apply_since (o : TxOp Db E ε) :
    (tx.since shown failed).apply env o = (tx.apply env o).since shown failed := by
  have hsettled : ∀ (after : Tx Db E ε) (event : E), (after.since shown failed).collectSettledBroadcast event =
      (after.collectSettledBroadcast event).since shown failed := by
    intro after event
    simp only [Tx.collectSettledBroadcast, Tx.settledBroadcasts_since, apply_ite (Tx.since shown failed)]
    rfl
  have hfinalizer : ∀ finalizer, (tx.since shown failed).onCommitSuccess finalizer =
      (tx.onCommitSuccess finalizer).since shown failed := by
    intro finalizer
    simp only [Tx.onCommitSuccess, Tx.inTransaction_since, Tx.emit_since, apply_ite (Tx.since shown failed)]
    rfl
  cases o <;>
    simp only [Tx.apply, Tx.emitNow, Tx.emitRecordJobOnceIf, Tx.emitBroadcastOnce, Tx.broadcastAfterCommitOnce,
      Tx.broadcastAfterCommitSettledOnce, Tx.inTransaction_since, Tx.afterCommit_since, Tx.push_since,
      Tx.emit_since, Tx.persist_since, Tx.registerRecord_since, Tx.emitAfterCommit_since, hsettled, hfinalizer,
      apply_ite (Tx.since shown failed)]
  all_goals rfl

/-- **What a program does, does not depend on what was shown or failed before it.** -/
theorem exec_since (program : TxProgram Db E ε) (failed : Option ε) : exec env program (tx.since shown failed) =
    ((exec env program tx).1, (exec env program tx).2.since shown failed) := by
  induction program generalizing tx failed with
  | ok => rfl
  | fail error => rfl
  | change f next ih =>
    simp only [exec, Tx.db_since]
    match f tx.db with
    | .ok db => exact ih { tx with db } failed
    | .error error => rfl
  | branch test yes no ihyes ihno =>
    cases htest : test tx.db with
    | true => simpa [exec, htest] using ihyes tx failed
    | false => simpa [exec, htest] using ihno tx failed
  | savepoint body next ihbody ihnext =>
    simp only [exec, ihbody tx failed]
    match exec env body tx with
    | (.ok _, after) => exact ihnext after failed
    | (.error error, after) => rfl
  | rescue body next handler ihbody ihnext ihhandler =>
    simp only [exec, ihbody tx failed]
    match exec env body tx with
    | (.ok _, after) => exact ihnext after failed
    | (.error error, after) => exact ihhandler (tx.undo after) failed
  | op o next ih => simp only [exec, Tx.apply_since, ih]
  | afterCommit hook next ihhook ih =>
    cases hin : tx.inTransaction with
    | true => simp [exec, hin, ih]
    | false => simp [exec, hin, ih, ihhook]
  | afterCommitRecord table id hook next ihhook ih =>
    cases hin : tx.inTransaction with
    | true => simp [exec, hin, ih]
    | false => simp [exec, hin, ih, ihhook]
  | afterCommitRecordLatest key id hook next ihhook ih =>
    cases hin : tx.inTransaction with
    | true => simp [exec, hin, ih]
    | false => simp [exec, hin, ih, ihhook]
  | beforeCommitRecordLatest key id hook next ihhook ih =>
    cases hin : tx.inTransaction with
    | true => simp [exec, hin, ih]
    | false =>
      simp only [exec, Tx.inTransaction_since, hin, ihhook tx failed]
      match exec env hook tx with
      | (.ok _, after) => exact ih after failed
      | (.error error, after) => rfl

end Since

end Smartfire
