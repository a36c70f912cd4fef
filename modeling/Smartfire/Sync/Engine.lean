/-
  File:      Smartfire/Sync/Engine.lean
  Subject:   The client's sync engine (frontend/src/sync/engine.ts): cursor, watermarks, resyncs.

  The main fiber takes frames in groups; a `user` resync waits for two reads, so it is a fiber of
  its own with its place in it, the main fiber's or one in the background. What the reads answer,
  and when, stands in the label. Of an event only its sequence and its type matter here.

  A watermark is a sequence of some server epoch. The code holds the bare number: the epoch beside
  it here (`Mark.epoch`) says whose sequence it is and is read by no step.

  * `sift` -- the loop of `applyEvents` over a batch;
  * `Engine.applyEvents`, `Engine.welcome`, `Engine.next` -- the main fiber;
  * `Engine.bootAnswers`, `Engine.sidebarAnswers`, `Engine.countAnswers` -- reads that answer;
  * `Entry` -- what a run has seen, in its order;
  * `engine` -- the system.
-/
import Mathlib.Data.List.Basic
import Smartfire.Lib.Runs

namespace Smartfire.SyncClient

open Lib

/-! ## 1. Frames -/

inductive EventType where
  | roomUnread
  | roomRead
  | sidebarRowUpserted
  | sidebarRowRemoved
  | workspaceLayoutUpdated
  | activityItem
  | activityRemoved
  | blocksUpdated (viewerId : Nat)
  | other (type : String)
deriving DecidableEq

structure SyncEvent where
  seq : Nat
  type : EventType
deriving DecidableEq

/-- `SNAPSHOT_EVENTS` -/
def snapshotEvents : EventType → Bool
  | .roomUnread | .roomRead | .sidebarRowUpserted | .sidebarRowRemoved | .workspaceLayoutUpdated => true
  | .activityItem | .activityRemoved => true
  | .blocksUpdated _ | .other _ => false

def isActivity : EventType → Bool
  | .activityItem | .activityRemoved => true
  | _ => false

structure Welcome where
  epoch : String
  seq : Nat
  resumed : Bool
  replayThrough : Nat
  viewerId : Option Nat
deriving DecidableEq

/-- A topic to read again: the user's own, or a room's or thread's. -/
inductive Topic where
  | user
  | timeline
deriving DecidableEq

inductive Frame where
  | batch (events : List SyncEvent)
  | ping
  | welcome (frame : Welcome)
  | resync (topics : List Topic)
  | bye (reconnect : Bool)
deriving DecidableEq

/-! ## 2. The engine -/

/-- A resume point. -/
structure Point where
  epoch : String
  seq : Nat
deriving DecidableEq

/-- Events up to here are covered. -/
structure Mark where
  seq : Nat
  epoch : String
deriving DecidableEq

/-- Where a resync stands in a `user` topic: in the boot read, or in the sidebar read. -/
inductive Stage where
  | boot
  | sidebar (signedIn : Bool) (read : Nat)
deriving DecidableEq

/-- A resync on its way, with its topics still to do. -/
structure Resync where
  topics : List Topic
  stage : Stage
  activityThrough : Option Mark
  sidebarThrough : Option Mark
deriving DecidableEq

/-- A read of the unread count on its way. -/
structure CountRead where
  read : Nat
  generation : Nat
  through : Option Mark
deriving DecidableEq

/-- Where the main fiber stands: in a group of frames, or in a resync it waits for. -/
inductive Main where
  | frames (events : List SyncEvent) (rest : List Frame)
  | resync (resync : Resync) (welcoming : Bool) (rest : List Frame)
deriving DecidableEq

/-- The snapshots that cover events. -/
inductive Kind where
  | sidebar
  | activity
deriving DecidableEq

/-- What a run has seen. -/
inductive Entry where
  | welcome (frame : Welcome) (before : Option Point)
  | received (events : List SyncEvent)
  /-- A batch with the cursor and generation it met, and what of it was applied to the store. -/
  | batch (point : Option Point) (generation : Nat) (events applied : List SyncEvent)
  | began (kind : Kind) (read : Nat)
  /-- A read's answer is in the store, in this epoch and generation. -/
  | installed (kind : Kind) (read : Nat) (epoch : Option String) (generation : Nat)
deriving DecidableEq

structure Engine where
  cursor : Option Point
  /-- The cursor came from storage, and no welcome has been handled yet. -/
  restored : Bool
  snapshotThrough : Option Mark
  activitySnapshotThrough : Nat × Option Mark
  /-- `store.activity.generation` -/
  generation : Nat
  userResyncStale : Bool
  me : Option Nat
  signedOut : Bool
  connected : Bool
  welcomed : Bool
  stopped : Bool
  main : Main
  background : List Resync
  counts : List CountRead
  reads : Nat
  log : List Entry
deriving DecidableEq

/-! ## 3. A batch -/

/-- `seq > point`, where no point is below all. -/
def pastCursor (point : Option Nat) (seq : Nat) : Bool :=
  match point with
  | none => true
  | some held => held < seq

def covers (through : Option Mark) (seq : Nat) : Bool :=
  match through with
  | none => false
  | some mark => seq ≤ mark.seq

/-- The loop over a batch: the greatest sequence seen, and the events to apply. -/
def sift (covered activityCovered : Option Mark) :
    List SyncEvent → Option Nat → List SyncEvent → Option Nat × List SyncEvent
  | [], seq, fresh => (seq, fresh)
  | event :: events, seq, fresh =>
    if pastCursor seq event.seq then
      let through := if isActivity event.type then activityCovered else covered
      if !(covers through event.seq && snapshotEvents event.type) then
        sift covered activityCovered events (some event.seq) (fresh ++ [event])
      else sift covered activityCovered events (some event.seq) fresh
    else sift covered activityCovered events seq fresh

namespace Engine

variable (s : Engine)

def signedInElsewhere (userId : Nat) : Bool :=
  match s.me with
  | none => false
  | some me => me ≠ userId

def note (entries : List Entry) : Engine := { s with log := s.log ++ entries }

def blocksOfOther : EventType → Bool
  | .blocksUpdated viewerId => s.signedInElsewhere viewerId
  | _ => false

def isBlocksUpdated : EventType → Bool
  | .blocksUpdated _ => true
  | _ => false

def activityCovered : Option Mark :=
  if s.activitySnapshotThrough.1 = s.generation then s.activitySnapshotThrough.2 else none

/-- Applies what is past the cursor and not covered, and moves the cursor. -/
def applyEvents (events : List SyncEvent) : Engine :=
  if s.signedOut then s
  else
    let start := s.cursor.map (·.seq)
    let (seq, fresh) := sift s.snapshotThrough s.activityCovered events start []
    let noted := s.note [.batch s.cursor s.generation events fresh]
    if seq = start then noted
    else if fresh.any (s.blocksOfOther ·.type) then { s with signedOut := true }
    else
      { noted with
        cursor := seq.map fun seq => ⟨(s.cursor.map (·.epoch)).getD "", seq⟩
        -- an ignore list changed: the user's topic is read again, beside the main fiber
        background :=
          if fresh.any (isBlocksUpdated ·.type) then s.background ++ [⟨[.user], .boot, none, none⟩]
          else s.background }

/-! ## 4. Welcomes and frames -/

/-- `refreshUnreadCount`: one more read of the count, in the generation it starts in. -/
def refreshUnreadCount (through : Option Mark) : Engine :=
  { s.note [.began .activity s.reads] with
    counts := s.counts ++ [⟨s.reads, s.generation, through⟩]
    reads := s.reads + 1 }

/-- A welcome, with the topics subscribed by then; `rest` is what is left of its group. -/
def welcome (frame : Welcome) (subscribed : List Topic) (rest : List Frame) : Engine :=
  if frame.viewerId.any s.signedInElsewhere then
    { s with signedOut := true, connected := false, stopped := true, main := .frames [] [] }
  else
    let mark : Mark := ⟨frame.replayThrough, frame.epoch⟩
    let s' : Engine :=
      { s.note [.welcome frame s.cursor] with
        restored := false
        generation := s.generation + 1
        activitySnapshotThrough := (s.generation + 1, none) }
    match s.cursor with
    | some point =>
      if frame.resumed then
        let s' := { s' with cursor := some ⟨frame.epoch, point.seq⟩ }
        if s.restored && point.seq < frame.replayThrough then
          { s' with main := .resync ⟨[.user], .boot, some mark, some mark⟩ true rest }
        else if s.userResyncStale then
          { s' with
            background := s.background ++ [⟨[.user], .boot, some mark, none⟩]
            welcomed := true
            main := .frames [] rest }
        else { s'.refreshUnreadCount (some mark) with welcomed := true, main := .frames [] rest }
      else
        { s' with
          cursor := some ⟨frame.epoch, frame.seq⟩
          main := .resync ⟨.user :: subscribed, .boot, some ⟨frame.seq, frame.epoch⟩, none⟩ true rest }
    | none =>
      { s' with
        cursor := some ⟨frame.epoch, frame.seq⟩
        main := .resync ⟨.user :: subscribed, .boot, some ⟨frame.seq, frame.epoch⟩, none⟩ true rest }

/-- Events gather until something else comes: then they are applied first. -/
def flushes : Bool :=
  match s.main with
  | .frames _ [] => true
  | .frames _ (.welcome _ :: _) | .frames _ (.bye _ :: _) => true
  | .frames _ (.resync _ :: _) => s.welcomed
  | _ => false

def pending : List SyncEvent :=
  match s.main with
  | .frames events _ => events
  | .resync _ _ _ => []

/-- The main fiber's next step: one frame of the group, its end, or the end of a resync. -/
def next (subscribed : List Topic) : Option Engine :=
  match s.main with
  | .frames [] [] => none
  | .frames events [] => some { s.applyEvents events with main := .frames [] [] }
  | .frames events (.batch batch :: rest) =>
    if s.welcomed then some { s.note [.received batch] with main := .frames (events ++ batch) rest }
    else some { s with main := .frames events rest }
  | .frames events (.ping :: rest) => some { s with main := .frames events rest }
  | .frames events (.welcome frame :: rest) => some ((s.applyEvents events).welcome frame subscribed rest)
  | .frames events (.resync topics :: rest) =>
    if s.welcomed then
      some { s.applyEvents events with main := .resync ⟨topics, .boot, none, none⟩ false rest }
    else some { s with main := .frames events rest }
  | .frames events (.bye reconnect :: _) =>
    some { s.applyEvents events with connected := false, stopped := !reconnect, main := .frames [] [] }
  | .resync r welcoming rest =>
    if r.topics ≠ [] then none
    else if welcoming then
      if s.signedOut then some { s with connected := false, stopped := true, main := .frames [] [] }
      else some { s with welcomed := true, main := .frames [] rest }
    else some { s with main := .frames [] rest }

/-! ## 5. Reads that answer -/

/-- The boot read of a `user` topic answers (for whom) or fails; the sidebar read starts. -/
def bootAnswers (answer : Option Nat) (r : Resync) : Option (Engine × Resync) :=
  match r.topics, r.stage with
  | .user :: _, .boot =>
    if answer.any s.signedInElsewhere then some ({ s with signedOut := true }, { r with topics := [] })
    else
      some ({ s.note [.began .sidebar s.reads] with reads := s.reads + 1 },
        { r with stage := .sidebar answer.isSome s.reads })
  | _, _ => none

/-- The sidebar read answers and is installed, or fails. -/
def sidebarAnswers (installed : Bool) (r : Resync) : Option (Engine × Resync) :=
  match r.topics, r.stage with
  | .user :: topics, .sidebar signedIn read =>
    let landed : Engine :=
      if installed then
        { s.note [.installed .sidebar read (s.cursor.map (·.epoch)) s.generation] with
          snapshotThrough := r.sidebarThrough.or s.snapshotThrough }
      else s
    let settled : Engine := { landed with userResyncStale := !signedIn || !installed }
    some (settled.refreshUnreadCount r.activityThrough, { r with topics := topics, stage := .boot })
  | _, _ => none

/-- A room's or thread's reads are done. -/
def timelineDone (r : Resync) : Option (Engine × Resync) :=
  match r.topics with
  | .timeline :: topics => some (s, { r with topics := topics })
  | _ => none

/-- `Math.max` -/
def later : Option Mark → Mark → Mark
  | none, mark => mark
  | some held, mark => if held.seq < mark.seq then mark else held

/-- A read of the count answers: the store takes it in the generation it started in. -/
def countAnswers (c : CountRead) : Engine :=
  if c.generation ≠ s.generation then s
  else
    let landed := s.note [.installed .activity c.read (s.cursor.map (·.epoch)) s.generation]
    match c.through with
    | none => landed
    | some mark =>
      if s.activitySnapshotThrough.1 = c.generation then
        { landed with
          activitySnapshotThrough := (c.generation, some (later s.activitySnapshotThrough.2 mark)) }
      else landed

/-- A step of the resync the main fiber waits for, or of one in the background. -/
def fiber (which : Option Nat) (f : Engine → Resync → Option (Engine × Resync)) : Option Engine :=
  match which with
  | none =>
    match s.main with
    | .resync r welcoming rest =>
      (f s r).map fun (s', r') => { s' with main := .resync r' welcoming rest }
    | _ => none
  | some i =>
    match s.background[i]? with
    | some r => (f s r).map fun (s', r') => { s' with background := s.background.set i r' }
    | none => none

end Engine

/-! ## 6. The system -/

inductive Label where
  | connect
  | drop
  | group (frames : List Frame)
  | next (subscribed : List Topic)
  | boot (which : Option Nat) (answer : Option Nat)
  | sidebar (which : Option Nat) (installed : Bool)
  | timeline (which : Option Nat)
  | count (i : Nat) (ok : Bool)
  /-- A change to an item timed out: a new generation, and the count is read again. -/
  | stalled
  /-- A reply outside the engine is for another account. -/
  | leave
deriving DecidableEq

def Engine.step (s : Engine) : Label → Option Engine
  | .connect =>
    -- the last connection has been followed to its end
    if s.connected || s.stopped || s.main ≠ .frames [] [] then none
    else some { s with connected := true, welcomed := false }
  | .drop => if s.connected && s.main = .frames [] [] then some { s with connected := false } else none
  | .group frames =>
    if s.connected && s.main = .frames [] [] then some { s with main := .frames [] frames } else none
  | .next subscribed => s.next subscribed
  | .boot which answer => s.fiber which fun s r => s.bootAnswers answer r
  | .sidebar which installed => s.fiber which fun s r => s.sidebarAnswers installed r
  | .timeline which => s.fiber which fun s r => s.timelineDone r
  | .count i ok =>
    match s.counts[i]? with
    | some c =>
      let s' := { s with counts := s.counts.eraseIdx i }
      some (if ok then s'.countAnswers c else s')
    | none => none
  | .stalled => some (Engine.refreshUnreadCount { s with generation := s.generation + 1 } none)
  | .leave => some { s with signedOut := true }

/-- A page opens, with a stored cursor or none. -/
def Engine.opened (cursor : Option Point) (generation : Nat) (me : Option Nat) : Engine where
  cursor := cursor
  restored := cursor.isSome
  snapshotThrough := none
  activitySnapshotThrough := (generation, none)
  generation := generation
  userResyncStale := false
  me := me
  signedOut := false
  connected := false
  welcomed := false
  stopped := false
  main := .frames [] []
  background := []
  counts := []
  reads := 0
  log := []

def engine : System Engine Label where
  start s := ∃ cursor generation me, s = Engine.opened cursor generation me
  step := Engine.step

end Smartfire.SyncClient
