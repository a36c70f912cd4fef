/-
  File:      Smartfire/Cable/Task.lean
  Subject:   One sync socket's task: `run` of crates/cable/src/sync/connection.rs.

  The task is a sequence of steps, each at most one lock acquisition: between any two of them the
  rest of the server may move. `Phase` is where the task stands. What `select!` chooses, what the
  client and the session say, what the clock shows and whether a write succeeds are labels
  (`TaskAct`), so every order of branches is a run.

  * `Frame` -- what the task writes; `Phase`, `Task`, `TaskAct`, `Effect`;
  * `Task.step` -- the task's next step, with the hub after it and what the step does elsewhere:
    a frame written, or the person's entry in `Engine::people` touched;
  * `Task.Step`, `Task.step_cases` -- all a step can be, one constructor for each.
-/
import Smartfire.Cable.Connection
import Smartfire.Lib.Broadcast

namespace Smartfire

open Lib

/-! ## 1. Frames and phases -/

/-- What ends a connection, once decided. -/
structure Bye where
  reconnect : Bool
  reason : String
deriving DecidableEq, Repr

/-- Which topics to refetch, and why. -/
structure Resync where
  topics : List String
  reason : String
deriving DecidableEq, Repr

/-- A frame of the server (`ServerFrame`). -/
inductive Frame where
  | welcome (epoch : String) (seq : Nat) (resumed : Bool) (replayThrough : Nat) (viewer : Int)
  | batch (events : List Wire)
  | resync (r : Resync)
  | ping
  | bye (b : Bye)
deriving DecidableEq, Repr

/-- The cursors a frame gives its client: a `welcome`'s sequence, and those of a batch's events. -/
def Frame.cursors : Frame → List Nat
  | .welcome _ seq _ _ _ => [seq]
  | .batch events => events.map Wire.seq
  | _ => []

/-- Whether the frame makes the client refetch: a `resync`, or a `welcome` that does not resume. -/
def Frame.refetches : Frame → Bool
  | .welcome _ _ resumed _ _ => !resumed
  | .resync _ => true
  | _ => false

/-- Whether a turn of the loop makes the frame. -/
def Frame.isTurn : Frame → Bool
  | .batch _ | .resync _ | .bye _ => true
  | _ => false

/-- A message on a person's internal channel: its sequence, and what
    `process_internal_reconnect` makes of its text. -/
structure InternalMessage where
  sequence : Nat
  reconnect : Option Bool
deriving DecidableEq, Repr

/-- A disconnect's sequence and `reconnect`. -/
def InternalMessage.disconnect (m : InternalMessage) : Option (Nat × Bool) :=
  m.reconnect.map (m.sequence, ·)

/-- Where the task stands, by what it does next. -/
inductive Phase where
  /-- Waiting for `hello`; the socket is counted in `observers`. -/
  | opened
  /-- `OpenPerson::new` is done; the `hello`'s topics are being followed. -/
  | greeted (point : Option (String × Int)) (topics : List String)
  /-- `Ring::resume` answered that the client resumes at the cursor; the replay is next. -/
  | resumed
  /-- The replay lost events; `lost`'s `refetched` is next. -/
  | replayLost
  /-- A fresh start; `welcome`'s `refetched` is next. -/
  | starting
  /-- The `welcome` is to be written: resuming at a point, or afresh at the cursor. -/
  | welcoming (start : Option Nat)
  /-- At the top of the loop. -/
  | turn
  /-- The topics of a `sub` frame are being followed. -/
  | following (topics : List String)
  /-- The turn's catch-up lost events; `lost`'s `refetched` is next. -/
  | catchLost (resync : Resync)
  /-- The turn's branch is done; a disconnect is looked for next. -/
  | selected (seen : Option (Nat × Bool)) (resync : Option Resync) (bye : Option Bye)
  /-- A disconnect at `sequence` was found; the reading before it is next. -/
  | cutting (sequence : Nat) (bye : Bye)
  /-- That reading lost events; `lost`'s `refetched` is next. -/
  | cutLost (sequence : Nat) (bye : Bye)
  /-- The turn's frames are to be made. -/
  | settling (resync : Option Resync) (bye : Option Bye)
  /-- These frames are to be written, then the loop goes on or is left. -/
  | writing (frames : List Frame) (last : Bool)
  /-- The loop is left; the guards are dropped next, the person's first. -/
  | closing (person : Bool)
  | closed
deriving DecidableEq, Repr

/-- One socket's task. -/
structure Task where
  phase : Phase
  conn : Connection
  /-- The subscription to the person's internal channel. -/
  internal : Receiver InternalMessage

/-- What the task's surroundings decide at a step. -/
inductive TaskAct where
  /-- `hello` arrives. -/
  | hello (point : Option (String × Int)) (topics : List String)
  /-- The socket goes: closed or failed, or turned away before its `hello`. -/
  | gone
  /-- The session's answer for the next topic to follow. -/
  | follow (authorized : Bool)
  | resume (now : Nat)
  /-- The next read of the ring: the replay, the head's change, or the reading before a cut. -/
  | catchUp (now : Nat)
  /-- `refetched`. -/
  | refetch
  /-- The branch of the internal channel. -/
  | internal
  /-- A branch that ends the connection: a restart, the client's silence, an expired session. -/
  | ends (bye : Bye)
  | sub (topics : List String)
  | unsub (topics : List String)
  /-- A branch that changes nothing here: the flush timer, another frame of the client's. -/
  | idle
  | ping
  | poll
  | settle (now : Nat) (session : Session)
  | write
  /-- The write fails. -/
  | fail
  /-- The task goes on where nothing is left to do. -/
  | proceed

/-- What a step does beside its task and the hub. -/
inductive Effect where
  | quiet
  | wrote (f : Frame)
  /-- `OpenPerson::new`: the person is counted and their gap marker's bit cleared. The `hello`'s
      resume point is named for the record. -/
  | openPerson (point : Option (String × Int))
  /-- `Engine::refetched`: the bit is cleared. -/
  | refetched
  | dropPerson
  | dropObserver
deriving DecidableEq, Repr

/-- The task, the hub and the effect of a step. -/
structure Outcome where
  task : Task
  hub : Hub
  effect : Effect

/-- The frames of a turn still to be written. -/
def Phase.frames : Phase → List Frame
  | .writing frames _ => frames
  | _ => []

/-- Where the task stands when its socket can go, and whether its person is counted by then. -/
def Phase.leaves : Phase → Option Bool
  | .opened => some false
  | .welcoming _ | .turn | .writing _ _ => some true
  | _ => none

/-- Whether the client's resume point is yet to be answered. -/
def Phase.greets : Phase → Bool
  | .opened | .greeted _ _ => true
  | _ => false

namespace Task

/-- The task of a socket just opened by `user`. -/
def opening (user : Int) : Task := ⟨.opened, .fresh user, .new⟩

/-- The `resync` of `lost`. -/
def resyncOf (conn : Connection) (reason : String) : Resync := ⟨conn.resyncTopics, reason⟩

/-- The `bye` for a remote disconnect. -/
def remote (reconnect : Bool) : Bye := ⟨reconnect, "remote"⟩

/-- What came before a gap, then the `resync`. -/
def gapFrames (cfg : SyncConfig) (session : Session) (resync : Option Resync) (c : Connection) :
    List Frame × Connection :=
  match resync with
  | some r => ((c.batches cfg session).map Frame.batch ++ [.resync r], c.taken)
  | none => ([], c)

/-- The pending batch, when it is due, full or the last. -/
def dueFrames (cfg : SyncConfig) (now : Nat) (session : Session) (last : Bool) (c : Connection) :
    List Frame × Connection :=
  if (c.flushAt.any fun t => t ≤ now) || c.full cfg || last then
    ((c.batches cfg session).map Frame.batch, c.taken)
  else ([], c)

/-- The frames of a turn, with the connection after them. -/
def turnFrames (cfg : SyncConfig) (now : Nat) (session : Session) (resync : Option Resync)
    (bye : Option Bye) (c : Connection) : List Frame × Connection :=
  let asked := gapFrames cfg session resync c
  let due := dueFrames cfg now session bye.isSome asked.2
  (asked.1 ++ due.1 ++ (bye.map Frame.bye).toList, due.2)

variable (eng : Engine) (cap : Nat) (h : Hub) (t : Task)

/-- A step that touches neither the hub nor anything else. -/
def goes (p : Phase) : Option Outcome := some ⟨{ t with phase := p }, h, .quiet⟩

/-- `Ring::resume`, and the first line of `welcome`. -/
def resume (now : Nat) (point : Option (String × Int)) : Outcome :=
  let answer := (h.resume eng now point).1
  ⟨{ t with
      phase := if answer.2 then .resumed else .starting
      conn := { t.conn with cursor := answer.1 } }, (h.resume eng now point).2, .quiet⟩

/-- The `welcome` frame. -/
def welcome (start : Option Nat) : Frame :=
  .welcome eng.epoch (start.getD t.conn.cursor) start.isSome t.conn.cursor t.conn.userId

/-- The replay of `welcome`: what was missed goes out straight away. -/
def replay (now : Nat) : Outcome :=
  match t.conn.catchUp eng.config now none true h with
  | ((none, conn), hub) =>
    ⟨{ t with
        phase := .welcoming (some t.conn.cursor)
        conn := { conn with flushAt := conn.flushAt.map fun _ => now } }, hub, .quiet⟩
  | ((some _, conn), hub) => ⟨{ t with phase := .replayLost, conn := conn }, hub, .quiet⟩

/-- The branch of the head's change. -/
def headChange (now : Nat) : Outcome :=
  match t.conn.catchUp eng.config now none false h with
  | ((none, conn), hub) => ⟨{ t with phase := .selected none none none, conn := conn }, hub, .quiet⟩
  | ((some reason, conn), hub) =>
    ⟨{ t with phase := .catchLost (resyncOf conn reason), conn := conn }, hub, .quiet⟩

/-- The reading before a disconnect at `sequence`, and the cut. -/
def cut (now sequence : Nat) (bye : Bye) : Outcome :=
  match t.conn.catchUp eng.config now (some sequence) false h with
  | ((none, conn), hub) =>
    ⟨{ t with phase := .settling none (some bye), conn := conn.cutOff sequence }, hub, .quiet⟩
  | ((some _, conn), hub) => ⟨{ t with phase := .cutLost sequence bye, conn := conn }, hub, .quiet⟩

/-- The look for a disconnect: the one seen this turn, else one on the internal channel by now. -/
def look (seen : Option (Nat × Bool)) : Option (Nat × Bool) × Receiver InternalMessage :=
  match seen with
  | some d => (some d, t.internal)
  | none => t.internal.poll InternalMessage.disconnect (nextPowerOfTwo cap + 1)

/-- `disconnect`, up to its reading; after a gap nothing more is read. -/
def poll (seen : Option (Nat × Bool)) (resync : Option Resync) (bye : Option Bye) : Outcome :=
  match t.look cap seen with
  | (none, internal) => ⟨{ t with phase := .settling resync bye, internal := internal }, h, .quiet⟩
  | (some (sequence, reconnect), internal) =>
    let bye := bye.getD (remote reconnect)
    if resync.isSome then
      ⟨{ t with
          phase := .settling none (some bye)
          conn := t.conn.cutOff sequence
          internal := internal }, h, .quiet⟩
    else ⟨{ t with phase := .cutting sequence bye, internal := internal }, h, .quiet⟩

/-- The next step of the task. -/
def step (a : TaskAct) : Option Outcome :=
  match t.phase, a with
  | .opened, .hello point topics =>
    some ⟨{ t with phase := .greeted point topics }, h, .openPerson point⟩
  | .opened, .gone => t.goes h (.closing false)
  | .greeted point (topic :: topics), .follow authorized =>
    let (more, conn) := t.conn.followOne eng.config h.ring.head authorized topic
    some ⟨{ t with phase := .greeted point (if more then topics else []), conn := conn }, h, .quiet⟩
  | .greeted point [], .resume now => some (t.resume eng h now point)
  | .resumed, .catchUp now => some (t.replay eng h now)
  | .replayLost, .refetch => some ⟨{ t with phase := .starting }, h, .refetched⟩
  | .starting, .refetch =>
    some ⟨{ t with phase := .welcoming none }, h, .refetched⟩
  | .welcoming start, .write =>
    some ⟨{ t with phase := .turn }, h, .wrote (t.welcome eng start)⟩
  | .welcoming _, .fail => t.goes h (.closing true)
  | .turn, .internal =>
    match t.internal.recv with
    | (.empty, _) => none
    | (.lagged, internal) =>
      some ⟨{ t with phase := .selected none none none, internal := internal }, h, .quiet⟩
    | (.message m, internal) =>
      some ⟨{ t with phase := .selected m.disconnect none none, internal := internal }, h, .quiet⟩
  | .turn, .ends bye => t.goes h (.selected none none (some bye))
  | .turn, .gone => t.goes h (.closing true)
  | .turn, .sub topics => t.goes h (.following topics)
  | .following (topic :: topics), .follow authorized =>
    let (more, conn) := t.conn.followOne eng.config h.ring.head authorized topic
    some ⟨{ t with phase := .following (if more then topics else []), conn := conn }, h, .quiet⟩
  | .following [], .proceed => t.goes h (.selected none none none)
  | .turn, .unsub topics =>
    some ⟨{ t with phase := .selected none none none, conn := t.conn.unsub topics }, h, .quiet⟩
  | .turn, .idle => t.goes h (.selected none none none)
  | .turn, .ping => some ⟨{ t with phase := .selected none none none }, h, .wrote .ping⟩
  | .turn, .catchUp now => some (t.headChange eng h now)
  | .catchLost resync, .refetch =>
    some ⟨{ t with phase := .selected none (some resync) none }, h, .refetched⟩
  | .selected seen resync bye, .poll => some (t.poll cap h seen resync bye)
  | .cutting sequence bye, .catchUp now => some (t.cut eng h now sequence bye)
  | .cutLost sequence bye, .refetch =>
    some ⟨{ t with phase := .settling none (some bye), conn := t.conn.cutOff sequence }, h,
      .refetched⟩
  | .settling resync bye, .settle now session =>
    let (frames, conn) := turnFrames eng.config now session resync bye t.conn
    some ⟨{ t with phase := .writing frames bye.isSome, conn := conn }, h, .quiet⟩
  | .writing (f :: frames) last, .write =>
    some ⟨{ t with phase := .writing frames last }, h, .wrote f⟩
  | .writing _ _, .fail => t.goes h (.closing true)
  | .writing [] last, .proceed => t.goes h (if last then .closing true else .turn)
  | .closing true, .proceed => some ⟨{ t with phase := .closing false }, h, .dropPerson⟩
  | .closing false, .proceed => some ⟨{ t with phase := .closed }, h, .dropObserver⟩
  | _, _ => none

/-! ## 2. All a step can be -/

open Connection in
/-- The steps of a task, one constructor for each kind. -/
inductive Step : TaskAct → Outcome → Prop where
  | hello (point : Option (String × Int)) (topics : List String) (hp : t.phase = .opened) :
      Step (.hello point topics) ⟨{ t with phase := .greeted point topics }, h, .openPerson point⟩
  | leaves (person : Bool) (hp : t.phase.leaves = some person) (a : TaskAct)
      (ha : a = .gone ∨ a = .fail) :
      Step a ⟨{ t with phase := .closing person }, h, .quiet⟩
  | followHello (point : Option (String × Int)) (topic : String) (topics rest : List String)
      (authorized more : Bool) (conn : Connection) (hp : t.phase = .greeted point (topic :: topics))
      (hf : t.conn.followOne eng.config h.ring.head authorized topic = (more, conn)) :
      Step (.follow authorized) ⟨{ t with phase := .greeted point rest, conn := conn }, h, .quiet⟩
  | resumes (now : Nat) (p : Int) (hp : t.phase = .greeted (some (eng.epoch, p)) []) (h0 : 0 ≤ p)
      (hhead : p.toNat ≤ h.ring.head) (hev : (h.evict eng.config now).ring.evictedThrough ≤ p.toNat)
      (hr : (h.resume eng now (some (eng.epoch, p))).1 = (p.toNat, true)) :
      Step (.resume now) ⟨{ t with phase := .resumed, conn := { t.conn with cursor := p.toNat } },
        (h.resume eng now (some (eng.epoch, p))).2, .quiet⟩
  | starts (now : Nat) (point : Option (String × Int)) (hp : t.phase = .greeted point [])
      (hr : (h.resume eng now point).1 = (h.ring.head, false)) :
      Step (.resume now) ⟨{ t with phase := .starting, conn := { t.conn with cursor := h.ring.head } },
        (h.resume eng now point).2, .quiet⟩
  | replayed (now : Nat) (conn : Connection) (hp : t.phase = .resumed)
      (hc : CatchUp eng.config now none true h t.conn (none, conn)) :
      Step (.catchUp now) ⟨{ t with
        phase := .welcoming (some t.conn.cursor)
        conn := { conn with flushAt := conn.flushAt.map fun _ => now } },
        h.evict eng.config now, .quiet⟩
  | replayLost (now : Nat) (reason : String) (conn : Connection) (hp : t.phase = .resumed)
      (hc : CatchUp eng.config now none true h t.conn (some reason, conn)) :
      Step (.catchUp now) ⟨{ t with phase := .replayLost, conn := conn }, h.evict eng.config now, .quiet⟩
  | refetchReplay (hp : t.phase = .replayLost) : Step .refetch ⟨{ t with phase := .starting }, h, .refetched⟩
  | refetchStart (hp : t.phase = .starting) :
      Step .refetch ⟨{ t with phase := .welcoming none }, h, .refetched⟩
  | welcomes (start : Option Nat) (hp : t.phase = .welcoming start) :
      Step .write ⟨{ t with phase := .turn }, h, .wrote (t.welcome eng start)⟩
  | lagged (internal : Receiver InternalMessage) (hp : t.phase = .turn)
      (hr : t.internal.recv = (.lagged, internal)) :
      Step .internal ⟨{ t with phase := .selected none none none, internal := internal }, h, .quiet⟩
  | received (m : InternalMessage) (internal : Receiver InternalMessage) (hp : t.phase = .turn)
      (hr : t.internal.recv = (.message m, internal)) :
      Step .internal ⟨{ t with phase := .selected m.disconnect none none, internal := internal }, h, .quiet⟩
  | branch (bye : Option Bye) (hp : t.phase = .turn ∨ t.phase = .following []) (a : TaskAct)
      (ha : a = .idle ∨ a = .proceed ∨ ∃ b, a = .ends b) :
      Step a ⟨{ t with phase := .selected none none bye }, h, .quiet⟩
  | sub (topics : List String) (hp : t.phase = .turn) :
      Step (.sub topics) ⟨{ t with phase := .following topics }, h, .quiet⟩
  | followSub (topic : String) (topics rest : List String) (authorized more : Bool)
      (conn : Connection) (hp : t.phase = .following (topic :: topics))
      (hf : t.conn.followOne eng.config h.ring.head authorized topic = (more, conn)) :
      Step (.follow authorized) ⟨{ t with phase := .following rest, conn := conn }, h, .quiet⟩
  | unsub (topics : List String) (hp : t.phase = .turn) :
      Step (.unsub topics) ⟨{ t with phase := .selected none none none, conn := t.conn.unsub topics }, h, .quiet⟩
  | ping (hp : t.phase = .turn) :
      Step .ping ⟨{ t with phase := .selected none none none }, h, .wrote .ping⟩
  | caughtUp (now : Nat) (conn : Connection) (hp : t.phase = .turn)
      (hc : CatchUp eng.config now none false h t.conn (none, conn)) :
      Step (.catchUp now) ⟨{ t with phase := .selected none none none, conn := conn },
        h.evict eng.config now, .quiet⟩
  | catchLost (now : Nat) (reason : String) (conn : Connection) (hp : t.phase = .turn)
      (hc : CatchUp eng.config now none false h t.conn (some reason, conn)) :
      Step (.catchUp now) ⟨{ t with phase := .catchLost (resyncOf conn reason), conn := conn },
        h.evict eng.config now, .quiet⟩
  | refetchCatch (resync : Resync) (hp : t.phase = .catchLost resync) :
      Step .refetch ⟨{ t with phase := .selected none (some resync) none }, h, .refetched⟩
  | unfound (seen : Option (Nat × Bool)) (resync : Option Resync) (bye : Option Bye)
      (internal : Receiver InternalMessage) (hp : t.phase = .selected seen resync bye)
      (hl : t.look cap seen = (none, internal)) :
      Step .poll ⟨{ t with phase := .settling resync bye, internal := internal }, h, .quiet⟩
  | foundGapped (seen : Option (Nat × Bool)) (resync : Resync) (bye : Option Bye) (sequence : Nat)
      (reconnect : Bool) (internal : Receiver InternalMessage)
      (hp : t.phase = .selected seen (some resync) bye)
      (hl : t.look cap seen = (some (sequence, reconnect), internal)) :
      Step .poll ⟨{ t with
        phase := .settling none (some (bye.getD (remote reconnect)))
        conn := t.conn.cutOff sequence
        internal := internal }, h, .quiet⟩
  | found (seen : Option (Nat × Bool)) (bye : Option Bye) (sequence : Nat) (reconnect : Bool)
      (internal : Receiver InternalMessage) (hp : t.phase = .selected seen none bye)
      (hl : t.look cap seen = (some (sequence, reconnect), internal)) :
      Step .poll ⟨{ t with phase := .cutting sequence (bye.getD (remote reconnect)), internal := internal },
        h, .quiet⟩
  | cut (now sequence : Nat) (bye : Bye) (conn : Connection) (hp : t.phase = .cutting sequence bye)
      (hc : CatchUp eng.config now (some sequence) false h t.conn (none, conn)) :
      Step (.catchUp now) ⟨{ t with phase := .settling none (some bye), conn := conn.cutOff sequence },
        h.evict eng.config now, .quiet⟩
  | cutLost (now sequence : Nat) (bye : Bye) (reason : String) (conn : Connection)
      (hp : t.phase = .cutting sequence bye)
      (hc : CatchUp eng.config now (some sequence) false h t.conn (some reason, conn)) :
      Step (.catchUp now) ⟨{ t with phase := .cutLost sequence bye, conn := conn },
        h.evict eng.config now, .quiet⟩
  | refetchCut (sequence : Nat) (bye : Bye) (hp : t.phase = .cutLost sequence bye) :
      Step .refetch ⟨{ t with phase := .settling none (some bye), conn := t.conn.cutOff sequence }, h,
        .refetched⟩
  | settles (now : Nat) (session : Session) (resync : Option Resync) (bye : Option Bye)
      (hp : t.phase = .settling resync bye) :
      Step (.settle now session) ⟨{ t with
        phase := .writing (turnFrames eng.config now session resync bye t.conn).1 bye.isSome
        conn := (turnFrames eng.config now session resync bye t.conn).2 }, h, .quiet⟩
  | writes (f : Frame) (frames : List Frame) (last : Bool) (hp : t.phase = .writing (f :: frames) last) :
      Step .write ⟨{ t with phase := .writing frames last }, h, .wrote f⟩
  | written (last : Bool) (hp : t.phase = .writing [] last) :
      Step .proceed ⟨{ t with phase := if last then .closing true else .turn }, h, .quiet⟩
  | dropPerson (hp : t.phase = .closing true) :
      Step .proceed ⟨{ t with phase := .closing false }, h, .dropPerson⟩
  | dropObserver (hp : t.phase = .closing false) :
      Step .proceed ⟨{ t with phase := .closed }, h, .dropObserver⟩

variable {eng cap h t}

theorem step_resume {now : Nat} {point : Option (String × Int)} (hp : t.phase = .greeted point []) :
    Step eng cap h t (.resume now) (t.resume eng h now point) := by
  have hans := Hub.resume_cases eng now h point
  unfold resume
  rcases hans with ⟨p, rfl, hr, h0, hhead, hev⟩ | hr
  · have hstep : Step eng cap h t (.resume now) _ := .resumes now p hp h0 hhead hev hr
    simpa only [hr, if_true] using hstep
  · simp only [hr]
    exact .starts now point hp hr

theorem step_replay {now : Nat} (hp : t.phase = .resumed) :
    Step eng cap h t (.catchUp now) (t.replay eng h now) := by
  have hout := Connection.catchUp_outcome eng.config now none true h t.conn
  have hhub : (t.conn.catchUp eng.config now none true h).2 = h.evict eng.config now := rfl
  unfold replay
  generalize t.conn.catchUp eng.config now none true h = r at hout hhub
  obtain ⟨⟨reason, conn⟩, hub⟩ := r
  cases hhub
  cases reason with
  | none => exact .replayed now conn hp hout
  | some reason => exact .replayLost now reason conn hp hout

theorem step_headChange {now : Nat} (hp : t.phase = .turn) :
    Step eng cap h t (.catchUp now) (t.headChange eng h now) := by
  have hout := Connection.catchUp_outcome eng.config now none false h t.conn
  have hhub : (t.conn.catchUp eng.config now none false h).2 = h.evict eng.config now := rfl
  unfold headChange
  generalize t.conn.catchUp eng.config now none false h = r at hout hhub
  obtain ⟨⟨reason, conn⟩, hub⟩ := r
  cases hhub
  cases reason with
  | none => exact .caughtUp now conn hp hout
  | some reason => exact .catchLost now reason conn hp hout

theorem step_cut {now sequence : Nat} {bye : Bye} (hp : t.phase = .cutting sequence bye) :
    Step eng cap h t (.catchUp now) (t.cut eng h now sequence bye) := by
  have hout := Connection.catchUp_outcome eng.config now (some sequence) false h t.conn
  have hhub : (t.conn.catchUp eng.config now (some sequence) false h).2 = h.evict eng.config now := rfl
  unfold cut
  generalize t.conn.catchUp eng.config now (some sequence) false h = r at hout hhub
  obtain ⟨⟨reason, conn⟩, hub⟩ := r
  cases hhub
  cases reason with
  | none => exact .cut now sequence bye conn hp hout
  | some reason => exact .cutLost now sequence bye reason conn hp hout

theorem step_poll {seen : Option (Nat × Bool)} {resync : Option Resync} {bye : Option Bye}
    (hp : t.phase = .selected seen resync bye) :
    Step eng cap h t .poll (t.poll cap h seen resync bye) := by
  unfold poll
  generalize hl : t.look cap seen = r
  obtain ⟨found, internal⟩ := r
  cases found with
  | none => exact .unfound seen resync bye internal hp hl
  | some d =>
    obtain ⟨sequence, reconnect⟩ := d
    cases resync with
    | none => exact .found seen bye sequence reconnect internal hp hl
    | some resync => exact .foundGapped seen resync bye sequence reconnect internal hp hl

/-- **A step is one of its kinds.** -/
theorem step_cases {a : TaskAct} {o : Outcome} (hs : t.step eng cap h a = some o) :
    Step eng cap h t a o := by
  unfold step at hs
  split at hs
  · next hp => cases hs; exact .hello _ _ hp
  · next hp => cases hs; exact .leaves false (by rw [hp]; rfl) _ (.inl rfl)
  · next hp => cases hs; exact .followHello _ _ _ _ _ _ _ hp rfl
  · next hp => cases hs; exact step_resume hp
  · next hp => cases hs; exact step_replay hp
  · next hp => cases hs; exact .refetchReplay hp
  · next hp => cases hs; exact .refetchStart hp
  · next hp => cases hs; exact .welcomes _ hp
  · next hp => cases hs; exact .leaves true (by rw [hp]; rfl) _ (.inr rfl)
  · next hp =>
    split at hs
    · cases hs
    · next hr => cases hs; exact .lagged _ hp hr
    · next hr => cases hs; exact .received _ _ hp hr
  · next hp => cases hs; exact .branch _ (.inl hp) _ (.inr (.inr ⟨_, rfl⟩))
  · next hp => cases hs; exact .leaves true (by rw [hp]; rfl) _ (.inl rfl)
  · next hp => cases hs; exact .sub _ hp
  · next hp => cases hs; exact .followSub _ _ _ _ _ _ hp rfl
  · next hp => cases hs; exact .branch _ (.inr hp) _ (.inr (.inl rfl))
  · next hp => cases hs; exact .unsub _ hp
  · next hp => cases hs; exact .branch _ (.inl hp) _ (.inl rfl)
  · next hp => cases hs; exact .ping hp
  · next hp => cases hs; exact step_headChange hp
  · next hp => cases hs; exact .refetchCatch _ hp
  · next hp => cases hs; exact step_poll hp
  · next hp => cases hs; exact step_cut hp
  · next hp => cases hs; exact .refetchCut _ _ hp
  · next hp => cases hs; exact .settles _ _ _ _ hp
  · next hp => cases hs; exact .writes _ _ _ hp
  · next hp => cases hs; exact .leaves true (by rw [hp]; rfl) _ (.inr rfl)
  · next hp => cases hs; exact .written _ hp
  · next hp => cases hs; exact .dropPerson hp
  · next hp => cases hs; exact .dropObserver hp
  · cases hs

/-- Only a `hello` counts a person, and names its own resume point. -/
theorem step_hello {a : TaskAct} {o : Outcome} {point : Option (String × Int)}
    (hs : t.step eng cap h a = some o) (he : o.effect = .openPerson point) :
    ∃ topics, a = .hello point topics := by
  cases step_cases hs with
  | hello _ topics => cases he; exact ⟨topics, rfl⟩
  | _ => cases he

/-! ## 3. What every step keeps -/

/-- A step evicts, resumes or leaves the hub alone: no sequence is taken, the log and the head
    stay. -/
theorem Step.hub {a : TaskAct} {o : Outcome} (hs : Step eng cap h t a o) :
    h.Grows o.hub ∧ o.hub.sequence = h.sequence ∧ o.hub.ring.head = h.ring.head ∧
      o.hub.log = h.log ∧ (h.ring.handedOut = true → o.hub.ring.handedOut = true) := by
  have hrefl : h.Grows h := .refl h
  have hev : ∀ now, h.Grows (h.evict eng.config now) := fun now => Hub.grows_evict
  have hres : ∀ now point, h.Grows (h.resume eng now point).2 := fun now point => Hub.grows_resume
  cases hs with
  | resumes now p => exact ⟨hres now (some (eng.epoch, p)), rfl, rfl, rfl, fun _ => rfl⟩
  | starts now point => exact ⟨hres now point, rfl, rfl, rfl, fun _ => rfl⟩
  | replayed now => exact ⟨hev now, rfl, rfl, rfl, id⟩
  | replayLost now => exact ⟨hev now, rfl, rfl, rfl, id⟩
  | caughtUp now => exact ⟨hev now, rfl, rfl, rfl, id⟩
  | catchLost now => exact ⟨hev now, rfl, rfl, rfl, id⟩
  | cut now => exact ⟨hev now, rfl, rfl, rfl, id⟩
  | cutLost now => exact ⟨hev now, rfl, rfl, rfl, id⟩
  | _ => exact ⟨hrefl, rfl, rfl, rfl, id⟩

/-- What a step does to the hub, as others see it. -/
theorem Step.hub_cases {a : TaskAct} {o : Outcome} (hs : Step eng cap h t a o) :
    o.hub = h ∨ (∃ now, o.hub = h.evict eng.config now) ∨
      ∃ now point, o.hub = (h.resume eng now point).2 := by
  cases hs with
  | resumes now p => exact .inr (.inr ⟨now, some (eng.epoch, p), rfl⟩)
  | starts now point => exact .inr (.inr ⟨now, point, rfl⟩)
  | replayed now | replayLost now | caughtUp now | catchLost now | cut now | cutLost now =>
    exact .inr (.inl ⟨now, rfl⟩)
  | _ => exact .inl rfl

section TurnFrames

variable {cfg : SyncConfig} {now : Nat} {session : Session} {resync : Option Resync}
  {bye : Option Bye} {last : Bool} {c : Connection} {f : Frame}

/-- A connection after its pending batch was written or kept: nothing else changes. -/
structure Flushed (c d : Connection) : Prop where
  userId : d.userId = c.userId
  topics : d.topics = c.topics
  cursor : d.cursor = c.cursor
  pending : d.pending = [] ∨ d = c

theorem flushed_taken (c : Connection) : Flushed c c.taken := ⟨rfl, rfl, rfl, .inl rfl⟩

theorem flushed_self (c : Connection) : Flushed c c := ⟨rfl, rfl, rfl, .inr rfl⟩

theorem flushed_gapFrames : Flushed c (gapFrames cfg session resync c).2 := by
  cases resync with
  | none => exact flushed_self c
  | some r => exact flushed_taken c

theorem flushed_dueFrames : Flushed c (dueFrames cfg now session last c).2 := by
  unfold dueFrames
  split
  · exact flushed_taken c
  · exact flushed_self c

theorem flushed_turnFrames : Flushed c (turnFrames cfg now session resync bye c).2 := by
  have h₁ : Flushed c (gapFrames cfg session resync c).2 := flushed_gapFrames
  have h₂ : Flushed (gapFrames cfg session resync c).2 (turnFrames cfg now session resync bye c).2 :=
    flushed_dueFrames
  refine ⟨h₂.userId.trans h₁.userId, h₂.topics.trans h₁.topics, h₂.cursor.trans h₁.cursor, ?_⟩
  rcases h₂.pending with h | h
  · exact .inl h
  · rw [h]
    exact h₁.pending

/-- A turn's frame is a batch of what is pending, the `resync` or the `bye`. -/
theorem mem_turnFrames (hf : f ∈ (turnFrames cfg now session resync bye c).1) :
    f ∈ (c.batches cfg session).map Frame.batch ∨ (∃ r, resync = some r ∧ f = .resync r) ∨
      ∃ b, bye = some b ∧ f = .bye b := by
  have hempty : c.taken.batches cfg session = [] := by
    have hnil : session.eventsForViewer [] = [] :=
      List.map_eq_nil_iff.mp (List.sublist_nil.mp (session.retains []))
    show chunks _ (session.eventsForViewer []) = []
    rw [hnil]
    rfl
  rcases List.mem_append.mp hf with hf | hf
  · rcases List.mem_append.mp hf with hf | hf
    · cases resync with
      | none => cases hf
      | some r =>
        rcases List.mem_append.mp hf with hf | hf
        · exact .inl hf
        · exact .inr (.inl ⟨r, rfl, List.mem_singleton.mp hf⟩)
    · unfold dueFrames at hf
      split at hf
      · cases resync with
        | none => exact .inl hf
        | some r =>
          -- what came before the gap was taken with the `resync`
          have hf' : f ∈ (c.taken.batches cfg session).map Frame.batch := hf
          rw [hempty] at hf'
          cases hf'
      · cases hf
  · cases bye with
    | none => cases hf
    | some b => exact .inr (.inr ⟨b, rfl, List.mem_singleton.mp hf⟩)

/-- A batch gives its client cursors of pending events only. -/
theorem cursors_batches (hf : f ∈ (c.batches cfg session).map Frame.batch) {x : Nat}
    (hx : x ∈ f.cursors) : ∃ e ∈ c.pending, e.seq = x := by
  obtain ⟨b, hb, rfl⟩ := List.mem_map.mp hf
  obtain ⟨w, hw, rfl⟩ := List.mem_map.mp hx
  have hmem : w ∈ session.eventsForViewer c.wires := mem_of_mem_chunks (by omega) hb hw
  have hseq : w.seq ∈ c.wires.map Wire.seq :=
    (session.retains c.wires).subset (List.mem_map_of_mem hmem)
  rw [Connection.wires, List.map_map] at hseq
  obtain ⟨e, he, heq⟩ := List.mem_map.mp hseq
  exact ⟨e, mem_of_mem_lastPerKey Entry.coalesce he, heq⟩

/-- **The turn's frames give the client cursors of pending events only.** -/
theorem cursors_turnFrames (hf : f ∈ (turnFrames cfg now session resync bye c).1) {x : Nat}
    (hx : x ∈ f.cursors) : ∃ e ∈ c.pending, e.seq = x := by
  rcases mem_turnFrames hf with hf | ⟨r, _, rfl⟩ | ⟨b, _, rfl⟩
  · exact cursors_batches hf hx
  · cases hx
  · cases hx

/-- The cursors the batches give are those of what the session leaves. -/
theorem flatMap_cursors_batches : ((c.batches cfg session).map Frame.batch).flatMap Frame.cursors =
    (session.eventsForViewer c.wires).map Wire.seq := by
  have hflat : (c.batches cfg session).flatten = session.eventsForViewer c.wires :=
    flatten_chunks (by omega) _
  rw [List.flatMap_map, ← hflat, List.map_flatten]
  rfl

/-- A batch that is due is the whole pending batch. -/
theorem dueFrames_cases :
    (dueFrames cfg now session last c).2.pending = [] ∧
        (dueFrames cfg now session last c).1.flatMap Frame.cursors =
          (session.eventsForViewer c.wires).map Wire.seq ∨
      (dueFrames cfg now session last c).2 = c ∧
        (dueFrames cfg now session last c).1.flatMap Frame.cursors = [] := by
  unfold dueFrames
  split
  · exact .inl ⟨rfl, flatMap_cursors_batches⟩
  · exact .inr ⟨rfl, rfl⟩

/-- **A turn writes the whole pending batch, or none of it.** -/
theorem turnFrames_cases :
    (turnFrames cfg now session resync bye c).2.pending = [] ∧
        (turnFrames cfg now session resync bye c).1.flatMap Frame.cursors =
          (session.eventsForViewer c.wires).map Wire.seq ∨
      (turnFrames cfg now session resync bye c).2 = c ∧
        (turnFrames cfg now session resync bye c).1.flatMap Frame.cursors = [] := by
  have hbye : (bye.map Frame.bye).toList.flatMap Frame.cursors = [] := by cases bye <;> rfl
  have hcursors : (turnFrames cfg now session resync bye c).1.flatMap Frame.cursors =
      (gapFrames cfg session resync c).1.flatMap Frame.cursors ++
        (dueFrames cfg now session bye.isSome (gapFrames cfg session resync c).2).1.flatMap
          Frame.cursors := by
    unfold turnFrames
    dsimp only
    rw [List.flatMap_append, List.flatMap_append, hbye, List.append_nil]
  rw [hcursors]
  cases resync with
  | none => exact dueFrames_cases
  | some r =>
    -- what came before the gap is taken with the `resync`, and nothing is left for the batch
    have hnil : session.eventsForViewer c.taken.wires = [] :=
      List.map_eq_nil_iff.mp (List.sublist_nil.mp (session.retains []))
    have hgap : (gapFrames cfg session (some r) c).1.flatMap Frame.cursors =
        (session.eventsForViewer c.wires).map Wire.seq := by
      unfold gapFrames
      rw [List.flatMap_append, flatMap_cursors_batches]
      exact List.append_nil _
    rw [hgap]
    have hcases := @dueFrames_cases cfg now session bye.isSome c.taken
    rcases hcases with ⟨hpend, hdue⟩ | ⟨hkept, hdue⟩
    · refine .inl ⟨hpend, ?_⟩
      rw [show (gapFrames cfg session (some r) c).2 = c.taken from rfl, hdue, hnil, List.map_nil,
        List.append_nil]
    · refine .inl ⟨?_, ?_⟩
      · rw [show (turnFrames cfg now session (some r) bye c).2 = c.taken from hkept]
        rfl
      · rw [show (gapFrames cfg session (some r) c).2 = c.taken from rfl, hdue, List.append_nil]

theorem isTurn_turnFrames (hf : f ∈ (turnFrames cfg now session resync bye c).1) :
    f.isTurn = true := by
  rcases mem_turnFrames hf with hf | ⟨r, _, rfl⟩ | ⟨b, _, rfl⟩
  · obtain ⟨b, _, rfl⟩ := List.mem_map.mp hf
    rfl
  · rfl
  · rfl

end TurnFrames

/-- The cursors the task is about to give its client. -/
def gives (t : Task) : List Nat :=
  match t.phase with
  | .welcoming start => [start.getD t.conn.cursor]
  | .writing frames _ => frames.flatMap Frame.cursors
  | _ => []

/-- Everything the task holds lies at or before the head; what it writes, a turn has made. -/
structure Bounded (head : Nat) (t : Task) : Prop where
  cursor : t.conn.cursor ≤ head
  pending : ∀ e ∈ t.conn.pending, e.seq ≤ head
  gives : ∀ x ∈ t.gives, x ≤ head
  frames : ∀ f ∈ t.phase.frames, f.isTurn = true

theorem Bounded.mono {head head' : Nat} (hb : t.Bounded head) (hle : head ≤ head') :
    t.Bounded head' :=
  ⟨Nat.le_trans hb.cursor hle, fun e he => Nat.le_trans (hb.pending e he) hle,
    fun x hx => Nat.le_trans (hb.gives x hx) hle, hb.frames⟩

/-- Tasks that agree in phase and connection are bounded alike. -/
theorem Bounded.congr {head : Nat} {t' : Task} (hb : t.Bounded head) (hp : t'.phase = t.phase)
    (hc : t'.conn = t.conn) : t'.Bounded head := by
  obtain ⟨phase', conn', internal'⟩ := t'
  obtain rfl : phase' = t.phase := hp
  obtain rfl : conn' = t.conn := hc
  exact ⟨hb.cursor, hb.pending, hb.gives, hb.frames⟩

theorem bounded_opening (head : Nat) (user : Int) : (opening user).Bounded head :=
  ⟨Nat.zero_le _, fun _ h => (List.not_mem_nil h).elim, fun _ h => (List.not_mem_nil h).elim,
    fun _ h => (List.not_mem_nil h).elim⟩

/-- A catch-up leaves the connection within the head. -/
theorem Bounded.catchUp {before : Option Nat} {replay : Bool} {now : Nat}
    {reason : Option String} {conn : Connection} (hb : t.Bounded h.ring.head)
    (hc : Connection.CatchUp eng.config now before replay h t.conn (reason, conn)) :
    conn.cursor ≤ h.ring.head ∧ ∀ e ∈ conn.pending, e.seq ≤ h.ring.head := by
  refine ⟨hc.cursor_le hb.cursor, fun e he => ?_⟩
  rcases hc.pending he with he | ⟨hlog, _, _⟩
  · exact hb.pending e he
  · exact h.keeps.bounded e hlog

/-- **A step keeps the task within the head.** -/
theorem Bounded.step {a : TaskAct} {o : Outcome} (hb : t.Bounded h.ring.head) (hs : Step eng cap h t a o) :
    o.task.Bounded o.hub.ring.head := by
  have hcut : ∀ (d : Nat) (c : Connection), (∀ e ∈ c.pending, e.seq ≤ h.ring.head) →
      ∀ e ∈ (c.cutOff d).pending, e.seq ≤ h.ring.head :=
    fun d c hc e he => hc e (List.mem_of_mem_filter he)
  have hnil : ∀ x ∈ ([] : List Nat), x ≤ h.ring.head := fun _ hx => (List.not_mem_nil hx).elim
  have hnone : ∀ f ∈ ([] : List Frame), f.isTurn = true := fun _ hf => (List.not_mem_nil hf).elim
  rw [hs.hub.2.2.1]
  cases hs with
  | followHello point topic topics rest authorized more conn hp hf =>
    rcases Connection.followOne_eq hf with rfl | ⟨_, rfl⟩ <;> exact ⟨hb.cursor, hb.pending, hnil, hnone⟩
  | followSub topic topics rest authorized more conn hp hf =>
    rcases Connection.followOne_eq hf with rfl | ⟨_, rfl⟩ <;> exact ⟨hb.cursor, hb.pending, hnil, hnone⟩
  | resumes now p hp h0 hhead => exact ⟨hhead, hb.pending, hnil, hnone⟩
  | starts => exact ⟨Nat.le_refl _, hb.pending, hnil, hnone⟩
  | replayed now conn hp hc =>
    obtain ⟨hcur, hpend⟩ := hb.catchUp hc
    exact ⟨hcur, hpend, fun x hx => List.mem_singleton.mp hx ▸ hb.cursor, hnone⟩
  | replayLost now reason conn hp hc =>
    obtain ⟨hcur, hpend⟩ := hb.catchUp hc
    exact ⟨hcur, hpend, hnil, hnone⟩
  | refetchStart hp => exact ⟨hb.cursor, hb.pending, fun x hx => List.mem_singleton.mp hx ▸ hb.cursor, hnone⟩
  | caughtUp now conn hp hc =>
    obtain ⟨hcur, hpend⟩ := hb.catchUp hc
    exact ⟨hcur, hpend, hnil, hnone⟩
  | catchLost now reason conn hp hc =>
    obtain ⟨hcur, hpend⟩ := hb.catchUp hc
    exact ⟨hcur, hpend, hnil, hnone⟩
  | foundGapped => exact ⟨hb.cursor, hcut _ _ hb.pending, hnil, hnone⟩
  | cut now sequence bye conn hp hc =>
    obtain ⟨hcur, hpend⟩ := hb.catchUp hc
    exact ⟨hcur, hcut _ _ hpend, hnil, hnone⟩
  | cutLost now sequence bye reason conn hp hc =>
    obtain ⟨hcur, hpend⟩ := hb.catchUp hc
    exact ⟨hcur, hpend, hnil, hnone⟩
  | refetchCut => exact ⟨hb.cursor, hcut _ _ hb.pending, hnil, hnone⟩
  | settles now session resync bye hp =>
    obtain ⟨_, _, hcur, hpend⟩ : Flushed t.conn (turnFrames eng.config now session resync bye t.conn).2 :=
      flushed_turnFrames
    refine ⟨hcur ▸ hb.cursor, fun e he => ?_, fun x hx => ?_, fun f hf => isTurn_turnFrames hf⟩
    · rcases hpend with hempty | hsame
      · rw [hempty] at he; cases he
      · rw [hsame] at he; exact hb.pending e he
    · obtain ⟨f, hf, hxf⟩ := List.mem_flatMap.mp hx
      obtain ⟨e, he, rfl⟩ := cursors_turnFrames hf hxf
      exact hb.pending e he
  | writes f frames last hp =>
    refine ⟨hb.cursor, hb.pending, fun x hx => hb.gives x ?_, fun g hg => hb.frames g ?_⟩
    · rw [Task.gives, hp]
      exact List.mem_append_right _ hx
    · rw [hp]
      exact List.mem_cons_of_mem _ hg
  | written last hp =>
    refine ⟨hb.cursor, hb.pending, ?_, ?_⟩
    · cases last <;> exact hnil
    · cases last <;> exact hnone
  | _ => exact ⟨hb.cursor, hb.pending, hnil, hnone⟩

/-- What a step gives the client, the task was about to give. -/
theorem Step.cursors {a : TaskAct} {o : Outcome} {f : Frame} (hs : Step eng cap h t a o) (hf : o.effect = .wrote f) :
    ∀ x ∈ f.cursors, x ∈ t.gives := by
  intro x hx
  cases hs with
  | welcomes start hp =>
    cases hf
    rw [gives, hp]
    exact hx
  | writes g frames last hp =>
    cases hf
    rw [gives, hp]
    exact List.mem_append_left _ hx
  | ping => cases hf; cases hx
  | _ => cases hf

theorem Step.userId {a : TaskAct} {o : Outcome} (hs : Step eng cap h t a o) : o.task.conn.userId = t.conn.userId := by
  cases hs with
  | followHello point topic topics rest authorized more conn hp hf =>
    rcases Connection.followOne_eq hf with rfl | ⟨_, rfl⟩ <;> rfl
  | followSub topic topics rest authorized more conn hp hf =>
    rcases Connection.followOne_eq hf with rfl | ⟨_, rfl⟩ <;> rfl
  | replayed now conn hp hc => exact hc.userId
  | replayLost now reason conn hp hc => exact hc.userId
  | caughtUp now conn hp hc => exact hc.userId
  | catchLost now reason conn hp hc => exact hc.userId
  | cut now sequence bye conn hp hc => exact hc.userId
  | cutLost now sequence bye reason conn hp hc => exact hc.userId
  | settles => exact flushed_turnFrames.userId
  | _ => rfl

theorem followOne_cursor {c conn : Connection} {topic : String} {authorized more : Bool}
    (hf : c.followOne eng.config h.ring.head authorized topic = (more, conn)) :
    conn.cursor = c.cursor ∧ conn.pending = c.pending := by
  rcases Connection.followOne_eq hf with rfl | ⟨_, rfl⟩ <;> exact ⟨rfl, rfl⟩

/-- Nothing is pending until the resume point is answered. -/
theorem Step.greets {a : TaskAct} {o : Outcome} (hs : Step eng cap h t a o) (hgreets : t.phase.greets = true → t.conn.pending = [])
    (ho : o.task.phase.greets = true) : o.task.conn.pending = [] := by
  cases hs with
  | hello point topics hp => exact hgreets (by rw [hp]; rfl)
  | followHello point topic topics rest authorized more conn hp hf =>
    rw [(followOne_cursor hf).2]
    exact hgreets (by rw [hp]; rfl)
  | written last hp => cases last <;> cases ho
  | _ => cases ho

end Task

end Smartfire
