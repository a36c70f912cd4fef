/-
  File:      Smartfire/Cable/Rows.lean
  Subject:   Sidebar rows against changes of the unread state (crates/app/src/cable/sync.rs
             `RoomRows::{publish, rows, row}`, `send_unread_change`).

  A row is read from a snapshot of the database and published later; in between the person's unread
  state may change and the change be published. So a row is published only where no change was
  published since before its snapshot, else read again, and after a number of tries the person is
  told to refetch.

  The database is the sequence of its states after each commit, and a pass a task among any number
  of others over the sync server (Cable/Server.lean). Passes of one room exclude each other by a
  lock; that is left out, so that more orders are covered.

  * `Sidebar` -- what a pass reads and renders; `unreadFence`, `sendUnreadChange`;
  * `Pass`, `Pass.step` -- a pass and its next step; `Pass.step_cases` -- all a step can be;
  * `Rows`, `rowsSystem` -- any number of passes over the server and the database.
-/
import Smartfire.Cable.Fences
import Smartfire.Cable.Server

namespace Smartfire

open Lib

/-! ## 1. What a pass reads and publishes -/

/-- What a pass reads of a state of the database, and how it renders a row. -/
structure Sidebar (D R M W : Type) where
  /-- `Room::find_by_id`. -/
  findById : D → Int → Option R
  roomId : R → Int
  deleted : R → Bool
  /-- `Membership::for_room`. -/
  forRoom : D → Int → List M
  userId : M → Int
  /-- The viewer's row, unless they hid the room. -/
  sidebarRow : D → R → M → Option W
  /-- The text of the row's `sidebar.row.upserted`, with its `refresh_room`. -/
  upserted : W → Option Bool → ObjectText
  find_id : ∀ {d : D} {id : Int} {room : R}, findById d id = some room → roomId room = id

/-- The fence for a person's unread state in a room. -/
def unreadFence (user room : Int) : String := "unread:" ++ toString user ++ ":" ++ toString room

def roomTopic (room : Int) : String := "room:" ++ toString room

/-- The text of an object with the members given. -/
def ObjectText.ofMembers (members : String) : ObjectText where
  text := "\x7b" ++ members ++ "\x7d"
  object := by
    unfold objectMembers trimStart
    rw [String.append_assoc, String.toList_append]
    rfl

/-- The text of a `sidebar.row.removed`. -/
def rowRemoved (room : Int) (refreshRoom : Option Bool) : ObjectText :=
  let refresh := match refreshRoom with
    | some b => ",\"refreshRoom\":" ++ toString b
    | none => ""
  .ofMembers ("\"type\":\"sidebar.row.removed\",\"data\":\x7b\"roomId\":" ++ toString room ++ refresh ++
    "\x7d")

/-- `removed`: the person no longer belongs, and their connections stop following the room. -/
def removedRow (user room : Int) : SyncPublication where
  audience := .user user
  payload := rowRemoved room (some true)
  unsubscribe := some (roomTopic room)

/-- `hidden`: the person hid the room, while their connections go on following it. -/
def hiddenRow (user room : Int) (refreshRoom : Option Bool) : SyncPublication where
  audience := .user user
  payload := rowRemoved room refreshRoom

/-- Whether the task's person is counted in `People::open`. -/
def Phase.counted : Phase → Bool
  | .opened | .closing false | .closed => false
  | _ => true

/-- `Server::sync_connected`: whether the person has a sync socket open. -/
def Server.connected (s : Server) (user : Int) : Bool :=
  s.sockets.any fun t => t.conn.userId = user ∧ t.phase.counted = true

/-! ## 2. Passes -/

/-- How often a row is read at most (`TRIES`). -/
def maxTries : Nat := 8

/-- Who a room's row publication is for. -/
inductive Viewers where
  /-- The room's members as they are now. -/
  | members
  /-- These people: a row for each who still belongs, a removal for any who don't. -/
  | users (ids : List Int)

/-- One reading of a pass, from its snapshot. -/
structure Reading (D R : Type) where
  /-- Which of the tries it is. -/
  try_ : Fin maxTries
  /-- The `sync_head` read before the snapshot. -/
  since : Nat
  /-- How many commits the snapshot includes. -/
  commits : Nat
  state : D
  room : Option R

/-- Where a pass stands, by what it does next. -/
inductive PassPhase (D R M : Type) where
  /-- `sync_wanted` is next. -/
  | asking (viewers : Viewers)
  /-- `sync_head` is next. -/
  | heading (try_ : Fin maxTries) (viewers : Viewers)
  /-- The snapshot is next. -/
  | opening (try_ : Fin maxTries) (viewers : Viewers) (since : Nat)
  /-- The next viewer's row is next, then another try. -/
  | rows (reading : Reading D R) (todo : List (Int × Option M)) (refused : List Int)
  /-- The viewer is connected; their row is rendered and published next. -/
  | rendering (reading : Reading D R) (room : R) (membership : M) (todo : List (Int × Option M))
      (refused : List Int)
  /-- The tries are used up; each of these viewers is skipped. -/
  | givingUp (users : List Int)
  | done

/-- A call of `RoomRows::publish`. -/
structure Pass (D R M : Type) where
  room : Int
  refreshRoom : Option Bool
  /-- Whether a renderer is set. -/
  renderer : Bool
  phase : PassPhase D R M
  /-- The call of `sync_skipped_for` whose marker the pass is to push before it goes on. -/
  mark : Option Nat

/-- How a snapshot's opening and first readings go. -/
inductive SnapshotRead where
  /-- The transaction can't be opened. -/
  | unopened
  /-- The room or its memberships can't be read. -/
  | unread
  | read

/-- A step of a pass, with what its surroundings decide. -/
inductive PassAct where
  /-- The answer of the `call`-th `sync_wanted` call. -/
  | wanted (call : Nat)
  | head
  | snapshot (outcome : SnapshotRead)
  /-- The next viewer: a removal, a skip, or a row to render. -/
  | viewer (now : Nat)
  /-- The row, unless it can't be rendered. -/
  | render (now : Nat) (failed : Bool)
  | next
  /-- `sync_skipped_for` of the next viewer given up on. -/
  | skip

/-- What happened, for the record. -/
inductive RowEvent where
  /-- An event under the fence `key` was published at `seq`, for the `commit`-th commit. -/
  | fenced (key : String) (seq commit : Nat)
  /-- The viewer's row of the room was published at `seq`, read with this many commits. -/
  | upserted (user room : Int) (seq commits : Nat)
  /-- The viewer's row was refused in this try of the pass. -/
  | refused (pass : Nat) (try_ : Nat) (user : Int)
  /-- The pass skipped the viewer after its last try; the `call`-th marker stands for it, which was
      another call's where `covered`. -/
  | gaveUp (pass : Nat) (user : Int) (call : Nat) (covered : Bool)
deriving DecidableEq, Repr

/-- The server, the fences, the database and the passes. -/
structure Rows (D R M : Type) where
  server : Server
  fences : Fences
  /-- The database's state after each commit. -/
  commits : List D
  passes : List (Pass D R M)
  journal : List RowEvent

/-- A step of the passes and their surroundings. -/
inductive RowAct (D : Type) where
  | server (a : ServerAct)
  | commit (state : D)
  /-- `sync_publish_fencing`, for a commit made. -/
  | fence (now : Nat) (p : SyncPublication) (key : String) (commit : Nat)
  /-- `RoomRows::publish` is called. -/
  | publish (room : Int) (viewers : Viewers) (refreshRoom : Option Bool) (renderer : Bool)
  | pass (i : Nat) (a : PassAct)

/-- `send_unread_change`: a change to the person's unread state of the room, fencing it. -/
def sendUnreadChange {D : Type} (now : Nat) (user room : Int) (payload : ObjectText) (commit : Nat) :
    RowAct D :=
  .fence now { audience := .user user, payload := payload } (unreadFence user room) commit

/-! ## 3. The steps -/

section Steps

variable {D R M W : Type}

/-- The database after so many commits. -/
def stateAt (origin : D) (commits : List D) (n : Nat) : D := ((origin :: commits)[n]?).getD origin

/-- A pass, its server and what a step of it records. -/
structure PassOutcome (D R M : Type) where
  pass : Pass D R M
  server : Server
  events : List RowEvent

namespace Pass

variable (b : Sidebar D R M W) (eng : Engine) (cap : Nat) (origin : D) (s : Rows D R M) (i : Nat)
  (p : Pass D R M)

/-- A step that touches nothing else. -/
def goes (phase : PassPhase D R M) : Option (PassOutcome D R M) :=
  some ⟨{ p with phase := phase }, s.server, []⟩

/-- `sync_publish`. -/
def sends (now : Nat) (publication : SyncPublication) (phase : PassPhase D R M) :
    Option (PassOutcome D R M) :=
  some ⟨{ p with phase := phase },
    { s.server with hub := s.server.hub.publish eng.config now publication }, []⟩

/-- `sync_skipped_for`, up to its marker. -/
def skipsFor (user : Int) (phase : PassPhase D R M) (events : Nat → Bool → List RowEvent) :
    Option (PassOutcome D R M) :=
  match s.server.step eng cap (.skipFor user) with
  | some server =>
    match s.server.gapped.lookup user with
    | some call => some ⟨{ p with phase := phase, mark := none }, server, events call true⟩
    | none =>
      some ⟨{ p with phase := phase, mark := some s.server.skips.length }, server,
        events s.server.skips.length false⟩
  | none => none

/-- Who is to be looked at in a pass over the memberships read. -/
def todo (viewers : Viewers) (memberships : List M) : List (Int × Option M) :=
  match viewers with
  | .members => memberships.map fun m => (b.userId m, some m)
  | .users ids => ids.map fun id => (id, memberships.find? fun m => b.userId m = id)

/-- The pass goes on once its marker is pushed. -/
def ready : Bool := p.mark.all fun call => s.server.skips[call]? = some .marked

def step : PassAct → Option (PassOutcome D R M)
  | .wanted call =>
    match p.phase, s.server.wanted[call]? with
    | .asking viewers, some (.answered true) => p.goes s (.heading ⟨0, by decide⟩ viewers)
    | .asking _, some (.answered false) => p.goes s .done
    | _, _ => none
  | .head =>
    match p.phase with
    | .heading k viewers => p.goes s (.opening k viewers s.server.hub.sequence)
    | _ => none
  | .snapshot outcome =>
    match p.phase with
    | .opening k viewers since =>
      let state := stateAt origin s.commits s.commits.length
      let room := b.findById state p.room
      let memberships := if room.isSome then b.forRoom state p.room else []
      match outcome with
      | .unopened => p.goes s .done
      | .unread => p.goes s (.rows ⟨k, since, s.commits.length, state, none⟩ [] [])
      | .read => p.goes s (.rows ⟨k, since, s.commits.length, state, room⟩ (todo b viewers memberships) [])
    | _ => none
  | .viewer now =>
    match p.phase with
    | .rows r ((user, membership) :: todo) refused =>
      match r.room, membership, p.renderer with
      | some room, some m, true =>
        if b.deleted room then p.sends eng s now (removedRow user p.room) (.rows r todo refused)
        else if s.server.connected user then p.goes s (.rendering r room m todo refused)
        else p.skipsFor eng cap s user (.rows r todo refused) fun _ _ => []
      | _, _, _ => p.sends eng s now (removedRow user p.room) (.rows r todo refused)
    | _ => none
  | .render now failed =>
    match p.phase with
    | .rendering r room m todo refused =>
      let user := b.userId m
      if failed then p.goes s (.rows r todo refused)
      else match b.sidebarRow r.state room m with
        | none => p.sends eng s now (hiddenRow user p.room p.refreshRoom) (.rows r todo refused)
        | some row =>
          let publication : SyncPublication :=
            { audience := .user user, payload := b.upserted row p.refreshRoom }
          match publishFresh eng.config now publication (unreadFence user (b.roomId room)) r.since
            s.server.hub s.fences with
          | some hub =>
            some ⟨{ p with phase := .rows r todo refused }, { s.server with hub := hub },
              [.upserted user (b.roomId room) (s.server.hub.sequence + 1) r.commits]⟩
          | none =>
            some ⟨{ p with phase := .rows r todo (refused ++ [user]) }, s.server,
              [.refused i r.try_ user]⟩
    | _ => none
  | .next =>
    match p.phase with
    | .rows r [] refused =>
      if refused = [] then p.goes s .done
      else if h : r.try_ + 1 < maxTries then p.goes s (.heading ⟨r.try_ + 1, h⟩ (.users refused))
      else p.goes s (.givingUp refused)
    | .givingUp [] => p.goes s .done
    | _ => none
  | .skip =>
    match p.phase with
    | .givingUp (user :: users) =>
      p.skipsFor eng cap s user (.givingUp users) fun call covered => [.gaveUp i user call covered]
    | _ => none

end Pass

namespace Rows

variable (b : Sidebar D R M W) (eng : Engine) (cap : Nat) (origin : D) (s : Rows D R M)

def empty : Rows D R M := ⟨.empty, .empty, [], [], []⟩

/-- The step of pass `i` to `o`. -/
def after (i : Nat) (o : PassOutcome D R M) : Rows D R M :=
  { s with
    server := o.server
    passes := s.passes.set i o.pass
    journal := s.journal ++ o.events }

def step : RowAct D → Option (Rows D R M)
  | .server a => (s.server.step eng cap a).map fun server => { s with server := server }
  | .commit state => some { s with commits := s.commits ++ [state] }
  | .fence now p key commit =>
    if commit ≤ s.commits.length then
      let published := publishFencing eng.config now p key s.server.hub s.fences
      some { s with
        server := { s.server with hub := published.1 }
        fences := published.2
        journal := s.journal ++ [.fenced key (s.server.hub.sequence + 1) commit] }
    else none
  | .publish room viewers refreshRoom renderer =>
    some { s with passes := s.passes ++ [⟨room, refreshRoom, renderer, .asking viewers, none⟩] }
  | .pass i a =>
    match s.passes[i]? with
    | some p =>
      if p.ready s then
        match p.step b eng cap origin s i a with
        | some o => some (s.after i o)
        | none => none
      else none
    | none => none

end Rows

/-- The sync server with a database and its row passes, under any order of steps. -/
def rowsSystem (b : Sidebar D R M W) (eng : Engine) (cap : Nat) (origin : D) :
    System (Rows D R M) (RowAct D) where
  start s := s = .empty
  step := Rows.step b eng cap origin

end Steps

/-! ## 4. All a step of a pass can be -/

namespace PassPhase

variable {D R M : Type}

/-- The viewers refused in the present try, or given up on. -/
def refused : PassPhase D R M → List Int
  | .rows _ _ l | .rendering _ _ _ _ l | .givingUp l => l
  | _ => []

/-- How many tries have begun to publish. -/
def tries : PassPhase D R M → Nat
  | .asking _ => 0
  | .heading k _ | .opening k _ _ => k
  | .rows r _ _ | .rendering r _ _ _ _ => r.try_ + 1
  | .givingUp _ | .done => maxTries

/-- The reading under way. -/
def reading : PassPhase D R M → Option (Reading D R)
  | .rows r _ _ | .rendering r _ _ _ _ => some r
  | _ => none

/-- The `sync_head` the present try has read. -/
def since : PassPhase D R M → Option Nat
  | .opening _ _ since => some since
  | .rows r _ _ | .rendering r _ _ _ _ => some r.since
  | _ => none

/-- The memberships read and not looked at yet. -/
def members : PassPhase D R M → List M
  | .rows _ todo _ => todo.filterMap Prod.snd
  | .rendering _ _ m todo _ => m :: todo.filterMap Prod.snd
  | _ => []

theorem since_of_reading {q : PassPhase D R M} {r : Reading D R} (h : q.reading = some r) :
    q.since = some r.since := by
  cases q with
  | rows r' todo l => cases h; rfl
  | rendering r' room m todo l => cases h; rfl
  | _ => cases h

theorem tries_of_reading {q : PassPhase D R M} {r : Reading D R} (h : q.reading = some r) :
    q.tries = r.try_ + 1 := by
  cases q with
  | rows r' todo l => cases h; rfl
  | rendering r' room m todo l => cases h; rfl
  | _ => cases h

theorem tries_le (q : PassPhase D R M) : q.tries ≤ maxTries := by
  cases q with
  | asking => exact Nat.zero_le _
  | heading k | opening k => exact Nat.le_of_lt k.isLt
  | rows r | rendering r => exact r.try_.isLt
  | givingUp | done => exact Nat.le_refl _

end PassPhase

section Cases

variable {D R M W : Type} (b : Sidebar D R M W) (eng : Engine) (cap : Nat) (origin : D)
  (s : Rows D R M) (i : Nat) (p : Pass D R M)

/-- The text of the viewer's row, as it is published. -/
def Pass.upsert (row : W) (m : M) : SyncPublication :=
  { audience := .user (b.userId m), payload := b.upserted row p.refreshRoom }

/-- The steps of a pass, one constructor for each kind. -/
inductive Pass.Step : PassOutcome D R M → Prop where
  | asks (viewers : Viewers) (hp : p.phase = .asking viewers) :
      Step ⟨{ p with phase := .heading ⟨0, by decide⟩ viewers }, s.server, []⟩
  | ends (hr : p.phase.refused = []) :
      Step ⟨{ p with phase := .done }, s.server, []⟩
  | heads (k : Fin maxTries) (viewers : Viewers) (hp : p.phase = .heading k viewers) :
      Step ⟨{ p with phase := .opening k viewers s.server.hub.sequence }, s.server, []⟩
  | reads (k : Fin maxTries) (viewers : Viewers) (since : Nat) (room : Option R)
      (todo : List (Int × Option M)) (hp : p.phase = .opening k viewers since)
      (hroom : ∀ r, room = some r → b.findById (stateAt origin s.commits s.commits.length) p.room = some r)
      (htodo : ∀ m ∈ todo.filterMap Prod.snd,
        m ∈ b.forRoom (stateAt origin s.commits s.commits.length) p.room) :
      Step ⟨{ p with phase := .rows ⟨k, since, s.commits.length,
        stateAt origin s.commits s.commits.length, room⟩ todo [] }, s.server, []⟩
  | sends (now : Nat) (q : SyncPublication) (r : Reading D R) (todo : List (Int × Option M))
      (refused : List Int) (hr : p.phase.reading = some r) (hf : p.phase.refused = refused)
      (hm : ∀ m ∈ todo.filterMap Prod.snd, m ∈ p.phase.members) :
      Step ⟨{ p with phase := .rows r todo refused },
        { s.server with hub := s.server.hub.publish eng.config now q }, []⟩
  | unseen (user : Int) (server : Server) (mark : Option Nat) (r : Reading D R)
      (todo : List (Int × Option M)) (refused : List Int) (hr : p.phase.reading = some r)
      (hf : p.phase.refused = refused) (hm : ∀ m ∈ todo.filterMap Prod.snd, m ∈ p.phase.members)
      (hs : s.server.step eng cap (.skipFor user) = some server) :
      Step ⟨{ p with phase := .rows r todo refused, mark := mark }, server, []⟩
  | renders (r : Reading D R) (user : Int) (room : R) (m : M) (todo : List (Int × Option M))
      (refused : List Int) (hp : p.phase = .rows r ((user, some m) :: todo) refused)
      (hroom : r.room = some room) :
      Step ⟨{ p with phase := .rendering r room m todo refused }, s.server, []⟩
  | unrendered (r : Reading D R) (room : R) (m : M) (todo : List (Int × Option M)) (refused : List Int)
      (hp : p.phase = .rendering r room m todo refused) :
      Step ⟨{ p with phase := .rows r todo refused }, s.server, []⟩
  | upserts (now : Nat) (r : Reading D R) (room : R) (m : M) (todo : List (Int × Option M))
      (refused : List Int) (row : W) (hp : p.phase = .rendering r room m todo refused)
      (hrow : b.sidebarRow r.state room m = some row)
      (hc : s.fences.crossed (unreadFence (b.userId m) (b.roomId room)) r.since = false) :
      Step ⟨{ p with phase := .rows r todo refused },
        { s.server with hub := s.server.hub.publish eng.config now (p.upsert b row m) },
        [.upserted (b.userId m) (b.roomId room) (s.server.hub.sequence + 1) r.commits]⟩
  | refuses (r : Reading D R) (room : R) (m : M) (todo : List (Int × Option M)) (refused : List Int)
      (hp : p.phase = .rendering r room m todo refused) :
      Step ⟨{ p with phase := .rows r todo (refused ++ [b.userId m]) }, s.server,
        [.refused i r.try_ (b.userId m)]⟩
  | retries (r : Reading D R) (refused : List Int) (hp : p.phase = .rows r [] refused)
      (h : r.try_ + 1 < maxTries) :
      Step ⟨{ p with phase := .heading ⟨r.try_ + 1, h⟩ (.users refused) }, s.server, []⟩
  | exhausts (r : Reading D R) (refused : List Int) (hp : p.phase = .rows r [] refused) :
      Step ⟨{ p with phase := .givingUp refused }, s.server, []⟩
  | givesUp (user : Int) (users : List Int) (server : Server) (mark : Option Nat) (call : Nat)
      (covered : Bool) (hp : p.phase = .givingUp (user :: users))
      (hs : s.server.step eng cap (.skipFor user) = some server)
      (hc : Event.skipped user call ∈ server.journal) (hm : covered = false → mark = some call) :
      Step ⟨{ p with phase := .givingUp users, mark := mark }, server, [.gaveUp i user call covered]⟩

variable {b eng cap origin s i p}

/-- Skipping a person records the call whose marker stands for it. -/
theorem Pass.skipsFor_eq {user : Int} {phase : PassPhase D R M} {events : Nat → Bool → List RowEvent}
    {o : PassOutcome D R M} (ho : p.skipsFor eng cap s user phase events = some o) :
    ∃ server mark call covered, s.server.step eng cap (.skipFor user) = some server ∧
      o = ⟨{ p with phase := phase, mark := mark }, server, events call covered⟩ ∧
        Event.skipped user call ∈ server.journal ∧ (covered = false → mark = some call) := by
  unfold Pass.skipsFor at ho
  split at ho
  · next server hs =>
    rw [Server.step] at hs
    split at ho
    · next call hl =>
      rw [hl] at hs
      cases hs
      cases ho
      exact ⟨_, none, call, true, by rw [Server.step, hl], rfl,
        List.mem_append_right _ (List.mem_singleton.mpr rfl), fun h => by cases h⟩
    · next hl =>
      rw [hl] at hs
      cases hs
      cases ho
      exact ⟨_, some s.server.skips.length, _, false, by rw [Server.step, hl], rfl,
        List.mem_append_right _ (List.mem_singleton.mpr rfl), fun _ => rfl⟩
  · cases ho

theorem Pass.mem_todo {viewers : Viewers} {memberships : List M} {m : M}
    (hm : m ∈ (todo b viewers memberships).filterMap Prod.snd) : m ∈ memberships := by
  obtain ⟨⟨user, o⟩, hmem, ho⟩ := List.mem_filterMap.mp hm
  obtain rfl : o = some m := ho
  cases viewers with
  | members =>
    obtain ⟨m', hm', heq⟩ := List.mem_map.mp hmem
    cases heq
    exact hm'
  | users ids =>
    obtain ⟨id, _, heq⟩ := List.mem_map.mp hmem
    have hfind : memberships.find? (fun m => b.userId m = id) = some m := (Prod.mk.inj heq).2
    exact List.mem_of_find?_eq_some hfind

/-- **A step of a pass is one of its kinds.** -/
theorem Pass.step_cases {a : PassAct} {o : PassOutcome D R M}
    (ho : p.step b eng cap origin s i a = some o) : Pass.Step b eng cap origin s i p o := by
  cases a with
  | wanted call =>
    simp only [step] at ho
    split at ho
    · next viewers hp _ => cases ho; exact .asks viewers hp
    · next viewers hp _ => cases ho; exact .ends (by rw [hp]; rfl)
    · cases ho
  | head =>
    simp only [step] at ho
    split at ho
    · next k viewers hp => cases ho; exact .heads k viewers hp
    · cases ho
  | snapshot outcome =>
    simp only [step] at ho
    split at ho
    · next k viewers since hp =>
      cases outcome with
      | unopened => cases ho; exact .ends (by rw [hp]; rfl)
      | unread => cases ho; exact .reads k viewers since none [] hp nofun nofun
      | read =>
        cases ho
        refine .reads k viewers since _ _ hp (fun r hr => hr) fun m hm => ?_
        have hin := Pass.mem_todo hm
        split at hin
        · exact hin
        · cases hin
    · cases ho
  | viewer now =>
    simp only [step] at ho
    split at ho
    · next r user membership todo refused hp =>
      have hr : p.phase.reading = some r := by rw [hp]; rfl
      have hf : p.phase.refused = refused := by rw [hp]; rfl
      have hm : ∀ m ∈ todo.filterMap Prod.snd, m ∈ p.phase.members := by
        intro m hm
        obtain ⟨q, hq, hqm⟩ := List.mem_filterMap.mp hm
        rw [hp]
        exact List.mem_filterMap.mpr ⟨q, List.mem_cons_of_mem _ hq, hqm⟩
      split at ho
      · next room m hroom _ =>
        split at ho
        · cases ho; exact .sends now _ r todo refused hr hf hm
        · split at ho
          · cases ho; exact .renders r user room m todo refused hp hroom
          · obtain ⟨server, mark, _, _, hs, rfl, _⟩ := Pass.skipsFor_eq ho
            exact .unseen user server mark r todo refused hr hf hm hs
      · cases ho; exact .sends now _ r todo refused hr hf hm
    · cases ho
  | render now failed =>
    simp only [step] at ho
    split at ho
    · next r room m todo refused hp =>
      split at ho
      · cases ho; exact .unrendered r room m todo refused hp
      · split at ho
        · cases ho
          refine .sends now _ r todo refused (by rw [hp]; rfl) (by rw [hp]; rfl) fun m' hm' => ?_
          rw [hp]
          exact List.mem_cons_of_mem _ hm'
        · next row hrow =>
          unfold publishFresh at ho
          split at ho
          · next hub hhub =>
            split at hhub
            · cases hhub
            · next hc =>
              cases hhub
              cases ho
              exact .upserts now r room m todo refused row hp hrow (Bool.eq_false_iff.mpr hc)
          · cases ho; exact .refuses r room m todo refused hp
    · cases ho
  | next =>
    simp only [step] at ho
    split at ho
    · next r refused hp =>
      split at ho
      · next hnil =>
        cases ho
        exact .ends (by rw [hp]; exact hnil)
      · split at ho
        · next h => cases ho; exact .retries r refused hp h
        · cases ho; exact .exhausts r refused hp
    · next hp => cases ho; exact .ends (by rw [hp]; rfl)
    · cases ho
  | skip =>
    simp only [step] at ho
    split at ho
    · next user users hp =>
      obtain ⟨server, mark, call, covered, hs, rfl, hc, hm⟩ := Pass.skipsFor_eq ho
      exact .givesUp user users server mark call covered hp hs hc hm
    · cases ho

end Cases

end Smartfire
