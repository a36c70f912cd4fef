/-
  File:      Smartfire/Store/Timeline.lean
  Subject:   The loaded windows of rooms and threads (frontend/src/store/reducers.ts, ordering.ts).

  A timeline holds the ids of a stretch of a conversation, in order; the messages stand in one table. Pages
  land in five modes, live messages come in between, and a removed message leaves a tombstone for a while.

  * `compareMessages`, `insertOrdered` -- the order, and inserting by halving;
  * `Timeline`, `State` -- a window, and the part of the store the windows need;
  * `landPage`, `applyPage`, `applyThreadPage` -- landing a page;
  * `setPageLoading`, `setPageReplacing`, `setPageFailed` and theirs for threads -- requests;
  * `receiveMessage`, `updateMessage`, `removeMessage`, `prune` and the other changes of a message.

  Users, saved marks and typists are left out. Tables are functions.
-/
import Mathlib.Logic.Function.Basic
import Smartfire.Lib.Bisect
import Smartfire.Store.Copies

namespace Smartfire.Timelines

variable {V : Type}

/-! ## 1. Order -/

/-- `compareMessages` -/
def compareMessages (left right : Message V) : Int :=
  if left.createdAt ≠ right.createdAt then if left.createdAt < right.createdAt then -1 else 1
  else left.id - right.id

/-- The messages by id. -/
abbrev Table (V : Type) := Int → Option (Message V)

/-- `insertOrdered` -/
def insertOrdered (ids : List Int) (message : Message V) (messages : Table V) : List Int :=
  if message.id ∈ ids then ids
  else
    let low := Lib.bisect (fun middle =>
      (messages (ids.getD middle (-1))).any fun other => decide (compareMessages other message < 0)) 0 ids.length
    ids.take low ++ message.id :: ids.drop low

/-! ## 2. Windows -/

inductive LoadStatus where
  | idle
  | loading
  | ready
  | error
deriving DecidableEq, Repr

structure Timeline where
  ids : List Int
  before : Option Int
  after : Option Int
  status : LoadStatus
  loadingOlder : Bool
  loadingNewer : Bool
  olderRequest : Nat
  newerRequest : Nat
  unreadFromId : Option Int
  unreadCount : Nat
  generation : Nat
  arrived : Option (List Int)
deriving DecidableEq, Repr

def emptyTimeline : Timeline := ⟨[], none, none, .idle, false, false, 0, 0, none, 0, 0, none⟩

/-- A message on its way to the server. -/
structure PendingMessage where
  clientMessageId : String
  roomId : Int
  threadId : Option Int
deriving DecidableEq, Repr

structure State (V : Type) where
  messages : Table V
  timelines : Int → Option Timeline
  threadTimelines : Int → Option Timeline
  tombstones : Int → Option Int
  removedThreads : Int → Bool
  pending : String → Option PendingMessage
  pendingByRoom : Int → List String
  pendingByThread : Int → List String

def initialState : State V :=
  ⟨fun _ => none, fun _ => none, fun _ => none, fun _ => none, fun _ => false, fun _ => none, fun _ => [], fun _ => []⟩

/-- What the server answers with: messages in its order, and the cursors. -/
structure MessagePage (V : Type) where
  messages : List (Message V)
  before : Option Int
  after : Option Int

inductive PageMode where
  | replace
  | older
  | newer
  | refresh
  | resync
deriving DecidableEq, Repr

inductive PageDirection where
  | older
  | newer
deriving DecidableEq, Repr

def timelineOf (state : State V) (roomId : Int) : Timeline := (state.timelines roomId).getD emptyTimeline

def threadTimelineOf (state : State V) (threadId : Int) : Timeline :=
  (state.threadTimelines threadId).getD emptyTimeline

def withTimeline (state : State V) (roomId : Int) (timeline : Timeline) : State V :=
  { state with timelines := Function.update state.timelines roomId (some timeline) }

def withThreadTimeline (state : State V) (threadId : Int) (timeline : Timeline) : State V :=
  { state with threadTimelines := Function.update state.threadTimelines threadId (some timeline) }

/-! ## 3. Requests -/

def requestId (timeline : Timeline) : PageDirection → Nat
  | .older => timeline.olderRequest
  | .newer => timeline.newerRequest

/-- `staleRequest` -/
def staleRequest (timeline : Timeline) (mode : PageMode) (request : Option Nat) : Bool :=
  match mode, request with
  | .older, some request => timeline.olderRequest ≠ request
  | .newer, some request => timeline.newerRequest ≠ request
  | _, _ => false

def beginDirectional (timeline : Timeline) : PageDirection → Timeline
  | .older => { timeline with loadingOlder := true, olderRequest := timeline.olderRequest + 1 }
  | .newer => { timeline with loadingNewer := true, newerRequest := timeline.newerRequest + 1 }

/-- `clearOwned` -/
def clearOwned (timeline : Timeline) (direction : PageDirection) (request : Option Nat) : Option Timeline :=
  if request ≠ some (requestId timeline direction) then none
  else
    match direction with
    | .older => some { timeline with loadingOlder := false }
    | .newer => some { timeline with loadingNewer := false }

/-! ## 4. Landing a page -/

/-- `withoutMissing` -/
def withoutMissing (ids pageIds : List Int) (messages : Table V) : List Int :=
  match messages (pageIds.head?.getD (-1)), messages (pageIds.getLast?.getD (-1)) with
  | some first, some last =>
    ids.filter fun id =>
      match messages id with
      | none => true
      | some message =>
        decide (id ∈ pageIds) || decide (compareMessages message first < 0) || decide (0 < compareMessages message last)
  | _, _ => ids

/-- `heldNewest` -/
def heldNewest (timeline : Timeline) : Option Int :=
  timeline.ids.reverse.find? fun id => id ∉ timeline.arrived.getD []

def removePending (state : State V) (clientMessageId : String) : State V :=
  match state.pending clientMessageId with
  | none => state
  | some pending =>
    let rest := Function.update state.pending clientMessageId none
    match pending.threadId with
    | some threadId =>
      { state with
        pending := rest
        pendingByThread := Function.update state.pendingByThread threadId
          ((state.pendingByThread threadId).filter (· ≠ clientMessageId)) }
    | none =>
      { state with
        pending := rest
        pendingByRoom := Function.update state.pendingByRoom pending.roomId
          ((state.pendingByRoom pending.roomId).filter (· ≠ clientMessageId)) }

section Land

variable [DecidableEq V]

/-- A message of a page: a removed one is skipped. -/
def landMessage (state : State V) (messages : Table V) (message : Message V) : Table V :=
  if (state.tombstones message.id).isSome then messages
  else
    match reconcileMessage (messages message.id) message true with
    | none => messages
    | some kept => Function.update messages message.id (some kept)

/-- What landing a page makes of the messages. -/
def landMessages (state : State V) (page : MessagePage V) : Table V :=
  page.messages.foldl (landMessage state) state.messages

/-- The page's ids, without the removed ones. -/
def pageIds (state : State V) (page : MessagePage V) : List Int :=
  (page.messages.filter fun message => (state.tombstones message.id).isNone).map (·.id)

/-- One round of `insertAll`. -/
def insertId (state : State V) (messages : Table V) (merged : List Int) (id : Int) : List Int :=
  match messages id with
  | some message => if (state.tombstones id).isNone then insertOrdered merged message messages else merged
  | none => merged

def insertAll (state : State V) (messages : Table V) (into add : List Int) : List Int :=
  add.foldl (insertId state messages) into

/-- The ids and cursors of the window a page makes. -/
def landIds (state : State V) (timeline : Timeline) (page : MessagePage V) (mode : PageMode) :
    List Int × Option Int × Option Int :=
  let messages := landMessages state page
  let onPage := pageIds state page
  match mode with
  | .replace =>
    (if page.after.isNone then insertAll state messages onPage (timeline.arrived.getD []) else onPage,
      page.before, page.after)
  | .refresh =>
    let ids := insertAll state messages (withoutMissing timeline.ids onPage messages) onPage
    (ids, if ids ≠ [] ∧ onPage.head? = ids.head? then page.before else timeline.before,
      if ids ≠ [] ∧ onPage.getLast? = ids.getLast? then page.after else timeline.after)
  | mode =>
    (insertAll state messages timeline.ids onPage, if mode = .newer then timeline.before else page.before,
      if mode = .older then timeline.after else page.after)

/-- `landPage`, in the modes but `resync`. -/
def landWindow (state : State V) (timeline : Timeline) (page : MessagePage V) (mode : PageMode) :
    State V × Timeline :=
  let reconciled := page.messages.foldl (fun state message => removePending state message.clientMessageId) state
  let (ids, before, after) := landIds state timeline page mode
  ({ reconciled with messages := landMessages state page },
    { timeline with
      ids := ids
      status := .ready
      before := before
      after := after
      loadingOlder := if mode = .replace ∨ mode = .older then false else timeline.loadingOlder
      loadingNewer := if mode = .replace ∨ mode = .newer then false else timeline.loadingNewer
      olderRequest := if mode = .replace then timeline.olderRequest + 1 else timeline.olderRequest
      newerRequest := if mode = .replace then timeline.newerRequest + 1 else timeline.newerRequest
      generation := if mode = .replace then timeline.generation + 1 else timeline.generation
      arrived := if mode = .replace ∨ mode = .refresh then none else timeline.arrived })

/-- `landNewest` -/
def landNewest (state : State V) (timeline : Timeline) (page : MessagePage V) : State V × Timeline :=
  match heldNewest timeline, page.messages.head? with
  | some newest, some oldest =>
    if timeline.status ≠ .ready then landWindow state timeline page .replace
    else if timeline.after.isSome then (state, timeline)
    else if (state.messages newest).any fun held =>
        page.before.isNone || decide (compareMessages oldest held ≤ 0) then
      landWindow state timeline page .refresh
    else
      -- a gap between the window and the page
      (state, { timeline with
        ids := timeline.ids.filter (· ∉ timeline.arrived.getD []), after := some newest, arrived := none })
  | _, _ => landWindow state timeline page .replace

/-- `landPage` -/
def landPage (state : State V) (timeline : Timeline) (page : MessagePage V) (mode : PageMode) : State V × Timeline :=
  if mode = .resync then landNewest state timeline page else landWindow state timeline page mode

/-- `withoutRemovedIndicators` -/
def withoutRemovedIndicators (state : State V) (page : MessagePage V) : MessagePage V :=
  { page with
    messages := page.messages.map fun message =>
      if message.thread.any fun thread => state.removedThreads thread.threadId then { message with thread := none }
      else message }

def applyPage (state : State V) (roomId : Int) (page : MessagePage V) (mode : PageMode) (request : Option Nat) :
    State V :=
  let timeline := timelineOf state roomId
  if staleRequest timeline mode request then state
  else
    let (state, timeline) := landPage state timeline (withoutRemovedIndicators state page) mode
    withTimeline state roomId timeline

def applyThreadPage (state : State V) (threadId : Int) (page : MessagePage V) (mode : PageMode)
    (request : Option Nat) : State V :=
  let timeline := threadTimelineOf state threadId
  if staleRequest timeline mode request || state.removedThreads threadId then state
  else
    let (state, timeline) := landPage state timeline page mode
    withThreadTimeline state threadId timeline

end Land

/-! ## 5. Requests and the divider -/

def setPageLoading (state : State V) (roomId : Int) (direction : PageDirection) : State V :=
  withTimeline state roomId (beginDirectional (timelineOf state roomId) direction)

def setPageReplacing (state : State V) (roomId : Int) : State V :=
  withTimeline state roomId { timelineOf state roomId with arrived := some [] }

def setThreadPageReplacing (state : State V) (threadId : Int) : State V :=
  withThreadTimeline state threadId { threadTimelineOf state threadId with arrived := some [] }

/-- `setPageFailed`; without a direction it is the fresh window's. -/
def setPageFailed (state : State V) (roomId : Int) (direction : Option PageDirection) (request : Option Nat) :
    State V :=
  let timeline := timelineOf state roomId
  match direction with
  | some direction =>
    match clearOwned timeline direction request with
    | none => state
    | some cleared => withTimeline state roomId cleared
  | none =>
    withTimeline state roomId { timeline with
      arrived := none, loadingOlder := false, loadingNewer := false
      status := if timeline.status = .loading then .error else timeline.status }

def setThreadPageLoading (state : State V) (threadId : Int) (direction : PageDirection) : State V :=
  let timeline := threadTimelineOf state threadId
  withThreadTimeline state threadId { beginDirectional timeline direction with
    status := if timeline.status = .idle then .loading else timeline.status }

def setThreadPageFailed (state : State V) (threadId : Int) (direction : Option PageDirection)
    (request : Option Nat) : State V :=
  let timeline := threadTimelineOf state threadId
  match direction with
  | some direction =>
    match clearOwned timeline direction request with
    | none => state
    | some cleared => withThreadTimeline state threadId cleared
  | none =>
    withThreadTimeline state threadId { timeline with
      arrived := none, loadingOlder := false, loadingNewer := false
      status := if timeline.status = .loading ∨ timeline.status = .idle then .error else timeline.status }

/-- `clearThreadPageLoading`; without a direction it is the fresh window's. -/
def clearThreadPageLoading (state : State V) (threadId : Int) (direction : Option PageDirection)
    (request : Option Nat) : State V :=
  match state.threadTimelines threadId with
  | none => state
  | some timeline =>
    match direction with
    | some direction =>
      match clearOwned timeline direction request with
      | none => state
      | some cleared => withThreadTimeline state threadId cleared
    | none =>
      withThreadTimeline state threadId { timeline with
        arrived := none, loadingOlder := false, loadingNewer := false }

/-- `moveUnreadDivider` -/
def moveUnreadDivider (state : State V) (roomId fromId : Int) : State V :=
  match state.timelines roomId with
  | none => state
  | some timeline =>
    if fromId ∈ timeline.ids then
      withTimeline state roomId { timeline with
        unreadFromId := some fromId, unreadCount := timeline.ids.length - timeline.ids.idxOf fromId }
    else state

def clearUnreadDivider (state : State V) (roomId : Int) : State V :=
  match state.timelines roomId with
  | none => state
  | some timeline =>
    if timeline.unreadFromId.isNone then state
    else withTimeline state roomId { timeline with unreadFromId := none, unreadCount := 0 }

/-- `setRoomDetail`, for the timeline: the divider of a window that is not loaded yet. -/
def setRoomDetail (state : State V) (roomId : Int) (firstUnreadMessageId : Option Int) (count : Nat) : State V :=
  let timeline := timelineOf state roomId
  withTimeline state roomId (if timeline.status = .ready then timeline
    else { timeline with unreadFromId := firstUnreadMessageId, unreadCount := count })

/-! ## 6. Messages -/

def addPending (state : State V) (pending : PendingMessage) : State V :=
  let all := Function.update state.pending pending.clientMessageId (some pending)
  match pending.threadId with
  | some threadId =>
    { state with
      pending := all
      pendingByThread := Function.update state.pendingByThread threadId
        (state.pendingByThread threadId ++ [pending.clientMessageId]) }
  | none =>
    { state with
      pending := all
      pendingByRoom := Function.update state.pendingByRoom pending.roomId
        (state.pendingByRoom pending.roomId ++ [pending.clientMessageId]) }

/-- Writes the timeline a message belongs to. -/
def withMessageTimeline (state : State V) (message : Message V) (timeline : Timeline) : State V :=
  match message.threadId with
  | none => withTimeline state message.roomId timeline
  | some threadId => withThreadTimeline state threadId timeline

def messageTimeline (state : State V) (message : Message V) : Option Timeline :=
  match message.threadId with
  | none => state.timelines message.roomId
  | some threadId => state.threadTimelines threadId

section Messages

variable [DecidableEq V]

/-- `receiveMessage` -/
def receiveMessage (state : State V) (message : Message V) : State V :=
  let reconciled := removePending state message.clientMessageId
  if (state.tombstones message.id).isSome then reconciled
  else
    let held := reconciled.messages message.id
    match reconcileMessage held message false with
    | none => reconciled
    | some kept =>
      let landed := { reconciled with messages := Function.update reconciled.messages message.id (some kept) }
      match messageTimeline reconciled message with
      | none => if held.isNone then reconciled else landed
      | some timeline =>
        let waiting := { timeline with
          arrived := timeline.arrived.map fun arrived => arrived.filter (· ≠ message.id) ++ [message.id] }
        let visibleSend := timeline.arrived.isSome && (state.pending message.clientMessageId).isSome
        if timeline.status ≠ .ready ∨ (timeline.after.isSome ∧ visibleSend = false) then
          if timeline.arrived.isNone then if held.isNone then reconciled else landed
          else withMessageTimeline landed message waiting
        else
          withMessageTimeline landed message
            { waiting with ids := insertOrdered timeline.ids message landed.messages }

/-- Writes a held message. -/
def withMessage (state : State V) (message : Message V) : State V :=
  { state with messages := Function.update state.messages message.id (some message) }

def updateMessage (state : State V) (message : Message V) : State V :=
  match state.messages message.id with
  | none => state
  | some held =>
    match reconcileMessage (some held) message false with
    | none => state
    | some kept => { state with messages := Function.update state.messages message.id (some kept) }

/-- `TOMBSTONE_TTL_MS` -/
def tombstoneTtl : Int := 60000

def removeMessage (state : State V) (messageId roomId : Int) (threadId : Option Int) (now : Int) : State V :=
  let next := { state with
    messages := Function.update state.messages messageId none
    tombstones := Function.update state.tombstones messageId (some (now + tombstoneTtl)) }
  let next := match state.timelines roomId with
    | none => next
    | some timeline => withTimeline next roomId { timeline with ids := timeline.ids.filter (· ≠ messageId) }
  match threadId with
  | none => next
  | some threadId =>
    match state.threadTimelines threadId with
    | none => next
    | some timeline => withThreadTimeline next threadId { timeline with ids := timeline.ids.filter (· ≠ messageId) }

/-- `prune`, for the tombstones. -/
def prune (state : State V) (now : Int) : State V :=
  { state with tombstones := fun id => (state.tombstones id).filter fun expiresAt => decide (now < expiresAt) }

/-- `setReactions` -/
def setReactions (state : State V) (messageId : Int) (reactions : V) (updatedAt : String) : State V :=
  match state.messages messageId with
  | none => state
  | some held =>
    if updatedAt < held.updatedAt then state
    else withMessage state { held with reactions := reactions, updatedAt := updatedAt }

/-- `setPinState`, for the message. -/
def setPinState (state : State V) (messageId : Int) (pinned : Bool) : State V :=
  match state.messages messageId with
  | none => state
  | some held => if held.pinned = pinned then state else withMessage state { held with pinned := pinned }

/-- `setThreadIndicator` -/
def setThreadIndicator (state : State V) (parentMessageId : Int) (thread : Option (ThreadIndicator V)) : State V :=
  match state.messages parentMessageId with
  | none => state
  | some parent => withMessage state { parent with thread := thread }

def applyPoll (state : State V) (messageId : Int) (poll : Poll V) : State V :=
  match state.messages messageId with
  | none => state
  | some held => if keepsPoll held.poll (some poll) then state else withMessage state { held with poll := some poll }

/-- `applyMessageCards`, for the message. -/
def applyMessageCards (state : State V) (messageId : Int) (cards : V) (asOf : String) : State V :=
  match state.messages messageId with
  | none => state
  | some held =>
    if asOf < held.cardsAsOf then state else withMessage state { held with cards := cards, cardsAsOf := asOf }

/-- `applyAgentSteps`, for a message. -/
def applyAgentSteps (state : State V) (messageId : Int) (steps : List (AgentStep V)) : State V :=
  match state.messages messageId with
  | none => state
  | some held =>
    match mergeSteps held.steps steps with
    | none => state
    | some steps => withMessage state { held with steps := steps }

/-- `removeThread`: its parent shows no replies any more. Where the viewer lost access, the thread's replies
    and their window go too. -/
def removeThread (state : State V) (threadId : Int) (parentMessageId : Option Int) (accessLost : Bool) : State V :=
  let forgotten := if accessLost then
      { state with
        messages := fun id => (state.messages id).filter fun message => message.threadId ≠ some threadId
        threadTimelines := Function.update state.threadTimelines threadId none }
    else state
  let dropped := { forgotten with removedThreads := Function.update forgotten.removedThreads threadId true }
  match parentMessageId.bind forgotten.messages with
  | none => dropped
  | some parent => withMessage dropped { parent with thread := none }

/-- `loadThreadDetail`, for the thread's parent. -/
def loadThreadParent (state : State V) (parent : Message V) : State V :=
  match reconcileMessage (state.messages parent.id) parent true with
  | none => state
  | some kept => { state with messages := Function.update state.messages kept.id (some kept) }

/-- `regainThread` and `revive`: the thread may be shown again. -/
def reviveThread (state : State V) (threadId : Int) : State V :=
  { state with removedThreads := Function.update state.removedThreads threadId false }

/-- One round of `mergeMessages`. -/
def mergeMessage (state : State V) (merged : Table V) (message : Message V) : Table V :=
  if (state.tombstones message.id).isNone &&
      (merged message.id).all fun held => decide (held.updatedAt ≤ message.updatedAt) then
    Function.update merged message.id (some message)
  else merged

/-- `mergeMessages`, of the saved list: the messages of its page. -/
def mergeMessages (state : State V) (messages : List (Message V)) : State V :=
  { state with messages := messages.foldl (mergeMessage state) state.messages }

end Messages

end Smartfire.Timelines
