/-
  File:      Smartfire/Store/Activity.lean
  Subject:   The activity badge in the store (frontend/src/store/activity.ts, snapshot-order.ts).

  A change of an item shows at once and moves the badge by its delta until a server's count covers it.
  Until every delta on its way is known to be covered, a newer count waits (`deferredUnread`). Events,
  replies and removals confirm the changes their count includes.

  The inbox's lists are left out: nothing that counts reads them. JavaScript compares the optimistic
  copy by identity; an item carries the object it is (`object`) for that.

  * `compareCounts` -- the order of the counts, `compareCounts_lt`, `compareCounts_eq`;
  * `withCounts`, `confirmedUnread` -- what a count does to the badge and to the changes on their way;
  * `applyActivityItem`, `showActivityChange`, `endActivityChange`, `removeActivityItem`,
    `setActivityUnreadCount`, `beginActivityGeneration`.
-/
import Mathlib.Data.Prod.Lex
import Mathlib.Data.String.Basic
import Mathlib.Logic.Function.Basic

namespace Smartfire

/-! ## 1. Counts and items -/

/-- The badge's count, as the server evaluated it. -/
structure ActivityUnreadCount where
  unreadCount : Nat
  unreadRevision : Int
  evaluatedAt : String
deriving DecidableEq, Repr

/-- `compareSnapshots`: by revision, then by the time of evaluation. -/
def compareSnapshots (revision : Int) (evaluatedAt : String) (heldRevision : Int)
    (heldEvaluatedAt : String) : Int :=
  if revision - heldRevision ≠ 0 then revision - heldRevision
  else if evaluatedAt < heldEvaluatedAt then -1
  else if heldEvaluatedAt < evaluatedAt then 1
  else 0

def compareCounts (incoming held : ActivityUnreadCount) : Int :=
  compareSnapshots incoming.unreadRevision incoming.evaluatedAt held.unreadRevision held.evaluatedAt

namespace ActivityUnreadCount

/-- Where the count stands in the order of the counts. -/
def key (u : ActivityUnreadCount) : Int ×ₗ String := toLex (u.unreadRevision, u.evaluatedAt)

variable {u v : ActivityUnreadCount}

theorem revision_le (h : u.key ≤ v.key) : u.unreadRevision ≤ v.unreadRevision := by
  rcases Prod.Lex.le_iff.mp h with hlt | ⟨heq, _⟩
  · exact Int.le_of_lt hlt
  · exact Int.le_of_eq heq

end ActivityUnreadCount

section Compare

variable {u v : ActivityUnreadCount}

theorem compareCounts_lt : compareCounts u v < 0 ↔ u.key < v.key := by
  unfold compareCounts compareSnapshots ActivityUnreadCount.key
  rw [Prod.Lex.toLex_lt_toLex]
  have hirrefl : v.evaluatedAt < u.evaluatedAt → ¬ u.evaluatedAt < v.evaluatedAt := fun h => lt_asymm h
  grind

theorem compareCounts_gt : 0 < compareCounts u v ↔ v.key < u.key := by
  unfold compareCounts compareSnapshots ActivityUnreadCount.key
  rw [Prod.Lex.toLex_lt_toLex]
  have hirrefl : v.evaluatedAt < u.evaluatedAt → ¬ u.evaluatedAt < v.evaluatedAt := fun h => lt_asymm h
  grind

theorem compareCounts_eq : compareCounts u v = 0 ↔ u.key = v.key := by
  have hlt := @compareCounts_lt u v
  have hgt := @compareCounts_gt u v
  constructor
  · intro h
    exact le_antisymm (not_lt.mp fun hv => by have := hgt.mpr hv; omega)
      (not_lt.mp fun hu => by have := hlt.mpr hu; omega)
  · intro h
    have h1 : ¬ compareCounts u v < 0 := fun hc => absurd (hlt.mp hc) (h ▸ lt_irrefl _)
    have h2 : ¬ 0 < compareCounts u v := fun hc => absurd (hgt.mp hc) (h ▸ lt_irrefl _)
    omega

end Compare

inductive ActivityState where
  | unread
  | read
  | handled
deriving DecidableEq, Repr

/-- What counting and settling read of an item. -/
structure ActivityItem where
  id : Int
  state : ActivityState
  updatedAt : String
  /-- `source.threadId`. -/
  threadId : Option Int
  /-- `source.ignored`. -/
  ignored : Bool
  /-- Which object it is. -/
  object : Nat
deriving DecidableEq, Repr

/-- How the badge moves when an item goes from `before` to `after`. -/
def unreadDelta (before after : ActivityItem) : Int :=
  let counts (item : ActivityItem) : Int := if item.state = .unread ∧ item.ignored = false then 1 else 0
  counts after - counts before

/-- An authoritative row, and the revision of the count it came with. -/
structure ServerItem where
  item : ActivityItem
  revision : Int
deriving DecidableEq, Repr

/-- How a change on its way moves the badge. -/
structure PendingUnread where
  itemId : Int
  unread : Bool
  delta : Int
  revision : Option Int
  version : Option String
  removed : Bool
  /-- A snapshot at this revision or later includes the change. -/
  coveredAtRevision : Option Int
  serverItem : Option ServerItem
  /-- The request has ended. -/
  settled : Bool
  before : ActivityItem
  optimistic : ActivityItem
deriving DecidableEq, Repr

/-- The changes on their way, by token. -/
abbrev Pending := List (Nat × PendingUnread)

structure ActivitySlice where
  items : Int → Option ActivityItem
  unreadCount : Option Int
  versions : Int → Option String
  serverUnread : Option ActivityUnreadCount
  /-- The newest snapshot waiting for confirmations. -/
  deferredUnread : Option ActivityUnreadCount
  generation : Nat
  serverUnreadGeneration : Nat
  pendingUnread : Pending

def emptyActivity : ActivitySlice := ⟨fun _ => none, none, fun _ => none, none, none, 0, 0, []⟩

/-! ## 2. Counts against the changes on their way -/

section Reducers

-- `Date.parse`, with `none` for what isn't a number, and the threads removed at the moment
variable (parse : String → Option Int) (isRemovedThread : Option Int → Bool)

/-- Whether `incoming` is a later server copy than the `held` version. -/
def newerThan (incoming : String) (held : Option String) : Bool :=
  match held with
  | none => true
  | some held =>
    match parse incoming, parse held with
    | some a, some b => b < a
    | _, _ => held < incoming

def observedItem (change : PendingUnread) (item : ActivityItem) (revision : Int) : ServerItem :=
  match change.serverItem with
  | none => ⟨item, revision⟩
  | some held =>
    if newerThan parse item.updatedAt (some held.item.updatedAt) ||
      (!newerThan parse held.item.updatedAt (some item.updatedAt) && held.revision < revision) then
      ⟨item, revision⟩
    else held

/-- The badge: the server's count moved by every change on its way. -/
def shownCount (server : Option Nat) (pending : Pending) : Option Int :=
  server.map fun n => max 0 (pending.foldl (fun total change => total + change.2.delta) (n : Int))

/-- Whether a count at the revision covers the change. -/
def PendingUnread.coveredBy (change : PendingUnread) (revision : Option Int) : Bool :=
  change.delta = 0 ||
    match revision, change.coveredAtRevision with
    | some r, some c => c ≤ r
    | _, _ => false

/-- Drops adjustments a count already covers, retaining active requests for row settlement. -/
def absorbedUnread (pending : Pending) (revision : Option Int) : Pending :=
  pending.filterMap fun (token, change) =>
    if !change.coveredBy revision then some (token, change)
    else if change.settled then none
    else some (token, { change with delta := 0 })

namespace ActivitySlice

variable (activity : ActivitySlice)

/-- The held count, where it belongs to the generation. -/
def heldUnread : Option ActivityUnreadCount :=
  if activity.serverUnreadGeneration = activity.generation then activity.serverUnread else none

/-- A response cannot confirm changes from before the newest count evaluation. -/
def acceptedCount (unread : Option ActivityUnreadCount) : Option ActivityUnreadCount :=
  unread.filter fun u =>
    !(activity.heldUnread.any fun count => compareCounts u count < 0) &&
      !(activity.deferredUnread.any fun count => compareCounts u count < 0)

end ActivitySlice

/-- A snapshot, and whether it is another object than the held one. -/
abbrev Candidate := Option ActivityUnreadCount × Bool

/-- The candidate replaces the snapshot where it is newer, or as new and let to. -/
def takeCount (snapshot : Candidate) (candidate : Option ActivityUnreadCount) (tie : Bool) :
    Candidate :=
  match candidate with
  | none => snapshot
  | some c =>
    match snapshot.1 with
    | none => (some c, true)
    | some s =>
      if 0 < compareCounts c s || (compareCounts c s = 0 && tie) then (some c, true) else snapshot

/-- The changes keep the snapshot waiting: some adjustment is not known to be covered by it. -/
def waitingFor (pending : Pending) (snapshot : Option ActivityUnreadCount) : Bool :=
  pending.any fun (_, change) =>
    change.delta ≠ 0 &&
      match change.coveredAtRevision, snapshot with
      | some c, some s => s.unreadRevision < c
      | _, _ => true

/-- The snapshot `withCounts` settles on, of the held, the deferred and the one that came. -/
def ActivitySlice.candidate (activity : ActivitySlice) (unread : Option ActivityUnreadCount)
    (requestSequence : Option Nat) : Candidate :=
  takeCount (takeCount (activity.heldUnread, false) activity.deferredUnread true)
    (activity.acceptedCount unread) requestSequence.isSome

/-- Installs the newest snapshot only when it covers every outstanding badge adjustment. -/
def withCounts (activity : ActivitySlice) (unread : Option ActivityUnreadCount) (pendingUnread : Pending)
    (requestSequence : Option Nat) : ActivitySlice :=
  let held := activity.serverUnread
  let projected := absorbedUnread pendingUnread (activity.heldUnread.map (·.unreadRevision))
  let (snapshot, fresh) := activity.candidate unread requestSequence
  let waiting := waitingFor projected snapshot
  let serverUnread := if waiting then held else snapshot.or held
  let serverUnreadGeneration :=
    if !waiting && snapshot.isSome then activity.generation else activity.serverUnreadGeneration
  let remaining :=
    if waiting then projected else absorbedUnread projected (snapshot.map (·.unreadRevision))
  { activity with
    serverUnread
    serverUnreadGeneration
    -- where it isn't fresh, the snapshot is the held count or none
    deferredUnread := if waiting && fresh then snapshot else none
    pendingUnread := remaining
    unreadCount := shownCount (serverUnread.map (·.unreadCount)) remaining }

/-- The newest token of the changes of an item. -/
def newestToken (pending : Pending) (itemId : Int) : Option Nat :=
  ((pending.filter fun (_, change) => change.itemId = itemId).map (·.1)).max?

/-- The row that confirms the change, of those that came with a count that covers it. -/
def confirmingItem (versions : Int → Option String) (change : PendingUnread)
    (unread : ActivityUnreadCount) (items : List ActivityItem) : Option ActivityItem :=
  if change.revision.all (· ≤ unread.unreadRevision) then
    items.find? fun item =>
      item.id = change.itemId &&
        change.version.all (fun v => !newerThan parse v (some item.updatedAt)) &&
        (versions item.id).all (fun v => !newerThan parse v (some item.updatedAt))
  else none

/-- One change after an item-bearing snapshot. -/
def confirmedChange (activity : ActivitySlice) (unread : ActivityUnreadCount) (items : List ActivityItem)
    (removedId : Option Int) (token : Nat) (change : PendingUnread) : PendingUnread :=
  let covered : Bool := change.revision.all (· ≤ unread.unreadRevision)
  let removed : Bool := covered && some change.itemId = removedId
  let item := confirmingItem parse activity.versions change unread items
  let confirmed : Bool := item.any fun item => decide (item.state = .unread) = change.unread
  let serverItem :=
    (item.map fun item => observedItem parse change item unread.unreadRevision).or change.serverItem
  let changedAfterConfirmation : Bool :=
    newestToken activity.pendingUnread change.itemId = some token && !removed && !change.removed &&
      match change.coveredAtRevision, serverItem with
      | some c, some row =>
        c < row.revision && !(activity.heldUnread.any fun held => c ≤ held.unreadRevision)
      | _, _ => false
  if removed || confirmed || serverItem ≠ change.serverItem then
    { change with
      serverItem
      delta := match serverItem with
        | some row => if changedAfterConfirmation then unreadDelta change.before row.item else change.delta
        | none => change.delta
      coveredAtRevision :=
        if removed || confirmed then
          some (match change.coveredAtRevision with
            | some c => min c unread.unreadRevision
            | none => unread.unreadRevision)
        else change.coveredAtRevision
      removed := removed || change.removed }
  else change

/-- An item-bearing snapshot confirms only the changes its count already includes. -/
def confirmedUnread (activity : ActivitySlice) (unread : Option ActivityUnreadCount)
    (items : List ActivityItem) (removedId : Option Int) : Pending :=
  match activity.acceptedCount unread with
  | none => activity.pendingUnread
  | some u =>
    if activity.heldUnread.any fun held =>
      compareCounts u held < 0 || (compareCounts u held = 0 && u.unreadCount ≠ held.unreadCount) then
      activity.pendingUnread
    else
      activity.pendingUnread.map fun (token, change) =>
        (token, confirmedChange parse activity u items removedId token change)

/-! ## 3. The reducers -/

/-- `item` shown: stored. -/
def showItem (activity : ActivitySlice) (item : ActivityItem) : ActivitySlice :=
  { activity with items := Function.update activity.items item.id (some item) }

/-- A server copy: shown when newer than the newest server copy seen. -/
def serverCopy (activity : ActivitySlice) (item : ActivityItem) : ActivitySlice :=
  if !newerThan parse item.updatedAt (activity.versions item.id) then activity
  else
    { showItem activity item with
      versions := Function.update activity.versions item.id (some item.updatedAt) }

/-- Settles a held optimistic row without lowering its recorded server timestamp. -/
def settleShownItem (activity : ActivitySlice) (item : ActivityItem) : ActivitySlice :=
  let version := match activity.versions item.id with
    | some held => if newerThan parse item.updatedAt (some held) then item.updatedAt else held
    | none => item.updatedAt
  { showItem activity item with versions := Function.update activity.versions item.id (some version) }

/-- An item as the server has it now, with the server's snapshot afterwards. -/
def applyActivityItem (activity : ActivitySlice) (item : ActivityItem)
    (unread : Option ActivityUnreadCount) : ActivitySlice :=
  withCounts (if isRemovedThread item.threadId then activity else serverCopy parse activity item) unread
    (confirmedUnread parse activity unread [item] none) none

/-- The changes with `change` under `token`, in the order of their tokens. -/
def Pending.set (pending : Pending) (token : Nat) (change : PendingUnread) : Pending :=
  match pending with
  | [] => [(token, change)]
  | (token', change') :: rest =>
    if token < token' then (token, change) :: (token', change') :: rest
    else if token = token' then (token, change) :: rest
    else (token', change') :: Pending.set rest token change

/-- A change on its way, shown at once. -/
def showActivityChange (activity : ActivitySlice) (item : ActivityItem) (token : Nat) (delta : Int) :
    ActivitySlice :=
  withCounts (showItem activity item) none
    (activity.pendingUnread.set token
      { itemId := item.id
        unread := item.state = .unread
        delta
        revision := activity.heldUnread.map (·.unreadRevision)
        removed := false
        version := activity.versions item.id
        coveredAtRevision := none
        serverItem := none
        settled := false
        before := (activity.items item.id).getD item
        optimistic := item })
    none

/-- How a change on its way ended. -/
structure ActivityChangeEnd where
  /-- The generation the request started in. -/
  generation : Nat
  token : Nat
  /-- The copy it showed, if it showed one. -/
  optimistic : Option ActivityItem
  /-- The server's reply, or the copy it started from when the server refused. -/
  settled : Option ActivityItem
  unread : Option ActivityUnreadCount
  requestSequence : Option Nat

/-- The change as its request's end leaves it. -/
def endedChange (pending : Pending) (e : ActivityChangeEnd) : Option PendingUnread :=
  (pending.lookup e.token).map fun held =>
    match e.unread, e.settled with
    | some u, some item => { held with serverItem := some (observedItem parse held item u.unreadRevision) }
    | _, _ => held

/-- The revision whose count covers the change that ended. -/
def endCoveredAt (change : Option PendingUnread) (e : ActivityChangeEnd) : Option Int :=
  (e.unread.map (·.unreadRevision)).or (change.bind (·.coveredAtRevision))

/-- The changes on their way once a request has ended. -/
def endedPending (pending : Pending) (e : ActivityChangeEnd) : Pending :=
  let change := endedChange parse pending e
  let others : Pending := pending.filter (·.1 ≠ e.token)
  match change, endCoveredAt change e with
  | some change, some coveredAt =>
    if change.delta ≠ 0 then
      others.set e.token { change with
        settled := true
        coveredAtRevision := some (min (change.coveredAtRevision.getD coveredAt) coveredAt) }
    else others
  | _, _ => others

/-- The row as a request's end leaves it: its copy replaces the optimistic one while that's shown. -/
def settleEnded (state : ActivitySlice) (e : ActivityChangeEnd) (change : Option PendingUnread) :
    ActivitySlice :=
  match ((change.bind (·.serverItem)).map (·.item)).or e.settled with
  | some item =>
    if change.any (·.removed) || isRemovedThread item.threadId then state
    else if e.optimistic.isSome && state.items item.id = e.optimistic then
      settleShownItem parse state item
    else serverCopy parse state item
  | none => state

/-- A request ended: its adjustment stays until all adjustments have snapshot coverage. -/
def endActivityChange (state : ActivitySlice) (e : ActivityChangeEnd) : ActivitySlice :=
  if e.generation ≠ state.generation then state
  else
    let unread := state.acceptedCount e.unread
    let pending := match unread, e.settled with
      | some u, some item => confirmedUnread parse state (some u) [item] none
      | _, _ => state.pendingUnread
    withCounts (settleEnded parse isRemovedThread state e (endedChange parse pending e)) unread
      (endedPending parse pending e) e.requestSequence

/-- An item went with its source. -/
def removeActivityItem (activity : ActivitySlice) (id : Int) (unread : ActivityUnreadCount) :
    ActivitySlice :=
  let pendingUnread := confirmedUnread parse activity (some unread) [] (some id)
  if (activity.items id).isNone then withCounts activity (some unread) pendingUnread none
  else
    withCounts
      { activity with
        items := Function.update activity.items id none
        versions := Function.update activity.versions id none }
      (some unread) pendingUnread none

/-- The badge, from `GET /activity/unread_count`. -/
def setActivityUnreadCount (activity : ActivitySlice) (unread : ActivityUnreadCount) (generation : Nat)
    (requestSequence : Option Nat) : ActivitySlice :=
  if generation ≠ activity.generation then activity
  else withCounts activity (some unread) activity.pendingUnread requestSequence

/-- Fences old requests and abandons optimism. -/
def beginActivityGeneration (state : ActivitySlice) (newEpoch : Bool) : ActivitySlice :=
  let settled := state.pendingUnread.foldl (fun activity (_, change) =>
    if !change.removed && activity.items change.itemId = some change.optimistic then
      settleShownItem parse activity ((change.serverItem.map (·.item)).getD change.before)
    else activity) state
  let activity := if newEpoch then settled else withCounts settled none [] none
  { activity with
    generation := activity.generation + 1
    serverUnreadGeneration :=
      if !newEpoch && activity.serverUnreadGeneration = activity.generation then activity.generation + 1
      else activity.serverUnreadGeneration
    deferredUnread := none
    versions := if newEpoch then fun _ => none else activity.versions
    pendingUnread := []
    unreadCount := activity.serverUnread.map fun u => (u.unreadCount : Int) }

end Reducers

end Smartfire
