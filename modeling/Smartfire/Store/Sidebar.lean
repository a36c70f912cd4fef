/-
  File:      Smartfire/Store/Sidebar.lean
  Subject:   The sidebar's rows in the store, and which HTTP replies are older than them
             (frontend/src/store/row-touches.ts; the sidebar reducers of reducers.ts and organize.ts).

  Rows arrive by sync events, in order, and by HTTP replies, which may be older than what sync landed
  meanwhile. A reply's request holds a ticket, the client clock when it began; a room that sync touched
  after that keeps the store's row.

  The record of the rows is an `AList`, keyed by room; touches absent are absent in the function. What
  the reducers do to users, room details and conversation names is left out: no row depends on it.

  * `RowTouches`, `touchRows`, `pruneTouches`, `isStale`, `touchedSince` -- the clock;
  * `installSidebar`, `upsertRow`, `removeRow`, `applyEvents` -- the rows;
  * `Sidebar.WellFormed` -- each row under its room, the order lists the rows, each once;
  * `lookup_installedRows`, `reduceEvents_lookup` -- a touched room keeps its row.
-/
import Mathlib.Data.List.AList
import Mathlib.Data.List.Sort
import Smartfire.Store.Activity

namespace Smartfire

/-! ## 1. Rows -/

inductive Involvement where
  | invisible
  | nothing
  | muted
  | mentions
  | everything
deriving DecidableEq, Repr

/-- A room as it appears in the viewer's sidebar. -/
structure SidebarRow where
  revision : Int
  evaluatedAt : String
  /-- `room.id`. -/
  roomId : Int
  /-- `room.name`. -/
  name : Option String
  displayName : String
  involvement : Involvement
  /-- `membership.unreadAt`. -/
  unreadAt : Option String
  /-- `membership.roomCategoryId`. -/
  roomCategoryId : Option Int
  unreadCount : Nat
  mentionCount : Nat
  notificationCount : Nat
  threadNotificationCount : Nat
  noteToSelf : Bool
deriving DecidableEq, Repr

structure RoomCategory where
  id : Int
  name : String
  collapsed : Bool
  position : Int
deriving DecidableEq, Repr

structure WorkspaceRoomPosition where
  roomId : Int
  workspaceCategoryId : Option Int
  position : Option Int
deriving DecidableEq, Repr

structure WorkspaceCategory where
  id : Int
  name : String
  position : Int
deriving DecidableEq, Repr

structure WorkspaceLayout where
  categories : List WorkspaceCategory
  rooms : List WorkspaceRoomPosition
deriving DecidableEq, Repr

/-- `rows`, by room id. -/
abbrev SidebarRows : Type := AList fun _ : Int => SidebarRow

namespace SidebarRows

/-- `Object.values(rows)`. -/
def values (rows : SidebarRows) : List SidebarRow := rows.entries.map (·.2)

/-- `for (const row of l) rows[row.room.id] = row`. -/
def setAll (l : List SidebarRow) (rows : SidebarRows) : SidebarRows :=
  l.foldl (fun rows row => rows.insert row.roomId row) rows

/-- Each row stands under its room's id. -/
def Keyed (rows : SidebarRows) : Prop := ∀ id row, rows.lookup id = some row → row.roomId = id

variable {rows : SidebarRows} {l : List SidebarRow} {row : SidebarRow} {id : Int}

theorem Keyed.insert (h : rows.Keyed) : Keyed (rows.insert row.roomId row) := by
  intro id row' hl
  by_cases hid : id = row.roomId
  · subst hid
    rw [AList.lookup_insert] at hl
    exact (Option.some.inj hl) ▸ rfl
  · rw [AList.lookup_insert_ne hid] at hl
    exact h id row' hl

theorem Keyed.erase (h : rows.Keyed) (room : Int) : Keyed (rows.erase room) := by
  intro id row' hl
  by_cases hid : id = room
  · subst hid
    rw [AList.lookup_erase] at hl
    cases hl
  · rw [AList.lookup_erase_ne hid] at hl
    exact h id row' hl

theorem Keyed.setAll (h : rows.Keyed) (l : List SidebarRow) : Keyed (setAll l rows) := by
  induction l generalizing rows with
  | nil => exact h
  | cons row l ih => exact ih h.insert

theorem keyed_empty : Keyed ∅ := fun _ _ h => by cases h

theorem mem_values (h : rows.Keyed) : row ∈ rows.values ↔ rows.lookup row.roomId = some row := by
  constructor
  · intro hm
    obtain ⟨⟨id, row'⟩, he, rfl⟩ := List.mem_map.mp hm
    have hl : rows.lookup id = some row' := AList.mem_lookup_iff.mpr he
    have hid : row'.roomId = id := h id row' hl
    rw [hid]
    exact hl
  · intro hl
    exact List.mem_map.mpr ⟨_, AList.mem_lookup_iff.mp hl, rfl⟩

/-- The rooms of the rows are the keys. -/
theorem map_roomId_values (h : rows.Keyed) : rows.values.map (·.roomId) = rows.keys := by
  unfold values AList.keys List.keys
  rw [List.map_map]
  refine List.map_congr_left fun e he => ?_
  exact h e.1 e.2 (AList.mem_lookup_iff.mpr he)

theorem mem_setAll : id ∈ setAll l rows ↔ id ∈ l.map (·.roomId) ∨ id ∈ rows := by
  induction l generalizing rows with
  | nil => simp [setAll]
  | cons row l ih =>
    have hstep : setAll (row :: l) rows = setAll l (rows.insert row.roomId row) := rfl
    rw [hstep, ih, AList.mem_insert, List.map_cons, List.mem_cons]
    tauto

theorem lookup_setAll_of_not_mem (hn : id ∉ l.map (·.roomId)) :
    (setAll l rows).lookup id = rows.lookup id := by
  induction l generalizing rows with
  | nil => rfl
  | cons row l ih =>
    have hstep : setAll (row :: l) rows = setAll l (rows.insert row.roomId row) := rfl
    obtain ⟨hne, hl⟩ : id ≠ row.roomId ∧ id ∉ l.map (·.roomId) := by simpa using hn
    rw [hstep, ih hl, AList.lookup_insert_ne hne]

/-- Of rows of distinct rooms each ends up under its own. -/
theorem lookup_setAll_of_mem (hd : (l.map (·.roomId)).Nodup) (hm : row ∈ l) :
    (setAll l rows).lookup row.roomId = some row := by
  induction l generalizing rows with
  | nil => cases hm
  | cons row' l ih =>
    have hstep : setAll (row' :: l) rows = setAll l (rows.insert row'.roomId row') := rfl
    obtain ⟨hn, hd'⟩ := List.nodup_cons.mp hd
    rw [hstep]
    cases hm with
    | head => rw [lookup_setAll_of_not_mem hn, AList.lookup_insert]
    | tail _ hm => exact ih hd' hm

end SidebarRows

/-! ## 2. The order -/

/-- A string's UTF-16 code units, which JavaScript compares. -/
def codeUnits (s : String) : List Nat :=
  s.toList.flatMap fun c =>
    if c.toNat < 0x10000 then [c.toNat]
    else [0xD800 + (c.toNat - 0x10000) / 0x400, 0xDC00 + (c.toNat - 0x10000) % 0x400]

section Order

-- `toLowerCase`, of Unicode
variable (lower : String → String)

/-- What a row is sorted by. -/
def SidebarRow.label (row : SidebarRow) : List Nat := codeUnits (lower (row.name.getD row.displayName))

/-- Whether the row stands before the other, or in its place. -/
def SidebarRow.before (a b : SidebarRow) : Bool :=
  a.label lower < b.label lower || (a.label lower = b.label lower && a.roomId ≤ b.roomId)

def sortSidebarOrder (rows : SidebarRows) : List Int :=
  (rows.values.insertionSort fun a b => a.before lower b = true).map (·.roomId)

theorem sortSidebarOrder_perm {rows : SidebarRows} (h : rows.Keyed) :
    (sortSidebarOrder lower rows).Perm rows.keys := by
  rw [← SidebarRows.map_roomId_values h]
  exact (List.perm_insertionSort _ rows.values).map _

end Order

/-- `byPosition`. -/
def RoomCategory.before (a b : RoomCategory) : Bool :=
  if a.position = b.position then a.id ≤ b.id else a.position < b.position

def sortCategories (categories : List RoomCategory) : List RoomCategory :=
  categories.insertionSort fun a b => a.before b = true

/-! ## 3. Touches -/

/-- The clock at each latest touch, by id. -/
abbrev Touches : Type := Int → Option Nat

structure RowTouches where
  clock : Nat
  /-- The clock when the latest sync resync landed: a ticket from before it is stale. -/
  resyncEpoch : Nat
  /-- By room. -/
  at_ : Touches
  categories : Touches
  /-- When a mark-unread reply last moved the room's divider. -/
  dividers : Touches
  /-- The latest sync `room.read`. -/
  reads : Touches

def noRowTouches : RowTouches := ⟨0, 0, fun _ => none, fun _ => none, fun _ => none, fun _ => none⟩

namespace Touches

/-- `(touches[id] ?? 0) > since`. -/
def since (touches : Touches) (id : Int) (ticket : Nat) : Bool := ticket < (touches id).getD 0

def stamped (touches : Touches) (ids : List Int) (clock : Nat) : Touches := fun id =>
  if ids.contains id then some clock else touches id

/-- The touches after `oldest`, or none without it. -/
def pruned (touches : Touches) (oldest : Option Nat) : Touches := fun id =>
  (touches id).filter fun clock => oldest.any fun oldest => oldest < clock

variable {touches : Touches} {ids : List Int} {clock ticket : Nat} {oldest : Option Nat} {id : Int}

theorem since_stamped (h : ticket < clock) :
    (touches.stamped ids clock).since id ticket = (ids.contains id || touches.since id ticket) := by
  unfold stamped since
  by_cases hin : id ∈ ids
  · simp [hin, h]
  · simp [hin]

/-- **Pruning forgets nothing a ticket from `oldest` on is older than.** -/
theorem since_pruned {old : Nat} (hold : oldest = some old) (h : old ≤ ticket) :
    (touches.pruned oldest).since id ticket = touches.since id ticket := by
  subst hold
  unfold pruned since
  cases htouch : touches id with
  | none => simp [htouch]
  | some clock =>
    by_cases hc : old < clock
    · simp [htouch, Option.filter, hc]
    · have hle : ¬ ticket < clock := by omega
      simp [htouch, Option.filter, hc, hle]

end Touches

namespace RowTouches

variable (t : RowTouches)

/-- `touchRows`. -/
def touch (roomIds categoryIds readRoomIds : List Int) : RowTouches :=
  if roomIds = [] ∧ categoryIds = [] ∧ readRoomIds = [] then t
  else
    let clock := t.clock + 1
    { t with
      clock
      at_ := t.at_.stamped roomIds clock
      categories := t.categories.stamped categoryIds clock
      reads := t.reads.stamped readRoomIds clock }

/-- `claimDivider`. -/
def claimDivider (roomId : Int) : RowTouches :=
  let clock := t.clock + 1
  { t with clock, dividers := t.dividers.stamped [roomId] clock }

/-- `markResynced`. -/
def markResynced : RowTouches := { t with clock := t.clock + 1, resyncEpoch := t.clock + 1 }

/-- `pruneTouches`. -/
def prune (oldest : Option Nat) : RowTouches :=
  { t with
    at_ := t.at_.pruned oldest
    categories := t.categories.pruned oldest
    dividers := t.dividers.pruned oldest
    reads := t.reads.pruned oldest }

/-- What any change makes of the touches: the clock and the epoch only advance, and a touch newer than
    a ticket stays newer. -/
structure Advances (t t' : RowTouches) : Prop where
  clock : t.clock ≤ t'.clock
  epoch : t.resyncEpoch ≤ t.clock → t.resyncEpoch ≤ t'.resyncEpoch ∧ t'.resyncEpoch ≤ t'.clock
  touched : ∀ id ticket, ticket ≤ t.clock → t.at_.since id ticket = true → t'.at_.since id ticket = true

namespace Advances

variable {t t' t'' : RowTouches}

/-- The clock advances, and the epoch stays. -/
theorem of_epoch (hc : t.clock ≤ t'.clock) (he : t'.resyncEpoch = t.resyncEpoch)
    (ht : ∀ id ticket, ticket ≤ t.clock → t.at_.since id ticket = true → t'.at_.since id ticket = true) :
    Advances t t' :=
  ⟨hc, fun hle => ⟨Nat.le_of_eq he.symm, he ▸ Nat.le_trans hle hc⟩, ht⟩

theorem refl (t : RowTouches) : Advances t t := of_epoch (Nat.le_refl _) rfl fun _ _ _ h => h

theorem trans (h : Advances t t') (h' : Advances t' t'') : Advances t t'' := by
  refine ⟨Nat.le_trans h.clock h'.clock, fun hle => ?_, fun id ticket hle ht => ?_⟩
  · obtain ⟨h₁, h₂⟩ := h.epoch hle
    obtain ⟨h₃, h₄⟩ := h'.epoch h₂
    exact ⟨Nat.le_trans h₁ h₃, h₄⟩
  · exact h'.touched id ticket (Nat.le_trans hle h.clock) (h.touched id ticket hle ht)

/-- Only the clock advances. -/
theorem tick (t : RowTouches) {clock : Nat} (h : t.clock ≤ clock) : Advances t { t with clock } :=
  of_epoch h rfl fun _ _ _ h => h

theorem touch (t : RowTouches) (roomIds categoryIds readRoomIds : List Int) :
    Advances t (t.touch roomIds categoryIds readRoomIds) := by
  unfold RowTouches.touch
  split
  · exact refl t
  · refine of_epoch (Nat.le_succ _) rfl fun id ticket hle ht => ?_
    show (t.at_.stamped roomIds (t.clock + 1)).since id ticket = true
    rw [Touches.since_stamped (by omega), ht, Bool.or_true]

theorem claimDivider (t : RowTouches) (roomId : Int) : Advances t (t.claimDivider roomId) :=
  of_epoch (Nat.le_succ _) rfl fun _ _ _ h => h

theorem markResynced (t : RowTouches) : Advances t t.markResynced :=
  ⟨Nat.le_succ _, fun hle => ⟨Nat.le_succ_of_le hle, Nat.le_refl _⟩, fun _ _ _ h => h⟩

end Advances

variable {t}

/-- **What is touched now is newer than every ticket held.** -/
theorem touch_since {roomIds categoryIds readRoomIds : List Int} {id : Int} {ticket : Nat}
    (hid : id ∈ roomIds) (h : ticket ≤ t.clock) :
    (t.touch roomIds categoryIds readRoomIds).at_.since id ticket = true := by
  unfold touch
  rw [if_neg fun hc => by rw [hc.1] at hid; cases hid]
  show (t.at_.stamped roomIds (t.clock + 1)).since id ticket = true
  have hin : roomIds.contains id = true := List.contains_iff_mem.mpr hid
  rw [Touches.since_stamped (by omega), hin, Bool.true_or]

end RowTouches

/-! ## 4. The sidebar -/

inductive SidebarStatus where
  | idle
  | loading
  | ready
  | error
deriving DecidableEq, Repr

/-- A whole-sidebar snapshot: a row for each of the viewer's rooms. -/
structure WholeSidebar where
  rows : List SidebarRow
  /-- A person has one membership in a room. -/
  distinct : (rows.map (·.roomId)).Nodup
  categories : List RoomCategory
  noteToSelfRoomId : Option Int
  workspaceLayout : WorkspaceLayout

/-- The store's sidebar and its row touches. -/
structure SidebarSlice where
  rowTouches : RowTouches
  status : SidebarStatus
  order : List Int
  rows : SidebarRows
  categories : List RoomCategory
  workspaceLayout : WorkspaceLayout
  workspaceLayoutTouchedAt : Nat
  noteToSelfRoomId : Option Int

def initialSidebar : SidebarSlice := ⟨noRowTouches, .idle, [], ∅, [], ⟨[], []⟩, 0, none⟩

/-- The sync events that a row, a category or the layout depends on. -/
inductive SidebarEvent where
  | rowUpserted (row : SidebarRow)
  | rowRemoved (roomId : Int)
  | roomRead (roomId : Int)
  | roomUnread (roomId : Int) (messageId : Option Int) (mentioned unchanged : Bool)
  | categoryUpserted (category : RoomCategory)
  | categoryRemoved (id : Int)
  | workspaceLayoutUpdated (layout : WorkspaceLayout)
  | other
deriving DecidableEq, Repr

inductive EventSource where
  | sync
  | reply
deriving DecidableEq, Repr

namespace SidebarRow

/-- `compareSnapshots(incoming, held) < 0`. -/
def olderThan (incoming held : SidebarRow) : Bool :=
  compareSnapshots incoming.revision incoming.evaluatedAt held.revision held.evaluatedAt < 0

/-- `markRoomRead`'s change. -/
def markRead (row : SidebarRow) : SidebarRow :=
  if row.unreadCount = 0 ∧ row.notificationCount = row.threadNotificationCount ∧ row.unreadAt = none then row
  else
    { row with unreadCount := 0, notificationCount := row.threadNotificationCount, unreadAt := none }

def notifies (row : SidebarRow) (mentioned : Bool) : Bool :=
  match row.involvement with
  | .everything => true
  | .mentions | .muted => mentioned
  | _ => false

/-- `roomUnread`'s change. -/
def markUnread (messageId : Option Int) (mentioned : Bool) (now : String) (row : SidebarRow) :
    SidebarRow :=
  { row with
    unreadCount := if messageId = none then max row.unreadCount 1 else row.unreadCount + 1
    mentionCount := row.mentionCount + if mentioned then 1 else 0
    notificationCount :=
      row.notificationCount + if messageId ≠ none ∧ row.notifies mentioned then 1 else 0
    unreadAt := row.unreadAt.or (some now) }

/-- `markUnreadFrom`'s change. -/
def markUnreadFrom (count : Nat) (now : String) (row : SidebarRow) : SidebarRow :=
  { row with unreadCount := max count 1, unreadAt := row.unreadAt.or (some now) }

end SidebarRow

namespace SidebarSlice

variable (lower : String → String) (s : SidebarSlice)

/-- Whether a sync resync landed after the request holding `since` began. -/
def isStale (since : Nat) : Bool := since < s.rowTouches.resyncEpoch

def touchedSince (roomId : Int) (since : Nat) : Bool := s.rowTouches.at_.since roomId since

def categoryTouchedSince (categoryId : Int) (since : Nat) : Bool :=
  s.rowTouches.categories.since categoryId since

def readSince (roomId : Int) (since : Nat) : Bool := s.rowTouches.reads.since roomId since

def dividerMovedSince (roomId : Int) (since : Nat) : Bool := s.rowTouches.dividers.since roomId since

def pruneTouches (oldest : Option Nat) : SidebarSlice :=
  { s with rowTouches := s.rowTouches.prune oldest }

def touchRows (roomIds : List Int) (categoryIds readRoomIds : List Int) : SidebarSlice :=
  { s with rowTouches := s.rowTouches.touch roomIds categoryIds readRoomIds }

def removalIsStale (roomId : Int) (since : Nat) : Bool :=
  (s.rows.lookup roomId).isSome && (s.isStale since || s.touchedSince roomId since)

/-- An HTTP reply's events, less any row event for a room the sync path touched since. -/
def untouchedReplyEvents (events : List SidebarEvent) (since : Nat) : List SidebarEvent :=
  if s.isStale since then []
  else events.filter fun
    | .rowUpserted row => !s.touchedSince row.roomId since
    | .rowRemoved roomId => !s.touchedSince roomId since
    | _ => true

def updateRow (roomId : Int) (change : SidebarRow → SidebarRow) : SidebarSlice :=
  match s.rows.lookup roomId with
  | none => s
  | some row => { s with rows := s.rows.insert roomId (change row) }

def markRoomRead (roomId : Int) : SidebarSlice := s.updateRow roomId .markRead

def roomUnread (roomId : Int) (messageId : Option Int) (mentioned : Bool) (now : String) :
    SidebarSlice :=
  s.updateRow roomId (.markUnread messageId mentioned now)

/-- A row a snapshot installs: the store's where it is newer. -/
def installed (row : SidebarRow) : SidebarRow :=
  match s.rows.lookup row.roomId with
  | some held => if row.olderThan held then held else row
  | none => row

/-- The rows after a snapshot: its own where sync didn't touch the room, the store's where it did. -/
def installedRows (sidebar : WholeSidebar) (since : Nat) : SidebarRows :=
  let fresh := (sidebar.rows.filter fun row => !s.touchedSince row.roomId since).map s.installed
  let kept := s.rows.values.filter fun row => s.touchedSince row.roomId since
  SidebarRows.setAll kept (SidebarRows.setAll fresh ∅)

def replyCategories (categories : List RoomCategory) (since : Nat) : List RoomCategory :=
  let fresh := categories.filter fun category => !s.categoryTouchedSince category.id since
  let synced := s.categories.filter fun category => s.categoryTouchedSince category.id since
  sortCategories (fresh ++ synced)

def installSidebar (sidebar : WholeSidebar) (since : Nat) : SidebarSlice :=
  let rows := s.installedRows sidebar since
  let listed := (sidebar.rows.map (·.roomId)).filter fun id => (rows.lookup id).isSome
  { s with
    status := .ready
    order := if listed.length = rows.keys.length then listed else sortSidebarOrder lower rows
    rows
    categories := s.replyCategories sidebar.categories since
    workspaceLayout :=
      if since < s.workspaceLayoutTouchedAt then s.workspaceLayout else sidebar.workspaceLayout
    noteToSelfRoomId := sidebar.noteToSelfRoomId.or s.noteToSelfRoomId }

def loadSidebar (sidebar : WholeSidebar) (since : Nat) : SidebarSlice :=
  if s.isStale since then s else s.installSidebar lower sidebar since

def markResynced : SidebarSlice := { s with rowTouches := s.rowTouches.markResynced }

def resyncSidebar (sidebar : WholeSidebar) (since : Nat) : SidebarSlice :=
  (s.installSidebar lower sidebar since).markResynced

/-- Whether the store holds a newer row than the one that arrives. -/
def holdsNewer (row : SidebarRow) : Bool := (s.rows.lookup row.roomId).any row.olderThan

def upsertRow (row : SidebarRow) : SidebarSlice :=
  if s.holdsNewer row then s
  else
    let rows := s.rows.insert row.roomId row
    -- known, and not renamed
    let stays := (s.rows.lookup row.roomId).any fun held => held.displayName = row.displayName
    { s with
      rows
      order := if stays then s.order else sortSidebarOrder lower rows
      noteToSelfRoomId := if row.noteToSelf then some row.roomId else s.noteToSelfRoomId }

def removeRow (roomId : Int) : SidebarSlice :=
  let workspaceRooms := s.workspaceLayout.rooms.filter fun room => room.roomId ≠ roomId
  let layoutChanged := workspaceRooms.length ≠ s.workspaceLayout.rooms.length
  if s.rows.lookup roomId = none ∧ ¬ layoutChanged then s
  else
    let clock := if layoutChanged then s.rowTouches.clock + 1 else s.rowTouches.clock
    { s with
      rowTouches := { s.rowTouches with clock }
      rows := s.rows.erase roomId
      order := s.order.filter fun id => id ≠ roomId
      workspaceLayout := { s.workspaceLayout with rooms := workspaceRooms }
      workspaceLayoutTouchedAt := if layoutChanged then clock else s.workspaceLayoutTouchedAt }

def setRoomUnavailable (roomId : Int) (keepRow : Bool) : SidebarSlice :=
  if keepRow then s else s.removeRow roomId

def upsertCategory (category : RoomCategory) : SidebarSlice :=
  let others := s.categories.filter fun held => held.id ≠ category.id
  { s with categories := sortCategories (others ++ [category]) }

/-- The category leaves; a row still in it goes back to none. -/
def removeCategory (categoryId : Int) : SidebarSlice :=
  let moved := (s.rows.values.filter fun row => row.roomCategoryId = some categoryId).map fun row =>
    { row with roomCategoryId := none }
  { s with
    categories := s.categories.filter fun category => category.id ≠ categoryId
    rows := SidebarRows.setAll moved s.rows }

def setWorkspaceLayout (layout : WorkspaceLayout) : SidebarSlice :=
  { s with
    rowTouches := { s.rowTouches with clock := s.rowTouches.clock + 1 }
    workspaceLayout := layout
    workspaceLayoutTouchedAt := s.rowTouches.clock + 1 }

/-- A mark-unread reply; `count` is what the moved divider counts. -/
def markUnreadFrom (roomId : Int) (count : Nat) (now : String) (since : Nat) : SidebarSlice :=
  if s.isStale since || s.dividerMovedSince roomId since || s.readSince roomId since then s
  else
    let moved := { s with rowTouches := s.rowTouches.claimDivider roomId }
    if moved.touchedSince roomId since then moved else moved.updateRow roomId (.markUnreadFrom count now)

def applyEvent (now : String) : SidebarEvent → SidebarSlice
  | .rowUpserted row => s.upsertRow lower row
  | .rowRemoved roomId => s.removeRow roomId
  | .roomRead roomId => s.markRoomRead roomId
  | .roomUnread roomId messageId mentioned unchanged =>
    if unchanged then s else s.roomUnread roomId messageId mentioned now
  | .categoryUpserted category => s.upsertCategory category
  | .categoryRemoved id => s.removeCategory id
  | .workspaceLayoutUpdated layout => s.setWorkspaceLayout layout
  | .other => s

end SidebarSlice

/-- The rooms whose row differs between two states. -/
def changedRowIds (before after : SidebarRows) : List Int :=
  (before.keys ++ after.keys).filter fun id => before.lookup id ≠ after.lookup id

/-- The room an event's row is about. -/
def SidebarEvent.room : SidebarEvent → Option Int
  | .rowUpserted row => some row.roomId
  | .rowRemoved roomId | .roomRead roomId | .roomUnread roomId _ _ _ => some roomId
  | _ => none

def syncTouchedRooms (before after : SidebarRows) (events : List SidebarEvent) : List Int :=
  changedRowIds before after ++ events.filterMap (·.room)

def syncTouchedCategories (events : List SidebarEvent) : List Int :=
  events.filterMap fun
    | .categoryUpserted category => some category.id
    | .categoryRemoved id => some id
    | _ => none

def syncReadRooms (events : List SidebarEvent) : List Int :=
  events.filterMap fun
    | .roomRead roomId => some roomId
    | _ => none

namespace SidebarSlice

variable (lower : String → String) (s : SidebarSlice)

/-- The batch's events, in order. -/
def reduceEvents (events : List SidebarEvent) (now : String) : SidebarSlice :=
  events.foldl (fun s event => s.applyEvent lower now event) s

def applyEvents (events : List SidebarEvent) (now : String) (source : EventSource) : SidebarSlice :=
  let next := s.reduceEvents lower events now
  match source with
  | .sync =>
    next.touchRows (syncTouchedRooms s.rows next.rows events) (syncTouchedCategories events)
      (syncReadRooms events)
  | .reply => next

end SidebarSlice

/-! ## 5. Rows and order -/

namespace SidebarRow

variable (row : SidebarRow)

@[simp] theorem markRead_roomId : row.markRead.roomId = row.roomId := by
  unfold markRead
  split <;> rfl

@[simp] theorem markUnread_roomId (messageId : Option Int) (mentioned : Bool) (now : String) :
    (row.markUnread messageId mentioned now).roomId = row.roomId := rfl

@[simp] theorem markUnreadFrom_roomId (count : Nat) (now : String) :
    (row.markUnreadFrom count now).roomId = row.roomId := rfl

end SidebarRow

namespace SidebarSlice

variable {lower : String → String} {s s' : SidebarSlice}

/-- **Each row stands under its room, and the order lists the rows, each once.** -/
structure WellFormed (s : SidebarSlice) : Prop where
  keyed : s.rows.Keyed
  order : s.order.Perm s.rows.keys

theorem WellFormed.mem_order (h : s.WellFormed) {id : Int} : id ∈ s.order ↔ id ∈ s.rows :=
  h.order.mem_iff.trans AList.mem_keys.symm

theorem WellFormed.order_nodup (h : s.WellFormed) : s.order.Nodup := h.order.nodup_iff.mpr s.rows.keys_nodup

theorem wellFormed_initial : initialSidebar.WellFormed := ⟨SidebarRows.keyed_empty, .refl _⟩

/-- Lists of distinct elements that have the same are permutations of each other. -/
theorem perm_keys {order : List Int} {rows : SidebarRows} (hd : order.Nodup)
    (hm : ∀ id, id ∈ order ↔ id ∈ rows) : order.Perm rows.keys :=
  (List.perm_ext_iff_of_nodup hd rows.keys_nodup).mpr fun id => (hm id).trans AList.mem_keys

/-- Rows that keep their keys need no other order. -/
theorem WellFormed.sameKeys (h : s.WellFormed) {rows : SidebarRows} (hk : rows.Keyed)
    (hm : ∀ id, id ∈ rows ↔ id ∈ s.rows) (hrows : s'.rows = rows) (horder : s'.order = s.order) :
    s'.WellFormed := by
  refine ⟨hrows ▸ hk, ?_⟩
  rw [hrows, horder]
  exact perm_keys h.order_nodup fun id => h.mem_order.trans (hm id).symm

theorem WellFormed.updateRow (h : s.WellFormed) {roomId : Int} {change : SidebarRow → SidebarRow}
    (hc : ∀ row, (change row).roomId = row.roomId) : (s.updateRow roomId change).WellFormed := by
  unfold SidebarSlice.updateRow
  cases hl : s.rows.lookup roomId with
  | none => exact h
  | some row =>
    have hid : (change row).roomId = roomId := (hc row).trans (h.keyed roomId row hl)
    have hin : roomId ∈ s.rows := AList.lookup_isSome.mp (hl ▸ rfl)
    have hk : SidebarRows.Keyed (s.rows.insert roomId (change row)) := hid ▸ h.keyed.insert
    refine h.sameKeys hk (fun id => ?_) rfl rfl
    rw [AList.mem_insert]
    constructor
    · rintro (rfl | hm)
      · exact hin
      · exact hm
    · exact Or.inr

theorem WellFormed.upsertRow (h : s.WellFormed) (row : SidebarRow) : (s.upsertRow lower row).WellFormed := by
  unfold SidebarSlice.upsertRow
  split
  · exact h
  · have hk : SidebarRows.Keyed (s.rows.insert row.roomId row) := h.keyed.insert
    refine ⟨hk, ?_⟩
    show (if _ then s.order else sortSidebarOrder lower (s.rows.insert row.roomId row)).Perm _
    split
    · next hknown =>
      have hin : row.roomId ∈ s.rows := by
        obtain ⟨held, hheld, _⟩ := Option.any_eq_true _ _ |>.mp hknown
        exact AList.lookup_isSome.mp (hheld ▸ rfl)
      refine perm_keys h.order_nodup fun id => h.mem_order.trans ?_
      rw [AList.mem_insert]
      constructor
      · exact Or.inr
      · rintro (rfl | hm)
        · exact hin
        · exact hm
    · exact sortSidebarOrder_perm lower hk

theorem WellFormed.removeRow (h : s.WellFormed) (roomId : Int) : (s.removeRow roomId).WellFormed := by
  unfold SidebarSlice.removeRow
  dsimp only
  split
  · exact h
  · refine ⟨h.keyed.erase roomId, ?_⟩
    refine perm_keys (h.order_nodup.filter _) fun id => ?_
    rw [List.mem_filter, h.mem_order, AList.mem_erase, decide_eq_true_eq]
    exact And.comm

theorem WellFormed.removeCategory (h : s.WellFormed) (categoryId : Int) :
    (s.removeCategory categoryId).WellFormed := by
  refine h.sameKeys (h.keyed.setAll _) (fun id => ?_) rfl rfl
  rw [SidebarRows.mem_setAll, List.map_map]
  refine or_iff_right_of_imp fun hm => ?_
  obtain ⟨row, hrow, rfl⟩ := List.mem_map.mp hm
  have hl := (SidebarRows.mem_values h.keyed).mp (List.mem_of_mem_filter hrow)
  exact AList.lookup_isSome.mp (hl ▸ rfl)

theorem WellFormed.applyEvent (h : s.WellFormed) (now : String) (event : SidebarEvent) :
    (s.applyEvent lower now event).WellFormed := by
  cases event with
  | rowUpserted row => exact h.upsertRow row
  | rowRemoved roomId => exact h.removeRow roomId
  | roomRead roomId => exact h.updateRow SidebarRow.markRead_roomId
  | roomUnread roomId messageId mentioned unchanged =>
    show (if unchanged = true then s else s.roomUnread roomId messageId mentioned now).WellFormed
    split
    · exact h
    · exact h.updateRow fun _ => rfl
  | categoryRemoved id => exact h.removeCategory id
  | categoryUpserted | workspaceLayoutUpdated | other => exact ⟨h.keyed, h.order⟩

theorem WellFormed.reduceEvents (h : s.WellFormed) (events : List SidebarEvent) (now : String) :
    (s.reduceEvents lower events now).WellFormed := by
  induction events generalizing s with
  | nil => exact h
  | cons event events ih => exact ih (h.applyEvent now event)

theorem WellFormed.applyEvents (h : s.WellFormed) (events : List SidebarEvent) (now : String)
    (source : EventSource) : (s.applyEvents lower events now source).WellFormed := by
  have hnext : (s.reduceEvents lower events now).WellFormed := h.reduceEvents events now
  cases source with
  | sync => exact ⟨hnext.keyed, hnext.order⟩
  | reply => exact hnext

/-! ## 6. Snapshots -/

section Snapshots

variable {sidebar : WholeSidebar} {since : Nat}

theorem installed_roomId (h : s.rows.Keyed) (row : SidebarRow) : (s.installed row).roomId = row.roomId := by
  unfold installed
  cases hl : s.rows.lookup row.roomId with
  | none => rfl
  | some held =>
    show (if row.olderThan held then held else row).roomId = row.roomId
    split
    · exact h _ _ hl
    · rfl

/-- The rooms whose row a snapshot installs. -/
theorem map_roomId_installed (h : s.rows.Keyed) (rows : List SidebarRow) :
    (rows.map s.installed).map (·.roomId) = rows.map (·.roomId) := by
  rw [List.map_map]
  exact List.map_congr_left fun row _ => installed_roomId h row

theorem keyed_installedRows : (s.installedRows sidebar since).Keyed :=
  (SidebarRows.keyed_empty.setAll _).setAll _

/-- The rooms that have a row after a snapshot. -/
theorem mem_installedRows (h : s.rows.Keyed) {id : Int} : id ∈ s.installedRows sidebar since ↔
    if s.touchedSince id since then id ∈ s.rows else id ∈ sidebar.rows.map (·.roomId) := by
  have hkept : id ∈ (s.rows.values.filter fun row => s.touchedSince row.roomId since).map (·.roomId) ↔
      s.touchedSince id since = true ∧ id ∈ s.rows := by
    rw [AList.mem_keys, ← SidebarRows.map_roomId_values h]
    simp only [List.mem_map, List.mem_filter]
    constructor
    · rintro ⟨row, ⟨hm, ht⟩, rfl⟩
      exact ⟨ht, row, hm, rfl⟩
    · rintro ⟨ht, row, hm, rfl⟩
      exact ⟨row, ⟨hm, ht⟩, rfl⟩
  have hfresh : id ∈ (sidebar.rows.filter fun row => !s.touchedSince row.roomId since).map (·.roomId) ↔
      s.touchedSince id since = false ∧ id ∈ sidebar.rows.map (·.roomId) := by
    simp only [List.mem_map, List.mem_filter, Bool.not_eq_true']
    constructor
    · rintro ⟨row, ⟨hm, ht⟩, rfl⟩
      exact ⟨ht, row, hm, rfl⟩
    · rintro ⟨ht, row, hm, rfl⟩
      exact ⟨row, ⟨hm, ht⟩, rfl⟩
  unfold installedRows
  rw [SidebarRows.mem_setAll, SidebarRows.mem_setAll, map_roomId_installed h, hkept, hfresh]
  cases s.touchedSince id since with
  | true => simp
  | false => simp

/-- **A snapshot leaves the row of a room touched since its request began.** -/
theorem lookup_installedRows (h : s.rows.Keyed) {id : Int} (ht : s.touchedSince id since = true) :
    (s.installedRows sidebar since).lookup id = s.rows.lookup id := by
  cases hl : s.rows.lookup id with
  | none =>
    rw [AList.lookup_eq_none, mem_installedRows h, if_pos ht]
    exact AList.lookup_eq_none.mp hl
  | some row =>
    have hid : row.roomId = id := h id row hl
    subst hid
    have hvalues : (s.rows.values.map (·.roomId)).Nodup := by
      rw [SidebarRows.map_roomId_values h]
      exact s.rows.keys_nodup
    refine SidebarRows.lookup_setAll_of_mem ?_ ?_
    · exact hvalues.sublist (List.filter_sublist.map _)
    · exact List.mem_filter.mpr ⟨(SidebarRows.mem_values h).mpr hl, ht⟩

theorem wellFormed_installSidebar (s : SidebarSlice) (sidebar : WholeSidebar) (since : Nat) :
    (s.installSidebar lower sidebar since).WellFormed := by
  refine ⟨keyed_installedRows, ?_⟩
  have hd : ((sidebar.rows.map (·.roomId)).filter fun id =>
      ((s.installedRows sidebar since).lookup id).isSome).Nodup := sidebar.distinct.filter _
  show (if _ then _ else sortSidebarOrder lower (s.installedRows sidebar since)).Perm
    (s.installedRows sidebar since).keys
  split
  · next hlength =>
    -- as many distinct keys as there are keys
    have hsub : ((sidebar.rows.map (·.roomId)).filter fun id =>
        ((s.installedRows sidebar since).lookup id).isSome) ⊆ (s.installedRows sidebar since).keys :=
      fun id hm => AList.mem_keys.mp (AList.lookup_isSome.mp (List.mem_filter.mp hm).2)
    exact (List.subperm_of_subset hd hsub).perm_of_length_le (Nat.le_of_eq hlength.symm)
  · exact sortSidebarOrder_perm lower keyed_installedRows

end Snapshots

/-! ## 7. What a change does to the touches, and to a room's row -/

section Changes

variable {id : Int} {since : Nat}

@[simp] theorem updateRow_rowTouches (roomId : Int) (change : SidebarRow → SidebarRow) :
    (s.updateRow roomId change).rowTouches = s.rowTouches := by
  unfold updateRow
  split <;> rfl

@[simp] theorem upsertRow_rowTouches (row : SidebarRow) :
    (s.upsertRow lower row).rowTouches = s.rowTouches := by
  unfold upsertRow
  split <;> rfl

theorem removeRow_advances (s : SidebarSlice) (roomId : Int) :
    s.rowTouches.Advances (s.removeRow roomId).rowTouches := by
  unfold removeRow
  dsimp only
  split
  · exact .refl _
  · refine .tick _ ?_
    split
    · exact Nat.le_succ _
    · exact Nat.le_refl _

theorem applyEvent_advances (s : SidebarSlice) (now : String) (event : SidebarEvent) :
    s.rowTouches.Advances (s.applyEvent lower now event).rowTouches := by
  cases event with
  | rowUpserted row =>
    show s.rowTouches.Advances (s.upsertRow lower row).rowTouches
    rw [upsertRow_rowTouches]
    exact .refl _
  | rowRemoved roomId => exact removeRow_advances s roomId
  | roomRead roomId =>
    show s.rowTouches.Advances (s.updateRow roomId _).rowTouches
    rw [updateRow_rowTouches]
    exact .refl _
  | roomUnread roomId messageId mentioned unchanged =>
    show s.rowTouches.Advances (if unchanged = true then s else s.updateRow roomId _).rowTouches
    split
    · exact .refl _
    · rw [updateRow_rowTouches]
      exact .refl _
  | workspaceLayoutUpdated => exact .tick _ (Nat.le_succ _)
  | categoryUpserted | categoryRemoved | other => exact .refl _

theorem reduceEvents_advances (s : SidebarSlice) (events : List SidebarEvent) (now : String) :
    s.rowTouches.Advances (s.reduceEvents lower events now).rowTouches := by
  induction events generalizing s with
  | nil => exact .refl _
  | cons event events ih => exact (applyEvent_advances s now event).trans (ih _)

theorem applyEvents_advances (s : SidebarSlice) (events : List SidebarEvent) (now : String)
    (source : EventSource) : s.rowTouches.Advances (s.applyEvents lower events now source).rowTouches := by
  have hnext := @reduceEvents_advances lower s events now
  cases source with
  | sync => exact hnext.trans (.touch _ _ _ _)
  | reply => exact hnext

theorem upsertRow_lookup_of_ne {row : SidebarRow} (hne : id ≠ row.roomId) :
    (s.upsertRow lower row).rows.lookup id = s.rows.lookup id := by
  unfold upsertRow
  split
  · rfl
  · exact AList.lookup_insert_ne hne

theorem removeRow_lookup_of_ne {roomId : Int} (hne : id ≠ roomId) :
    (s.removeRow roomId).rows.lookup id = s.rows.lookup id := by
  unfold removeRow
  dsimp only
  split
  · rfl
  · exact AList.lookup_erase_ne hne

/-- No row, none after its removal. -/
theorem removeRow_lookup_of_none (hl : s.rows.lookup id = none) :
    (s.removeRow id).rows.lookup id = none := by
  unfold removeRow
  dsimp only
  split
  · exact hl
  · exact AList.lookup_erase id s.rows

theorem reduceEvents_lookup {now : String} {events : List SidebarEvent}
    (hrow : ∀ event ∈ events, ∃ room, event.room = some room ∧ id ≠ room ∧
      ((∃ row, event = .rowUpserted row) ∨ event = .rowRemoved room)) :
    (s.reduceEvents lower events now).rows.lookup id = s.rows.lookup id := by
  induction events generalizing s with
  | nil => rfl
  | cons event events ih =>
    have htail := @ih (s.applyEvent lower now event) fun e he => hrow e (List.mem_cons_of_mem _ he)
    refine htail.trans ?_
    obtain ⟨room, hroom, hne, ⟨row, rfl⟩ | rfl⟩ := hrow event List.mem_cons_self
    · exact upsertRow_lookup_of_ne (Option.some.inj hroom ▸ hne)
    · exact removeRow_lookup_of_ne hne

end Changes

end SidebarSlice

end Smartfire
