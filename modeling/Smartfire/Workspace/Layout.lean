/-
  File:      Smartfire/Workspace/Layout.lean
  Subject:   The shared layout of the workspace's sidebar (crates/db/src/models/workspace_category.rs).

  Categories are numbered, and so are the rooms of a category and those of none. A room that was never
  moved has no number and is listed after those that have one, by name.

  * `ordered`, `roomsOf` -- the listings;
  * `writeRooms` -- a group renumbered in the order of its ids;
  * `create`, `rename`, `reorder`, `destroy`, `placeRoom`, `moveRoom`, `moveRoomBefore`,
    `removeRoomFromLayout` -- the operations;
  * `WorkspaceOp`, `apply` -- one transaction each: a refused one is rolled back.

  Times and broadcasts are left out, and the other columns of a room.
-/
import Mathlib.Order.Lattice.Nat
import Mathlib.Data.List.Sort
import Mathlib.Data.Prod.Lex
import Mathlib.Data.String.Basic
import Mathlib.Order.WithBot
import Smartfire.Cable.Ring

namespace Smartfire.Workspace

/-! ## 1. The rows -/

structure WorkspaceCategory where
  id : Nat
  name : String
  position : Nat
deriving DecidableEq, Repr

/-- The columns of a room that the layout depends on. -/
structure Room where
  id : Nat
  name : Option String
  /-- Its type is `Rooms::Direct`. -/
  direct : Bool
  deletedAt : Option Nat
  workspaceCategoryId : Option Nat
  workspacePosition : Option Nat
deriving DecidableEq, Repr

structure Layout where
  categories : List WorkspaceCategory
  rooms : List Room
  nextCategoryId : Nat
  nextRoomId : Nat
deriving DecidableEq, Repr

def Layout.empty : Layout := ⟨[], [], 1, 1⟩

/-- Why an operation was refused. -/
inductive Failure where
  | recordNotFound (model : String)
  | recordInvalid (errors : List (String × String))
  /-- A reordering of a stale or duplicate list. -/
  | stale
deriving DecidableEq, Repr

/-! ## 2. The listings -/

/-- `ORDER BY position, id`. -/
def WorkspaceCategory.sortKey (c : WorkspaceCategory) : Nat ×ₗ Nat := toLex (c.position, c.id)

/-- `LOWER`, which changes ASCII letters only. -/
def lower (name : Option String) : WithBot String := name.map String.toLower

/-- `ORDER BY workspace_position IS NULL, workspace_position, LOWER(name), id`: nothing comes before
    anything. -/
def Room.sortKey (r : Room) : Bool ×ₗ WithBot Nat ×ₗ WithBot String ×ₗ Nat :=
  toLex (r.workspacePosition.isNone, toLex (r.workspacePosition, toLex (lower r.name, r.id)))

/-- A room that the layout lists in this group: a category, or the rooms of none. -/
def Room.inGroup (categoryId : Option Nat) (r : Room) : Bool :=
  r.workspaceCategoryId == categoryId && !r.direct && r.deletedAt.isNone

namespace Layout

def ordered (l : Layout) : List WorkspaceCategory :=
  l.categories.insertionSort fun a b => a.sortKey ≤ b.sortKey

/-- `WorkspaceCategory::rooms`. -/
def roomsOf (l : Layout) (categoryId : Option Nat) : List Room :=
  (l.rooms.filter (Room.inGroup categoryId)).insertionSort fun a b => a.sortKey ≤ b.sortKey

def roomIds (l : Layout) (categoryId : Option Nat) : List Nat := (l.roomsOf categoryId).map Room.id

def findCategory (l : Layout) (id : Nat) : Except Failure WorkspaceCategory :=
  match l.categories.find? fun c => c.id == id with
  | some c => .ok c
  | none => .error (.recordNotFound "WorkspaceCategory")

def findRoom (l : Layout) (id : Nat) : Except Failure Room :=
  match l.rooms.find? fun r => r.id == id with
  | some r => .ok r
  | none => .error (.recordNotFound "Room")

/-! ## 3. The operations -/

def nameLimit : Nat := 50

def validate (name : String) : Except Failure Unit :=
  let errors :=
    (if name.toList.all isWhitespace then [("name", "can't be blank")] else []) ++
      (if name.length > nameLimit then [("name", "is too long (maximum is 50 characters)")] else [])
  if errors = [] then .ok () else .error (.recordInvalid errors)

/-- `COALESCE(MAX(position), -1) + 1`. -/
def nextPosition (l : Layout) : Nat :=
  match (l.categories.map WorkspaceCategory.position).max? with
  | some position => position + 1
  | none => 0

def create (l : Layout) (name : String) : Except Failure Layout := do
  validate name
  pure { l with
    categories := l.categories ++ [⟨l.nextCategoryId, name, l.nextPosition⟩]
    nextCategoryId := l.nextCategoryId + 1 }

def rename (l : Layout) (id : Nat) (name : String) : Except Failure Layout := do
  validate name
  let current ← l.findCategory id
  if current.name ≠ name then
    pure { l with categories := l.categories.map fun c => if c.id = id then { c with name := name } else c }
  else pure l

/-- Writes one category's position, where it isn't that already. -/
def writeCategory (current : List WorkspaceCategory) (l : Layout) (q : Nat × Nat) : Layout :=
  if current.any fun row => row.id == q.1 && row.position != q.2 then
    { l with categories := l.categories.map fun c => if c.id = q.1 then { c with position := q.2 } else c }
  else l

/-- Every category exactly once, numbered from zero; a stale or duplicate list writes nothing. -/
def reorder (l : Layout) (ids : List Nat) : Except Failure Layout :=
  let current := l.ordered
  let wanted := ids.insertionSort (· ≤ ·)
  let held := (current.map WorkspaceCategory.id).insertionSort (· ≤ ·)
  if wanted ≠ held then .error .stale else .ok (ids.zipIdx.foldl (writeCategory current) l)

/-- Writes one room's group and position. -/
def writeRoom (categoryId : Option Nat) (l : Layout) (q : Nat × Nat) : Layout :=
  { l with
    rooms := l.rooms.map fun r =>
      if r.id = q.1 then { r with workspaceCategoryId := categoryId, workspacePosition := some q.2 } else r }

/-- Numbers these rooms in this group, from zero. -/
def writeRooms (l : Layout) (categoryId : Option Nat) (ids : List Nat) : Layout :=
  ids.zipIdx.foldl (writeRoom categoryId) l

/-- The category's row goes; the rooms that name it name none (`ON DELETE SET NULL`). -/
def deleteCategory (l : Layout) (id : Nat) : Layout :=
  { l with
    categories := l.categories.filter fun c => c.id ≠ id
    rooms := l.rooms.map fun r =>
      if r.workspaceCategoryId = some id then { r with workspaceCategoryId := none } else r }

/-- Appends this category's rooms to the uncategorized ones and compacts the positions. -/
def destroy (l : Layout) (id : Nat) : Except Failure Layout := do
  let _ ← l.findCategory id
  let ids := l.roomIds none ++ l.roomIds (some id)
  let written := (l.deleteCategory id).writeRooms none ids
  -- what `reorder` answers is not looked at
  match written.reorder (written.ordered.map WorkspaceCategory.id) with
  | .ok reordered => pure reordered
  | .error _ => pure written

/-- Inserts the room where `index` says among the target group's other rooms, then renumbers. -/
def placeRoom (l : Layout) (roomId : Nat) (categoryId : Option Nat) (index : List Nat → Except Failure Nat) :
    Except Failure Layout := do
  let room ← l.findRoom roomId
  if room.deletedAt.isSome then throw (.recordNotFound "Room")
  if room.direct then throw (.recordInvalid [("workspace_category_id", "cannot categorize direct messages")])
  match categoryId with
  | some id => let _ ← l.findCategory id
  | none => pure ()
  let source := room.workspaceCategoryId
  let target := (l.roomIds categoryId).filter (· ≠ roomId)
  let position ← index target
  let target := target.insertIdx position roomId
  let l := if source ≠ categoryId then l.writeRooms source ((l.roomIds source).filter (· ≠ roomId)) else l
  pure (l.writeRooms categoryId target)

/-- `position.clamp(0, target.len())`. -/
def clampIndex (position : Int) (target : List Nat) : Nat := min position.toNat target.length

def moveRoom (l : Layout) (roomId : Nat) (categoryId : Option Nat) (position : Int) : Except Failure Layout :=
  l.placeRoom roomId categoryId fun target => .ok (clampIndex position target)

/-- Placed just before another room, which must already be in the target group. -/
def moveRoomBefore (l : Layout) (roomId : Nat) (categoryId : Option Nat) (beforeRoomId : Nat)
    (anchorVisible : Bool) : Except Failure Layout :=
  l.placeRoom roomId categoryId fun target =>
    match target.findIdx? fun id => anchorVisible && id == beforeRoomId with
    | some index => .ok index
    | none => .error (.recordInvalid [("before_room_id", "must be a room in the target category")])

/-- Compacts the room's group before the room goes. -/
def removeRoomFromLayout (l : Layout) (roomId : Nat) : Layout :=
  match l.rooms.find? fun r => r.id == roomId && !r.direct with
  | none => l
  | some room =>
    if room.workspaceCategoryId.isNone && room.workspacePosition.isNone then l
    else if room.workspacePosition.isSome then
      l.writeRooms room.workspaceCategoryId ((l.roomIds room.workspaceCategoryId).filter (· ≠ roomId))
    else l

/-- Sets `deleted_at`. -/
def markDeleted (l : Layout) (roomId time : Nat) : Layout :=
  { l with rooms := l.rooms.map fun r => if r.id = roomId then { r with deletedAt := some time } else r }

/-- The row goes. -/
def dropRoom (l : Layout) (roomId : Nat) : Layout :=
  { l with rooms := l.rooms.filter fun r => r.id ≠ roomId }

/-- A new room: no category, no position. -/
def createRoom (l : Layout) (name : Option String) (direct : Bool) : Layout :=
  { l with
    rooms := l.rooms ++ [⟨l.nextRoomId, name, direct, none, none, none⟩]
    nextRoomId := l.nextRoomId + 1 }

def renameRoom (l : Layout) (roomId : Nat) (name : Option String) : Layout :=
  { l with rooms := l.rooms.map fun r => if r.id = roomId then { r with name := name } else r }

end Layout

/-! ## 4. Transactions -/

inductive WorkspaceOp where
  | create (name : String)
  | rename (id : Nat) (name : String)
  | reorder (ids : List Nat)
  | destroy (id : Nat)
  | moveRoom (roomId : Nat) (categoryId : Option Nat) (position : Int)
  | moveRoomBefore (roomId : Nat) (categoryId : Option Nat) (beforeRoomId : Nat) (anchorVisible : Bool)
  | createRoom (name : Option String) (direct : Bool)
  | renameRoom (roomId : Nat) (name : Option String)
  /-- The room leaves the layout, then `deleted_at` is set. -/
  | deleteRoom (roomId time : Nat)
  /-- `begin_destroy`: the same in the other order. -/
  | beginDestroy (roomId time : Nat)
  /-- The room leaves the layout, then its row goes. -/
  | purgeRoom (roomId : Nat)
deriving DecidableEq, Repr

/-- One transaction. -/
def apply (l : Layout) : WorkspaceOp → Except Failure Layout
  | .create name => l.create name
  | .rename id name => l.rename id name
  | .reorder ids => l.reorder ids
  | .destroy id => l.destroy id
  | .moveRoom roomId categoryId position => l.moveRoom roomId categoryId position
  | .moveRoomBefore roomId categoryId beforeRoomId anchorVisible =>
    l.moveRoomBefore roomId categoryId beforeRoomId anchorVisible
  | .createRoom name direct => .ok (l.createRoom name direct)
  | .renameRoom roomId name => .ok (l.renameRoom roomId name)
  | .deleteRoom roomId time => .ok ((l.removeRoomFromLayout roomId).markDeleted roomId time)
  | .beginDestroy roomId time => .ok ((l.markDeleted roomId time).removeRoomFromLayout roomId)
  | .purgeRoom roomId => .ok ((l.removeRoomFromLayout roomId).dropRoom roomId)

/-- The layout after a transaction: as it was, if it was refused. -/
def after (l : Layout) (op : WorkspaceOp) : Layout :=
  match apply l op with
  | .ok l' => l'
  | .error _ => l

end Smartfire.Workspace
