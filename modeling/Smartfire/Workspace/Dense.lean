/-
  File:      Smartfire/Workspace/Dense.lean
  Subject:   The shared layout stays densely numbered.

  A group is listed by position, those without one last, by name. The operations number a whole group
  from what the listing shows, so the listing of a group and its numbers say the same.

  * `Layout.Dense` -- categories and the rooms of each group are numbered `0 .. n-1`;
  * `Obeys` -- what an accepted operation does to the order of the rooms;
  * `roomsOf_eq_of_group` -- a group's rows settle its listing;
  * `writeRooms_target`, `group_writeRooms` -- what a renumbering does to its group and to the others;
  * `Inv` -- ids, and the numbers of each group as a set.
-/
import Smartfire.Lib.Numbering
import Smartfire.Lib.Runs
import Smartfire.Workspace.Layout

namespace Smartfire.Workspace

open Lib

/-! ## 1. Dense layouts -/

/-- `0 .. k-1`, each once and in order, then those that have none. -/
def Numbered (positions : List (Option Nat)) : Prop :=
  ∃ k m, positions = (List.range k).map some ++ List.replicate m none

structure Layout.Dense (l : Layout) : Prop where
  categories : l.ordered.map WorkspaceCategory.position = List.range l.categories.length
  rooms : ∀ categoryId, Numbered ((l.roomsOf categoryId).map Room.workspacePosition)

/-- The room left its group, and the target lists these. -/
structure Moved (l l' : Layout) (roomId : Nat) (categoryId : Option Nat) (ids : List Nat) : Prop where
  target : l'.roomIds categoryId = ids
  others : ∀ group ≠ categoryId, l'.roomIds group = (l.roomIds group).filter (· ≠ roomId)

/-- **What an accepted operation does** to the order of the rooms. -/
def Obeys (l l' : Layout) : WorkspaceOp → Prop
  | .create _ | .rename _ _ | .reorder _ => ∀ group, l'.roomIds group = l.roomIds group
  | .destroy id =>
    l'.roomIds none = l.roomIds none ++ l.roomIds (some id) ∧ l'.roomIds (some id) = [] ∧
      ∀ group, group ≠ none → group ≠ some id → l'.roomIds group = l.roomIds group
  | .moveRoom roomId categoryId position =>
    let others := (l.roomIds categoryId).filter (· ≠ roomId)
    Moved l l' roomId categoryId (others.insertIdx (Layout.clampIndex position others) roomId)
  | .moveRoomBefore roomId categoryId beforeRoomId _ =>
    ∃ front back, (l.roomIds categoryId).filter (· ≠ roomId) = front ++ beforeRoomId :: back ∧
      Moved l l' roomId categoryId (front ++ roomId :: beforeRoomId :: back)
  | .createRoom _ _ =>
    ∀ group, (l'.roomIds group).filter (· ≠ l.nextRoomId) = l.roomIds group
  | .renameRoom roomId _ =>
    ∀ group, (l'.roomIds group).filter (· ≠ roomId) = (l.roomIds group).filter (· ≠ roomId)
  | .deleteRoom roomId _ | .beginDestroy roomId _ | .purgeRoom roomId =>
    ∀ group, l'.roomIds group = (l.roomIds group).filter (· ≠ roomId)

/-- A name that is blank or too long. -/
def BadName (name : String) : Prop := name.toList.all isWhitespace = true ∨ Layout.nameLimit < name.length

def Layout.categoryIds (l : Layout) : List Nat := l.categories.map WorkspaceCategory.id

/-- No live room that can stand in a category has this id, or there is no such category. -/
def Unplaceable (l : Layout) (roomId : Nat) (categoryId : Option Nat) : Prop :=
  (∀ r ∈ l.rooms, r.id = roomId → r.deletedAt ≠ none ∨ r.direct = true) ∨
    ∃ id, categoryId = some id ∧ id ∉ l.categoryIds

/-- **What is refused.** -/
def Refusable (l : Layout) : WorkspaceOp → Prop
  | .create name => BadName name
  | .rename id name => BadName name ∨ id ∉ l.categoryIds
  | .reorder ids => ¬ ids.Perm l.categoryIds
  | .destroy id => id ∉ l.categoryIds
  | .moveRoom roomId categoryId _ => Unplaceable l roomId categoryId
  | .moveRoomBefore roomId categoryId beforeRoomId anchorVisible =>
    Unplaceable l roomId categoryId ∨ anchorVisible = false ∨
      beforeRoomId ∉ (l.roomIds categoryId).filter (· ≠ roomId)
  | .createRoom _ _ | .renameRoom _ _ | .deleteRoom _ _ | .beginDestroy _ _ | .purgeRoom _ => False

/-! ## 2. The listing of a group -/

/-- The rows that a group lists. -/
def Layout.group (l : Layout) (categoryId : Option Nat) : List Room := l.rooms.filter (Room.inGroup categoryId)

section Listing

variable {l l' : Layout} {g : Option Nat}

theorem roomsOf_perm (l : Layout) (g : Option Nat) : (l.roomsOf g).Perm (l.group g) :=
  List.perm_insertionSort _ _

theorem roomsOf_sorted (l : Layout) (g : Option Nat) :
    (l.roomsOf g).Pairwise fun a b => a.sortKey ≤ b.sortKey := by
  have : Std.Total fun a b : Room => a.sortKey ≤ b.sortKey := ⟨fun a b => le_total _ _⟩
  have : IsTrans Room fun a b => a.sortKey ≤ b.sortKey := ⟨fun a b c => le_trans⟩
  exact List.pairwise_insertionSort _ _

theorem inGroup_iff {r : Room} :
    r.inGroup g = true ↔ r.workspaceCategoryId = g ∧ r.direct = false ∧ r.deletedAt = none := by
  simp [Room.inGroup, and_assoc]

theorem mem_group {r : Room} : r ∈ l.group g ↔ r ∈ l.rooms ∧ r.inGroup g = true := List.mem_filter

theorem mem_roomIds {id : Nat} : id ∈ l.roomIds g ↔ ∃ r ∈ l.rooms, r.inGroup g = true ∧ r.id = id := by
  rw [Layout.roomIds, ((roomsOf_perm l g).map Room.id).mem_iff, List.mem_map]
  constructor
  · rintro ⟨r, hr, hid⟩
    exact ⟨r, (mem_group.mp hr).1, (mem_group.mp hr).2, hid⟩
  · rintro ⟨r, hr, hg, hid⟩
    exact ⟨r, mem_group.mpr ⟨hr, hg⟩, hid⟩

/-- Rows of one id are one row. -/
theorem eq_of_id {rooms : List Room} (h : (rooms.map Room.id).Nodup) {a b : Room} (ha : a ∈ rooms) (hb : b ∈ rooms)
    (hid : a.id = b.id) : a = b :=
  List.inj_on_of_nodup_map h ha hb hid

theorem nodup_group (h : (l.rooms.map Room.id).Nodup) (g : Option Nat) : ((l.group g).map Room.id).Nodup :=
  h.sublist (List.filter_sublist.map _)

theorem nodup_roomIds (h : (l.rooms.map Room.id).Nodup) (g : Option Nat) : (l.roomIds g).Nodup :=
  ((roomsOf_perm l g).map Room.id).nodup_iff.mpr (nodup_group h g)

/-- A room is in one group. -/
theorem group_unique (h : (l.rooms.map Room.id).Nodup) {g g' : Option Nat} {id : Nat} (hg : id ∈ l.roomIds g)
    (hg' : id ∈ l.roomIds g') : g = g' := by
  obtain ⟨r, hr, hin, hid⟩ := mem_roomIds.mp hg
  obtain ⟨r', hr', hin', hid'⟩ := mem_roomIds.mp hg'
  obtain rfl := eq_of_id h hr hr' (hid.trans hid'.symm)
  exact (inGroup_iff.mp hin).1.symm.trans (inGroup_iff.mp hin').1

theorem id_of_sortKey {a b : Room} (h : a.sortKey = b.sortKey) : a.id = b.id := by
  have hkey := (Prod.mk.inj (toLex_inj.mp h)).2
  have hrest := (Prod.mk.inj (toLex_inj.mp hkey)).2
  exact (Prod.mk.inj (toLex_inj.mp hrest)).2

/-- **A sorted list is determined** by its rows. -/
theorem eq_of_sorted_rows {a b : List Room} (h : (a.map Room.id).Nodup) (hp : a.Perm b)
    (ha : a.Pairwise fun x y => x.sortKey ≤ y.sortKey) (hb : b.Pairwise fun x y => x.sortKey ≤ y.sortKey) : a = b := by
  refine List.Perm.eq_of_pairwise (fun x y hx hy hxy hyx => ?_) ha hb hp
  exact eq_of_id h hx (hp.mem_iff.mpr hy) (id_of_sortKey (le_antisymm hxy hyx))

/-- **A group's rows settle its listing**, and what is picked out of them. -/
theorem filter_roomsOf (h : (l.rooms.map Room.id).Nodup) {p p' : Room → Bool}
    (hg : ((l'.group g).filter p').Perm ((l.group g).filter p)) :
    (l'.roomsOf g).filter p' = (l.roomsOf g).filter p := by
  have hperm : ((l'.roomsOf g).filter p').Perm ((l.roomsOf g).filter p) :=
    (((roomsOf_perm l' g).filter p').trans hg).trans ((roomsOf_perm l g).filter p).symm
  refine (eq_of_sorted_rows ?_ hperm.symm ((roomsOf_sorted l g).filter p) ((roomsOf_sorted l' g).filter p')).symm
  exact (nodup_roomIds h g).sublist (List.filter_sublist.map _)

theorem filter_roomIds (h : (l.rooms.map Room.id).Nodup) {p p' : Nat → Bool}
    (hg : ((l'.group g).filter fun r => p' r.id).Perm ((l.group g).filter fun r => p r.id)) :
    (l'.roomIds g).filter p' = (l.roomIds g).filter p := by
  have heq := congrArg (List.map Room.id) (filter_roomsOf h hg)
  rw [Layout.roomIds, Layout.roomIds, List.filter_map, List.filter_map]
  exact heq

theorem roomIds_of_group (h : (l.rooms.map Room.id).Nodup) {p : Nat → Bool}
    (hg : l'.group g = (l.group g).filter fun r => p r.id) : l'.roomIds g = (l.roomIds g).filter p := by
  have hperm : ((l'.group g).filter fun _ => true).Perm ((l.group g).filter fun r => p r.id) := by
    rw [List.filter_true, hg]
  have heq : (l'.roomIds g).filter (fun _ => true) = (l.roomIds g).filter p := filter_roomIds h hperm
  rwa [List.filter_true] at heq

/-! ## 3. The numbers of a group -/

/-- The numbers of a group are `0 .. k-1`, each once. -/
def Layout.DenseAt (l : Layout) (g : Option Nat) : Prop :=
  ∃ k, ((l.group g).filterMap Room.workspacePosition).Perm (List.range k)

/-- Rows come in the order of their numbers, those that have none last. -/
theorem noneLast_of_sortKey {a b : Room} (h : a.sortKey ≤ b.sortKey) :
    NoneLast a.workspacePosition b.workspacePosition := by
  rw [Room.sortKey, Room.sortKey, Prod.Lex.toLex_le_toLex] at h
  cases ha : a.workspacePosition with
  | none =>
    cases hb : b.workspacePosition with
    | none => trivial
    | some q =>
      simp only [ha, hb, Option.isNone_none, Option.isNone_some, Bool.true_eq_false, false_and, or_false] at h
      exact absurd h (by decide)
  | some p =>
    cases hb : b.workspacePosition with
    | none => trivial
    | some q =>
      rw [ha, hb] at h
      have hrest := (h.resolve_left (lt_irrefl _)).2
      rw [Prod.Lex.toLex_le_toLex] at hrest
      rcases hrest with hlt | ⟨heq, -⟩
      · exact (WithBot.coe_lt_coe.mp hlt).le
      · exact (WithBot.coe_injective heq).le

/-- **The numbers of a group, as a set, settle how they are listed.** -/
theorem numbered_of_denseAt (h : l.DenseAt g) : Numbered ((l.roomsOf g).map Room.workspacePosition) := by
  obtain ⟨k, hk⟩ := h
  refine ⟨k, numbered_of_sorted (List.pairwise_map.mpr ?_) ?_⟩
  · exact (roomsOf_sorted l g).imp noneLast_of_sortKey
  · rw [List.filterMap_map]
    exact ((roomsOf_perm l g).filterMap _).trans hk

/-- **A group whose rows have the indices of a list** is listed as that list. -/
theorem listed_of_numbered (h : (l.rooms.map Room.id).Nodup) {ids : List Nat} (hids : ids.Nodup)
    (hin : ∀ r ∈ l.rooms, r.inGroup g = true → r.id ∈ ids ∧ r.workspacePosition = some (ids.idxOf r.id))
    (hall : ∀ id ∈ ids, ∃ r ∈ l.rooms, r.inGroup g = true ∧ r.id = id) : l.roomIds g = ids ∧ l.DenseAt g := by
  have hnumber (r : Room) (hr : r ∈ l.roomsOf g) : r.workspacePosition = some (ids.idxOf r.id) := by
    have hr := mem_group.mp ((roomsOf_perm l g).mem_iff.mp hr)
    exact (hin r hr.1 hr.2).2
  have hlisted : l.roomIds g = ids := by
    refine eq_of_idxOf_sorted hids (nodup_roomIds h g) (fun id => ⟨fun hid => ?_, fun hid => ?_⟩) ?_
    · obtain ⟨r, hr, hg, rfl⟩ := mem_roomIds.mp hid
      exact (hin r hr hg).1
    · exact mem_roomIds.mpr (hall id hid)
    · refine List.pairwise_map.mpr ((roomsOf_sorted l g).imp_of_mem fun ha hb hab => ?_)
      have hle := noneLast_of_sortKey hab
      rw [hnumber _ ha, hnumber _ hb] at hle
      exact hle
  refine ⟨hlisted, ids.length, ?_⟩
  have hnumbers : (l.roomsOf g).filterMap Room.workspacePosition = List.range ids.length := by
    calc (l.roomsOf g).filterMap Room.workspacePosition
        = (l.roomsOf g).filterMap fun r => some (ids.idxOf r.id) := List.filterMap_congr hnumber
      _ = (l.roomIds g).map ids.idxOf := by
        rw [Layout.roomIds, List.map_map]
        exact congrFun List.filterMap_eq_map _
      _ = List.range ids.length := by rw [hlisted, map_idxOf hids]
  rw [← hnumbers]
  exact ((roomsOf_perm l g).filterMap _).symm

end Listing

/-! ## 4. Renumbering a group -/

section Renumber

variable {l : Layout} {g c : Option Nat} {ids : List Nat}

/-- What a renumbering makes of a row. -/
def place (c : Option Nat) (ids : List Nat) (r : Room) : Room :=
  if r.id ∈ ids then { r with workspaceCategoryId := c, workspacePosition := some (ids.idxOf r.id) } else r

theorem place_of_mem {r : Room} (h : r.id ∈ ids) :
    place c ids r = { r with workspaceCategoryId := c, workspacePosition := some (ids.idxOf r.id) } := if_pos h

theorem place_of_notMem {r : Room} (h : r.id ∉ ids) : place c ids r = r := if_neg h

@[simp] theorem place_id (r : Room) : (place c ids r).id = r.id := by
  unfold place
  split <;> rfl

theorem writeRooms_eq (l : Layout) (c : Option Nat) (h : ids.Nodup) :
    l.writeRooms c ids = { l with rooms := l.rooms.map (place c ids) } := by
  have hfold (pairs : List (Nat × Nat)) (l : Layout) : pairs.foldl (Layout.writeRoom c) l =
      { l with rooms := pairs.foldl (fun rooms q => rooms.map fun r => if r.id = q.1 then
        { r with workspaceCategoryId := c, workspacePosition := some q.2 } else r) l.rooms } := by
    induction pairs generalizing l with
    | nil => rfl
    | cons q pairs ih => exact ih _
  let set : Nat → Room → Room := fun k r => { r with workspaceCategoryId := c, workspacePosition := some k }
  have hset (k : Nat) (r : Room) : (set k r).id = r.id := rfl
  have hnumber := foldl_number Room.id hset h 0 l.rooms
  rw [Layout.writeRooms, hfold, hnumber]
  simp only [Nat.zero_add]
  rfl

theorem map_id_writeRooms (h : ids.Nodup) : (l.writeRooms c ids).rooms.map Room.id = l.rooms.map Room.id := by
  rw [writeRooms_eq l c h, List.map_map]
  exact List.map_congr_left fun r _ => place_id r

/-- **The other groups** lose the rows that were renumbered. -/
theorem group_writeRooms (h : ids.Nodup) (hg : g ≠ c) :
    (l.writeRooms c ids).group g = (l.group g).filter fun r => r.id ∉ ids := by
  rw [writeRooms_eq l c h]
  have hfilter : (l.rooms.map (place c ids)).filter (Room.inGroup g) =
      l.rooms.filter fun r => decide (r.id ∉ ids) && r.inGroup g := by
    refine filter_map_of (fun r _ => ?_) fun r _ hr => ?_
    · by_cases hid : r.id ∈ ids
      · simp [place_of_mem hid, hid, Room.inGroup, hg.symm]
      · simp [place_of_notMem hid, hid]
    · exact place_of_notMem (by simpa using (Bool.and_eq_true_iff.mp hr).1)
  exact hfilter.trans List.filter_filter.symm

/-- **The group renumbered** is listed as the ids. -/
theorem writeRooms_target (h : (l.rooms.map Room.id).Nodup) (hids : ids.Nodup)
    (hall : ∀ id ∈ ids, ∃ r ∈ l.rooms, r.id = id ∧ r.direct = false ∧ r.deletedAt = none)
    (hsup : ∀ id ∈ l.roomIds c, id ∈ ids) :
    (l.writeRooms c ids).roomIds c = ids ∧ (l.writeRooms c ids).DenseAt c := by
  refine listed_of_numbered (by rw [map_id_writeRooms hids]; exact h) hids (fun r hr hin => ?_) fun id hid => ?_
  · rw [writeRooms_eq l c hids] at hr
    obtain ⟨r, hrow, rfl⟩ := List.mem_map.mp hr
    by_cases hid : r.id ∈ ids
    · exact ⟨by rwa [place_id], by rw [place_of_mem hid]⟩
    · rw [place_of_notMem hid] at hin
      exact absurd (hsup _ (mem_roomIds.mpr ⟨r, hrow, hin, rfl⟩)) hid
  · obtain ⟨r, hr, rfl, hdirect, hlive⟩ := hall id hid
    refine ⟨place c ids r, ?_, ?_, place_id r⟩
    · rw [writeRooms_eq l c hids]
      exact List.mem_map_of_mem hr
    · rw [place_of_mem hid]
      exact inGroup_iff.mpr ⟨rfl, hdirect, hlive⟩

/-- Rows of a group, renumbered in that group, leave the others as they were. -/
theorem group_writeRooms_own (h : (l.rooms.map Room.id).Nodup) (hids : ids.Nodup)
    (hown : ∀ id ∈ ids, id ∈ l.roomIds c) (hg : g ≠ c) : (l.writeRooms c ids).group g = l.group g := by
  rw [group_writeRooms hids hg]
  refine List.filter_eq_self.mpr fun r hr => decide_eq_true fun hid => hg ?_
  have hin := mem_group.mp hr
  exact group_unique h (mem_roomIds.mpr ⟨r, hin.1, hin.2, rfl⟩) (hown r.id hid)

/-- **A group compacted**: renumbered as it is listed. -/
theorem compact (h : (l.rooms.map Room.id).Nodup) (c : Option Nat) :
    (l.writeRooms c (l.roomIds c)).roomIds c = l.roomIds c ∧ (l.writeRooms c (l.roomIds c)).DenseAt c ∧
      ∀ g ≠ c, (l.writeRooms c (l.roomIds c)).group g = l.group g := by
  have hids := nodup_roomIds h c
  have htarget : (l.writeRooms c (l.roomIds c)).roomIds c = l.roomIds c ∧ (l.writeRooms c (l.roomIds c)).DenseAt c := by
    refine writeRooms_target h hids (fun id hid => ?_) fun _ hid => hid
    obtain ⟨r, hr, hin, rfl⟩ := mem_roomIds.mp hid
    exact ⟨r, hr, rfl, (inGroup_iff.mp hin).2⟩
  exact ⟨htarget.1, htarget.2, fun g hg => group_writeRooms_own h hids (fun _ hid => hid) hg⟩

end Renumber

end Smartfire.Workspace
