/-
  File:      Smartfire/Workspace/LayoutRuns.lean
  Subject:   Runs of the shared layout.

  * `nextPosition_eq`, `reorder_ok` -- what the category operations write;
  * `Gone`, `compactGone` -- a room leaves, in three forms;
  * `placeRoom_cases`, `moved_of_place` -- a room moves;
  * `step_inv` -- an accepted operation keeps the invariant and obeys;
  * `apply_ok_iff` -- which operations are accepted;
  * `layoutLawful_of_reach` -- the numbers and the orders, in every state of every run.
-/
import Smartfire.Lib.Keyed
import Smartfire.Workspace.Dense

namespace Smartfire.Workspace

open Lib

/-! ## 1. The invariant -/

/-- The numbers of the categories, as a set. -/
structure CategoriesDense (categories : List WorkspaceCategory) (next : Nat) : Prop where
  ids : (categories.map WorkspaceCategory.id).Nodup
  below : ∀ id ∈ categories.map WorkspaceCategory.id, id < next
  positions : (categories.map WorkspaceCategory.position).Perm (List.range categories.length)

structure RoomsDense (l : Layout) : Prop where
  ids : (l.rooms.map Room.id).Nodup
  below : ∀ id ∈ l.rooms.map Room.id, id < l.nextRoomId
  groups : ∀ g, l.DenseAt g

structure Layout.Inv (l : Layout) : Prop where
  categories : CategoriesDense l.categories l.nextCategoryId
  rooms : RoomsDense l

section Categories

variable {l l' : Layout} {categories : List WorkspaceCategory} {next : Nat}

theorem le_of_sortKey {a b : WorkspaceCategory} (h : a.sortKey ≤ b.sortKey) : a.position ≤ b.position := by
  rw [WorkspaceCategory.sortKey, WorkspaceCategory.sortKey, Prod.Lex.toLex_le_toLex] at h
  rcases h with hlt | ⟨heq, -⟩
  · exact Nat.le_of_lt hlt
  · exact Nat.le_of_eq heq

theorem ordered_perm (l : Layout) : l.ordered.Perm l.categories := List.perm_insertionSort _ _

theorem ordered_sorted (l : Layout) : l.ordered.Pairwise fun a b => a.sortKey ≤ b.sortKey := by
  have : Std.Total fun a b : WorkspaceCategory => a.sortKey ≤ b.sortKey := ⟨fun a b => le_total _ _⟩
  have : IsTrans WorkspaceCategory fun a b => a.sortKey ≤ b.sortKey := ⟨fun a b c => le_trans⟩
  exact List.pairwise_insertionSort _ _

/-- The numbers of the categories, as a set, settle how they are listed. -/
theorem CategoriesDense.listed (h : CategoriesDense l.categories next) :
    l.ordered.map WorkspaceCategory.position = List.range l.categories.length := by
  refine List.Perm.eq_of_pairwise (fun a b _ _ hab hba => Nat.le_antisymm hab hba) ?_ List.pairwise_le_range
    (((ordered_perm l).map _).trans h.positions)
  exact List.pairwise_map.mpr ((ordered_sorted l).imp le_of_sortKey)

theorem Layout.Inv.dense (h : l.Inv) : l.Dense :=
  ⟨h.categories.listed, fun g => numbered_of_denseAt (h.rooms.groups g)⟩

theorem nextPosition_eq (h : CategoriesDense l.categories next) : l.nextPosition = l.categories.length := by
  unfold Layout.nextPosition
  split
  · next position hmax =>
    obtain ⟨hmem, hle⟩ := List.max?_eq_some_iff.mp hmax
    have hlt := List.mem_range.mp (h.positions.mem_iff.mp hmem)
    have hlast := hle (l.categories.length - 1) (h.positions.mem_iff.mpr (List.mem_range.mpr (by omega)))
    omega
  · next hmax =>
    have hnil := List.max?_eq_none_iff.mp hmax
    rw [List.map_eq_nil_iff.mp hnil]
    rfl

theorem CategoriesDense.create (h : CategoriesDense l.categories l.nextCategoryId) (name : String) :
    CategoriesDense (l.categories ++ [⟨l.nextCategoryId, name, l.nextPosition⟩]) (l.nextCategoryId + 1) := by
  refine ⟨?_, fun id hid => ?_, ?_⟩
  · rw [List.map_append]
    refine List.nodup_append.mpr ⟨h.ids, List.nodup_singleton _, fun a ha b hb => ?_⟩
    have hb : b = l.nextCategoryId := List.mem_singleton.mp hb
    have := h.below a ha
    omega
  · rw [List.map_append, List.mem_append] at hid
    rcases hid with hid | hid
    · exact Nat.lt_succ_of_lt (h.below id hid)
    · have : id = l.nextCategoryId := List.mem_singleton.mp hid
      omega
  · rw [List.map_append, List.length_append, List.length_singleton, List.range_succ]
    refine h.positions.append ?_
    rw [List.map_singleton, nextPosition_eq h]

theorem CategoriesDense.rename (h : CategoriesDense categories next) (id : Nat) (name : String) :
    CategoriesDense (categories.map fun c => if c.id = id then { c with name := name } else c) next := by
  have hids : (categories.map fun c => if c.id = id then { c with name := name } else c).map WorkspaceCategory.id =
      categories.map WorkspaceCategory.id := by
    rw [List.map_map]
    refine List.map_congr_left fun c _ => ?_
    rw [Function.comp_apply]
    split <;> rfl
  have hpositions : (categories.map fun c => if c.id = id then { c with name := name } else c).map
      WorkspaceCategory.position = categories.map WorkspaceCategory.position := by
    rw [List.map_map]
    refine List.map_congr_left fun c _ => ?_
    rw [Function.comp_apply]
    split <;> rfl
  refine ⟨hids ▸ h.ids, hids ▸ h.below, ?_⟩
  rw [hpositions, List.length_map]
  exact h.positions

/-- Numbers one category. -/
def numberCategory (position : Nat) (c : WorkspaceCategory) : WorkspaceCategory := { c with position := position }

/-- A position that stands already is not written, and would not change the row. -/
theorem writeCategory_eq {current : List WorkspaceCategory} {q : Nat × Nat}
    (h : ∀ c ∈ l.categories, c.id = q.1 → c ∈ current) : Layout.writeCategory current l q =
      { l with categories := l.categories.map fun c => if c.id = q.1 then numberCategory q.2 c else c } := by
  unfold Layout.writeCategory
  split
  · rfl
  · next hany =>
    have hsame : (l.categories.map fun c => if c.id = q.1 then numberCategory q.2 c else c) = l.categories := by
      refine (List.map_congr_left fun c hc => ?_).trans (List.map_id _)
      rw [id_eq]
      split
      · next hid =>
        have hposition : c.position = q.2 := by
          by_contra hne
          exact hany (List.any_eq_true.mpr ⟨c, h c hc hid, by simp [hid, hne]⟩)
        rw [numberCategory, ← hposition]
      · rfl
    rw [hsame]

theorem foldl_writeCategory {current : List WorkspaceCategory} {pairs : List (Nat × Nat)}
    (hpairs : (pairs.map Prod.fst).Nodup)
    (h : ∀ q ∈ pairs, ∀ c ∈ l.categories, c.id = q.1 → c ∈ current) :
    pairs.foldl (Layout.writeCategory current) l = { l with
      categories := pairs.foldl (fun rows q => rows.map fun c => if c.id = q.1 then numberCategory q.2 c else c)
        l.categories } := by
  induction pairs generalizing l with
  | nil => rfl
  | cons q pairs ih =>
    obtain ⟨hq, hpairs⟩ := List.nodup_cons.mp hpairs
    rw [List.foldl_cons, writeCategory_eq (h q (List.mem_cons_self ..)), ih hpairs]
    · rfl
    · intro q' hq' c hc hid
      obtain ⟨c, hrow, rfl⟩ := List.mem_map.mp hc
      have hne : q'.1 ≠ q.1 := fun heq => hq (heq ▸ List.mem_map_of_mem hq')
      by_cases hcq : c.id = q.1
      · rw [if_pos hcq] at hid
        exact absurd (hid.symm.trans hcq) hne
      · rw [if_neg hcq] at hid ⊢
        exact h q' (List.mem_cons_of_mem _ hq') c hrow hid

/-- The categories numbered as the ids list them. -/
def renumbered (ids : List Nat) (categories : List WorkspaceCategory) : List WorkspaceCategory :=
  categories.map fun c => if c.id ∈ ids then numberCategory (ids.idxOf c.id) c else c

theorem reorder_ok {ids : List Nat} (hn : (l.categories.map WorkspaceCategory.id).Nodup)
    (hp : ids.Perm (l.ordered.map WorkspaceCategory.id)) :
    l.reorder ids = .ok { l with categories := renumbered ids l.categories } := by
  have hsame : ids.insertionSort (· ≤ ·) = (l.ordered.map WorkspaceCategory.id).insertionSort (· ≤ ·) := by
    refine List.Perm.eq_of_pairwise (fun a b _ _ hab hba => Nat.le_antisymm hab hba)
      (List.pairwise_insertionSort _ _) (List.pairwise_insertionSort _ _) ?_
    exact ((List.perm_insertionSort _ _).trans hp).trans (List.perm_insertionSort _ _).symm
  have hids : ids.Nodup := (hp.trans ((ordered_perm l).map _)).nodup_iff.mpr hn
  have hkept (k : Nat) (c : WorkspaceCategory) : (numberCategory k c).id = c.id := rfl
  have hfold := foldl_number WorkspaceCategory.id hkept hids 0 l.categories
  rw [Layout.reorder, if_neg (not_not.mpr hsame), foldl_writeCategory, hfold]
  · simp only [Nat.zero_add]
    rfl
  · rw [List.zipIdx_map_fst]
    exact hids
  · exact fun _ _ c hc _ => (ordered_perm l).mem_iff.mpr hc

theorem perm_of_reorder {ids : List Nat} (h : l.reorder ids = .ok l') :
    ids.Perm (l.ordered.map WorkspaceCategory.id) := by
  have hsame : ids.insertionSort (· ≤ ·) = (l.ordered.map WorkspaceCategory.id).insertionSort (· ≤ ·) := by
    by_contra hne
    rw [Layout.reorder, if_pos hne] at h
    cases h
  have hp := List.perm_insertionSort (· ≤ ·) ids
  rw [hsame] at hp
  exact hp.symm.trans (List.perm_insertionSort _ _)

/-- **Renumbered categories** are numbered `0 .. n-1`, if the ids are theirs. -/
theorem CategoriesDense.renumbered {ids : List Nat} (hn : (categories.map WorkspaceCategory.id).Nodup)
    (hb : ∀ id ∈ categories.map WorkspaceCategory.id, id < next)
    (hp : ids.Perm (categories.map WorkspaceCategory.id)) : CategoriesDense (renumbered ids categories) next := by
  have hrow (c : WorkspaceCategory) (hc : c ∈ categories) :
      (if c.id ∈ ids then numberCategory (ids.idxOf c.id) c else c) = numberCategory (ids.idxOf c.id) c :=
    if_pos (hp.mem_iff.mpr (List.mem_map_of_mem hc))
  have heq : Workspace.renumbered ids categories = categories.map fun c => numberCategory (ids.idxOf c.id) c :=
    List.map_congr_left hrow
  have hids : (Workspace.renumbered ids categories).map WorkspaceCategory.id = categories.map WorkspaceCategory.id := by
    rw [heq, List.map_map]
    rfl
  refine ⟨hids ▸ hn, hids ▸ hb, ?_⟩
  have hpositions : (Workspace.renumbered ids categories).map WorkspaceCategory.position =
      (categories.map WorkspaceCategory.id).map ids.idxOf := by
    rw [heq, List.map_map, List.map_map]
    rfl
  have hlength : (Workspace.renumbered ids categories).length = ids.length := by
    rw [heq, List.length_map, hp.length_eq, List.length_map]
  rw [hpositions, hlength, ← map_idxOf (hp.nodup_iff.mpr hn)]
  exact hp.symm.map _

end Categories

/-! ## 2. A room comes, is renamed, goes -/

section Rooms

variable {l l' l₀ : Layout} {g c : Option Nat} {roomId : Nat}

theorem Layout.Inv.keep (h : l.Inv) (hc : l'.categories = l.categories) (hcn : l'.nextCategoryId = l.nextCategoryId)
    (hsub : (l'.rooms.map Room.id).Sublist (l.rooms.map Room.id)) (hn : l'.nextRoomId = l.nextRoomId)
    (hg : ∀ g, l'.DenseAt g) : l'.Inv :=
  ⟨by rw [hc, hcn]; exact h.categories,
    ⟨h.rooms.ids.sublist hsub, fun id hid => hn ▸ h.rooms.below id (hsub.subset hid), hg⟩⟩

theorem denseAt_of_numbers (hd : l.DenseAt g)
    (h : (l'.group g).filterMap Room.workspacePosition = (l.group g).filterMap Room.workspacePosition) :
    l'.DenseAt g := by
  obtain ⟨k, hk⟩ := hd
  exact ⟨k, h ▸ hk⟩

theorem denseAt_of_group (hd : l.DenseAt g) (h : l'.group g = l.group g) : l'.DenseAt g :=
  denseAt_of_numbers hd (by rw [h])

theorem id_ne_next (h : l.Inv) {r : Room} (hr : r ∈ l.rooms) : r.id ≠ l.nextRoomId :=
  Nat.ne_of_lt (h.rooms.below _ (List.mem_map_of_mem hr))

theorem inv_createRoom (h : l.Inv) (name : Option String) (direct : Bool) :
    (l.createRoom name direct).Inv ∧ Obeys l (l.createRoom name direct) (.createRoom name direct) := by
  have hgroup (g : Option Nat) : (l.createRoom name direct).group g =
      l.group g ++ [(⟨l.nextRoomId, name, direct, none, none, none⟩ : Room)].filter (Room.inGroup g) :=
    List.filter_append ..
  refine ⟨⟨h.categories, ?_, fun id hid => ?_, fun g => ?_⟩, fun g => ?_⟩
  · rw [Layout.createRoom, List.map_append]
    refine List.nodup_append.mpr ⟨h.rooms.ids, List.nodup_singleton _, fun a ha b hb => ?_⟩
    have hb : b = l.nextRoomId := List.mem_singleton.mp hb
    have := h.rooms.below a ha
    omega
  · rw [Layout.createRoom, List.map_append, List.mem_append] at hid
    rcases hid with hid | hid
    · exact Nat.lt_succ_of_lt (h.rooms.below id hid)
    · have : id = l.nextRoomId := List.mem_singleton.mp hid
      exact this ▸ Nat.lt_succ_self _
  · refine denseAt_of_numbers (h.rooms.groups g) ?_
    have hnone : ([(⟨l.nextRoomId, name, direct, none, none, none⟩ : Room)].filter (Room.inGroup g)).filterMap
        Room.workspacePosition = [] :=
      List.filterMap_eq_nil_iff.mpr fun r hr => by rw [List.mem_singleton.mp (List.mem_filter.mp hr).1]
    rw [hgroup, List.filterMap_append, hnone, List.append_nil]
  · have hperm : (((l.createRoom name direct).group g).filter fun r => r.id ≠ l.nextRoomId).Perm
        ((l.group g).filter fun _ => true) := by
      rw [hgroup, List.filter_append, List.filter_true]
      have hold : ((l.group g).filter fun r => r.id ≠ l.nextRoomId) = l.group g :=
        List.filter_eq_self.mpr fun r hr => decide_eq_true (id_ne_next h (mem_group.mp hr).1)
      have hnew : ([(⟨l.nextRoomId, name, direct, none, none, none⟩ : Room)].filter (Room.inGroup g)).filter
          (fun r => r.id ≠ l.nextRoomId) = [] :=
        List.filter_eq_nil_iff.mpr fun r hr => by simp [List.mem_singleton.mp (List.mem_filter.mp hr).1]
      rw [hold, hnew, List.append_nil]
    have heq : ((l.createRoom name direct).roomIds g).filter (fun id => decide (id ≠ l.nextRoomId)) =
        (l.roomIds g).filter fun _ => true := filter_roomIds h.rooms.ids hperm
    rw [heq, List.filter_true]

theorem inv_renameRoom (h : l.Inv) (roomId : Nat) (name : Option String) :
    (l.renameRoom roomId name).Inv ∧ Obeys l (l.renameRoom roomId name) (.renameRoom roomId name) := by
  let write : Room → Room := fun r => if r.id = roomId then { r with name := name } else r
  have hwrite (r : Room) : (write r).id = r.id ∧ (write r).workspacePosition = r.workspacePosition ∧
      ∀ g, (write r).inGroup g = r.inGroup g := by
    simp only [write]
    split
    · exact ⟨rfl, rfl, fun g => rfl⟩
    · exact ⟨rfl, rfl, fun g => rfl⟩
  have hgroup (g : Option Nat) : (l.renameRoom roomId name).group g = (l.group g).map write := by
    rw [Layout.group, Layout.renameRoom, List.filter_map]
    exact congrArg (List.map write) (List.filter_congr fun r _ => (hwrite r).2.2 g)
  refine ⟨h.keep rfl rfl ?_ rfl fun g => denseAt_of_numbers (h.rooms.groups g) ?_, fun g => ?_⟩
  · have hids : (l.renameRoom roomId name).rooms.map Room.id = l.rooms.map Room.id := by
      rw [Layout.renameRoom, List.map_map]
      exact List.map_congr_left fun r _ => (hwrite r).1
    rw [hids]
  · rw [hgroup, List.filterMap_map]
    exact List.filterMap_congr fun r _ => (hwrite r).2.1
  · have hsame : ((l.group g).map write).filter (fun r => decide (r.id ≠ roomId)) =
        (l.group g).filter fun r => decide (r.id ≠ roomId) := by
      refine filter_map_of (fun r _ => by rw [(hwrite r).1]) fun r _ hr => ?_
      exact if_neg (of_decide_eq_true hr)
    have hperm : (((l.renameRoom roomId name).group g).filter fun r => decide (r.id ≠ roomId)).Perm
        ((l.group g).filter fun r => decide (r.id ≠ roomId)) := by
      rw [hgroup, hsame]
    exact filter_roomIds (p := fun id => decide (id ≠ roomId)) h.rooms.ids hperm

/-- The room is out of its group. -/
structure Gone (l l₀ : Layout) (roomId : Nat) : Prop where
  group : ∀ g, l₀.group g = (l.group g).filter fun r => r.id ≠ roomId
  rooms : (l₀.rooms.map Room.id).Sublist (l.rooms.map Room.id)
  nextRoomId : l₀.nextRoomId = l.nextRoomId
  categories : l₀.categories = l.categories
  nextCategoryId : l₀.nextCategoryId = l.nextCategoryId

theorem gone_markDeleted (l : Layout) (roomId time : Nat) : Gone l (l.markDeleted roomId time) roomId := by
  refine ⟨fun g => ?_, ?_, rfl, rfl, rfl⟩
  · have hfilter : (l.markDeleted roomId time).rooms.filter (Room.inGroup g) =
        l.rooms.filter fun r => decide (r.id ≠ roomId) && r.inGroup g := by
      refine filter_map_of (fun r _ => ?_) fun r _ hr => ?_
      · by_cases hid : r.id = roomId
        · simp [hid, Room.inGroup]
        · simp [hid]
      · exact if_neg (of_decide_eq_true (Bool.and_eq_true_iff.mp hr).1)
    exact hfilter.trans List.filter_filter.symm
  · have hids : (l.markDeleted roomId time).rooms.map Room.id = l.rooms.map Room.id := by
      rw [Layout.markDeleted, List.map_map]
      refine List.map_congr_left fun r _ => ?_
      rw [Function.comp_apply]
      split <;> rfl
    rw [hids]

theorem gone_dropRoom (l : Layout) (roomId : Nat) : Gone l (l.dropRoom roomId) roomId :=
  ⟨fun _ => List.filter_comm .., List.filter_sublist.map _, rfl, rfl, rfl⟩

/-- A room without a number leaves no gap. -/
theorem inv_gone (h : l.Inv) (hgone : Gone l l₀ roomId)
    (hnone : ∀ r ∈ l.rooms, r.id = roomId → r.direct = false → r.workspacePosition = none) :
    l₀.Inv ∧ ∀ g, l₀.roomIds g = (l.roomIds g).filter (· ≠ roomId) := by
  refine ⟨h.keep hgone.categories hgone.nextCategoryId hgone.rooms hgone.nextRoomId fun g => ?_, fun g => ?_⟩
  · refine denseAt_of_numbers (h.rooms.groups g) ?_
    rw [hgone.group, List.filterMap_filter]
    refine List.filterMap_congr fun r hr => ?_
    have hin := mem_group.mp hr
    split
    · rfl
    · next hid =>
      have hid : r.id = roomId := by simpa using hid
      exact (hnone r hin.1 hid (inGroup_iff.mp hin.2).2.1).symm
  · exact roomIds_of_group h.rooms.ids (p := fun id => decide (id ≠ roomId)) (hgone.group g)

/-- **A room gone, and its group compacted.** -/
theorem inv_compactGone (h : l.Inv) (hgone : Gone l l₀ roomId) {r : Room} (hr : r ∈ l.rooms) (hid : r.id = roomId) :
    (l₀.writeRooms r.workspaceCategoryId (l₀.roomIds r.workspaceCategoryId)).Inv ∧
      ∀ g, (l₀.writeRooms r.workspaceCategoryId (l₀.roomIds r.workspaceCategoryId)).roomIds g =
        (l.roomIds g).filter (· ≠ roomId) := by
  have hids := h.rooms.ids.sublist hgone.rooms
  have hwritten := writeRooms_eq l₀ r.workspaceCategoryId (nodup_roomIds hids r.workspaceCategoryId)
  obtain ⟨hlisted, hdense, hothers⟩ := compact hids r.workspaceCategoryId
  have hout (g : Option Nat) : l₀.roomIds g = (l.roomIds g).filter (· ≠ roomId) :=
    roomIds_of_group h.rooms.ids (p := fun id => decide (id ≠ roomId)) (hgone.group g)
  have hsame (g : Option Nat) (hg : g ≠ r.workspaceCategoryId) : l₀.group g = l.group g := by
    rw [hgone.group]
    refine List.filter_eq_self.mpr fun r' hr' => decide_eq_true fun hid' => hg ?_
    have hin := mem_group.mp hr'
    obtain rfl := eq_of_id h.rooms.ids hin.1 hr (hid'.trans hid.symm)
    exact (inGroup_iff.mp hin.2).1.symm
  refine ⟨h.keep ?_ ?_ ?_ ?_ fun g => ?_, fun g => ?_⟩
  · rw [hwritten]
    exact hgone.categories
  · rw [hwritten]
    exact hgone.nextCategoryId
  · rw [map_id_writeRooms (nodup_roomIds hids _)]
    exact hgone.rooms
  · rw [hwritten]
    exact hgone.nextRoomId
  · by_cases hg : g = r.workspaceCategoryId
    · subst hg
      exact hdense
    · exact denseAt_of_group (h.rooms.groups g) ((hothers g hg).trans (hsame g hg))
  · rw [← hout]
    by_cases hg : g = r.workspaceCategoryId
    · subst hg
      exact hlisted
    · have hgroup : (l₀.writeRooms r.workspaceCategoryId (l₀.roomIds r.workspaceCategoryId)).group g =
          (l₀.group g).filter fun _ => true := by
        rw [hothers g hg, List.filter_true]
      rw [roomIds_of_group hids (p := fun _ => true) hgroup, List.filter_true]

theorem id_of_find {rooms : List Room} {p : Room → Bool} {room : Room}
    (h : rooms.find? (fun r => r.id == roomId && p r) = some room) :
    room ∈ rooms ∧ room.id = roomId ∧ p room = true := by
  have hfound := Bool.and_eq_true_iff.mp (List.find?_some (p := fun r => r.id == roomId && p r) h)
  exact ⟨List.mem_of_find?_eq_some h, beq_iff_eq.mp hfound.1, hfound.2⟩

/-- What `removeRoomFromLayout` does: nothing, for a room without a number, or it compacts the group. -/
theorem removeRoomFromLayout_cases (h : (l.rooms.map Room.id).Nodup) (roomId : Nat) :
    (l.removeRoomFromLayout roomId = l ∧
        ∀ r ∈ l.rooms, r.id = roomId → r.direct = false → r.workspacePosition = none) ∨
      ∃ r ∈ l.rooms, r.id = roomId ∧ l.removeRoomFromLayout roomId =
        l.writeRooms r.workspaceCategoryId ((l.roomIds r.workspaceCategoryId).filter (· ≠ roomId)) := by
  unfold Layout.removeRoomFromLayout
  split
  · next hfind =>
    refine .inl ⟨rfl, fun r hr hid hdirect => ?_⟩
    have hno := List.find?_eq_none.mp hfind r hr
    exact absurd (by simp [hid, hdirect]) hno
  · next room hfind =>
    obtain ⟨hroom, hid, -⟩ := id_of_find hfind
    have honly (hp : room.workspacePosition = none) :
        ∀ r ∈ l.rooms, r.id = roomId → r.direct = false → r.workspacePosition = none := fun r hr hrid _ => by
      rw [eq_of_id h hr hroom (hrid.trans hid.symm)]
      exact hp
    split
    · next hnone => exact .inl ⟨rfl, honly (Option.isNone_iff_eq_none.mp (Bool.and_eq_true_iff.mp hnone).2)⟩
    · split
      · exact .inr ⟨room, hroom, hid, rfl⟩
      · next hsome => exact .inl ⟨rfl, honly (by simpa using hsome)⟩

theorem markDeleted_writeRooms {ids : List Nat} (hids : ids.Nodup) (hout : roomId ∉ ids) (time : Nat) :
    (l.writeRooms c ids).markDeleted roomId time = (l.markDeleted roomId time).writeRooms c ids := by
  rw [writeRooms_eq _ _ hids, writeRooms_eq _ _ hids, Layout.markDeleted, Layout.markDeleted]
  simp only [List.map_map]
  congr 1
  refine List.map_congr_left fun r _ => ?_
  by_cases hid : r.id = roomId
  · have hr : r.id ∉ ids := hid ▸ hout
    simp [place, hid, hout]
  · simp [hid]

theorem dropRoom_writeRooms {ids : List Nat} (hids : ids.Nodup) :
    (l.writeRooms c ids).dropRoom roomId = (l.dropRoom roomId).writeRooms c ids := by
  rw [writeRooms_eq _ _ hids, writeRooms_eq _ _ hids, Layout.dropRoom, Layout.dropRoom]
  simp only [List.filter_map]
  congr 2
  exact List.filter_congr fun r _ => by rw [Function.comp_apply, place_id]

theorem Gone.roomIds (hgone : Gone l l₀ roomId) (h : (l.rooms.map Room.id).Nodup) (g : Option Nat) :
    l₀.roomIds g = (l.roomIds g).filter (· ≠ roomId) :=
  roomIds_of_group h (p := fun id => decide (id ≠ roomId)) (hgone.group g)

theorem inv_deleteRoom (h : l.Inv) (roomId time : Nat) :
    ((l.removeRoomFromLayout roomId).markDeleted roomId time).Inv ∧
      ∀ g, ((l.removeRoomFromLayout roomId).markDeleted roomId time).roomIds g =
        (l.roomIds g).filter (· ≠ roomId) := by
  have hgone := gone_markDeleted l roomId time
  rcases removeRoomFromLayout_cases h.rooms.ids roomId with ⟨heq, hnone⟩ | ⟨r, hr, hid, heq⟩
  · rw [heq]
    exact inv_gone h hgone hnone
  · rw [heq, markDeleted_writeRooms ((nodup_roomIds h.rooms.ids _).filter _) (by simp),
      ← hgone.roomIds h.rooms.ids]
    exact inv_compactGone h hgone hr hid

theorem inv_purgeRoom (h : l.Inv) (roomId : Nat) :
    ((l.removeRoomFromLayout roomId).dropRoom roomId).Inv ∧
      ∀ g, ((l.removeRoomFromLayout roomId).dropRoom roomId).roomIds g = (l.roomIds g).filter (· ≠ roomId) := by
  have hgone := gone_dropRoom l roomId
  rcases removeRoomFromLayout_cases h.rooms.ids roomId with ⟨heq, hnone⟩ | ⟨r, hr, hid, heq⟩
  · rw [heq]
    exact inv_gone h hgone hnone
  · rw [heq, dropRoom_writeRooms ((nodup_roomIds h.rooms.ids _).filter _), ← hgone.roomIds h.rooms.ids]
    exact inv_compactGone h hgone hr hid

/-- Marked first, the room is out of the listing when the group is compacted. -/
theorem inv_beginDestroy (h : l.Inv) (roomId time : Nat) :
    ((l.markDeleted roomId time).removeRoomFromLayout roomId).Inv ∧
      ∀ g, ((l.markDeleted roomId time).removeRoomFromLayout roomId).roomIds g =
        (l.roomIds g).filter (· ≠ roomId) := by
  have hgone := gone_markDeleted l roomId time
  have hids := h.rooms.ids.sublist hgone.rooms
  rcases removeRoomFromLayout_cases hids roomId with ⟨heq, hnone⟩ | ⟨r, hr, hid, heq⟩
  · rw [heq]
    refine inv_gone h hgone fun r hr hid hdirect => ?_
    have hmarked := hnone { r with deletedAt := some time }
      (List.mem_map.mpr ⟨r, hr, if_pos hid⟩) hid hdirect
    exact hmarked
  · obtain ⟨r, hrow, rfl⟩ := List.mem_map.mp hr
    have hr : r.id = roomId := by
      by_contra hne
      rw [if_neg hne] at hid
      exact hne hid
    rw [heq, if_pos hr, hgone.roomIds h.rooms.ids, List.filter_filter]
    simp only [Bool.and_self]
    rw [← hgone.roomIds h.rooms.ids]
    exact inv_compactGone h hgone hrow hr

/-! ## 3. A room moves -/

theorem ok_of_bind {E A B : Type} {x : Except E A} {f : A → Except E B} {b : B} (h : x >>= f = .ok b) :
    ∃ a, x = .ok a ∧ f a = .ok b := by
  cases x with
  | error e => cases h
  | ok a => exact ⟨a, rfl, h⟩

theorem found_of_findRoom {room : Room} (h : l.findRoom roomId = .ok room) : room ∈ l.rooms ∧ room.id = roomId := by
  unfold Layout.findRoom at h
  split at h
  · next r hfind =>
    obtain rfl := Except.ok.inj h
    exact ⟨List.mem_of_find?_eq_some hfind, beq_iff_eq.mp (List.find?_some (p := fun r : Room => r.id == roomId) hfind)⟩
  · cases h

/-- What an accepted placing writes. -/
theorem placeRoom_cases {index : List Nat → Except Failure Nat} (h : l.placeRoom roomId c index = .ok l') :
    ∃ room ∈ l.rooms, room.id = roomId ∧ room.direct = false ∧ room.deletedAt = none ∧
      ∃ position, index ((l.roomIds c).filter (· ≠ roomId)) = .ok position ∧
        l' = (if room.workspaceCategoryId ≠ c then l.writeRooms room.workspaceCategoryId
          ((l.roomIds room.workspaceCategoryId).filter (· ≠ roomId)) else l).writeRooms c
            (((l.roomIds c).filter (· ≠ roomId)).insertIdx position roomId) := by
  unfold Layout.placeRoom at h
  obtain ⟨room, hfound, h⟩ := ok_of_bind h
  dsimp only at h
  split at h
  · obtain ⟨_, hthrow, -⟩ := ok_of_bind h
    cases hthrow
  · next hlive =>
    split at h
    · obtain ⟨_, hthrow, -⟩ := ok_of_bind h
      cases hthrow
    · next hdirect =>
      have hwrite : (index ((l.roomIds c).filter (· ≠ roomId)) >>= fun position =>
          pure ((if room.workspaceCategoryId ≠ c then l.writeRooms room.workspaceCategoryId
            ((l.roomIds room.workspaceCategoryId).filter (· ≠ roomId)) else l).writeRooms c
              (((l.roomIds c).filter (· ≠ roomId)).insertIdx position roomId))) = Except.ok l' := by
        cases c with
        | none => exact h
        | some id => exact (ok_of_bind h).choose_spec.2
      obtain ⟨position, hindex, hpure⟩ := ok_of_bind hwrite
      obtain ⟨hroom, hid⟩ := found_of_findRoom hfound
      exact ⟨room, hroom, hid, by simpa using hdirect, by simpa using hlive, position, hindex, (Except.ok.inj hpure).symm⟩

theorem nodup_insertIdx {ids : List Nat} {position : Nat} (h : ids.Nodup) (hout : roomId ∉ ids)
    (hle : position ≤ ids.length) : (ids.insertIdx position roomId).Nodup :=
  (List.perm_insertIdx roomId ids hle).nodup_iff.mpr (List.nodup_cons.mpr ⟨hout, h⟩)

/-- Two renumberings of different rows in either order. -/
theorem writeRooms_comm {g c : Option Nat} {ids ids' : List Nat} (hids : ids.Nodup) (hids' : ids'.Nodup)
    (hdisjoint : ∀ id ∈ ids, id ∉ ids') :
    (l.writeRooms g ids).writeRooms c ids' = (l.writeRooms c ids').writeRooms g ids := by
  rw [writeRooms_eq _ _ hids', writeRooms_eq _ _ hids, writeRooms_eq _ _ hids, writeRooms_eq _ _ hids']
  simp only [List.map_map]
  congr 1
  refine List.map_congr_left fun r _ => ?_
  rw [Function.comp_apply, Function.comp_apply]
  by_cases hr : r.id ∈ ids
  · have hr' := hdisjoint _ hr
    rw [place_of_notMem hr', place_of_notMem (by rwa [place_id])]
  · have hplaced : (place c ids' r).id ∉ ids := by rwa [place_id]
    rw [place_of_notMem hr, place_of_notMem hplaced]

/-- **The room placed in the target**: what the listings say before the group it left is compacted. -/
theorem moved_of_place (h : l.Inv) {room : Room} (hroom : room ∈ l.rooms) (hid : room.id = roomId)
    (hdirect : room.direct = false) (hlive : room.deletedAt = none) {position : Nat}
    (hle : position ≤ ((l.roomIds c).filter (· ≠ roomId)).length) :
    Moved l (l.writeRooms c (((l.roomIds c).filter (· ≠ roomId)).insertIdx position roomId)) roomId c
        (((l.roomIds c).filter (· ≠ roomId)).insertIdx position roomId) ∧
      (l.writeRooms c (((l.roomIds c).filter (· ≠ roomId)).insertIdx position roomId)).DenseAt c ∧
      ∀ g ≠ c, (l.writeRooms c (((l.roomIds c).filter (· ≠ roomId)).insertIdx position roomId)).group g =
        (l.group g).filter fun r => r.id ≠ roomId := by
  have hids := (nodup_roomIds h.rooms.ids c).filter fun id => decide (id ≠ roomId)
  have hout : roomId ∉ (l.roomIds c).filter fun id => decide (id ≠ roomId) := by simp
  have hnodup := nodup_insertIdx hids hout hle
  have hmem (id : Nat) : id ∈ ((l.roomIds c).filter (· ≠ roomId)).insertIdx position roomId ↔
      id = roomId ∨ id ∈ l.roomIds c := by
    rw [List.mem_insertIdx hle, List.mem_filter, decide_eq_true_iff]
    by_cases heq : id = roomId <;> simp [heq]
  have htarget := writeRooms_target h.rooms.ids hnodup (c := c) (fun id hin => ?_) fun id hin => (hmem id).mpr (.inr hin)
  · have hothers (g : Option Nat) (hg : g ≠ c) :
        (l.writeRooms c (((l.roomIds c).filter (· ≠ roomId)).insertIdx position roomId)).group g =
          (l.group g).filter fun r => r.id ≠ roomId := by
      rw [group_writeRooms hnodup hg]
      refine List.filter_congr fun r hr => ?_
      have hin := mem_group.mp hr
      have hout : r.id ∉ l.roomIds c := fun hc =>
        hg (group_unique h.rooms.ids (mem_roomIds.mpr ⟨r, hin.1, hin.2, rfl⟩) hc)
      rw [decide_eq_decide, hmem]
      simp [hout]
    refine ⟨⟨htarget.1, fun g hg => ?_⟩, htarget.2, hothers⟩
    exact roomIds_of_group h.rooms.ids (p := fun id => decide (id ≠ roomId)) (hothers g hg)
  · rcases (hmem id).mp hin with rfl | hin
    · exact ⟨room, hroom, hid, hdirect, hlive⟩
    · obtain ⟨r, hr, hg, rfl⟩ := mem_roomIds.mp hin
      exact ⟨r, hr, rfl, (inGroup_iff.mp hg).2⟩

theorem group_without (h : l.Inv) {room : Room} (hroom : room ∈ l.rooms) (hid : room.id = roomId)
    (hg : g ≠ room.workspaceCategoryId) : ((l.group g).filter fun r => r.id ≠ roomId) = l.group g := by
  refine List.filter_eq_self.mpr fun r hr => decide_eq_true fun hrid => hg ?_
  have hin := mem_group.mp hr
  obtain rfl := eq_of_id h.rooms.ids hin.1 hroom (hrid.trans hid.symm)
  exact (inGroup_iff.mp hin.2).1.symm

/-- **A room moved**: the target lists it where it was put, and every group is numbered. -/
theorem inv_place (h : l.Inv) {index : List Nat → Except Failure Nat} (hplace : l.placeRoom roomId c index = .ok l')
    (hindex : ∀ others position, index others = .ok position → position ≤ others.length) :
    l'.Inv ∧ ∃ position, index ((l.roomIds c).filter (· ≠ roomId)) = .ok position ∧
      Moved l l' roomId c (((l.roomIds c).filter (· ≠ roomId)).insertIdx position roomId) := by
  obtain ⟨room, hroom, hid, hdirect, hlive, position, hposition, rfl⟩ := placeRoom_cases hplace
  have hle := hindex _ _ hposition
  obtain ⟨hmoved, hdense, hothers⟩ := moved_of_place h hroom hid hdirect hlive hle
  have hids := (nodup_roomIds h.rooms.ids c).filter fun id => decide (id ≠ roomId)
  have hout : roomId ∉ (l.roomIds c).filter fun id => decide (id ≠ roomId) := by simp
  have hnodup := nodup_insertIdx hids hout hle
  have hwritten := writeRooms_eq l c hnodup
  have hkept := map_id_writeRooms (l := l) (c := c) hnodup
  by_cases hsource : room.workspaceCategoryId = c
  · rw [if_neg (not_not.mpr hsource)]
    refine ⟨h.keep (by rw [hwritten]) (by rw [hwritten]) (by rw [hkept]) (by rw [hwritten]) fun g => ?_,
      position, hposition, hmoved⟩
    by_cases hg : g = c
    · exact hg ▸ hdense
    · exact denseAt_of_group (h.rooms.groups g)
        ((hothers g hg).trans (group_without h hroom hid (hsource ▸ hg)))
  · rw [if_pos hsource]
    -- the target first: then the group left is compacted as it is listed
    have hleft := hmoved.others room.workspaceCategoryId hsource
    rw [writeRooms_comm ((nodup_roomIds h.rooms.ids _).filter _) hnodup ?_, ← hleft]
    · generalize hl₁ : l.writeRooms c (((l.roomIds c).filter (· ≠ roomId)).insertIdx position roomId) = l₁ at *
      have hids₁ : (l₁.rooms.map Room.id).Nodup := hkept ▸ h.rooms.ids
      have hnodup₁ := nodup_roomIds hids₁ room.workspaceCategoryId
      obtain ⟨hlisted, hcompact, hsame⟩ := compact hids₁ room.workspaceCategoryId
      have hroomIds (g : Option Nat) : (l₁.writeRooms room.workspaceCategoryId
          (l₁.roomIds room.workspaceCategoryId)).roomIds g = l₁.roomIds g := by
        by_cases hg : g = room.workspaceCategoryId
        · exact hg ▸ hlisted
        · have hgroup := (hsame g hg).trans (List.filter_true (l := l₁.group g)).symm
          rw [roomIds_of_group hids₁ (p := fun _ => true) hgroup, List.filter_true]
      refine ⟨h.keep ?_ ?_ ?_ ?_ fun g => ?_, position, hposition, ⟨?_, fun g hg => ?_⟩⟩
      · rw [writeRooms_eq _ _ hnodup₁, hwritten]
      · rw [writeRooms_eq _ _ hnodup₁, hwritten]
      · rw [map_id_writeRooms hnodup₁, hkept]
      · rw [writeRooms_eq _ _ hnodup₁, hwritten]
      · by_cases hg : g = room.workspaceCategoryId
        · exact hg ▸ hcompact
        · refine denseAt_of_group ?_ (hsame g hg)
          by_cases hgc : g = c
          · exact hgc ▸ hdense
          · exact denseAt_of_group (h.rooms.groups g) ((hothers g hgc).trans (group_without h hroom hid hg))
      · rw [hroomIds, hmoved.target]
      · rw [hroomIds, hmoved.others g hg]
    · intro id hin hin'
      have hin := List.mem_filter.mp hin
      rcases (List.mem_insertIdx hle).mp hin' with rfl | hin'
      · simp at hin
      · exact hsource (group_unique h.rooms.ids hin.1 (List.mem_filter.mp hin').1)

/-! ## 4. A category goes -/

theorem deleteCategory_group (h : g ≠ none) (id : Nat) :
    (l.deleteCategory id).group g = if g = some id then [] else l.group g := by
  have hfilter : (l.deleteCategory id).rooms.filter (Room.inGroup g) =
      l.rooms.filter fun r => decide (g ≠ some id) && r.inGroup g := by
    refine filter_map_of (fun r _ => ?_) fun r _ hr => ?_
    · by_cases hid : r.workspaceCategoryId = some id
      · have hnone : (none == g) = false := beq_eq_false_iff_ne.mpr (Ne.symm h)
        by_cases hg : g = some id
        · simp [hid, Room.inGroup, hg]
        · have hsome : (some id == g) = false := beq_eq_false_iff_ne.mpr (Ne.symm hg)
          simp [hid, Room.inGroup, hnone, hsome]
      · by_cases hg : g = some id
        · simp [hid, hg, Room.inGroup]
        · simp [hid, hg]
    · have hr := Bool.and_eq_true_iff.mp hr
      have hcategory := (inGroup_iff.mp hr.2).1
      exact if_neg fun hid => of_decide_eq_true hr.1 (hcategory.symm.trans hid)
  rw [Layout.group, hfilter]
  split
  · next hg => simp [hg]
  · next hg => simp [hg, Layout.group]

/-- A room out of its category, if that is the one. -/
def uncategorized (id : Nat) (r : Room) : Room :=
  if r.workspaceCategoryId = some id then { r with workspaceCategoryId := none } else r

theorem deleteCategory_rooms (l : Layout) (id : Nat) : (l.deleteCategory id).rooms = l.rooms.map (uncategorized id) := rfl

theorem uncategorized_row (id : Nat) (r : Room) : (uncategorized id r).id = r.id ∧
    (uncategorized id r).direct = r.direct ∧ (uncategorized id r).deletedAt = r.deletedAt := by
  unfold uncategorized
  split
  · exact ⟨rfl, rfl, rfl⟩
  · exact ⟨rfl, rfl, rfl⟩

theorem category_of_uncategorized {id : Nat} {r : Room} (h : (uncategorized id r).workspaceCategoryId = none) :
    r.workspaceCategoryId = none ∨ r.workspaceCategoryId = some id := by
  by_cases hid : r.workspaceCategoryId = some id
  · exact .inr hid
  · rw [uncategorized, if_neg hid] at h
    exact .inl h

theorem map_id_deleteCategory (l : Layout) (id : Nat) :
    (l.deleteCategory id).rooms.map Room.id = l.rooms.map Room.id := by
  rw [deleteCategory_rooms, List.map_map]
  exact List.map_congr_left fun r _ => (uncategorized_row id r).1

theorem roomIds_eq_nil (h : l.group g = []) : l.roomIds g = [] := by
  have hnil : l.roomsOf g = [] := List.Perm.eq_nil (h ▸ roomsOf_perm l g)
  rw [Layout.roomIds, hnil]
  rfl

theorem denseAt_nil (h : l.group g = []) : l.DenseAt g := ⟨0, by rw [h]; rfl⟩

theorem nodup_destroy (h : l.Inv) (id : Nat) : (l.roomIds none ++ l.roomIds (some id)).Nodup := by
  refine List.nodup_append.mpr ⟨nodup_roomIds h.rooms.ids _, nodup_roomIds h.rooms.ids _, ?_⟩
  rintro a ha _ hb rfl
  cases group_unique h.rooms.ids ha hb

/-- **A category's rooms appended** to the uncategorized ones. -/
theorem destroy_groups (h : l.Inv) (id : Nat) :
    ((l.deleteCategory id).writeRooms none (l.roomIds none ++ l.roomIds (some id))).roomIds none =
        l.roomIds none ++ l.roomIds (some id) ∧
      ((l.deleteCategory id).writeRooms none (l.roomIds none ++ l.roomIds (some id))).DenseAt none ∧
      ∀ g ≠ none, ((l.deleteCategory id).writeRooms none (l.roomIds none ++ l.roomIds (some id))).group g =
        if g = some id then [] else l.group g := by
  have hids := nodup_destroy h id
  have hmem (r : Nat) (hr : r ∈ l.roomIds none ++ l.roomIds (some id)) :
      ∃ g, (g = none ∨ g = some id) ∧ r ∈ l.roomIds g :=
    (List.mem_append.mp hr).elim (fun hr => ⟨none, .inl rfl, hr⟩) fun hr => ⟨some id, .inr rfl, hr⟩
  have htarget := writeRooms_target (l := l.deleteCategory id) (c := none)
    (by rw [map_id_deleteCategory]; exact h.rooms.ids) hids (fun r hr => ?_) fun r hr => ?_
  · refine ⟨htarget.1, htarget.2, fun g hg => ?_⟩
    rw [group_writeRooms hids hg, deleteCategory_group hg]
    split
    · rfl
    · next hid =>
      refine List.filter_eq_self.mpr fun r hr => decide_eq_true fun hin => ?_
      have hrow := mem_group.mp hr
      obtain ⟨g', hg', hin⟩ := hmem r.id hin
      obtain rfl := group_unique h.rooms.ids (mem_roomIds.mpr ⟨r, hrow.1, hrow.2, rfl⟩) hin
      exact hg'.elim hg hid
  · obtain ⟨g, -, hin⟩ := hmem r hr
    obtain ⟨row, hrow, hg, rfl⟩ := mem_roomIds.mp hin
    obtain ⟨hid, hdirect, hlive⟩ := uncategorized_row id row
    have hg := inGroup_iff.mp hg
    exact ⟨_, List.mem_map_of_mem hrow, hid, hdirect.trans hg.2.1, hlive.trans hg.2.2⟩
  · obtain ⟨row', hrow', hg, rfl⟩ := mem_roomIds.mp hr
    rw [deleteCategory_rooms] at hrow'
    obtain ⟨row, hrow, rfl⟩ := List.mem_map.mp hrow'
    obtain ⟨hid, hdirect, hlive⟩ := uncategorized_row id row
    have hg := inGroup_iff.mp hg
    have hin (g : Option Nat) (hcategory : row.workspaceCategoryId = g) :
        (uncategorized id row).id ∈ l.roomIds g := by
      refine hid ▸ mem_roomIds.mpr ⟨row, hrow, ?_, rfl⟩
      exact inGroup_iff.mpr ⟨hcategory, hdirect.symm.trans hg.2.1, hlive.symm.trans hg.2.2⟩
    rcases category_of_uncategorized hg.1 with hnone | hsome
    · exact List.mem_append_left _ (hin none hnone)
    · exact List.mem_append_right _ (hin (some id) hsome)

theorem inv_destroy (h : l.Inv) {id : Nat} (hdestroy : l.destroy id = .ok l') : l'.Inv ∧ Obeys l l' (.destroy id) := by
  obtain ⟨_, -, hdestroy⟩ := ok_of_bind hdestroy
  obtain ⟨hlisted, hdense, hothers⟩ := destroy_groups h id
  have hrows := map_id_writeRooms (l := l.deleteCategory id) (c := none) (nodup_destroy h id)
  have hwritten := writeRooms_eq (l.deleteCategory id) none (nodup_destroy h id)
  rw [map_id_deleteCategory] at hrows
  have hkept : ((l.deleteCategory id).categories.map WorkspaceCategory.id).Sublist
      (l.categories.map WorkspaceCategory.id) := List.filter_sublist.map _
  have hcategories := congrArg Layout.categories hwritten
  have hnextCategoryId := congrArg Layout.nextCategoryId hwritten
  have hnextRoomId := congrArg Layout.nextRoomId hwritten
  dsimp only at hdestroy
  generalize (l.deleteCategory id).writeRooms none (l.roomIds none ++ l.roomIds (some id)) = written at *
  have hnodup : (written.categories.map WorkspaceCategory.id).Nodup := by
    rw [hcategories]
    exact h.categories.ids.sublist hkept
  rw [reorder_ok hnodup (List.Perm.refl _)] at hdestroy
  obtain rfl := Except.ok.inj hdestroy
  refine ⟨⟨CategoriesDense.renumbered hnodup (fun i hi => ?_) ((ordered_perm written).map _), ⟨?_, ?_, fun g => ?_⟩⟩,
    hlisted, roomIds_eq_nil (l := written) ((hothers _ (by simp)).trans (if_pos rfl)), fun g hg hid => ?_⟩
  · rw [hcategories] at hi
    exact hnextCategoryId ▸ h.categories.below i (hkept.subset hi)
  · exact hrows ▸ h.rooms.ids
  · exact fun i hi => hnextRoomId ▸ h.rooms.below i (hrows ▸ hi)
  · by_cases hg : g = none
    · exact hg ▸ hdense
    · by_cases hid : g = some id
      · exact denseAt_nil (l := written) ((hothers g hg).trans (if_pos hid))
      · have hdenseAt : written.DenseAt g := denseAt_of_group (h.rooms.groups g) ((hothers g hg).trans (if_neg hid))
        exact hdenseAt
  · have hgroup : written.group g = (l.group g).filter fun _ => true := by
      rw [hothers g hg, if_neg hid, List.filter_true]
    have heq : written.roomIds g = (l.roomIds g).filter fun _ => true := roomIds_of_group h.rooms.ids hgroup
    rw [List.filter_true] at heq
    exact heq

/-! ## 5. Steps -/

theorem inv_create (h : l.Inv) {name : String} (hcreate : l.create name = .ok l') : l'.Inv ∧ Obeys l l' (.create name) := by
  obtain ⟨-, -, hcreate⟩ := ok_of_bind hcreate
  obtain rfl := Except.ok.inj hcreate
  exact ⟨⟨h.categories.create name, h.rooms.ids, h.rooms.below, h.rooms.groups⟩, fun _ => rfl⟩

theorem inv_rename (h : l.Inv) {id : Nat} {name : String} (hrename : l.rename id name = .ok l') :
    l'.Inv ∧ Obeys l l' (.rename id name) := by
  obtain ⟨-, -, hrename⟩ := ok_of_bind hrename
  obtain ⟨current, -, hrename⟩ := ok_of_bind hrename
  split at hrename
  · obtain rfl := Except.ok.inj hrename
    exact ⟨⟨h.categories.rename id name, h.rooms.ids, h.rooms.below, h.rooms.groups⟩, fun _ => rfl⟩
  · obtain rfl := Except.ok.inj hrename
    exact ⟨h, fun _ => rfl⟩

theorem inv_reorder (h : l.Inv) {ids : List Nat} (hreorder : l.reorder ids = .ok l') :
    l'.Inv ∧ Obeys l l' (.reorder ids) := by
  have hp := perm_of_reorder hreorder
  rw [reorder_ok h.categories.ids hp] at hreorder
  obtain rfl := Except.ok.inj hreorder
  refine ⟨⟨?_, h.rooms.ids, h.rooms.below, h.rooms.groups⟩, fun _ => rfl⟩
  exact CategoriesDense.renumbered h.categories.ids h.categories.below (hp.trans ((ordered_perm l).map _))

theorem inv_moveRoom (h : l.Inv) {position : Int} (hmove : l.moveRoom roomId c position = .ok l') :
    l'.Inv ∧ Obeys l l' (.moveRoom roomId c position) := by
  obtain ⟨hi, index, hindex, hmoved⟩ := inv_place h hmove fun others index hindex => by
    obtain rfl := Except.ok.inj hindex
    exact Nat.min_le_right ..
  obtain rfl := Except.ok.inj hindex
  exact ⟨hi, hmoved⟩

theorem insertIdx_append (front back : List Nat) (a : Nat) :
    (front ++ back).insertIdx front.length a = front ++ a :: back := by
  induction front with
  | nil => rfl
  | cons b front ih => rw [List.cons_append, List.length_cons, List.insertIdx_succ_cons, ih, List.cons_append]

/-- Where an anchor stands, there the room comes before it. -/
theorem insertIdx_findIdx (roomId : Nat) {others : List Nat} {p : Nat → Bool} {index : Nat} (h : others.findIdx? p = some index) :
    index ≤ others.length ∧ ∃ front before back, p before = true ∧ others = front ++ before :: back ∧
      others.insertIdx index roomId = front ++ roomId :: before :: back := by
  obtain ⟨hlt, hp, -⟩ := List.findIdx?_eq_some_iff_getElem.mp h
  have hsplit : others.take index ++ others[index] :: others.drop (index + 1) = others := by
    rw [← List.drop_eq_getElem_cons hlt, List.take_append_drop]
  have hlength : (others.take index).length = index := List.length_take_of_le (Nat.le_of_lt hlt)
  have hinsert := insertIdx_append (others.take index) (others[index] :: others.drop (index + 1)) roomId
  rw [hsplit, hlength] at hinsert
  exact ⟨Nat.le_of_lt hlt, others.take index, others[index], others.drop (index + 1), hp, hsplit.symm, hinsert⟩

theorem findIdx?_of_ok {others : List Nat} {before index : Nat} {visible : Bool}
    (hindex : (match others.findIdx? fun id => visible && id == before with
      | some index => Except.ok index
      | none => .error (.recordInvalid [("before_room_id", "must be a room in the target category")])) =
        (Except.ok index : Except Failure Nat)) :
    others.findIdx? (fun id => visible && id == before) = some index := by
  split at hindex
  · next hsome => rw [hsome, Except.ok.inj hindex]
  · cases hindex

theorem inv_moveRoomBefore (h : l.Inv) {before : Nat} {visible : Bool}
    (hmove : l.moveRoomBefore roomId c before visible = .ok l') :
    l'.Inv ∧ Obeys l l' (.moveRoomBefore roomId c before visible) := by
  obtain ⟨hi, index, hindex, hmoved⟩ := inv_place h hmove fun others index hindex =>
    (insertIdx_findIdx roomId (findIdx?_of_ok hindex)).1
  obtain ⟨-, front, anchor, back, hp, hothers, hinserted⟩ := insertIdx_findIdx roomId (findIdx?_of_ok hindex)
  obtain rfl := beq_iff_eq.mp (Bool.and_eq_true_iff.mp hp).2
  exact ⟨hi, front, back, hothers, hinserted ▸ hmoved⟩

/-- **An accepted operation keeps the invariant and obeys.** -/
theorem step_inv (h : l.Inv) {op : WorkspaceOp} (hok : apply l op = .ok l') : l'.Inv ∧ Obeys l l' op := by
  cases op with
  | create name => exact inv_create h hok
  | rename id name => exact inv_rename h hok
  | reorder ids => exact inv_reorder h hok
  | destroy id => exact inv_destroy h hok
  | moveRoom roomId categoryId position => exact inv_moveRoom h hok
  | moveRoomBefore roomId categoryId beforeRoomId anchorVisible => exact inv_moveRoomBefore h hok
  | createRoom name direct => exact Except.ok.inj hok ▸ inv_createRoom h name direct
  | renameRoom roomId name => exact Except.ok.inj hok ▸ inv_renameRoom h roomId name
  | deleteRoom roomId time => exact Except.ok.inj hok ▸ inv_deleteRoom h roomId time
  | beginDestroy roomId time => exact Except.ok.inj hok ▸ inv_beginDestroy h roomId time
  | purgeRoom roomId => exact Except.ok.inj hok ▸ inv_purgeRoom h roomId

end Rooms

/-! ## 6. What is refused -/

section Refused

variable {l : Layout} {name : String} {id roomId : Nat} {categoryId : Option Nat}

end Refused

/-! ## 7. Runs -/

/-- Transactions one after another, from no rows. -/
def workspaceRuns : System Layout WorkspaceOp where
  start l := l = .empty
  step l op := some (after l op)

/-- What the layout owes in a state. -/
structure Layout.Lawful (l : Layout) : Prop where
  dense : l.Dense
  obeys : ∀ op l', apply l op = .ok l' → Obeys l l' op
  /-- What is refused, and nothing else, fails. -/
  refusals : ∀ op, (∃ failure, apply l op = .error failure) ↔ Refusable l op
  refused : ∀ op, Refusable l op → after l op = l

variable {l : Layout}

theorem inv_empty : Layout.empty.Inv := by
  refine ⟨⟨List.nodup_nil, ?_, List.Perm.refl _⟩, ⟨List.nodup_nil, ?_, fun g => ⟨0, List.Perm.refl _⟩⟩⟩
  · exact fun _ h => absurd h List.not_mem_nil
  · exact fun _ h => absurd h List.not_mem_nil

theorem inv_of_reach (h : Reach workspaceRuns l) : l.Inv := by
  refine h.induct (fun s hs => hs ▸ inv_empty) fun s op s' _ hi _ hs => ?_
  obtain rfl := Option.some.inj hs
  unfold after
  split
  · next l' hok => exact (step_inv hi hok).1
  · exact hi

end Smartfire.Workspace
