/-
  File:      Smartfire/Store/Windows.lean
  Subject:   The order of a loaded window, and what landing a page makes of it.

  A world says where each message stands (its time and conversation), which never changes. Copies and pages
  fit it.

  * `World`, `Message.Fits`, `MessagePage.Fits` -- what the server promises;
  * `sorted_insertOrdered` -- inserting by halving keeps the order;
  * `lands_landMessages` -- what a page makes of the table;
  * `Window`, `window_landIds` -- **a window stays in order under every page, in every mode**.
-/
import Smartfire.Store.Timeline

namespace Smartfire.Timelines

/-! ## 1. What the server promises -/

/-- Where a message stands. -/
structure Place where
  createdAt : String
  roomId : Int
  threadId : Option Int
deriving DecidableEq

/-- Where each message stands, for good. -/
abbrev World := Int → Place

/-- The server's order. -/
def World.key (world : World) (id : Int) : String ×ₗ Int := toLex ((world id).createdAt, id)

variable {V : Type} {world : World}

def Message.place (m : Message V) : Place := ⟨m.createdAt, m.roomId, m.threadId⟩

/-- A copy of a message of the world. -/
structure Message.Fits (world : World) (m : Message V) : Prop where
  place : m.place = world m.id
  steps : Shown m.steps

/-- A conversation: a room's root messages, or a thread's replies. -/
inductive Conversation where
  | room (roomId : Int)
  | thread (threadId : Int)
deriving DecidableEq

/-- The conversation of what stands at a place. -/
def Place.conversation (p : Place) : Conversation := p.threadId.elim (.room p.roomId) .thread

/-- A page of a conversation: copies of its messages, in the server's order. -/
structure MessagePage.Fits (world : World) (c : Conversation) (page : MessagePage V) : Prop where
  copies : ∀ m ∈ page.messages, m.Fits world ∧ (world m.id).conversation = c
  sorted : page.messages.Pairwise fun a b => world.key a.id < world.key b.id

/-! ## 2. Order -/

section Order

variable {a b m : Message V} {ids : List Int} {messages : Table V}

theorem compareMessages_lt (ha : a.Fits world) (hb : b.Fits world) :
    compareMessages a b < 0 ↔ world.key a.id < world.key b.id := by
  have hplace (m : Message V) (hm : m.Fits world) : (world m.id).createdAt = m.createdAt := by
    rw [← hm.place]
    rfl
  simp only [compareMessages, World.key, hplace a ha, hplace b hb, Prod.Lex.toLex_lt_toLex]
  by_cases heq : a.createdAt = b.createdAt
  · simp only [heq, ne_eq, not_true_eq_false, if_false, lt_irrefl, true_and, false_or]
    omega
  · by_cases hlt : a.createdAt < b.createdAt <;> simp [heq, hlt]

/-- The table holds copies that fit, each under its id. -/
def Holds (world : World) (messages : Table V) : Prop := ∀ id m, messages id = some m → m.id = id ∧ m.Fits world

/-- The ids of a window, in the server's order and each with its message. -/
structure Sorted (world : World) (messages : Table V) (ids : List Int) : Prop where
  order : ids.Pairwise fun a b => world.key a < world.key b
  held : ∀ id ∈ ids, (messages id).isSome

theorem key_injective {i j : Int} (h : world.key i = world.key j) : i = j := by
  have hpair := congrArg ofLex h
  exact congrArg Prod.snd hpair

/-- **Inserting by halving keeps the order.** -/
theorem sorted_insertOrdered (hids : Sorted world messages ids) (hmessages : Holds world messages)
    (hm : m.Fits world) (hheld : (messages m.id).isSome) : Sorted world messages (insertOrdered ids m messages) := by
  unfold insertOrdered
  split
  · exact hids
  next habsent =>
  refine ⟨Lib.pairwise_insertAt hids.order (fun id hid heq => ?_) fun i hi => ?_, fun id hid => ?_⟩
  · exact habsent (key_injective heq ▸ hid)
  · have hget : ids.getD i (-1) = ids[i] := by simp [hi]
    obtain ⟨other, hother⟩ := Option.isSome_iff_exists.mp (hids.held _ (List.getElem_mem hi))
    obtain ⟨hid, hfits⟩ := hmessages _ other hother
    rw [hget, hother, Option.any_some, decide_eq_decide, compareMessages_lt hfits hm, hid]
  · obtain rfl | hid := (Lib.mem_insertAt _).mp hid
    · exact hheld
    · exact hids.held id hid

theorem mem_insertOrdered {id : Int} : id ∈ insertOrdered ids m messages ↔ id = m.id ∨ id ∈ ids := by
  unfold insertOrdered
  split
  · next hmem =>
    refine ⟨.inr, fun h => ?_⟩
    obtain rfl | h := h
    · exact hmem
    · exact h
  · exact Lib.mem_insertAt _

theorem Sorted.sublist {ids' : List Int} (h : Sorted world messages ids) (hsub : ids'.Sublist ids) :
    Sorted world messages ids' :=
  ⟨h.order.sublist hsub, fun id hid => h.held id (hsub.subset hid)⟩

end Order

/-! ## 3. The table -/

section Tables

variable {held m : Message V} {messages : Table V} {state : State V}

/-- How a table may change: nothing that was held is gone, and what is held fits. -/
structure Lands (world : World) (messages messages' : Table V) : Prop where
  holds : Holds world messages'
  isSome : ∀ id, (messages id).isSome → (messages' id).isSome

theorem Lands.refl (h : Holds world messages) : Lands world messages messages := ⟨h, fun _ => id⟩

theorem Lands.trans {a b c : Table V} (hab : Lands world a b) (hbc : Lands world b c) : Lands world a c :=
  ⟨hbc.holds, fun id hid => hbc.isSome id (hab.isSome id hid)⟩

/-- A copy is written. -/
theorem lands_update (h : Holds world messages) (hm : m.Fits world) :
    Lands world messages (Function.update messages m.id (some m)) := by
  refine ⟨fun id other hother => ?_, fun id hid => ?_⟩
  · by_cases heq : id = m.id
    · subst heq
      rw [Function.update_self] at hother
      exact Option.some.inj hother ▸ ⟨rfl, hm⟩
    · rw [Function.update_of_ne heq] at hother
      exact h id other hother
  · by_cases heq : id = m.id
    · subst heq
      rw [Function.update_self]
      rfl
    · rwa [Function.update_of_ne heq]

variable [DecidableEq V]

/-- What is kept of two copies of one message fits. -/
theorem fits_kept (h : Holds world messages) (hm : m.Fits world) (tie : Bool) :
    (kept (messages m.id) m tie).Fits world ∧ (kept (messages m.id) m tie).id = m.id := by
  cases hmessage : messages m.id with
  | none => exact ⟨hm, rfl⟩
  | some held =>
    obtain ⟨hid, hheld⟩ := h m.id held hmessage
    have hwinner : (if incomingWins held m tie then m else held).Fits world ∧
        (if incomingWins held m tie then m else held).id = m.id := by
      cases incomingWins held m tie
      · exact ⟨hheld, hid⟩
      · exact ⟨hm, rfl⟩
    rw [kept_eq]
    exact ⟨⟨hwinner.1.place, shown_mergedSteps hheld.steps hm.steps tie⟩, hwinner.2⟩

/-- Keeping a copy is writing it, also where the held one stays. -/
theorem update_kept (messages : Table V) (m : Message V) (tie : Bool) :
    (match reconcileMessage (messages m.id) m tie with
      | none => messages
      | some kept => Function.update messages m.id (some kept)) =
    Function.update messages m.id (some (kept (messages m.id) m tie)) := by
  unfold kept
  cases hmessage : messages m.id with
  | none => rfl
  | some held =>
    cases reconcileMessage (some held) m tie with
    | some kept => rfl
    | none =>
      rw [Option.getD_none, Option.getD_some, ← hmessage]
      exact (Function.update_eq_self m.id messages).symm

/-- **A copy lands.** -/
theorem lands_kept (h : Holds world messages) (hm : m.Fits world) (tie : Bool) :
    Lands world messages (Function.update messages m.id (some (kept (messages m.id) m tie))) := by
  obtain ⟨hfits, hid⟩ := fits_kept h hm tie
  have hlands := lands_update h hfits
  rwa [hid] at hlands

theorem landMessage_eq (state : State V) (messages : Table V) (m : Message V) :
    landMessage state messages m = if (state.tombstones m.id).isSome then messages
      else Function.update messages m.id (some (kept (messages m.id) m true)) := by
  unfold landMessage
  split
  · rfl
  · exact update_kept messages m true

/-- **Landing a page's messages**: each that was not removed is held then, and no removed one comes back. -/
theorem lands_landMessages {page : MessagePage V} (h : Holds world state.messages)
    (hpage : ∀ m ∈ page.messages, m.Fits world) :
    Lands world state.messages (landMessages state page) ∧
      (∀ m ∈ page.messages, state.tombstones m.id = none → (landMessages state page m.id).isSome) ∧
      ∀ id, (state.tombstones id).isSome → landMessages state page id = state.messages id := by
  unfold landMessages
  generalize page.messages = l at hpage
  induction l using List.reverseRecOn with
  | nil => exact ⟨.refl h, fun _ hm => (by cases hm), fun _ _ => rfl⟩
  | append_singleton front m ih =>
    obtain ⟨hlands, hover, hgone⟩ := ih fun m' hm' => hpage m' (List.mem_append_left _ hm')
    have hm := hpage m (List.mem_append_right _ List.mem_cons_self)
    rw [List.foldl_append, List.foldl_cons, List.foldl_nil, landMessage_eq]
    cases htombstone : (state.tombstones m.id).isSome with
    | true =>
      simp only [if_true]
      refine ⟨hlands, fun m' hm' hnone => ?_, hgone⟩
      obtain hm' | hm' := List.mem_append.mp hm'
      · exact hover m' hm' hnone
      · obtain rfl := List.mem_singleton.mp hm'
        simp [hnone] at htombstone
    | false =>
      simp only [Bool.false_eq_true, if_false]
      have hlast := lands_kept hlands.holds hm true
      refine ⟨hlands.trans hlast, fun m' hm' hnone => ?_, fun id hid => ?_⟩
      · obtain hm' | hm' := List.mem_append.mp hm'
        · exact hlast.isSome _ (hover m' hm' hnone)
        · obtain rfl := List.mem_singleton.mp hm'
          rw [Function.update_self]
          rfl
      · have hne : id ≠ m.id := fun heq => by rw [heq, htombstone] at hid; cases hid
        rw [Function.update_of_ne hne]
        exact hgone id hid

end Tables

/-! ## 4. Windows -/

section Windows

/-- A timeline of a conversation: ids in order, each with its message, none of them removed. -/
structure Window (world : World) (c : Conversation) (messages : Table V) (tombstones : Int → Option Int)
    (t : Timeline) : Prop where
  sorted : Sorted world messages t.ids
  here : ∀ id ∈ t.ids, (world id).conversation = c ∧ tombstones id = none
  arrived : ∀ id ∈ t.arrived.getD [], (world id).conversation = c

variable {c : Conversation} {messages messages' : Table V} {tombstones : Int → Option Int} {t t' : Timeline}

theorem window_empty (world : World) (c : Conversation) (messages : Table V) (tombstones : Int → Option Int) :
    Window world c messages tombstones emptyTimeline :=
  ⟨⟨.nil, fun _ h => (by cases h)⟩, fun _ h => (by cases h), fun _ h => (by cases h)⟩

/-- Only the ids and the arrivals count. -/
theorem Window.keep (h : Window world c messages tombstones t) (hids : t'.ids.Sublist t.ids)
    (harrived : t'.arrived = t.arrived ∨ t'.arrived.getD [] = []) : Window world c messages tombstones t' := by
  refine ⟨h.sorted.sublist hids, fun id hid => h.here id (hids.subset hid), fun id hid => ?_⟩
  obtain heq | hnil := harrived
  · exact h.arrived id (heq ▸ hid)
  · rw [hnil] at hid
    cases hid

theorem Window.same (h : Window world c messages tombstones t) (hids : t'.ids = t.ids)
    (harrived : t'.arrived = t.arrived ∨ t'.arrived.getD [] = []) : Window world c messages tombstones t' :=
  h.keep (hids ▸ List.Sublist.refl _) harrived

theorem Window.lands (h : Window world c messages tombstones t) (hlands : Lands world messages messages') :
    Window world c messages' tombstones t :=
  ⟨⟨h.sorted.order, fun id hid => hlands.isSome id (h.sorted.held id hid)⟩, h.here, h.arrived⟩

variable {state : State V}

theorem insertId_spec {ids : List Int} (state : State V) (id : Int) (hmessages : Holds world messages)
    (hids : Sorted world messages ids) :
    Sorted world messages (insertId state messages ids id) ∧
      ∀ x, x ∈ insertId state messages ids id ↔
        x ∈ ids ∨ x = id ∧ (messages id).isSome ∧ state.tombstones id = none := by
  unfold insertId
  cases hmessage : messages id with
  | none => exact ⟨hids, fun x => by simp⟩
  | some m =>
    obtain ⟨hid, hfits⟩ := hmessages id m hmessage
    cases htombstone : state.tombstones id with
    | some at_ => exact ⟨hids, fun x => by simp⟩
    | none =>
      refine ⟨sorted_insertOrdered hids hmessages hfits (by rw [hid, hmessage]; rfl), fun x => ?_⟩
      simp only [Option.isNone_none, if_true, mem_insertOrdered, hid, Option.isSome_some, and_true]
      exact or_comm

/-- **`insertAll` adds the messages that are held and were not removed, in their places.** -/
theorem insertAll_spec {into : List Int} (state : State V) (hmessages : Holds world messages)
    (hinto : Sorted world messages into) (add : List Int) :
    Sorted world messages (insertAll state messages into add) ∧
      ∀ x, x ∈ insertAll state messages into add ↔
        x ∈ into ∨ x ∈ add ∧ (messages x).isSome ∧ state.tombstones x = none := by
  unfold insertAll
  induction add generalizing into with
  | nil => exact ⟨hinto, fun x => by simp⟩
  | cons id add ih =>
    obtain ⟨hone, hmem⟩ := insertId_spec state id hmessages hinto
    obtain ⟨hall, hmemAll⟩ := ih hone
    refine ⟨hall, fun x => ?_⟩
    rw [List.foldl_cons, hmemAll x, hmem x, List.mem_cons]
    constructor
    · rintro ((h | ⟨rfl, h⟩) | ⟨hx, h⟩)
      · exact .inl h
      · exact .inr ⟨.inl rfl, h⟩
      · exact .inr ⟨.inr hx, h⟩
    · rintro (h | ⟨rfl | hx, h⟩)
      · exact .inl (.inl h)
      · exact .inl (.inr ⟨rfl, h⟩)
      · exact .inr ⟨hx, h⟩

theorem withoutMissing_sublist (ids onPage : List Int) (messages : Table V) :
    (withoutMissing ids onPage messages).Sublist ids := by
  unfold withoutMissing
  split
  · exact List.filter_sublist
  · exact List.Sublist.refl _

variable {page : MessagePage V}

theorem mem_pageIds {id : Int} : id ∈ pageIds state page ↔
    ∃ m ∈ page.messages, state.tombstones m.id = none ∧ m.id = id := by
  simp only [pageIds, List.mem_map, List.mem_filter, Option.isNone_iff_eq_none, and_assoc]

theorem here_pageIds (hpage : page.Fits world c) {id : Int} (hid : id ∈ pageIds state page) :
    (world id).conversation = c ∧ state.tombstones id = none := by
  obtain ⟨m, hm, hnone, rfl⟩ := mem_pageIds.mp hid
  exact ⟨(hpage.copies m hm).2, hnone⟩

variable [DecidableEq V]

/-- The ids of a page, once its messages have landed. -/
theorem sorted_pageIds (h : Holds world state.messages) (hpage : page.Fits world c) :
    Sorted world (landMessages state page) (pageIds state page) := by
  obtain ⟨-, hover, -⟩ := lands_landMessages h fun m hm => (hpage.copies m hm).1
  refine ⟨?_, fun id hid => ?_⟩
  · exact List.pairwise_map.mpr (hpage.sorted.sublist List.filter_sublist)
  · obtain ⟨m, hm, hnone, rfl⟩ := mem_pageIds.mp hid
    exact hover m hm hnone

/-- **The window a page makes**, in every mode. -/
theorem window_landIds (h : Holds world state.messages) (ht : Window world c state.messages state.tombstones t)
    (hpage : page.Fits world c) (mode : PageMode) :
    Sorted world (landMessages state page) (landIds state t page mode).1 ∧
      ∀ id ∈ (landIds state t page mode).1, (world id).conversation = c ∧ state.tombstones id = none := by
  obtain ⟨hlands, -, -⟩ := lands_landMessages h fun m hm => (hpage.copies m hm).1
  have hpageIds := sorted_pageIds h hpage
  have hwindow := (ht.lands hlands).sorted
  -- inserting the page's ids into ids of the window
  have hinsert (ids : List Int) (hsub : ids.Sublist t.ids) :
      Sorted world (landMessages state page) (insertAll state (landMessages state page) ids (pageIds state page)) ∧
        ∀ id ∈ insertAll state (landMessages state page) ids (pageIds state page),
          (world id).conversation = c ∧ state.tombstones id = none := by
    obtain ⟨hsorted, hmem⟩ :=
      insertAll_spec state hlands.holds (hwindow.sublist hsub) (pageIds state page)
    refine ⟨hsorted, fun id hid => ?_⟩
    obtain hold | ⟨hnew, -⟩ := (hmem id).mp hid
    · exact ht.here id (hsub.subset hold)
    · exact here_pageIds hpage hnew
  cases mode with
  | replace =>
    simp only [landIds]
    split
    · obtain ⟨hsorted, hmem⟩ := insertAll_spec state hlands.holds hpageIds (t.arrived.getD [])
      refine ⟨hsorted, fun id hid => ?_⟩
      obtain hold | ⟨hnew, -, hnone⟩ := (hmem id).mp hid
      · exact here_pageIds hpage hold
      · exact ⟨ht.arrived id hnew, hnone⟩
    · exact ⟨hpageIds, fun id hid => here_pageIds hpage hid⟩
  | refresh => exact hinsert _ (withoutMissing_sublist _ _ _)
  | older => exact hinsert _ (List.Sublist.refl _)
  | newer => exact hinsert _ (List.Sublist.refl _)
  | resync => exact hinsert _ (List.Sublist.refl _)

end Windows

end Smartfire.Timelines
