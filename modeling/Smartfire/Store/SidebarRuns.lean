/-
  File:      Smartfire/Store/SidebarRuns.lean
  Subject:   Late HTTP replies never undo sync in the sidebar (frontend/src/store/store.ts
             `heldTickets`, `settle`, `apply`).

  Any number of requests are in flight, each with its ticket. Every change ends by forgetting the
  touches that no request in flight is older than: those up to the oldest ticket, the first of the list.
  That list is sorted, since the clock only advances, and so nothing a ticket still held needs is
  forgotten.

  A request's record says what sync or a read here touched since its ticket was opened, and whether a
  resync landed; it bears on no step.

  * `SidebarPage`, `sidebarSystem` -- the store, its tickets and the requests in flight;
  * `SidebarPage.Inv`, `inv_reach` -- what a run keeps;
  * `KeepsSync`, `keepsSync_of_reach` -- the property.
-/
import Mathlib.Data.List.Perm.Basic
import Smartfire.Lib.Runs
import Smartfire.Store.Sidebar

namespace Smartfire

open Lib

/-! ## 1. The page -/

/-- A row of an HTTP reply, as the local event that lands it. -/
inductive ReplyRow where
  | upserted (row : SidebarRow)
  | removed (roomId : Int)
deriving DecidableEq, Repr

def ReplyRow.event : ReplyRow → SidebarEvent
  | upserted row => .rowUpserted row
  | removed roomId => .rowRemoved roomId

/-- A reply that lands rows. -/
inductive SidebarReply where
  | sidebar (sidebar : WholeSidebar)
  | rows (rows : List ReplyRow) (now : String)
  /-- The room is gone; `claimed` is whether its outcome is still this request's. -/
  | unavailable (roomId : Int) (claimed : Bool)

/-- A request in flight. -/
structure RowRequest where
  since : Nat
  /-- The rooms that sync, or a read made here, touched since. -/
  touched : List Int
  /-- Whether a sync resync landed since. -/
  resynced : Bool
deriving DecidableEq, Repr

structure SidebarPage where
  /-- The server answered for another sign-in: nothing lands any more. -/
  accountChanged : Bool
  state : SidebarSlice
  /-- The row tickets of the requests in flight, oldest first. -/
  heldTickets : List Nat
  requests : List RowRequest

inductive SidebarAct where
  | openRowTicket
  /-- The `k`-th request settled. -/
  | closeRowTicket (k : Nat)
  | applyEvents (events : List SidebarEvent) (now : String)
  | markRoomRead (roomId : Int)
  /-- The sync engine's snapshot lands, of the `k`-th request. -/
  | resyncSidebar (k : Nat) (sidebar : WholeSidebar)
  | land (k : Nat) (reply : SidebarReply)
  | markUnreadFrom (k : Nat) (roomId : Int) (count : Nat) (now : String)
  | markAccountChanged

namespace SidebarPage

def empty : SidebarPage := ⟨false, initialSidebar, [], []⟩

variable (lower : String → String) (p : SidebarPage)

/-- `settle(change(state))`. -/
def apply (change : SidebarSlice → SidebarSlice) : SidebarPage :=
  if p.accountChanged then p
  else { p with state := (change p.state).pruneTouches p.heldTickets.head? }

/-- The record of the requests after sync touched the rooms, or a resync landed. -/
def note (roomIds : List Int) (resynced : Bool) : SidebarPage :=
  if p.accountChanged then p
  else
    { p with
      requests := p.requests.map fun q =>
        { q with touched := q.touched ++ roomIds, resynced := q.resynced || resynced } }

def openRowTicket : SidebarPage :=
  let since := p.state.rowTouches.clock
  { p with heldTickets := p.heldTickets ++ [since], requests := p.requests ++ [⟨since, [], false⟩] }

def closeRowTicket (k : Nat) (q : RowRequest) : SidebarPage :=
  { p with heldTickets := p.heldTickets.erase q.since, requests := p.requests.eraseIdx k }.apply id

def applyEvents (events : List SidebarEvent) (now : String) : SidebarPage :=
  let next := p.apply fun s => if events = [] then s else s.applyEvents lower events now .sync
  next.note (events.filterMap (·.room) ++ changedRowIds p.state.rows next.state.rows) false

def markRoomRead (roomId : Int) : SidebarPage :=
  (p.apply fun s => (s.markRoomRead roomId).touchRows [roomId] [] []).note [roomId] false

def resyncSidebar (sidebar : WholeSidebar) (since : Nat) : SidebarPage :=
  (p.apply fun s => s.resyncSidebar lower sidebar since).note [] true

/-- The reply of a request with this ticket lands. -/
def land (since : Nat) : SidebarReply → SidebarPage
  | .sidebar sidebar =>
    if p.state.isStale since then p else p.apply fun s => s.loadSidebar lower sidebar since
  | .rows rows now =>
    let fresh := p.state.untouchedReplyEvents (rows.map (·.event)) since
    p.apply fun s => if fresh = [] then s else s.applyEvents lower fresh now .reply
  | .unavailable roomId claimed =>
    if claimed then p.apply fun s => s.setRoomUnavailable roomId (s.removalIsStale roomId since) else p

def step : SidebarAct → Option SidebarPage
  | .openRowTicket => some p.openRowTicket
  | .closeRowTicket k => p.requests[k]?.map fun q => p.closeRowTicket k q
  | .applyEvents events now => some (p.applyEvents lower events now)
  | .markRoomRead roomId => some (p.markRoomRead roomId)
  | .resyncSidebar k sidebar => p.requests[k]?.map fun q => p.resyncSidebar lower sidebar q.since
  | .land k reply => p.requests[k]?.map fun q => p.land lower q.since reply
  | .markUnreadFrom k roomId count now =>
    p.requests[k]?.map fun q => p.apply fun s => s.markUnreadFrom roomId count now q.since
  | .markAccountChanged => some { p.apply id with accountChanged := true }

end SidebarPage

/-- The page, under any order of steps. -/
def sidebarSystem (lower : String → String) : System SidebarPage SidebarAct where
  start p := p = .empty
  step := SidebarPage.step lower

/-! ## 2. A reply that lands -/

namespace SidebarSlice

variable (lower : String → String) (s : SidebarSlice)

/-- What a reply makes of the store. -/
def landed (since : Nat) : SidebarReply → SidebarSlice
  | .sidebar sidebar => s.loadSidebar lower sidebar since
  | .rows rows now => s.applyEvents lower (s.untouchedReplyEvents (rows.map (·.event)) since) now .reply
  | .unavailable roomId claimed =>
    if claimed then s.setRoomUnavailable roomId (s.removalIsStale roomId since) else s

variable {lower s}

theorem WellFormed.landed (h : s.WellFormed) (since : Nat) (reply : SidebarReply) :
    (s.landed lower since reply).WellFormed := by
  cases reply with
  | sidebar sidebar =>
    show (if s.isStale since = true then s else s.installSidebar lower sidebar since).WellFormed
    split
    · exact h
    · exact wellFormed_installSidebar s sidebar since
  | rows rows now => exact h.applyEvents _ now .reply
  | unavailable roomId claimed =>
    show (if claimed = true then if _ then s else s.removeRow roomId else s).WellFormed
    split
    · split
      · exact h
      · exact h.removeRow roomId
    · exact h

theorem landed_advances (s : SidebarSlice) (since : Nat) (reply : SidebarReply) :
    s.rowTouches.Advances (s.landed lower since reply).rowTouches := by
  cases reply with
  | sidebar sidebar =>
    show s.rowTouches.Advances (if s.isStale since = true then s else _).rowTouches
    split
    · exact .refl _
    · exact .refl _
  | rows rows now => exact applyEvents_advances s _ now .reply
  | unavailable roomId claimed =>
    show s.rowTouches.Advances (if claimed = true then if _ then s else s.removeRow roomId else s).rowTouches
    split
    · split
      · exact .refl _
      · exact removeRow_advances s roomId
    · exact .refl _

/-- **A reply older than a resync, or than what touched a room, leaves the room's row.** -/
theorem lookup_landed (h : s.WellFormed) {since : Nat} {roomId : Int}
    (hlate : s.isStale since = true ∨ s.touchedSince roomId since = true) (reply : SidebarReply) :
    (s.landed lower since reply).rows.lookup roomId = s.rows.lookup roomId := by
  cases reply with
  | sidebar sidebar =>
    show (if s.isStale since = true then s else s.installSidebar lower sidebar since).rows.lookup roomId = _
    split
    · rfl
    · next hstale => exact lookup_installedRows h.keyed (hlate.resolve_left hstale)
  | rows rows now =>
    refine reduceEvents_lookup fun event he => ?_
    unfold untouchedReplyEvents at he
    split at he
    · cases he
    · next hstale =>
      have ht := hlate.resolve_left hstale
      obtain ⟨hm, huntouched⟩ := List.mem_filter.mp he
      obtain ⟨row, _, rfl⟩ := List.mem_map.mp hm
      cases row with
      | upserted row =>
        refine ⟨row.roomId, rfl, fun heq => ?_, .inl ⟨row, rfl⟩⟩
        simp [ReplyRow.event, ← heq, ht] at huntouched
      | removed room =>
        refine ⟨room, rfl, fun heq => ?_, .inr rfl⟩
        simp [ReplyRow.event, ← heq, ht] at huntouched
  | unavailable room claimed =>
    show (if claimed = true then if s.removalIsStale room since = true then s else s.removeRow room
      else s).rows.lookup roomId = _
    split
    · split
      · rfl
      · next hkeep =>
        by_cases hroom : roomId = room
        · subst hroom
          -- the reply is late, so there is no row to remove
          have hnone : s.rows.lookup roomId = none := by
            cases hl : s.rows.lookup roomId with
            | none => rfl
            | some row =>
              refine absurd ?_ hkeep
              rw [removalIsStale, hl, Option.isSome_some, Bool.true_and]
              exact (Bool.or_eq_true _ _).mpr hlate
          rw [removeRow_lookup_of_none hnone, hnone]
        · exact removeRow_lookup_of_ne hroom
    · rfl

end SidebarSlice

namespace SidebarPage

/-- A reply changes the store as it does, or is dropped where it would change nothing. -/
theorem land_cases (lower : String → String) (p : SidebarPage) (since : Nat) (reply : SidebarReply) :
    (p.land lower since reply = p ∧ p.state.landed lower since reply = p.state) ∨
      ∃ change, change p.state = p.state.landed lower since reply ∧
        p.land lower since reply = p.apply change := by
  cases reply with
  | sidebar sidebar =>
    by_cases hstale : p.state.isStale since = true
    · exact .inl ⟨if_pos hstale, if_pos hstale⟩
    · exact .inr ⟨fun s => s.loadSidebar lower sidebar since, rfl, if_neg hstale⟩
  | rows rows now =>
    let fresh := p.state.untouchedReplyEvents (rows.map (·.event)) since
    refine .inr ⟨fun s => if fresh = [] then s else s.applyEvents lower fresh now .reply, ?_, rfl⟩
    show (if fresh = [] then p.state else p.state.applyEvents lower fresh now .reply) =
      p.state.applyEvents lower fresh now .reply
    by_cases hnil : fresh = []
    · rw [if_pos hnil, hnil]
      rfl
    · exact if_neg hnil
  | unavailable roomId claimed =>
    cases claimed with
    | false => exact .inl ⟨rfl, rfl⟩
    | true => exact .inr ⟨fun s => s.setRoomUnavailable roomId (s.removalIsStale roomId since), rfl, rfl⟩

/-- The rows after a reply. -/
theorem land_rows (lower : String → String) (p : SidebarPage) (since : Nat) (reply : SidebarReply) :
    (p.land lower since reply).state.rows = p.state.rows ∨
      (p.land lower since reply).state.rows = (p.state.landed lower since reply).rows := by
  obtain ⟨heq, _⟩ | ⟨change, hchange, heq⟩ := land_cases lower p since reply
  · exact .inl (congrArg (·.state.rows) heq)
  · rw [heq]
    unfold SidebarPage.apply
    split
    · exact .inl rfl
    · exact .inr (congrArg (·.rows) hchange)

/-! ## 3. What a run keeps -/

structure Inv (p : SidebarPage) : Prop where
  wellFormed : p.state.WellFormed
  tickets : p.heldTickets.Perm (p.requests.map (·.since))
  sorted : p.heldTickets.Pairwise (· ≤ ·)
  past : ∀ since ∈ p.heldTickets, since ≤ p.state.rowTouches.clock
  epoch : p.state.rowTouches.resyncEpoch ≤ p.state.rowTouches.clock
  touched : p.accountChanged = false →
    ∀ q ∈ p.requests, ∀ roomId ∈ q.touched, p.state.touchedSince roomId q.since = true
  resynced : ∀ q ∈ p.requests, q.resynced = true → p.state.isStale q.since = true

variable {lower : String → String} {p : SidebarPage}

/-- The first of the tickets is the oldest. -/
theorem exists_oldest {tickets : List Nat} (hs : tickets.Pairwise (· ≤ ·)) {since : Nat}
    (h : since ∈ tickets) : ∃ oldest, tickets.head? = some oldest ∧ oldest ≤ since := by
  cases tickets with
  | nil => cases h
  | cons oldest tickets =>
    refine ⟨oldest, rfl, ?_⟩
    rcases List.mem_cons.mp h with rfl | h
    · exact Nat.le_refl _
    · exact (List.pairwise_cons.mp hs).1 since h

theorem Inv.mem_heldTickets (hi : p.Inv) {q : RowRequest} (hq : q ∈ p.requests) :
    q.since ∈ p.heldTickets := hi.tickets.mem_iff.mpr (List.mem_map_of_mem hq)

/-- **Pruning changes no answer for a ticket still held**, whatever the state. -/
theorem Inv.since_prune (hi : p.Inv) {q : RowRequest} (hq : q ∈ p.requests) (touches : Touches) (id : Int) :
    (touches.pruned p.heldTickets.head?).since id q.since = touches.since id q.since := by
  obtain ⟨oldest, hold, hle⟩ := exists_oldest hi.sorted (hi.mem_heldTickets hq)
  exact Touches.since_pruned hold hle

theorem inv_empty : empty.Inv :=
  ⟨SidebarSlice.wellFormed_initial, .refl _, .nil, nofun, Nat.le_refl _, fun _ => nofun, nofun⟩

/-- A change of the store: the requests stay, and their records hold of the state it makes. -/
theorem Inv.change (hi : p.Inv) {s : SidebarSlice} {requests : List RowRequest} (hw : s.WellFormed)
    (ha : p.state.rowTouches.Advances s.rowTouches)
    (hsince : requests.map (·.since) = p.requests.map (·.since))
    (htouched : ∀ q ∈ requests, ∀ roomId ∈ q.touched, s.touchedSince roomId q.since = true)
    (hresynced : ∀ q ∈ requests, q.resynced = true → s.isStale q.since = true) :
    { p with state := s.pruneTouches p.heldTickets.head?, requests }.Inv := by
  have hheld : ∀ q ∈ requests, q.since ∈ p.heldTickets := fun q hq => by
    rw [hi.tickets.mem_iff, ← hsince]
    exact List.mem_map_of_mem hq
  refine ⟨⟨hw.keyed, hw.order⟩, ?_, hi.sorted, fun since hm => ?_, (ha.epoch hi.epoch).2,
    fun _ q hq roomId hr => ?_, hresynced⟩
  · show p.heldTickets.Perm (requests.map (·.since))
    rw [hsince]
    exact hi.tickets
  · exact Nat.le_trans (hi.past since hm) ha.clock
  · obtain ⟨oldest, hold, hle⟩ := exists_oldest hi.sorted (hheld q hq)
    exact (Touches.since_pruned hold hle).trans (htouched q hq roomId hr)

/-- What the records say still holds after a change. -/
theorem Inv.kept (hi : p.Inv) (hacc : p.accountChanged = false) {s : SidebarSlice}
    (ha : p.state.rowTouches.Advances s.rowTouches) {q : RowRequest} (hq : q ∈ p.requests) :
    (∀ roomId ∈ q.touched, s.touchedSince roomId q.since = true) ∧
      (q.resynced = true → s.isStale q.since = true) := by
  refine ⟨fun roomId hr => ?_, fun hres => ?_⟩
  · exact ha.touched roomId q.since (hi.past _ (hi.mem_heldTickets hq)) (hi.touched hacc q hq roomId hr)
  · exact decide_eq_true (Nat.lt_of_lt_of_le (of_decide_eq_true (hi.resynced q hq hres)) (ha.epoch hi.epoch).1)

/-- A change that records nothing. -/
theorem Inv.apply (hi : p.Inv) {change : SidebarSlice → SidebarSlice} (hw : (change p.state).WellFormed)
    (ha : p.state.rowTouches.Advances (change p.state).rowTouches) : (p.apply change).Inv := by
  unfold SidebarPage.apply
  split
  · exact hi
  · next hacc =>
    have hkept := fun q (hq : q ∈ p.requests) => hi.kept (Bool.not_eq_true _ ▸ hacc) ha hq
    exact hi.change hw ha rfl (fun q hq => (hkept q hq).1) fun q hq => (hkept q hq).2

/-- A change that touches rooms, or is a resync. -/
theorem Inv.noted (hi : p.Inv) {change : SidebarSlice → SidebarSlice} {roomIds : List Int}
    {resynced : Bool} (hw : (change p.state).WellFormed)
    (ha : p.state.rowTouches.Advances (change p.state).rowTouches)
    (ht : ∀ roomId ∈ roomIds, ∀ since ≤ p.state.rowTouches.clock,
      (change p.state).touchedSince roomId since = true)
    (hr : resynced = true → p.state.rowTouches.clock < (change p.state).rowTouches.resyncEpoch) :
    ((p.apply change).note roomIds resynced).Inv := by
  unfold SidebarPage.apply
  split
  · next hacc =>
    unfold note
    rw [if_pos hacc]
    exact hi
  · next hacc =>
    unfold note
    rw [if_neg hacc]
    have hkept := fun q (hq : q ∈ p.requests) => hi.kept (Bool.not_eq_true _ ▸ hacc) ha hq
    refine hi.change hw ha (by rw [List.map_map]; rfl) (fun q' hq' roomId hm => ?_) fun q' hq' hres => ?_
    · obtain ⟨q, hq, rfl⟩ := List.mem_map.mp hq'
      rcases List.mem_append.mp hm with hm | hm
      · exact (hkept q hq).1 roomId hm
      · exact ht roomId hm q.since (hi.past _ (hi.mem_heldTickets (q := q) hq))
    · obtain ⟨q, hq, rfl⟩ := List.mem_map.mp hq'
      rcases (Bool.or_eq_true _ _).mp hres with hres | hres
      · exact (hkept q hq).2 hres
      · exact decide_eq_true (Nat.lt_of_le_of_lt (hi.past _ (hi.mem_heldTickets (q := q) hq)) (hr hres))

section Step

variable {p' : SidebarPage}

theorem Inv.openRowTicket (hi : p.Inv) : p.openRowTicket.Inv := by
  refine ⟨hi.wellFormed, ?_, ?_, fun since hm => ?_, hi.epoch, fun hacc q hq => ?_, fun q hq => ?_⟩
  · show (p.heldTickets ++ _).Perm ((p.requests ++ _).map (·.since))
    rw [List.map_append]
    exact hi.tickets.append (.refl _)
  · refine List.pairwise_append.mpr ⟨hi.sorted, List.pairwise_singleton _ _, fun since hm now hnow => ?_⟩
    rw [List.mem_singleton.mp hnow]
    exact hi.past since hm
  · rcases List.mem_append.mp hm with hm | hm
    · exact hi.past since hm
    · exact Nat.le_of_eq (List.mem_singleton.mp hm)
  · rcases List.mem_append.mp hq with hq | hq
    · exact hi.touched hacc q hq
    · rw [List.mem_singleton.mp hq]
      exact fun _ => nofun
  · rcases List.mem_append.mp hq with hq | hq
    · exact hi.resynced q hq
    · rw [List.mem_singleton.mp hq]
      exact nofun

theorem Inv.closeRowTicket (hi : p.Inv) {k : Nat} {q : RowRequest} (hk : p.requests[k]? = some q) :
    (p.closeRowTicket k q).Inv := by
  have hperm : (p.heldTickets.erase q.since).Perm ((p.requests.eraseIdx k).map (·.since)) := by
    obtain ⟨hlt, rfl⟩ := List.getElem?_eq_some_iff.mp hk
    have hout := ((List.getElem_cons_eraseIdx_perm hlt).map (·.since)).symm
    have := (hi.tickets.trans hout).erase p.requests[k].since
    rwa [List.map_cons, List.erase_cons_head] at this
  have hsub : ∀ q' ∈ p.requests.eraseIdx k, q' ∈ p.requests := fun _ h => List.mem_of_mem_eraseIdx h
  have hrest : { p with
      heldTickets := p.heldTickets.erase q.since
      requests := p.requests.eraseIdx k }.Inv :=
    ⟨hi.wellFormed, hperm, hi.sorted.sublist List.erase_sublist,
      fun since hm => hi.past since (List.mem_of_mem_erase hm), hi.epoch,
      fun hacc q' hq' => hi.touched hacc q' (hsub q' hq'), fun q' hq' => hi.resynced q' (hsub q' hq')⟩
  exact hrest.apply hi.wellFormed (.refl _)

theorem Inv.applyEvents (hi : p.Inv) (events : List SidebarEvent) (now : String) :
    (p.applyEvents lower events now).Inv := by
  unfold SidebarPage.applyEvents
  by_cases hacc : p.accountChanged = true
  · simp only [SidebarPage.apply, note, hacc, if_true]
    exact hi
  have hrows : (p.apply fun s => if events = [] then s else s.applyEvents lower events now .sync).state.rows =
      (if events = [] then p.state else p.state.applyEvents lower events now .sync).rows := by
    unfold SidebarPage.apply
    rw [if_neg hacc]
    rfl
  have hw : (if events = [] then p.state else p.state.applyEvents lower events now .sync).WellFormed := by
    split
    · exact hi.wellFormed
    · exact hi.wellFormed.applyEvents events now .sync
  have ha : p.state.rowTouches.Advances
      (if events = [] then p.state else p.state.applyEvents lower events now .sync).rowTouches := by
    split
    · exact .refl _
    · exact SidebarSlice.applyEvents_advances p.state events now .sync
  show ((p.apply _).note (_ ++ changedRowIds p.state.rows (p.apply _).state.rows) false).Inv
  rw [hrows]
  refine @Inv.noted p hi _ _ false hw ha (fun roomId hm since hle => ?_) nofun
  by_cases hnil : events = []
  · subst hnil
    simp [changedRowIds] at hm
  · rw [if_neg hnil] at hm ⊢
    have hnext := @SidebarSlice.reduceEvents_advances lower p.state events now
    refine RowTouches.touch_since (List.mem_append.mpr (List.mem_append.mp hm).symm) ?_
    exact Nat.le_trans hle hnext.clock

theorem Inv.markRoomRead (hi : p.Inv) (roomId : Int) : (p.markRoomRead roomId).Inv := by
  have hw : (p.state.markRoomRead roomId).WellFormed := hi.wellFormed.updateRow SidebarRow.markRead_roomId
  have hsame : (p.state.markRoomRead roomId).rowTouches = p.state.rowTouches :=
    SidebarSlice.updateRow_rowTouches roomId _
  refine hi.noted ⟨hw.keyed, hw.order⟩ ?_ (fun id hm since hle => ?_) nofun
  · show p.state.rowTouches.Advances ((p.state.markRoomRead roomId).rowTouches.touch [roomId] [] [])
    rw [hsame]
    exact .touch _ _ _ _
  · show ((p.state.markRoomRead roomId).rowTouches.touch [roomId] [] []).at_.since id since = true
    rw [hsame]
    exact RowTouches.touch_since hm hle

theorem Inv.resyncSidebar (hi : p.Inv) (sidebar : WholeSidebar) (since : Nat) :
    (p.resyncSidebar lower sidebar since).Inv := by
  have hw := @SidebarSlice.wellFormed_installSidebar lower p.state sidebar since
  exact hi.noted ⟨hw.keyed, hw.order⟩ (.markResynced _) nofun fun _ => Nat.lt_succ_self _

theorem Inv.land (hi : p.Inv) (since : Nat) (reply : SidebarReply) : (p.land lower since reply).Inv := by
  obtain ⟨heq, _⟩ | ⟨change, hchange, heq⟩ := land_cases lower p since reply
  · rw [heq]
    exact hi
  · rw [heq]
    refine hi.apply ?_ ?_
    · rw [hchange]
      exact hi.wellFormed.landed since reply
    · rw [hchange]
      exact SidebarSlice.landed_advances p.state since reply

theorem Inv.markUnreadFrom (hi : p.Inv) (roomId : Int) (count : Nat) (now : String) (since : Nat) :
    (p.apply fun s => s.markUnreadFrom roomId count now since).Inv := by
  refine hi.apply ?_ ?_
  · unfold SidebarSlice.markUnreadFrom
    split
    · exact hi.wellFormed
    · have hw : { p.state with rowTouches := p.state.rowTouches.claimDivider roomId }.WellFormed :=
        ⟨hi.wellFormed.keyed, hi.wellFormed.order⟩
      dsimp only
      split
      · exact hw
      · exact hw.updateRow fun _ => rfl
  · unfold SidebarSlice.markUnreadFrom
    split
    · exact .refl _
    · dsimp only
      split
      · exact .claimDivider _ roomId
      · rw [SidebarSlice.updateRow_rowTouches]
        exact .claimDivider _ roomId

theorem Inv.step (hi : p.Inv) {a : SidebarAct} (hs : p.step lower a = some p') : p'.Inv := by
  cases a with
  | openRowTicket =>
    cases hs
    exact hi.openRowTicket
  | closeRowTicket k =>
    obtain ⟨q, hk, rfl⟩ := Option.map_eq_some_iff.mp hs
    exact hi.closeRowTicket hk
  | applyEvents events now =>
    cases hs
    exact hi.applyEvents events now
  | markRoomRead roomId =>
    cases hs
    exact hi.markRoomRead roomId
  | resyncSidebar k sidebar =>
    obtain ⟨q, _, rfl⟩ := Option.map_eq_some_iff.mp hs
    exact hi.resyncSidebar sidebar q.since
  | land k reply =>
    obtain ⟨q, _, rfl⟩ := Option.map_eq_some_iff.mp hs
    exact hi.land q.since reply
  | markUnreadFrom k roomId count now =>
    obtain ⟨q, _, rfl⟩ := Option.map_eq_some_iff.mp hs
    exact hi.markUnreadFrom roomId count now q.since
  | markAccountChanged =>
    cases hs
    have hnext : (p.apply id).Inv := hi.apply hi.wellFormed (.refl _)
    exact ⟨hnext.wellFormed, hnext.tickets, hnext.sorted, hnext.past, hnext.epoch, nofun, hnext.resynced⟩

end Step

theorem inv_reach (h : Reach (sidebarSystem lower) p) : p.Inv :=
  h.induct (T := sidebarSystem lower) (I := Inv) (fun p h0 => (show p = .empty from h0) ▸ inv_empty)
    fun _ _ _ _ hi _ hs => hi.step hs

end SidebarPage

/-! ## 4. The property -/

/-- **Late replies never undo sync.** -/
structure KeepsSync (lower : String → String) (p : SidebarPage) : Prop where
  /-- What sync or a read touched since a request's ticket, or a resync covers, its reply leaves. -/
  rows : ∀ q ∈ p.requests, ∀ roomId, q.resynced = true ∨ roomId ∈ q.touched → ∀ reply,
    (p.land lower q.since reply).state.rows.lookup roomId = p.state.rows.lookup roomId
  /-- Pruning changes no answer for a ticket held, in whatever state a change ends. -/
  pruning : ∀ q ∈ p.requests, ∀ (s : SidebarSlice) (id : Int),
    (s.pruneTouches p.heldTickets.head?).touchedSince id q.since = s.touchedSince id q.since ∧
      (s.pruneTouches p.heldTickets.head?).categoryTouchedSince id q.since =
        s.categoryTouchedSince id q.since ∧
      (s.pruneTouches p.heldTickets.head?).readSince id q.since = s.readSince id q.since ∧
      (s.pruneTouches p.heldTickets.head?).dividerMovedSince id q.since = s.dividerMovedSince id q.since
  /-- The order lists the rows, each once: after any landing, and in any other state. -/
  order : p.state.order.Nodup ∧ ∀ id, id ∈ p.state.order ↔ id ∈ p.state.rows

namespace SidebarPage

variable {lower : String → String} {p : SidebarPage}

theorem Inv.keepsSync (hi : p.Inv) : KeepsSync lower p := by
  refine ⟨fun q hq roomId hlate reply => ?_, fun q hq s id => ?_,
    hi.wellFormed.order_nodup, fun id => hi.wellFormed.mem_order⟩
  · by_cases hacc : p.accountChanged = true
    · obtain ⟨heq, _⟩ | ⟨change, _, heq⟩ := land_cases lower p q.since reply
      · rw [heq]
      · rw [heq, SidebarPage.apply, if_pos hacc]
    · have hstore : p.state.isStale q.since = true ∨ p.state.touchedSince roomId q.since = true :=
        hlate.imp (hi.resynced q hq) (hi.touched (Bool.not_eq_true _ ▸ hacc) q hq roomId)
      rcases land_rows lower p q.since reply with hrows | hrows
      · rw [hrows]
      · rw [hrows]
        exact SidebarSlice.lookup_landed hi.wellFormed hstore reply
  · exact ⟨hi.since_prune hq _ id, hi.since_prune hq _ id, hi.since_prune hq _ id, hi.since_prune hq _ id⟩

/-- **Late HTTP replies never undo sync in the sidebar**, in every run. -/
theorem keepsSync_of_reach (h : Reach (sidebarSystem lower) p) : KeepsSync lower p := (inv_reach h).keepsSync

/-- A row of room `id`. -/
def testRow (id : Int) (revision : Int) : SidebarRow :=
  ⟨revision, "", id, none, toString id, .everything, none, none, 0, 0, 0, 0, false⟩

/-- Room 7 joins by sync and room 5 is read while a sidebar read before both is on its way; it lands
    without 7, and with 5 unread. -/
def lateSidebarRun : List SidebarAct :=
  [.applyEvents [.rowUpserted (testRow 5 1), .roomUnread 5 (some 1) false false] "now", .openRowTicket,
    .applyEvents [.rowUpserted (testRow 7 1)] "now", .markRoomRead 5,
    .land 0 (.sidebar ⟨[{ testRow 5 1 with unreadCount := 1 }, testRow 9 1], by decide, [], none, ⟨[], []⟩⟩)]

theorem keepsSync_of_reach_sample : ∃ p, Reach (sidebarSystem id) p ∧
    p.requests = [⟨1, [7, 7, 5], false⟩] ∧ p.state.order = [5, 7, 9] ∧
      (p.state.rows.lookup 5).map (·.unreadCount) = some 0 ∧ KeepsSync id p := by
  obtain ⟨p, hr, hp⟩ := exists_reachWhen_of_replay (T := sidebarSystem id) (G := fun _ _ => True)
    (s := SidebarPage.empty) (l := lateSidebarRun)
    (p := fun p => p.requests = [⟨1, [7, 7, 5], false⟩] ∧ p.state.order = [5, 7, 9] ∧
      (p.state.rows.lookup 5).map (·.unreadCount) = some 0)
    rfl (by decide +kernel)
  obtain ⟨hq, ho, hrow⟩ := of_decide_eq_true hp
  exact ⟨p, hr, hq, ho, hrow, keepsSync_of_reach hr⟩

end SidebarPage

end Smartfire
