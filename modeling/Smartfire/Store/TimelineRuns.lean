/-
  File:      Smartfire/Store/TimelineRuns.lean
  Subject:   What holds of the loaded windows in every run.

  The store may be asked for anything in any order, with pages and copies that fit a world.

  * `Inv` -- the invariant, and one lemma for each change;
  * `windows_of_reach` -- **every window is in the server's order, each id once, each with its message, and no
    removed message is in it**.
-/
import Smartfire.Lib.Runs
import Smartfire.Store.Windows

namespace Smartfire.Timelines

variable {V : Type} {world : World}

/-! ## 1. The store -/

section Store

/-- The window of a conversation, if there is one. -/
def windowAt (s : State V) : Conversation → Option Timeline
  | .room roomId => s.timelines roomId
  | .thread threadId => s.threadTimelines threadId

def putWindow (s : State V) (c : Conversation) (t : Timeline) : State V :=
  match c with
  | .room roomId => withTimeline s roomId t
  | .thread threadId => withThreadTimeline s threadId t

/-- **What holds of the store**, whatever it was asked for. -/
structure Inv (world : World) (s : State V) : Prop where
  holds : Holds world s.messages
  windows : ∀ c t, windowAt s c = some t → Window world c s.messages s.tombstones t

variable {s s' : State V} {c c' : Conversation} {t : Timeline} {id : Int} {m : Message V}

theorem windowAt_putWindow : windowAt (putWindow s c t) c' = if c' = c then some t else windowAt s c' := by
  cases c <;> cases c' <;>
    simp [windowAt, putWindow, withTimeline, withThreadTimeline, Function.update_apply]

@[simp] theorem messages_putWindow : (putWindow s c t).messages = s.messages := by cases c <;> rfl
@[simp] theorem tombstones_putWindow : (putWindow s c t).tombstones = s.tombstones := by cases c <;> rfl

theorem windowAt_congr (hrooms : s'.timelines = s.timelines) (hthreads : s'.threadTimelines = s.threadTimelines) :
    windowAt s' = windowAt s := by
  funext c
  cases c
  · exact congrFun hrooms _
  · exact congrFun hthreads _

theorem inv_initial : Inv world (initialState : State V) :=
  ⟨fun _ _ h => (by cases h), fun c _ h => by cases c <;> cases h⟩

/-- The window of a conversation, or the empty one. -/
theorem Inv.window (h : Inv world s) (c : Conversation) :
    Window world c s.messages s.tombstones ((windowAt s c).getD emptyTimeline) := by
  cases ht : windowAt s c with
  | none => exact window_empty world c s.messages s.tombstones
  | some t => exact h.windows c t ht

/-- **A window is written.** -/
theorem Inv.put (h : Inv world s) (ht : Window world c s.messages s.tombstones t) :
    Inv world (putWindow s c t) := by
  refine ⟨messages_putWindow (s := s) ▸ h.holds, fun c' t' ht' => ?_⟩
  rw [messages_putWindow, tombstones_putWindow]
  rw [windowAt_putWindow] at ht'
  split at ht'
  · next heq => exact heq ▸ Option.some.inj ht' ▸ ht
  · exact h.windows c' t' ht'

/-- **Copies land**, and tombstones go. -/
theorem Inv.lands (h : Inv world s) (hlands : Lands world s.messages s'.messages)
    (htombstones : ∀ id, s.tombstones id = none → s'.tombstones id = none) (hwindows : windowAt s' = windowAt s) :
    Inv world s' := by
  refine ⟨hlands.holds, fun c t ht => ?_⟩
  have hold := (h.windows c t (hwindows ▸ ht)).lands hlands
  exact ⟨hold.sorted, fun id hid => ⟨(hold.here id hid).1, htombstones id (hold.here id hid).2⟩, hold.arrived⟩

/-- A message goes, with its ids: those of the messages that stay are the windows' ids. -/
theorem Inv.drops (h : Inv world s) (hmessages : ∀ id, s'.messages id = s.messages id ∨ s'.messages id = none)
    (htombstones : ∀ id, s'.messages id = s.messages id → s.messages id ≠ none → s.tombstones id = none →
      s'.tombstones id = none)
    (hwindows : ∀ c t, windowAt s' c = some t → ∃ t₀, windowAt s c = some t₀ ∧ t.ids.Sublist t₀.ids ∧
      t.arrived = t₀.arrived ∧ ∀ id ∈ t.ids, s'.messages id = s.messages id) : Inv world s' := by
  refine ⟨fun id m hm => ?_, fun c t ht => ?_⟩
  · obtain heq | hnone := hmessages id
    · exact h.holds id m (heq ▸ hm)
    · rw [hnone] at hm
      cases hm
  · obtain ⟨t₀, ht₀, hids, harrived, hstay⟩ := hwindows c t ht
    have hold := (h.windows c t₀ ht₀).keep hids (.inl harrived)
    refine ⟨⟨hold.sorted.order, fun id hid => ?_⟩, fun id hid => ⟨(hold.here id hid).1, ?_⟩, hold.arrived⟩
    · rw [hstay id hid]
      exact hold.sorted.held id hid
    · exact htombstones id (hstay id hid) (Option.isSome_iff_ne_none.mp (hold.sorted.held id hid)) (hold.here id hid).2

end Store

/-! ## 2. Pages -/

section Pages

variable {s : State V} {c : Conversation} {t : Timeline} {page : MessagePage V} {mode : PageMode}

/-- Only the messages on their way count. -/
structure SamePlace (s s' : State V) : Prop where
  messages : s'.messages = s.messages
  tombstones : s'.tombstones = s.tombstones
  windows : windowAt s' = windowAt s

theorem samePlace_removePending (s : State V) (clientMessageId : String) :
    SamePlace s (removePending s clientMessageId) := by
  unfold removePending
  split
  · exact ⟨rfl, rfl, rfl⟩
  · dsimp only
    split <;> exact ⟨rfl, rfl, windowAt_congr rfl rfl⟩

theorem samePlace_addPending (s : State V) (pending : PendingMessage) : SamePlace s (addPending s pending) := by
  unfold addPending
  dsimp only
  split <;> exact ⟨rfl, rfl, windowAt_congr rfl rfl⟩

/-- What a page's copies make of the messages on their way. -/
theorem samePlace_reconciled (s : State V) (copies : List (Message V)) :
    SamePlace s (copies.foldl (fun s message => removePending s message.clientMessageId) s) := by
  induction copies generalizing s with
  | nil => exact ⟨rfl, rfl, rfl⟩
  | cons m copies ih =>
    have hone := samePlace_removePending s m.clientMessageId
    have hmore := ih (removePending s m.clientMessageId)
    exact ⟨hmore.messages.trans hone.messages, hmore.tombstones.trans hone.tombstones,
      hmore.windows.trans hone.windows⟩

theorem Inv.same {s' : State V} (h : Inv world s) (hsame : SamePlace s s') : Inv world s' :=
  h.lands (by rw [hsame.messages]; exact .refl h.holds) (fun id hid => by rw [hsame.tombstones]; exact hid)
    hsame.windows

theorem fits_withoutRemovedIndicators (hpage : page.Fits world c) :
    (withoutRemovedIndicators s page).Fits world c := by
  have hcopy (m : Message V) : ∃ thread, (if m.thread.any fun thread => s.removedThreads thread.threadId then
      { m with thread := none } else m) = { m with thread := thread } := by
    split
    · exact ⟨none, rfl⟩
    · exact ⟨m.thread, rfl⟩
  refine ⟨fun m hm => ?_, ?_⟩
  · obtain ⟨m₀, hm₀, rfl⟩ := List.mem_map.mp hm
    obtain ⟨thread, heq⟩ := hcopy m₀
    rw [heq]
    obtain ⟨hfits, hhere⟩ := hpage.copies m₀ hm₀
    exact ⟨⟨hfits.place, hfits.steps⟩, hhere⟩
  · refine List.pairwise_map.mpr (hpage.sorted.imp fun {a b} hlt => ?_)
    obtain ⟨thread, heq⟩ := hcopy a
    obtain ⟨thread', heq'⟩ := hcopy b
    rw [heq, heq']
    exact hlt

variable [DecidableEq V]

theorem messages_landWindow : (landWindow s t page mode).1.messages = landMessages s page := rfl

theorem tombstones_landWindow : (landWindow s t page mode).1.tombstones = s.tombstones :=
  (samePlace_reconciled s page.messages).tombstones

theorem windowAt_landWindow : windowAt (landWindow s t page mode).1 = windowAt s :=
  (windowAt_congr rfl rfl).trans (samePlace_reconciled s page.messages).windows

/-- What landing a page leaves: a store and the conversation's window. -/
structure Page (world : World) (c : Conversation) (landed : State V × Timeline) : Prop where
  inv : Inv world landed.1
  window : Window world c landed.1.messages landed.1.tombstones landed.2

theorem page_landWindow (h : Inv world s) (ht : Window world c s.messages s.tombstones t)
    (hpage : page.Fits world c) (mode : PageMode) : Page world c (landWindow s t page mode) := by
  obtain ⟨hlands, -, -⟩ := lands_landMessages h.holds fun m hm => (hpage.copies m hm).1
  obtain ⟨hsorted, hhere⟩ := window_landIds h.holds ht hpage mode
  have htombstones := @tombstones_landWindow _ s t page mode _
  refine ⟨h.lands hlands (fun id hid => htombstones ▸ hid) windowAt_landWindow, ?_⟩
  rw [messages_landWindow, htombstones]
  refine ⟨hsorted, hhere, fun id hid => ?_⟩
  have harrived : (landWindow s t page mode).2.arrived =
    if mode = .replace ∨ mode = .refresh then none else t.arrived := rfl
  rw [harrived] at hid
  split at hid
  · cases hid
  · exact ht.arrived id hid

/-- How a page lands: a resync's page lands as a fresh window or over the window's end, or is left out where
    it does not reach the window. -/
def landsIn (state : State V) (timeline : Timeline) (page : MessagePage V) : PageMode → Option PageMode
  | .resync =>
    match heldNewest timeline, page.messages.head? with
    | some newest, some oldest =>
      if timeline.status ≠ .ready then some .replace
      else if timeline.after.isSome then none
      else if (state.messages newest).any fun held =>
          page.before.isNone || decide (compareMessages oldest held ≤ 0) then some .refresh
      else none
    | _, _ => some .replace
  | mode => some mode

theorem landPage_eq (s : State V) (t : Timeline) (page : MessagePage V) (mode : PageMode) :
    (∃ mode', landsIn s t page mode = some mode' ∧ landPage s t page mode = landWindow s t page mode') ∨
    landsIn s t page mode = none ∧ (landPage s t page mode).1 = s ∧
      (landPage s t page mode).2.ids.Sublist t.ids ∧
      ((landPage s t page mode).2.arrived = t.arrived ∨ (landPage s t page mode).2.arrived = none) := by
  by_cases hresync : mode = .resync
  · subst hresync
    simp only [landPage, if_true, landNewest, landsIn]
    cases heldNewest t with
    | none => exact .inl ⟨_, rfl, rfl⟩
    | some newest =>
      cases page.messages.head? with
      | none => exact .inl ⟨_, rfl, rfl⟩
      | some oldest =>
        dsimp only
        split
        · exact .inl ⟨_, rfl, rfl⟩
        split
        · exact .inr ⟨rfl, rfl, .refl _, .inl rfl⟩
        split
        · exact .inl ⟨_, rfl, rfl⟩
        · exact .inr ⟨rfl, rfl, List.filter_sublist, .inr rfl⟩
  · refine .inl ⟨mode, ?_, by rw [landPage, if_neg hresync]⟩
    cases mode <;> first | rfl | exact absurd rfl hresync

/-- **A page lands**, in any mode. -/
theorem page_landPage (h : Inv world s) (ht : Window world c s.messages s.tombstones t)
    (hpage : page.Fits world c) (mode : PageMode) : Page world c (landPage s t page mode) := by
  obtain ⟨mode', -, hlanded⟩ | ⟨-, hstate, hids, harrived⟩ := landPage_eq s t page mode
  · rw [hlanded]
    exact page_landWindow h ht hpage mode'
  · refine ⟨by rw [hstate]; exact h, ?_⟩
    rw [hstate]
    exact ht.keep hids (harrived.imp_right fun hnone => by rw [hnone]; rfl)

theorem inv_applyPage {roomId : Int} (h : Inv world s) (hpage : page.Fits world (.room roomId))
    (request : Option Nat) : Inv world (applyPage s roomId page mode request) := by
  unfold applyPage
  dsimp only
  split
  · exact h
  · have hlanded := page_landPage h (h.window (.room roomId)) (fits_withoutRemovedIndicators (s := s) hpage) mode
    exact hlanded.inv.put hlanded.window

theorem inv_applyThreadPage {threadId : Int} (h : Inv world s) (hpage : page.Fits world (.thread threadId))
    (request : Option Nat) : Inv world (applyThreadPage s threadId page mode request) := by
  unfold applyThreadPage
  dsimp only
  split
  · exact h
  · have hlanded := page_landPage h (h.window (.thread threadId)) hpage mode
    exact hlanded.inv.put hlanded.window

end Pages

/-! ## 3. Windows and messages -/

section Changes

variable {s : State V} {c : Conversation} {t t' : Timeline} {m : Message V} {roomId threadId messageId : Int}

/-- A window's ids stay, and what arrives is kept or dropped. -/
theorem Inv.rewrite (h : Inv world s) (c : Conversation) (hids : t'.ids = ((windowAt s c).getD emptyTimeline).ids)
    (harrived : t'.arrived = ((windowAt s c).getD emptyTimeline).arrived ∨ t'.arrived.getD [] = []) :
    Inv world (putWindow s c t') :=
  h.put ((h.window c).same hids harrived)

theorem ids_beginDirectional (t : Timeline) (direction : PageDirection) :
    (beginDirectional t direction).ids = t.ids ∧ (beginDirectional t direction).arrived = t.arrived := by
  cases direction <;> exact ⟨rfl, rfl⟩

theorem ids_clearOwned {direction : PageDirection} {request : Option Nat}
    (h : clearOwned t direction request = some t') : t'.ids = t.ids ∧ t'.arrived = t.arrived := by
  unfold clearOwned at h
  split at h
  · cases h
  · cases direction <;> cases h <;> exact ⟨rfl, rfl⟩

theorem inv_setPageLoading (h : Inv world s) (direction : PageDirection) :
    Inv world (setPageLoading s roomId direction) := by
  obtain ⟨hids, harrived⟩ := ids_beginDirectional (timelineOf s roomId) direction
  exact h.rewrite (.room roomId) hids (.inl harrived)

theorem inv_setThreadPageLoading (h : Inv world s) (direction : PageDirection) :
    Inv world (setThreadPageLoading s threadId direction) := by
  obtain ⟨hids, harrived⟩ := ids_beginDirectional (threadTimelineOf s threadId) direction
  exact h.rewrite (.thread threadId) hids (.inl harrived)

theorem inv_setPageReplacing (h : Inv world s) : Inv world (setPageReplacing s roomId) :=
  h.rewrite (.room roomId) rfl (.inr rfl)

theorem inv_setThreadPageReplacing (h : Inv world s) : Inv world (setThreadPageReplacing s threadId) :=
  h.rewrite (.thread threadId) rfl (.inr rfl)

theorem inv_setPageFailed (h : Inv world s) (direction : Option PageDirection) (request : Option Nat) :
    Inv world (setPageFailed s roomId direction request) := by
  unfold setPageFailed
  cases direction with
  | none => exact h.rewrite (.room roomId) rfl (.inr rfl)
  | some direction =>
    dsimp only
    split
    · exact h
    · next hcleared =>
      obtain ⟨hids, harrived⟩ := ids_clearOwned hcleared
      exact h.rewrite (.room roomId) hids (.inl harrived)

theorem inv_setThreadPageFailed (h : Inv world s) (direction : Option PageDirection) (request : Option Nat) :
    Inv world (setThreadPageFailed s threadId direction request) := by
  unfold setThreadPageFailed
  cases direction with
  | none => exact h.rewrite (.thread threadId) rfl (.inr rfl)
  | some direction =>
    dsimp only
    split
    · exact h
    · next hcleared =>
      obtain ⟨hids, harrived⟩ := ids_clearOwned hcleared
      exact h.rewrite (.thread threadId) hids (.inl harrived)

/-- A window that is there is written. -/
theorem Inv.overwrite (h : Inv world s) (ht : windowAt s c = some t) (hids : t'.ids.Sublist t.ids)
    (harrived : t'.arrived = t.arrived ∨ t'.arrived.getD [] = []) : Inv world (putWindow s c t') :=
  h.put ((h.windows c t ht).keep hids harrived)

theorem inv_clearThreadPageLoading (h : Inv world s) (direction : Option PageDirection) (request : Option Nat) :
    Inv world (clearThreadPageLoading s threadId direction request) := by
  unfold clearThreadPageLoading
  cases ht : s.threadTimelines threadId with
  | none => exact h
  | some t =>
    have hwindow : windowAt s (.thread threadId) = some t := ht
    cases direction with
    | none => exact h.overwrite hwindow (.refl _) (.inr rfl)
    | some direction =>
      dsimp only
      split
      · exact h
      · next hcleared =>
        obtain ⟨hids, harrived⟩ := ids_clearOwned hcleared
        exact h.overwrite hwindow (hids ▸ .refl _) (.inl harrived)

theorem inv_moveUnreadDivider (h : Inv world s) (fromId : Int) : Inv world (moveUnreadDivider s roomId fromId) := by
  unfold moveUnreadDivider
  cases ht : s.timelines roomId with
  | none => exact h
  | some t =>
    dsimp only
    split
    · exact @Inv.overwrite V world s (.room roomId) t _ h ht (.refl _) (.inl rfl)
    · exact h

theorem inv_clearUnreadDivider (h : Inv world s) : Inv world (clearUnreadDivider s roomId) := by
  unfold clearUnreadDivider
  cases ht : s.timelines roomId with
  | none => exact h
  | some t =>
    dsimp only
    split
    · exact h
    · exact @Inv.overwrite V world s (.room roomId) t _ h ht (.refl _) (.inl rfl)

theorem inv_setRoomDetail (h : Inv world s) (firstUnread : Option Int) (count : Nat) :
    Inv world (setRoomDetail s roomId firstUnread count) := by
  unfold setRoomDetail
  dsimp only
  split
  · exact h.rewrite (.room roomId) rfl (.inl rfl)
  · exact h.rewrite (.room roomId) rfl (.inl rfl)

/-- **A held message is written over**, in its place. -/
theorem inv_withMessage {held : Message V} (h : Inv world s) (hheld : s.messages messageId = some held)
    (hid : m.id = held.id) (hplace : m.place = held.place) (hsteps : Shown held.steps → Shown m.steps) :
    Inv world (withMessage s m) := by
  obtain ⟨-, hfits⟩ := h.holds messageId held hheld
  have hm : m.Fits world := ⟨hplace.trans (hid ▸ hfits.place), hsteps hfits.steps⟩
  exact h.lands (lands_update h.holds hm) (fun _ hid => hid) (windowAt_congr rfl rfl)

theorem inv_setReactions (h : Inv world s) (reactions : V) (updatedAt : String) :
    Inv world (setReactions s messageId reactions updatedAt) := by
  unfold setReactions
  cases hheld : s.messages messageId with
  | none => exact h
  | some held =>
    dsimp only
    split
    · exact h
    · exact inv_withMessage h hheld rfl rfl id

theorem inv_setPinState (h : Inv world s) (pinned : Bool) : Inv world (setPinState s messageId pinned) := by
  unfold setPinState
  cases hheld : s.messages messageId with
  | none => exact h
  | some held =>
    dsimp only
    split
    · exact h
    · exact inv_withMessage h hheld rfl rfl id

theorem inv_setThreadIndicator (h : Inv world s) (thread : Option (ThreadIndicator V)) :
    Inv world (setThreadIndicator s messageId thread) := by
  unfold setThreadIndicator
  cases hheld : s.messages messageId with
  | none => exact h
  | some held => exact inv_withMessage h hheld rfl rfl id

theorem inv_applyPoll (h : Inv world s) (poll : Poll V) : Inv world (applyPoll s messageId poll) := by
  unfold applyPoll
  cases hheld : s.messages messageId with
  | none => exact h
  | some held =>
    dsimp only
    split
    · exact h
    · exact inv_withMessage h hheld rfl rfl id

theorem inv_applyMessageCards (h : Inv world s) (cards : V) (asOf : String) :
    Inv world (applyMessageCards s messageId cards asOf) := by
  unfold applyMessageCards
  cases hheld : s.messages messageId with
  | none => exact h
  | some held =>
    dsimp only
    split
    · exact h
    · exact inv_withMessage h hheld rfl rfl id

/-! ## 4. Messages that go -/

theorem windowAt_removeMessage (s : State V) (messageId roomId : Int) (threadId : Option Int) (now : Int)
    (c : Conversation) :
    windowAt (removeMessage s messageId roomId threadId now) c = (windowAt s c).map fun t =>
      if c = .room roomId ∨ threadId.map Conversation.thread = some c then
        { t with ids := t.ids.filter (· ≠ messageId) } else t := by
  unfold removeMessage
  cases hroom : s.timelines roomId <;> cases threadId with
  | none =>
    cases c with
    | room r =>
      by_cases heq : r = roomId
      · subst heq
        simp [windowAt, withTimeline, hroom]
      · simp [windowAt, withTimeline, heq]
    | thread th => simp [windowAt, withTimeline]
  | some threadId =>
    cases hthread : s.threadTimelines threadId <;> cases c with
    | room r =>
      by_cases heq : r = roomId
      · subst heq
        simp [windowAt, withTimeline, withThreadTimeline, hthread, hroom]
      · simp [windowAt, withTimeline, withThreadTimeline, hthread, heq]
    | thread th =>
      by_cases heq : th = threadId
      · subst heq
        simp [windowAt, withTimeline, withThreadTimeline, hthread]
      · simp [windowAt, withTimeline, withThreadTimeline, hthread, heq, Ne.symm heq]

theorem messages_removeMessage (s : State V) (messageId roomId : Int) (threadId : Option Int) (now : Int) :
    (removeMessage s messageId roomId threadId now).messages = Function.update s.messages messageId none ∧
      (removeMessage s messageId roomId threadId now).tombstones =
        Function.update s.tombstones messageId (some (now + tombstoneTtl)) := by
  unfold removeMessage
  cases s.timelines roomId <;> cases threadId with
  | none => exact ⟨rfl, rfl⟩
  | some threadId => dsimp only; split <;> exact ⟨rfl, rfl⟩

/-- **A message goes** from the table and from its window. -/
theorem inv_removeMessage (h : Inv world s) (now : Int) :
    Inv world (removeMessage s messageId (world messageId).roomId (world messageId).threadId now) := by
  obtain ⟨hmessages, htombstones⟩ :=
    messages_removeMessage s messageId (world messageId).roomId (world messageId).threadId now
  have hother {id : Int} (hne : id ≠ messageId) :
      (removeMessage s messageId (world messageId).roomId (world messageId).threadId now).messages id =
        s.messages id := by
    rw [hmessages, Function.update_of_ne hne]
  refine h.drops (fun id => ?_) (fun id hsame hheld hnone => ?_) fun c t ht => ?_
  · by_cases heq : id = messageId
    · exact .inr (by rw [hmessages, heq, Function.update_self])
    · exact .inl (hother heq)
  · have hne : id ≠ messageId := by
      rintro rfl
      rw [hmessages, Function.update_self] at hsame
      exact hheld hsame.symm
    rw [htombstones, Function.update_of_ne hne]
    exact hnone
  · rw [windowAt_removeMessage] at ht
    obtain ⟨t₀, ht₀, rfl⟩ := Option.map_eq_some_iff.mp ht
    refine ⟨t₀, ht₀, ?_⟩
    split
    · exact ⟨List.filter_sublist, rfl, fun id hid => hother (by simpa using (List.mem_filter.mp hid).2)⟩
    · next hc =>
      refine ⟨.refl _, rfl, fun id hid => hother ?_⟩
      -- the message is of another conversation
      rintro rfl
      refine hc ?_
      rw [← ((h.windows c t₀ ht₀).here id hid).1, Place.conversation]
      cases (world id).threadId with
      | none => exact .inl rfl
      | some threadId => exact .inr rfl

theorem inv_prune (h : Inv world s) (now : Int) : Inv world (prune s now) :=
  h.lands (.refl h.holds) (fun id hid => by simp [prune, hid]) (windowAt_congr rfl rfl)

/-- A thread's replies go with their window. -/
theorem inv_forgetReplies (h : Inv world s) :
    Inv world { s with
      messages := fun id => (s.messages id).filter fun message => message.threadId ≠ some threadId
      threadTimelines := Function.update s.threadTimelines threadId none } := by
  refine h.drops (fun id => ?_) (fun _ _ _ hnone => hnone) fun c t ht => ?_
  · dsimp only
    cases s.messages id with
    | none => exact .inl rfl
    | some m => by_cases heq : m.threadId = some threadId <;> simp [heq]
  · have hc : c ≠ .thread threadId := by
      rintro rfl
      simp [windowAt] at ht
    have hsame : windowAt s c = some t := by
      cases c with
      | room roomId => exact ht
      | thread th =>
        have hne : th ≠ threadId := fun heq => hc (heq ▸ rfl)
        simpa [windowAt, hne] using ht
    refine ⟨t, hsame, .refl _, rfl, fun id hid => ?_⟩
    -- what is in another window is of another thread
    have hwindow := h.windows c t hsame
    obtain ⟨m, hm⟩ := Option.isSome_iff_exists.mp (hwindow.sorted.held id hid)
    obtain ⟨rfl, hfits⟩ := h.holds id m hm
    have hthread : m.threadId ≠ some threadId := by
      intro heq
      have hplace : (world m.id).threadId = some threadId := by
        rw [← hfits.place]
        exact heq
      refine hc ?_
      rw [← (hwindow.here m.id hid).1, Place.conversation, hplace]
      rfl
    simp [hm, hthread]

theorem inv_removeThread (h : Inv world s) (parentMessageId : Option Int) (accessLost : Bool) :
    Inv world (removeThread s threadId parentMessageId accessLost) := by
  unfold removeThread
  generalize hforgotten : (if accessLost then { s with
      messages := fun id => (s.messages id).filter fun message => message.threadId ≠ some threadId
      threadTimelines := Function.update s.threadTimelines threadId none } else s) = forgotten
  have hinv : Inv world forgotten := by
    subst hforgotten
    split
    · exact inv_forgetReplies h
    · exact h
  have hdropped : Inv world { forgotten with
      removedThreads := Function.update forgotten.removedThreads threadId true } :=
    hinv.same ⟨rfl, rfl, windowAt_congr rfl rfl⟩
  dsimp only
  split
  · exact hdropped
  · next parent hparent =>
    obtain ⟨id, -, hheld⟩ := Option.bind_eq_some_iff.mp hparent
    exact inv_withMessage hdropped hheld rfl rfl fun h => h

theorem inv_reviveThread (h : Inv world s) : Inv world (reviveThread s threadId) :=
  h.same ⟨rfl, rfl, windowAt_congr rfl rfl⟩

/-! ## 5. Messages that come -/

theorem messageTimeline_eq (s : State V) (m : Message V) : messageTimeline s m = windowAt s m.place.conversation := by
  unfold messageTimeline Place.conversation Message.place
  cases m.threadId <;> rfl

theorem withMessageTimeline_eq (s : State V) (m : Message V) (t : Timeline) :
    withMessageTimeline s m t = putWindow s m.place.conversation t := by
  unfold withMessageTimeline Place.conversation Message.place
  cases m.threadId <;> rfl

theorem inv_mergeMessages (h : Inv world s) {copies : List (Message V)} (hcopies : ∀ m ∈ copies, m.Fits world) :
    Inv world (mergeMessages s copies) := by
  have hlands : Lands world s.messages (copies.foldl (mergeMessage s) s.messages) := by
    induction copies using List.reverseRecOn with
    | nil => exact .refl h.holds
    | append_singleton front m ih =>
      have hfront := ih fun m' hm' => hcopies m' (List.mem_append_left _ hm')
      have hm := hcopies m (List.mem_append_right _ List.mem_cons_self)
      rw [List.foldl_append, List.foldl_cons, List.foldl_nil, mergeMessage]
      split
      · exact hfront.trans (lands_update hfront.holds hm)
      · exact hfront
  exact h.lands hlands (fun _ hid => hid) (windowAt_congr rfl rfl)

variable [DecidableEq V]

theorem inv_applyAgentSteps (h : Inv world s) (steps : List (AgentStep V)) :
    Inv world (applyAgentSteps s messageId steps) := by
  unfold applyAgentSteps
  cases hheld : s.messages messageId with
  | none => exact h
  | some held =>
    dsimp only
    split
    · exact h
    · next merged hmerged =>
      refine inv_withMessage h hheld rfl rfl fun hshown => ?_
      have hmore := hshown.mergeSteps steps
      rwa [hmerged] at hmore

/-- Keeping a copy. -/
theorem inv_kept {tie : Bool} (h : Inv world s) (hm : m.Fits world) :
    Inv world { s with messages := Function.update s.messages m.id (some (kept (s.messages m.id) m tie)) } :=
  h.lands (lands_kept h.holds hm tie) (fun _ hid => hid) (windowAt_congr rfl rfl)

theorem updateMessage_eq (hheld : (s.messages m.id).isSome) : updateMessage s m =
    { s with messages := Function.update s.messages m.id (some (kept (s.messages m.id) m false)) } := by
  rw [← update_kept]
  unfold updateMessage
  obtain ⟨held, hheld⟩ := Option.isSome_iff_exists.mp hheld
  rw [hheld]
  cases hkept : reconcileMessage (some held) m false <;> simp [hkept]

theorem inv_updateMessage (h : Inv world s) (hm : m.Fits world) : Inv world (updateMessage s m) := by
  cases hheld : (s.messages m.id).isSome with
  | true =>
    rw [updateMessage_eq hheld]
    exact inv_kept h hm
  | false =>
    have hnone : s.messages m.id = none := by simpa using hheld
    unfold updateMessage
    rw [hnone]
    exact h

theorem loadThreadParent_eq (h : Holds world s.messages) (hm : m.Fits world) : loadThreadParent s m =
    { s with messages := Function.update s.messages m.id (some (kept (s.messages m.id) m true)) } := by
  obtain ⟨-, hid⟩ := fits_kept h hm true
  rw [← update_kept]
  unfold kept at hid
  unfold loadThreadParent
  cases hkept : reconcileMessage (s.messages m.id) m true with
  | none => rfl
  | some kept =>
    rw [hkept] at hid
    dsimp only
    rw [show kept.id = m.id from hid]

theorem inv_loadThreadParent (h : Inv world s) (hm : m.Fits world) : Inv world (loadThreadParent s m) := by
  rw [loadThreadParent_eq h.holds hm]
  exact inv_kept h hm

/-- **A live message comes**: it is held back, put in its place, or left for a page. -/
theorem inv_receiveMessage (h : Inv world s) (hm : m.Fits world) : Inv world (receiveMessage s m) := by
  have hsame := samePlace_removePending s m.clientMessageId
  have hreconciled := h.same hsame
  unfold receiveMessage
  generalize removePending s m.clientMessageId = reconciled at hsame hreconciled
  dsimp only
  split
  · exact hreconciled
  next htombstone =>
  have hnone : reconciled.tombstones m.id = none := by
    rw [hsame.tombstones]
    simpa using htombstone
  cases hkept : reconcileMessage (reconciled.messages m.id) m false with
  | none => exact hreconciled
  | some kept' =>
    have hlanded : Inv world { reconciled with messages := Function.update reconciled.messages m.id (some kept') } := by
      have hinv := @inv_kept V world reconciled m _ false hreconciled hm
      rwa [kept, hkept] at hinv
    have hheld : (Function.update reconciled.messages m.id (some kept') m.id).isSome := by
      rw [Function.update_self]
      rfl
    dsimp only
    rw [messageTimeline_eq, hm.place]
    cases ht : windowAt reconciled (world m.id).conversation with
    | none =>
      dsimp only
      split
      · exact hreconciled
      · exact hlanded
    | some t =>
      have hwindow := hlanded.windows (world m.id).conversation t ht
      have harrived : ∀ id ∈ (t.arrived.map fun arrived => arrived.filter (· ≠ m.id) ++ [m.id]).getD [],
          (world id).conversation = (world m.id).conversation := by
        intro id hid
        cases harrived : t.arrived with
        | none => simp [harrived] at hid
        | some arrived =>
          simp only [harrived, Option.map_some, Option.getD_some, List.mem_append, List.mem_singleton] at hid
          obtain hid | rfl := hid
          · exact hwindow.arrived id (by rw [harrived]; exact List.mem_of_mem_filter hid)
          · rfl
      dsimp only
      rw [withMessageTimeline_eq, withMessageTimeline_eq, hm.place]
      split
      · split
        · split
          · exact hreconciled
          · exact hlanded
        · exact hlanded.put ⟨hwindow.sorted, hwindow.here, harrived⟩
      · refine hlanded.put ⟨?_, fun id hid => ?_, harrived⟩
        · exact sorted_insertOrdered hwindow.sorted hlanded.holds hm hheld
        · obtain rfl | hid := mem_insertOrdered.mp hid
          · exact ⟨rfl, hnone⟩
          · exact hwindow.here id hid

end Changes

/-! ## 6. Runs -/

/-- What the store is asked for: by a reply of the server, by an event, or by the viewer. -/
inductive Act (V : Type) where
  | page (c : Conversation) (page : MessagePage V) (mode : PageMode) (request : Option Nat)
  | pageLoading (c : Conversation) (direction : PageDirection)
  | pageReplacing (c : Conversation)
  | pageFailed (c : Conversation) (direction : Option PageDirection) (request : Option Nat)
  | clearThreadPageLoading (threadId : Int) (direction : Option PageDirection) (request : Option Nat)
  | moveUnreadDivider (roomId fromId : Int)
  | clearUnreadDivider (roomId : Int)
  | roomDetail (roomId : Int) (firstUnreadMessageId : Option Int) (count : Nat)
  | addPending (pending : PendingMessage)
  | discardPending (clientMessageId : String)
  | receiveMessage (message : Message V)
  | updateMessage (message : Message V)
  | removeMessage (messageId roomId : Int) (threadId : Option Int) (now : Int)
  | prune (now : Int)
  | reactions (messageId : Int) (reactions : V) (updatedAt : String)
  | pinState (messageId : Int) (pinned : Bool)
  | threadIndicator (parentMessageId : Int) (thread : Option (ThreadIndicator V))
  | poll (messageId : Int) (poll : Poll V)
  | cards (messageId : Int) (cards : V) (asOf : String)
  | agentSteps (messageId : Int) (steps : List (AgentStep V))
  | removeThread (threadId : Int) (parentMessageId : Option Int) (accessLost : Bool)
  | threadParent (parent : Message V)
  | reviveThread (threadId : Int)
  | savedPage (messages : List (Message V))

/-- What fits the world. -/
def Act.Fits (world : World) : Act V → Prop
  | .page c shown _ _ => shown.Fits world c
  | .receiveMessage message | .updateMessage message | .threadParent message => message.Fits world
  | .removeMessage messageId roomId threadId _ =>
    roomId = (world messageId).roomId ∧ threadId = (world messageId).threadId
  | .savedPage messages => (messages.map (·.id)).Nodup ∧ ∀ m ∈ messages, m.Fits world
  | _ => True

section Runs

variable [DecidableEq V]

def perform (s : State V) : Act V → State V
  | .page (.room roomId) page mode request => applyPage s roomId page mode request
  | .page (.thread threadId) page mode request => applyThreadPage s threadId page mode request
  | .pageLoading (.room roomId) direction => setPageLoading s roomId direction
  | .pageLoading (.thread threadId) direction => setThreadPageLoading s threadId direction
  | .pageReplacing (.room roomId) => setPageReplacing s roomId
  | .pageReplacing (.thread threadId) => setThreadPageReplacing s threadId
  | .pageFailed (.room roomId) direction request => setPageFailed s roomId direction request
  | .pageFailed (.thread threadId) direction request => setThreadPageFailed s threadId direction request
  | .clearThreadPageLoading threadId direction request => clearThreadPageLoading s threadId direction request
  | .moveUnreadDivider roomId fromId => moveUnreadDivider s roomId fromId
  | .clearUnreadDivider roomId => clearUnreadDivider s roomId
  | .roomDetail roomId firstUnreadMessageId count => setRoomDetail s roomId firstUnreadMessageId count
  | .addPending pending => addPending s pending
  | .discardPending clientMessageId => removePending s clientMessageId
  | .receiveMessage message => receiveMessage s message
  | .updateMessage message => updateMessage s message
  | .removeMessage messageId roomId threadId now => removeMessage s messageId roomId threadId now
  | .prune now => prune s now
  | .reactions messageId reactions updatedAt => setReactions s messageId reactions updatedAt
  | .pinState messageId pinned => setPinState s messageId pinned
  | .threadIndicator parentMessageId thread => setThreadIndicator s parentMessageId thread
  | .poll messageId poll => applyPoll s messageId poll
  | .cards messageId cards asOf => applyMessageCards s messageId cards asOf
  | .agentSteps messageId steps => applyAgentSteps s messageId steps
  | .removeThread threadId parentMessageId accessLost => removeThread s threadId parentMessageId accessLost
  | .threadParent parent => loadThreadParent s parent
  | .reviveThread threadId => reviveThread s threadId
  | .savedPage messages => mergeMessages s messages

/-- Every interleaving of replies, events and the viewer's doings. -/
def timelineRuns (V : Type) [DecidableEq V] : Lib.System (State V) (Act V) where
  start s := s = initialState
  step s act := some (perform s act)

variable {s : State V}

/-- **A step keeps the invariant.** -/
theorem inv_perform (h : Inv world s) (act : Act V) (hact : act.Fits world) : Inv world (perform s act) := by
  cases act with
  | page c page mode request =>
    cases c with
    | room roomId => exact inv_applyPage h hact request
    | thread threadId => exact inv_applyThreadPage h hact request
  | pageLoading c direction =>
    cases c with
    | room roomId => exact inv_setPageLoading h direction
    | thread threadId => exact inv_setThreadPageLoading h direction
  | pageReplacing c =>
    cases c with
    | room roomId => exact inv_setPageReplacing h
    | thread threadId => exact inv_setThreadPageReplacing h
  | pageFailed c direction request =>
    cases c with
    | room roomId => exact inv_setPageFailed h direction request
    | thread threadId => exact inv_setThreadPageFailed h direction request
  | clearThreadPageLoading threadId direction request => exact inv_clearThreadPageLoading h direction request
  | moveUnreadDivider roomId fromId => exact inv_moveUnreadDivider h fromId
  | clearUnreadDivider roomId => exact inv_clearUnreadDivider h
  | roomDetail roomId firstUnread count => exact inv_setRoomDetail h firstUnread count
  | addPending pending => exact h.same (samePlace_addPending s pending)
  | discardPending clientMessageId => exact h.same (samePlace_removePending s clientMessageId)
  | receiveMessage message => exact inv_receiveMessage h hact
  | updateMessage message => exact inv_updateMessage h hact
  | removeMessage messageId roomId threadId now =>
    obtain ⟨rfl, rfl⟩ := hact
    exact inv_removeMessage h now
  | prune now => exact inv_prune h now
  | reactions messageId reactions updatedAt => exact inv_setReactions h reactions updatedAt
  | pinState messageId pinned => exact inv_setPinState h pinned
  | threadIndicator parentMessageId thread => exact inv_setThreadIndicator h thread
  | poll messageId poll => exact inv_applyPoll h poll
  | cards messageId cards asOf => exact inv_applyMessageCards h cards asOf
  | agentSteps messageId steps => exact inv_applyAgentSteps h steps
  | removeThread threadId parentMessageId accessLost => exact inv_removeThread h parentMessageId accessLost
  | threadParent parent => exact inv_loadThreadParent h hact
  | reviveThread threadId => exact inv_reviveThread h
  | savedPage messages => exact inv_mergeMessages h hact.2

theorem inv_of_reach (h : Lib.ReachWhen (timelineRuns V) (fun _ act => act.Fits world) s) : Inv world s := by
  refine h.induct (fun s hs => ?_) fun s act s' _ hinv hact hs => ?_
  · obtain rfl : s = initialState := hs
    exact inv_initial
  · obtain rfl := Option.some.inj hs
    exact inv_perform hinv act hact

/-- **The windows**: in every run, whatever pages, replies and events come, and whenever, a window's ids are in
    the server's order, each once. Each has its message, which is of the window's conversation; none of them
    was removed. -/
theorem windows_of_reach (h : Lib.ReachWhen (timelineRuns V) (fun _ act => act.Fits world) s) {c : Conversation}
    {t : Timeline} (ht : windowAt s c = some t) :
    t.ids.Nodup ∧ (t.ids.Pairwise fun a b => world.key a < world.key b) ∧
    ∀ id ∈ t.ids, (∃ m, s.messages id = some m ∧ m.id = id ∧ m.place = world id) ∧
      (world id).conversation = c ∧ s.tombstones id = none := by
  have hinv := inv_of_reach h
  have hwindow := hinv.windows c t ht
  have horder := hwindow.sorted.order
  refine ⟨horder.imp fun {a b} hlt heq => ?_, horder, fun id hid => ⟨?_, hwindow.here id hid⟩⟩
  · subst heq
    exact lt_irrefl _ hlt
  · obtain ⟨m, hm⟩ := Option.isSome_iff_exists.mp (hwindow.sorted.held id hid)
    obtain ⟨rfl, hfits⟩ := hinv.holds id m hm
    exact ⟨m, hm, rfl, hfits.place⟩

end Runs

/-- Three root messages of a room, and a copy of each. -/
def sampleWorld : World := fun id => ⟨if id = 1 then "09:00" else if id = 2 then "10:00" else "11:00", 1, none⟩

def sampleMessage (id : Int) (updatedAt : String) (value : Nat) : Message Nat :=
  ⟨id, 1, none, (sampleWorld id).createdAt, "", updatedAt, 0, value, false, none, none, 0, "", []⟩

theorem fits_sampleMessage (id : Int) (updatedAt : String) (value : Nat) :
    (sampleMessage id updatedAt value).Fits sampleWorld :=
  ⟨rfl, ⟨.nil, .nil⟩⟩

/-- A page comes, and then a message that was sent in between. -/
def sampleActs : List (Act Nat) :=
  [.page (.room 1) ⟨[sampleMessage 1 "" 0, sampleMessage 3 "" 0], none, none⟩ .replace none,
    .receiveMessage (sampleMessage 2 "" 0)]

theorem fits_sampleActs : ∀ act ∈ sampleActs, act.Fits sampleWorld := by
  have hpage : MessagePage.Fits sampleWorld (.room 1)
      ⟨[sampleMessage 1 "" 0, sampleMessage 3 "" 0], none, none⟩ := by
    refine ⟨fun m hm => ?_, ?_⟩
    · obtain rfl | rfl : m = _ ∨ m = _ := by simpa using hm
      · exact ⟨fits_sampleMessage 1 "" 0, rfl⟩
      · exact ⟨fits_sampleMessage 3 "" 0, rfl⟩
    · exact List.pairwise_pair.mpr (by decide +kernel)
  intro act hact
  obtain rfl | rfl : act = _ ∨ act = _ := by simpa [sampleActs] using hact
  · exact hpage
  · exact fits_sampleMessage 2 "" 0

theorem windows_of_reach_sample :
    (windowAt (sampleActs.foldl perform initialState) (.room 1)).map Timeline.ids = some [1, 2, 3] ∧
      ∀ t, windowAt (sampleActs.foldl perform initialState) (.room 1) = some t → t.ids.Nodup := by
  have hrun : Lib.ReachWhen (timelineRuns Nat) (fun _ act => act.Fits sampleWorld)
      (sampleActs.foldl perform initialState) :=
    Lib.reachWhen_foldl (fun _ _ => rfl) rfl fun act hact _ => fits_sampleActs act hact
  exact ⟨by decide +kernel, fun _ ht => (windows_of_reach hrun ht).1⟩

end Smartfire.Timelines
