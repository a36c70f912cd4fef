/-
  File:      Smartfire/Store/Landings.lean
  Subject:   What a step makes of the held copy of a message.

  Copies of a message land whole (with pages, events and threads) or in part (its poll, its cards, its
  agent's steps, its reactions).

  * `Versions`, `landsAt` -- the versions of a message that land in a step, and what the step's copies and
    events carried of it;
  * `Takes`, `takes_perform` -- **what a step makes of a held copy**, one case for each way to land;
  * `tombstones_perform`, `landsAt_removed` -- what it makes of a removed message.
-/
import Smartfire.Store.TimelineRuns

namespace Smartfire.Timelines

variable {V : Type} {world : World}

/-! ## 1. Versions -/

/-- The parts of a message that stand under its `updatedAt`. -/
structure Fields (V : Type) where
  updatedAt : String
  clientMessageId : String
  reactions : V
  value : V
deriving DecidableEq

structure Cards (V : Type) where
  asOf : String
  cards : V
deriving DecidableEq

/-- What a reactions event carries: no other fields. -/
structure Reactions (V : Type) where
  updatedAt : String
  reactions : V
deriving DecidableEq

/-- Versions of the parts of one message. A reactions event makes a version of the fields out of the held
    ones: `fields` has it as it then stood, `reactions` has what came. -/
structure Versions (V : Type) where
  fields : List (Fields V)
  /-- The fields that whole copies brought. -/
  copies : List (Fields V)
  reactions : List (Reactions V)
  cards : List (Cards V)
  polls : List (Poll V)
  steps : List (AgentStep V)
deriving DecidableEq

def noVersions : Versions V := ⟨[], [], [], [], [], []⟩

def Versions.append (a b : Versions V) : Versions V :=
  ⟨a.fields ++ b.fields, a.copies ++ b.copies, a.reactions ++ b.reactions, a.cards ++ b.cards, a.polls ++ b.polls,
    a.steps ++ b.steps⟩

def Message.fields (m : Message V) : Fields V := ⟨m.updatedAt, m.clientMessageId, m.reactions, m.value⟩

/-- What a copy brings. -/
def Message.versions (m : Message V) : Versions V :=
  ⟨[m.fields], [m.fields], [], [⟨m.cardsAsOf, m.cards⟩], m.poll.toList, m.steps⟩

/-- Two copies that differ at most in what has no stamp. -/
def SameStamped (m m' : Message V) : Prop :=
  { m with pinned := false, thread := none } = { m' with pinned := false, thread := none }

section Lands

/-- A page's copy of a message. -/
def copyOn (copies : List (Message V)) (id : Int) : Versions V :=
  (copies.find? (·.id = id)).elim noVersions Message.versions

/-- What a page that lands brings. -/
def landedAt (s : State V) (t : Timeline) (page : MessagePage V) (mode : PageMode) (id : Int) : Versions V :=
  if (landsIn s t page mode).isSome && (s.tombstones id).isNone then copyOn page.messages id else noVersions

/-- The versions of a message that land in a step. -/
def landsAt (s : State V) (act : Act V) (id : Int) : Versions V :=
  match act with
  | .page (.room roomId) page mode request =>
    if staleRequest (timelineOf s roomId) mode request then noVersions
    else landedAt s (timelineOf s roomId) (withoutRemovedIndicators s page) mode id
  | .page (.thread threadId) page mode request =>
    if staleRequest (threadTimelineOf s threadId) mode request || s.removedThreads threadId then noVersions
    else landedAt s (threadTimelineOf s threadId) page mode id
  | .receiveMessage message => if message.id = id ∧ (s.tombstones id).isNone then message.versions else noVersions
  | .updateMessage message => if message.id = id ∧ (s.messages id).isSome then message.versions else noVersions
  | .threadParent message => if message.id = id then message.versions else noVersions
  | .reactions messageId reactions updatedAt =>
    if messageId = id ∧ (s.messages id).isSome then
      (s.messages messageId).elim noVersions fun held =>
        { noVersions with
          fields := [{ held.fields with reactions := reactions, updatedAt := updatedAt }]
          reactions := [⟨updatedAt, reactions⟩] }
    else noVersions
  | .poll messageId poll =>
    if messageId = id ∧ (s.messages id).isSome then { noVersions with polls := [poll] } else noVersions
  | .cards messageId cards asOf =>
    if messageId = id ∧ (s.messages id).isSome then { noVersions with cards := [⟨asOf, cards⟩] } else noVersions
  | .agentSteps messageId steps =>
    if messageId = id ∧ (s.messages id).isSome then { noVersions with steps := steps } else noVersions
  | .savedPage messages =>
    if (s.tombstones id).isNone then
      ((messages.find? (·.id = id)).filter fun message =>
        (s.messages id).all fun held => decide (held.updatedAt ≤ message.updatedAt)).elim noVersions Message.versions
    else noVersions
  | _ => noVersions

end Lands

/-! ## 2. What a step makes of a held copy -/

/-- No part of the second copy is older than the first's. -/
structure NotBehind (held m : Message V) : Prop where
  cards : held.cardsAsOf ≤ m.cardsAsOf
  poll : ∀ p, held.poll = some p → ∃ q, m.poll = some q ∧ p.asOf ≤ q.asOf
  steps : ∀ step ∈ held.steps, ∃ step' ∈ m.steps, step'.id = step.id ∧ step.updatedAt ≤ step'.updatedAt

/-- The saved list brings no copy that is behind the one it takes the place of: it looks at `updatedAt` only. -/
def Act.UpToDate (s : State V) : Act V → Prop
  | .savedPage messages => ∀ m ∈ messages, ∀ held, s.messages m.id = some held → held.updatedAt ≤ m.updatedAt →
    NotBehind held m
  | _ => True

/-- What landing versions make of what is held of one message. -/
inductive Takes [DecidableEq V] (upToDate : Prop) : Option (Message V) → Versions V → Option (Message V) → Prop
  | gone (old : Option (Message V)) (landed : Versions V) : Takes upToDate old landed none
  | first (m : Message V) : Takes upToDate none m.versions (some m)
  | kept (held m : Message V) (tie : Bool) (hsteps : Distinct m.steps) :
      Takes upToDate (some held) m.versions (some (kept (some held) m tie))
  | aside (held m : Message V) (h : SameStamped m held) : Takes upToDate (some held) noVersions (some m)
  | saved (held m : Message V) (h : held.updatedAt ≤ m.updatedAt) (hbehind : upToDate → NotBehind held m) :
      Takes upToDate (some held) m.versions (some m)
  | reactions (held : Message V) (reactions : V) (updatedAt : String) :
      Takes upToDate (some held)
        { noVersions with
          fields := [{ held.fields with reactions := reactions, updatedAt := updatedAt }]
          reactions := [⟨updatedAt, reactions⟩] }
        (some (if updatedAt < held.updatedAt then held
          else { held with reactions := reactions, updatedAt := updatedAt }))
  | poll (held : Message V) (poll : Poll V) :
      Takes upToDate (some held) { noVersions with polls := [poll] }
        (some { held with poll := newerPoll held.poll (some poll) })
  | cards (held : Message V) (cards : V) (asOf : String) :
      Takes upToDate (some held) { noVersions with cards := [⟨asOf, cards⟩] }
        (some (if asOf < held.cardsAsOf then held else { held with cards := cards, cardsAsOf := asOf }))
  | steps (held : Message V) (steps : List (AgentStep V)) :
      Takes upToDate (some held) { noVersions with steps := steps }
        (some { held with steps := (mergeSteps held.steps steps).getD held.steps })

theorem nodup_page {c : Conversation} {page : MessagePage V} (hpage : page.Fits world c) :
    (page.messages.map (·.id)).Nodup := by
  refine List.pairwise_map.mpr (hpage.sorted.imp fun {a b} hlt heq => ?_)
  rw [heq] at hlt
  exact lt_irrefl _ hlt

section Tables

variable {s : State V} {m held : Message V} {messageId : Int}

theorem messages_withMessage (h : Holds world s.messages) (hheld : s.messages messageId = some held)
    (hid : m.id = held.id) : (withMessage s m).messages = Function.update s.messages messageId (some m) := by
  rw [withMessage, hid, (h messageId held hheld).1]

theorem messages_stay (hheld : s.messages messageId = some held) :
    s.messages = Function.update s.messages messageId (some held) := by
  rw [← hheld, Function.update_eq_self]

/-- The saved list's messages, at one message. -/
theorem mergeMessages_apply {copies : List (Message V)} (hnodup : (copies.map (·.id)).Nodup) (id : Int) :
    (mergeMessages s copies).messages id = if (s.tombstones id).isSome then s.messages id
      else ((copies.find? (·.id = id)).filter fun m =>
        (s.messages id).all fun held => decide (held.updatedAt ≤ m.updatedAt)).elim (s.messages id) some := by
  unfold mergeMessages
  dsimp only
  induction copies using List.reverseRecOn with
  | nil => simp
  | append_singleton front m ih =>
    rw [List.map_append] at hnodup
    have hfront := ih (List.nodup_append.mp hnodup).1
    rw [List.foldl_append, List.foldl_cons, List.foldl_nil, mergeMessage, List.find?_append]
    by_cases heq : m.id = id
    · subst heq
      have habsent : front.find? (·.id = m.id) = none := by
        refine List.find?_eq_none.mpr fun m' hm' hid => ?_
        exact (List.nodup_append.mp hnodup).2.2 m'.id (List.mem_map_of_mem hm') m.id (by simp) (by simpa using hid)
      rw [habsent] at hfront ⊢
      have hold : front.foldl (mergeMessage s) s.messages m.id = s.messages m.id := by simpa using hfront
      rw [hold]
      cases htombstone : s.tombstones m.id with
      | some expiresAt => simp [hold]
      | none =>
        rw [List.find?_cons_of_pos (by simp), Option.none_or, Option.filter_some]
        cases (s.messages m.id).all fun held => decide (held.updatedAt ≤ m.updatedAt)
        · exact hold
        · exact Function.update_self ..
    · have hother : ([m].find? (·.id = id)) = none := by simp [heq]
      rw [hother, Option.or_none]
      split
      · rw [Function.update_of_ne (Ne.symm heq)]
        exact hfront
      · exact hfront

end Tables

section Takes

variable [DecidableEq V] {s s' : State V} {m held : Message V} {t : Timeline} {page : MessagePage V} {mode : PageMode}
  {messageId : Int} {upToDate : Prop}

theorem takes_same (old : Option (Message V)) : Takes upToDate old noVersions old := by
  cases old with
  | none => exact .gone none noVersions
  | some held => exact .aside held held rfl

/-- A copy is kept, the first as it is. -/
theorem takes_kept (hm : m.Fits world) (tie : Bool) :
    Takes upToDate (s.messages m.id) m.versions (some (kept (s.messages m.id) m tie)) := by
  cases hheld : s.messages m.id with
  | none => exact .first m
  | some held => exact .kept held m tie hm.steps.distinct

/-- A table with one entry written. -/
theorem takes_update (messages : Table V) {landed : Versions V} {new : Option (Message V)}
    (h : Takes upToDate (messages messageId) landed new) (id : Int) :
    Takes upToDate (messages id) (if messageId = id then landed else noVersions)
      (Function.update messages messageId new id) := by
  by_cases heq : messageId = id
  · subst heq
    rw [if_pos rfl, Function.update_self]
    exact h
  · rw [if_neg heq, Function.update_of_ne (Ne.symm heq)]
    exact takes_same _

/-- Landing a page, at one message. -/
theorem landMessages_apply (s : State V) (hnodup : (page.messages.map (·.id)).Nodup) (id : Int) :
    landMessages s page id = if (s.tombstones id).isSome then s.messages id
      else (page.messages.find? (·.id = id)).elim (s.messages id) fun m => some (kept (s.messages id) m true) := by
  unfold landMessages
  generalize page.messages = copies at hnodup
  induction copies using List.reverseRecOn with
  | nil => simp
  | append_singleton front m ih =>
    rw [List.map_append] at hnodup
    have hfront := ih (List.nodup_append.mp hnodup).1
    rw [List.foldl_append, List.foldl_cons, List.foldl_nil, landMessage_eq, List.find?_append]
    by_cases heq : m.id = id
    · -- the first copy of this message
      subst heq
      have habsent : front.find? (·.id = m.id) = none := by
        refine List.find?_eq_none.mpr fun m' hm' hid => ?_
        exact (List.nodup_append.mp hnodup).2.2 m'.id (List.mem_map_of_mem hm') m.id (by simp) (by simpa using hid)
      rw [habsent] at hfront ⊢
      cases htombstone : (s.tombstones m.id).isSome <;> simp_all
    · have hother : ([m].find? (·.id = id)) = none := by simp [heq]
      rw [hother, Option.or_none]
      split
      · exact hfront
      · rw [Function.update_of_ne (Ne.symm heq)]
        exact hfront

/-- **A page lands.** -/
theorem takes_landPage {c : Conversation} (hpage : page.Fits world c) (id : Int) :
    Takes upToDate (s.messages id) (landedAt s t page mode id) ((landPage s t page mode).1.messages id) := by
  obtain ⟨mode', hlands, hlanded⟩ | ⟨hlands, hstate, -⟩ := landPage_eq s t page mode
  · rw [hlanded, messages_landWindow, landMessages_apply s (nodup_page hpage), landedAt, hlands]
    cases htombstone : s.tombstones id with
    | some expiresAt => exact takes_same _
    | none =>
      simp only [Option.isSome_some, Option.isNone_none, Bool.and_self, Option.isSome_none, if_true,
        Bool.false_eq_true, if_false, copyOn]
      cases hcopy : page.messages.find? (·.id = id) with
      | none => exact takes_same _
      | some m =>
        obtain ⟨-, rfl⟩ := Lib.mem_of_find?_key hcopy
        exact takes_kept (hpage.copies m (List.mem_of_find?_eq_some hcopy)).1 true
  · rw [hstate, landedAt, hlands]
    exact takes_same _

/-- What a live message makes of the table: it is left where it was removed, or where it is not shown. -/
theorem messages_receiveMessage (s : State V) (m : Message V) :
    (receiveMessage s m).messages = s.messages ∧ ((s.tombstones m.id).isSome ∨ s.messages m.id = none) ∨
    (s.tombstones m.id).isNone ∧ (receiveMessage s m).messages =
      Function.update s.messages m.id (some (kept (s.messages m.id) m false)) := by
  have hmessages := (samePlace_removePending s m.clientMessageId).messages
  unfold receiveMessage
  rw [← update_kept]
  generalize removePending s m.clientMessageId = reconciled at hmessages
  dsimp only
  rw [hmessages]
  split
  · next htombstone => exact .inl ⟨hmessages, .inl htombstone⟩
  next htombstone =>
  have hnone : (s.tombstones m.id).isNone := by simpa using htombstone
  cases hkept : reconcileMessage (s.messages m.id) m false with
  | none => exact .inr ⟨hnone, hmessages⟩
  | some kept' =>
    dsimp only
    cases messageTimeline reconciled m with
    | none =>
      dsimp only
      split
      · next hheld => exact .inl ⟨hmessages, .inr (by simpa using hheld)⟩
      · exact .inr ⟨hnone, rfl⟩
    | some t =>
      dsimp only
      rw [withMessageTimeline_eq, withMessageTimeline_eq]
      split
      · split
        · split
          · next hheld => exact .inl ⟨hmessages, .inr (by simpa using hheld)⟩
          · exact .inr ⟨hnone, rfl⟩
        · exact .inr ⟨hnone, messages_putWindow⟩
      · exact .inr ⟨hnone, messages_putWindow⟩

theorem takes_receiveMessage (hm : m.Fits world) (id : Int) :
    Takes upToDate (s.messages id) (landsAt s (.receiveMessage m) id) ((receiveMessage s m).messages id) := by
  rw [landsAt]
  obtain ⟨hsame, htombstone | hnone⟩ | ⟨htombstone, hlanded⟩ := messages_receiveMessage s m
  · rw [hsame, if_neg]
    · exact takes_same _
    · rintro ⟨rfl, hnone⟩
      simp_all
  · rw [hsame]
    by_cases heq : m.id = id
    · rw [← heq, hnone]
      exact .gone _ _
    · rw [if_neg (fun h => heq h.1)]
      exact takes_same _
  · rw [hlanded]
    have htakes := takes_update s.messages (@takes_kept V world _ s m upToDate hm false) id
    by_cases heq : m.id = id
    · rw [if_pos ⟨heq, heq ▸ htombstone⟩]
      rwa [if_pos heq] at htakes
    · rw [if_neg (fun h => heq h.1)]
      rwa [if_neg heq] at htakes

theorem takes_updateMessage (hm : m.Fits world) (id : Int) :
    Takes upToDate (s.messages id) (landsAt s (.updateMessage m) id) ((updateMessage s m).messages id) := by
  rw [landsAt]
  cases hheld : (s.messages m.id).isSome with
  | true =>
    rw [updateMessage_eq hheld]
    have htakes := takes_update s.messages (@takes_kept V world _ s m upToDate hm false) id
    by_cases heq : m.id = id
    · rw [if_pos ⟨heq, heq ▸ hheld⟩]
      rwa [if_pos heq] at htakes
    · rw [if_neg (fun h => heq h.1)]
      rwa [if_neg heq] at htakes
  | false =>
    have hnone : s.messages m.id = none := by simpa using hheld
    have hsame : updateMessage s m = s := by
      unfold updateMessage
      rw [hnone]
    rw [hsame, if_neg]
    · exact takes_same _
    · rintro ⟨rfl, hsome⟩
      simp [hnone] at hsome

/-- **A held message changes**, and the others stay. -/
theorem takes_change {landed : Versions V} (hheld : s.messages messageId = some held)
    (htakes : Takes upToDate (some held) landed (some m))
    (hs' : s'.messages = Function.update s.messages messageId (some m)) (id : Int) :
    Takes upToDate (s.messages id) (if messageId = id ∧ (s.messages id).isSome then landed else noVersions)
      (s'.messages id) := by
  have hone := takes_update s.messages (hheld.symm ▸ htakes) id
  rw [hs']
  by_cases heq : messageId = id
  · rw [if_pos ⟨heq, by rw [← heq, hheld]; rfl⟩]
    rwa [if_pos heq] at hone
  · rw [if_neg (fun h => heq h.1)]
    rwa [if_neg heq] at hone

/-- What is not held is not changed. -/
theorem takes_nothing {landed : Versions V} (hnone : s.messages messageId = none) (id : Int) :
    Takes upToDate (s.messages id) (if messageId = id ∧ (s.messages id).isSome then landed else noVersions)
      (s.messages id) := by
  rw [if_neg]
  · exact takes_same _
  · rintro ⟨rfl, hsome⟩
    simp [hnone] at hsome

theorem takes_setReactions (h : Holds world s.messages) (reactions : V) (updatedAt : String) (id : Int) :
    Takes upToDate (s.messages id) (landsAt s (.reactions messageId reactions updatedAt) id)
      ((setReactions s messageId reactions updatedAt).messages id) := by
  rw [landsAt, setReactions]
  cases hheld : s.messages messageId with
  | none => exact takes_nothing hheld id
  | some held =>
    refine takes_change hheld (.reactions held reactions updatedAt) ?_ id
    dsimp only
    split
    · exact messages_stay hheld
    · exact messages_withMessage h hheld rfl

/-- What has no stamp changes. -/
theorem takes_aside (hheld : s.messages messageId = some held) (h : SameStamped m held)
    (hs' : s'.messages = Function.update s.messages messageId (some m)) (id : Int) :
    Takes upToDate (s.messages id) noVersions (s'.messages id) := by
  have hone := takes_update s.messages (hheld.symm ▸ @Takes.aside V _ upToDate held m h) id
  rw [hs']
  rwa [ite_self] at hone

theorem takes_setPinState (h : Holds world s.messages) (pinned : Bool) (id : Int) :
    Takes upToDate (s.messages id) noVersions ((setPinState s messageId pinned).messages id) := by
  rw [setPinState]
  cases hheld : s.messages messageId with
  | none => exact takes_same _
  | some held =>
    dsimp only
    split
    · exact takes_same _
    · exact takes_aside (m := { held with pinned := pinned }) hheld rfl (messages_withMessage h hheld rfl) id

theorem takes_setThreadIndicator (h : Holds world s.messages) (thread : Option (ThreadIndicator V)) (id : Int) :
    Takes upToDate (s.messages id) noVersions ((setThreadIndicator s messageId thread).messages id) := by
  rw [setThreadIndicator]
  cases hheld : s.messages messageId with
  | none => exact takes_same _
  | some held => exact takes_aside (m := { held with thread := thread }) hheld rfl (messages_withMessage h hheld rfl) id

theorem takes_applyPoll (h : Holds world s.messages) (poll : Poll V) (id : Int) :
    Takes upToDate (s.messages id) (landsAt s (.poll messageId poll) id)
      ((applyPoll s messageId poll).messages id) := by
  rw [landsAt, applyPoll]
  cases hheld : s.messages messageId with
  | none => exact takes_nothing hheld id
  | some held =>
    refine takes_change hheld (.poll held poll) ?_ id
    dsimp only
    split
    · next hkeeps =>
      rw [newerPoll, if_pos hkeeps]
      exact messages_stay hheld
    · next hkeeps =>
      rw [newerPoll, if_neg hkeeps]
      exact messages_withMessage h hheld rfl

theorem takes_applyMessageCards (h : Holds world s.messages) (cards : V) (asOf : String) (id : Int) :
    Takes upToDate (s.messages id) (landsAt s (.cards messageId cards asOf) id)
      ((applyMessageCards s messageId cards asOf).messages id) := by
  rw [landsAt, applyMessageCards]
  cases hheld : s.messages messageId with
  | none => exact takes_nothing hheld id
  | some held =>
    refine takes_change hheld (.cards held cards asOf) ?_ id
    dsimp only
    split
    · exact messages_stay hheld
    · exact messages_withMessage h hheld rfl

theorem takes_applyAgentSteps (h : Holds world s.messages) (steps : List (AgentStep V)) (id : Int) :
    Takes upToDate (s.messages id) (landsAt s (.agentSteps messageId steps) id)
      ((applyAgentSteps s messageId steps).messages id) := by
  rw [landsAt, applyAgentSteps]
  cases hheld : s.messages messageId with
  | none => exact takes_nothing hheld id
  | some held =>
    refine takes_change hheld (.steps held steps) ?_ id
    dsimp only
    cases hmerged : mergeSteps held.steps steps with
    | none => exact messages_stay hheld
    | some merged => exact messages_withMessage h hheld rfl

theorem takes_removeThread {threadId : Int} (h : Holds world s.messages) (parentMessageId : Option Int)
    (accessLost : Bool) (id : Int) :
    Takes upToDate (s.messages id) noVersions ((removeThread s threadId parentMessageId accessLost).messages id) := by
  rw [removeThread]
  generalize hforgotten : (if accessLost then { s with
      messages := fun id => (s.messages id).filter fun message => message.threadId ≠ some threadId
      threadTimelines := Function.update s.threadTimelines threadId none } else s) = forgotten
  -- a reply stays or goes
  have hstays (id : Int) : forgotten.messages id = s.messages id ∨ forgotten.messages id = none := by
    subst hforgotten
    split
    · dsimp only
      cases s.messages id with
      | none => exact .inl rfl
      | some m => by_cases heq : m.threadId = some threadId <;> simp [heq]
    · exact .inl rfl
  have hgone : Takes upToDate (s.messages id) noVersions (forgotten.messages id) := by
    obtain hsame | hnone := hstays id
    · exact hsame ▸ takes_same _
    · exact hnone ▸ .gone _ _
  split
  · exact hgone
  · next parent hparent =>
    obtain ⟨parentId, -, hheld⟩ := Option.bind_eq_some_iff.mp hparent
    have hfound : s.messages parentId = some parent := by
      obtain hsame | hnone := hstays parentId
      · exact hsame ▸ hheld
      · rw [hnone] at hheld
        cases hheld
    obtain ⟨rfl, -⟩ := h parentId parent hfound
    show Takes upToDate _ noVersions
      (Function.update forgotten.messages parent.id (some { parent with thread := none }) id)
    by_cases heq : id = parent.id
    · rw [heq, Function.update_self, hfound]
      exact .aside parent _ rfl
    · rw [Function.update_of_ne heq]
      exact hgone

theorem takes_mergeMessages {copies : List (Message V)} (hnodup : (copies.map (·.id)).Nodup) (id : Int) :
    Takes ((Act.savedPage copies).UpToDate s) (s.messages id) (landsAt s (.savedPage copies) id)
      ((mergeMessages s copies).messages id) := by
  rw [landsAt, mergeMessages_apply hnodup]
  cases s.tombstones id with
  | some expiresAt => exact takes_same _
  | none =>
    simp only [Option.isNone_none, Option.isSome_none, if_true, Bool.false_eq_true, if_false]
    cases hcopy : (copies.find? (·.id = id)).filter fun m =>
        (s.messages id).all fun held => decide (held.updatedAt ≤ m.updatedAt) with
    | none => exact takes_same _
    | some m =>
      obtain ⟨hfound, htaken⟩ := Option.filter_eq_some_iff.mp hcopy
      obtain ⟨hmem, hid⟩ := Lib.mem_of_find?_key hfound
      cases hheld : s.messages id with
      | none => exact .first m
      | some held =>
        have hle : held.updatedAt ≤ m.updatedAt := by simpa [hheld] using htaken
        exact .saved held m hle fun h => h m hmem held (hid ▸ hheld) hle

theorem takes_setPageFailed {roomId : Int} (direction : Option PageDirection) (request : Option Nat) (id : Int) :
    Takes upToDate (s.messages id) noVersions ((setPageFailed s roomId direction request).messages id) := by
  unfold setPageFailed
  cases direction with
  | none => exact takes_same _
  | some direction =>
    dsimp only
    split <;> exact takes_same _

theorem takes_setThreadPageFailed {threadId : Int} (direction : Option PageDirection) (request : Option Nat)
    (id : Int) :
    Takes upToDate (s.messages id) noVersions ((setThreadPageFailed s threadId direction request).messages id) := by
  unfold setThreadPageFailed
  cases direction with
  | none => exact takes_same _
  | some direction =>
    dsimp only
    split <;> exact takes_same _

theorem takes_clearThreadPageLoading {threadId : Int} (direction : Option PageDirection) (request : Option Nat)
    (id : Int) :
    Takes upToDate (s.messages id) noVersions ((clearThreadPageLoading s threadId direction request).messages id) := by
  unfold clearThreadPageLoading
  cases s.threadTimelines threadId with
  | none => exact takes_same _
  | some t =>
    cases direction with
    | none => exact takes_same _
    | some direction =>
      dsimp only
      split <;> exact takes_same _

/-- **What a step makes of a held copy.** -/
theorem takes_perform (h : Inv world s) (act : Act V) (hact : act.Fits world) (id : Int) :
    Takes (act.UpToDate s) (s.messages id) (landsAt s act id) ((perform s act).messages id) := by
  cases act with
  | page c page mode request =>
    cases c with
    | room roomId =>
      have hpage : (withoutRemovedIndicators s page).Fits world (.room roomId) := fits_withoutRemovedIndicators hact
      rw [landsAt, perform, applyPage]
      dsimp only
      split
      · exact takes_same _
      · exact takes_landPage hpage id
    | thread threadId =>
      have hpage : page.Fits world (.thread threadId) := hact
      rw [landsAt, perform, applyThreadPage]
      dsimp only
      split
      · exact takes_same _
      · exact takes_landPage hpage id
  | pageLoading c direction => cases c <;> exact takes_same _
  | pageReplacing c => cases c <;> exact takes_same _
  | pageFailed c direction request =>
    cases c with
    | room roomId => exact takes_setPageFailed direction request id
    | thread threadId => exact takes_setThreadPageFailed direction request id
  | clearThreadPageLoading threadId direction request => exact takes_clearThreadPageLoading direction request id
  | moveUnreadDivider roomId fromId =>
    rw [perform, moveUnreadDivider]
    split
    · exact takes_same _
    · split <;> exact takes_same _
  | clearUnreadDivider roomId =>
    rw [perform, clearUnreadDivider]
    split
    · exact takes_same _
    · split <;> exact takes_same _
  | roomDetail roomId firstUnread count => exact takes_same _
  | addPending pending =>
    rw [perform, (samePlace_addPending s pending).messages]
    exact takes_same _
  | discardPending clientMessageId =>
    rw [perform, (samePlace_removePending s clientMessageId).messages]
    exact takes_same _
  | receiveMessage message => exact takes_receiveMessage hact id
  | updateMessage message => exact takes_updateMessage hact id
  | removeMessage messageId roomId threadId now =>
    rw [perform, (messages_removeMessage s messageId roomId threadId now).1]
    have hgone := @Takes.gone V _ True (s.messages messageId) noVersions
    have htakes := takes_update s.messages hgone id
    rwa [ite_self] at htakes
  | prune now => exact takes_same _
  | reactions messageId reactions updatedAt => exact takes_setReactions h.holds reactions updatedAt id
  | pinState messageId pinned => exact takes_setPinState h.holds pinned id
  | threadIndicator parentMessageId thread => exact takes_setThreadIndicator h.holds thread id
  | poll messageId poll => exact takes_applyPoll h.holds poll id
  | cards messageId cards asOf => exact takes_applyMessageCards h.holds cards asOf id
  | agentSteps messageId steps => exact takes_applyAgentSteps h.holds steps id
  | removeThread threadId parentMessageId accessLost => exact takes_removeThread h.holds parentMessageId accessLost id
  | threadParent parent =>
    have hparent : parent.Fits world := hact
    rw [perform, loadThreadParent_eq h.holds hparent]
    exact takes_update s.messages (takes_kept hparent true) id
  | reviveThread threadId => exact takes_same _
  | savedPage messages => exact takes_mergeMessages hact.1 id

/-! ## 3. What came -/

/-- The reactions of a version of the fields, and their moment. -/
def Fields.reacted (f : Fields V) : Reactions V := ⟨f.updatedAt, f.reactions⟩

/-- The reactions that came, with whole copies and by themselves. -/
def Versions.reacted (v : Versions V) : List (Reactions V) := v.copies.map Fields.reacted ++ v.reactions

/-- The versions of the fields are those that came: with a whole copy, or reactions over the held ones. -/
structure Sourced (v : Versions V) : Prop where
  copies : ∀ f ∈ v.copies, f ∈ v.fields
  reactions : ∀ r ∈ v.reactions, ∃ f ∈ v.fields, f.reacted = r
  fields : ∀ f ∈ v.fields, f ∈ v.copies ∨ f.reacted ∈ v.reactions

omit [DecidableEq V] in
theorem sourced_noVersions : Sourced (noVersions : Versions V) :=
  ⟨fun _ hf => (by cases hf), fun _ hr => (by cases hr), fun _ hf => (by cases hf)⟩

omit [DecidableEq V] in
theorem sourced_versions (m : Message V) : Sourced m.versions :=
  ⟨fun _ hf => hf, fun _ hr => (by cases hr), fun _ hf => .inl hf⟩

omit [DecidableEq V] in
theorem Sourced.append {v w : Versions V} (hv : Sourced v) (hw : Sourced w) : Sourced (v.append w) := by
  refine ⟨fun f hf => ?_, fun r hr => ?_, fun f hf => ?_⟩
  · exact List.mem_append.mpr ((List.mem_append.mp hf).imp (hv.copies f) (hw.copies f))
  · rcases List.mem_append.mp hr with hr | hr
    · obtain ⟨f, hf, rfl⟩ := hv.reactions r hr
      exact ⟨f, List.mem_append_left _ hf, rfl⟩
    · obtain ⟨f, hf, rfl⟩ := hw.reactions r hr
      exact ⟨f, List.mem_append_right _ hf, rfl⟩
  · rcases List.mem_append.mp hf with hf | hf
    · exact (hv.fields f hf).imp (List.mem_append_left _) (List.mem_append_left _)
    · exact (hw.fields f hf).imp (List.mem_append_right _) (List.mem_append_right _)

omit [DecidableEq V] in
theorem sourced_ite {c : Prop} [Decidable c] {v : Versions V} (h : Sourced v) :
    Sourced (if c then v else noVersions) := by
  split
  · exact h
  · exact sourced_noVersions

omit [DecidableEq V] in
theorem sourced_elim (m : Option (Message V)) : Sourced (m.elim noVersions Message.versions) := by
  cases m with
  | none => exact sourced_noVersions
  | some m => exact sourced_versions m

omit [DecidableEq V] in
/-- **What lands in a step came with it.** -/
theorem sourced_landsAt (s : State V) (act : Act V) (id : Int) : Sourced (landsAt s act id) := by
  have hpage (t : Timeline) (page : MessagePage V) (mode : PageMode) : Sourced (landedAt s t page mode id) :=
    sourced_ite (sourced_elim _)
  cases act with
  | page c page mode request =>
    cases c with
    | room roomId =>
      rw [landsAt]
      split
      · exact sourced_noVersions
      · exact hpage _ _ _
    | thread threadId =>
      rw [landsAt]
      split
      · exact sourced_noVersions
      · exact hpage _ _ _
  | receiveMessage message => exact sourced_ite (sourced_versions message)
  | updateMessage message => exact sourced_ite (sourced_versions message)
  | threadParent message => exact sourced_ite (sourced_versions message)
  | reactions messageId reactions updatedAt =>
    refine sourced_ite ?_
    cases s.messages messageId with
    | none => exact sourced_noVersions
    | some held =>
      refine ⟨fun _ hf => (by cases hf), fun r hr => ?_, fun f hf => .inr ?_⟩
      · obtain rfl := List.mem_singleton.mp hr
        exact ⟨_, List.mem_singleton_self _, rfl⟩
      · obtain rfl := List.mem_singleton.mp hf
        exact List.mem_singleton_self _
  | poll messageId poll =>
    exact sourced_ite ⟨fun _ hf => (by cases hf), fun _ hr => (by cases hr), fun _ hf => (by cases hf)⟩
  | cards messageId cards asOf =>
    exact sourced_ite ⟨fun _ hf => (by cases hf), fun _ hr => (by cases hr), fun _ hf => (by cases hf)⟩
  | agentSteps messageId steps =>
    exact sourced_ite ⟨fun _ hf => (by cases hf), fun _ hr => (by cases hr), fun _ hf => (by cases hf)⟩
  | savedPage messages => exact sourced_ite (sourced_elim _)
  | _ => exact sourced_noVersions

/-! ## 4. Tombstones -/

theorem tombstones_landPage : (landPage s t page mode).1.tombstones = s.tombstones := by
  obtain ⟨mode', -, hlanded⟩ | ⟨-, hstate, -⟩ := landPage_eq s t page mode
  · rw [hlanded]
    exact tombstones_landWindow
  · rw [hstate]

theorem tombstones_receiveMessage (m : Message V) : (receiveMessage s m).tombstones = s.tombstones := by
  have hsame := (samePlace_removePending s m.clientMessageId).tombstones
  unfold receiveMessage
  dsimp only
  split
  · exact hsame
  cases reconcileMessage ((removePending s m.clientMessageId).messages m.id) m false with
  | none => exact hsame
  | some kept' =>
    dsimp only
    cases messageTimeline (removePending s m.clientMessageId) m with
    | none =>
      dsimp only
      split <;> exact hsame
    | some t =>
      dsimp only
      rw [withMessageTimeline_eq, withMessageTimeline_eq]
      split
      · split
        · split <;> exact hsame
        · exact tombstones_putWindow.trans hsame
      · exact tombstones_putWindow.trans hsame

/-- **Only a removal leaves a tombstone**, and then no message. -/
theorem tombstones_perform (s : State V) (act : Act V) {id : Int} (hid : ((perform s act).tombstones id).isSome) :
    (s.tombstones id).isSome ∨ (perform s act).messages id = none := by
  cases act with
  | removeMessage messageId roomId threadId now =>
    obtain ⟨hmessages, htombstones⟩ := messages_removeMessage s messageId roomId threadId now
    rw [perform] at hid ⊢
    rw [htombstones] at hid
    rw [hmessages]
    by_cases heq : id = messageId
    · exact .inr (heq ▸ Function.update_self ..)
    · rw [Function.update_of_ne heq] at hid
      exact .inl hid
  | prune now =>
    obtain ⟨expiresAt, hexpires⟩ := Option.isSome_iff_exists.mp hid
    exact .inl (Option.isSome_iff_exists.mpr ⟨expiresAt, (Option.filter_eq_some_iff.mp hexpires).1⟩)
  | page c page mode request =>
    refine .inl ?_
    cases c with
    | room roomId =>
      rw [perform, applyPage] at hid
      dsimp only at hid
      split at hid
      · exact hid
      · generalize timelineOf s roomId = t, withoutRemovedIndicators s page = page at hid
        have hlanded : ((landPage s t page mode).1.tombstones id).isSome := hid
        rwa [tombstones_landPage] at hlanded
    | thread threadId =>
      rw [perform, applyThreadPage] at hid
      dsimp only at hid
      split at hid
      · exact hid
      · have hlanded : ((landPage s (threadTimelineOf s threadId) page mode).1.tombstones id).isSome := hid
        rwa [tombstones_landPage] at hlanded
  | pageLoading c direction => cases c <;> exact .inl hid
  | pageReplacing c => cases c <;> exact .inl hid
  | pageFailed c direction request =>
    refine .inl ?_
    cases c with
    | room roomId =>
      cases direction with
      | none => exact hid
      | some direction =>
        rw [perform, setPageFailed] at hid
        split at hid <;> exact hid
    | thread threadId =>
      cases direction with
      | none => exact hid
      | some direction =>
        rw [perform, setThreadPageFailed] at hid
        split at hid <;> exact hid
  | clearThreadPageLoading threadId direction request =>
    refine .inl ?_
    rw [perform, clearThreadPageLoading] at hid
    split at hid
    · exact hid
    · split at hid
      · split at hid <;> exact hid
      · exact hid
  | moveUnreadDivider roomId fromId =>
    rw [perform, moveUnreadDivider] at hid
    split at hid
    · exact .inl hid
    · split at hid <;> exact .inl hid
  | clearUnreadDivider roomId =>
    rw [perform, clearUnreadDivider] at hid
    split at hid
    · exact .inl hid
    · split at hid <;> exact .inl hid
  | roomDetail roomId firstUnread count => exact .inl hid
  | addPending pending => exact .inl ((samePlace_addPending s pending).tombstones ▸ hid)
  | discardPending clientMessageId => exact .inl ((samePlace_removePending s clientMessageId).tombstones ▸ hid)
  | receiveMessage message => exact .inl (tombstones_receiveMessage message ▸ hid)
  | updateMessage message =>
    rw [perform, updateMessage] at hid
    split at hid
    · exact .inl hid
    · split at hid <;> exact .inl hid
  | reactions messageId reactions updatedAt =>
    rw [perform, setReactions] at hid
    split at hid
    · exact .inl hid
    · split at hid <;> exact .inl hid
  | pinState messageId pinned =>
    rw [perform, setPinState] at hid
    split at hid
    · exact .inl hid
    · split at hid <;> exact .inl hid
  | threadIndicator parentMessageId thread =>
    rw [perform, setThreadIndicator] at hid
    split at hid <;> exact .inl hid
  | poll messageId poll =>
    rw [perform, applyPoll] at hid
    split at hid
    · exact .inl hid
    · split at hid <;> exact .inl hid
  | cards messageId cards asOf =>
    rw [perform, applyMessageCards] at hid
    split at hid
    · exact .inl hid
    · split at hid <;> exact .inl hid
  | agentSteps messageId steps =>
    rw [perform, applyAgentSteps] at hid
    split at hid
    · exact .inl hid
    · split at hid <;> exact .inl hid
  | removeThread threadId parentMessageId accessLost =>
    rw [perform, removeThread] at hid
    split at hid <;> split at hid <;> exact .inl hid
  | threadParent parent =>
    rw [perform, loadThreadParent] at hid
    split at hid <;> exact .inl hid
  | reviveThread threadId => exact .inl hid
  | savedPage messages => exact .inl hid

end Takes

section Removed

variable {s : State V}

/-- The thread's detail does not bring a removed parent: that its parent was removed it does not look at. -/
def Act.BringsNoRemoved (s : State V) : Act V → Prop
  | .threadParent parent => s.tombstones parent.id = none
  | _ => True

/-- Nothing lands of a removed message. -/
theorem landsAt_removed {act : Act V} {id : Int} (hact : act.BringsNoRemoved s) (hgone : s.messages id = none)
    (hid : (s.tombstones id).isSome) : landsAt s act id = noVersions := by
  have hsome : (s.tombstones id).isNone = false := by simpa using hid
  cases act with
  | page c page mode request => cases c <;> simp [landsAt, landedAt, hsome]
  | threadParent parent =>
    have hne : parent.id ≠ id := by
      rintro rfl
      simp [show s.tombstones parent.id = none from hact] at hid
    rw [landsAt, if_neg hne]
  | _ => simp [landsAt, hsome, hgone]

end Removed

end Smartfire.Timelines
