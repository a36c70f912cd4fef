/-
  File:      Smartfire/Cable/Topics.lean
  Subject:   Revoked topics: an event with `unsubscribe` ends what was authorized before it.

  A connection drops a topic when it reads such an event. Where its cursor moves over events it does
  not read, it keeps the topic, and goes on putting the topic's events into its batches: in a stretch
  lost to a rollover or to a gap marker, between the authorization of a `hello`'s topics and the
  cursor its `welcome` starts at, and at a live-only event left out of a replay.

  * `Connection.heard`, `Connection.revokedBy` -- what is delivered along a stretch of the log, and
    what of it would end a topic;
  * `FollowRecord`, `RevokedStays` -- the record of a run, and the property over it;
  * `revokedStays_of_reach` -- it holds in every run that reads every revocation it passes;
  * `revokedStays_lost` -- and fails in one that loses a revocation together with a gap marker.
-/
import Smartfire.Cable.Socket

namespace Smartfire

open Lib
open scoped List

/-! ## 1. Reading a stretch -/

namespace Connection

/-- Whether the entry would end a topic the connection follows. -/
def revokedBy (c : Connection) (e : Entry) : Bool :=
  e.deliveredTo c.userId c.follows &&
    e.unsubscribe.any fun topic => (c.topics[topic]?).any fun authorizedAt => authorizedAt < e.seq

/-- Whether a replay leaves out an entry that would end a topic. -/
def overlooks (cfg : SyncConfig) (now : Nat) (replay : Bool) : Connection → List Entry → Bool
  | _, [] => false
  | c, e :: l =>
    if replay && e.ephemeral then c.revokedBy e || overlooks cfg now replay c l
    else overlooks cfg now replay (c.add cfg now e) l

/-- Whether a catch-up moves the cursor over an entry that would end a topic, without reading it. -/
def catchUpOverlooks (cfg : SyncConfig) (now : Nat) (before : Option Nat) (replay : Bool) (h : Hub)
    (c : Connection) : Bool :=
  let unread := past Entry.seq c.cursor h.log
  if c.cursor < (h.evict cfg now).ring.evictedThrough then unread.any c.revokedBy
  else if (cutAt before unread).any (isGap c.userId) then (cutAt before unread).any c.revokedBy
  else
    overlooks cfg now replay { c with cursor := headBefore before h.ring.head c.cursor }
      (cutAt before unread)

variable {cfg : SyncConfig} {now : Nat} {replay : Bool} {c d : Connection} {e g : Entry}
  {l : List Entry} {t : String} {a : Nat}

/-- An entry that ends no topic leaves the topics as they are. -/
theorem SameTopics.add_of_not_revoked (h : SameTopics c d) (hr : c.revokedBy e = false) :
    SameTopics c (d.add cfg now e) := by
  by_cases hd : e.deliveredTo c.userId c.follows = true
  · rw [add_of_delivered ((h.delivered e).trans hd)]
    refine ⟨h.userId, ?_⟩
    show d.topicsAfter e = c.topics
    rw [h.topicsAfter e]
    rcases c.topicsAfter_cases e with ⟨heq, _⟩ | ⟨topic, a, hu, ha, hlt, _⟩
    · exact heq
    · simp [revokedBy, hd, hu, ha, hlt] at hr
  · rw [add_of_not_delivered ((h.delivered e).trans (Bool.eq_false_iff.mpr hd))]
    exact h

/-- A stretch that ends no topic may as well not be read. -/
theorem SameTopics.addAll_of_not_revoked (h : SameTopics c d)
    (hr : l.any c.revokedBy = false) : SameTopics c (Connection.addAll cfg now false d l) := by
  induction l generalizing d with
  | nil => exact h
  | cons e l ih =>
    rw [List.any_cons, Bool.or_eq_false_iff] at hr
    exact ih (h.add_of_not_revoked hr.1) hr.2

/-- A reading that overlooks nothing leaves the topics a full reading leaves, and admits nothing
    else. -/
theorem SameTopics.addAll_of_not_overlooked (h : SameTopics c d)
    (ho : overlooks cfg now replay c l = false) :
    SameTopics (Connection.addAll cfg now replay c l) (Connection.addAll cfg now false d l) ∧
      ∀ e ∈ Connection.admitted cfg now replay c l, e ∈ Connection.admitted cfg now false d l := by
  induction l generalizing c d with
  | nil => exact ⟨h, fun _ he => he⟩
  | cons e l ih =>
    unfold overlooks at ho
    unfold Connection.addAll Connection.admitted
    simp only [Bool.false_and, Bool.false_eq_true, if_false]
    by_cases hr : (replay && e.ephemeral) = true
    · rw [if_pos hr, Bool.or_eq_false_iff] at ho
      rw [if_pos hr, if_pos hr]
      obtain ⟨hsame, hsub⟩ := ih (h.add_of_not_revoked ho.1) ho.2
      refine ⟨hsame, fun b hb => ?_⟩
      split
      · exact List.mem_cons_of_mem _ (hsub b hb)
      · next hd =>
        have hadd : d.add cfg now e = d := add_of_not_delivered (Bool.eq_false_iff.mpr hd)
        rw [← hadd]
        exact hsub b hb
    · rw [if_neg hr] at ho
      rw [if_neg hr, if_neg hr, h.delivered e]
      obtain ⟨hsame, hsub⟩ := ih (h.add e) ho
      refine ⟨hsame, fun b hb => ?_⟩
      split at hb
      · next hd =>
        rw [if_pos hd]
        rcases List.mem_cons.mp hb with rfl | hb
        · exact List.mem_cons_self ..
        · exact List.mem_cons_of_mem _ (hsub b hb)
      · next hd =>
        have hadd : c.add cfg now e = c := add_of_not_delivered (Bool.eq_false_iff.mpr hd)
        have hadd' : d.add cfg now e = d :=
          add_of_not_delivered ((h.delivered e).trans (Bool.eq_false_iff.mpr hd))
        rw [if_neg hd, ← hadd']
        exact hsub b (hadd.symm ▸ hb)

/-- A topic still held after a delivered revocation of it was authorized at or past it. -/
theorem le_of_getElem_add (hd : e.deliveredTo c.userId c.follows = true)
    (hu : e.unsubscribe = some t) (ha : (c.add cfg now e).topics[t]? = some a) : e.seq ≤ a := by
  rw [add_of_delivered hd] at ha
  have hold : c.topics[t]? = some a := getElem_topicsAfter ha
  rcases c.topicsAfter_cases e with ⟨_, hle⟩ | ⟨topic, b, hu', _, _, heq⟩
  · exact hle t hu a hold
  · rw [hu] at hu'
    cases hu'
    have ha' : (c.topicsAfter e)[t]? = some a := ha
    rw [heq, Std.TreeMap.getElem?_erase_self] at ha'
    cases ha'

/-- **A topic still held after a full reading was authorized at or past every revocation of it the
    reading heard.** -/
theorem le_of_getElem_addAll (hg : g ∈ c.heard l) (hu : g.unsubscribe = some t)
    (ha : (addAll cfg now false c l).topics[t]? = some a) : g.seq ≤ a := by
  rw [heard_eq cfg now] at hg
  induction l generalizing c with
  | nil => cases hg
  | cons e l ih =>
    unfold admitted at hg
    unfold addAll at ha
    simp only [Bool.false_and, Bool.false_eq_true, if_false] at hg ha
    split at hg
    · next hd =>
      rcases List.mem_cons.mp hg with rfl | hg
      · exact le_of_getElem_add hd hu (getElem_addAll ha)
      · exact ih hg ha
    · next hd =>
      rw [add_of_not_delivered (Bool.eq_false_iff.mpr hd)] at ha
      exact ih hg ha

/-- **A topic's event is heard under an authorization at or past every revocation of the topic heard
    before it.** -/
theorem exists_authorization (hl : Increasing Entry.seq l) (he : e ∈ c.heard l)
    (ht : e.audience = .topic t) :
    ∃ a, c.topics[t]? = some a ∧
      ∀ g ∈ c.heard l, g.unsubscribe = some t → g.seq < e.seq → g.seq ≤ a := by
  unfold heard at he ⊢
  induction l generalizing c with
  | nil => cases he
  | cons b l ih =>
    obtain ⟨hb, hl⟩ := increasing_cons.mp hl
    unfold admitted at he ⊢
    simp only [Bool.false_and, Bool.false_eq_true, if_false] at he ⊢
    split at he
    · next hd =>
      rw [if_pos hd]
      rcases List.mem_cons.mp he with rfl | he
      · have hf : c.follows t = true := by
          unfold Entry.deliveredTo at hd
          split at hd
          · cases hd
          · rwa [ht] at hd
        obtain ⟨a, ha⟩ := follows_iff.mp hf
        refine ⟨a, ha, fun g hg _ hlt => ?_⟩
        rcases List.mem_cons.mp hg with rfl | hg
        · omega
        · have := hb g (mem_admitted hg).1
          omega
      · obtain ⟨a, ha, hall⟩ := ih hl he
        refine ⟨a, getElem_add ha, fun g hg hu hlt => ?_⟩
        rcases List.mem_cons.mp hg with rfl | hg
        · exact le_of_getElem_add hd hu ha
        · exact hall g hg hu hlt
    · next hd =>
      rw [if_neg hd]
      exact ih hl he

end Connection

/-! ## 2. The property -/

namespace Connection

/-- The authorizations made on the way from `c` to `d`. -/
def authorizedSince (c d : Connection) : List (String × Nat) :=
  d.topics.toList.filter fun q => c.topics[q.1]? ≠ some q.2

end Connection

/-- The record of a socket's run: every topic followed with the head it was authorized at, and the
    entries the cursor passed that were delivered to the connection. -/
structure FollowRecord where
  follows : List (String × Nat)
  heard : List Entry

def FollowRecord.note (s : Socket) (_ : SocketAct) (s' : Socket) (r : FollowRecord) :
    FollowRecord where
  follows := r.follows ++ s.task.conn.authorizedSince s'.task.conn
  heard := r.heard ++ s.task.conn.heard (s.task.conn.passed s'.task.conn s.hub.log)

/-- A socket in its surroundings, with the record of its run. -/
def followSystem (eng : Engine) (cap : Nat) : System (Socket × FollowRecord) SocketAct :=
  (socketSystem eng cap).recording ⟨[], []⟩ FollowRecord.note

/-- **Revoked topics stay revoked**: where an event of a topic stands in the pending batch, every
    revocation of the topic heard before it was followed by an authorization at or past it. -/
def RevokedStays (s : Socket × FollowRecord) : Prop :=
  ∀ e ∈ s.1.task.conn.pending, ∀ t, e.audience = .topic t → ∀ g ∈ s.2.heard,
    g.unsubscribe = some t → g.seq < e.seq → ∃ a, (t, a) ∈ s.2.follows ∧ g.seq ≤ a

/-- Whether the task's step moves the cursor over an entry that would end a topic, without
    reading it. -/
def Task.overlooks (eng : Engine) (h : Hub) (t : Task) : TaskAct → Bool
  | .resume now =>
    match t.phase with
    | .greeted point [] =>
      (upTo Entry.seq (h.resume eng now point).1.1 (past Entry.seq t.conn.cursor h.log)).any
        t.conn.revokedBy
    | _ => false
  | .catchUp now =>
    match t.phase with
    | .resumed => t.conn.catchUpOverlooks eng.config now none true h
    | .turn => t.conn.catchUpOverlooks eng.config now none false h
    | .cutting sequence _ => t.conn.catchUpOverlooks eng.config now (some sequence) false h
    | _ => false
  | _ => false

/-- Every revocation the socket's step passes, it reads. -/
def ReadsRevocations (eng : Engine) (s : Socket × FollowRecord) : SocketAct → Prop
  | .task a => s.1.task.overlooks eng s.1.hub a = false
  | .around _ => True

instance (eng : Engine) (s : Socket × FollowRecord) (a : SocketAct) :
    Decidable (ReadsRevocations eng s a) := by
  cases a <;> unfold ReadsRevocations <;> infer_instance

/-! ## 3. How a step moves a connection on -/

namespace Connection

/-- What a step that reads every revocation it passes does to the connection. -/
structure Advance (h : Hub) (c d : Connection) : Prop where
  topics : ∀ (t : String) (a : Nat), d.topics[t]? = some a →
    (c.topics[t]? = some a ∧
        ∀ g ∈ c.heard (c.passed d h.log), g.unsubscribe = some t → g.seq ≤ a) ∨
      (a = h.ring.head ∧ d.cursor = c.cursor)
  pending : ∀ e ∈ d.pending, e ∈ c.pending ∨ e ∈ c.heard (c.passed d h.log)
  cursor : c.pending = [] ∨ c.cursor ≤ d.cursor

variable {cfg : SyncConfig} {now : Nat} {before : Option Nat} {replay : Bool} {h : Hub}
  {c d d' conn : Connection} {reason : Option String}

theorem Advance.refl (hc : d.cursor = c.cursor)
    (ht : ∀ (t : String) (a : Nat), d.topics[t]? = some a → c.topics[t]? = some a ∨ a = h.ring.head) (hp : ∀ e ∈ d.pending, e ∈ c.pending) :
    Advance h c d where
  topics t a ha := by
    rcases ht t a ha with ha | ha
    · refine .inl ⟨ha, fun g hg => ?_⟩
      rw [passed_self _ hc] at hg
      cases hg
    · exact .inr ⟨ha, hc⟩
  pending e he := .inl (hp e he)
  cursor := .inr (Nat.le_of_eq hc.symm)

/-- Dropping pending events and topics is part of any advance. -/
theorem Advance.shrink (ha : Advance h c d) (hc : d'.cursor = d.cursor)
    (ht : d'.topics = d.topics) (hp : ∀ e ∈ d'.pending, e ∈ d.pending) : Advance h c d' where
  topics t a hta := by
    have hpassed : c.passed d' h.log = c.passed d h.log := by unfold passed; rw [hc]
    rw [hpassed, hc]
    exact ha.topics t a (ht ▸ hta)
  pending e he := by
    have hpassed : c.passed d' h.log = c.passed d h.log := by unfold passed; rw [hc]
    rw [hpassed]
    exact ha.pending e (hp e he)
  cursor := hc ▸ ha.cursor

/-- A cursor that moves over entries none of which ends a topic. -/
theorem advance_over (ht : d.topics = c.topics) (hp : d.pending = c.pending)
    (hc : c.pending = [] ∨ c.cursor ≤ d.cursor)
    (hr : (c.passed d h.log).any c.revokedBy = false) : Advance h c d where
  topics t a ha := by
    have hsame : SameTopics c (addAll .default 0 false c (c.passed d h.log)) :=
      (SameTopics.refl c).addAll_of_not_revoked hr
    have hold : c.topics[t]? = some a := ht ▸ ha
    exact .inl ⟨hold, fun g hg hu => le_of_getElem_addAll hg hu (hsame.topics ▸ hold)⟩
  pending e he := .inl (hp ▸ he)
  cursor := hc

/-- **A catch-up that overlooks nothing is an advance.** -/
theorem CatchUp.advance (hc : CatchUp cfg now before replay h c (reason, conn))
    (hle : c.cursor ≤ h.ring.head) (ho : c.catchUpOverlooks cfg now before replay h = false) :
    Advance h c conn := by
  unfold catchUpOverlooks at ho
  dsimp only at ho
  cases hc with
  | rolledOver hlt =>
    rw [if_pos hlt] at ho
    refine advance_over rfl rfl (.inr hle) ?_
    rw [passed_head rfl]
    exact ho
  | skipped g hg hgap =>
    have hcut : (cutAt before (past Entry.seq c.cursor h.log)).any c.revokedBy = false := by
      split at ho
      · rw [List.any_eq_false] at ho ⊢
        exact fun e he => ho e ((cutAt_sublist before _).subset he)
      · rwa [if_pos (List.any_eq_true.mpr ⟨g, hg, hgap⟩)] at ho
    refine advance_over rfl rfl (.inr (le_headBefore _ _ _)) ?_
    rw [passed_headBefore rfl]
    exact hcut
  | events hev hgap =>
    have hnone : ¬ (cutAt before (past Entry.seq c.cursor h.log)).any (isGap c.userId) = true := by
      rw [Bool.not_eq_true, List.any_eq_false]
      exact fun g hg => by rw [hgap g hg]; exact Bool.false_ne_true
    rw [if_neg (Nat.not_lt.mpr hev), if_neg hnone] at ho
    have hpassed : c.passed (addAll cfg now replay
        { c with cursor := headBefore before h.ring.head c.cursor }
        (cutAt before (past Entry.seq c.cursor h.log))) h.log =
          cutAt before (past Entry.seq c.cursor h.log) := passed_headBefore addAll_cursor
    have hsame : SameTopics { c with cursor := headBefore before h.ring.head c.cursor } c := ⟨rfl, rfl⟩
    obtain ⟨hafter, hsub⟩ := hsame.addAll_of_not_overlooked ho
    refine ⟨fun t a ha => .inl ?_, fun e he => ?_, .inr ?_⟩
    · rw [hpassed]
      have ha' : (addAll cfg now false c (cutAt before (past Entry.seq c.cursor h.log))).topics[t]? =
          some a := hafter.topics ▸ ha
      exact ⟨getElem_addAll ha', fun g hg hu => le_of_getElem_addAll hg hu ha'⟩
    · rw [hpassed]
      rw [addAll_pending] at he
      rcases List.mem_append.mp he with he | he
      · exact .inl he
      · exact .inr (heard_eq cfg now c _ ▸ hsub e he)
    · rw [addAll_cursor]
      exact le_headBefore _ _ _

end Connection

namespace Task

variable {eng : Engine} {cap : Nat} {h : Hub} {t : Task} {a : TaskAct} {o : Outcome}

/-- An `unsub` authorizes nothing. -/
theorem getElem_unsub {c : Connection} {topics : List String} {topic : String} {authorized : Nat}
    (ha : (c.unsub topics).topics[topic]? = some authorized) : c.topics[topic]? = some authorized := by
  have hfold : ∀ (l : List String) (m : Std.TreeMap String Nat),
      (l.foldl (fun t topic => t.erase topic) m)[topic]? = some authorized →
        m[topic]? = some authorized := by
    intro l
    induction l with
    | nil => exact fun _ h => h
    | cons x l ih =>
      intro m h
      have hx := ih _ h
      rw [Std.TreeMap.getElem?_erase] at hx
      split at hx
      · cases hx
      · exact hx
  exact hfold topics c.topics ha

/-- Following a topic authorizes it at the head. -/
theorem getElem_followOne {c conn : Connection} {topic : String} {authorized more : Bool}
    (hf : c.followOne eng.config h.ring.head authorized topic = (more, conn)) (t : String) (a : Nat)
    (ha : conn.topics[t]? = some a) : c.topics[t]? = some a ∨ a = h.ring.head := by
  rcases Connection.followOne_eq hf with rfl | ⟨_, rfl⟩
  · exact .inl ha
  · have ha' : (c.topics.insert topic h.ring.head)[t]? = some a := ha
    rw [Std.TreeMap.getElem?_insert] at ha'
    split at ha'
    · exact .inr (Option.some.inj ha').symm
    · exact .inl ha'

/-- **A step that reads every revocation it passes is an advance.** -/
theorem Step.advance (hs : Step eng cap h t a o) (hb : t.Bounded h.ring.head)
    (hgreets : t.phase.greets = true → t.conn.pending = [])
    (ho : t.overlooks eng h a = false) : Connection.Advance h t.conn o.task.conn := by
  have hsame : Connection.Advance h t.conn t.conn := .refl rfl (fun _ _ => .inl) fun _ => id
  cases hs with
  | followHello point topic topics rest authorized more conn hp hf =>
    obtain ⟨hc, hpend⟩ := followOne_cursor hf
    exact .refl hc (getElem_followOne hf) fun e he => hpend ▸ he
  | followSub topic topics rest authorized more conn hp hf =>
    obtain ⟨hc, hpend⟩ := followOne_cursor hf
    exact .refl hc (getElem_followOne hf) fun e he => hpend ▸ he
  | unsub topics hp => exact .refl rfl (fun _ _ ha => .inl (getElem_unsub ha)) fun _ => id
  | resumes now p hp h0 hhead hev hr =>
    refine Connection.advance_over rfl rfl (.inl (hgreets (by rw [hp]; rfl))) ?_
    simp only [overlooks, hp, hr] at ho
    exact ho
  | starts now point hp hr =>
    refine Connection.advance_over rfl rfl (.inl (hgreets (by rw [hp]; rfl))) ?_
    simp only [overlooks, hp, hr] at ho
    exact ho
  | replayed now conn hp hc =>
    simp only [overlooks, hp] at ho
    exact (hc.advance hb.cursor ho).shrink rfl rfl fun _ => id
  | replayLost now reason conn hp hc | caughtUp now conn hp hc | catchLost now reason conn hp hc =>
    simp only [overlooks, hp] at ho
    exact hc.advance hb.cursor ho
  | cut now sequence bye conn hp hc =>
    simp only [overlooks, hp] at ho
    exact (hc.advance hb.cursor ho).shrink rfl rfl fun e he => List.mem_of_mem_filter he
  | cutLost now sequence bye reason conn hp hc =>
    simp only [overlooks, hp] at ho
    exact hc.advance hb.cursor ho
  | foundGapped | refetchCut =>
    exact .refl rfl (fun _ _ => .inl) fun e he => List.mem_of_mem_filter he
  | settles now session resync bye hp =>
    have hf : Flushed t.conn (turnFrames eng.config now session resync bye t.conn).2 :=
      flushed_turnFrames
    refine .refl hf.cursor (fun _ _ ha => .inl (hf.topics ▸ ha)) fun e he => ?_
    rcases hf.pending with hnil | hself
    · rw [hnil] at he; cases he
    · rwa [hself] at he
  | _ => exact hsame

end Task

/-! ## 4. The invariant -/

/-- What is followed is on record, and no topic is older than a revocation of it the cursor
    passed; so whatever is pending was read under an authorization that stands. -/
structure FollowInv (s : Socket × FollowRecord) : Prop where
  follows : ∀ (t : String) (a : Nat), s.1.task.conn.topics[t]? = some a → (t, a) ∈ s.2.follows
  applied : ∀ (t : String) (a : Nat), s.1.task.conn.topics[t]? = some a →
    ∀ g ∈ s.2.heard, g.unsubscribe = some t → g.seq ≤ a
  heard : ∀ g ∈ s.2.heard, g.seq ≤ s.1.hub.ring.head
  pending : ∀ e ∈ s.1.task.conn.pending, e.seq ≤ s.1.task.conn.cursor
  greets : s.1.task.phase.greets = true → s.1.task.conn.pending = []
  stays : RevokedStays s

section Advance

variable {s s' : Socket} {r : FollowRecord} {a : SocketAct}

/-- **An advance keeps the invariant.** -/
theorem FollowInv.advance (hi : FollowInv (s, r)) (hgrow : s.hub.Grows s'.hub)
    (ha : Connection.Advance s.hub s.task.conn s'.task.conn)
    (hgreets : s'.task.phase.greets = true → s'.task.conn.pending = []) :
    FollowInv (s', r.note s a s') := by
  have hheard : ∀ g ∈ s.task.conn.heard (s.task.conn.passed s'.task.conn s.hub.log),
      g ∈ s.hub.log ∧ s.task.conn.cursor < g.seq ∧ g.seq ≤ s'.task.conn.cursor := by
    intro g hg
    obtain ⟨hpast, hle⟩ := mem_upTo.mp (Connection.mem_admitted hg).1
    exact ⟨(mem_past.mp hpast).1, (mem_past.mp hpast).2, hle⟩
  have hincreasing : Increasing Entry.seq (s.task.conn.passed s'.task.conn s.hub.log) :=
    (s.hub.keeps.increasing.sublist (past_sublist _ _)).sublist (upTo_sublist _ _)
  refine ⟨fun t b hb => ?_, fun t b hb g hg hu => ?_, fun g hg => ?_, fun e he => ?_, hgreets, ?_⟩
  · by_cases hold : s.task.conn.topics[t]? = some b
    · exact List.mem_append_left _ (hi.follows t b hold)
    · refine List.mem_append_right _ (List.mem_filter.mpr ⟨?_, decide_eq_true hold⟩)
      exact Std.TreeMap.mem_toList_iff_getElem?_eq_some.mpr hb
  · rcases List.mem_append.mp hg with hg | hg
    · rcases ha.topics t b hb with ⟨hold, _⟩ | ⟨rfl, _⟩
      · exact hi.applied t b hold g hg hu
      · exact hi.heard g hg
    · rcases ha.topics t b hb with ⟨_, hnew⟩ | ⟨_, hc⟩
      · exact hnew g hg hu
      · rw [Connection.passed_self _ hc] at hg
        cases hg
  · refine Nat.le_trans ?_ hgrow.head
    rcases List.mem_append.mp hg with hg | hg
    · exact hi.heard g hg
    · exact s.hub.keeps.bounded g (hheard g hg).1
  · rcases ha.pending e he with hold | hnew
    · rcases ha.cursor with hnil | hle
      · rw [hnil] at hold; cases hold
      · exact Nat.le_trans (hi.pending e hold) hle
    · exact (hheard e hnew).2.2
  · intro e he t ht g hg hu hlt
    rcases ha.pending e he with hold | hnew
    · rcases List.mem_append.mp hg with hg | hg
      · obtain ⟨b, hb, hle⟩ := hi.stays e hold t ht g hg hu hlt
        exact ⟨b, List.mem_append_left _ hb, hle⟩
      · -- what was pending lies before all that is heard now
        have hpend : e.seq ≤ s.task.conn.cursor := hi.pending e hold
        have := (hheard g hg).2.1
        omega
    · obtain ⟨b, hb, hall⟩ := Connection.exists_authorization hincreasing hnew ht
      refine ⟨b, List.mem_append_left _ (hi.follows t b hb), ?_⟩
      rcases List.mem_append.mp hg with hg | hg
      · exact hi.applied t b hb g hg hu
      · exact hall g hg hu hlt

end Advance

section Runs

variable {eng : Engine} {cap : Nat} {s : Socket × FollowRecord}

theorem followInv_start (h : (followSystem eng cap).start s) : FollowInv s := by
  obtain ⟨socket, r⟩ := s
  obtain ⟨⟨user, hu⟩, hr⟩ := h
  obtain rfl : r = ⟨[], []⟩ := hr
  have htask : socket.task = .opening user := hu
  have hpend : socket.task.conn.pending = [] := by rw [htask]; rfl
  have hnone : ∀ (t : String) (a : Nat), ¬ socket.task.conn.topics[t]? = some a := by
    intro t a ha
    rw [htask] at ha
    have hempty : (∅ : Std.TreeMap String Nat)[t]? = some a := ha
    rw [Std.TreeMap.getElem?_emptyc] at hempty
    cases hempty
  have hno : ∀ e, e ∉ socket.task.conn.pending := fun e he => by rw [hpend] at he; cases he
  exact ⟨fun t a ha => absurd ha (hnone t a), fun t a ha => absurd ha (hnone t a),
    fun _ hg => (List.not_mem_nil hg).elim, fun e he => absurd he (hno e), fun _ => hpend,
    fun e he => absurd he (hno e)⟩

theorem followInv_reach (h : ReachWhen (followSystem eng cap) (ReadsRevocations eng) s) :
    FollowInv s := by
  refine h.induct (T := followSystem eng cap) (I := FollowInv) (fun s h0 => followInv_start h0)
    fun s a s' hr hi hg hs => ?_
  obtain ⟨socket, r⟩ := s
  obtain ⟨hstep, hnote⟩ := recording_step hs
  obtain ⟨socket', r'⟩ := s'
  obtain rfl : r' = r.note socket a socket' := hnote
  have hb : socket.task.Bounded socket.hub.ring.head := Socket.bounded_reach hr.unrecorded
  have hgrow : socket.hub.Grows socket'.hub := Socket.step_grows hstep
  cases a with
  | around b =>
    have heq : socket.surround eng cap b = socket' := Option.some.inj hstep
    subst heq
    obtain ⟨hp, hc, _⟩ : (socket.surround eng cap b).task.phase = socket.task.phase ∧ _ ∧ _ :=
      socket.surround_eq b
    refine hi.advance hgrow (.refl (by rw [hc]) (fun t a ha => .inl (hc ▸ ha)) fun e he => hc ▸ he) ?_
    rw [hp, hc]
    exact hi.greets
  | task b =>
    obtain ⟨e, ho⟩ := Socket.step_task hstep
    have hcases := Task.step_cases ho
    exact hi.advance hgrow (hcases.advance hb hi.greets hg) (hcases.greets hi.greets)

/-- **Revoked topics stay revoked, in every run that reads every revocation it passes.** -/
theorem revokedStays_of_reach (h : ReachWhen (followSystem eng cap) (ReadsRevocations eng) s) :
    RevokedStays s :=
  (followInv_reach h).stays

end Runs

/-! ## 5. Runs -/

/-- A socket of person 1 that opens on a fresh hub. -/
def freshSocket : Socket × FollowRecord := (⟨.empty, .opening 1⟩, ⟨[], []⟩)

/-- An event of room 1. -/
def roomEvent : SocketAct := .around (.hub (.publish 0 { audience := .topic "room:1", payload := .empty }))

/-- Person 1 leaves room 1. -/
def roomRemoved : SocketAct :=
  .around (.hub (.publish 0 { audience := .user 1, payload := .empty, unsubscribe := some "room:1" }))

/-- The socket follows room 1 and is welcomed. -/
def followRoom : List SocketAct :=
  [.task (.hello none ["room:1"]), .task (.follow true), .task (.resume 0), .task .refetch,
    .task .write]

/-- The person leaves the room between two of its events, and the socket reads all three. -/
theorem revokedStays_of_reach_sample :
    ∃ s, ReachWhen (followSystem testEngine 16) (ReadsRevocations testEngine) s ∧
      (s.1.task.conn.pending.map Entry.seq = [1, 2] ∧ s.2.heard.map Entry.seq = [1, 2]) ∧
      RevokedStays s := by
  obtain ⟨s, hs, hp⟩ := exists_reachWhen_of_replay (T := followSystem testEngine 16)
    (G := ReadsRevocations testEngine) (s := freshSocket)
    (l := followRoom ++ [roomEvent, roomRemoved, roomEvent, .task (.catchUp 0)])
    (p := fun s => s.1.task.conn.pending.map Entry.seq = [1, 2] ∧ s.2.heard.map Entry.seq = [1, 2])
    ⟨⟨1, rfl⟩, rfl⟩ (by decide +kernel)
  exact ⟨s, hs, of_decide_eq_true hp, revokedStays_of_reach hs⟩

/-- The person leaves the room, and a skip's marker follows before the socket reads: the socket
    loses both, and goes on to read the room. -/
def lostRun : List SocketAct :=
  followRoom ++ [roomRemoved, .around (.hub (.pushGap 0 1)), .task (.catchUp 0), .task .refetch,
    .task .poll, .task (.settle 0 .plain), .task .write, .task .proceed, roomEvent,
    .task (.catchUp 0)]

/-- **A lost revocation leaves the topic followed**: the room's event goes into the batch, though the
    only authorization is older than the revocation. -/
theorem revokedStays_lost :
    ∃ s, Reach (followSystem testEngine 16) s ∧ ¬ RevokedStays s := by
  obtain ⟨s, hs, hp⟩ := exists_reachWhen_of_replay (T := followSystem testEngine 16)
    (G := fun _ _ => True) (s := freshSocket) (l := lostRun)
    (p := fun s => (∃ e ∈ s.1.task.conn.pending, e.audience = .topic "room:1" ∧ e.seq = 3) ∧
      (∃ g ∈ s.2.heard, g.unsubscribe = some "room:1" ∧ g.seq = 1) ∧ s.2.follows = [("room:1", 0)])
    ⟨⟨1, rfl⟩, rfl⟩ (by decide +kernel)
  obtain ⟨⟨e, he, ht, hseq⟩, ⟨g, hg, hu, hgseq⟩, hfollows⟩ := of_decide_eq_true hp
  refine ⟨s, hs, fun hstays => ?_⟩
  obtain ⟨a, ha, hle⟩ := hstays e he "room:1" ht g hg hu (by omega)
  rw [hfollows] at ha
  cases List.mem_singleton.mp ha
  omega

end Smartfire
