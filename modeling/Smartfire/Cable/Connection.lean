/-
  File:      Smartfire/Cable/Connection.lean
  Subject:   One sync socket's `Connection` (crates/cable/src/sync/connection.rs): what it holds,
             how it reads the ring into its pending batch, and how it writes the batch.

  The functions are the source's, on the connection's own fields. A read of the ring is handed to
  `catchUpBefore`; what a `lost` also does to the person's gap marker (`refetched`) is a step of
  its own under another lock and stands in Cable/Task.lean.

  * `Connection` with `add`, `catchUpBefore`, `lost`, `outgoing`, `full`, `takeBatches`,
    `followOne`, `cutOff`; `Wire`, `Session` -- the events handed to the app's session and back;
  * `admitted` -- which of the events read go into the pending batch (`addAll_pending`), all of
    them delivered to the person under the topics followed at the start of the reading;
  * `CatchUp`, `catchUp_outcome` -- the three outcomes of a catch-up over a hub: rolled over,
    skipped, or exactly the log's events past the cursor.
-/
import Smartfire.Cable.Hub
import Smartfire.Lib.Coalesce
import Std.Data.TreeMap

namespace Smartfire

open Lib
open scoped List

/-! ## 1. The connection -/

/-- One sync socket's state once its `hello` is handled. -/
structure Connection where
  userId : Int
  /-- The conversation topics followed, each with the ring's head when it was authorized. -/
  topics : Std.TreeMap String Nat
  /-- Every event read since the last write, in sequence order. -/
  pending : List Entry
  /-- When the pending events must go out, once there are any. -/
  flushAt : Option Nat
  /-- The latest sequence read from the ring. -/
  cursor : Nat

/-- An event's sequence and text as handed to the session, and as it comes back. -/
structure Wire where
  seq : Nat
  json : String
deriving DecidableEq, Repr

/-- What the app's session does to a batch: it may omit events and rewrite their text, retaining
    sequence order (`SyncSession::events_for_viewer`). -/
structure Session where
  eventsForViewer : List Wire → List Wire
  retains : ∀ l, (eventsForViewer l).map Wire.seq <+ l.map Wire.seq

/-- The trait's default: every event as it is. -/
def Session.plain : Session := ⟨id, fun _ => List.Sublist.refl _⟩

namespace Connection

/-- The connection `run` makes for a `hello`. -/
def fresh (user : Int) : Connection := ⟨user, ∅, [], none, 0⟩

def follows (c : Connection) (topic : String) : Bool := c.topics.contains topic

/-- The topics left after an event read at `e.seq`: an unsubscribe older than the topic's
    authorization does not apply. -/
def topicsAfter (c : Connection) (e : Entry) : Std.TreeMap String Nat :=
  match e.unsubscribe with
  | some topic =>
    match c.topics[topic]? with
    | some authorizedAt => if authorizedAt < e.seq then c.topics.erase topic else c.topics
    | none => c.topics
  | none => c.topics

def add (cfg : SyncConfig) (now : Nat) (c : Connection) (e : Entry) : Connection :=
  if e.deliveredTo c.userId c.follows then
    { c with
      topics := c.topicsAfter e
      pending := c.pending ++ [e]
      flushAt := c.flushAt <|> some (now + cfg.flushInterval) }
  else c

/-- The loop of `catch_up_before` over the events read; a replay leaves out live-only ones. -/
def addAll (cfg : SyncConfig) (now : Nat) (replay : Bool) : Connection → List Entry → Connection
  | c, [] => c
  | c, e :: l => addAll cfg now replay (if replay && e.ephemeral then c else c.add cfg now e) l

/-- The cursor moves to `head` past events this connection did not get. -/
def lost (head : Nat) (c : Connection) : Connection := { c with cursor := head }

/-- The topics a `resync` names. -/
def resyncTopics (c : Connection) : List String := userTopic :: c.topics.keys

/-- The events published before `before`, if there is such a bound. -/
def cutAt (before : Option Nat) (l : List Entry) : List Entry :=
  l.filter fun e => before.all fun b => e.seq < b

/-- The head a reading before `before` moves the cursor to. -/
def headBefore (before : Option Nat) (head cursor : Nat) : Nat :=
  max (match before with | some b => min head (b - 1) | none => head) cursor

/-- A marker of this person's own skipped events. -/
def isGap (user : Int) (e : Entry) : Bool := e.gap && e.deliveredTo user fun _ => false

/-- `catch_up_before` on what the ring answered: the reason of the `resync`, if events were lost. -/
def catchUpBefore (cfg : SyncConfig) (now : Nat) (before : Option Nat) (replay : Bool) (read : Read)
    (c : Connection) : Option String × Connection :=
  match read with
  | .events events head =>
    let events := cutAt before events
    let head := headBefore before head c.cursor
    if events.any (isGap c.userId) then (some "skipped", c.lost head)
    else (none, addAll cfg now replay { c with cursor := head } events)
  | .lost head => (some "ring_rolled_over", c.lost head)

/-- Drops what was read at or past a disconnect. -/
def cutOff (sequence : Nat) (c : Connection) : Connection :=
  { c with pending := c.pending.filter fun e => e.seq < sequence }

/-- The pending events that go out: of those with the same `coalesce` key, only the latest. -/
def outgoing (c : Connection) : List Entry := lastPerKey Entry.coalesce c.pending

/-- Whether a full batch is waiting. -/
def full (cfg : SyncConfig) (c : Connection) : Bool :=
  cfg.flushMax ≤ c.pending.length && cfg.flushMax ≤ c.outgoing.length

/-- The outgoing events as handed to the session. -/
def wires (c : Connection) : List Wire := c.outgoing.map fun e => ⟨e.seq, e.jsonFor c.userId⟩

/-- The batches of `take_batches`: what the session leaves of the outgoing events, in pieces of at
    most `flushMax`. -/
def batches (cfg : SyncConfig) (session : Session) (c : Connection) : List (List Wire) :=
  chunks (max cfg.flushMax 1) (session.eventsForViewer c.wires)

/-- The connection after `take_batches`. -/
def taken (c : Connection) : Connection := { c with pending := [], flushAt := none }

/-- The text of a `batch` frame. -/
def batchText (events : List Wire) : String :=
  "\x7b\"t\":\"batch\",\"events\":[" ++ ",".intercalate (events.map Wire.json) ++ "]\x7d"

/-- `room:<id>` or `thread:<id>`. An id of digits only is as long in bytes as in characters. -/
def conversationTopic (topic : String) : Bool :=
  let id := ("room:".toList.isPrefixOf? topic.toList).orElse fun _ =>
    "thread:".toList.isPrefixOf? topic.toList
  id.any fun id => !id.isEmpty && id.length ≤ 18 && id.all Char.isDigit

/-- One turn of `follow`'s loop, with the ring's head as it stood before the session was asked and
    the session's answer: whether the loop goes on, and the connection. -/
def followOne (cfg : SyncConfig) (head : Nat) (authorized : Bool) (topic : String) (c : Connection) :
    Bool × Connection :=
  if c.follows topic || !conversationTopic topic then (true, c)
  else if cfg.maxTopics ≤ c.topics.size then (false, c)
  else (true, if authorized then { c with topics := c.topics.insert topic head } else c)

/-- An `unsub` frame. -/
def unsub (topics : List String) (c : Connection) : Connection :=
  { c with topics := topics.foldl (fun t topic => t.erase topic) c.topics }

end Connection

/-! ## 2. Delivery -/

/-- Following more topics never takes an event away. -/
theorem Entry.deliveredTo_mono {e : Entry} {user : Int} {f g : String → Bool}
    (hfg : ∀ t, f t = true → g t = true) (h : e.deliveredTo user f = true) :
    e.deliveredTo user g = true := by
  unfold deliveredTo at h ⊢
  split at h
  · cases h
  · next hne =>
    rw [if_neg hne]
    cases ha : e.audience with
    | user id => rw [ha] at h; exact h
    | everyone => rfl
    | topic name => rw [ha] at h; exact hfg name h

@[simp] theorem Entry.gapMarker_isGap (seq now : Nat) (user : Int) :
    Connection.isGap user (.gapMarker seq now user) = true := by
  simp [Connection.isGap, gapMarker, deliveredTo]

/-- A marker in the ring that is delivered to a connection is one of its person's own. -/
theorem Entry.Made.isGap_of_gap {e : Entry} (he : e.Made) {user : Int} {f : String → Bool}
    (hg : e.gap = true) (hd : e.deliveredTo user f = true) : Connection.isGap user e = true := by
  rcases he with ⟨now, p, h⟩ | ⟨now, u, h⟩
  · rw [h] at hg; cases hg
  · rw [h] at hd ⊢
    exact hd

namespace Connection

variable {cfg : SyncConfig} {now : Nat} {replay : Bool} {c : Connection} {e : Entry} {l : List Entry}

theorem add_of_delivered (h : e.deliveredTo c.userId c.follows = true) :
    c.add cfg now e = { c with
      topics := c.topicsAfter e
      pending := c.pending ++ [e]
      flushAt := c.flushAt <|> some (now + cfg.flushInterval) } := if_pos h

theorem add_of_not_delivered (h : e.deliveredTo c.userId c.follows = false) : c.add cfg now e = c :=
  if_neg (by simp [h])

@[simp] theorem add_userId : (c.add cfg now e).userId = c.userId := by
  unfold add; split <;> rfl

@[simp] theorem add_cursor : (c.add cfg now e).cursor = c.cursor := by
  unfold add; split <;> rfl

/-- The topics an event leaves are those held before it, but for the one it unsubscribes. -/
theorem topicsAfter_cases (c : Connection) (e : Entry) :
    (c.topicsAfter e = c.topics ∧ ∀ topic, e.unsubscribe = some topic → ∀ a, c.topics[topic]? = some a →
        e.seq ≤ a) ∨
      ∃ topic a, e.unsubscribe = some topic ∧ c.topics[topic]? = some a ∧ a < e.seq ∧
        c.topicsAfter e = c.topics.erase topic := by
  cases hu : e.unsubscribe with
  | none => exact .inl ⟨by rw [topicsAfter, hu], fun _ h => nomatch h⟩
  | some topic =>
    cases ha : c.topics[topic]? with
    | none =>
      refine .inl ⟨by simp [topicsAfter, hu, ha], fun t ht a hta => ?_⟩
      cases ht
      rw [ha] at hta; cases hta
    | some a =>
      by_cases hlt : a < e.seq
      · exact .inr ⟨topic, a, rfl, ha, hlt, by simp [topicsAfter, hu, ha, hlt]⟩
      · refine .inl ⟨by simp [topicsAfter, hu, ha, hlt], fun t ht b htb => ?_⟩
        cases ht
        rw [ha] at htb; cases htb
        exact Nat.not_lt.mp hlt

/-- Reading an event authorizes nothing. -/
theorem getElem_topicsAfter {t : String} {a : Nat} (h : (c.topicsAfter e)[t]? = some a) :
    c.topics[t]? = some a := by
  rcases c.topicsAfter_cases e with ⟨heq, _⟩ | ⟨topic, b, _, _, _, heq⟩
  · rwa [heq] at h
  · rw [heq, Std.TreeMap.getElem?_erase] at h
    split at h
    · cases h
    · exact h

theorem getElem_add {t : String} {a : Nat} (h : (c.add cfg now e).topics[t]? = some a) :
    c.topics[t]? = some a := by
  unfold add at h
  split at h
  · exact getElem_topicsAfter h
  · exact h

theorem follows_iff {t : String} : c.follows t = true ↔ ∃ a, c.topics[t]? = some a := by
  unfold follows
  rw [Std.TreeMap.contains_eq_isSome_getElem?, Option.isSome_iff_exists]

theorem follows_of_add {t : String} (h : (c.add cfg now e).follows t = true) : c.follows t = true := by
  obtain ⟨a, ha⟩ := follows_iff.mp h
  exact follows_iff.mpr ⟨a, getElem_add ha⟩

/-! ## 3. Which of the events read are admitted -/

@[simp] theorem addAll_nil : addAll cfg now replay c [] = c := rfl

theorem addAll_append (l l' : List Entry) :
    addAll cfg now replay c (l ++ l') = addAll cfg now replay (addAll cfg now replay c l) l' := by
  induction l generalizing c with
  | nil => rfl
  | cons e l ih => exact ih

/-- **An induction over a reading**: what every admitted event keeps, the whole reading keeps. -/
theorem addAll_induct {I : Connection → Prop} (hc : I c)
    (hadd : ∀ c e, e ∈ l → I c → I (c.add cfg now e)) : I (addAll cfg now replay c l) := by
  induction l generalizing c with
  | nil => exact hc
  | cons e l ih =>
    unfold addAll
    refine ih ?_ fun c e he => hadd c e (List.mem_cons_of_mem _ he)
    split
    · exact hc
    · exact hadd c e (List.mem_cons_self ..) hc

@[simp] theorem addAll_userId : (addAll cfg now replay c l).userId = c.userId :=
  addAll_induct (I := fun d => d.userId = c.userId) rfl fun d e _ h => by rw [add_userId, h]

@[simp] theorem addAll_cursor : (addAll cfg now replay c l).cursor = c.cursor :=
  addAll_induct (I := fun d => d.cursor = c.cursor) rfl fun d e _ h => by rw [add_cursor, h]

theorem getElem_addAll {t : String} {a : Nat} (h : (addAll cfg now replay c l).topics[t]? = some a) :
    c.topics[t]? = some a :=
  addAll_induct (I := fun d => d.topics[t]? = some a → c.topics[t]? = some a) id
    (fun _ _ _ ih h => ih (getElem_add h)) h

theorem follows_of_addAll {t : String} (h : (addAll cfg now replay c l).follows t = true) :
    c.follows t = true := by
  obtain ⟨a, ha⟩ := follows_iff.mp h
  exact follows_iff.mpr ⟨a, getElem_addAll ha⟩

/-- The events of a reading that go into the pending batch: those delivered to the person under
    the topics still followed when they are reached, less the live-only ones in a replay. -/
def admitted (cfg : SyncConfig) (now : Nat) (replay : Bool) : Connection → List Entry → List Entry
  | _, [] => []
  | c, e :: l =>
    if replay && e.ephemeral then admitted cfg now replay c l
    else if e.deliveredTo c.userId c.follows then e :: admitted cfg now replay (c.add cfg now e) l
    else admitted cfg now replay c l

/-- **A reading appends what it admits to the pending batch.** -/
theorem addAll_pending :
    (addAll cfg now replay c l).pending = c.pending ++ admitted cfg now replay c l := by
  induction l generalizing c with
  | nil => exact (List.append_nil _).symm
  | cons e l ih =>
    unfold addAll admitted
    by_cases hr : (replay && e.ephemeral) = true
    · rw [if_pos hr, if_pos hr, ih]
    · rw [if_neg hr, if_neg hr, ih]
      by_cases hd : e.deliveredTo c.userId c.follows = true
      · rw [if_pos hd, add_of_delivered hd, List.append_assoc]; rfl
      · rw [if_neg hd, add_of_not_delivered (Bool.eq_false_iff.mpr hd)]

theorem admitted_sublist : admitted cfg now replay c l <+ l := by
  induction l generalizing c with
  | nil => exact List.Sublist.slnil
  | cons e l ih =>
    unfold admitted
    split
    · exact ih.cons e
    · split
      · exact ih.cons_cons e
      · exact ih.cons e

/-- What is admitted was read and is delivered to the person under the topics held before. -/
theorem mem_admitted (h : e ∈ admitted cfg now replay c l) :
    e ∈ l ∧ e.deliveredTo c.userId c.follows = true ∧ (replay && e.ephemeral) = false := by
  induction l generalizing c with
  | nil => cases h
  | cons b l ih =>
    unfold admitted at h
    split at h
    · obtain ⟨hl, hd, hr⟩ := ih h
      exact ⟨List.mem_cons_of_mem _ hl, hd, hr⟩
    · next hr =>
      split at h
      · next hd =>
        rcases List.mem_cons.mp h with rfl | h
        · exact ⟨List.mem_cons_self .., hd, Bool.eq_false_iff.mpr hr⟩
        · obtain ⟨hl, hd', hr'⟩ := ih h
          refine ⟨List.mem_cons_of_mem _ hl, ?_, hr'⟩
          rw [add_userId] at hd'
          exact Entry.deliveredTo_mono (fun t ht => follows_of_add ht) hd'
      · obtain ⟨hl, hd, hr'⟩ := ih h
        exact ⟨List.mem_cons_of_mem _ hl, hd, hr'⟩

/-- **With the topics held fixed, a reading admits exactly what is delivered** to the person under
    them, less the live-only events of a replay. -/
theorem admitted_of_fixed
    (hfix : ∀ t, c.follows t = true → (addAll cfg now replay c l).follows t = true) :
    admitted cfg now replay c l =
      l.filter fun e => e.deliveredTo c.userId c.follows && !(replay && e.ephemeral) := by
  induction l generalizing c with
  | nil => rfl
  | cons e l ih =>
    unfold addAll at hfix
    unfold admitted
    by_cases hr : (replay && e.ephemeral) = true
    · rw [if_pos hr] at hfix
      rw [if_pos hr, List.filter_cons_of_neg (by simp [hr]), ih hfix]
    · rw [if_neg hr] at hfix
      rw [if_neg hr]
      by_cases hd : e.deliveredTo c.userId c.follows = true
      · have hsame : (c.add cfg now e).follows = c.follows := by
          funext t
          rw [Bool.eq_iff_iff]
          exact ⟨fun h => follows_of_add h, fun h => follows_of_addAll (hfix t h)⟩
        rw [if_pos hd, List.filter_cons_of_pos (by simp [hd, hr]),
          ih fun t ht => hfix t (follows_of_add ht), add_userId, hsame]
      · have hadd : c.add cfg now e = c := add_of_not_delivered (Bool.eq_false_iff.mpr hd)
        rw [hadd] at hfix
        rw [if_neg hd, List.filter_cons_of_neg (by simp [hd]), ih hfix]

/-! ## 4. What a reading depends on -/

/-- The entries of a stretch that are delivered to the connection, if it reads all of it. -/
def heard (c : Connection) (l : List Entry) : List Entry := admitted .default 0 false c l

/-- The same person following the same topics. -/
structure SameTopics (c d : Connection) : Prop where
  userId : d.userId = c.userId
  topics : d.topics = c.topics

section SameTopics

variable {d : Connection} {cfg' : SyncConfig} {now' : Nat}

theorem SameTopics.refl (c : Connection) : SameTopics c c := ⟨rfl, rfl⟩

theorem SameTopics.follows (h : SameTopics c d) : d.follows = c.follows := by
  unfold Connection.follows
  rw [h.topics]

theorem SameTopics.delivered (h : SameTopics c d) (e : Entry) :
    e.deliveredTo d.userId d.follows = e.deliveredTo c.userId c.follows := by
  rw [h.userId, h.follows]

theorem SameTopics.topicsAfter (h : SameTopics c d) (e : Entry) :
    d.topicsAfter e = c.topicsAfter e := by
  unfold Connection.topicsAfter
  rw [h.topics]

theorem SameTopics.add (h : SameTopics c d) (e : Entry) :
    SameTopics (c.add cfg now e) (d.add cfg' now' e) := by
  by_cases hd : e.deliveredTo c.userId c.follows = true
  · rw [add_of_delivered hd, add_of_delivered ((h.delivered e).trans hd)]
    exact ⟨h.userId, h.topicsAfter e⟩
  · have hd' : e.deliveredTo c.userId c.follows = false := Bool.eq_false_iff.mpr hd
    rw [add_of_not_delivered hd', add_of_not_delivered ((h.delivered e).trans hd')]
    exact h

theorem SameTopics.addAll (h : SameTopics c d) (l : List Entry) :
    SameTopics (Connection.addAll cfg now replay c l) (Connection.addAll cfg' now' replay d l) := by
  induction l generalizing c d with
  | nil => exact h
  | cons e l ih =>
    unfold Connection.addAll
    split
    · exact ih h
    · exact ih (h.add e)

/-- What a connection admits depends on its person and topics alone. -/
theorem SameTopics.admitted (h : SameTopics c d) (l : List Entry) :
    Connection.admitted cfg now replay c l = Connection.admitted cfg' now' replay d l := by
  induction l generalizing c d with
  | nil => rfl
  | cons e l ih =>
    unfold Connection.admitted
    rw [h.delivered e, ih h, ih (h.add e)]

theorem admitted_cons : Connection.admitted cfg now replay c (e :: l) =
    if replay && e.ephemeral then Connection.admitted cfg now replay c l
    else if e.deliveredTo c.userId c.follows then
      e :: Connection.admitted cfg now replay (c.add cfg now e) l
    else Connection.admitted cfg now replay c l := rfl

theorem addAll_cons : addAll cfg now replay c (e :: l) =
    addAll cfg now replay (if replay && e.ephemeral then c else c.add cfg now e) l := rfl

/-- A reading admits piece by piece. -/
theorem admitted_append (l l' : List Entry) :
    Connection.admitted cfg now replay c (l ++ l') =
      Connection.admitted cfg now replay c l ++
        Connection.admitted cfg now replay (addAll cfg now replay c l) l' := by
  induction l generalizing c with
  | nil => rfl
  | cons e l ih =>
    rw [List.cons_append, admitted_cons, admitted_cons, addAll_cons]
    by_cases hr : (replay && e.ephemeral) = true
    · rw [if_pos hr, if_pos hr, if_pos hr, ih]
    · rw [if_neg hr, if_neg hr, if_neg hr]
      by_cases hd : e.deliveredTo c.userId c.follows = true
      · rw [if_pos hd, if_pos hd, ih, List.cons_append]
      · rw [if_neg hd, if_neg hd, ih, add_of_not_delivered (Bool.eq_false_iff.mpr hd)]

/-- A stretch is heard piece by piece. -/
theorem heard_append (l l' : List Entry) :
    c.heard (l ++ l') = c.heard l ++ (addAll .default 0 false c l).heard l' := admitted_append l l'

/-- **What is heard of a stretch up to a point is what is heard of the stretch's part up to it**:
    later events have no bearing on earlier ones. -/
theorem heard_filter_lt (hl : Increasing Entry.seq l) (d : Nat) :
    (c.heard l).filter (fun e => e.seq < d) = c.heard (l.filter fun e => e.seq < d) := by
  unfold heard
  induction l generalizing c with
  | nil => rfl
  | cons e l ih =>
    obtain ⟨he, hl⟩ := increasing_cons.mp hl
    by_cases hlt : e.seq < d
    · rw [List.filter_cons_of_pos (by simpa using hlt)]
      unfold Connection.admitted
      simp only [Bool.false_and, Bool.false_eq_true, if_false]
      split
      · rw [List.filter_cons_of_pos (by simpa using hlt), ih hl]
      · exact ih hl
    · -- everything from here on is at or past the point
      have hnone : ∀ b ∈ e :: l, ¬ b.seq < d := by
        intro b hb
        rcases List.mem_cons.mp hb with rfl | hb
        · exact hlt
        · have := he b hb
          omega
      rw [List.filter_eq_nil_iff.mpr fun b hb => ?_,
        List.filter_eq_nil_iff.mpr fun b hb => by simpa using hnone b hb]
      · rfl
      · simpa using hnone b (mem_admitted hb).1

/-- What is heard depends on no clock. -/
theorem heard_eq (cfg : SyncConfig) (now : Nat) (c : Connection) (l : List Entry) :
    c.heard l = Connection.admitted cfg now false c l := (SameTopics.refl c).admitted l

end SameTopics

/-! ## 5. Catching up with a hub -/

@[simp] theorem cutAt_none (l : List Entry) : cutAt none l = l := List.filter_eq_self.mpr fun _ _ => rfl

@[simp] theorem mem_cutAt {before : Option Nat} :
    e ∈ cutAt before l ↔ e ∈ l ∧ ∀ b, before = some b → e.seq < b := by
  cases before <;> simp [cutAt]

theorem cutAt_sublist (before : Option Nat) (l : List Entry) : cutAt before l <+ l :=
  List.filter_sublist

theorem le_headBefore (before : Option Nat) (head cursor : Nat) :
    cursor ≤ headBefore before head cursor := Nat.le_max_right _ _

theorem headBefore_le {before : Option Nat} {head cursor : Nat} (h : cursor ≤ head) :
    headBefore before head cursor ≤ head := by
  cases before with
  | none => exact Nat.max_le.mpr ⟨Nat.le_refl _, h⟩
  | some b => exact Nat.max_le.mpr ⟨Nat.min_le_left _ _, h⟩

theorem headBefore_none {head cursor : Nat} (h : cursor ≤ head) :
    headBefore none head cursor = head := Nat.max_eq_left h

/-- A read of the hub's ring, and the catch-up on it. -/
def catchUp (cfg : SyncConfig) (now : Nat) (before : Option Nat) (replay : Bool) (h : Hub)
    (c : Connection) : (Option String × Connection) × Hub :=
  let read := h.read cfg now c.cursor
  (c.catchUpBefore cfg now before replay read.1, read.2)

/-- The outcomes of a catch-up over the hub `h`: the window starts past the cursor; a marker of the
    person lies in what is read; or the log's events past the cursor (and before `before`) are
    added. -/
inductive CatchUp (cfg : SyncConfig) (now : Nat) (before : Option Nat) (replay : Bool) (h : Hub)
    (c : Connection) : Option String × Connection → Prop where
  | rolledOver (hlt : c.cursor < (h.evict cfg now).ring.evictedThrough) :
      CatchUp cfg now before replay h c (some "ring_rolled_over", c.lost h.ring.head)
  | skipped (g : Entry) (hg : g ∈ cutAt before (past Entry.seq c.cursor h.log))
      (hgap : isGap c.userId g = true) :
      CatchUp cfg now before replay h c
        (some "skipped", c.lost (headBefore before h.ring.head c.cursor))
  | events (hle : (h.evict cfg now).ring.evictedThrough ≤ c.cursor)
      (hgap : ∀ g ∈ cutAt before (past Entry.seq c.cursor h.log), isGap c.userId g = false) :
      CatchUp cfg now before replay h c
        (none, addAll cfg now replay { c with cursor := headBefore before h.ring.head c.cursor }
          (cutAt before (past Entry.seq c.cursor h.log)))

/-- **A catch-up has one of the three outcomes.** -/
theorem catchUp_outcome (cfg : SyncConfig) (now : Nat) (before : Option Nat) (replay : Bool)
    (h : Hub) (c : Connection) :
    CatchUp cfg now before replay h c (c.catchUp cfg now before replay h).1 := by
  unfold catchUp
  rcases h.read_cases c.cursor with ⟨hr, hlt⟩ | ⟨hr, hle⟩
  · rw [hr]
    exact .rolledOver hlt
  · rw [hr]
    unfold catchUpBefore
    dsimp only
    split
    · next hany =>
      obtain ⟨g, hg, hgap⟩ := List.any_eq_true.mp hany
      exact .skipped g hg hgap
    · next hany =>
      refine .events hle fun g hg => ?_
      rw [Bool.eq_false_iff]
      exact fun hgap => hany (List.any_eq_true.mpr ⟨g, hg, hgap⟩)

@[simp] theorem catchUp_hub {before : Option Nat} {h : Hub} :
    (c.catchUp cfg now before replay h).2 = h.evict cfg now := rfl

section Outcome

variable {before : Option Nat} {h : Hub} {reason : Option String} {conn : Connection}

theorem CatchUp.userId (hc : CatchUp cfg now before replay h c (reason, conn)) :
    conn.userId = c.userId := by
  cases hc with
  | rolledOver => rfl
  | skipped => rfl
  | events => exact addAll_userId

theorem CatchUp.cursor_le (hc : CatchUp cfg now before replay h c (reason, conn))
    (hle : c.cursor ≤ h.ring.head) : conn.cursor ≤ h.ring.head := by
  cases hc with
  | rolledOver => exact Nat.le_refl _
  | skipped => exact headBefore_le hle
  | events =>
    rw [addAll_cursor]
    exact headBefore_le hle

/-- A catch-up that loses events reads none of them. -/
theorem CatchUp.lost_pending {r : String} (hc : CatchUp cfg now before replay h c (some r, conn)) :
    conn.pending = c.pending := by
  cases hc <;> rfl

theorem CatchUp.lost_topics {r : String} (hc : CatchUp cfg now before replay h c (some r, conn)) :
    conn.topics = c.topics := by
  cases hc <;> rfl

/-- What is pending after a catch-up was pending before, or was read in it. -/
theorem CatchUp.pending (hc : CatchUp cfg now before replay h c (reason, conn)) {e : Entry}
    (he : e ∈ conn.pending) :
    e ∈ c.pending ∨ e ∈ h.log ∧ c.cursor < e.seq ∧ (∀ b, before = some b → e.seq < b) := by
  cases hc with
  | rolledOver => exact .inl he
  | skipped => exact .inl he
  | events =>
    rw [addAll_pending] at he
    rcases List.mem_append.mp he with he | he
    · exact .inl he
    · obtain ⟨hpast, hb⟩ := mem_cutAt.mp (mem_admitted he).1
      obtain ⟨hlog, hlt⟩ := mem_past.mp hpast
      exact .inr ⟨hlog, hlt, hb⟩

end Outcome

/-- Following a topic touches nothing but the topics, and authorizes at the head it was given. -/
theorem followOne_eq {head : Nat} {authorized more : Bool} {topic : String} {conn : Connection}
    (hf : c.followOne cfg head authorized topic = (more, conn)) :
    conn = c ∨ c.follows topic = false ∧ conn = { c with topics := c.topics.insert topic head } := by
  unfold followOne at hf
  split at hf
  · cases hf; exact .inl rfl
  · next hnot =>
    split at hf
    · cases hf; exact .inl rfl
    · cases hf
      cases authorized with
      | true => exact .inr ⟨by simp at hnot; exact hnot.1, rfl⟩
      | false => exact .inl rfl

/-! ## 6. What a cursor passes -/

/-- The entries of the log the cursor passed on the way from `c` to `d`. -/
def passed (c d : Connection) (log : List Entry) : List Entry :=
  upTo Entry.seq d.cursor (past Entry.seq c.cursor log)

section Passed

variable {before : Option Nat} {h : Hub} {d conn : Connection} {reason : String}

theorem passed_self (log : List Entry) (hc : d.cursor = c.cursor) : c.passed d log = [] := by
  unfold passed
  rw [hc]
  exact upTo_eq_nil fun e he => (mem_past.mp he).2

/-- What a cursor passes on its way to `headBefore` is what a read hands out. -/
theorem passed_headBefore (hd : d.cursor = headBefore before h.ring.head c.cursor) :
    c.passed d h.log = cutAt before (past Entry.seq c.cursor h.log) := by
  unfold passed upTo cutAt
  rw [hd]
  refine List.filter_congr fun e he => ?_
  obtain ⟨hlog, hlt⟩ := mem_past.mp he
  have hbound := h.keeps.bounded e hlog
  rw [Bool.eq_iff_iff]
  cases before with
  | none =>
    have hmax : e.seq ≤ max h.ring.head c.cursor := Nat.le_trans hbound (Nat.le_max_left ..)
    exact ⟨fun _ => rfl, fun _ => decide_eq_true hmax⟩
  | some b =>
    have hmax : e.seq ≤ max (min h.ring.head (b - 1)) c.cursor ↔ e.seq < b := by omega
    exact decide_eq_true_iff.trans (hmax.trans decide_eq_true_iff.symm)

theorem passed_head (hd : d.cursor = h.ring.head) :
    c.passed d h.log = past Entry.seq c.cursor h.log := by
  unfold passed
  rw [hd]
  exact upTo_eq_self fun e he => h.keeps.bounded e (mem_past.mp he).1

/-- A catch-up that loses nothing reads up to its cursor. -/
theorem CatchUp.reads (hc : CatchUp cfg now before replay h c (none, conn)) :
    c.cursor ≤ conn.cursor ∧ ∀ e ∈ conn.pending, e ∈ c.pending ∨ e.seq ≤ conn.cursor := by
  cases hc with
  | events hle hgap =>
    have hpassed : c.passed (addAll cfg now replay
        { c with cursor := headBefore before h.ring.head c.cursor }
        (cutAt before (past Entry.seq c.cursor h.log))) h.log =
          cutAt before (past Entry.seq c.cursor h.log) := passed_headBefore addAll_cursor
    refine ⟨by rw [addAll_cursor]; exact le_headBefore _ _ _, fun e he => ?_⟩
    rw [addAll_pending] at he
    refine (List.mem_append.mp he).imp_right fun he => ?_
    have hin := (mem_admitted he).1
    rw [← hpassed] at hin
    exact (mem_upTo.mp hin).2

/-- A reading before `d` leaves nothing before `d` past the cursor. -/
theorem CatchUp.le_cursor {d : Nat} (hc : CatchUp cfg now (some d) replay h c (none, conn))
    (he : e ∈ h.log) (hlt : e.seq < d) : e.seq ≤ conn.cursor := by
  cases hc with
  | events =>
    rw [addAll_cursor]
    have hle := h.keeps.bounded e he
    have hmin : e.seq ≤ min h.ring.head (d - 1) := by omega
    exact Nat.le_trans hmin (Nat.le_max_left _ _)

/-- A catch-up that loses events moves the cursor on, past a marker or past the window's start. -/
theorem CatchUp.loses (hc : CatchUp cfg now before replay h c (some reason, conn))
    (hle : c.cursor ≤ h.ring.head) :
    c.cursor ≤ conn.cursor ∧ (c.cursor < (h.evict cfg now).ring.evictedThrough ∨
      ∃ g ∈ h.log, isGap c.userId g = true ∧ c.cursor < g.seq) := by
  cases hc with
  | rolledOver hlt => exact ⟨hle, .inl hlt⟩
  | skipped g hg hgap =>
    obtain ⟨hlog, hlt⟩ := mem_past.mp (mem_cutAt.mp hg).1
    exact ⟨le_headBefore _ _ _, .inr ⟨g, hlog, hgap, hlt⟩⟩

end Passed

end Connection

end Smartfire
