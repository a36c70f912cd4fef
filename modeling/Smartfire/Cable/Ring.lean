/-
  File:      Smartfire/Cable/Ring.lean
  Subject:   The replay ring of the sync engine (crates/cable/src/sync.rs): publications, entries,
             and the operations of `Ring` under its lock.

  Clock readings are numbers handed to each operation; the random epoch is a field of `Engine`.

  * `SyncPublication`, `Entry`, `encodeEvent` -- an event as published and as it stands in the
    ring, already encoded; a payload is a subtype, since `encode_event` needs a JSON object;
  * `RingState` with `evict`, `append`, `push`, `pushGap`, `read`, `skip`, `resume`, `gapNeeded`;
  * `RingState.Keeps r log` -- the ring holds the end of the log of everything it was given: the
    entries past `evictedThrough`. Every operation keeps it, so reading at a cursor gives the
    log's entries past the cursor, or says that the ring has lost some.
-/
import Smartfire.Lib.Log

namespace Smartfire

open Lib

/-! ## 1. Settings, publications, entries -/

/-- The ring and batching settings (`SyncConfig`). -/
structure SyncConfig where
  /-- Events kept for replay at most. -/
  ringCapacity : Nat
  /-- How long an event stays replayable at most. -/
  ringMaxAge : Nat
  /-- How long a connection holds events before writing them as one batch. -/
  flushInterval : Nat
  /-- Events per batch at most. -/
  flushMax : Nat
  /-- Conversation topics one connection may hold at most. -/
  maxTopics : Nat
deriving DecidableEq, Repr

/-- The settings' defaults, times in milliseconds. -/
def SyncConfig.default : SyncConfig where
  ringCapacity := 20000
  ringMaxAge := 15 * 60 * 1000
  flushInterval := 25
  flushMax := 64
  maxTopics := 256

/-- The engine's settings and its epoch, random per boot. -/
structure Engine where
  config : SyncConfig
  epoch : String
deriving DecidableEq, Repr

/-- Who an event is for. -/
inductive Audience where
  | user (id : Int)
  | everyone
  | topic (name : String)
deriving DecidableEq, Repr

/-- The implicit per-person topic. -/
def userTopic : String := "user"

def Audience.topicName : Audience → String
  | .user _ => userTopic
  | .everyone => userTopic
  | .topic name => name

/-- Unicode `White_Space`, which `trim_start` drops. -/
def isWhitespace (c : Char) : Bool :=
  let n := c.toNat
  (9 ≤ n && n ≤ 13) || n == 32 || n == 0x85 || n == 0xA0 || n == 0x1680 ||
    (0x2000 ≤ n && n ≤ 0x200A) || n == 0x2028 || n == 0x2029 || n == 0x202F || n == 0x205F ||
    n == 0x3000

def trimStart (s : List Char) : List Char := s.dropWhile isWhitespace

/-- What follows the opening brace of an object's text, if the text opens with one. -/
def objectMembers (payload : String) : Option (List Char) :=
  match trimStart payload.toList with
  | c :: members => if c = '\x7b' then some members else none
  | [] => none

/-- The text of a JSON object: what `encode_event` expects of a payload. -/
structure ObjectText where
  text : String
  object : (objectMembers text).isSome = true
deriving DecidableEq

def ObjectText.members (p : ObjectText) : List Char := (objectMembers p.text).get p.object

/-- The empty object. -/
def ObjectText.empty : ObjectText := ⟨"\x7b\x7d", by decide⟩

/-- One character of a JSON string, as `serde_json` writes it. -/
def jsonEscape (c : Char) : String :=
  if c = '"' then "\\\""
  else if c = '\\' then "\\\\"
  else if c.toNat = 8 then "\\b"
  else if c.toNat = 12 then "\\f"
  else if c = '\n' then "\\n"
  else if c = '\r' then "\\r"
  else if c = '\t' then "\\t"
  else if c.toNat < 32 then
    "\\u00" ++ (if c.toNat < 16 then "0" else "") ++ String.ofList (Nat.toDigits 16 c.toNat)
  else String.singleton c

def jsonString (s : String) : String := "\"" ++ String.join (s.toList.map jsonEscape) ++ "\""

/-- The event's text: its sequence and topic, followed by the payload object's members. -/
def encodeEvent (seq : Nat) (topic : String) (payload : ObjectText) : String :=
  let separator := if (trimStart payload.members).head? = some '\x7d' then "" else ","
  "\x7b\"seq\":" ++ toString seq ++ ",\"topic\":" ++ jsonString topic ++ separator ++
    String.ofList payload.members

/-- One event to publish. -/
structure SyncPublication where
  audience : Audience
  payload : ObjectText
  /-- These recipients receive this payload instead, under the same sequence and audience. -/
  personalized : Option (List Int × ObjectText) := none
  /-- Not delivered to this person's connections. -/
  exceptUser : Option Int := none
  /-- Events with the same key replace each other in a connection's pending batch. -/
  coalesce : Option String := none
  /-- The audience's connections stop following this topic. -/
  unsubscribe : Option String := none
  /-- Live only: not replayed to a resuming client. -/
  ephemeral : Bool := false
deriving DecidableEq

/-- An event in the ring, already encoded as it goes into a batch. -/
structure Entry where
  seq : Nat
  audience : Audience
  exceptUser : Option Int
  coalesce : Option String
  unsubscribe : Option String
  ephemeral : Bool
  stamp : Nat
  json : String
  personalized : Option (List Int × String)
  /-- A marker, not an event: the audience's events were skipped here. -/
  gap : Bool
deriving DecidableEq, Repr

/-- The entry of a publication at `seq` (the body of `Ring::push`). -/
def Entry.ofPublication (seq now : Nat) (p : SyncPublication) : Entry where
  seq := seq
  audience := p.audience
  exceptUser := p.exceptUser
  coalesce := p.coalesce
  unsubscribe := p.unsubscribe
  ephemeral := p.ephemeral
  stamp := now
  json := encodeEvent seq p.audience.topicName p.payload
  personalized := p.personalized.map fun q => (q.1, encodeEvent seq p.audience.topicName q.2)
  gap := false

/-- The marker of `Ring::push_gap`: this person's events were skipped here. -/
def Entry.gapMarker (seq now : Nat) (user : Int) : Entry where
  seq := seq
  audience := .user user
  exceptUser := none
  coalesce := none
  unsubscribe := none
  ephemeral := false
  stamp := now
  json := ""
  personalized := none
  gap := true

/-- Whether a connection of `user` following `topics` receives this event. -/
def Entry.deliveredTo (e : Entry) (user : Int) (follows : String → Bool) : Bool :=
  if e.exceptUser = some user then false
  else match e.audience with
    | .user id => id == user
    | .everyone => true
    | .topic name => follows name

def Entry.jsonFor (e : Entry) (user : Int) : String :=
  match e.personalized with
  | some (users, json) => if user ∈ users then json else e.json
  | none => e.json

/-! ## 2. The ring -/

/-- What `Ring` holds under its lock. -/
structure RingState where
  entries : List Entry
  /-- The latest sequence published here (0 before any). -/
  head : Nat
  /-- The latest sequence dropped from the ring (0 before any). -/
  evictedThrough : Nat
  /-- Whether a `hello` has been answered since the last gap. -/
  handedOut : Bool
deriving DecidableEq, Repr

/-- What a cursor reads from the ring. -/
inductive Read where
  /-- The events past the cursor, and the head to move the cursor to. -/
  | events (l : List Entry) (head : Nat)
  /-- The ring dropped events past the cursor; the cursor moves to `head`. -/
  | lost (head : Nat)
deriving DecidableEq, Repr

def RingState.empty : RingState := ⟨[], 0, 0, false⟩

/-- The loop of `Ring::evict`: entries leave at the front while there are too many of them or the
    front one is too old. -/
def evictEntries (cfg : SyncConfig) (now : Nat) : List Entry → Nat → List Entry × Nat
  | [], through => ([], through)
  | front :: rest, through =>
    if (front :: rest).length ≤ cfg.ringCapacity ∧ ¬ cfg.ringMaxAge < now - front.stamp then
      (front :: rest, through)
    else evictEntries cfg now rest front.seq

namespace RingState

variable (cfg : SyncConfig) (now : Nat)

def evict (r : RingState) : RingState :=
  let kept := evictEntries cfg now r.entries r.evictedThrough
  { r with entries := kept.1, evictedThrough := kept.2 }

def append (e : Entry) (r : RingState) : RingState :=
  evict cfg now { r with entries := r.entries ++ [e], head := e.seq }

def push (seq : Nat) (p : SyncPublication) (r : RingState) : RingState :=
  r.append cfg now (Entry.ofPublication seq now p)

def pushGap (seq : Nat) (user : Int) (r : RingState) : RingState :=
  r.append cfg now (Entry.gapMarker seq now user)

/-- The events after `cursor`, or `lost` if the ring no longer holds all of them. -/
def read (cursor : Nat) (r : RingState) : Read × RingState :=
  let r := r.evict cfg now
  if r.evictedThrough > cursor then (.lost r.head, r)
  else (.events (r.entries.dropWhile fun e => e.seq ≤ cursor) r.head, r)

/-- Whether a skip has anything to record. -/
def gapNeeded (r : RingState) : Bool := r.handedOut || !r.entries.isEmpty

/-- Records that the event published at `seq` was skipped. -/
def skip (seq : Nat) (_ : RingState) : RingState := ⟨[], seq, seq, false⟩

/-- Where a `hello` starts reading: the cursor, and whether it resumes there. -/
def resume (epoch : String) (point : Option (String × Int)) (r : RingState) :
    (Nat × Bool) × RingState :=
  let r := { r.evict cfg now with handedOut := true }
  match point with
  | some (e, seq) =>
    if e = epoch ∧ 0 ≤ seq ∧ seq.toNat ≤ r.head ∧ r.evictedThrough ≤ seq.toNat then
      ((seq.toNat, true), r)
    else ((r.head, false), r)
  | none => ((r.head, false), r)

end RingState

/-! ## 3. The ring keeps the end of its log -/

/-- `log` is everything the ring was ever given, and the ring holds the part of it past
    `evictedThrough`. The head is the latest sequence recorded: the last entry's, or a skip's,
    which leaves nothing behind. -/
structure RingState.Keeps (r : RingState) (log : List Entry) : Prop where
  increasing : Increasing Entry.seq log
  bounded : ∀ e ∈ log, e.seq ≤ r.head
  evicted_le : r.evictedThrough ≤ r.head
  entries : r.entries = past Entry.seq r.evictedThrough log
  tip : r.evictedThrough < r.head → ∃ e ∈ log, e.seq = r.head

namespace RingState

variable {cfg : SyncConfig} {now : Nat} {r : RingState} {log : List Entry}

theorem keeps_empty : empty.Keeps [] :=
  ⟨increasing_nil, fun _ h => (List.not_mem_nil h).elim, Nat.le_refl 0, rfl,
    fun h => absurd h (Nat.lt_irrefl 0)⟩

/-- The loop drops a front part of the window and moves the window's start to its last entry. -/
theorem evictEntries_window (cfg : SyncConfig) (now : Nat) (hlog : Increasing Entry.seq log)
    (through : Nat) :
    ∃ t, through ≤ t ∧ (t = through ∨ ∃ e ∈ log, e.seq = t) ∧
      evictEntries cfg now (past Entry.seq through log) through = (past Entry.seq t log, t) := by
  induction hw : past Entry.seq through log generalizing through with
  | nil => exact ⟨through, Nat.le_refl _, .inl rfl, by rw [hw, evictEntries]⟩
  | cons front rest ih =>
    unfold evictEntries
    split
    · exact ⟨through, Nat.le_refl _, .inl rfl, by rw [hw]⟩
    · have hfront : front ∈ past Entry.seq through log := hw ▸ List.mem_cons_self ..
      have hlt : through < front.seq := (mem_past.mp hfront).2
      have hrest : past Entry.seq front.seq log = rest := by
        rw [← past_past (Nat.le_of_lt hlt), hw]
        exact tail_eq_past (hw ▸ hlog.sublist (past_sublist ..))
      obtain ⟨t, hle, ht, he⟩ := ih front.seq hrest
      refine ⟨t, by omega, .inr ?_, he⟩
      rcases ht with rfl | ht
      · exact ⟨front, (mem_past.mp hfront).1, rfl⟩
      · exact ht

/-- **What eviction does**: the window starts at some later point of the log; nothing else
    changes. -/
theorem Keeps.evict_eq (cfg : SyncConfig) (now : Nat) (h : r.Keeps log) :
    ∃ t, r.evictedThrough ≤ t ∧ t ≤ r.head ∧
      r.evict cfg now = ⟨past Entry.seq t log, r.head, t, r.handedOut⟩ := by
  obtain ⟨t, hle, ht, he⟩ := evictEntries_window cfg now h.increasing r.evictedThrough
  refine ⟨t, hle, ?_, ?_⟩
  · rcases ht with rfl | ⟨e, hl, rfl⟩
    · exact h.evicted_le
    · exact h.bounded e hl
  · rw [evict, h.entries, he]

theorem Keeps.evict (h : r.Keeps log) : (r.evict cfg now).Keeps log := by
  obtain ⟨t, hle, hhead, he⟩ := h.evict_eq cfg now
  rw [he]
  exact ⟨h.increasing, h.bounded, hhead, rfl, fun ht => h.tip (Nat.lt_of_le_of_lt hle ht)⟩

theorem Keeps.push_back (h : r.Keeps log) {e : Entry} (he : r.head < e.seq) :
    Keeps { r with entries := r.entries ++ [e], head := e.seq } (log ++ [e]) where
  increasing := h.increasing.push fun b hb => Nat.lt_of_le_of_lt (h.bounded b hb) he
  bounded b hb := by
    rcases List.mem_append.mp hb with hb | hb
    · exact Nat.le_of_lt (Nat.lt_of_le_of_lt (h.bounded b hb) he)
    · exact Nat.le_of_eq (congrArg Entry.seq (List.mem_singleton.mp hb))
  evicted_le := Nat.le_trans h.evicted_le (Nat.le_of_lt he)
  entries := by
    rw [past_push (Nat.lt_of_le_of_lt h.evicted_le he), ← h.entries]
  tip _ := ⟨e, List.mem_append_right _ (List.mem_singleton_self e), rfl⟩

/-- **Appending keeps the log**, which grows by the entry. -/
theorem Keeps.append (h : r.Keeps log) {e : Entry} (he : r.head < e.seq) :
    (r.append cfg now e).Keeps (log ++ [e]) :=
  (h.push_back he).evict

/-- **Skipping keeps the log**, of which the ring then holds nothing. -/
theorem Keeps.skip (h : r.Keeps log) {seq : Nat} (hs : r.head < seq) :
    (r.skip seq).Keeps log where
  increasing := h.increasing
  bounded e he := Nat.le_of_lt (Nat.lt_of_le_of_lt (h.bounded e he) hs)
  evicted_le := Nat.le_refl _
  entries := (past_eq_nil.mpr fun e he => Nat.le_of_lt (Nat.lt_of_le_of_lt (h.bounded e he) hs)).symm
  tip ht := absurd ht (Nat.lt_irrefl _)

/-- An empty ring has nothing past its start: the head was evicted or skipped. -/
theorem Keeps.head_eq_of_empty (h : r.Keeps log) (he : r.entries = []) :
    r.head = r.evictedThrough := by
  rcases Nat.lt_or_eq_of_le h.evicted_le with hlt | heq
  · obtain ⟨e, hl, hs⟩ := h.tip hlt
    have := past_eq_nil.mp (h.entries ▸ he) e hl
    omega
  · exact heq.symm

/-- **What a cursor reads**: it lies before the window and is told so, or it gets exactly the
    log's entries past it. -/
theorem Keeps.read_eq (h : r.Keeps log) (cursor : Nat) :
    r.read cfg now cursor =
      (if cursor < (r.evict cfg now).evictedThrough then .lost r.head
        else .events (past Entry.seq cursor log) r.head, r.evict cfg now) := by
  have hk : (r.evict cfg now).Keeps log := h.evict
  have hhead : (r.evict cfg now).head = r.head := rfl
  unfold read
  split
  · next hlt => rw [if_pos hlt, hhead]
  · next hle =>
    rw [if_neg hle, dropWhile_eq_past (hk.entries ▸ hk.increasing.sublist (past_sublist ..)),
      hk.entries, past_past (Nat.not_lt.mp hle), hhead]

/-- **What a resume answers**: a point of this epoch that the ring still covers continues there;
    anything else starts at the head. -/
theorem resume_cases (epoch : String) (point : Option (String × Int)) :
    (∃ p : Int, point = some (epoch, p) ∧ (r.resume cfg now epoch point).1 = (p.toNat, true) ∧
        0 ≤ p ∧ p.toNat ≤ r.head ∧ (r.evict cfg now).evictedThrough ≤ p.toNat) ∨
      (r.resume cfg now epoch point).1 = (r.head, false) := by
  cases point with
  | none => exact .inr rfl
  | some q =>
    unfold resume
    dsimp only
    split
    · next hin => exact .inl ⟨q.2, by rw [← hin.1], rfl, hin.2.1, hin.2.2.1, hin.2.2.2⟩
    · exact .inr rfl

/-- Whatever it answers, a resume evicts and notes that a cursor is being handed out. -/
theorem resume_snd (epoch : String) (point : Option (String × Int)) :
    (r.resume cfg now epoch point).2 = { r.evict cfg now with handedOut := true } := by
  cases point with
  | none => rfl
  | some q =>
    unfold resume
    dsimp only
    split <;> rfl

@[simp] theorem evict_head : (r.evict cfg now).head = r.head := rfl

@[simp] theorem evict_handedOut : (r.evict cfg now).handedOut = r.handedOut := rfl

end RingState

end Smartfire
