/-
  File:      Smartfire/Sync/Covered.lean
  Subject:   The client drops no event that a snapshot does not cover.

  The history says what the cursor is and which reads vouch for a watermark. A watermark of the
  epoch the client is in is vouched for; one that outlived its epoch covers nothing, and a batch
  that meets one loses events (`lost_sidebar`, `lost_activity`).

  * `due` -- the events of a batch past the cursor, each at its turn;
  * `Stretch`, `Covered`, `Delivered` -- the property;
  * `Inv`, `Inv.step` -- what the history says of each watermark, and that every step keeps it;
  * **`delivered_of_reach`** -- the property, in every run in which no batch meets an event at or below
    a watermark of another epoch.
-/
import Smartfire.Lib.Log
import Smartfire.Sync.Engine

namespace Smartfire.SyncClient

open Lib

/-! ## 1. The property -/

/-- The events past the cursor, where each moves it. -/
def due : Option Nat → List SyncEvent → List SyncEvent
  | _, [] => []
  | seq, event :: events =>
    if pastCursor seq event.seq then event :: due (some event.seq) events else due seq events

def kindOf (type : EventType) : Option Kind :=
  if isActivity type then some .activity
  else if snapshotEvents type then some .sidebar
  else none

/-- What has been handled since the last welcome, and the cursor before it. -/
structure Stretch where
  welcome : Welcome
  before : Option Point
  handled : List SyncEvent

namespace Stretch

/-- Where the welcome put the cursor. -/
def base (st : Stretch) : Nat :=
  if st.welcome.resumed then (st.before.map (·.seq)).getD st.welcome.seq else st.welcome.seq

/-- The epoch of the welcome, with the greatest sequence handled. -/
def cursor (st : Stretch) : Point :=
  ⟨st.welcome.epoch, ((st.handled.map (·.seq)).getLast?).getD st.base⟩

/-- Handled once, in the order of their sequences, past where the welcome put the cursor. -/
def Ordered (st : Stretch) : Prop := (st.base :: st.handled.map (·.seq)).Pairwise (· < ·)

end Stretch

def stretchStep (st : Option Stretch) : Entry → Option Stretch
  | .welcome frame before => some ⟨frame, before, []⟩
  | .batch point _ events _ =>
    st.map fun st => { st with handled := st.handled ++ due (point.map (·.seq)) events }
  | .received _ | .began _ _ | .installed _ _ _ _ => st

/-- The stretch since the last welcome. -/
def stretch (log : List Entry) : Option Stretch := log.foldl stretchStep none

def receivedEvents (log : List Entry) : List SyncEvent :=
  log.flatMap fun
    | .received events => events
    | _ => []

def batchedEvents (log : List Entry) : List SyncEvent :=
  log.flatMap fun
    | .batch _ _ events _ => events
    | _ => []

/-- A snapshot of the event's kind was installed, in this epoch (a count: in this generation), from a read
that began after a welcome whose replay reaches past the event. -/
def Covered (before : List Entry) (epoch : String) (generation : Nat) (event : SyncEvent) : Prop :=
  ∃ kind frame point read held, kindOf event.type = some kind ∧
    frame.epoch = epoch ∧ event.seq ≤ frame.replayThrough ∧ (kind = .activity → held = generation) ∧
    [.welcome frame point, .began kind read, .installed kind read (some epoch) held].Sublist before

/-- What a batch met and what became of it. -/
def BatchKept (before : List Entry) (point : Option Point) (generation : Nat) (events applied : List SyncEvent) :
    Prop :=
  applied.Sublist (due (point.map (·.seq)) events) ∧
  ∀ event ∈ due (point.map (·.seq)) events, ∃ st, stretch before = some st ∧ point = some st.cursor ∧
    (event ∈ applied ∨ Covered before st.welcome.epoch generation event)

structure Delivered (s : Engine) : Prop where
  /-- Every event received so far has been through a batch, or waits for its own. -/
  received : s.signedOut = false → receivedEvents s.log = batchedEvents s.log ++ s.pending
  /-- Past the cursor, it was applied or is covered. -/
  batches : ∀ before point generation events applied after,
    s.log = before ++ .batch point generation events applied :: after →
    BatchKept before point generation events applied
  /-- The cursor is the greatest sequence handled since the welcome; each was handled once. -/
  cursor : ∀ st, stretch s.log = some st → s.cursor = some st.cursor ∧ st.Ordered

/-! ## 2. A batch -/

section Batches

variable {events : List SyncEvent} {seq : Option Nat} {covered activity : Option Mark} {event : SyncEvent}

/-- What a watermark keeps from being applied. -/
def skipped (covered activityCovered : Option Mark) (event : SyncEvent) : Bool :=
  covers (if isActivity event.type then activityCovered else covered) event.seq && snapshotEvents event.type

/-- The greatest sequence seen. -/
def lastSeq (seq : Option Nat) (events : List SyncEvent) : Option Nat :=
  events.foldl (fun _ event => some event.seq) seq

theorem sift_eq (fresh : List SyncEvent) : sift covered activity events seq fresh =
    (lastSeq seq (due seq events), fresh ++ (due seq events).filter (! skipped covered activity ·)) := by
  induction events generalizing seq fresh with
  | nil => simp [sift, due, lastSeq]
  | cons event events ih =>
    rw [sift, due]
    by_cases hpast : pastCursor seq event.seq = true
    · rw [if_pos hpast, if_pos hpast]
      dsimp only
      by_cases hskip : skipped covered activity event = true
      · have hcond : (!(covers (if isActivity event.type = true then activity else covered) event.seq &&
            snapshotEvents event.type)) = false := by
          rw [← skipped, hskip]
          rfl
        rw [if_neg (by rw [hcond]; exact Bool.false_ne_true), ih, List.filter_cons_of_neg (by simp [hskip])]
        rfl
      · have hcond : (!(covers (if isActivity event.type = true then activity else covered) event.seq &&
            snapshotEvents event.type)) = true := by
          rw [← skipped, Bool.eq_false_iff.mpr hskip]
          rfl
        rw [if_pos hcond, ih, List.filter_cons_of_pos (by simp [hskip]), List.append_assoc]
        rfl
    · rw [if_neg hpast, if_neg hpast, ih]

theorem due_pastCursor (h : event ∈ due seq events) : pastCursor seq event.seq = true := by
  induction events generalizing seq with
  | nil => cases h
  | cons first events ih =>
    rw [due] at h
    split at h
    · next hpast =>
      rcases List.mem_cons.mp h with rfl | h
      · exact hpast
      · have hlater : first.seq < event.seq := by simpa [pastCursor] using ih h
        cases seq with
        | none => rfl
        | some held =>
          have hfirst : held < first.seq := by simpa [pastCursor] using hpast
          simp only [pastCursor, decide_eq_true_eq]
          omega
    · exact ih h

/-- They are handled in the order of their sequences. -/
theorem due_increasing (seq : Option Nat) (events : List SyncEvent) :
    ((due seq events).map (·.seq)).Pairwise (· < ·) := by
  induction events generalizing seq with
  | nil => exact List.Pairwise.nil
  | cons first events ih =>
    rw [due]
    split
    · rw [List.map_cons, List.pairwise_cons]
      refine ⟨fun n hn => ?_, ih _⟩
      obtain ⟨event, hevent, rfl⟩ := List.mem_map.mp hn
      simpa [pastCursor] using due_pastCursor hevent
    · exact ih _

theorem lastSeq_eq (seq : Option Nat) (events : List SyncEvent) :
    lastSeq seq events = ((events.map (·.seq)).getLast?).or seq := by
  induction events generalizing seq with
  | nil => rfl
  | cons event events ih =>
    rw [lastSeq, List.foldl_cons, ← lastSeq, ih, List.map_cons, List.getLast?_cons]
    cases (events.map (·.seq)).getLast? <;> rfl

end Batches

/-! ## 3. The history -/

section History

variable {log more : List Entry} {entry : Entry} {mark : Mark} {later : List Entry} {st : Stretch}

/-- An entry that is neither a welcome nor about a batch. -/
def Entry.isRead : Entry → Bool
  | .began _ _ | .installed _ _ _ _ => true
  | _ => false

theorem stretch_concat (log : List Entry) (entry : Entry) :
    stretch (log ++ [entry]) = stretchStep (stretch log) entry := by
  rw [stretch, List.foldl_append]
  rfl

theorem stretch_read (h : entry.isRead = true) : stretch (log ++ [entry]) = stretch log := by
  rw [stretch_concat]
  cases entry <;> first | rfl | cases h

theorem receivedEvents_read (h : entry.isRead = true) : receivedEvents (log ++ [entry]) = receivedEvents log := by
  cases entry <;> first | (simp [receivedEvents]; done) | cases h

theorem batchedEvents_read (h : entry.isRead = true) : batchedEvents (log ++ [entry]) = batchedEvents log := by
  cases entry <;> first | (simp [batchedEvents]; done) | cases h

/-- A history that grew by a read, or not at all. -/
theorem grown_of_read {log' : List Entry}
    (h : log' = log ∨ ∃ entry, entry.isRead = true ∧ log' = log ++ [entry]) :
    ∃ more, log' = log ++ more ∧ receivedEvents log' = receivedEvents log ∧
      batchedEvents log' = batchedEvents log ∧ stretch log' = stretch log := by
  rcases h with rfl | ⟨entry, hread, rfl⟩
  · exact ⟨[], (List.append_nil _).symm, rfl, rfl, rfl⟩
  · exact ⟨[entry], rfl, receivedEvents_read hread, batchedEvents_read hread, stretch_read hread⟩

/-- A welcome whose replay the mark is, then what came later. -/
def WelcomeIn (log : List Entry) (mark : Mark) (later : List Entry) : Prop :=
  ∃ frame point, frame.epoch = mark.epoch ∧ frame.replayThrough = mark.seq ∧
    (Entry.welcome frame point :: later).Sublist log

theorem WelcomeIn.mono (h : WelcomeIn log mark later) : WelcomeIn (log ++ more) mark later := by
  obtain ⟨frame, point, hepoch, hseq, hsub⟩ := h
  exact ⟨frame, point, hepoch, hseq, hsub.trans (List.sublist_append_left _ _)⟩

theorem WelcomeIn.push (h : WelcomeIn log mark later) (entry : Entry) :
    WelcomeIn (log ++ [entry]) mark (later ++ [entry]) := by
  obtain ⟨frame, point, hepoch, hseq, hsub⟩ := h
  exact ⟨frame, point, hepoch, hseq, hsub.append (List.Sublist.refl _)⟩

theorem welcomeIn_welcome (frame : Welcome) (point : Option Point) :
    WelcomeIn (log ++ [.welcome frame point]) ⟨frame.replayThrough, frame.epoch⟩ [] :=
  ⟨frame, point, rfl, rfl, List.sublist_append_right _ _⟩

/-- The batches of a history are as they should be. -/
def BatchesKept (log : List Entry) : Prop :=
  ∀ before point generation events applied after,
    log = before ++ .batch point generation events applied :: after →
    BatchKept before point generation events applied

theorem BatchesKept.push (h : BatchesKept log) (hentry : ∀ point generation events applied,
    entry = .batch point generation events applied → BatchKept log point generation events applied) :
    BatchesKept (log ++ [entry]) := by
  intro before point generation events applied after hsplit
  rcases append_eq_split hsplit (Nat.le_refl 1) with ⟨rest, hlog, -⟩ | ⟨hone, rfl, -⟩
  · exact h before point generation events applied rest hlog
  · exact hentry point generation events applied (List.cons.inj hone).1

theorem BatchesKept.read (h : BatchesKept log) (hread : entry.isRead = true) : BatchesKept (log ++ [entry]) := by
  refine h.push fun point generation events applied heq => ?_
  rw [heq] at hread
  cases hread

/-- A batch moves the cursor to its last event that is due. -/
theorem cursor_handled {events : List SyncEvent} (st : Stretch) :
    ({ st with handled := st.handled ++ due (some st.cursor.seq) events } : Stretch).cursor =
      ⟨st.cursor.epoch, (lastSeq (some st.cursor.seq) (due (some st.cursor.seq) events)).getD 0⟩ := by
  rw [lastSeq_eq]
  simp only [Stretch.cursor, List.map_append, List.getLast?_append, Stretch.base]
  cases ((due _ events).map (·.seq)).getLast? <;> simp

theorem Stretch.Ordered.handled {events : List SyncEvent} (h : st.Ordered) :
    ({ st with handled := st.handled ++ due (some st.cursor.seq) events } : Stretch).Ordered := by
  have hgreatest : ∀ n ∈ st.base :: st.handled.map (·.seq), n ≤ st.cursor.seq := by
    intro n hn
    cases hlast : (st.handled.map (·.seq)).getLast? with
    | none =>
      have hnil : st.handled.map (·.seq) = [] := List.getLast?_eq_none_iff.mp hlast
      rw [hnil, List.mem_singleton] at hn
      simp [Stretch.cursor, hlast, hn]
    | some last =>
      obtain ⟨front, hfront⟩ := List.getLast?_eq_some_iff.mp hlast
      simp only [Stretch.cursor, hlast, Option.getD_some]
      rw [Stretch.Ordered, hfront, ← List.cons_append, List.pairwise_append] at h
      rw [hfront, ← List.cons_append, List.mem_append, List.mem_singleton] at hn
      rcases hn with hn | rfl
      · exact Nat.le_of_lt (h.2.2 n hn last (List.mem_singleton.mpr rfl))
      · exact Nat.le_refl _
  rw [Stretch.Ordered]
  show ((st.base :: (st.handled ++ due (some st.cursor.seq) events).map (·.seq))).Pairwise (· < ·)
  rw [List.map_append, ← List.cons_append, List.pairwise_append]
  refine ⟨h, due_increasing _ _, fun a ha b hb => ?_⟩
  obtain ⟨event, hevent, rfl⟩ := List.mem_map.mp hb
  have hle := hgreatest a ha
  have hlt : st.cursor.seq < event.seq := by simpa [pastCursor] using due_pastCursor hevent
  omega

end History

/-! ## 4. The invariant -/

/-- The cursor has passed the mark. -/
def Reached (s : Engine) (mark : Mark) : Prop := ∃ point, s.cursor = some point ∧ mark.seq ≤ point.seq

/-- What the history says of cursor and watermarks. -/
structure Core (s : Engine) : Prop where
  batches : BatchesKept s.log
  cursor : ∀ st, stretch s.log = some st → s.cursor = some st.cursor ∧ st.Ordered
  welcomed : s.welcomed = true → ∃ st, stretch s.log = some st
  snapshot : ∀ mark, s.snapshotThrough = some mark → ∃ read held,
    WelcomeIn s.log mark [.began .sidebar read, .installed .sidebar read (some mark.epoch) held]
  generation : s.activitySnapshotThrough.1 ≤ s.generation
  activity : ∀ mark, s.activityCovered = some mark → Reached s mark ∨ ∃ read,
    WelcomeIn s.log mark
      [.began .activity read, .installed .activity read (s.cursor.map (·.epoch)) s.generation]
  /-- A count that still lands in its generation vouches for what it was read for. -/
  counts : ∀ c ∈ s.counts, c.generation ≤ s.generation ∧ ∀ mark, c.through = some mark →
    (c.generation = s.generation → Reached s mark) ∨ WelcomeIn s.log mark [.began .activity c.read]

/-- A resync in the background: it covers no sidebar event. -/
def Beside (log : List Entry) (r : Resync) : Prop :=
  r.sidebarThrough = none ∧ ∀ mark, r.activityThrough = some mark → WelcomeIn log mark []

/-- The sidebar read began after the welcome. -/
def BeganIn (log : List Entry) (mark : Mark) : Stage → Prop
  | .boot => WelcomeIn log mark []
  | .sidebar _ read => WelcomeIn log mark [.began .sidebar read]

/-- A resync the main fiber waits for: the epoch is still the welcome's. -/
structure Awaited (s : Engine) (r : Resync) : Prop where
  activity : ∀ mark, r.activityThrough = some mark → Reached s mark ∨ WelcomeIn s.log mark []
  sidebar : ∀ mark, r.sidebarThrough = some mark →
    s.cursor.map (·.epoch) = some mark.epoch ∧ BeganIn s.log mark r.stage

structure Inv (s : Engine) : Prop where
  core : Core s
  background : ∀ r ∈ s.background, Beside s.log r
  received : s.signedOut = false → receivedEvents s.log = batchedEvents s.log ++ s.pending
  pending : s.pending ≠ [] → s.welcomed = true
  main : ∀ r welcoming rest, s.main = .resync r welcoming rest → Awaited s r
  welcoming : ∀ r rest, s.main = .resync r true rest → ∃ st, stretch s.log = some st

section Frames

variable {s : Engine} {r : Resync} {log more : List Entry} {mark : Mark} {entry : Entry}

theorem Beside.mono (h : Beside log r) : Beside (log ++ more) r :=
  ⟨h.1, fun mark hmark => (h.2 mark hmark).mono⟩

theorem BeganIn.mono {stage : Stage} (h : BeganIn log mark stage) : BeganIn (log ++ more) mark stage := by
  cases stage <;> exact WelcomeIn.mono h

theorem Beside.awaited (h : Beside s.log r) : Awaited s r :=
  ⟨fun mark hmark => .inr (h.2 mark hmark), fun mark hmark => by rw [h.1] at hmark; cases hmark⟩

theorem Core.note (h : Core s) (hread : entry.isRead = true) : Core (s.note [entry]) where
  batches := h.batches.read hread
  cursor st hst := h.cursor st (by rwa [← stretch_read hread])
  welcomed hw := by
    obtain ⟨st, hst⟩ := h.welcomed hw
    exact ⟨st, by rwa [← stretch_read hread] at hst⟩
  snapshot mark hmark := by
    obtain ⟨read, held, hin⟩ := h.snapshot mark hmark
    exact ⟨read, held, hin.mono⟩
  generation := h.generation
  activity mark hmark := (h.activity mark hmark).imp_right fun ⟨read, hin⟩ => ⟨read, hin.mono⟩
  counts c hc := ⟨(h.counts c hc).1, fun mark hmark => ((h.counts c hc).2 mark hmark).imp_right WelcomeIn.mono⟩

/-- One more read of the count. -/
theorem Core.refreshUnreadCount (h : Core s) {through : Option Mark}
    (hthrough : ∀ mark, through = some mark → Reached s mark ∨ WelcomeIn s.log mark []) :
    Core (s.refreshUnreadCount through) := by
  have hnoted : Core (s.note [.began .activity s.reads]) := h.note rfl
  refine ⟨hnoted.batches, hnoted.cursor, hnoted.welcomed, hnoted.snapshot, hnoted.generation, hnoted.activity,
    fun c hc => ?_⟩
  rcases List.mem_append.mp hc with hc | hc
  · exact hnoted.counts c hc
  · rw [List.mem_singleton.mp hc]
    refine ⟨Nat.le_refl _, fun mark hmark => ?_⟩
    rcases hthrough mark hmark with hreached | hin
    · exact .inl fun _ => hreached
    · exact .inr (hin.push _)

theorem stretch_refresh (s : Engine) (through : Option Mark) :
    stretch (s.refreshUnreadCount through).log = stretch s.log := stretch_read rfl

/-- A new generation: no count read before it lands any more. -/
theorem Core.bumped (h : Core s) : Core { s with generation := s.generation + 1 } where
  batches := h.batches
  cursor := h.cursor
  welcomed := h.welcomed
  snapshot := h.snapshot
  generation := Nat.le_succ_of_le h.generation
  activity mark hmark := by
    have hne : s.activitySnapshotThrough.1 ≠ s.generation + 1 := by
      have := h.generation
      omega
    simp only [Engine.activityCovered, if_neg hne] at hmark
    cases hmark
  counts c hc := by
    obtain ⟨hle, hthrough⟩ := h.counts c hc
    refine ⟨Nat.le_succ_of_le hle, fun mark hmark => .inl fun heq => ?_⟩
    have hgen : c.generation = s.generation + 1 := heq
    omega

end Frames

/-! ## 5. A batch against the watermarks -/

/-- The watermark an event meets is a sequence of another epoch, and reaches the event. -/
def Engine.stale (s : Engine) (event : SyncEvent) : Bool :=
  snapshotEvents event.type &&
    match if isActivity event.type then s.activityCovered else s.snapshotThrough with
    | none => false
    | some mark => event.seq ≤ mark.seq && s.cursor.map (·.epoch) ≠ some mark.epoch

section Apply

variable {s : Engine} {events : List SyncEvent} {event : SyncEvent}

/-- What a batch may do. -/
theorem applyEvents_cases (s : Engine) (events : List SyncEvent) :
    (s.signedOut = true ∧ s.applyEvents events = s) ∨
    (s.signedOut = false ∧ s.applyEvents events = { s with signedOut := true }) ∨
    (s.signedOut = false ∧ ∃ more, (∀ r ∈ more, r = ⟨[.user], .boot, none, none⟩) ∧
      s.applyEvents events =
        { s.note [.batch s.cursor s.generation events
            ((due (s.cursor.map (·.seq)) events).filter (! skipped s.snapshotThrough s.activityCovered ·))] with
          cursor := (lastSeq (s.cursor.map (·.seq)) (due (s.cursor.map (·.seq)) events)).map
            fun seq => ⟨(s.cursor.map (·.epoch)).getD "", seq⟩
          background := s.background ++ more }) := by
  cases hout : s.signedOut with
  | true => exact .inl ⟨rfl, by rw [Engine.applyEvents, hout, if_pos rfl]⟩
  | false =>
    refine .inr ?_
    simp only [Engine.applyEvents, hout, Bool.false_eq_true, if_false, sift_eq, List.nil_append]
    split
    · next hsame =>
      -- nothing was past the cursor
      refine .inr ⟨trivial, [], by simp, ?_⟩
      rw [hsame, List.append_nil]
      have hcursor : ((s.cursor.map (·.seq)).map fun seq => (⟨(s.cursor.map (·.epoch)).getD "", seq⟩ : Point)) =
          s.cursor := by
        cases s.cursor <;> rfl
      rw [hcursor]
      rfl
    · split
      · exact .inl ⟨trivial, rfl⟩
      · refine .inr ⟨trivial, ?_⟩
        split
        · exact ⟨[⟨[.user], .boot, none, none⟩], by simp, rfl⟩
        · exact ⟨[], by simp, by rw [List.append_nil]⟩

theorem kindOf_cases (h : snapshotEvents event.type = true) :
    (isActivity event.type = true ∧ kindOf event.type = some .activity) ∨
    (isActivity event.type = false ∧ kindOf event.type = some .sidebar) := by
  cases hactivity : isActivity event.type with
  | true => exact .inl ⟨rfl, by rw [kindOf, if_pos hactivity]⟩
  | false => exact .inr ⟨rfl, by rw [kindOf, hactivity, if_neg Bool.false_ne_true, if_pos h]⟩

theorem covered_of_welcomeIn {log : List Entry} {mark : Mark} {kind : Kind} {read held generation : Nat}
    (hkind : kindOf event.type = some kind) (hseq : event.seq ≤ mark.seq)
    (hheld : kind = .activity → held = generation)
    (h : WelcomeIn log mark [.began kind read, .installed kind read (some mark.epoch) held]) :
    Covered log mark.epoch generation event := by
  obtain ⟨frame, point, hepoch, hthrough, hsub⟩ := h
  exact ⟨kind, frame, point, read, held, hkind, hepoch, by rw [hthrough]; exact hseq, hheld, hsub⟩

/-- **What a watermark of this epoch keeps from being applied is covered.** -/
theorem Core.covered (h : Core s) {point : Point} (hcursor : s.cursor = some point) (hpast : point.seq < event.seq)
    (hstale : s.stale event = false) (hskip : skipped s.snapshotThrough s.activityCovered event = true) :
    Covered s.log point.epoch s.generation event := by
  obtain ⟨hcovers, hsnapshot⟩ := (Bool.and_eq_true _ _).mp hskip
  rw [Engine.stale, hsnapshot, Bool.true_and] at hstale
  have hepochs : s.cursor.map (·.epoch) = some point.epoch := by rw [hcursor]; rfl
  rcases kindOf_cases hsnapshot with ⟨hactivity, hkind⟩ | ⟨hactivity, hkind⟩
  · rw [if_pos hactivity] at hcovers hstale
    cases hmark : s.activityCovered with
    | none => rw [hmark] at hcovers; cases hcovers
    | some mark =>
      rw [hmark] at hcovers hstale
      have hseq : event.seq ≤ mark.seq := of_decide_eq_true hcovers
      have hepoch : point.epoch = mark.epoch := by simpa [hseq, hepochs] using hstale
      rcases h.activity mark hmark with ⟨passed, hpassed, hle⟩ | ⟨read, hin⟩
      · obtain rfl := Option.some.inj (hcursor.symm.trans hpassed)
        omega
      · rw [hepochs, hepoch] at hin
        rw [hepoch]
        exact covered_of_welcomeIn hkind hseq (fun _ => rfl) hin
  · rw [if_neg (by rw [hactivity]; exact Bool.false_ne_true)] at hcovers hstale
    cases hmark : s.snapshotThrough with
    | none => rw [hmark] at hcovers; cases hcovers
    | some mark =>
      rw [hmark] at hcovers hstale
      have hseq : event.seq ≤ mark.seq := of_decide_eq_true hcovers
      have hepoch : point.epoch = mark.epoch := by simpa [hseq, hepochs] using hstale
      obtain ⟨read, held, hin⟩ := h.snapshot mark hmark
      rw [hepoch]
      exact covered_of_welcomeIn hkind hseq (fun hno => by cases hno) hin

/-- A batch keeps what it should. -/
theorem Core.batchKept (h : Core s) (hwelcomed : events ≠ [] → ∃ st, stretch s.log = some st)
    (hstale : ∀ event ∈ due (s.cursor.map (·.seq)) events, s.stale event = false) :
    BatchKept s.log s.cursor s.generation events
      ((due (s.cursor.map (·.seq)) events).filter (! skipped s.snapshotThrough s.activityCovered ·)) := by
  refine ⟨List.filter_sublist, fun event hevent => ?_⟩
  have hne : events ≠ [] := by rintro rfl; cases hevent
  obtain ⟨st, hst⟩ := hwelcomed hne
  have hcursor := (h.cursor st hst).1
  refine ⟨st, hst, hcursor, ?_⟩
  cases hskip : skipped s.snapshotThrough s.activityCovered event with
  | false => exact .inl (List.mem_filter.mpr ⟨hevent, by rw [hskip]; rfl⟩)
  | true =>
    have hpast : st.cursor.seq < event.seq := by
      have := due_pastCursor hevent
      rw [hcursor] at this
      simpa [pastCursor] using this
    exact .inr (h.covered hcursor hpast (hstale event hevent) hskip)

theorem lastSeq_due_le (events : List SyncEvent) (n : Nat) : ∃ k, lastSeq (some n) (due (some n) events) = some k ∧ n ≤ k := by
  rw [lastSeq_eq]
  cases hlast : ((due (some n) events).map (·.seq)).getLast? with
  | none => exact ⟨n, rfl, Nat.le_refl n⟩
  | some k =>
    obtain ⟨event, hevent, rfl⟩ := List.mem_map.mp (List.mem_of_getLast? hlast)
    have hlt : n < event.seq := by simpa [pastCursor] using due_pastCursor hevent
    exact ⟨event.seq, rfl, Nat.le_of_lt hlt⟩

/-- The cursor a batch leaves. -/
theorem cursor_lastSeq {cursor : Option Point} (h : due (cursor.map (·.seq)) events ≠ [] → cursor ≠ none) :
    ((lastSeq (cursor.map (·.seq)) (due (cursor.map (·.seq)) events)).map
      fun seq => (⟨(cursor.map (·.epoch)).getD "", seq⟩ : Point)).map (·.epoch) = cursor.map (·.epoch) := by
  cases cursor with
  | none =>
    have hnil : due ((none : Option Point).map (·.seq)) events = [] := by
      by_contra hne
      exact h hne rfl
    rw [hnil]
    rfl
  | some point =>
    obtain ⟨k, hk, -⟩ := lastSeq_due_le events point.seq
    simp only [Option.map_some, hk, Option.getD_some]

/-- **A batch that meets no watermark of another epoch.** -/
theorem Core.applyEvents (h : Core s) (hwelcomed : events ≠ [] → ∃ st, stretch s.log = some st)
    (hstale : ∀ event ∈ due (s.cursor.map (·.seq)) events, s.stale event = false) :
    Core (s.applyEvents events) := by
  rcases applyEvents_cases s events with ⟨-, heq⟩ | ⟨-, heq⟩ | ⟨-, more, -, heq⟩
  · rw [heq]; exact h
  · rw [heq]
    exact ⟨h.batches, h.cursor, h.welcomed, h.snapshot, h.generation, h.activity, h.counts⟩
  · rw [heq]
    have hkept := h.batchKept hwelcomed hstale
    have hcursor : due (s.cursor.map (·.seq)) events ≠ [] → s.cursor ≠ none := fun hdue hnone => by
      have hne : events ≠ [] := by rintro rfl; exact hdue rfl
      obtain ⟨st, hst⟩ := hwelcomed hne
      rw [(h.cursor st hst).1] at hnone
      cases hnone
    have hepoch := cursor_lastSeq hcursor
    have hreached : ∀ mark, Reached s mark → ∃ point : Point,
        (lastSeq (s.cursor.map (·.seq)) (due (s.cursor.map (·.seq)) events)).map
          (fun seq => (⟨(s.cursor.map (·.epoch)).getD "", seq⟩ : Point)) = some point ∧ mark.seq ≤ point.seq := by
      rintro mark ⟨point, hpoint, hle⟩
      obtain ⟨k, hk, hlek⟩ := lastSeq_due_le events point.seq
      rw [hpoint]
      exact ⟨⟨point.epoch, k⟩, by simp only [Option.map_some, hk, Option.getD_some], Nat.le_trans hle hlek⟩
    refine ⟨h.batches.push fun point generation es applied hentry => ?_, fun st hst => ?_, fun hw => ?_,
      fun mark hmark => ?_, h.generation, fun mark hmark => ?_, fun c hc => ?_⟩
    · obtain ⟨rfl, rfl, rfl, rfl⟩ := Entry.batch.inj hentry
      exact hkept
    · -- the cursor moves to the last event that is due
      obtain ⟨st₀, hst₀, rfl⟩ := Option.map_eq_some_iff.mp ((stretch_concat _ _).symm.trans hst)
      obtain ⟨hat, hordered⟩ := h.cursor st₀ hst₀
      have hat' : s.cursor.map (·.seq) = some st₀.cursor.seq := by rw [hat]; rfl
      simp only [hat']
      refine ⟨?_, hordered.handled⟩
      obtain ⟨k, hk, -⟩ := lastSeq_due_le events st₀.cursor.seq
      rw [cursor_handled, hat, hk]
      rfl
    · obtain ⟨st, hst⟩ := h.welcomed hw
      exact ⟨_, (stretch_concat _ _).trans (by rw [hst]; rfl)⟩
    · obtain ⟨read, held, hin⟩ := h.snapshot mark hmark
      exact ⟨read, held, hin.mono⟩
    · rcases h.activity mark hmark with hpassed | ⟨read, hin⟩
      · exact .inl (hreached mark hpassed)
      · refine .inr ⟨read, ?_⟩
        show WelcomeIn _ mark [_, .installed .activity read (Option.map _ _) _]
        rw [hepoch]
        exact hin.mono
    · obtain ⟨hle, hthrough⟩ := h.counts c hc
      refine ⟨hle, fun mark hmark => (hthrough mark hmark).imp (fun hpassed heq => ?_) WelcomeIn.mono⟩
      exact hreached mark (hpassed heq)

/-- What a batch leaves of the rest. -/
theorem applyEvents_frame (s : Engine) (events : List SyncEvent) :
    (s.applyEvents events).welcomed = s.welcomed ∧ (s.applyEvents events).main = s.main ∧
    (∃ more, (s.applyEvents events).log = s.log ++ more) ∧
    (∀ r ∈ (s.applyEvents events).background, r ∈ s.background ∨ r = ⟨[.user], .boot, none, none⟩) ∧
    ((s.signedOut = false → receivedEvents s.log = batchedEvents s.log ++ events) →
      (s.applyEvents events).signedOut = false →
      receivedEvents (s.applyEvents events).log = batchedEvents (s.applyEvents events).log) := by
  rcases applyEvents_cases s events with ⟨hout, heq⟩ | ⟨-, heq⟩ | ⟨hout, more, hmore, heq⟩
  · rw [heq]
    exact ⟨rfl, rfl, ⟨[], (List.append_nil _).symm⟩, fun r hr => .inl hr,
      fun _ hno => by rw [hout] at hno; cases hno⟩
  · rw [heq]
    exact ⟨rfl, rfl, ⟨[], (List.append_nil _).symm⟩, fun r hr => .inl hr, fun _ hno => by cases hno⟩
  · rw [heq]
    refine ⟨rfl, rfl, ⟨_, rfl⟩, fun r hr => (List.mem_append.mp hr).imp id (hmore r), fun hreceived _ => ?_⟩
    have hbefore := hreceived hout
    simp only [receivedEvents, batchedEvents] at hbefore
    simp [receivedEvents, batchedEvents, Engine.note, hbefore]

end Apply

/-! ## 6. A welcome -/

/-- A welcome taken: a new generation, and the cursor in its epoch. -/
def Engine.greeted (s : Engine) (frame : Welcome) : Engine :=
  { s.note [.welcome frame s.cursor] with
    restored := false
    generation := s.generation + 1
    activitySnapshotThrough := (s.generation + 1, none)
    cursor := some ⟨frame.epoch, (⟨frame, s.cursor, []⟩ : Stretch).base⟩ }

section Greeting

variable {s : Engine} {frame : Welcome} {subscribed : List Topic} {rest : List Frame}

/-- What a welcome may do. -/
theorem welcome_cases (s : Engine) (frame : Welcome) (subscribed : List Topic) (rest : List Frame) :
    s.welcome frame subscribed rest =
        { s with signedOut := true, connected := false, stopped := true, main := .frames [] [] } ∨
    s.welcome frame subscribed rest =
        { s.greeted frame with
          main := .resync ⟨[.user], .boot, some ⟨frame.replayThrough, frame.epoch⟩,
            some ⟨frame.replayThrough, frame.epoch⟩⟩ true rest } ∨
    s.welcome frame subscribed rest =
        { s.greeted frame with
          background := s.background ++ [⟨[.user], .boot, some ⟨frame.replayThrough, frame.epoch⟩, none⟩]
          welcomed := true
          main := .frames [] rest } ∨
    s.welcome frame subscribed rest =
        { (s.greeted frame).refreshUnreadCount (some ⟨frame.replayThrough, frame.epoch⟩) with
          welcomed := true
          main := .frames [] rest } ∨
    ((⟨frame, s.cursor, []⟩ : Stretch).base = frame.seq ∧ s.welcome frame subscribed rest =
        { s.greeted frame with
          main := .resync ⟨.user :: subscribed, .boot, some ⟨frame.seq, frame.epoch⟩, none⟩ true rest }) := by
  by_cases hviewer : frame.viewerId.any s.signedInElsewhere = true
  · exact .inl (by rw [Engine.welcome, if_pos hviewer])
  refine .inr ?_
  rw [Engine.welcome, if_neg hviewer]
  cases hcursor : s.cursor with
  | none =>
    have hbase : (⟨frame, none, []⟩ : Stretch).base = frame.seq := by simp [Stretch.base]
    refine .inr (.inr (.inr ⟨hbase, ?_⟩))
    simp only [Engine.greeted, hcursor, hbase]
  | some point =>
    cases hresumed : frame.resumed with
    | false =>
      have hbase : (⟨frame, some point, []⟩ : Stretch).base = frame.seq := by simp [Stretch.base, hresumed]
      refine .inr (.inr (.inr ⟨hbase, ?_⟩))
      simp only [Engine.greeted, hcursor, hbase, Bool.false_eq_true, if_false]
    | true =>
      have hbase : (⟨frame, some point, []⟩ : Stretch).base = point.seq := by simp [Stretch.base, hresumed]
      simp only [if_true, Engine.greeted, hcursor, hbase]
      split
      · exact .inl rfl
      · split
        · exact .inr (.inl rfl)
        · exact .inr (.inr (.inl rfl))

theorem stretch_greeted (s : Engine) (frame : Welcome) :
    stretch (s.greeted frame).log = some ⟨frame, s.cursor, []⟩ := stretch_concat _ _

theorem Core.greeted (h : Core s) (frame : Welcome) : Core (s.greeted frame) where
  batches := h.batches.push fun _ _ _ _ hentry => by cases hentry
  cursor st hst := by
    obtain rfl := Option.some.inj ((stretch_greeted s frame).symm.trans hst)
    exact ⟨rfl, List.pairwise_singleton _ _⟩
  welcomed _ := ⟨_, stretch_greeted s frame⟩
  snapshot mark hmark := by
    obtain ⟨read, held, hin⟩ := h.snapshot mark hmark
    exact ⟨read, held, hin.mono⟩
  generation := Nat.le_refl _
  activity mark hmark := by
    have hnone : (s.greeted frame).activityCovered = none := if_pos rfl
    rw [hnone] at hmark
    cases hmark
  counts c hc := by
    obtain ⟨hle, -⟩ := h.counts c hc
    refine ⟨Nat.le_succ_of_le hle, fun mark hmark => .inl fun heq => ?_⟩
    have hgen : c.generation = s.generation + 1 := heq
    omega

theorem greeted_welcomeIn (s : Engine) (frame : Welcome) :
    WelcomeIn (s.greeted frame).log ⟨frame.replayThrough, frame.epoch⟩ [] := welcomeIn_welcome frame s.cursor

/-- What was received is still what was batched. -/
theorem greeted_received (h : receivedEvents s.log = batchedEvents s.log) :
    receivedEvents (s.greeted frame).log = batchedEvents (s.greeted frame).log := by
  simp only [receivedEvents, batchedEvents] at h
  simp [receivedEvents, batchedEvents, Engine.greeted, Engine.note, h]

/-- **A welcome.** -/
theorem inv_welcome (h : Core s) (hbackground : ∀ r ∈ s.background, Beside s.log r)
    (hreceived : s.signedOut = false → receivedEvents s.log = batchedEvents s.log) :
    Inv (s.welcome frame subscribed rest) := by
  have hgreeted := h.greeted frame
  have hin := greeted_welcomeIn s frame
  have hbeside : ∀ r ∈ s.background, Beside (s.greeted frame).log r := fun r hr => (hbackground r hr).mono
  have hreceived' : s.signedOut = false →
      receivedEvents (s.greeted frame).log = batchedEvents (s.greeted frame).log ++ [] := fun hout => by
    rw [List.append_nil]
    exact greeted_received (hreceived hout)
  rcases welcome_cases s frame subscribed rest with heq | heq | heq | heq | ⟨hbase, heq⟩ <;> rw [heq]
  · exact
      { core := ⟨h.batches, h.cursor, h.welcomed, h.snapshot, h.generation, h.activity, h.counts⟩
        background := hbackground
        received := fun hno => by cases hno
        pending := fun hne => absurd rfl hne
        main := fun _ _ _ hmain => by cases hmain
        welcoming := fun _ _ hmain => by cases hmain }
  · refine
      { core := ⟨hgreeted.batches, hgreeted.cursor, hgreeted.welcomed, hgreeted.snapshot, hgreeted.generation,
          hgreeted.activity, hgreeted.counts⟩
        background := hbeside
        received := hreceived'
        pending := fun hne => absurd rfl hne
        main := fun r welcoming rest' hmain => ?_
        welcoming := fun _ _ _ => ⟨_, stretch_greeted s frame⟩ }
    obtain ⟨rfl, -, -⟩ := Main.resync.inj hmain
    refine ⟨fun mark hmark => .inr ?_, fun mark hmark => ?_⟩
    · rw [← Option.some.inj hmark]; exact hin
    · rw [← Option.some.inj hmark]; exact ⟨rfl, hin⟩
  · refine
      { core := ⟨hgreeted.batches, hgreeted.cursor, fun _ => ⟨_, stretch_greeted s frame⟩, hgreeted.snapshot,
          hgreeted.generation, hgreeted.activity, hgreeted.counts⟩
        background := fun r hr => ?_
        received := hreceived'
        pending := fun hne => absurd rfl hne
        main := fun _ _ _ hmain => by cases hmain
        welcoming := fun _ _ hmain => by cases hmain }
    rcases List.mem_append.mp hr with hr | hr
    · exact hbeside r hr
    · rw [List.mem_singleton.mp hr]
      exact ⟨rfl, fun mark hmark => by rw [← Option.some.inj hmark]; exact hin⟩
  · have hcount : Core ((s.greeted frame).refreshUnreadCount (some ⟨frame.replayThrough, frame.epoch⟩)) :=
      hgreeted.refreshUnreadCount fun mark hmark => .inr (by rw [← Option.some.inj hmark]; exact hin)
    exact
      { core := ⟨hcount.batches, hcount.cursor,
          fun _ => ⟨_, (stretch_refresh _ (some ⟨frame.replayThrough, frame.epoch⟩)).trans
            (stretch_greeted s frame)⟩, hcount.snapshot,
          hcount.generation, hcount.activity, hcount.counts⟩
        background := fun r hr => (hbeside r hr).mono
        received := fun hout => by
          have hbefore := hreceived' hout
          rw [List.append_nil] at hbefore
          exact (receivedEvents_read rfl).trans (hbefore.trans
            ((batchedEvents_read rfl).symm.trans (List.append_nil _).symm))
        pending := fun hne => absurd rfl hne
        main := fun _ _ _ hmain => by cases hmain
        welcoming := fun _ _ hmain => by cases hmain }
  · refine
      { core := ⟨hgreeted.batches, hgreeted.cursor, hgreeted.welcomed, hgreeted.snapshot, hgreeted.generation,
          hgreeted.activity, hgreeted.counts⟩
        background := hbeside
        received := hreceived'
        pending := fun hne => absurd rfl hne
        main := fun r welcoming rest' hmain => ?_
        welcoming := fun _ _ _ => ⟨_, stretch_greeted s frame⟩ }
    obtain ⟨rfl, -, -⟩ := Main.resync.inj hmain
    refine ⟨fun mark hmark => .inl ⟨_, rfl, ?_⟩, fun mark hmark => by cases hmark⟩
    rw [← Option.some.inj hmark]
    exact Nat.le_of_eq hbase.symm

end Greeting

/-! ## 7. Resyncs and counts -/

/-- What a step of a resync leaves. -/
structure FiberStep (s : Engine) (r : Resync) (s' : Engine) (r' : Resync) : Prop where
  core : Core s'
  awaited : Awaited s' r'
  activityThrough : r'.activityThrough = r.activityThrough
  sidebarThrough : r'.sidebarThrough = r.sidebarThrough
  cursor : s'.cursor = s.cursor
  main : s'.main = s.main
  background : s'.background = s.background
  welcomed : s'.welcomed = s.welcomed
  signedOut : s'.signedOut = false → s.signedOut = false
  log : ∃ more, s'.log = s.log ++ more
  received : receivedEvents s'.log = receivedEvents s.log
  batched : batchedEvents s'.log = batchedEvents s.log
  stretch : stretch s'.log = stretch s.log

section Fibers

variable {s s' : Engine} {r r' : Resync}

theorem bootAnswers_step (h : Core s) (hr : Awaited s r) {answer : Option Nat}
    (hs : s.bootAnswers answer r = some (s', r')) : FiberStep s r s' r' := by
  unfold Engine.bootAnswers at hs
  split at hs
  · next htopics hstage =>
    split at hs
    · -- for someone else: the resync ends
      obtain ⟨rfl, rfl⟩ := Prod.mk.inj (Option.some.inj hs)
      exact
        { core := ⟨h.batches, h.cursor, h.welcomed, h.snapshot, h.generation, h.activity, h.counts⟩
          awaited := ⟨hr.activity, hr.sidebar⟩
          activityThrough := rfl, sidebarThrough := rfl, cursor := rfl, main := rfl, background := rfl, welcomed := rfl
          signedOut := fun hno => by cases hno
          log := ⟨[], (List.append_nil _).symm⟩, received := rfl, batched := rfl, stretch := rfl }
    · obtain ⟨rfl, rfl⟩ := Prod.mk.inj (Option.some.inj hs)
      have hnoted : Core (s.note [.began .sidebar s.reads]) := h.note rfl
      exact
        { core := ⟨hnoted.batches, hnoted.cursor, hnoted.welcomed, hnoted.snapshot, hnoted.generation,
            hnoted.activity, hnoted.counts⟩
          awaited := ⟨fun mark hmark => (hr.activity mark hmark).imp_right WelcomeIn.mono, fun mark hmark => by
            obtain ⟨hepoch, hbegan⟩ := hr.sidebar mark hmark
            rw [hstage] at hbegan
            exact ⟨hepoch, WelcomeIn.push hbegan _⟩⟩
          activityThrough := rfl, sidebarThrough := rfl, cursor := rfl, main := rfl, background := rfl, welcomed := rfl
          signedOut := id
          log := ⟨_, rfl⟩, received := receivedEvents_read rfl, batched := batchedEvents_read rfl
          stretch := stretch_read rfl }
  · cases hs

/-- A sidebar that is installed vouches for what its resync covers. -/
theorem Core.sidebarInstalled (h : Core s) (hr : Awaited s r) {signedIn : Bool} {read : Nat}
    (hstage : r.stage = .sidebar signedIn read) :
    Core { s.note [.installed .sidebar read (s.cursor.map (·.epoch)) s.generation] with
      snapshotThrough := r.sidebarThrough.or s.snapshotThrough } := by
  have hnoted : Core (s.note [.installed .sidebar read (s.cursor.map (·.epoch)) s.generation]) := h.note rfl
  refine ⟨hnoted.batches, hnoted.cursor, hnoted.welcomed, fun mark hmark => ?_, hnoted.generation,
    hnoted.activity, hnoted.counts⟩
  cases hthrough : r.sidebarThrough with
  | none =>
    rw [hthrough] at hmark
    exact hnoted.snapshot mark hmark
  | some held =>
    rw [hthrough] at hmark
    obtain rfl := Option.some.inj hmark
    obtain ⟨hepoch, hbegan⟩ := hr.sidebar held hthrough
    rw [hstage] at hbegan
    rw [← hepoch]
    exact ⟨read, s.generation, WelcomeIn.push hbegan _⟩

theorem sidebarAnswers_step (h : Core s) (hr : Awaited s r) {installed : Bool}
    (hs : s.sidebarAnswers installed r = some (s', r')) : FiberStep s r s' r' := by
  unfold Engine.sidebarAnswers at hs
  split at hs
  · next topics signedIn read htopics hstage =>
    obtain ⟨rfl, rfl⟩ := Prod.mk.inj (Option.some.inj hs)
    -- once the sidebar is settled, the count is read
    have hlater : ∀ t : Engine, Core t → t.cursor = s.cursor → t.main = s.main → t.background = s.background →
        t.welcomed = s.welcomed → t.signedOut = s.signedOut →
        (t.log = s.log ∨ ∃ entry, entry.isRead = true ∧ t.log = s.log ++ [entry]) →
        FiberStep s r (t.refreshUnreadCount r.activityThrough) { r with topics := topics, stage := .boot } := by
      intro t ht hcursor hmain hbackground hwelcomed hout hlog
      obtain ⟨more, hmore, hreceived, hbatched, hstretch⟩ := grown_of_read hlog
      have hactivity : ∀ mark, r.activityThrough = some mark → Reached t mark ∨ WelcomeIn t.log mark [] :=
        fun mark hmark => by
          rw [Reached, hcursor, hmore]
          exact (hr.activity mark hmark).imp_right WelcomeIn.mono
      exact
        { core := ht.refreshUnreadCount hactivity
          awaited := ⟨fun mark hmark => (hactivity mark hmark).imp_right WelcomeIn.mono, fun mark hmark => by
            obtain ⟨hepoch, hbegan⟩ := hr.sidebar mark hmark
            refine ⟨hcursor ▸ hepoch, ?_⟩
            rw [hstage] at hbegan
            obtain ⟨frame, point, hframe, hthrough, hsub⟩ := hbegan
            have hin : WelcomeIn s.log mark [] :=
              ⟨frame, point, hframe, hthrough, (List.singleton_sublist.mpr List.mem_cons_self).trans hsub⟩
            have hin' : WelcomeIn t.log mark [] := by rw [hmore]; exact hin.mono
            exact hin'.mono⟩
          activityThrough := rfl, sidebarThrough := rfl, cursor := hcursor, main := hmain
          background := hbackground, welcomed := hwelcomed
          signedOut := fun hno => hout ▸ hno
          log := ⟨more ++ [.began .activity t.reads], by rw [← List.append_assoc, ← hmore]; rfl⟩
          received := (receivedEvents_read rfl).trans hreceived
          batched := (batchedEvents_read rfl).trans hbatched
          stretch := (stretch_refresh _ _).trans hstretch }
    cases installed with
    | true =>
      have hinstalled := h.sidebarInstalled hr hstage
      exact hlater _ ⟨hinstalled.batches, hinstalled.cursor, hinstalled.welcomed, hinstalled.snapshot,
        hinstalled.generation, hinstalled.activity, hinstalled.counts⟩ rfl rfl rfl rfl rfl (.inr ⟨_, rfl, rfl⟩)
    | false =>
      exact hlater _ ⟨h.batches, h.cursor, h.welcomed, h.snapshot, h.generation, h.activity, h.counts⟩
        rfl rfl rfl rfl rfl (.inl rfl)
  · cases hs

theorem timelineDone_step (h : Core s) (hr : Awaited s r) (hs : s.timelineDone r = some (s', r')) :
    FiberStep s r s' r' := by
  unfold Engine.timelineDone at hs
  split at hs
  · obtain ⟨rfl, rfl⟩ := Prod.mk.inj (Option.some.inj hs)
    exact
      { core := h, awaited := ⟨hr.activity, hr.sidebar⟩
        activityThrough := rfl, sidebarThrough := rfl, cursor := rfl, main := rfl, background := rfl, welcomed := rfl
        signedOut := id
        log := ⟨[], (List.append_nil _).symm⟩, received := rfl, batched := rfl, stretch := rfl }
  · cases hs

/-- **A step of a resync**, the main fiber's or one in the background. -/
theorem Inv.fiber {f : Engine → Resync → Option (Engine × Resync)} {which : Option Nat} (h : Inv s)
    (hf : ∀ r s' r', Awaited s r → f s r = some (s', r') → FiberStep s r s' r')
    (hs : s.fiber which f = some s') : Inv s' := by
  unfold Engine.fiber at hs
  split at hs
  · split at hs
    · next r welcoming rest hmain =>
      obtain ⟨⟨t, r'⟩, hstep, rfl⟩ := Option.map_eq_some_iff.mp hs
      have hfiber := hf r t r' (h.main r welcoming rest hmain) hstep
      obtain ⟨more, hlog⟩ := hfiber.log
      have hpending : s.pending = [] := by rw [Engine.pending, hmain]
      exact
        { core := ⟨hfiber.core.batches, hfiber.core.cursor, hfiber.core.welcomed, hfiber.core.snapshot,
            hfiber.core.generation, hfiber.core.activity, hfiber.core.counts⟩
          background := fun b hb => by
            rw [hlog]
            exact (h.background b (by rwa [← hfiber.background])).mono
          received := fun hout => by
            have hbefore := h.received (hfiber.signedOut hout)
            rw [hpending, ← hfiber.received, ← hfiber.batched] at hbefore
            exact hbefore
          pending := fun hne => absurd rfl hne
          main := fun b w rest' heq => by
            obtain ⟨rfl, -, -⟩ := Main.resync.inj heq
            exact ⟨hfiber.awaited.activity, hfiber.awaited.sidebar⟩
          welcoming := fun b rest' heq => by
            obtain ⟨-, rfl, -⟩ := Main.resync.inj heq
            obtain ⟨st, hst⟩ := h.welcoming r rest hmain
            exact ⟨st, hfiber.stretch.trans hst⟩ }
    · cases hs
  · next i =>
    split at hs
    · next r hr =>
      obtain ⟨⟨t, r'⟩, hstep, rfl⟩ := Option.map_eq_some_iff.mp hs
      have hbeside := h.background r (List.mem_of_getElem? hr)
      have hfiber := hf r t r' hbeside.awaited hstep
      obtain ⟨more, hlog⟩ := hfiber.log
      have hpending : t.pending = s.pending := by rw [Engine.pending, Engine.pending, hfiber.main]
      exact
        { core := ⟨hfiber.core.batches, hfiber.core.cursor, hfiber.core.welcomed, hfiber.core.snapshot,
            hfiber.core.generation, hfiber.core.activity, hfiber.core.counts⟩
          background := fun b hb => by
            show Beside t.log b
            rw [hlog]
            rcases List.mem_or_eq_of_mem_set hb with hb | rfl
            · exact (h.background b hb).mono
            · refine ⟨hfiber.sidebarThrough ▸ hbeside.1, fun mark hmark => ?_⟩
              rw [hfiber.activityThrough] at hmark
              exact (hbeside.2 mark hmark).mono
          received := fun hout => by
            have hbefore := h.received (hfiber.signedOut hout)
            rw [← hfiber.received, ← hfiber.batched, ← hpending] at hbefore
            exact hbefore
          pending := fun hne => by
            have hne' : t.pending ≠ [] := hne
            rw [hpending] at hne'
            exact hfiber.welcomed ▸ h.pending hne'
          main := fun b w rest' heq => by
            have hmain : s.main = .resync b w rest' := hfiber.main ▸ heq
            obtain ⟨hactivity, hsidebar⟩ := h.main b w rest' hmain
            refine ⟨fun mark hmark => ?_, fun mark hmark => ?_⟩
            · show Reached t mark ∨ WelcomeIn t.log mark []
              rw [Reached, hfiber.cursor, hlog]
              exact (hactivity mark hmark).imp_right WelcomeIn.mono
            · obtain ⟨hepoch, hbegan⟩ := hsidebar mark hmark
              show t.cursor.map (·.epoch) = _ ∧ BeganIn t.log mark _
              rw [hfiber.cursor, hlog]
              exact ⟨hepoch, hbegan.mono⟩
          welcoming := fun b rest' heq => by
            obtain ⟨st, hst⟩ := h.welcoming b rest' (hfiber.main ▸ heq)
            exact ⟨st, hfiber.stretch.trans hst⟩ }
    · cases hs

/-- A count that lands in its generation vouches for what it was read for. -/
theorem Core.countAnswers (h : Core s) {c : CountRead} (hc : c.generation ≤ s.generation ∧
    ∀ mark, c.through = some mark → (c.generation = s.generation → Reached s mark) ∨
      WelcomeIn s.log mark [.began .activity c.read]) : Core (s.countAnswers c) := by
  unfold Engine.countAnswers
  split
  · exact h
  · next hgen =>
    have hgen : c.generation = s.generation := not_not.mp hgen
    have hnoted : Core (s.note [.installed .activity c.read (s.cursor.map (·.epoch)) s.generation]) := h.note rfl
    split
    · exact hnoted
    · next mark hthrough =>
      split
      · next hheld =>
        refine ⟨hnoted.batches, hnoted.cursor, hnoted.welcomed, hnoted.snapshot, hc.1, fun m hm => ?_,
          hnoted.counts⟩
        have hm : Engine.later s.activitySnapshotThrough.2 mark = m := by
          have hnow : (if c.generation = s.generation then some (Engine.later s.activitySnapshotThrough.2 mark)
              else none) = some m := hm
          rw [if_pos hgen] at hnow
          exact Option.some.inj hnow
        have hnew : Reached s mark ∨ ∃ read,
            WelcomeIn (s.note [.installed .activity c.read (s.cursor.map (·.epoch)) s.generation]).log mark
              [.began .activity read, .installed .activity read (s.cursor.map (·.epoch)) s.generation] := by
          rcases hc.2 mark hthrough with hpassed | hin
          · exact .inl (hpassed hgen)
          · exact .inr ⟨c.read, hin.push _⟩
        cases hbefore : s.activitySnapshotThrough.2 with
        | none =>
          rw [hbefore, Engine.later] at hm
          rw [← hm]
          exact hnew
        | some held =>
          rw [hbefore, Engine.later] at hm
          split at hm
          · rw [← hm]
            exact hnew
          · have hcovered : (s.note [.installed .activity c.read (s.cursor.map (·.epoch))
                s.generation]).activityCovered = some m := by
              show s.activityCovered = some m
              rw [Engine.activityCovered, if_pos (hheld.trans hgen), hbefore, hm]
            exact hnoted.activity m hcovered
      · exact hnoted

theorem countAnswers_frame (s : Engine) (c : CountRead) :
    (s.countAnswers c).cursor = s.cursor ∧ (s.countAnswers c).main = s.main ∧
    (s.countAnswers c).background = s.background ∧ (s.countAnswers c).welcomed = s.welcomed ∧
    (s.countAnswers c).signedOut = s.signedOut ∧
    ((s.countAnswers c).log = s.log ∨ ∃ entry, entry.isRead = true ∧ (s.countAnswers c).log = s.log ++ [entry]) := by
  unfold Engine.countAnswers
  split
  · exact ⟨rfl, rfl, rfl, rfl, rfl, .inl rfl⟩
  · split
    · exact ⟨rfl, rfl, rfl, rfl, rfl, .inr ⟨_, rfl, rfl⟩⟩
    · split
      · exact ⟨rfl, rfl, rfl, rfl, rfl, .inr ⟨_, rfl, rfl⟩⟩
      · exact ⟨rfl, rfl, rfl, rfl, rfl, .inr ⟨_, rfl, rfl⟩⟩

/-- What a step keeps that reads or lands beside the main fiber. -/
theorem Inv.beside (h : Inv s) (hcore : Core s') (hcursor : s'.cursor = s.cursor) (hmain : s'.main = s.main)
    (hbackground : s'.background = s.background) (hwelcomed : s'.welcomed = s.welcomed)
    (hout : s'.signedOut = false → s.signedOut = false)
    (hlog : s'.log = s.log ∨ ∃ entry, entry.isRead = true ∧ s'.log = s.log ++ [entry]) : Inv s' := by
  obtain ⟨more, hmore, hreceived, hbatched, hstretch⟩ := grown_of_read hlog
  have hpending : s'.pending = s.pending := by rw [Engine.pending, Engine.pending, hmain]
  refine
    { core := hcore
      background := fun r hr => ?_
      received := fun hno => ?_
      pending := fun hne => ?_
      main := fun r welcoming rest heq => ?_
      welcoming := fun r rest heq => by
        rw [hstretch]
        exact h.welcoming r rest (hmain ▸ heq) }
  · rw [hmore]
    exact (h.background r (by rwa [← hbackground])).mono
  · rw [hreceived, hbatched, hpending]
    exact h.received (hout hno)
  · rw [hwelcomed]
    exact h.pending (hpending ▸ hne)
  · obtain ⟨hactivity, hsidebar⟩ := h.main r welcoming rest (hmain ▸ heq)
    refine ⟨fun mark hmark => ?_, fun mark hmark => ?_⟩
    · rw [Reached, hcursor, hmore]
      exact (hactivity mark hmark).imp_right WelcomeIn.mono
    · obtain ⟨hepoch, hbegan⟩ := hsidebar mark hmark
      rw [hcursor, hmore]
      exact ⟨hepoch, hbegan.mono⟩

end Fibers

/-! ## 8. Every step -/

/-- No event that is due meets a watermark of another epoch. -/
def marksCurrent (s : Engine) : Label → Bool
  | .next _ => !s.flushes || (due (s.cursor.map (·.seq)) s.pending).all (! s.stale ·)
  | _ => true

section Steps

variable {s s' : Engine} {events : List SyncEvent} {rest : List Frame}

/-- What the gathered events leave when they are applied. -/
structure Flushed (s : Engine) : Prop where
  core : Core s
  background : ∀ r ∈ s.background, Beside s.log r
  received : s.signedOut = false → receivedEvents s.log = batchedEvents s.log

theorem Inv.flushed (h : Inv s) (hmain : s.main = .frames events rest)
    (hstale : ∀ event ∈ due (s.cursor.map (·.seq)) events, s.stale event = false) : Flushed (s.applyEvents events) := by
  have hpending : s.pending = events := by rw [Engine.pending, hmain]
  have hwelcomed : events ≠ [] → ∃ st, stretch s.log = some st := fun hne =>
    h.core.welcomed (h.pending (hpending ▸ hne))
  obtain ⟨-, -, ⟨more, hlog⟩, hbackground, hreceived⟩ := applyEvents_frame s events
  refine ⟨h.core.applyEvents hwelcomed hstale, fun r hr => ?_, hreceived fun hout => hpending ▸ h.received hout⟩
  rcases hbackground r hr with hr | rfl
  · rw [hlog]
    exact (h.background r hr).mono
  · exact ⟨rfl, fun mark hmark => by cases hmark⟩

/-- The main fiber goes on, or waits for a resync that covers nothing. -/
theorem Flushed.inv (h : Flushed s) {main : Main} {connected stopped : Bool}
    (hmain : (∃ rest, main = .frames [] rest) ∨
      ∃ topics rest, main = .resync ⟨topics, .boot, none, none⟩ false rest) :
    Inv { s with main := main, connected := connected, stopped := stopped } := by
  have hpending : ({ s with main := main, connected := connected, stopped := stopped } : Engine).pending = [] := by
    rcases hmain with ⟨rest, rfl⟩ | ⟨topics, rest, rfl⟩ <;> rfl
  refine
    { core := ⟨h.core.batches, h.core.cursor, h.core.welcomed, h.core.snapshot, h.core.generation,
        h.core.activity, h.core.counts⟩
      background := h.background
      received := fun hout => by
        rw [hpending, List.append_nil]
        exact h.received hout
      pending := fun hne => absurd hpending hne
      main := fun r welcoming rest heq => ?_
      welcoming := fun r rest heq => by
        rcases hmain with ⟨rest', rfl⟩ | ⟨topics, rest', rfl⟩ <;> cases heq }
  rcases hmain with ⟨rest', rfl⟩ | ⟨topics, rest', rfl⟩
  · cases heq
  · obtain ⟨rfl, -, -⟩ := Main.resync.inj heq
    exact ⟨fun mark hmark => (by cases hmark), fun mark hmark => (by cases hmark)⟩

/-- A frame that brings nothing. -/
theorem Inv.skip (h : Inv s) {frame : Frame} (hmain : s.main = .frames events (frame :: rest)) :
    Inv { s with main := .frames events rest } := by
  have hpending : s.pending = events := by rw [Engine.pending, hmain]
  exact
    { core := ⟨h.core.batches, h.core.cursor, h.core.welcomed, h.core.snapshot, h.core.generation,
        h.core.activity, h.core.counts⟩
      background := h.background
      received := fun hout => hpending ▸ h.received hout
      pending := fun hne => h.pending (hpending ▸ hne)
      main := fun _ _ _ heq => by cases heq
      welcoming := fun _ _ heq => by cases heq }

/-- A batch joins the gathered events. -/
theorem Inv.gather (h : Inv s) {batch : List SyncEvent} (hmain : s.main = .frames events (.batch batch :: rest))
    (hwelcomed : s.welcomed = true) :
    Inv { s.note [.received batch] with main := .frames (events ++ batch) rest } := by
  have hpending : s.pending = events := by rw [Engine.pending, hmain]
  have hstretch : stretch (s.log ++ [.received batch]) = stretch s.log := stretch_concat _ _
  exact
    { core :=
        { batches := h.core.batches.push fun _ _ _ _ hentry => by cases hentry
          cursor := fun st hst => h.core.cursor st (hstretch ▸ hst)
          welcomed := fun hw => by
            obtain ⟨st, hst⟩ := h.core.welcomed hw
            exact ⟨st, hstretch.trans hst⟩
          snapshot := fun mark hmark => by
            obtain ⟨read, held, hin⟩ := h.core.snapshot mark hmark
            exact ⟨read, held, hin.mono⟩
          generation := h.core.generation
          activity := fun mark hmark => (h.core.activity mark hmark).imp_right fun ⟨read, hin⟩ => ⟨read, hin.mono⟩
          counts := fun c hc => ⟨(h.core.counts c hc).1, fun mark hmark =>
            ((h.core.counts c hc).2 mark hmark).imp_right WelcomeIn.mono⟩ }
      background := fun r hr => (h.background r hr).mono
      received := fun hout => by
        have hbefore := h.received hout
        rw [hpending] at hbefore
        simp only [receivedEvents, batchedEvents] at hbefore
        simp [receivedEvents, batchedEvents, Engine.note, Engine.pending, hbefore]
      pending := fun _ => hwelcomed
      main := fun _ _ _ heq => by cases heq
      welcoming := fun _ _ heq => by cases heq }

theorem inv_next {subscribed : List Topic} (h : Inv s) (hcurrent : marksCurrent s (.next subscribed) = true)
    (hs : s.next subscribed = some s') : Inv s' := by
  have hstale : ∀ events rest, s.main = .frames events rest → s.flushes = true →
      ∀ event ∈ due (s.cursor.map (·.seq)) events, s.stale event = false := by
    intro events rest hmain hflushes event hevent
    have hpending : s.pending = events := by rw [Engine.pending, hmain]
    rw [marksCurrent, hflushes, hpending] at hcurrent
    have hall : ∀ event ∈ due (s.cursor.map (·.seq)) events, s.stale event = false := by simpa using hcurrent
    exact hall event hevent
  unfold Engine.next at hs
  split at hs
  · cases hs
  · next events _ hmain =>
    obtain rfl := Option.some.inj hs
    have hflushed := h.flushed hmain (hstale _ _ hmain (by rw [Engine.flushes, hmain]))
    exact hflushed.inv (.inl ⟨[], rfl⟩)
  · next events batch rest hmain =>
    split at hs
    · next hwelcomed =>
      obtain rfl := Option.some.inj hs
      exact h.gather hmain hwelcomed
    · obtain rfl := Option.some.inj hs
      exact h.skip hmain
  · next events rest hmain =>
    obtain rfl := Option.some.inj hs
    exact h.skip hmain
  · next events frame rest hmain =>
    obtain rfl := Option.some.inj hs
    have hflushed := h.flushed hmain (hstale _ _ hmain (by rw [Engine.flushes, hmain]))
    exact inv_welcome hflushed.core hflushed.background hflushed.received
  · next events topics rest hmain =>
    split at hs
    · next hwelcomed =>
      obtain rfl := Option.some.inj hs
      have hflushed := h.flushed hmain (hstale _ _ hmain (by rw [Engine.flushes, hmain]; exact hwelcomed))
      exact hflushed.inv (.inr ⟨topics, rest, rfl⟩)
    · obtain rfl := Option.some.inj hs
      exact h.skip hmain
  · next events reconnect rest hmain =>
    obtain rfl := Option.some.inj hs
    have hflushed := h.flushed hmain (hstale _ _ hmain (by rw [Engine.flushes, hmain]))
    exact hflushed.inv (.inl ⟨[], rfl⟩)
  · next r welcoming rest hmain =>
    have hpending : s.pending = [] := by rw [Engine.pending, hmain]
    have hflushed : Flushed s := ⟨h.core, h.background, fun hout => by
      have hbefore := h.received hout
      rwa [hpending, List.append_nil] at hbefore⟩
    split at hs
    · cases hs
    split at hs
    · split at hs
      · obtain rfl := Option.some.inj hs
        exact hflushed.inv (.inl ⟨[], rfl⟩)
      · next hwelcoming _ =>
        obtain rfl := Option.some.inj hs
        obtain ⟨st, hst⟩ := h.welcoming r rest (by rw [hmain, hwelcoming])
        exact
          { core := ⟨h.core.batches, h.core.cursor, fun _ => ⟨st, hst⟩, h.core.snapshot, h.core.generation,
              h.core.activity, h.core.counts⟩
            background := h.background
            received := fun hout => (hflushed.received hout).trans (List.append_nil _).symm
            pending := fun hne => absurd rfl hne
            main := fun _ _ _ heq => by cases heq
            welcoming := fun _ _ heq => by cases heq }
    · obtain rfl := Option.some.inj hs
      exact hflushed.inv (.inl ⟨rest, rfl⟩)

/-- Between connections, and between groups, nothing waits. -/
theorem Inv.idle (h : Inv s) (hmain : s.main = .frames [] []) (connected welcomed : Bool) (frames : List Frame)
    (hwelcomed : welcomed = true → s.welcomed = true) :
    Inv { s with connected := connected, welcomed := welcomed, main := .frames [] frames } := by
  have hpending : s.pending = [] := by rw [Engine.pending, hmain]
  exact
    { core := ⟨h.core.batches, h.core.cursor, fun hw => h.core.welcomed (hwelcomed hw), h.core.snapshot,
        h.core.generation, h.core.activity, h.core.counts⟩
      background := h.background
      received := fun hout => hpending ▸ h.received hout
      pending := fun hne => absurd rfl hne
      main := fun _ _ _ heq => by cases heq
      welcoming := fun _ _ heq => by cases heq }

/-- **Every step keeps the invariant**, unless a batch meets a watermark of another epoch. -/
theorem Inv.step {a : Label} (h : Inv s) (hcurrent : marksCurrent s a = true) (hs : s.step a = some s') :
    Inv s' := by
  cases a with
  | connect =>
    simp only [Engine.step] at hs
    split at hs
    · cases hs
    · next hidle =>
      obtain rfl := Option.some.inj hs
      have hmain : s.main = .frames [] [] := by
        simp only [Bool.or_eq_true, decide_eq_true_eq, not_or, not_not] at hidle
        exact hidle.2
      have hinv := h.idle hmain true false [] (fun hno => by cases hno)
      rw [← hmain] at hinv
      exact hinv
  | drop =>
    simp only [Engine.step] at hs
    split at hs
    · next hidle =>
      obtain rfl := Option.some.inj hs
      have hmain : s.main = .frames [] [] := of_decide_eq_true ((Bool.and_eq_true _ _).mp hidle).2
      have hinv := h.idle hmain false s.welcomed [] id
      rw [← hmain] at hinv
      exact hinv
    · cases hs
  | group frames =>
    simp only [Engine.step] at hs
    split at hs
    · next hidle =>
      obtain rfl := Option.some.inj hs
      have hmain : s.main = .frames [] [] := of_decide_eq_true ((Bool.and_eq_true _ _).mp hidle).2
      exact h.idle hmain s.connected s.welcomed frames id
    · cases hs
  | next subscribed => exact inv_next h hcurrent hs
  | boot which answer =>
    have hfiber : s.fiber which (fun s r => s.bootAnswers answer r) = some s' := hs
    exact h.fiber (fun r _ _ hr hf => bootAnswers_step h.core hr hf) hfiber
  | sidebar which installed =>
    have hfiber : s.fiber which (fun s r => s.sidebarAnswers installed r) = some s' := hs
    exact h.fiber (fun r _ _ hr hf => sidebarAnswers_step h.core hr hf) hfiber
  | timeline which => exact h.fiber (fun r _ _ hr hf => timelineDone_step h.core hr hf) hs
  | count i ok =>
    simp only [Engine.step] at hs
    split at hs
    · next c hc =>
      obtain rfl := Option.some.inj hs
      have hread := h.core.counts c (List.mem_of_getElem? hc)
      have herased : Core { s with counts := s.counts.eraseIdx i } :=
        ⟨h.core.batches, h.core.cursor, h.core.welcomed, h.core.snapshot, h.core.generation, h.core.activity,
          fun c' hc' => h.core.counts c' (List.mem_of_mem_eraseIdx hc')⟩
      split
      · obtain ⟨hcursor, hmain, hbackground, hwelcomed, hout, hlog⟩ :=
          countAnswers_frame { s with counts := s.counts.eraseIdx i } c
        exact h.beside (herased.countAnswers hread) hcursor hmain hbackground hwelcomed
          (fun hno => hout ▸ hno) hlog
      · exact h.beside herased rfl rfl rfl rfl id (.inl rfl)
    · cases hs
  | stalled =>
    obtain rfl := Option.some.inj hs
    exact h.beside (h.core.bumped.refreshUnreadCount fun mark hmark => by cases hmark) rfl rfl rfl rfl id
      (.inr ⟨_, rfl, rfl⟩)
  | leave =>
    obtain rfl := Option.some.inj hs
    exact h.beside ⟨h.core.batches, h.core.cursor, h.core.welcomed, h.core.snapshot, h.core.generation,
      h.core.activity, h.core.counts⟩ rfl rfl rfl rfl (fun hno => by cases hno) (.inl rfl)

theorem inv_opened (cursor : Option Point) (generation : Nat) (me : Option Nat) :
    Inv (Engine.opened cursor generation me) where
  core :=
    { batches := fun before _ _ _ _ after hsplit => absurd hsplit.symm (by simp [Engine.opened])
      cursor := fun st hst => by cases hst
      welcomed := fun hw => by cases hw
      snapshot := fun mark hmark => by cases hmark
      generation := Nat.le_refl _
      activity := fun mark hmark => by simp [Engine.activityCovered, Engine.opened] at hmark
      counts := fun c hc => absurd hc List.not_mem_nil }
  background r hr := absurd hr List.not_mem_nil
  received _ := rfl
  pending hne := absurd rfl hne
  main _ _ _ hmain := by cases hmain
  welcoming _ _ hmain := by cases hmain

/-- **The client drops no event that a snapshot does not cover**, in every run in which no batch meets a
watermark of another epoch. -/
theorem delivered_of_reach (h : ReachWhen engine (fun s a => marksCurrent s a = true) s) : Delivered s := by
  have hinv : Inv s := by
    refine h.induct ?_ fun s a s' _ hs hcurrent hstep => hs.step hcurrent hstep
    rintro s ⟨cursor, generation, me, rfl⟩
    exact inv_opened cursor generation me
  exact ⟨hinv.received, hinv.core.batches, hinv.core.cursor⟩

end Steps

/-! ## 9. Runs -/

/-- The last batch lost an event: it wasn't applied, and no welcome of the epoch replays as far. -/
def lost (s : Engine) : Bool :=
  match s.log.getLast? with
  | some (.batch point _ events applied) =>
    (due (point.map (·.seq)) events).any fun event =>
      !applied.contains event && s.log.dropLast.all fun
        | .welcome frame _ => !(point.map (·.epoch) = some frame.epoch && event.seq ≤ frame.replayThrough)
        | _ => true
  | _ => false

theorem not_delivered_of_lost {s : Engine} (h : lost s = true) : ¬ Delivered s := by
  intro hdelivered
  unfold lost at h
  split at h
  · next point generation events applied hlast =>
    obtain ⟨front, hfront⟩ := List.getLast?_eq_some_iff.mp hlast
    rw [hfront, List.dropLast_concat] at h
    obtain ⟨event, hevent, hlost⟩ := List.any_eq_true.mp h
    obtain ⟨hnot, hnone⟩ := (Bool.and_eq_true _ _).mp hlost
    obtain ⟨st, hst, hpoint, hkept⟩ :=
      (hdelivered.batches front point generation events applied [] hfront).2 event hevent
    rcases hkept with hmem | ⟨kind, frame, before, read, held, -, hepoch, hseq, -, hsub⟩
    · simp [hmem] at hnot
    · have hframe := List.all_eq_true.mp hnone _ (hsub.mem List.mem_cons_self)
      have hsame : point.map (·.epoch) = some frame.epoch := by rw [hpoint, hepoch]; rfl
      simp [hsame, hseq] at hframe
  · cases h

/-- A page reloads at 40 of one epoch and replays to 100 of it behind its snapshot. -/
def reloadedRun : List Label :=
  [.connect, .group [.welcome ⟨"A", 100, true, 100, none⟩], .next [], .boot none (some 1), .sidebar none true,
    .next []]

/-- What is covered is left out, what isn't is applied. -/
theorem delivered_of_reach_sample : ∃ s, ReachWhen engine (fun s a => marksCurrent s a = true) s ∧
    s.cursor = some ⟨"A", 101⟩ ∧
    s.log.getLast? = some (.batch (some ⟨"A", 40⟩) 1
      [⟨41, .sidebarRowUpserted⟩, ⟨42, .other "message.created"⟩, ⟨101, .roomUnread⟩]
      [⟨42, .other "message.created"⟩, ⟨101, .roomUnread⟩]) ∧ Delivered s := by
  obtain ⟨s, hr, hp⟩ := exists_reachWhen_of_replay (T := engine) (G := fun s a => marksCurrent s a = true)
    (s := Engine.opened (some ⟨"A", 40⟩) 0 (some 1))
    (l := reloadedRun ++ [.group [.batch [⟨41, .sidebarRowUpserted⟩, ⟨42, .other "message.created"⟩,
      ⟨101, .roomUnread⟩]], .next [], .next []])
    (p := fun s => s.cursor = some ⟨"A", 101⟩ ∧
      s.log.getLast? = some (.batch (some ⟨"A", 40⟩) 1
        [⟨41, .sidebarRowUpserted⟩, ⟨42, .other "message.created"⟩, ⟨101, .roomUnread⟩]
        [⟨42, .other "message.created"⟩, ⟨101, .roomUnread⟩]))
    ⟨_, _, _, rfl⟩ (by decide +kernel)
  obtain ⟨hcursor, hlog⟩ := of_decide_eq_true hp
  exact ⟨s, hr, hcursor, hlog, delivered_of_reach hr⟩

/-- The server restarts: its epoch's sequences start again, and the sidebar's watermark is the old one. -/
theorem lost_sidebar : ¬ ∀ s, Reach engine s → Delivered s := by
  intro h
  obtain ⟨s, hr, hp⟩ := exists_reachWhen_of_replay (T := engine) (G := fun _ _ => True)
    (s := Engine.opened (some ⟨"A", 40⟩) 0 (some 1))
    (l := reloadedRun ++ [.drop, .connect,
      .group [.welcome ⟨"B", 0, false, 0, none⟩, .batch [⟨1, .sidebarRowUpserted⟩]], .next [],
      .boot none (some 1), .sidebar none true, .next [], .next [], .next []])
    (p := lost) ⟨_, _, _, rfl⟩ (by decide +kernel)
  exact not_delivered_of_lost hp (h s hr)

/-- A resync forked before the restart reads the count after it, and hands the old epoch's sequence to the
new generation. -/
theorem lost_activity : ∃ s, Reach engine s ∧ s.snapshotThrough = none ∧ ¬ Delivered s := by
  obtain ⟨s, hr, hp⟩ := exists_reachWhen_of_replay (T := engine) (G := fun _ _ => True)
    (s := Engine.opened none 0 (some 1))
    (l := [.connect, .group [.welcome ⟨"A", 5, false, 5, none⟩], .next [], .boot none none, .sidebar none false,
      .next [], .drop,
      .connect, .group [.welcome ⟨"A", 100, true, 100, none⟩], .next [], .drop,
      .connect, .group [.welcome ⟨"B", 0, false, 0, none⟩, .batch [⟨1, .activityItem⟩]], .next [],
      .boot none (some 1), .sidebar none true, .next [],
      .boot (some 0) (some 1), .sidebar (some 0) true, .count 2 true, .next [], .next []])
    (p := fun s => s.snapshotThrough = none && lost s) ⟨_, _, _, rfl⟩ (by decide +kernel)
  obtain ⟨hnone, hlost⟩ := (Bool.and_eq_true _ _).mp hp
  exact ⟨s, hr, of_decide_eq_true hnone, not_delivered_of_lost hlost⟩

end Smartfire.SyncClient
