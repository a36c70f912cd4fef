/-
  File:      Smartfire/Cable/Cutoff.lean
  Subject:   The cutoff of a remote disconnect.

  The hub takes the sequence of a publication and that of a disconnect under one lock, so a
  disconnect at `d` divides the log. The task may have read past `d` before it learns of it; it looks
  for a disconnect once more before it makes the turn's frames, reads what is missing before `d`,
  and drops what it has read past it.

  A turn that reads a gap marker, or finds the ring rolled over, gives up that reading whole: events
  before the marker, and events before `d` where the marker comes after it, are not written either.

  * `CutRecord` -- the record of a run: where the turn's reading began, how far it got without a
    loss, what was written, given to the client and dropped;
  * `Cutoff` -- the property over it;
  * `Message` -- where the disconnect's message is until the task finds it.
-/
import Smartfire.Cable.Socket

namespace Smartfire

open Lib
open scoped List

/-! ## 1. The record of a run -/

/-- What the socket's step does beside its task and the hub. -/
def Socket.effect (eng : Engine) (cap : Nat) (s : Socket) : SocketAct → Effect
  | .around _ => .quiet
  | .task a =>
    match s.task.step eng cap s.hub a with
    | some o => o.effect
    | none => .quiet

/-- The sequences of the events a frame carries. -/
def Frame.events : Frame → List Nat
  | .batch events => events.map Wire.seq
  | _ => []

/-- What the session leaves out of the outgoing events. -/
def Connection.omits (session : Session) (c : Connection) : List Entry :=
  c.outgoing.filter fun e => e.seq ∉ (session.eventsForViewer c.wires).map Wire.seq

/-- The record of a socket's run. -/
structure CutRecord where
  /-- The sequence of the disconnect, once published. -/
  disconnect : Option Nat
  /-- The connection before the turn's first reading. -/
  base : Connection
  /-- Whether a reading of the turn lost events. -/
  lost : Bool
  /-- How far the turn has read without a loss. -/
  through : Nat
  /-- Whether the look for a disconnect found it. -/
  found : Bool
  /-- The events written. -/
  written : List Nat
  /-- The cursors given to the client. -/
  given : List Nat
  /-- Everything read into the pending batch. -/
  read : List Entry
  /-- What was handed over for writing. -/
  offered : List Entry
  /-- What of it the session left out. -/
  omitted : List Entry
  /-- What was dropped from the pending batch unwritten. -/
  dropped : List Entry

/-- Whether the connection before the turn's reading is still the one to compare with: the step is
    one of the reading or the writing, not of the choice of a branch. -/
def TaskAct.keepsBase (next : Phase) : TaskAct → Bool
  | .catchUp _ | .refetch | .poll | .settle _ _ | .fail | .gone => true
  | .write => next ≠ .turn
  | _ => false

/-- Whether the turn has lost events by the phase it is in; `none` where the phase does not tell. -/
def Phase.loses : Phase → Option Bool
  | .catchLost _ | .cutLost _ _ => some true
  | .turn | .following _ => some false
  | _ => none

/-- Whether the look of this step finds the disconnect. -/
def Task.finds (cap : Nat) (t : Task) : TaskAct → Bool
  | .poll =>
    match t.phase with
    | .selected seen _ _ => (t.look cap seen).1.isSome
    | _ => false
  | _ => false

namespace CutRecord

/-- A socket's record before its first step. -/
def blank : CutRecord := ⟨none, .fresh 0, false, 0, false, [], [], [], [], [], []⟩

variable (eng : Engine) (cap : Nat) (s : Socket) (a : SocketAct) (s' : Socket) (r : CutRecord)

def lostBy : Bool := s'.task.phase.loses.getD r.lost

def note : CutRecord where
  disconnect :=
    match a with
    | .around (.disconnect _) => some (s.hub.sequence + 1)
    | _ => r.disconnect
  base :=
    match a with
    | .around _ => r.base
    | .task a => if a.keepsBase s'.task.phase then r.base else s'.task.conn
  lost := r.lostBy s'
  through := if r.lostBy s' then r.through else s'.task.conn.cursor
  found :=
    match a with
    | .around _ => r.found
    | .task a => r.found || s.task.finds cap a
  written :=
    match s.effect eng cap a with
    | .wrote f => r.written ++ f.events
    | _ => r.written
  given :=
    match s.effect eng cap a with
    | .wrote f => r.given ++ f.cursors
    | _ => r.given
  read := r.read ++ s'.task.conn.pending.filter (· ∉ s.task.conn.pending)
  offered :=
    match a with
    | .task (.settle _ _) =>
      if s'.task.conn.pending = [] then r.offered ++ s.task.conn.outgoing else r.offered
    | _ => r.offered
  omitted :=
    match a with
    | .task (.settle _ session) =>
      if s'.task.conn.pending = [] then r.omitted ++ s.task.conn.omits session else r.omitted
    | _ => r.omitted
  dropped :=
    match a with
    | .task (.settle _ _) => r.dropped
    | _ => r.dropped ++ s.task.conn.pending.filter (· ∉ s'.task.conn.pending)

end CutRecord

/-- A socket in its surroundings, with the record of its run. -/
def cutSystem (eng : Engine) (cap : Nat) : System (Socket × CutRecord) SocketAct :=
  (socketSystem eng cap).recording .blank fun s a s' r => r.note eng cap s a s'

/-- The person is disconnected once. -/
def OneDisconnect (s : Socket × CutRecord) : SocketAct → Prop
  | .around (.disconnect _) => s.2.disconnect = none
  | _ => True

instance (s : Socket × CutRecord) (a : SocketAct) : Decidable (OneDisconnect s a) := by
  unfold OneDisconnect
  split <;> infer_instance

/-! ## 2. The property -/

/-- The events before `d` that were pending or unread when the turn's reading began, as far as the
    turn read without a loss. -/
def CutRecord.due (r : CutRecord) (log : List Entry) (d : Nat) : List Entry :=
  r.base.pending.filter (fun e => e.seq < d) ++
    r.base.heard ((past Entry.seq r.base.cursor log).filter fun e =>
      e.seq < d ∧ (r.lost = true → e.seq ≤ r.through))

/-- A later entry with the same coalesce key. -/
def Entry.Supersedes (b e : Entry) : Prop :=
  ∃ k, e.coalesce = some k ∧ b.coalesce = some k ∧ e.seq < b.seq

/-- **The cutoff of a disconnect**, in a state of a run with its record. -/
structure Cutoff (eng : Engine) (s : Socket × CutRecord) : Prop where
  /-- Nothing at or past the disconnect is ever written. -/
  never : ∀ d, s.2.disconnect = some d → ∀ x ∈ s.2.written, x < d
  /-- The frames of the closing turn are the events due before the disconnect, coalesced among
      themselves and as the session leaves them, then the `bye`. -/
  exactly : ∀ bye, s.1.task.phase = .settling none (some bye) → s.2.found = true →
    ∃ d, s.2.disconnect = some d ∧ s.1.task.conn.pending = s.2.due s.1.hub.log d ∧
      ∀ now session, (Task.turnFrames eng.config now session none (some bye) s.1.task.conn).1 =
        (s.1.task.conn.batches eng.config session).map Frame.batch ++ [.bye bye]
  /-- A marker of the person's before the disconnect is a loss, and nothing past it is due. -/
  marker : s.2.found = true → ∀ d, s.2.disconnect = some d → ∀ bye,
    s.1.task.phase = .settling none (some bye) → ∀ g ∈ s.1.hub.log,
      Connection.isGap s.1.task.conn.userId g = true → s.2.base.cursor < g.seq → g.seq < d →
        s.2.lost = true ∧ s.2.through < g.seq
  /-- A loss is a marker of the person's or a rollover, past what was read. -/
  loss : s.2.lost = true → s.2.through < s.1.hub.ring.evictedThrough ∨
    ∃ g ∈ s.1.hub.log, Connection.isGap s.1.task.conn.userId g = true ∧ s.2.through < g.seq
  /-- Of what was read, everything up to a cursor the client was given was written, or left out by
      the session, or a later event of its key was handed over for writing. -/
  sent : ∀ p ∈ s.2.given, ∀ e ∈ s.2.read, e.seq ≤ p →
    (e.seq ∈ s.2.written ∨ e ∈ s.2.omitted) ∨ ∃ b ∈ s.2.offered, b.Supersedes e
  /-- A later replay from such a cursor that loses nothing follows no loss, and reads all that is
      delivered past it. -/
  resume : ∀ p ∈ s.2.given, ∀ h now c conn, s.1.hub.Grows h → c.userId = s.1.task.conn.userId →
    c.cursor = p → Connection.CatchUp eng.config now none true h c (none, conn) →
      s.2.lost = false ∧
        conn.pending = c.pending ++
          Connection.admitted eng.config now true c (past Entry.seq p h.log)

/-! ## 3. Where the disconnect's message is -/

/-- The disconnect the turn's branch has seen. -/
def Phase.seen : Phase → Option (Nat × Bool)
  | .selected seen _ _ => seen
  | _ => none

/-- Whether the connection is ending. -/
def Phase.ending : Phase → Bool
  | .cutting _ _ | .cutLost _ _ | .settling _ (some _) | .writing _ true | .closing _ | .closed => true
  | _ => false

/-- The disconnect being cut at. -/
def Phase.cutsAt : Phase → Option Nat
  | .cutting d _ | .cutLost d _ => some d
  | _ => none

/-- Whether the look for a disconnect is behind. -/
def Phase.looked : Phase → Bool
  | .settling _ _ | .writing _ _ => true
  | _ => false

/-- The disconnect's message is on its way to the task, in its hands, or found; from the look on,
    what the task holds lies before it. -/
structure Message (s : Socket × CutRecord) : Prop where
  unlagged : s.1.task.internal.lagged = false
  quiet : s.2.disconnect = none →
    s.1.task.internal.unread = [] ∧ s.1.task.phase.seen = none ∧ s.2.found = false
  heard : ∀ d, s.2.disconnect = some d → d ≤ s.1.hub.sequence ∧
    (s.2.found = true ∨ s.1.task.phase = .closed ∨
      (∃ reconnect, s.1.task.internal.unread = [⟨d, some reconnect⟩] ∧ s.1.task.phase.seen = none) ∨
        ∃ reconnect, s.1.task.phase.seen = some (d, reconnect))
  found : s.2.found = true → s.1.task.phase.ending = true
  cutsAt : ∀ d, s.1.task.phase.cutsAt = some d → s.2.disconnect = some d ∧ s.2.found = true
  looked : ∀ d, s.2.disconnect = some d → s.1.task.phase.looked = true →
    (∀ e ∈ s.1.task.conn.pending, e.seq < d) ∧ ∀ x ∈ s.1.task.gives, x < d
  below : ∀ x ∈ s.2.written, x ≤ s.1.hub.ring.head
  never : ∀ d, s.2.disconnect = some d → ∀ x ∈ s.2.written, x < d

section Message

variable {eng : Engine} {cap : Nat} {s : Socket} {r : CutRecord}

/-- What surrounds the socket keeps its message where it is, or sends it. -/
theorem Message.around (hi : Message (s, r)) (hb : s.task.Bounded s.hub.ring.head) (b : Around)
    (hg : OneDisconnect (s, r) (.around b)) :
    Message (s.surround eng cap b, r.note eng cap s (.around b) (s.surround eng cap b)) := by
  have hgrow : s.hub.Grows (s.surround eng cap b).hub := (s.surround_eq b).2.2
  have hsame : ∀ hub, s.hub.Grows hub → Message (⟨hub, s.task⟩, r) := fun hub hgrow =>
    ⟨hi.unlagged, hi.quiet, fun d hd => ⟨Nat.le_trans (hi.heard d hd).1 hgrow.sequence, (hi.heard d hd).2⟩,
      hi.found, hi.cutsAt, hi.looked, fun x hx => Nat.le_trans (hi.below x hx) hgrow.head, hi.never⟩
  cases b with
  | hub a =>
    obtain ⟨h₁, h₂, h₃, h₄, h₅, h₆, h₇, h₈⟩ := hsame _ hgrow
    exact ⟨h₁, h₂, h₃, h₄, h₅, h₆, h₇, h₈⟩
  | resume now point =>
    obtain ⟨h₁, h₂, h₃, h₄, h₅, h₆, h₇, h₈⟩ := hsame _ hgrow
    exact ⟨h₁, h₂, h₃, h₄, h₅, h₆, h₇, h₈⟩
  | disconnect reconnect =>
    obtain ⟨hunread, hseen, hfound⟩ := hi.quiet hg
    obtain ⟨hp, hc⟩ : (s.hear cap reconnect).phase = s.task.phase ∧ _ := s.hear_eq reconnect
    have hlt : ∀ x ≤ s.hub.ring.head, x < s.hub.sequence + 1 := fun x hx => by
      have := s.hub.head_le
      omega
    have hnotfound : ¬ r.found = true := by rw [hfound]; exact Bool.false_ne_true
    have hgives : (s.hear cap reconnect).gives = s.task.gives := by
      unfold Task.gives
      rw [hp, hc]
    refine ⟨?_, ?_, ?_, fun h => absurd h hnotfound, ?_, ?_, hi.below, ?_⟩
    · show (s.hear cap reconnect).internal.lagged = false
      unfold Socket.hear
      split
      · show (s.task.internal.send _ _).lagged = false
        rw [Receiver.send_of_room (by rw [hunread]; exact nextPowerOfTwo_pos cap)]
        exact hi.unlagged
      · exact hi.unlagged
    · intro hd
      cases hd
    · intro d hd
      cases hd
      refine ⟨Nat.le_refl _, .inr ?_⟩
      by_cases hclosed : s.task.phase = .closed
      · exact .inl (hp.trans hclosed)
      · refine .inr (.inl ⟨reconnect, ?_, hp.symm ▸ hseen⟩)
        show (s.hear cap reconnect).internal.unread = _
        unfold Socket.hear
        rw [if_pos hclosed]
        show (s.task.internal.send _ _).unread = _
        rw [Receiver.send_of_room (by rw [hunread]; exact nextPowerOfTwo_pos cap), hunread]
        rfl
    · intro d hd
      have hcuts : s.task.phase.cutsAt = some d := hp ▸ hd
      exact absurd (hi.cutsAt d hcuts).2 hnotfound
    · intro d hd _
      cases hd
      refine ⟨fun e he => hlt _ (hb.pending e ?_), fun x hx => hlt _ (hb.gives x ?_)⟩
      · have he' : e ∈ (s.hear cap reconnect).conn.pending := he
        rwa [hc] at he'
      · have hx' : x ∈ (s.hear cap reconnect).gives := hx
        rwa [hgives] at hx'
    · intro d hd x hx
      cases hd
      exact hlt x (hi.below x hx)

/-- **The look finds the disconnect if it was published**, and only then. -/
theorem Message.look_cases (hi : Message (s, r)) (cap : Nat) {seen : Option (Nat × Bool)}
    {resync : Option Resync} {bye : Option Bye} (hp : s.task.phase = .selected seen resync bye) :
    (s.task.look cap seen = (none, s.task.internal) ∧ r.disconnect = none) ∨
      ∃ d reconnect internal, s.task.look cap seen = (some (d, reconnect), internal) ∧
        r.disconnect = some d ∧ internal.lagged = false := by
  have hnotfound : ¬ r.found = true := by
    intro hf
    have hending := hi.found hf
    rw [hp] at hending
    cases hending
  have hseen : s.task.phase.seen = seen := by rw [hp]; rfl
  cases hd : r.disconnect with
  | none =>
    obtain ⟨hunread, hs, _⟩ := hi.quiet hd
    obtain rfl : seen = none := hseen.symm.trans hs
    exact .inl ⟨Receiver.poll_of_empty hi.unlagged hunread, rfl⟩
  | some d =>
    refine .inr ?_
    rcases (hi.heard d hd).2 with hf | hclosed | ⟨reconnect, hunread, hs⟩ | ⟨reconnect, hs⟩
    · exact absurd hf hnotfound
    · have hclosed' : s.task.phase = .closed := hclosed
      rw [hp] at hclosed'
      cases hclosed'
    · obtain rfl : seen = none := hseen.symm.trans hs
      exact ⟨d, reconnect, _, Receiver.poll_of_single hi.unlagged hunread rfl, rfl, hi.unlagged⟩
    · obtain rfl : seen = some (d, reconnect) := hseen.symm.trans hs
      exact ⟨d, reconnect, s.task.internal, rfl, rfl, hi.unlagged⟩

/-- What a step does that neither receives a message nor looks for one. -/
structure Carries (t t' : Task) (e : Effect) : Prop where
  internal : t'.internal = t.internal
  seen : t.phase.seen = none ∧ t'.phase.seen = none
  opened : t.phase ≠ .closed
  ending : t.phase.ending = true → t'.phase.ending = true
  cutsAt : ∀ d, t'.phase.cutsAt = some d → t.phase.cutsAt = some d
  looked : t'.phase.looked = true →
    (t.phase.looked = true ∧ (∀ e ∈ t'.conn.pending, e ∈ t.conn.pending) ∧
        ∀ x ∈ t'.gives, x ∈ t.gives ∨ ∃ e ∈ t.conn.pending, e.seq = x) ∨
      ∃ d, t.phase.cutsAt = some d ∧ (∀ e ∈ t'.conn.pending, e.seq < d) ∧ t'.gives = []
  wrote : ∀ f, e = .wrote f → f.events = [] ∨ t.phase.looked = true ∧ ∀ x ∈ f.events, x ∈ t.gives

theorem mem_cutOff {c : Connection} {d : Nat} : ∀ e ∈ (c.cutOff d).pending, e.seq < d :=
  fun _ he => of_decide_eq_true (List.mem_filter.mp he).2

theorem Frame.events_subset {f : Frame} : ∀ x ∈ f.events, x ∈ f.cursors := by
  cases f with
  | batch events => exact fun _ hx => hx
  | _ => exact fun _ hx => (List.not_mem_nil hx).elim

/-- A step that goes to a phase in which the look is not behind. -/
theorem Carries.of_unlooked {t t' : Task} {e : Effect} (hint : t'.internal = t.internal)
    (hseen : t.phase.seen = none) (hseen' : t'.phase.seen = none) (hopen : t.phase ≠ .closed)
    (hending : t.phase.ending = true → t'.phase.ending = true)
    (hcuts : ∀ d, t'.phase.cutsAt = some d → t.phase.cutsAt = some d)
    (hlooked : t'.phase.looked = false) (hwrote : ∀ f, e = .wrote f → f.events = []) :
    Carries t t' e :=
  ⟨hint, ⟨hseen, hseen'⟩, hopen, hending, hcuts,
    fun h => absurd h (by rw [hlooked]; exact Bool.false_ne_true), fun f hf => .inl (hwrote f hf)⟩

theorem Task.Step.carries {h : Hub} {t : Task} {a : TaskAct} {o : Outcome}
    (hs : Task.Step eng cap h t a o) (hinternal : a ≠ .internal) (hpoll : a ≠ .poll) :
    Carries t o.task o.effect := by
  cases hs with
  | lagged | received => exact absurd rfl hinternal
  | unfound | foundGapped | found => exact absurd rfl hpoll
  | cut now sequence bye conn hp hc =>
    refine ⟨rfl, ⟨by rw [hp]; rfl, rfl⟩, (by rw [hp]; exact fun h => by cases h), fun _ => rfl, (fun _ h => by cases h),
      fun _ => .inr ⟨sequence, by rw [hp]; rfl, mem_cutOff, rfl⟩, fun _ h => by cases h⟩
  | refetchCut sequence bye hp =>
    refine ⟨rfl, ⟨by rw [hp]; rfl, rfl⟩, (by rw [hp]; exact fun h => by cases h), fun _ => rfl, (fun _ h => by cases h),
      fun _ => .inr ⟨sequence, by rw [hp]; rfl, mem_cutOff, rfl⟩, fun _ h => by cases h⟩
  | settles now session resync bye hp =>
    refine ⟨rfl, ⟨by rw [hp]; rfl, rfl⟩, (by rw [hp]; exact fun h => by cases h), fun hend => ?_, (fun _ h => by cases h),
      fun _ => .inl ⟨by rw [hp]; rfl, fun e he => ?_, fun x hx => ?_⟩, fun _ h => by cases h⟩
    · rw [hp] at hend
      cases bye with
      | none => cases hend
      | some b => rfl
    · have hf : Task.Flushed t.conn (Task.turnFrames eng.config now session resync bye t.conn).2 :=
        Task.flushed_turnFrames
      rcases hf.pending with hnil | hself
      · have he' : e ∈ (Task.turnFrames eng.config now session resync bye t.conn).2.pending := he
        rw [hnil] at he'
        cases he'
      · exact hself ▸ he
    · obtain ⟨f, hf, hxf⟩ := List.mem_flatMap.mp hx
      exact .inr (Task.cursors_turnFrames hf hxf)
  | writes f frames last hp =>
    refine ⟨rfl, ⟨by rw [hp]; rfl, rfl⟩, (by rw [hp]; exact fun h => by cases h), fun hend => ?_, (fun _ h => by cases h),
      fun _ => .inl ⟨by rw [hp]; rfl, fun _ => id, fun x hx => .inl ?_⟩, fun g hg => .inr ?_⟩
    · rw [hp] at hend
      cases last with
      | false => cases hend
      | true => rfl
    · rw [Task.gives, hp]
      exact List.mem_append_right _ hx
    · cases hg
      refine ⟨by rw [hp]; rfl, fun x hx => ?_⟩
      rw [Task.gives, hp]
      exact List.mem_append_left _ (Frame.events_subset x hx)
  | written last hp =>
    refine Carries.of_unlooked rfl (by rw [hp]; rfl) ?_ (by rw [hp]; exact fun h => by cases h) ?_ ?_ ?_ (fun _ h => by cases h)
    · cases last <;> rfl
    · rw [hp]
      cases last with
      | false => rintro ⟨⟩
      | true => exact fun _ => rfl
    · cases last <;> rintro _ ⟨⟩
    · cases last <;> rfl
  | branch bye hp =>
    rcases hp with hp | hp <;>
      exact Carries.of_unlooked rfl (by rw [hp]; rfl) rfl (by rw [hp]; exact fun h => by cases h)
        (by rw [hp]; exact fun h => by cases h) (fun _ h => by cases h) rfl (fun _ h => by cases h)
  | leaves person hp =>
    have hseen : t.phase.seen = none := by
      cases hphase : t.phase with
      | selected => rw [hphase] at hp; cases hp
      | _ => rfl
    have hopen : t.phase ≠ .closed := fun hclosed => by rw [hclosed] at hp; cases hp
    exact Carries.of_unlooked rfl hseen rfl hopen (fun _ => rfl) (fun _ h => by cases h) rfl (fun _ h => by cases h)
  | cutLost now sequence bye reason conn hp hc =>
    exact Carries.of_unlooked rfl (by rw [hp]; rfl) rfl (by rw [hp]; exact fun h => by cases h) (fun _ => rfl)
      (fun d hd => by rw [hp]; exact hd) rfl (fun _ h => by cases h)
  | welcomes start hp =>
    exact Carries.of_unlooked rfl (by rw [hp]; rfl) rfl (by rw [hp]; exact fun h => by cases h)
      (by rw [hp]; exact fun h => by cases h) (fun _ h => by cases h) rfl fun f hf => by cases hf; rfl
  | ping hp =>
    exact Carries.of_unlooked rfl (by rw [hp]; rfl) rfl (by rw [hp]; exact fun h => by cases h)
      (by rw [hp]; exact fun h => by cases h) (fun _ h => by cases h) rfl fun f hf => by cases hf; rfl
  | dropPerson hp | dropObserver hp =>
    exact Carries.of_unlooked rfl (by rw [hp]; rfl) rfl (by rw [hp]; exact fun h => by cases h) (fun _ => rfl) (fun _ h => by cases h)
      rfl (fun _ h => by cases h)
  | hello _ _ hp | followHello _ _ _ _ _ _ _ hp | resumes _ _ hp | starts _ _ hp | replayed _ _ hp
  | replayLost _ _ _ hp | refetchReplay hp | refetchStart hp | sub _ hp | followSub _ _ _ _ _ _ hp
  | unsub _ hp | caughtUp _ _ hp | catchLost _ _ _ hp | refetchCatch _ hp =>
    exact Carries.of_unlooked rfl (by rw [hp]; rfl) rfl (by rw [hp]; exact fun h => by cases h)
      (by rw [hp]; exact fun h => by cases h) (fun _ h => by cases h) rfl (fun _ h => by cases h)

variable {a : TaskAct} {o : Outcome}

theorem effect_eq (ho : s.task.step eng cap s.hub a = some o) :
    s.effect eng cap (.task a) = o.effect := by
  simp only [Socket.effect, ho]

theorem finds_of_ne {t : Task} (ha : a ≠ .poll) : t.finds cap a = false := by
  cases a with
  | poll => exact absurd rfl ha
  | _ => rfl

/-- What is written after the step. -/
theorem mem_written (ho : s.task.step eng cap s.hub a = some o) {x : Nat}
    (hx : x ∈ (r.note eng cap s (.task a) ⟨o.hub, o.task⟩).written) :
    x ∈ r.written ∨ ∃ f, o.effect = .wrote f ∧ x ∈ f.events := by
  simp only [CutRecord.note, effect_eq ho] at hx
  split at hx
  · next f hf =>
    rcases List.mem_append.mp hx with hx | hx
    · exact .inl hx
    · exact .inr ⟨f, hf, hx⟩
  · exact .inl hx

/-- **A step of the task that carries its message keeps it.** -/
theorem Message.carried (hi : Message (s, r)) (hb : s.task.Bounded s.hub.ring.head)
    (ho : s.task.step eng cap s.hub a = some o) (hinternal : a ≠ .internal) (hpoll : a ≠ .poll) :
    Message (⟨o.hub, o.task⟩, r.note eng cap s (.task a) ⟨o.hub, o.task⟩) := by
  have hs := Task.step_cases ho
  have hc : Carries s.task o.task o.effect := hs.carries hinternal hpoll
  obtain ⟨hgrow, _, hhead, _, _⟩ := hs.hub
  have hfound : (r.found || s.task.finds cap a) = r.found := by
    rw [finds_of_ne hpoll, Bool.or_false]
  -- what is written was looked at before
  have hwritten : ∀ d, r.disconnect = some d → ∀ f, o.effect = .wrote f → ∀ x ∈ f.events, x < d := by
    intro d hd f hf x hx
    rcases hc.wrote f hf with hnil | ⟨hlooked, hgives⟩
    · rw [hnil] at hx
      cases hx
    · exact (hi.looked d hd hlooked).2 x (hgives x hx)
  refine ⟨hc.internal ▸ hi.unlagged, fun hd => ?_, fun d hd => ?_, fun hf => ?_, fun d hd => ?_,
    fun d hd hlooked => ?_, fun x hx => ?_, fun d hd x hx => ?_⟩
  · obtain ⟨hunread, _, hf⟩ := hi.quiet hd
    exact ⟨hc.internal ▸ hunread, hc.seen.2, hfound.trans hf⟩
  · obtain ⟨hle, hcases⟩ := hi.heard d hd
    refine ⟨Nat.le_trans hle hgrow.sequence, ?_⟩
    rcases hcases with hf | hclosed | ⟨reconnect, hunread, _⟩ | ⟨reconnect, hseen⟩
    · exact .inl (hfound.trans hf)
    · exact absurd hclosed hc.opened
    · exact .inr (.inr (.inl ⟨reconnect, hc.internal ▸ hunread, hc.seen.2⟩))
    · rw [hc.seen.1] at hseen
      cases hseen
  · exact hc.ending (hi.found (hfound ▸ hf))
  · obtain ⟨hd', hf⟩ := hi.cutsAt d (hc.cutsAt d hd)
    exact ⟨hd', hfound.trans hf⟩
  · rcases hc.looked hlooked with ⟨hbefore, hpend, hgives⟩ | ⟨d', hcuts, hpend, hgives⟩
    · obtain ⟨hpend', hgives'⟩ := hi.looked d hd hbefore
      refine ⟨fun e he => hpend' e (hpend e he), fun x hx => ?_⟩
      rcases hgives x hx with hx | ⟨e, he, rfl⟩
      · exact hgives' x hx
      · exact hpend' e he
    · have hd' : r.disconnect = some d' := (hi.cutsAt d' hcuts).1
      obtain rfl : d' = d := Option.some.inj (hd'.symm.trans hd)
      refine ⟨hpend, fun x hx => ?_⟩
      have hx' : x ∈ o.task.gives := hx
      rw [hgives] at hx'
      cases hx'
  · rw [hhead]
    rcases mem_written ho hx with hx | ⟨f, hf, hx⟩
    · exact hi.below x hx
    · exact hb.gives x (hs.cursors hf x (Frame.events_subset x hx))
  · rcases mem_written ho hx with hx | ⟨f, hf, hx⟩
    · exact hi.never d hd x hx
    · exact hwritten d hd f hf x hx

/-- A task in the middle of its turn has not found the disconnect. -/
theorem Message.not_found (hi : Message (s, r)) (hp : s.task.phase.ending = false) :
    r.found = false := by
  rw [Bool.eq_false_iff]
  intro hf
  rw [hi.found hf] at hp
  cases hp

/-- **Receiving the message puts it into the task's hands.** -/
theorem Message.received (hi : Message (s, r)) (ho : s.task.step eng cap s.hub .internal = some o) :
    Message (⟨o.hub, o.task⟩, r.note eng cap s (.task .internal) ⟨o.hub, o.task⟩) := by
  have hwritten : ∀ x ∈ (r.note eng cap s (.task .internal) ⟨o.hub, o.task⟩).written,
      (∀ f, o.effect ≠ .wrote f) → x ∈ r.written := by
    intro x hx hno
    rcases mem_written ho hx with hx | ⟨f, hf, _⟩
    · exact hx
    · exact absurd hf (hno f)
  cases Task.step_cases ho with
  | lagged internal hp hr =>
    rw [Receiver.recv_of_unlagged hi.unlagged] at hr
    split at hr <;> cases hr
  | received m internal hp hr =>
    have hnotfound : r.found = false := hi.not_found (by rw [hp]; rfl)
    rw [Receiver.recv_of_unlagged hi.unlagged] at hr
    split at hr
    · cases hr
    · next m' rest hunread =>
      cases hr
      -- the one message is the disconnect's
      have hmessage : ∃ d reconnect, r.disconnect = some d ∧ m = ⟨d, some reconnect⟩ ∧ rest = [] := by
        cases hd : r.disconnect with
        | none => rw [(hi.quiet hd).1] at hunread; cases hunread
        | some d =>
          rcases (hi.heard d hd).2 with hf | hclosed | ⟨reconnect, hone, _⟩ | ⟨reconnect, hseen⟩
          · rw [hnotfound] at hf; cases hf
          · have hclosed' : s.task.phase = .closed := hclosed
            rw [hp] at hclosed'
            cases hclosed'
          · rw [hone] at hunread
            cases hunread
            exact ⟨d, reconnect, rfl, rfl, rfl⟩
          · have hseen' : s.task.phase.seen = some (d, reconnect) := hseen
            rw [hp] at hseen'
            cases hseen'
      obtain ⟨d, reconnect, hd, rfl, rfl⟩ := hmessage
      refine ⟨hi.unlagged, fun hn => ?_, fun d' hd' => ?_, fun hf => ?_, nofun, fun _ _ => nofun, ?_, ?_⟩
      · have hn' : r.disconnect = none := hn
        rw [hd] at hn'
        cases hn'
      · obtain ⟨hle, _⟩ := hi.heard d' hd'
        obtain rfl : d = d' := Option.some.inj (hd.symm.trans hd')
        exact ⟨hle, .inr (.inr (.inr ⟨reconnect, rfl⟩))⟩
      · have hf' : (r.found || false) = true := hf
        rw [hnotfound] at hf'
        cases hf'
      · exact fun x hx => hi.below x (hwritten x hx nofun)
      · exact fun d' hd' x hx => hi.never d' hd' x (hwritten x hx nofun)
  | leaves _ _ _ ha => rcases ha with ha | ha <;> cases ha
  | branch _ _ _ ha => rcases ha with ha | ha | ⟨_, ha⟩ <;> cases ha

/-- **The look finds the message, or there is none.** -/
theorem Message.polled (hi : Message (s, r)) (ho : s.task.step eng cap s.hub .poll = some o) :
    Message (⟨o.hub, o.task⟩, r.note eng cap s (.task .poll) ⟨o.hub, o.task⟩) := by
  have hwritten : ∀ x ∈ (r.note eng cap s (.task .poll) ⟨o.hub, o.task⟩).written,
      (∀ f, o.effect ≠ .wrote f) → x ∈ r.written := by
    intro x hx hno
    rcases mem_written ho hx with hx | ⟨f, hf, _⟩
    · exact hx
    · exact absurd hf (hno f)
  cases Task.step_cases ho with
  | unfound seen resync bye internal hp hl =>
    rcases hi.look_cases cap hp with ⟨hlook, hd⟩ | ⟨d, reconnect, internal', hlook, _⟩
    · rw [hlook] at hl
      cases hl
      obtain ⟨hunread, _, hf⟩ := hi.quiet hd
      have hfinds : s.task.finds cap .poll = false := by
        simp only [Task.finds, hp, hlook, Option.isSome_none]
      have hnone : ∀ d, r.disconnect ≠ some d := fun d hd' => by rw [hd] at hd'; cases hd'
      refine ⟨hi.unlagged, fun _ => ⟨hunread, rfl, ?_⟩, fun d hd' => absurd hd' (hnone d), fun hf' => ?_,
        nofun, fun d hd' => absurd hd' (hnone d), ?_, fun d hd' => absurd hd' (hnone d)⟩
      · show (r.found || s.task.finds cap .poll) = false
        rw [hf, hfinds]
        rfl
      · have hf'' : (r.found || s.task.finds cap .poll) = true := hf'
        rw [hfinds] at hf''
        rw [show r.found = false from hf] at hf''
        cases hf''
      · exact fun x hx => hi.below x (hwritten x hx nofun)
    · rw [hlook] at hl
      cases hl
  | foundGapped seen resync bye sequence reconnect internal hp hl =>
    rcases hi.look_cases cap hp with ⟨hlook, _⟩ | ⟨d, _, internal', hlook, hd, hlag⟩
    · rw [hlook] at hl
      cases hl
    · rw [hlook] at hl
      cases hl
      have hfinds : s.task.finds cap .poll = true := by
        simp only [Task.finds, hp, hlook, Option.isSome_some]
      refine ⟨hlag, fun hn => ?_, fun d' hd' => ⟨(hi.heard d' hd').1, .inl ?_⟩, fun _ => rfl, nofun,
        fun d' hd' _ => ?_, ?_, fun d' hd' x hx => hi.never d' hd' x (hwritten x hx nofun)⟩
      · rw [show r.disconnect = none from hn] at hd
        cases hd
      · show (r.found || s.task.finds cap .poll) = true
        rw [hfinds, Bool.or_true]
      · obtain rfl : sequence = d' := Option.some.inj (hd.symm.trans hd')
        exact ⟨mem_cutOff, fun _ hx => (List.not_mem_nil hx).elim⟩
      · exact fun x hx => hi.below x (hwritten x hx nofun)
  | found seen bye sequence reconnect internal hp hl =>
    rcases hi.look_cases cap hp with ⟨hlook, _⟩ | ⟨d, _, internal', hlook, hd, hlag⟩
    · rw [hlook] at hl
      cases hl
    · rw [hlook] at hl
      cases hl
      have hfinds : s.task.finds cap .poll = true := by
        simp only [Task.finds, hp, hlook, Option.isSome_some]
      have hfound : (r.found || s.task.finds cap .poll) = true := by rw [hfinds, Bool.or_true]
      refine ⟨hlag, fun hn => ?_, fun d' hd' => ⟨(hi.heard d' hd').1, .inl hfound⟩, fun _ => rfl,
        fun d' hd' => ?_, fun _ _ => nofun, ?_, fun d' hd' x hx => hi.never d' hd' x (hwritten x hx nofun)⟩
      · rw [show r.disconnect = none from hn] at hd
        cases hd
      · cases hd'
        exact ⟨hd, hfound⟩
      · exact fun x hx => hi.below x (hwritten x hx nofun)
  | leaves _ _ _ ha => rcases ha with ha | ha <;> cases ha
  | branch _ _ _ ha => rcases ha with ha | ha | ⟨_, ha⟩ <;> cases ha

theorem Message.task (hi : Message (s, r)) (hb : s.task.Bounded s.hub.ring.head)
    (ho : s.task.step eng cap s.hub a = some o) :
    Message (⟨o.hub, o.task⟩, r.note eng cap s (.task a) ⟨o.hub, o.task⟩) := by
  by_cases hinternal : a = .internal
  · subst hinternal
    exact hi.received ho
  · by_cases hpoll : a = .poll
    · subst hpoll
      exact hi.polled ho
    · exact hi.carried hb ho hinternal hpoll

end Message

end Smartfire
