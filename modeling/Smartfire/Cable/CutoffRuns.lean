/-
  File:      Smartfire/Cable/CutoffRuns.lean
  Subject:   What is sent before a disconnect, and the cutoff in every run.

  Everything read is handed over in order or dropped past all that is written, so a cursor given to
  the client has nothing unwritten before it. With the message's way (Cable/Cutoff.lean) and the
  closing turn's reading (Cable/ClosingTurn.lean) this is the cutoff.

  * `Sent`, `Sends` -- the account of what is read, and what a step does to it;
  * `cutoff_of_reach` -- the cutoff holds in every run with one disconnect;
  * `cutoff_gapped` -- an event before the disconnect is left unwritten for a marker after it.
-/
import Smartfire.Cable.ClosingTurn

namespace Smartfire

open Lib
open scoped List

/-! ## 1. What is sent -/

/-- The cursors in the frames still to be written. -/
def Phase.inFlight (p : Phase) : List Nat := p.frames.flatMap Frame.cursors

/-- Whether the `welcome` is yet to be written. -/
def Phase.unwelcomed : Phase → Bool
  | .opened | .greeted _ _ | .resumed | .replayLost | .starting | .welcoming _ => true
  | _ => false

/-- Whether nothing can have been read. -/
def Phase.unread : Phase → Bool
  | .opened | .greeted _ _ | .resumed | .replayLost | .starting => true
  | _ => false

/-- Whether the loop goes on. -/
def Phase.goesOn : Phase → Bool
  | .closing _ | .closed => false
  | _ => true

/-- What is read is handed over in order or dropped past all that is written: the cursors given lie
    before the frames in flight, and these before what is pending. -/
structure Sent (s : Socket × CutRecord) : Prop where
  increasing : Increasing Entry.seq s.1.task.conn.pending
  unwelcomed : s.1.task.phase.unwelcomed = true → s.2.given = [] ∧ s.2.dropped = []
  unread : s.1.task.phase.unread = true → s.1.task.conn.pending = []
  given_le : ∀ p ∈ s.2.given, p ≤ s.2.through
  gives_le : ∀ x ∈ s.1.task.gives, x ≤ s.2.through
  given_lt : ∀ p ∈ s.2.given, ∀ e ∈ s.1.task.conn.pending, p < e.seq
  gives_lt : ∀ x ∈ s.1.task.gives, ∀ e ∈ s.1.task.conn.pending, x < e.seq
  order : s.1.task.phase.inFlight.Pairwise (· < ·)
  flight : ∀ p ∈ s.2.given, ∀ x ∈ s.1.task.phase.inFlight, p < x
  dropped : ∀ e ∈ s.2.dropped, (∃ d, s.2.disconnect = some d ∧ d ≤ e.seq) ∧ ∀ p ∈ s.2.given, p < e.seq
  accounted : ∀ e ∈ s.2.read, (e ∈ s.2.offered ∨ ∃ b ∈ s.2.offered, b.Supersedes e) ∨
    e ∈ s.1.task.conn.pending ∨ e ∈ s.2.dropped
  handed : s.1.task.phase.goesOn = true → ∀ e ∈ s.2.offered,
    (e.seq ∈ s.2.written ∨ e ∈ s.2.omitted) ∨ e.seq ∈ s.1.task.phase.inFlight
  sent : ∀ p ∈ s.2.given, ∀ e ∈ s.2.offered, e.seq ≤ p → e.seq ∈ s.2.written ∨ e ∈ s.2.omitted

/-- What a step does to what is pending and to what is in flight. -/
inductive Sends (r : CutRecord) (t t' : Task) (a : TaskAct) (e : Effect) : Prop where
  | plain (hsettle : ∀ now session, a ≠ .settle now session)
      (hwrote : ∀ f, e = .wrote f → f.cursors = [])
      (hpend : ∀ b ∈ t'.conn.pending, b ∈ t.conn.pending ∨ t.conn.cursor < b.seq)
      (hinc : (∀ b ∈ t.conn.pending, b.seq ≤ t.conn.cursor) → Increasing Entry.seq t.conn.pending →
        Increasing Entry.seq t'.conn.pending)
      (hdrop : ∀ b ∈ t.conn.pending, b ∈ t'.conn.pending ∨ ∃ d, r.disconnect = some d ∧ d ≤ b.seq)
      (hgives : t'.gives = [] ∨ t.phase.unread = true ∧ t'.phase.lossy = some false ∧
        ∃ x ≤ t'.conn.cursor, t'.gives = [x] ∧ (t.conn.pending = [] → ∀ b ∈ t'.conn.pending, x < b.seq))
      (hflight : t'.phase.inFlight = [])
      (hgoes : t'.phase.goesOn = true → t.phase.goesOn = true ∧ t.phase.inFlight = [])
      (hwelcome : t'.phase.unwelcomed = true → t.phase.unwelcomed = true ∧
        ∀ b ∈ t.conn.pending, b ∈ t'.conn.pending)
      (hread : t'.phase.unread = true → t.phase.unread = true ∧ t'.conn.pending = t.conn.pending)
  | settles (now : Nat) (session : Session) (ha : a = .settle now session) (he : e = .quiet)
      (resync : Option Resync) (bye : Option Bye) (hp : t.phase = .settling resync bye)
      (frames : List Frame) (last : Bool) (hp' : t'.phase = .writing frames last)
      (hcases : t'.conn.pending = [] ∧
          frames.flatMap Frame.cursors = (session.eventsForViewer t.conn.wires).map Wire.seq ∨
        t'.conn.pending = t.conn.pending ∧ frames.flatMap Frame.cursors = [])
  | writes (ha : ∀ now session, a ≠ .settle now session) (f : Frame) (he : e = .wrote f)
      (frames : List Frame) (last : Bool) (hp : t.phase = .writing (f :: frames) last)
      (hp' : t'.phase = .writing frames last) (hc : t'.conn = t.conn)
  | welcomes (ha : ∀ now session, a ≠ .settle now session) (f : Frame) (he : e = .wrote f)
      (start : Option Nat) (hp : t.phase = .welcoming start) (hf : f.cursors = t.gives)
      (hp' : t'.phase = .turn) (hc : t'.conn = t.conn)

section Sent

variable {eng : Engine} {cap : Nat} {s : Socket} {r : CutRecord} {a : TaskAct} {o : Outcome}

/-- A step that leaves what is pending alone, and makes no frame. -/
theorem Sends.of_pending_eq {t t' : Task} {e : Effect} (hsettle : ∀ now session, a ≠ .settle now session)
    (hwrote : ∀ f, e = .wrote f → f.cursors = []) (hpend : t'.conn.pending = t.conn.pending)
    (hgives : t'.gives = []) (hflight : t'.phase.inFlight = [])
    (hgoes : t'.phase.goesOn = true → t.phase.goesOn = true ∧ t.phase.inFlight = [])
    (hwelcome : t'.phase.unwelcomed = true → t.phase.unwelcomed = true)
    (hread : t'.phase.unread = true → t.phase.unread = true) : Sends r t t' a e :=
  .plain hsettle hwrote (fun _ hb => .inl (hpend ▸ hb)) (fun _ h => hpend ▸ h)
    (fun _ hb => .inl (hpend ▸ hb)) (.inl hgives) hflight hgoes
    (fun h => ⟨hwelcome h, fun _ hb => hpend ▸ hb⟩) (fun h => ⟨hread h, hpend⟩)

/-- A step that drops what is pending at or past the disconnect. -/
theorem Sends.of_cut {t t' : Task} {e : Effect} {d : Nat} (hd : r.disconnect = some d)
    (hsettle : ∀ now session, a ≠ .settle now session) (he : e = .quiet ∨ e = .refetched)
    (hp : ∀ b, b ∈ t'.conn.pending ↔ b ∈ t.conn.pending ∧ b.seq < d)
    (hsub : t'.conn.pending <+ t.conn.pending) {resync : Option Resync} {bye : Option Bye}
    (hphase : t'.phase = .settling resync bye) 
    (hgoes : t.phase.goesOn = true ∧ t.phase.inFlight = []) : Sends r t t' a e := by
  refine .plain hsettle (fun f hf => ?_) (fun b hb => .inl ((hp b).mp hb).1)
    (fun _ h => h.sublist hsub) (fun b hb => ?_) (.inl (by rw [Task.gives, hphase]))
    (by rw [hphase]; rfl) (fun _ => hgoes) (fun h => ?_) (fun h => ?_)
  · rcases he with rfl | rfl <;> cases hf
  · by_cases hlt : b.seq < d
    · exact .inl ((hp b).mpr ⟨hb, hlt⟩)
    · exact .inr ⟨d, hd, Nat.not_lt.mp hlt⟩
  · rw [hphase] at h
    cases h
  · rw [hphase] at h
    cases h

theorem mem_pending_cutOff {c : Connection} {d : Nat} (b : Entry) :
    b ∈ (c.cutOff d).pending ↔ b ∈ c.pending ∧ b.seq < d := by
  simp [Connection.cutOff]

/-- What a catch-up that loses nothing adds lies past the cursor, in order. -/
theorem Connection.CatchUp.adds {cfg : SyncConfig} {now : Nat} {before : Option Nat} {replay : Bool}
    {h : Hub} {c conn : Connection} (hc : Connection.CatchUp cfg now before replay h c (none, conn)) :
    ∃ new, conn.pending = c.pending ++ new ∧ Increasing Entry.seq new ∧ ∀ b ∈ new, c.cursor < b.seq := by
  cases hc with
  | events =>
    refine ⟨_, Connection.addAll_pending, ?_, fun b hb => ?_⟩
    · exact (h.keeps.increasing.sublist (past_sublist _ _)).sublist
        (Connection.admitted_sublist.trans (Connection.cutAt_sublist _ _))
    · exact (mem_past.mp (Connection.mem_cutAt.mp (Connection.mem_admitted hb).1).1).2

/-- A catch-up of an unanswered, a turn's or a closing reading. -/
theorem Sends.of_reading {t t' : Task} {new : List Entry} {d : Option Nat}
    (hd : ∀ x, d = some x → r.disconnect = some x)
    (hsettle : ∀ now session, a ≠ .settle now session)
    (hnew : t'.conn.pending = (t.conn.pending ++ new).filter fun b => d.all fun x => b.seq < x)
    (hincreasing : Increasing Entry.seq new) (hpast : ∀ b ∈ new, t.conn.cursor < b.seq)
    (hgives : t'.gives = [] ∨ t.phase.unread = true ∧ t'.phase.lossy = some false ∧
      t.conn.cursor ≤ t'.conn.cursor ∧ t'.gives = [t.conn.cursor])
    (hflight : t'.phase.inFlight = []) (hgoes : t.phase.goesOn = true ∧ t.phase.inFlight = [])
    (hwelcome : t'.phase.unwelcomed = true → t.phase.unwelcomed = true ∧ d = none)
    (hread : t'.phase.unread = false) : Sends r t t' a .quiet := by
  have hmem : ∀ b ∈ t'.conn.pending, b ∈ t.conn.pending ∨ b ∈ new := fun b hb => by
    rw [hnew] at hb
    exact List.mem_append.mp (List.mem_of_mem_filter hb)
  have hahead : t.conn.pending = [] → ∀ b ∈ t'.conn.pending, t.conn.cursor < b.seq := by
    intro hnil b hb
    rcases hmem b hb with hold | hnew
    · rw [hnil] at hold
      cases hold
    · exact hpast b hnew
  refine .plain hsettle nofun (fun b hb => (hmem b hb).imp_right (hpast b)) (fun hle hinc => ?_)
    (fun b hb => ?_) (hgives.imp_right fun ⟨hu, hl, hle, hg⟩ => ⟨hu, hl, _, hle, hg, hahead⟩)
    hflight (fun _ => hgoes) (fun h => ⟨(hwelcome h).1, fun b hb => ?_⟩) (fun h => ?_)
  · rw [hnew]
    refine Increasing.sublist (increasing_append.mpr ⟨hinc, hincreasing, fun b hb c hc => ?_⟩)
      List.filter_sublist
    exact Nat.lt_of_le_of_lt (hle b hb) (hpast c hc)
  · cases d with
    | none =>
      rw [hnew]
      exact .inl (List.mem_filter.mpr ⟨List.mem_append_left _ hb, rfl⟩)
    | some x =>
      by_cases hlt : b.seq < x
      · rw [hnew]
        exact .inl (List.mem_filter.mpr ⟨List.mem_append_left _ hb, decide_eq_true hlt⟩)
      · exact .inr ⟨x, hd x rfl, Nat.not_lt.mp hlt⟩
  · obtain ⟨_, rfl⟩ := hwelcome h
    rw [hnew]
    exact List.mem_filter.mpr ⟨List.mem_append_left _ hb, rfl⟩
  · rw [hread] at h
    cases h

theorem Task.Step.sends (hs : Task.Step eng cap s.hub s.task a o) (hm : Message (s, r)) :
    Sends r s.task o.task a o.effect := by
  cases hs with
  | hello point topics hp =>
    exact .of_pending_eq (fun _ _ h => by cases h) (fun _ h => by cases h) rfl rfl rfl (fun _ => by rw [hp]; exact ⟨rfl, rfl⟩)
      (fun _ => by rw [hp]; rfl) (fun _ => by rw [hp]; rfl)
  | followHello point topic topics rest authorized more conn hp hf =>
    exact .of_pending_eq (fun _ _ h => by cases h) (fun _ h => by cases h) (Task.followOne_cursor hf).2 rfl rfl
      (fun _ => by rw [hp]; exact ⟨rfl, rfl⟩)
      (fun _ => by rw [hp]; rfl) (fun _ => by rw [hp]; rfl)
  | resumes now p hp | starts now p hp | refetchReplay hp =>
    exact .of_pending_eq (fun _ _ h => by cases h) (fun _ h => by cases h) rfl rfl rfl (fun _ => by rw [hp]; exact ⟨rfl, rfl⟩)
      (fun _ => by rw [hp]; rfl) (fun _ => by rw [hp]; rfl)
  | replayLost now reason conn hp hc =>
    exact .of_pending_eq (fun _ _ h => by cases h) (fun _ h => by cases h) hc.lost_pending rfl rfl
      (fun _ => by rw [hp]; exact ⟨rfl, rfl⟩)
      (fun _ => by rw [hp]; rfl) (fun _ => by rw [hp]; rfl)
  | refetchStart hp =>
    refine .plain (fun _ _ h => by cases h) (fun _ h => by cases h) (fun _ => .inl) (fun _ => id) (fun _ => .inl) ?_ rfl
      (fun _ => by rw [hp]; exact ⟨rfl, rfl⟩) (fun _ => ⟨by rw [hp]; rfl, fun _ => id⟩) (fun h => by cases h)
    refine .inr ⟨by rw [hp]; rfl, rfl, _, Nat.le_refl _, rfl, fun hnil b hb => ?_⟩
    have hb' : b ∈ s.task.conn.pending := hb
    rw [hnil] at hb'
    cases hb'
  | replayed now conn hp hc =>
    obtain ⟨new, hnew, hinc, hpast⟩ := hc.adds
    refine .of_reading (d := none) (fun _ h => by cases h) (fun _ _ h => by cases h) ?_ hinc hpast ?_ rfl
      (by rw [hp]; exact ⟨rfl, rfl⟩)
      (fun _ => ⟨by rw [hp]; rfl, rfl⟩) rfl
    · exact hnew.trans (List.filter_eq_self.mpr fun _ _ => rfl).symm
    · exact .inr ⟨by rw [hp]; rfl, rfl, hc.reads.1, rfl⟩
  | caughtUp now conn hp hc =>
    obtain ⟨new, hnew, hinc, hpast⟩ := hc.adds
    refine .of_reading (d := none) (fun _ h => by cases h) (fun _ _ h => by cases h) ?_ hinc hpast (.inl rfl) rfl
      (by rw [hp]; exact ⟨rfl, rfl⟩) (fun h => by cases h) rfl
    exact hnew.trans (List.filter_eq_self.mpr fun _ _ => rfl).symm
  | cut now sequence bye conn hp hc =>
    obtain ⟨new, hnew, hinc, hpast⟩ := hc.adds
    refine .of_reading (d := some sequence) (fun x hx => ?_) (fun _ _ h => by cases h) ?_ hinc hpast (.inl rfl) rfl
      (by rw [hp]; exact ⟨rfl, rfl⟩) (fun h => by cases h) rfl
    · cases hx
      exact (hm.cutsAt sequence (by rw [hp]; rfl)).1
    · show conn.pending.filter _ = _
      rw [hnew]
      rfl
  | foundGapped seen resync bye sequence reconnect internal hp hl =>
    rcases hm.look_cases cap hp with ⟨hlook, _⟩ | ⟨d, _, internal', hlook, hd, _⟩
    · rw [hlook] at hl
      cases hl
    · rw [hlook] at hl
      cases hl
      exact .of_cut hd (fun _ _ h => by cases h) (.inl rfl) mem_pending_cutOff List.filter_sublist rfl
        (by rw [hp]; exact ⟨rfl, rfl⟩)
  | refetchCut sequence bye hp =>
    exact .of_cut (hm.cutsAt sequence (by rw [hp]; rfl)).1 (fun _ _ h => by cases h) (.inr rfl) mem_pending_cutOff
      List.filter_sublist rfl (by rw [hp]; exact ⟨rfl, rfl⟩)
  | settles now session resync bye hp =>
    refine .settles now session rfl rfl resync bye hp _ _ rfl ?_
    have hcases := @Task.turnFrames_cases eng.config now session resync bye s.task.conn
    exact hcases.imp_right fun ⟨hc, hf⟩ => ⟨congrArg Connection.pending hc, hf⟩
  | writes f frames last hp => exact .writes (fun _ _ h => by cases h) f rfl frames last hp rfl rfl
  | welcomes start hp => exact .welcomes (fun _ _ h => by cases h) _ rfl start hp (by rw [Task.gives, hp]; rfl) rfl rfl
  | leaves person hp a ha =>
    have hsettle : ∀ now session, a ≠ .settle now session := by rcases ha with rfl | rfl <;> rintro _ _ ⟨⟩
    exact .of_pending_eq hsettle (fun _ h => by cases h) rfl rfl rfl (fun h => by cases h) (fun h => by cases h) (fun h => by cases h)
  | written last hp =>
    cases last <;>
      exact .of_pending_eq (fun _ _ h => by cases h) (fun _ h => by cases h) rfl rfl rfl (fun _ => by rw [hp]; exact ⟨rfl, rfl⟩)
        (fun h => by cases h) (fun h => by cases h)
  | branch bye hp a ha =>
    have hsettle : ∀ now session, a ≠ .settle now session := by
      rcases ha with rfl | rfl | ⟨b, rfl⟩ <;> rintro _ _ ⟨⟩
    refine .of_pending_eq hsettle (fun _ h => by cases h) rfl rfl rfl (fun _ => ?_) (fun h => by cases h) (fun h => by cases h)
    rcases hp with hp | hp <;> rw [hp] <;> exact ⟨rfl, rfl⟩
  | followSub topic topics rest authorized more conn hp hf =>
    exact .of_pending_eq (fun _ _ h => by cases h) (fun _ h => by cases h) (Task.followOne_cursor hf).2 rfl rfl
      (fun _ => by rw [hp]; exact ⟨rfl, rfl⟩)
      (fun h => by cases h) (fun h => by cases h)
  | catchLost now reason conn hp hc =>
    exact .of_pending_eq (fun _ _ h => by cases h) (fun _ h => by cases h) hc.lost_pending rfl rfl
      (fun _ => by rw [hp]; exact ⟨rfl, rfl⟩) (fun h => by cases h) (fun h => by cases h)
  | cutLost now sequence bye reason conn hp hc =>
    exact .of_pending_eq (fun _ _ h => by cases h) (fun _ h => by cases h) hc.lost_pending rfl rfl
      (fun _ => by rw [hp]; exact ⟨rfl, rfl⟩) (fun h => by cases h) (fun h => by cases h)
  | ping hp =>
    exact .of_pending_eq (fun _ _ h => by cases h) (fun f hf => by cases hf; rfl) rfl rfl rfl
      (fun _ => by rw [hp]; exact ⟨rfl, rfl⟩)
      (fun h => by cases h) (fun h => by cases h)
  | dropPerson hp | dropObserver hp =>
    exact .of_pending_eq (fun _ _ h => by cases h) (fun _ h => by cases h) rfl rfl rfl (fun h => by cases h) (fun h => by cases h) (fun h => by cases h)
  | lagged _ hp | received _ _ hp | sub _ hp | unsub _ hp | refetchCatch _ hp | unfound _ _ _ _ hp
  | found _ _ _ _ _ hp =>
    exact .of_pending_eq (fun _ _ h => by cases h) (fun _ h => by cases h) rfl rfl rfl (fun _ => by rw [hp]; exact ⟨rfl, rfl⟩)
      (fun h => by cases h) (fun h => by cases h)

/-! ## 2. How a step adds to the record -/

theorem mem_given_note (ho : s.task.step eng cap s.hub a = some o) {x : Nat}
    (hx : x ∈ (r.note eng cap s (.task a) ⟨o.hub, o.task⟩).given) :
    x ∈ r.given ∨ ∃ f, o.effect = .wrote f ∧ x ∈ f.cursors := by
  simp only [CutRecord.note, effect_eq ho] at hx
  split at hx
  · next f hf => exact (List.mem_append.mp hx).imp_right fun hx => ⟨f, hf, hx⟩
  · exact .inl hx

theorem given_eq_of_quiet (ho : s.task.step eng cap s.hub a = some o)
    (hq : ∀ f, o.effect = .wrote f → f.cursors = []) :
    (r.note eng cap s (.task a) ⟨o.hub, o.task⟩).given = r.given := by
  simp only [CutRecord.note, effect_eq ho]
  split
  · next f hf => rw [hq f hf, List.append_nil]
  · rfl

theorem written_note (s' : Socket) {x : Nat} (hx : x ∈ r.written) :
    x ∈ (r.note eng cap s (.task a) s').written := by
  simp only [CutRecord.note]
  split
  · exact List.mem_append_left _ hx
  · exact hx

theorem events_note (ho : s.task.step eng cap s.hub a = some o) {f : Frame} (hf : o.effect = .wrote f)
    {x : Nat} (hx : x ∈ f.events) : x ∈ (r.note eng cap s (.task a) ⟨o.hub, o.task⟩).written := by
  simp only [CutRecord.note, effect_eq ho, hf]
  exact List.mem_append_right _ hx

/-- Only a turn's frames are handed over, and what the session leaves out of them with them. -/
theorem note_of_ne_settle {s' : Socket} (ha : ∀ now session, a ≠ .settle now session) :
    (r.note eng cap s (.task a) s').offered = r.offered ∧
      (r.note eng cap s (.task a) s').omitted = r.omitted ∧
        (r.note eng cap s (.task a) s').dropped =
          r.dropped ++ s.task.conn.pending.filter (· ∉ s'.task.conn.pending) := by
  cases a with
  | settle now session => exact absurd rfl (ha now session)
  | _ => exact ⟨rfl, rfl, rfl⟩

/-- What is read is still pending, or was dropped, unless it was handed over. -/
theorem Sent.accounted_note (hi : Sent (s, r)) {s' : Socket}
    (ha : ∀ now session, a ≠ .settle now session) :
    ∀ e ∈ (r.note eng cap s (.task a) s').read,
      (e ∈ r.offered ∨ ∃ b ∈ r.offered, b.Supersedes e) ∨
        e ∈ s'.task.conn.pending ∨ e ∈ (r.note eng cap s (.task a) s').dropped := by
  intro e he
  rw [(note_of_ne_settle ha).2.2]
  rcases List.mem_append.mp he with he | he
  · rcases hi.accounted e he with h | hp | hd
    · exact .inl h
    · refine .inr ?_
      by_cases hmem : e ∈ s'.task.conn.pending
      · exact .inl hmem
      · exact .inr (List.mem_append_right _ (List.mem_filter.mpr ⟨hp, decide_eq_true hmem⟩))
    · exact .inr (.inr (List.mem_append_left _ hd))
  · exact .inr (.inl (List.mem_of_mem_filter he))

theorem Frame.events_of_isTurn {f : Frame} (h : f.isTurn = true) : f.events = f.cursors := by
  cases f <;> first | rfl | cases h

theorem Phase.unwelcomed_of_greets {p : Phase} (h : p.greets = true) : p.unwelcomed = true := by
  cases p <;> first | rfl | cases h

/-- The cursors given stay within what the turns have read. -/
theorem Sent.given_le_note (hi : Sent (s, r)) (hp : Progress (s, r))
    (hb : s.task.Bounded s.hub.ring.head) (ho : s.task.step eng cap s.hub a = some o) :
    ∀ p ∈ r.given, p ≤ (r.note eng cap s (.task a) ⟨o.hub, o.task⟩).through := by
  intro p hpg
  cases hg : s.task.phase.greets with
  | true =>
    have hnil : r.given = [] := (hi.unwelcomed (Phase.unwelcomed_of_greets hg)).1
    rw [hnil] at hpg
    cases hpg
  | false => exact Nat.le_trans (hi.given_le p hpg) (hp.through_mono hb ho hg)

/-- A step that makes no frame and writes no cursor. -/
theorem Sent.plain (hi : Sent (s, r)) (hp : Progress (s, r)) (hb : s.task.Bounded s.hub.ring.head)
    (ho : s.task.step eng cap s.hub a = some o)
    (hsettle : ∀ now session, a ≠ .settle now session)
    (hwrote : ∀ f, o.effect = .wrote f → f.cursors = [])
    (hpend : ∀ b ∈ o.task.conn.pending, b ∈ s.task.conn.pending ∨ s.task.conn.cursor < b.seq)
    (hinc : (∀ b ∈ s.task.conn.pending, b.seq ≤ s.task.conn.cursor) →
      Increasing Entry.seq s.task.conn.pending → Increasing Entry.seq o.task.conn.pending)
    (hdrop : ∀ b ∈ s.task.conn.pending,
      b ∈ o.task.conn.pending ∨ ∃ d, r.disconnect = some d ∧ d ≤ b.seq)
    (hgives : o.task.gives = [] ∨ s.task.phase.unread = true ∧ o.task.phase.lossy = some false ∧
      ∃ x ≤ o.task.conn.cursor, o.task.gives = [x] ∧
        (s.task.conn.pending = [] → ∀ b ∈ o.task.conn.pending, x < b.seq))
    (hflight : o.task.phase.inFlight = [])
    (hgoes : o.task.phase.goesOn = true → s.task.phase.goesOn = true ∧ s.task.phase.inFlight = [])
    (hwelcome : o.task.phase.unwelcomed = true → s.task.phase.unwelcomed = true ∧
      ∀ b ∈ s.task.conn.pending, b ∈ o.task.conn.pending)
    (hread : o.task.phase.unread = true →
      s.task.phase.unread = true ∧ o.task.conn.pending = s.task.conn.pending) :
    Sent (⟨o.hub, o.task⟩, r.note eng cap s (.task a) ⟨o.hub, o.task⟩) := by
  have hp' : Progress (⟨o.hub, o.task⟩, r.note eng cap s (.task a) ⟨o.hub, o.task⟩) := hp.task hb ho
  have hgiven : (r.note eng cap s (.task a) ⟨o.hub, o.task⟩).given = r.given := given_eq_of_quiet ho hwrote
  obtain ⟨hoffered, homitted, hdropped⟩ :
      (r.note eng cap s (.task a) ⟨o.hub, o.task⟩).offered = r.offered ∧ _ ∧ _ :=
    note_of_ne_settle hsettle
  have hlt : ∀ p ∈ r.given, ∀ b ∈ o.task.conn.pending, p < b.seq := by
    intro p hpg b hbp
    rcases hpend b hbp with hold | hnew
    · exact hi.given_lt p hpg b hold
    · exact Nat.lt_of_le_of_lt (Nat.le_trans (hi.given_le p hpg) hp.through_le) hnew
  refine ⟨hinc (fun b hbp => Nat.le_trans (hp.pending b hbp) hp.through_le) hi.increasing,
    fun hu => ?_, fun hu => ?_, ?_, fun x hx => ?_, ?_, fun x hx b hbp => ?_, ?_, ?_, fun e he => ?_,
    hoffered.symm ▸ hi.accounted_note hsettle, fun hg e he => ?_, ?_⟩
  · obtain ⟨hold, hkeep⟩ := hwelcome hu
    obtain ⟨hg, hd⟩ := hi.unwelcomed hold
    refine ⟨hgiven.trans hg, ?_⟩
    rw [hdropped]
    refine List.append_eq_nil_iff.mpr ⟨hd, List.filter_eq_nil_iff.mpr fun b hbp => ?_⟩
    simpa using hkeep b hbp
  · obtain ⟨hold, hsame⟩ := hread hu
    exact hsame.trans (hi.unread hold)
  · rw [hgiven]
    exact hi.given_le_note hp hb ho
  · rcases hgives with hnil | ⟨_, hl, y, hy, hg, _⟩
    · have hx' : x ∈ o.task.gives := hx
      rw [hnil] at hx'
      cases hx'
    · have hx' : x ∈ o.task.gives := hx
      rw [hg] at hx'
      rw [List.mem_singleton.mp hx', hp'.through_eq (hp'.lossy false hl)]
      exact hy
  · rw [hgiven]
    exact hlt
  · have hx' : x ∈ o.task.gives := hx
    rcases hgives with hnil | ⟨hu, _, y, _, hg, hahead⟩
    · rw [hnil] at hx'
      cases hx'
    · rw [hg] at hx'
      rw [List.mem_singleton.mp hx']
      exact hahead (hi.unread hu) b hbp
  · show o.task.phase.inFlight.Pairwise (· < ·)
    rw [hflight]
    exact List.Pairwise.nil
  · intro p _ x hx
    have hx' : x ∈ o.task.phase.inFlight := hx
    rw [hflight] at hx'
    cases hx'
  · rw [hgiven]
    rw [hdropped] at he
    rcases List.mem_append.mp he with he | he
    · exact hi.dropped e he
    · obtain ⟨hep, hnot⟩ := List.mem_filter.mp he
      rcases hdrop e hep with hkept | hd
      · exact absurd hkept (of_decide_eq_true hnot)
      · exact ⟨hd, fun p hpg => hi.given_lt p hpg e hep⟩
  · rw [hoffered] at he
    obtain ⟨hg', hnil⟩ := hgoes hg
    rw [homitted]
    rcases hi.handed hg' e he with (hw | hom) | hfly
    · exact .inl (.inl (written_note _ hw))
    · exact .inl (.inr hom)
    · have hfly' : e.seq ∈ s.task.phase.inFlight := hfly
      rw [hnil] at hfly'
      cases hfly'
  · rw [hgiven, hoffered, homitted]
    exact fun p hpg e he hle => (hi.sent p hpg e he hle).imp_left (written_note _)

/-- **What is handed over are the pending events**, each in a frame, left out by the session, or
    superseded by one that is handed over. -/
theorem Sent.settles (hi : Sent (s, r)) (hp : Progress (s, r)) (hb : s.task.Bounded s.hub.ring.head)
    {now : Nat} {session : Session} (ho : s.task.step eng cap s.hub (.settle now session) = some o)
    (he : o.effect = .quiet) {resync : Option Resync} {bye : Option Bye}
    (hphase : s.task.phase = .settling resync bye) {frames : List Frame} {last : Bool}
    (hphase' : o.task.phase = .writing frames last)
    (hcases : o.task.conn.pending = [] ∧
        frames.flatMap Frame.cursors = (session.eventsForViewer s.task.conn.wires).map Wire.seq ∨
      o.task.conn.pending = s.task.conn.pending ∧ frames.flatMap Frame.cursors = []) :
    Sent (⟨o.hub, o.task⟩, r.note eng cap s (.task (.settle now session)) ⟨o.hub, o.task⟩) := by
  have hgiven : (r.note eng cap s (.task (.settle now session)) ⟨o.hub, o.task⟩).given = r.given :=
    given_eq_of_quiet ho fun f hf => by rw [he] at hf; cases hf
  have hgives : o.task.gives = frames.flatMap Frame.cursors := by rw [Task.gives, hphase']
  have hfly : o.task.phase.inFlight = frames.flatMap Frame.cursors := by rw [hphase']; rfl
  have hnofly : s.task.phase.inFlight = [] := by rw [hphase]; rfl
  have hthrough : r.through ≤
      (r.note eng cap s (.task (.settle now session)) ⟨o.hub, o.task⟩).through :=
    hp.through_mono hb ho (by rw [hphase]; rfl)
  have hout : ∀ e ∈ s.task.conn.outgoing, e ∈ s.task.conn.pending := fun e he =>
    mem_of_mem_lastPerKey Entry.coalesce he
  -- the frames carry what the session leaves of the pending events, in order
  have hsub : frames.flatMap Frame.cursors <+ s.task.conn.pending.map Entry.seq := by
    rcases hcases with ⟨_, h⟩ | ⟨_, h⟩
    · rw [h]
      refine (session.retains s.task.conn.wires).trans ?_
      rw [Connection.wires, List.map_map]
      exact (lastPerKey_sublist Entry.coalesce _).map Entry.seq
    · rw [h]
      exact List.nil_sublist _
  have hmem : ∀ x ∈ frames.flatMap Frame.cursors, ∃ e ∈ s.task.conn.pending, e.seq = x := fun x hx =>
    List.mem_map.mp (hsub.subset hx)
  have hpend : ∀ e ∈ o.task.conn.pending, e ∈ s.task.conn.pending := fun e he => by
    rcases hcases with ⟨h, _⟩ | ⟨h, _⟩
    · rw [h] at he
      cases he
    · exact h ▸ he
  have hoffered : ∀ e, e ∈ (r.note eng cap s (.task (.settle now session)) ⟨o.hub, o.task⟩).offered ↔
      e ∈ r.offered ∨ o.task.conn.pending = [] ∧ e ∈ s.task.conn.outgoing := by
    intro e
    simp only [CutRecord.note]
    by_cases h : o.task.conn.pending = []
    · simp [h]
    · simp [h]
  have homitted : ∀ e, e ∈ (r.note eng cap s (.task (.settle now session)) ⟨o.hub, o.task⟩).omitted ↔
      e ∈ r.omitted ∨ o.task.conn.pending = [] ∧ e ∈ s.task.conn.omits session := by
    intro e
    simp only [CutRecord.note]
    by_cases h : o.task.conn.pending = []
    · simp [h]
    · simp [h]
  refine ⟨?_, fun hu => ?_, fun hu => ?_, ?_, fun x hx => ?_, ?_, fun x hx e he => ?_, ?_, ?_, ?_,
    fun e he => ?_, fun _ e he => ?_, ?_⟩
  · rcases hcases with ⟨h, _⟩ | ⟨h, _⟩
    · exact h ▸ increasing_nil
    · exact h ▸ hi.increasing
  · have hu' : o.task.phase.unwelcomed = true := hu
    rw [hphase'] at hu'
    cases hu'
  · have hu' : o.task.phase.unread = true := hu
    rw [hphase'] at hu'
    cases hu'
  · rw [hgiven]
    exact hi.given_le_note hp hb ho
  · obtain ⟨e, he, rfl⟩ := hmem x (hgives ▸ hx)
    exact Nat.le_trans (hp.pending e he) hthrough
  · rw [hgiven]
    exact fun p hpg e he => hi.given_lt p hpg e (hpend e he)
  · have hx' : x ∈ o.task.gives := hx
    have he' : e ∈ o.task.conn.pending := he
    rw [hgives] at hx'
    rcases hcases with ⟨h, _⟩ | ⟨_, h⟩
    · rw [h] at he'
      cases he'
    · rw [h] at hx'
      cases hx'
  · show o.task.phase.inFlight.Pairwise (· < ·)
    rw [hfly]
    exact (List.pairwise_map.mpr hi.increasing).sublist hsub
  · rw [hgiven]
    intro p hpg x hx
    obtain ⟨e, he, rfl⟩ := hmem x (hfly ▸ hx)
    exact hi.given_lt p hpg e he
  · rw [hgiven]
    exact hi.dropped
  · have hread : e ∈ r.read := by
      rcases List.mem_append.mp he with he | he
      · exact he
      · obtain ⟨hin, hnot⟩ := List.mem_filter.mp he
        exact absurd (hpend e hin) (of_decide_eq_true hnot)
    rcases hi.accounted e hread with (hof | ⟨b, hbo, hsup⟩) | hin | hdr
    · exact .inl (.inl ((hoffered e).mpr (.inl hof)))
    · exact .inl (.inr ⟨b, (hoffered b).mpr (.inl hbo), hsup⟩)
    · rcases hcases with ⟨h, _⟩ | ⟨h, _⟩
      · rcases mem_lastPerKey_or Entry.coalesce hin with hlast | ⟨key, hkey, b, hbl, hkb, hbefore⟩
        · exact .inl (.inl ((hoffered e).mpr (.inr ⟨h, hlast⟩)))
        · exact .inl (.inr ⟨b, (hoffered b).mpr (.inr ⟨h, hbl⟩), key, hkey, hkb,
            increasing_pair.mp (hi.increasing.sublist hbefore)⟩)
      · exact .inr (.inl (h.symm ▸ hin))
    · exact .inr (.inr hdr)
  · rcases (hoffered e).mp he with he | ⟨hnil, he⟩
    · have hdone : (e.seq ∈ r.written ∨ e ∈ r.omitted) ∨ e.seq ∈ s.task.phase.inFlight :=
        hi.handed (by rw [hphase]; rfl) e he
      rw [hnofly] at hdone
      rcases hdone with (hw | hom) | hfly'
      · exact .inl (.inl (written_note _ hw))
      · exact .inl (.inr ((homitted e).mpr (.inl hom)))
      · cases hfly'
    · by_cases hin : e.seq ∈ (session.eventsForViewer s.task.conn.wires).map Wire.seq
      · refine .inr ?_
        show e.seq ∈ o.task.phase.inFlight
        rcases hcases with ⟨_, h⟩ | ⟨h, _⟩
        · rwa [hfly, h]
        · have hin' := hout e he
          rw [← h, hnil] at hin'
          cases hin'
      · exact .inl (.inr ((homitted e).mpr (.inr ⟨hnil, List.mem_filter.mpr ⟨he, decide_eq_true hin⟩⟩)))
  · rw [hgiven]
    intro p hpg e he hle
    rcases (hoffered e).mp he with he | ⟨_, he⟩
    · exact (hi.sent p hpg e he hle).imp (written_note _) fun h => (homitted e).mpr (.inl h)
    · have := hi.given_lt p hpg e (hout e he)
      omega

/-- **Writing a frame gives its cursors**, and all that is handed over up to them is written. -/
theorem Sent.writes (hi : Sent (s, r)) (hm : Message (s, r)) (hp : Progress (s, r))
    (hb : s.task.Bounded s.hub.ring.head) (ho : s.task.step eng cap s.hub a = some o)
    (hsettle : ∀ now session, a ≠ .settle now session) {f : Frame} (he : o.effect = .wrote f)
    {frames : List Frame} {last : Bool} (hphase : s.task.phase = .writing (f :: frames) last)
    (hphase' : o.task.phase = .writing frames last) (hc : o.task.conn = s.task.conn) :
    Sent (⟨o.hub, o.task⟩, r.note eng cap s (.task a) ⟨o.hub, o.task⟩) := by
  have hgiven : ∀ x ∈ (r.note eng cap s (.task a) ⟨o.hub, o.task⟩).given, x ∈ r.given ∨ x ∈ f.cursors := by
    intro x hx
    rcases mem_given_note ho hx with hx | ⟨g, hg, hx⟩
    · exact .inl hx
    · rw [he] at hg
      cases hg
      exact .inr hx
  obtain ⟨hoffered, homitted, hdropped⟩ :
      (r.note eng cap s (.task a) ⟨o.hub, o.task⟩).offered = r.offered ∧ _ ∧ _ :=
    note_of_ne_settle hsettle
  have hgives : s.task.gives = f.cursors ++ frames.flatMap Frame.cursors := by
    rw [Task.gives, hphase]
    rfl
  have hgives' : o.task.gives = frames.flatMap Frame.cursors := by rw [Task.gives, hphase']
  have hfly : s.task.phase.inFlight = f.cursors ++ frames.flatMap Frame.cursors := by rw [hphase]; rfl
  have hfly' : o.task.phase.inFlight = frames.flatMap Frame.cursors := by rw [hphase']; rfl
  have hevents : f.events = f.cursors :=
    Frame.events_of_isTurn (hb.frames f (by rw [hphase]; exact List.mem_cons_self ..))
  have hthrough : r.through ≤ (r.note eng cap s (.task a) ⟨o.hub, o.task⟩).through :=
    hp.through_mono hb ho (by rw [hphase]; rfl)
  have hfcursor : ∀ x ∈ f.cursors, x ∈ s.task.gives := fun x hx =>
    hgives ▸ List.mem_append_left _ hx
  have hcursor : ∀ x ∈ o.task.gives, x ∈ s.task.gives := fun x hx =>
    hgives ▸ List.mem_append_right _ (hgives' ▸ hx)
  have horder := hi.order
  rw [show (s, r).1.task.phase.inFlight = _ from hfly] at horder
  obtain ⟨_, hrest, hbefore⟩ := List.pairwise_append.mp horder
  have hkept : (r.note eng cap s (.task a) ⟨o.hub, o.task⟩).dropped = r.dropped := by
    rw [hdropped]
    refine (congrArg (r.dropped ++ ·) (List.filter_eq_nil_iff.mpr fun b hb => ?_)).trans
      (List.append_nil _)
    simpa [hc] using hb
  refine ⟨hc ▸ hi.increasing, fun hu => ?_, fun hu => ?_, fun p hpg => ?_, fun x hx => ?_,
    fun p hpg => ?_, fun x hx => ?_, ?_, fun p hpg x hx => ?_, fun e he => ?_,
    hoffered.symm ▸ hi.accounted_note hsettle, fun _ e he' => ?_, fun p hpg e he' hle => ?_⟩
  · have hu' : o.task.phase.unwelcomed = true := hu
    rw [hphase'] at hu'
    cases hu'
  · have hu' : o.task.phase.unread = true := hu
    rw [hphase'] at hu'
    cases hu'
  · rcases hgiven p hpg with hold | hnew
    · exact hi.given_le_note hp hb ho p hold
    · exact Nat.le_trans (hi.gives_le p (hfcursor p hnew)) hthrough
  · exact Nat.le_trans (hi.gives_le x (hcursor x hx)) hthrough
  · rw [hc]
    rcases hgiven p hpg with hold | hnew
    · exact hi.given_lt p hold
    · exact hi.gives_lt p (hfcursor p hnew)
  · rw [hc]
    exact hi.gives_lt x (hcursor x hx)
  · show o.task.phase.inFlight.Pairwise (· < ·)
    rw [hfly']
    exact hrest
  · have hx' : x ∈ frames.flatMap Frame.cursors := hfly' ▸ hx
    rcases hgiven p hpg with hold | hnew
    · exact hi.flight p hold x (hfly.symm ▸ List.mem_append_right _ hx')
    · exact hbefore p hnew x hx'
  · rw [hkept] at he
    obtain ⟨⟨d, hd, hle⟩, hold⟩ := hi.dropped e he
    refine ⟨⟨d, hd, hle⟩, fun p hpg => ?_⟩
    rcases hgiven p hpg with hpg | hnew
    · exact hold p hpg
    · have hlt : p < d := (hm.looked d hd (by rw [hphase]; rfl)).2 p (hfcursor p hnew)
      omega
  · rw [hoffered] at he'
    rw [homitted]
    rcases hi.handed (by rw [hphase]; rfl) e he' with (hw | hom) | hin
    · exact .inl (.inl (written_note _ hw))
    · exact .inl (.inr hom)
    · rcases List.mem_append.mp (hfly ▸ hin) with hin | hin
      · exact .inl (.inl (events_note ho he (hevents.symm ▸ hin)))
      · exact .inr (hfly'.symm ▸ hin)
  · rw [hoffered] at he'
    rw [homitted]
    rcases hgiven p hpg with hold | hnew
    · exact (hi.sent p hold e he' hle).imp_left (written_note _)
    · rcases hi.handed (by rw [hphase]; rfl) e he' with (hw | hom) | hin
      · exact .inl (written_note _ hw)
      · exact .inr hom
      · rcases List.mem_append.mp (hfly ▸ hin) with hin | hin
        · exact .inl (events_note ho he (hevents.symm ▸ hin))
        · have := hbefore p hnew e.seq hin
          omega

/-- The `welcome` gives its cursor before anything is written. -/
theorem Sent.welcomes (hi : Sent (s, r)) (hp : Progress (s, r)) (hb : s.task.Bounded s.hub.ring.head)
    (ho : s.task.step eng cap s.hub a = some o) (hsettle : ∀ now session, a ≠ .settle now session)
    {f : Frame} (he : o.effect = .wrote f) {start : Option Nat}
    (hphase : s.task.phase = .welcoming start) (hf : f.cursors = s.task.gives)
    (hphase' : o.task.phase = .turn) (hc : o.task.conn = s.task.conn) :
    Sent (⟨o.hub, o.task⟩, r.note eng cap s (.task a) ⟨o.hub, o.task⟩) := by
  obtain ⟨hnil, hnone⟩ : r.given = [] ∧ r.dropped = [] := hi.unwelcomed (by rw [hphase]; rfl)
  have hgiven : ∀ x ∈ (r.note eng cap s (.task a) ⟨o.hub, o.task⟩).given, x ∈ s.task.gives := by
    intro x hx
    rcases mem_given_note ho hx with hx | ⟨g, hg, hx⟩
    · rw [hnil] at hx
      cases hx
    · rw [he] at hg
      cases hg
      exact hf ▸ hx
  obtain ⟨hoffered, homitted, hdropped⟩ :
      (r.note eng cap s (.task a) ⟨o.hub, o.task⟩).offered = r.offered ∧ _ ∧ _ :=
    note_of_ne_settle hsettle
  have hkept : (r.note eng cap s (.task a) ⟨o.hub, o.task⟩).dropped = [] := by
    rw [hdropped, hnone]
    refine List.filter_eq_nil_iff.mpr fun b hb => ?_
    simpa [hc] using hb
  have hgives' : o.task.gives = [] := by rw [Task.gives, hphase']
  have hfly' : o.task.phase.inFlight = [] := by rw [hphase']; rfl
  have hthrough : r.through ≤ (r.note eng cap s (.task a) ⟨o.hub, o.task⟩).through :=
    hp.through_mono hb ho (by rw [hphase]; rfl)
  -- nothing is in flight before the `welcome`
  have hdone : ∀ e ∈ r.offered, e.seq ∈ r.written ∨ e ∈ r.omitted := by
    intro e he'
    rcases hi.handed (by rw [hphase]; rfl) e he' with hdone | hin
    · exact hdone
    · have hin' : e.seq ∈ s.task.phase.inFlight := hin
      rw [hphase] at hin'
      cases hin'
  refine ⟨hc ▸ hi.increasing, fun hu => ?_, fun hu => ?_, fun p hpg => ?_, fun x hx => ?_,
    fun p hpg => ?_, fun x hx => ?_, ?_, fun p hpg x hx => ?_, fun e he => ?_,
    hoffered.symm ▸ hi.accounted_note hsettle, fun _ e he' => ?_, fun p hpg e he' _ => ?_⟩
  · have hu' : o.task.phase.unwelcomed = true := hu
    rw [hphase'] at hu'
    cases hu'
  · have hu' : o.task.phase.unread = true := hu
    rw [hphase'] at hu'
    cases hu'
  · exact Nat.le_trans (hi.gives_le p (hgiven p hpg)) hthrough
  · have hx' : x ∈ o.task.gives := hx
    rw [hgives'] at hx'
    cases hx'
  · rw [hc]
    exact hi.gives_lt p (hgiven p hpg)
  · have hx' : x ∈ o.task.gives := hx
    rw [hgives'] at hx'
    cases hx'
  · show o.task.phase.inFlight.Pairwise (· < ·)
    rw [hfly']
    exact List.Pairwise.nil
  · have hx' : x ∈ o.task.phase.inFlight := hx
    rw [hfly'] at hx'
    cases hx'
  · rw [hkept] at he
    cases he
  · rw [hoffered] at he'
    rw [homitted]
    exact .inl ((hdone e he').imp_left (written_note _))
  · rw [hoffered] at he'
    rw [homitted]
    exact (hdone e he').imp_left (written_note _)

/-- **A step of the task keeps the account of what is sent.** -/
theorem Sent.task (hi : Sent (s, r)) (hm : Message (s, r)) (hp : Progress (s, r))
    (hb : s.task.Bounded s.hub.ring.head) (ho : s.task.step eng cap s.hub a = some o) :
    Sent (⟨o.hub, o.task⟩, r.note eng cap s (.task a) ⟨o.hub, o.task⟩) := by
  have hs : Sends r s.task o.task a o.effect := (Task.step_cases ho).sends hm
  cases hs with
  | plain h₁ h₂ h₃ h₄ h₅ h₆ h₇ h₈ h₉ h₁₀ => exact hi.plain hp hb ho h₁ h₂ h₃ h₄ h₅ h₆ h₇ h₈ h₉ h₁₀
  | settles now session ha he resync bye hphase frames last hphase' hcases =>
    subst ha
    exact hi.settles hp hb ho he hphase hphase' hcases
  | writes ha f he frames last hphase hphase' hc => exact hi.writes hm hp hb ho ha he hphase hphase' hc
  | welcomes ha f he start hphase hf hphase' hc => exact hi.welcomes hp hb ho ha he hphase hf hphase' hc

theorem Sent.around (hi : Sent (s, r)) (hp : Progress (s, r)) (b : Around)
    (hg : OneDisconnect (s, r) (.around b)) :
    Sent (s.surround eng cap b, r.note eng cap s (.around b) (s.surround eng cap b)) := by
  obtain ⟨hphase, hc, _⟩ : (s.surround eng cap b).task.phase = s.task.phase ∧
      (s.surround eng cap b).task.conn = s.task.conn ∧ _ := s.surround_eq b
  have hgives : (s.surround eng cap b).task.gives = s.task.gives := by
    unfold Task.gives
    rw [hphase, hc]
  have hdisconnect : ∀ d, r.disconnect = some d →
      (r.note eng cap s (.around b) (s.surround eng cap b)).disconnect = some d := disconnect_note hg
  obtain ⟨d', hnote⟩ : ∃ d, r.note eng cap s (.around b) _ = _ := hp.note_around b
  rw [hnote] at hdisconnect ⊢
  have hsame : Sent (⟨(s.surround eng cap b).hub, s.task⟩, { r with disconnect := d' }) := by
    obtain ⟨h₁, h₂, h₃, h₄, h₅, h₆, h₇, h₈, h₉, h₁₀, h₁₁, h₁₂, h₁₃⟩ := hi
    refine ⟨h₁, h₂, h₃, h₄, h₅, h₆, h₇, h₈, h₉, fun e he => ?_, h₁₁, h₁₂, h₁₃⟩
    obtain ⟨⟨d, hd, hle⟩, hlt⟩ := h₁₀ e he
    exact ⟨⟨d, hdisconnect d hd, hle⟩, hlt⟩
  obtain ⟨h₁, h₂, h₃, h₄, h₅, h₆, h₇, h₈, h₉, h₁₀, h₁₁, h₁₂, h₁₃⟩ := hsame
  exact ⟨hc.symm ▸ h₁, hphase.symm ▸ h₂, hphase.symm ▸ hc.symm ▸ h₃, h₄, hgives.symm ▸ h₅,
    hc.symm ▸ h₆, hgives.symm ▸ hc.symm ▸ h₇, hphase.symm ▸ h₈, hphase.symm ▸ h₉, h₁₀,
    hc.symm ▸ h₁₁, hphase.symm ▸ h₁₂, h₁₃⟩

end Sent

/-! ## 3. Runs -/

/-- All that a run keeps. -/
structure CutInv (s : Socket × CutRecord) : Prop where
  message : Message s
  progress : Progress s
  turns : Turns s
  sent : Sent s

section Runs

variable {eng : Engine} {cap : Nat} {s : Socket × CutRecord}

theorem cutInv_start (h : (cutSystem eng cap).start s) : CutInv s := by
  obtain ⟨⟨hub, task⟩, r⟩ := s
  obtain ⟨⟨user, hu⟩, hr⟩ := h
  obtain rfl : r = .blank := hr
  obtain rfl : task = .opening user := hu
  have hnil : ∀ {α : Type} {p : α → Prop}, ∀ x ∈ ([] : List α), p x :=
    fun x hx => (List.not_mem_nil hx).elim
  refine ⟨⟨rfl, fun _ => ⟨rfl, rfl, rfl⟩, nofun, nofun, nofun, nofun, hnil, nofun⟩, ?_, ⟨nofun, nofun⟩, ?_⟩
  · refine ⟨Nat.le_refl _, fun _ => rfl, hnil, fun _ => rfl, fun b hb => ?_, nofun⟩
    cases hb
    rfl
  · exact ⟨increasing_nil, fun _ => ⟨rfl, rfl⟩, fun _ => rfl, hnil, hnil, hnil, hnil, List.Pairwise.nil,
      hnil, hnil, hnil, fun _ => hnil, hnil⟩

theorem cutInv_reach (h : ReachWhen (cutSystem eng cap) OneDisconnect s) : CutInv s := by
  refine h.induct (T := cutSystem eng cap) (I := CutInv) (fun s h0 => cutInv_start h0)
    fun s a s' hr hi hg hs => ?_
  obtain ⟨socket, r⟩ := s
  obtain ⟨hstep, hnote⟩ := recording_step hs
  obtain ⟨socket', r'⟩ := s'
  obtain rfl : r' = r.note eng cap socket a socket' := hnote
  have hb : socket.task.Bounded socket.hub.ring.head := Socket.bounded_reach hr.unrecorded
  obtain ⟨hm, hp, ht, hsent⟩ := hi
  cases a with
  | around b =>
    have heq : socket.surround eng cap b = socket' := Option.some.inj hstep
    subst heq
    exact ⟨hm.around hb b hg, hp.around b, ht.around hm hp hb b hg, hsent.around hp b hg⟩
  | task b =>
    obtain ⟨e, ho⟩ := Socket.step_task hstep
    exact ⟨hm.task hb ho, hp.task hb ho, ht.task hm hp hb ho, hsent.task hm hp hb ho⟩

/-- A replay that loses nothing, from a cursor the client was given, follows no loss. -/
theorem CutInv.resume (hi : CutInv s) {p : Nat} (hpg : p ∈ s.2.given) {h : Hub} {now : Nat}
    {c conn : Connection} (hgrow : s.1.hub.Grows h) (hu : c.userId = s.1.task.conn.userId)
    (hcur : c.cursor = p) (hc : Connection.CatchUp eng.config now none true h c (none, conn)) :
    s.2.lost = false ∧ conn.pending = c.pending ++
      Connection.admitted eng.config now true c (past Entry.seq p h.log) := by
  have hle : p ≤ s.2.through := hi.sent.given_le p hpg
  cases hc with
  | events hev hgap =>
    refine ⟨?_, ?_⟩
    · rw [Bool.eq_false_iff]
      intro hl
      rcases hi.progress.gap hl with hlt | ⟨g, hg, hisgap, hlt⟩
      · -- the window has moved on past the cursor
        have hgrown : s.1.hub.ring.evictedThrough ≤ (h.evict eng.config now).ring.evictedThrough :=
          Nat.le_trans hgrow.evicted (h.evicted_mono)
        omega
      · have hin : g ∈ Connection.cutAt none (past Entry.seq c.cursor h.log) := by
          rw [Connection.cutAt_none]
          exact mem_past.mpr ⟨hgrow.subset hg, by omega⟩
        have hnot := hgap g hin
        rw [hu, hisgap] at hnot
        cases hnot
    · rw [Connection.addAll_pending, Connection.cutAt_none, hcur]
      have hsame : Connection.SameTopics c
          { c with cursor := Connection.headBefore none h.ring.head p } := ⟨rfl, rfl⟩
      exact congrArg (c.pending ++ ·) (hsame.admitted _).symm

/-- **The cutoff of a disconnect holds in every run with one disconnect.** -/
theorem cutoff_of_reach (h : ReachWhen (cutSystem eng cap) OneDisconnect s) : Cutoff eng s := by
  have hi : CutInv s := cutInv_reach h
  refine ⟨hi.message.never, fun bye hbye hfound => ?_, fun hfound d hd bye hbye g hg hgap hpast hlt => ?_,
    hi.progress.gap, fun p hpg e he hle => ?_, fun p hpg h now c conn hgrow hu hcur hc =>
      hi.resume hpg hgrow hu hcur hc⟩
  · obtain ⟨d, hd, hcl⟩ := hi.turns.closing bye hbye hfound
    refine ⟨d, hd, hcl.pending, fun now session => ?_⟩
    simp [Task.turnFrames, Task.gapFrames, Task.dueFrames]
  · obtain ⟨d', hd', hcl⟩ := hi.turns.closing bye hbye hfound
    obtain rfl : d = d' := Option.some.inj (hd.symm.trans hd')
    have hthrough : s.2.through < g.seq := hcl.markers g hg hgap hpast
    refine ⟨?_, hthrough⟩
    cases hl : s.2.lost with
    | true => rfl
    | false =>
      have := hcl.covers hl g hg hlt
      omega
  · rcases hi.sent.accounted e he with (hof | hsup) | hin | hdr
    · exact .inl (hi.sent.sent p hpg e hof hle)
    · exact .inr hsup
    · have := hi.sent.given_lt p hpg e hin
      omega
    · have := (hi.sent.dropped e hdr).2 p hpg
      omega

end Runs

/-- A socket of person 1 that opens on a fresh hub. -/
def unreadSocket : Socket × CutRecord := (⟨.empty, .opening 1⟩, .blank)

/-- The socket is welcomed. -/
def welcomed : List SocketAct := [.task (.hello none []), .task (.resume 0), .task .refetch, .task .write]

/-- An event for person 1. -/
def ownEvent : SocketAct := .around (.hub (.publish 0 { audience := .user 1, payload := .empty }))

/-- Two events, with the disconnect between them, are read before the disconnect is found: the first
    is written. -/
def cutRun : List SocketAct :=
  welcomed ++ [ownEvent, .around (.disconnect true), ownEvent, .task (.catchUp 0), .task .poll,
    .task (.catchUp 0), .task (.settle 0 .plain), .task .write]

theorem cutoff_of_reach_sample :
    ∃ s, ReachWhen (cutSystem testEngine 16) OneDisconnect s ∧
      (s.2.disconnect = some 2 ∧ s.2.read.map Entry.seq = [1, 3] ∧ s.2.written = [1]) ∧
        Cutoff testEngine s := by
  obtain ⟨s, hs, hp⟩ := exists_reachWhen_of_replay (T := cutSystem testEngine 16) (G := OneDisconnect)
    (s := unreadSocket) (l := cutRun)
    (p := fun s => s.2.disconnect = some 2 ∧ s.2.read.map Entry.seq = [1, 3] ∧ s.2.written = [1])
    ⟨⟨1, rfl⟩, rfl⟩ (by decide +kernel)
  exact ⟨s, hs, of_decide_eq_true hp, cutoff_of_reach hs⟩

/-- What the closing turn writes, if events are only ever left out for a marker or a rollover before
    the disconnect. -/
def CutExactly (s : Socket × CutRecord) : Prop :=
  ∀ bye, s.1.task.phase = .settling none (some bye) → s.2.found = true →
    ∀ d, s.2.disconnect = some d → s.1.hub.ring.evictedThrough ≤ s.2.base.cursor →
      (∀ g ∈ s.1.hub.log, Connection.isGap s.1.task.conn.userId g = true → d ≤ g.seq) →
        s.1.task.conn.pending = s.2.base.pending.filter (fun e => e.seq < d) ++
          s.2.base.heard ((past Entry.seq s.2.base.cursor s.1.hub.log).filter fun e => e.seq < d)

/-- An event, the disconnect and then a gap marker, all before the task reads the head's change. -/
def gappedRun : List SocketAct :=
  welcomed ++ [ownEvent, .around (.disconnect true), .around (.hub (.pushGap 0 1)),
    .task (.catchUp 0), .task .refetch, .task .poll]

/-- **A marker past the disconnect takes an event before it along**: the reading is given up whole, and
    the closing turn writes nothing. -/
theorem cutoff_gapped : ∃ s, ReachWhen (cutSystem testEngine 16) OneDisconnect s ∧ ¬ CutExactly s := by
  obtain ⟨s, hs, hp⟩ := exists_reachWhen_of_replay (T := cutSystem testEngine 16) (G := OneDisconnect)
    (s := unreadSocket) (l := gappedRun)
    (p := fun s => (s.1.task.phase = .settling none (some (Task.remote true)) ∧ s.2.found = true ∧
      s.2.disconnect = some 2 ∧ s.1.hub.ring.evictedThrough ≤ s.2.base.cursor) ∧
      (∀ g ∈ s.1.hub.log, Connection.isGap s.1.task.conn.userId g = true → 2 ≤ g.seq) ∧
      s.1.task.conn.pending = [] ∧
      (s.2.base.heard ((past Entry.seq s.2.base.cursor s.1.hub.log).filter fun e => e.seq < 2)).map
        Entry.seq = [1])
    ⟨⟨1, rfl⟩, rfl⟩ (by decide +kernel)
  obtain ⟨⟨hphase, hfound, hd, hev⟩, hgap, hnil, hheard⟩ := of_decide_eq_true hp
  refine ⟨s, hs, fun hexact => ?_⟩
  have hpend := hexact _ hphase hfound 2 hd hev hgap
  rw [hnil] at hpend
  have hboth := (List.append_eq_nil_iff.mp hpend.symm).2
  rw [hboth] at hheard
  cases hheard

end Smartfire
