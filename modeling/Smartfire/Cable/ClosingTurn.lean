/-
  File:      Smartfire/Cable/ClosingTurn.lean
  Subject:   The closing turn: how far it has read.

  A turn's readings continue one another, so what they put into the pending batch is one stretch of
  the log as heard from where the turn began; a reading that loses events leaves the batch where the
  last one brought it. Cutting that stretch at the disconnect leaves what is due.

  * `Progress` -- how far the turn has read, and whether it lost events;
  * `Turn`, `Closing`, `Turns` -- what it has read, and what the cut leaves of it.
-/
import Smartfire.Cable.Cutoff

namespace Smartfire

open Lib
open scoped List

/-! ## 1. How far the turn has read -/

/-- Whether the turn has lost events, where the phase tells. -/
def Phase.lossy : Phase → Option Bool
  | .catchLost _ | .cutLost _ _ => some true
  | .selected _ resync _ => some resync.isSome
  | .settling _ _ | .writing _ _ | .closing _ | .closed => none
  | _ => some false

/-- Whether the turn may yet read. -/
def Phase.reads : Phase → Bool
  | .turn | .following _ | .selected _ _ _ | .catchLost _ | .cutting _ _ | .cutLost _ _ => true
  | _ => false

/-- What a step does to the cursor and the pending batch. -/
inductive Moves (h h' : Hub) (t t' : Task) : Prop where
  | stays (hc : t'.conn.cursor = t.conn.cursor) (hp : ∀ e ∈ t'.conn.pending, e ∈ t.conn.pending)
      (hl : t'.phase.loses ≠ some true)
  | begins (hg : t.phase.greets = true) (hl : t'.phase.loses = none)
      (hp : t'.conn.pending = t.conn.pending)
  | reads (hc : t.conn.cursor ≤ t'.conn.cursor)
      (hp : ∀ e ∈ t'.conn.pending, e ∈ t.conn.pending ∨ e.seq ≤ t'.conn.cursor)
      (hl : t.phase.lossy = some false) (hl' : t'.phase.loses = none)
  | loses (hc : t.conn.cursor ≤ t'.conn.cursor) (hp : t'.conn.pending = t.conn.pending)
      (hl : t.phase.lossy = some false)
      (hgap : t.conn.cursor < h'.ring.evictedThrough ∨
        ∃ g ∈ h.log, Connection.isGap t.conn.userId g = true ∧ t.conn.cursor < g.seq)

section Moves

variable {eng : Engine} {cap : Nat} {h : Hub} {t : Task} {a : TaskAct} {o : Outcome}

theorem Task.Step.moves (hs : Task.Step eng cap h t a o) (hb : t.Bounded h.ring.head) :
    Moves h o.hub t o.task := by
  have hflushed : ∀ now session resync bye, Task.Flushed t.conn
      (Task.turnFrames eng.config now session resync bye t.conn).2 :=
    fun _ _ _ _ => Task.flushed_turnFrames
  cases hs with
  | resumes now p hp | starts now p hp => exact .begins (by rw [hp]; rfl) rfl rfl
  | replayed now conn hp hc | caughtUp now conn hp hc =>
    obtain ⟨hle, hpend⟩ := hc.reads
    exact .reads hle hpend (by rw [hp]; rfl) rfl
  | cut now sequence bye conn hp hc =>
    obtain ⟨hle, hpend⟩ := hc.reads
    exact .reads hle (fun e he => hpend e (List.mem_of_mem_filter he)) (by rw [hp]; rfl) rfl
  | replayLost now reason conn hp hc | catchLost now reason conn hp hc =>
    obtain ⟨hle, hgap⟩ := hc.loses hb.cursor
    exact .loses hle hc.lost_pending (by rw [hp]; rfl) hgap
  | cutLost now sequence bye reason conn hp hc =>
    obtain ⟨hle, hgap⟩ := hc.loses hb.cursor
    exact .loses hle hc.lost_pending (by rw [hp]; rfl) hgap
  | followHello point topic topics rest authorized more conn hp hf =>
    obtain ⟨hc, hpend⟩ := Task.followOne_cursor hf
    exact .stays hc (fun e he => hpend ▸ he) nofun
  | followSub topic topics rest authorized more conn hp hf =>
    obtain ⟨hc, hpend⟩ := Task.followOne_cursor hf
    exact .stays hc (fun e he => hpend ▸ he) nofun
  | foundGapped | refetchCut => exact .stays rfl (fun e he => List.mem_of_mem_filter he) nofun
  | settles now session resync bye hp =>
    have hf := hflushed now session resync bye
    refine .stays hf.cursor (fun e he => ?_) nofun
    rcases hf.pending with hnil | hself
    · have he' : e ∈ (Task.turnFrames eng.config now session resync bye t.conn).2.pending := he
      rw [hnil] at he'
      cases he'
    · exact hself ▸ he
  | written last hp => exact .stays rfl (fun _ => id) (by cases last <;> exact nofun)
  | _ => exact .stays rfl (fun _ => id) nofun

/-- Where the phase tells of a loss, the step brought it or it was told before. -/
theorem Task.Step.lossy (hs : Task.Step eng cap h t a o) {b : Bool}
    (hb : o.task.phase.lossy = some b) :
    o.task.phase.loses = some b ∨ o.task.phase.loses = none ∧ t.phase.lossy = some b := by
  cases hs with
  | catchLost | cutLost | welcomes | sub | followSub => exact .inl hb
  | written last hp =>
    cases last with
    | false => exact .inl hb
    | true => cases hb
  | refetchCatch resync hp => exact .inr ⟨rfl, by rw [hp]; exact hb⟩
  | branch bye hp =>
    rcases hp with hp | hp <;> exact .inr ⟨rfl, by rw [hp]; exact hb⟩
  | unfound | foundGapped | cut | refetchCut | settles | writes | leaves | dropPerson
  | dropObserver => cases hb
  | hello _ _ hp | followHello _ _ _ _ _ _ _ hp | resumes _ _ hp | starts _ _ hp | replayed _ _ hp
  | replayLost _ _ _ hp | refetchReplay hp | refetchStart hp | lagged _ hp | received _ _ hp
  | unsub _ hp | ping hp | caughtUp _ _ hp | found _ _ _ _ _ hp =>
    exact .inr ⟨rfl, by rw [hp]; exact hb⟩

end Moves

/-- `through` is the cursor, or where it stood before the turn's loss; what is pending was read by
    then. -/
structure Progress (s : Socket × CutRecord) : Prop where
  through_le : s.2.through ≤ s.1.task.conn.cursor
  through_eq : s.2.lost = false → s.2.through = s.1.task.conn.cursor
  pending : ∀ e ∈ s.1.task.conn.pending, e.seq ≤ s.2.through
  greets : s.1.task.phase.greets = true → s.1.task.conn.pending = []
  lossy : ∀ b, s.1.task.phase.lossy = some b → s.2.lost = b
  gap : s.2.lost = true → s.2.through < s.1.hub.ring.evictedThrough ∨
    ∃ g ∈ s.1.hub.log, Connection.isGap s.1.task.conn.userId g = true ∧ s.2.through < g.seq

section Progress

variable {eng : Engine} {cap : Nat} {s : Socket} {r : CutRecord} {a : TaskAct} {o : Outcome}

theorem Phase.lossy_of_loses {p : Phase} {b : Bool} (h : p.loses = some b) : p.lossy = some b := by
  cases p <;> first | exact h | cases h

theorem Phase.lossy_of_greets {p : Phase} (h : p.greets = true) : p.lossy = some false := by
  cases p <;> first | rfl | cases h

theorem Progress.through_self (hi : Progress (s, r)) :
    (if r.lost then r.through else s.task.conn.cursor) = r.through := by
  cases hl : r.lost with
  | true => rfl
  | false => exact (hi.through_eq hl).symm

/-- **What surrounds the socket leaves the record as it is**, but for the disconnect. -/
theorem Progress.note_around (hi : Progress (s, r)) (b : Around) :
    ∃ d, r.note eng cap s (.around b) (s.surround eng cap b) = { r with disconnect := d } := by
  obtain ⟨hp, hc, _⟩ : (s.surround eng cap b).task.phase = s.task.phase ∧
      (s.surround eng cap b).task.conn = s.task.conn ∧ _ := s.surround_eq b
  have hlost : r.lostBy (s.surround eng cap b) = r.lost := by
    unfold CutRecord.lostBy
    rw [hp]
    cases hl : s.task.phase.loses with
    | none => rfl
    | some b => exact (hi.lossy b (Phase.lossy_of_loses hl)).symm
  have hnone : s.task.conn.pending.filter (· ∉ s.task.conn.pending) = [] :=
    List.filter_eq_nil_iff.mpr fun e he => by simpa using he
  refine ⟨(r.note eng cap s (.around b) (s.surround eng cap b)).disconnect, ?_⟩
  unfold CutRecord.note
  simp only [hlost, hc, hi.through_self, hnone, List.append_nil, Socket.effect]

theorem Progress.around (hi : Progress (s, r)) (b : Around) :
    Progress (s.surround eng cap b, r.note eng cap s (.around b) (s.surround eng cap b)) := by
  obtain ⟨hp, hc, hgrow⟩ : (s.surround eng cap b).task.phase = s.task.phase ∧
      (s.surround eng cap b).task.conn = s.task.conn ∧ s.hub.Grows (s.surround eng cap b).hub :=
    s.surround_eq b
  obtain ⟨d, hnote⟩ : ∃ d, r.note eng cap s (.around b) _ = _ := hi.note_around b
  rw [hnote]
  refine ⟨hc ▸ hi.through_le, fun hl => hc ▸ hi.through_eq hl, hc ▸ hi.pending, ?_, hp ▸ hi.lossy, ?_⟩
  · show (s.surround eng cap b).task.phase.greets = true → (s.surround eng cap b).task.conn.pending = []
    rw [hp, hc]
    exact hi.greets
  · intro hl
    rcases hi.gap hl with hlt | ⟨g, hg, hgap, hlt⟩
    · exact .inl (Nat.lt_of_lt_of_le hlt hgrow.evicted)
    · exact .inr ⟨g, hgrow.subset hg, hc.symm ▸ hgap, hlt⟩

/-- **A step of the task keeps the turn's progress.** -/
theorem Progress.task (hi : Progress (s, r)) (hb : s.task.Bounded s.hub.ring.head)
    (ho : s.task.step eng cap s.hub a = some o) :
    Progress (⟨o.hub, o.task⟩, r.note eng cap s (.task a) ⟨o.hub, o.task⟩) := by
  have hs : Task.Step eng cap s.hub s.task a o := Task.step_cases ho
  obtain ⟨hgrow, _⟩ := hs.hub
  -- the new record's loss and reach, by what the phase tells
  have hlost : ∀ b, o.task.phase.loses = some b → r.lostBy ⟨o.hub, o.task⟩ = b := by
    intro b hl
    show o.task.phase.loses.getD r.lost = b
    rw [hl]
    rfl
  have hsame : o.task.phase.loses = none → r.lostBy ⟨o.hub, o.task⟩ = r.lost := by
    intro hl
    show o.task.phase.loses.getD r.lost = r.lost
    rw [hl]
    rfl
  have hlossy : ∀ b, o.task.phase.lossy = some b → r.lostBy ⟨o.hub, o.task⟩ = b := by
    intro b hb'
    rcases hs.lossy hb' with hl | ⟨hl, hold⟩
    · exact hlost b hl
    · exact (hsame hl).trans (hi.lossy b hold)
  have hgreets := hs.greets hi.greets
  have hnew : ∀ l thr, r.lostBy ⟨o.hub, o.task⟩ = l →
      (if l then r.through else o.task.conn.cursor) = thr →
      thr ≤ o.task.conn.cursor → (∀ e ∈ o.task.conn.pending, e.seq ≤ thr) →
      (l = true → thr < o.hub.ring.evictedThrough ∨
        ∃ g ∈ o.hub.log, Connection.isGap o.task.conn.userId g = true ∧ thr < g.seq) →
      Progress (⟨o.hub, o.task⟩, r.note eng cap s (.task a) ⟨o.hub, o.task⟩) := by
    intro l thr hl hthr hle hpend hgap
    have hthrough : (r.note eng cap s (.task a) ⟨o.hub, o.task⟩).through = thr := by
      show (if r.lostBy ⟨o.hub, o.task⟩ then r.through else o.task.conn.cursor) = thr
      rw [hl, hthr]
    refine ⟨hthrough ▸ hle, fun hf => ?_, hthrough ▸ hpend, hgreets, hlossy, fun hl' => ?_⟩
    · have hf' : r.lostBy ⟨o.hub, o.task⟩ = false := hf
      rw [hthrough, ← hthr, ← hl, hf']
      rfl
    · rw [hthrough]
      exact hgap (hl ▸ hl')
  have hgapped : r.lost = true → r.through < o.hub.ring.evictedThrough ∨
      ∃ g ∈ o.hub.log, Connection.isGap o.task.conn.userId g = true ∧ r.through < g.seq := by
    intro hl
    rcases hi.gap hl with hlt | ⟨g, hg, hgap, hlt⟩
    · exact .inl (Nat.lt_of_lt_of_le hlt hgrow.evicted)
    · exact .inr ⟨g, hgrow.subset hg, hs.userId.symm ▸ hgap, hlt⟩
  cases hs.moves hb with
  | stays hc hp hl =>
    cases hl' : o.task.phase.loses with
    | none =>
      refine hnew r.lost r.through (hsame hl') ?_ (hc ▸ hi.through_le)
        (fun e he => hi.pending e (hp e he)) hgapped
      cases hr : r.lost with
      | true => rfl
      | false => exact hc.trans (hi.through_eq hr).symm
    | some b =>
      cases b with
      | true => exact absurd hl' hl
      | false =>
        refine hnew false _ (hlost false hl') rfl (Nat.le_refl _) (fun e he => ?_) nofun
        exact Nat.le_trans (hi.pending e (hp e he)) (hc ▸ hi.through_le)
  | begins hg hl hp =>
    have hr : r.lost = false := hi.lossy false (Phase.lossy_of_greets hg)
    refine hnew false _ ((hsame hl).trans hr) rfl (Nat.le_refl _) (fun e he => ?_) nofun
    rw [hp, hi.greets hg] at he
    cases he
  | reads hc hp hl hl' =>
    have hr : r.lost = false := hi.lossy false hl
    refine hnew false _ ((hsame hl').trans hr) rfl (Nat.le_refl _) (fun e he => ?_) nofun
    rcases hp e he with hold | hle
    · exact Nat.le_trans (hi.pending e hold) (Nat.le_trans hi.through_le hc)
    · exact hle
  | loses hc hp hl hgap =>
    have hr : r.lost = false := hi.lossy false hl
    have hthr : r.through = s.task.conn.cursor := hi.through_eq hr
    cases hl' : r.lostBy ⟨o.hub, o.task⟩ with
    | true =>
      refine hnew true r.through hl' rfl (Nat.le_trans hi.through_le hc) (hp ▸ hi.pending) fun _ => ?_
      rw [hthr]
      refine hgap.imp_right fun ⟨g, hg, hgap, hlt⟩ => ⟨g, hgrow.subset hg, hs.userId.symm ▸ hgap, hlt⟩
    | false =>
      refine hnew false _ hl' rfl (Nat.le_refl _) (fun e he => ?_) nofun
      rw [hp] at he
      exact Nat.le_trans (hi.pending e he) (Nat.le_trans hi.through_le hc)

/-- Once the resume point is answered, the turns only reach further. -/
theorem Progress.through_mono (hi : Progress (s, r)) (hb : s.task.Bounded s.hub.ring.head)
    (ho : s.task.step eng cap s.hub a = some o) (hg : s.task.phase.greets = false) :
    r.through ≤ (r.note eng cap s (.task a) ⟨o.hub, o.task⟩).through := by
  have hs : Task.Step eng cap s.hub s.task a o := Task.step_cases ho
  have hle : s.task.conn.cursor ≤ o.task.conn.cursor := by
    cases hs.moves hb with
    | stays hc => exact Nat.le_of_eq hc.symm
    | begins hg' =>
      rw [hg] at hg'
      cases hg'
    | reads hc => exact hc
    | loses hc => exact hc
  show r.through ≤ if r.lostBy ⟨o.hub, o.task⟩ then r.through else o.task.conn.cursor
  split
  · exact Nat.le_refl _
  · exact Nat.le_trans hi.through_le hle

end Progress

/-! ## 2. What the turn has read -/

/-- The connection holds what it held at `base` and what is delivered from there up to `through`;
    no marker of the person's lies on the way. -/
structure Turn (log : List Entry) (base c : Connection) (through : Nat) : Prop where
  cursor_le : base.cursor ≤ through
  pending : c.pending = base.pending ++ base.heard (upTo Entry.seq through (past Entry.seq base.cursor log))
  topics : Connection.SameTopics c
    (Connection.addAll .default 0 false base (upTo Entry.seq through (past Entry.seq base.cursor log)))
  markers : ∀ g ∈ log, Connection.isGap c.userId g = true → base.cursor < g.seq → through < g.seq

/-- What the turn that cuts at `d` leaves for writing is what is due; it has read all there is
    before `d`, or lost it. -/
structure Closing (log : List Entry) (r : CutRecord) (c : Connection) (d : Nat) : Prop where
  pending : c.pending = r.due log d
  markers : ∀ g ∈ log, Connection.isGap c.userId g = true → r.base.cursor < g.seq → r.through < g.seq
  covers : r.lost = false → ∀ e ∈ log, e.seq < d → e.seq ≤ r.through

section Turn

variable {h h' : Hub} {base c conn : Connection} {through d : Nat} {cfg : SyncConfig} {now : Nat}
  {before : Option Nat} {r : CutRecord}

/-- A turn begins with nothing read. -/
theorem Turn.start (c : Connection) : Turn h.log c c c.cursor := by
  have hnil : upTo Entry.seq c.cursor (past Entry.seq c.cursor h.log) = [] :=
    Connection.passed_self h.log rfl
  refine ⟨Nat.le_refl _, ?_, ?_, fun _ _ _ => id⟩
  · rw [hnil]
    exact (List.append_nil _).symm
  · rw [hnil]
    exact .refl c

/-- What a turn has read does not change as the hub grows. -/
theorem Turn.grow (ht : Turn h.log base c through) (hg : h.Grows h') (hle : through ≤ h.sequence) :
    Turn h'.log base c through := by
  have hsame : upTo Entry.seq through (past Entry.seq base.cursor h'.log) =
      upTo Entry.seq through (past Entry.seq base.cursor h.log) := by
    rw [upTo_past_comm, upTo_past_comm, hg.upTo_log hle]
  refine ⟨ht.cursor_le, hsame ▸ ht.pending, hsame ▸ ht.topics, fun g hlog hgap hlt => ?_⟩
  by_cases hseq : g.seq ≤ h.sequence
  · exact ht.markers g (hg.mem hlog hseq) hgap hlt
  · omega

/-- A loss leaves what the turn has read. -/
theorem Turn.keep (ht : Turn h.log base c through) (hu : conn.userId = c.userId)
    (htop : conn.topics = c.topics) (hp : conn.pending = c.pending) :
    Turn h.log base conn through :=
  ⟨ht.cursor_le, hp ▸ ht.pending, ⟨ht.topics.userId.trans hu.symm, ht.topics.topics.trans htop.symm⟩,
    hu ▸ ht.markers⟩

/-- **A catch-up continues the turn's reading.** -/
theorem Turn.read (ht : Turn h.log base c c.cursor)
    (hc : Connection.CatchUp cfg now before false h c (none, conn)) :
    Turn h.log base conn conn.cursor := by
  obtain ⟨hle, _⟩ := hc.reads
  have hsplit := upTo_past_append h.keeps.increasing ht.cursor_le hle
  cases hc with
  | events hev hgap =>
    have hpassed : c.passed (Connection.addAll cfg now false
        { c with cursor := Connection.headBefore before h.ring.head c.cursor }
        (Connection.cutAt before (past Entry.seq c.cursor h.log))) h.log =
          Connection.cutAt before (past Entry.seq c.cursor h.log) :=
      Connection.passed_headBefore Connection.addAll_cursor
    have hsame : Connection.SameTopics { c with cursor := Connection.headBefore before h.ring.head c.cursor }
        (Connection.addAll .default 0 false base
          (upTo Entry.seq c.cursor (past Entry.seq base.cursor h.log))) :=
      ⟨ht.topics.userId, ht.topics.topics⟩
    have hread : upTo Entry.seq _ (past Entry.seq c.cursor h.log) = _ := hpassed
    rw [hread] at hsplit
    refine ⟨Nat.le_trans ht.cursor_le hle, ?_, ?_, fun g hg hisgap hlt => ?_⟩
    · rw [hsplit, Connection.heard_append, Connection.addAll_pending, ← List.append_assoc, ← ht.pending]
      exact congrArg (c.pending ++ ·) (hsame.admitted _)
    · rw [hsplit, Connection.addAll_append]
      exact hsame.addAll _
    · rw [Connection.addAll_userId] at hisgap
      have hpast : c.cursor < g.seq := ht.markers g hg hisgap hlt
      by_contra hnot
      have hin : g ∈ upTo Entry.seq _ (past Entry.seq c.cursor h.log) :=
        mem_upTo.mpr ⟨mem_past.mpr ⟨hg, hpast⟩, Nat.not_lt.mp hnot⟩
      rw [hread] at hin
      rw [hgap g hin] at hisgap
      cases hisgap

/-- **Cutting what the turn has read leaves what is due.** -/
theorem Turn.closing (ht : Turn h.log r.base c r.through)
    (hcovers : r.lost = false → ∀ e ∈ h.log, e.seq < d → e.seq ≤ r.through) :
    Closing h.log r (c.cutOff d) d := by
  refine ⟨?_, ht.markers, hcovers⟩
  have hincreasing : Increasing Entry.seq (upTo Entry.seq r.through (past Entry.seq r.base.cursor h.log)) :=
    (h.keeps.increasing.sublist (past_sublist _ _)).sublist (upTo_sublist _ _)
  have hfilter : (upTo Entry.seq r.through (past Entry.seq r.base.cursor h.log)).filter
      (fun e => e.seq < d) = (past Entry.seq r.base.cursor h.log).filter
        fun e => e.seq < d ∧ (r.lost = true → e.seq ≤ r.through) := by
    unfold upTo
    rw [List.filter_filter]
    refine List.filter_congr fun e he => ?_
    rw [Bool.eq_iff_iff, Bool.and_eq_true, decide_eq_true_iff, decide_eq_true_iff, decide_eq_true_iff]
    constructor
    · exact fun ⟨hd, hle⟩ => ⟨hd, fun _ => hle⟩
    · rintro ⟨hd, hle⟩
      refine ⟨hd, ?_⟩
      cases hl : r.lost with
      | true => exact hle hl
      | false => exact hcovers hl e (mem_past.mp he).1 hd
  show c.pending.filter (fun e => e.seq < d) = _
  rw [ht.pending, List.filter_append, Connection.heard_filter_lt hincreasing, hfilter]
  rfl

/-- What is due before `d` does not change as the hub grows. -/
theorem Closing.grow (hcl : Closing h.log r c d) (hg : h.Grows h') (hd : d ≤ h.sequence)
    (hle : r.through ≤ h.sequence) : Closing h'.log r c d := by
  obtain ⟨new, hnew, hlt⟩ := hg.log
  have hdue : r.due h'.log d = r.due h.log d := by
    unfold CutRecord.due
    rw [hnew, past_append, List.filter_append]
    have hnil : (past Entry.seq r.base.cursor new).filter
        (fun e => decide (e.seq < d ∧ (r.lost = true → e.seq ≤ r.through))) = [] := by
      refine List.filter_eq_nil_iff.mpr fun e he => ?_
      have := hlt e (mem_past.mp he).1
      simp only [decide_eq_true_eq]
      omega
    rw [hnil, List.append_nil]
  refine ⟨hcl.pending.trans hdue.symm, fun g hlog hgap hpast => ?_, fun hl e he hlt' => ?_⟩
  · by_cases hseq : g.seq ≤ h.sequence
    · exact hcl.markers g (hg.mem hlog hseq) hgap hpast
    · omega
  · exact hcl.covers hl e (hg.mem he (by omega)) hlt'

end Turn

/-- Where the turn stands, in every phase of it that may yet read; and what it leaves once the
    disconnect is found. -/
structure Turns (s : Socket × CutRecord) : Prop where
  reads : s.1.task.phase.reads = true → Turn s.1.hub.log s.2.base s.1.task.conn s.2.through
  closing : ∀ bye, s.1.task.phase = .settling none (some bye) → s.2.found = true →
    ∃ d, s.2.disconnect = some d ∧ Closing s.1.hub.log s.2 s.1.task.conn d

section Turns

variable {eng : Engine} {cap : Nat} {s : Socket} {r : CutRecord} {a : TaskAct} {o : Outcome}

theorem Progress.through_le_sequence (hp : Progress (s, r)) (hb : s.task.Bounded s.hub.ring.head) :
    r.through ≤ s.hub.sequence :=
  Nat.le_trans hp.through_le (Nat.le_trans hb.cursor s.hub.head_le)

/-- Where the person is disconnected once, the record keeps the disconnect. -/
theorem disconnect_note {s' : Socket} {b : Around} (hg : OneDisconnect (s, r) (.around b)) (d : Nat)
    (hd : r.disconnect = some d) : (r.note eng cap s (.around b) s').disconnect = some d := by
  cases b with
  | disconnect =>
    have hnone : r.disconnect = none := hg
    rw [hnone] at hd
    cases hd
  | _ => exact hd

theorem Turns.around (hi : Turns (s, r)) (hm : Message (s, r)) (hp : Progress (s, r))
    (hb : s.task.Bounded s.hub.ring.head) (b : Around) (hg : OneDisconnect (s, r) (.around b)) :
    Turns (s.surround eng cap b, r.note eng cap s (.around b) (s.surround eng cap b)) := by
  obtain ⟨hphase, hc, hgrow⟩ : (s.surround eng cap b).task.phase = s.task.phase ∧
      (s.surround eng cap b).task.conn = s.task.conn ∧ s.hub.Grows (s.surround eng cap b).hub :=
    s.surround_eq b
  have hle : r.through ≤ s.hub.sequence := hp.through_le_sequence hb
  have hdisconnect : ∀ d, r.disconnect = some d →
      (r.note eng cap s (.around b) (s.surround eng cap b)).disconnect = some d := disconnect_note hg
  obtain ⟨d', hnote⟩ : ∃ d, r.note eng cap s (.around b) _ = _ := hp.note_around b
  rw [hnote] at hdisconnect ⊢
  refine ⟨fun hr => ?_, fun bye hbye hfound => ?_⟩
  · show Turn (s.surround eng cap b).hub.log r.base (s.surround eng cap b).task.conn r.through
    rw [hc]
    exact (hi.reads (hphase ▸ hr)).grow hgrow hle
  · obtain ⟨d, hd, hcl⟩ := hi.closing bye (hphase ▸ hbye) hfound
    refine ⟨d, hdisconnect d hd, ?_⟩
    rw [hc]
    obtain ⟨hpend, hmark, hcov⟩ := hcl.grow hgrow (hm.heard d hd).1 hle
    exact ⟨hpend, hmark, hcov⟩

/-- A step that begins a turn's reading anew. -/
theorem Turns.restart (hbase : (r.note eng cap s (.task a) ⟨o.hub, o.task⟩).base = o.task.conn)
    (hlossy : o.task.phase.reads = true → o.task.phase.lossy = some false)
    (hp : Progress (⟨o.hub, o.task⟩, r.note eng cap s (.task a) ⟨o.hub, o.task⟩))
    (hnot : ∀ bye, o.task.phase ≠ .settling none (some bye)) :
    Turns (⟨o.hub, o.task⟩, r.note eng cap s (.task a) ⟨o.hub, o.task⟩) := by
  refine ⟨fun hr => ?_, fun bye hbye => absurd hbye (hnot bye)⟩
  have hthrough := hp.through_eq (hp.lossy false (hlossy hr))
  show Turn o.hub.log _ o.task.conn _
  rw [hbase, hthrough]
  exact .start _

/-- **A step of the task keeps the turn's reading.** -/
theorem Turns.task (hi : Turns (s, r)) (hm : Message (s, r)) (hp : Progress (s, r))
    (hb : s.task.Bounded s.hub.ring.head) (ho : s.task.step eng cap s.hub a = some o) :
    Turns (⟨o.hub, o.task⟩, r.note eng cap s (.task a) ⟨o.hub, o.task⟩) := by
  have hp' : Progress (⟨o.hub, o.task⟩, r.note eng cap s (.task a) ⟨o.hub, o.task⟩) := hp.task hb ho
  have hquiet : o.task.phase.reads = false → (∀ bye, o.task.phase ≠ .settling none (some bye)) →
      Turns (⟨o.hub, o.task⟩, r.note eng cap s (.task a) ⟨o.hub, o.task⟩) := by
    intro hr hnot
    refine ⟨fun hr' => ?_, fun bye hbye => absurd hbye (hnot bye)⟩
    have hr'' : o.task.phase.reads = true := hr'
    rw [hr] at hr''
    cases hr''
  have hs : Task.Step eng cap s.hub s.task a o := Task.step_cases ho
  cases hs with
  | hello | followHello | resumes | starts | replayed | replayLost | refetchReplay | refetchStart
  | leaves | settles | writes | dropPerson | dropObserver => exact hquiet rfl (fun _ h => by cases h)
  | written last hphase =>
    cases last with
    | true => exact hquiet rfl (fun _ h => by cases h)
    | false => exact .restart rfl (fun _ => rfl) hp' (fun _ h => by cases h)
  | welcomes | lagged | received | sub | followSub | unsub | ping =>
    exact .restart rfl (fun _ => rfl) hp' (fun _ h => by cases h)
  | branch bye hphase a ha =>
    rcases ha with rfl | rfl | ⟨b, rfl⟩ <;> exact .restart rfl (fun _ => rfl) hp' (fun _ h => by cases h)
  | caughtUp now conn hphase hc =>
    have hr : r.lost = false := hp.lossy false (by rw [hphase]; rfl)
    have hold : Turn s.hub.log r.base s.task.conn r.through := hi.reads (by rw [hphase]; rfl)
    rw [hp.through_eq hr] at hold
    refine ⟨fun _ => ?_, fun _ h => by cases h⟩
    have hthrough := hp'.through_eq hr
    show Turn s.hub.log r.base conn _
    rw [hthrough]
    exact hold.read hc
  | catchLost now reason conn hphase hc =>
    have hold : Turn s.hub.log r.base s.task.conn r.through := hi.reads (by rw [hphase]; rfl)
    exact ⟨fun _ => hold.keep hc.userId hc.lost_topics hc.lost_pending, fun _ h => by cases h⟩
  | refetchCatch resync hphase =>
    have hold : Turn s.hub.log r.base s.task.conn r.through := hi.reads (by rw [hphase]; rfl)
    refine ⟨fun _ => ?_, fun _ h => by cases h⟩
    show Turn s.hub.log r.base s.task.conn (if r.lost then r.through else s.task.conn.cursor)
    rw [hp.through_self]
    exact hold
  | unfound seen resync bye internal hphase hl =>
    refine ⟨(fun h => by cases h), fun b _ hfound => ?_⟩
    have hnot : r.found = false := hm.not_found (by rw [hphase]; rfl)
    have hfinds : s.task.finds cap .poll = false := by
      simp only [Task.finds, hphase, hl, Option.isSome_none]
    have hfound' : (r.found || s.task.finds cap .poll) = true := hfound
    rw [hnot, hfinds] at hfound'
    cases hfound'
  | foundGapped seen resync bye sequence reconnect internal hphase hl =>
    have hr : r.lost = true := hp.lossy true (by rw [hphase]; rfl)
    have hold : Turn s.hub.log r.base s.task.conn r.through := hi.reads (by rw [hphase]; rfl)
    rcases hm.look_cases cap hphase with ⟨hlook, _⟩ | ⟨d, _, internal', hlook, hd, _⟩
    · rw [hlook] at hl
      cases hl
    · rw [hlook] at hl
      cases hl
      refine ⟨(fun h => by cases h), fun b _ _ => ⟨sequence, hd, ?_⟩⟩
      refine Turn.closing ?_ fun hf => ?_
      · show Turn s.hub.log r.base s.task.conn (if r.lost then _ else _)
        rw [hr]
        exact hold
      · have hf' : r.lost = false := hf
        rw [hr] at hf'
        cases hf'
  | found seen bye sequence reconnect internal hphase hl =>
    have hold : Turn s.hub.log r.base s.task.conn r.through := hi.reads (by rw [hphase]; rfl)
    refine ⟨fun _ => ?_, fun _ h => by cases h⟩
    show Turn s.hub.log r.base s.task.conn (if r.lost then r.through else s.task.conn.cursor)
    rw [hp.through_self]
    exact hold
  | cut now sequence bye conn hphase hc =>
    have hr : r.lost = false := hp.lossy false (by rw [hphase]; rfl)
    have hold : Turn s.hub.log r.base s.task.conn r.through := hi.reads (by rw [hphase]; rfl)
    rw [hp.through_eq hr] at hold
    have hd : r.disconnect = some sequence := (hm.cutsAt sequence (by rw [hphase]; rfl)).1
    have hthrough := hp'.through_eq hr
    refine ⟨(fun h => by cases h), fun b _ _ => ⟨sequence, hd, ?_⟩⟩
    have hread : Turn s.hub.log r.base conn conn.cursor := hold.read hc
    refine Turn.closing ?_ fun _ e he hlt => ?_
    · show Turn s.hub.log r.base conn _
      rw [hthrough]
      exact hread
    · rw [hthrough]
      exact hc.le_cursor he hlt
  | cutLost now sequence bye reason conn hphase hc =>
    have hold : Turn s.hub.log r.base s.task.conn r.through := hi.reads (by rw [hphase]; rfl)
    exact ⟨fun _ => hold.keep hc.userId hc.lost_topics hc.lost_pending, fun _ h => by cases h⟩
  | refetchCut sequence bye hphase =>
    have hr : r.lost = true := hp.lossy true (by rw [hphase]; rfl)
    have hold : Turn s.hub.log r.base s.task.conn r.through := hi.reads (by rw [hphase]; rfl)
    have hd : r.disconnect = some sequence := (hm.cutsAt sequence (by rw [hphase]; rfl)).1
    refine ⟨(fun h => by cases h), fun b _ _ => ⟨sequence, hd, ?_⟩⟩
    refine Turn.closing ?_ fun hf => ?_
    · show Turn s.hub.log r.base s.task.conn (if r.lost then _ else _)
      rw [hr]
      exact hold
    · have hf' : r.lost = false := hf
      rw [hr] at hf'
      cases hf'

end Turns

end Smartfire
