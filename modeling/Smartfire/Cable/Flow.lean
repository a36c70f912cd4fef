/-
  File:      Smartfire/Cable/Flow.lean
  Subject:   What one connection's readings and flushes write between two resyncs.

  The run: publications, skips and evictions of the hub, catch-ups of the connection and flushes
  of its pending batch (with the session's default `events_for_viewer`), in any order. The first
  catch-up of a resumed connection is the `welcome`'s replay. A catch-up that loses events ends
  the run: there the connection resyncs.

  * `Flow`, `flowSystem` -- the state, with the (ghost) list of flushes, and its steps;
  * `Flow.Inv` -- flushed and pending events together are what the readings admitted of the
    log's stretch from the starting cursor to the present one;
  * `Flow.ExactlyOnce`, `exactlyOnce_of_reach` -- the main result.
-/
import Smartfire.Cable.Connection
import Smartfire.Lib.Runs

namespace Smartfire

open Lib
open scoped List

/-! ## 1. The run -/

/-- One flush: the pending batch it took, and the frames it wrote. -/
structure Flush where
  pending : List Entry
  frames : List (List Wire)

/-- A connection between two resyncs. -/
structure Flow where
  hub : Hub
  conn : Connection
  /-- Whether the next catch-up is the replay of a resumed `welcome`. -/
  replaying : Bool
  /-- The connection at the start (ghost). -/
  origin : Connection
  /-- Where the replay ended (ghost); the starting cursor if there was none. -/
  replayedThrough : Nat
  /-- The flushes so far (ghost). -/
  flushes : List Flush

inductive FlowAct where
  | hub (a : Hub.Act)
  | catchUp (now : Nat)
  | flush

namespace Flow

variable (cfg : SyncConfig)

/-- The connection after a catch-up that lost nothing. -/
def caughtUp (s : Flow) (conn : Connection) (hub : Hub) : Flow :=
  { s with
    hub := hub
    conn := conn
    replaying := false
    replayedThrough := if s.replaying then conn.cursor else s.replayedThrough }

/-- The connection after `take_batches`. -/
def flushed (s : Flow) : Flow :=
  { s with
    conn := s.conn.taken
    flushes := s.flushes ++ [⟨s.conn.pending, s.conn.batches cfg .plain⟩] }

def step (s : Flow) : FlowAct → Option Flow
  | .hub a => some { s with hub := s.hub.act cfg a }
  | .catchUp now =>
    match s.conn.catchUp cfg now none s.replaying s.hub with
    | ((none, conn), hub) => some (s.caughtUp conn hub)
    | ((some _, _), _) => none
  | .flush => if s.replaying then none else some (s.flushed cfg)

/-- A connection with nothing pending, at a cursor of the ring. -/
structure Start (s : Flow) : Prop where
  conn : s.conn = s.origin
  pending : s.conn.pending = []
  cursor : s.conn.cursor ≤ s.hub.ring.head
  replayed : s.replayedThrough = s.conn.cursor
  flushes : s.flushes = []

/-- The stretch of the log read so far. -/
def stretch (s : Flow) : List Entry :=
  upTo Entry.seq s.conn.cursor (past Entry.seq s.origin.cursor s.hub.log)

/-- Everything admitted so far: flushed, or still pending. -/
def taken (s : Flow) : List Entry := (s.flushes.map Flush.pending).flatten ++ s.conn.pending

/-- The entries written so far: of each flush, the last of each coalesce key. -/
def written (s : Flow) : List Entry :=
  (s.flushes.map fun f => lastPerKey Entry.coalesce f.pending).flatten

/-- Whether an entry reaches the connection: delivered to the person under the topics held at the
    start, and not a live-only event of the replay. -/
def reaches (s : Flow) (e : Entry) : Bool :=
  e.deliveredTo s.origin.userId s.origin.follows && !(e.ephemeral && e.seq ≤ s.replayedThrough)

end Flow

/-- Readings and flushes of one connection, between two resyncs. -/
def flowSystem (cfg : SyncConfig) : System Flow FlowAct where
  start := Flow.Start
  step := Flow.step cfg

/-! ## 2. The invariant -/

/-- What every run keeps: the admitted events are a part of the stretch read, free of markers, and
    all of it that reaches the connection if its topics are those of the start. -/
structure Flow.Inv (cfg : SyncConfig) (s : Flow) : Prop where
  user : s.conn.userId = s.origin.userId
  follows : ∀ t, s.conn.follows t = true → s.origin.follows t = true
  cursor_le : s.origin.cursor ≤ s.conn.cursor
  cursor_head : s.conn.cursor ≤ s.hub.ring.head
  replayed_le : s.replayedThrough ≤ s.conn.cursor
  replaying : s.replaying = true → s.taken = [] ∧ s.conn.cursor = s.origin.cursor
  markers : ∀ g ∈ s.stretch, Connection.isGap s.origin.userId g = false
  sublist : s.taken <+ s.stretch
  delivered : ∀ e ∈ s.taken, e.deliveredTo s.origin.userId s.origin.follows = true
  complete : (∀ t, s.origin.follows t = true → s.conn.follows t = true) →
    s.taken = s.stretch.filter s.reaches
  frames : ∀ f ∈ s.flushes, f.frames = chunks (max cfg.flushMax 1)
    ((lastPerKey Entry.coalesce f.pending).map fun e => ⟨e.seq, e.jsonFor s.origin.userId⟩)

namespace Flow

variable {cfg : SyncConfig} {s : Flow}

theorem inv_start (h : s.Start) : s.Inv cfg := by
  have hstretch : s.stretch = [] := by
    rw [stretch, ← h.conn, upTo_eq_nil fun e he => (mem_past.mp he).2]
  have htaken : s.taken = [] := by
    rw [taken, h.flushes, h.pending]; rfl
  refine ⟨by rw [h.conn], fun t ht => by rwa [← h.conn],
    Nat.le_of_eq (by rw [h.conn]), h.cursor,
    Nat.le_of_eq h.replayed, fun _ => ⟨htaken, by rw [h.conn]⟩, ?_, ?_, ?_, fun _ => ?_, ?_⟩
  · rw [hstretch]; exact fun g hg => (List.not_mem_nil hg).elim
  · rw [htaken]; exact List.nil_sublist _
  · rw [htaken]; exact fun e he => (List.not_mem_nil he).elim
  · rw [htaken, hstretch]; rfl
  · rw [h.flushes]; exact fun f hf => (List.not_mem_nil hf).elim

/-- Growth of the hub leaves the stretch read so far as it is. -/
theorem stretch_grows {h' : Hub} (hg : s.hub.Grows h') (hc : s.conn.cursor ≤ s.hub.ring.head) :
    ({ s with hub := h' } : Flow).stretch = s.stretch := by
  show upTo Entry.seq s.conn.cursor (past Entry.seq s.origin.cursor h'.log) = _
  rw [upTo_past_comm, hg.upTo_log (Nat.le_trans hc s.hub.head_le), ← upTo_past_comm]
  rfl

theorem inv_hub (hi : s.Inv cfg) (a : Hub.Act) : ({ s with hub := s.hub.act cfg a } : Flow).Inv cfg := by
  have hg : s.hub.Grows (s.hub.act cfg a) := Hub.grows_act a
  have hst := stretch_grows hg hi.cursor_head
  exact ⟨hi.user, hi.follows, hi.cursor_le, Nat.le_trans hi.cursor_head hg.head, hi.replayed_le,
    hi.replaying, hst ▸ hi.markers, hst ▸ hi.sublist, hi.delivered, hst ▸ hi.complete, hi.frames⟩

theorem inv_flush (hi : s.Inv cfg) (hr : s.replaying = false) : (s.flushed cfg).Inv cfg := by
  have htaken : (s.flushed cfg).taken = s.taken := by
    simp [taken, flushed, Connection.taken]
  refine ⟨hi.user, hi.follows, hi.cursor_le, hi.cursor_head, hi.replayed_le,
    fun h => absurd h (by simp [flushed, hr]), hi.markers, htaken ▸ hi.sublist,
    htaken ▸ hi.delivered, htaken ▸ hi.complete, ?_⟩
  intro f hf
  rcases List.mem_append.mp hf with hf | hf
  · exact hi.frames f hf
  · rw [List.mem_singleton.mp hf]
    show s.conn.batches cfg .plain = chunks (max cfg.flushMax 1)
      ((lastPerKey Entry.coalesce s.conn.pending).map fun e => ⟨e.seq, e.jsonFor s.origin.userId⟩)
    rw [← hi.user]
    rfl

section CatchUp

variable {now : Nat}

/-- The stretch after a reading: what was read before, then all the log holds past the cursor. -/
theorem stretch_caughtUp (now : Nat) (hi : s.Inv cfg) {conn : Connection} (hc : conn.cursor = s.hub.ring.head) :
    (s.caughtUp conn (s.hub.evict cfg now)).stretch =
      s.stretch ++ past Entry.seq s.conn.cursor s.hub.log := by
  have hall : ∀ e ∈ past Entry.seq s.origin.cursor s.hub.log, e.seq ≤ conn.cursor := by
    intro e he
    rw [hc]
    exact s.hub.keeps.bounded e (mem_past.mp he).1
  show upTo Entry.seq conn.cursor (past Entry.seq s.origin.cursor s.hub.log) = _
  rw [upTo_eq_self hall]
  exact past_eq_append s.hub.keeps.increasing hi.cursor_le

/-- **A reading keeps the invariant**: it admits events of the log's next stretch only, and with
    the topics held fixed every one that reaches the connection. -/
theorem inv_catchUp (hi : s.Inv cfg)
    (hgap : ∀ g ∈ past Entry.seq s.conn.cursor s.hub.log, Connection.isGap s.conn.userId g = false) :
    (s.caughtUp (Connection.addAll cfg now s.replaying { s.conn with cursor := s.hub.ring.head }
      (past Entry.seq s.conn.cursor s.hub.log)) (s.hub.evict cfg now)).Inv cfg := by
  generalize hread : past Entry.seq s.conn.cursor s.hub.log = l at hgap
  generalize hbase : ({ s.conn with cursor := s.hub.ring.head } : Connection) = base
  have hbf : base.follows = s.conn.follows := by rw [← hbase]; rfl
  have hbu : base.userId = s.origin.userId := by rw [← hbase]; exact hi.user
  have hbc : base.cursor = s.hub.ring.head := by rw [← hbase]
  generalize hconn : Connection.addAll cfg now s.replaying base l = conn
  have hcur : conn.cursor = s.hub.ring.head := by rw [← hconn, Connection.addAll_cursor, hbc]
  have hst := stretch_caughtUp now hi hcur
  rw [hread] at hst
  have hfol : ∀ t, conn.follows t = true → s.conn.follows t = true := by
    intro t ht
    rw [← hconn] at ht
    rw [← hbf]
    exact Connection.follows_of_addAll ht
  have hpend : conn.pending = s.conn.pending ++ Connection.admitted cfg now s.replaying base l := by
    rw [← hconn, Connection.addAll_pending, ← hbase]
  have htaken : (s.caughtUp conn (s.hub.evict cfg now)).taken =
      s.taken ++ Connection.admitted cfg now s.replaying base l := by
    show _ ++ conn.pending = _
    rw [hpend, taken, List.append_assoc]
    rfl
  refine ⟨by rw [← hconn]; exact Connection.addAll_userId.trans hbu,
    fun t ht => hi.follows t (hfol t ht), ?_, Nat.le_of_eq hcur, ?_, (nomatch ·), ?_, ?_, ?_, ?_,
    hi.frames⟩
  · exact Nat.le_trans hi.cursor_le (Nat.le_trans hi.cursor_head (Nat.le_of_eq hcur.symm))
  · show (if s.replaying then conn.cursor else s.replayedThrough) ≤ conn.cursor
    have := hi.replayed_le
    have := hi.cursor_head
    split <;> omega
  · rw [hst]
    intro g hg
    rcases List.mem_append.mp hg with hg | hg
    · exact hi.markers g hg
    · exact hi.user ▸ hgap g hg
  · rw [htaken, hst]
    exact hi.sublist.append Connection.admitted_sublist
  · rw [htaken]
    intro e he
    rcases List.mem_append.mp he with he | he
    · exact hi.delivered e he
    · obtain ⟨_, hd, _⟩ := Connection.mem_admitted he
      rw [hbu, hbf] at hd
      exact Entry.deliveredTo_mono hi.follows hd
  · intro hfix
    have hfix' : ∀ t, s.origin.follows t = true → s.conn.follows t = true :=
      fun t ht => hfol t (hfix t ht)
    have hsame : base.follows = s.origin.follows := by
      rw [hbf]
      funext t
      rw [Bool.eq_iff_iff]
      exact ⟨hi.follows t, hfix' t⟩
    have hadm : Connection.admitted cfg now s.replaying base l =
        l.filter fun e => e.deliveredTo base.userId base.follows && !(s.replaying && e.ephemeral) :=
      Connection.admitted_of_fixed fun t ht => by
        rw [hconn]
        rw [hsame] at ht
        exact hfix t ht
    rw [htaken, hst, List.filter_append, hadm, hbu, hsame]
    have hl : ∀ e ∈ l, s.conn.cursor < e.seq ∧ e.seq ≤ conn.cursor := by
      intro e he
      rw [← hread] at he
      rw [hcur]
      exact ⟨(mem_past.mp he).2, s.hub.keeps.bounded e (mem_past.mp he).1⟩
    cases hr : s.replaying with
    | true =>
      -- the replay is the first reading: nothing was taken before it
      obtain ⟨hnil, hcursor⟩ := hi.replaying hr
      have hempty : s.stretch = [] := by
        rw [stretch, upTo_eq_nil fun e he => ?_]
        rw [hcursor]
        exact (mem_past.mp he).2
      rw [hnil, hempty]
      refine List.filter_congr fun e he => ?_
      show _ = (_ && !(e.ephemeral && decide (e.seq ≤ if s.replaying then conn.cursor else _)))
      rw [hr, if_pos rfl, decide_eq_true (hl e he).2, Bool.true_and, Bool.and_true]
      rfl
    | false =>
      rw [hi.complete hfix']
      refine congr (congrArg _ ?_) (List.filter_congr fun e he => ?_)
      · refine List.filter_congr fun e _ => ?_
        show _ = (_ && !(e.ephemeral && decide (e.seq ≤ if s.replaying then conn.cursor else _)))
        rw [hr, if_neg Bool.false_ne_true]
        rfl
      · have hpast : ¬ e.seq ≤ s.replayedThrough := by
          have := (hl e he).1
          have := hi.replayed_le
          omega
        show _ = (_ && !(e.ephemeral && decide (e.seq ≤ if s.replaying then conn.cursor else _)))
        rw [hr, if_neg Bool.false_ne_true, decide_eq_false hpast, Bool.false_and, Bool.and_false]
        rfl

end CatchUp

/-- **Every step keeps the invariant.** -/
theorem inv_step {s' : Flow} {a : FlowAct} (hi : s.Inv cfg)
    (hs : s.step cfg a = some s') : s'.Inv cfg := by
  cases a with
  | hub a =>
    cases hs
    exact inv_hub hi a
  | flush =>
    rw [step] at hs
    split at hs
    · cases hs
    · next hr =>
      cases hs
      exact inv_flush hi (Bool.eq_false_iff.mpr hr)
  | catchUp now =>
    have hout := Connection.catchUp_outcome cfg now none s.replaying s.hub s.conn
    rw [step] at hs
    generalize hc : s.conn.catchUp cfg now none s.replaying s.hub = r at hs hout
    have hhub : r.2 = s.hub.evict cfg now := by rw [← hc]; rfl
    obtain ⟨r1, hub⟩ := r
    cases hhub
    cases hout with
    | rolledOver hlt => cases hs
    | skipped g hg hgap => cases hs
    | events hle hgap =>
      cases hs
      rw [Connection.cutAt_none] at hgap ⊢
      rw [Connection.headBefore_none hi.cursor_head]
      exact inv_catchUp hi hgap

/-- Every state reached keeps the invariant. -/
theorem inv_reach (h : Reach (flowSystem cfg) s) : s.Inv cfg :=
  h.induct (I := fun s => s.Inv cfg) (fun _ h0 => inv_start h0) fun _ _ _ _ hi _ hs => inv_step hi hs

end Flow

/-! ## 3. What is written -/

/-- The payload a publication has for a person. -/
def SyncPublication.payloadFor (p : SyncPublication) (user : Int) : ObjectText :=
  match p.personalized with
  | some (users, payload) => if user ∈ users then payload else p.payload
  | none => p.payload

/-- **A person's text of an event is encoded under the event's own sequence and topic**, from the
    payload personalized for them if there is one. -/
theorem Entry.jsonFor_ofPublication (seq now : Nat) (p : SyncPublication) (user : Int) :
    (Entry.ofPublication seq now p).jsonFor user =
      encodeEvent seq p.audience.topicName (p.payloadFor user) := by
  unfold Entry.jsonFor SyncPublication.payloadFor Entry.ofPublication
  cases p.personalized with
  | none => rfl
  | some q =>
    dsimp only [Option.map_some]
    split <;> rfl

namespace Flow

/-- The events written so far, as they stand in the batches. -/
def wires (s : Flow) : List Wire := (s.flushes.map fun f => f.frames.flatten).flatten

/-- What the run has written, and what it has not. -/
structure ExactlyOnce (cfg : SyncConfig) (s : Flow) : Prop where
  /-- The batches hold the written entries, each as its text for the person. -/
  wires : s.wires = s.written.map fun e => ⟨e.seq, e.jsonFor s.origin.userId⟩
  /-- Sequences grow over the whole run. -/
  increasing : s.wires.Pairwise fun v w => v.seq < w.seq
  /-- No batch is larger than the settings allow. -/
  batches : ∀ f ∈ s.flushes, ∀ b ∈ f.frames, b.length ≤ max cfg.flushMax 1
  /-- What is written is of the log past the starting cursor, delivered to the person under their
      topics, and no gap marker. -/
  delivered : ∀ e ∈ s.written, e ∈ s.hub.log ∧ s.origin.cursor < e.seq ∧
    e.deliveredTo s.origin.userId s.origin.follows = true ∧ e.gap = false
  /-- Each text is the publication's for the person, under the event's sequence. -/
  personalized : ∀ e ∈ s.written, ∃ now p, e = Entry.ofPublication e.seq now p ∧
    e.jsonFor s.origin.userId = encodeEvent e.seq p.audience.topicName (p.payloadFor s.origin.userId)
  /-- Every entry read that reaches the connection was taken by exactly one flush or is pending. -/
  complete : s.taken = s.stretch.filter s.reaches
  /-- A flush leaves an entry out only for a later one of the same key that it writes. -/
  superseded : ∀ f ∈ s.flushes, ∀ e ∈ f.pending, e ∈ lastPerKey Entry.coalesce f.pending ∨
    ∃ k, e.coalesce = some k ∧ ∃ b ∈ lastPerKey Entry.coalesce f.pending,
      b.coalesce = some k ∧ e.seq < b.seq

variable {cfg : SyncConfig} {s : Flow}

theorem written_sublist (s : Flow) : s.written <+ s.taken := by
  refine List.Sublist.trans ?_ (List.sublist_append_left _ _)
  unfold written
  induction s.flushes with
  | nil => exact List.Sublist.slnil
  | cons f l ih => exact (lastPerKey_sublist Entry.coalesce f.pending).append ih

/-- The stretch read is increasing. -/
theorem increasing_taken (hi : s.Inv cfg) : Increasing Entry.seq s.taken :=
  s.hub.keeps.increasing.sublist
    (hi.sublist.trans ((upTo_sublist ..).trans (past_sublist ..)))

theorem mem_log_of_taken (hi : s.Inv cfg) {e : Entry} (he : e ∈ s.taken) :
    e ∈ s.hub.log ∧ s.origin.cursor < e.seq :=
  mem_past.mp (mem_upTo.mp (hi.sublist.subset he)).1

/-- What was taken is no gap marker: one delivered to the connection would have ended the run. -/
theorem gap_of_taken (hi : s.Inv cfg) {e : Entry} (he : e ∈ s.taken) : e.gap = false := by
  cases hg : e.gap with
  | false => rfl
  | true =>
    have hm := s.hub.made e (mem_log_of_taken hi he).1
    have hgap := hm.isGap_of_gap hg (hi.delivered e he)
    rw [hi.markers e (hi.sublist.subset he)] at hgap
    cases hgap

theorem wires_eq (hi : s.Inv cfg) :
    s.wires = s.written.map fun e => ⟨e.seq, e.jsonFor s.origin.userId⟩ := by
  unfold wires written
  rw [List.map_flatten, List.map_map]
  refine congrArg List.flatten (List.map_congr_left fun f hf => ?_)
  rw [hi.frames f hf, flatten_chunks (by omega)]
  rfl

/-- **Exactly once, in order**: between two resyncs, with the topics held fixed, a connection's
    batches carry the delivered events read past its starting cursor, in sequence order, each once
    and as the person's own text; an event is missing only for a later one of its coalesce key
    written in the same flush. -/
theorem exactlyOnce_of_reach (h : Reach (flowSystem cfg) s)
    (hfix : ∀ t, s.origin.follows t = true → s.conn.follows t = true) : s.ExactlyOnce cfg := by
  have hi := inv_reach h
  have hsub := written_sublist s
  refine ⟨wires_eq hi, ?_, ?_, ?_, ?_, hi.complete hfix, ?_⟩
  · rw [wires_eq hi, List.pairwise_map]
    exact (increasing_taken hi).sublist hsub
  · intro f hf b hb
    rw [hi.frames f hf] at hb
    exact length_le_of_mem_chunks hb
  · intro e he
    have ht := hsub.subset he
    obtain ⟨hl, hc⟩ := mem_log_of_taken hi ht
    exact ⟨hl, hc, hi.delivered e ht, gap_of_taken hi ht⟩
  · intro e he
    have ht := hsub.subset he
    rcases s.hub.made e (mem_log_of_taken hi ht).1 with ⟨now, p, hp⟩ | ⟨now, u, hu⟩
    · refine ⟨now, p, hp, ?_⟩
      rw [hp]
      exact Entry.jsonFor_ofPublication ..
    · have := gap_of_taken hi ht
      rw [hu] at this
      cases this
  · intro f hf e he
    rcases mem_lastPerKey_or Entry.coalesce he with hin | ⟨k, hk, b, hb, hkb, hs⟩
    · exact .inl hin
    · refine .inr ⟨k, hk, b, hb, hkb, ?_⟩
      have hpend : f.pending <+ s.taken :=
        (List.sublist_flatten_of_mem (List.mem_map_of_mem hf)).trans (List.sublist_append_left _ _)
      exact increasing_pair.mp ((increasing_taken hi).sublist (hs.trans hpend))

/-- A room's event, one of the person's own that a later one replaces, and that one, read and
    written by a live connection. -/
theorem exactlyOnce_of_reach_sample : ∃ s, Reach (flowSystem .default) s ∧
    s.written.map Entry.seq = [1, 3] ∧ s.ExactlyOnce .default := by
  let conn : Connection := { Connection.fresh 1 with topics := Std.TreeMap.empty.insert "room:1" 0 }
  let s₀ : Flow := ⟨.empty, conn, false, conn, 0, []⟩
  let acts : List FlowAct :=
    [.hub (.publish 0 { audience := .topic "room:1", payload := .empty }),
      .hub (.publish 0 { audience := .user 1, payload := .empty, coalesce := some "k" }),
      .hub (.publish 0 { audience := .user 1, payload := .empty, coalesce := some "k" }),
      .catchUp 1, .flush]
  have hstart : s₀.Start := ⟨rfl, rfl, Nat.le_refl _, rfl, rfl⟩
  obtain ⟨s, hs, hp⟩ := exists_reachWhen_of_replay (T := flowSystem .default)
    (G := fun _ _ => True) (l := acts)
    (p := fun s => s.written.map Entry.seq = [1, 3] ∧ s.conn.topics.toList = s.origin.topics.toList)
    hstart (by decide)
  obtain ⟨hw, ht⟩ := of_decide_eq_true hp
  have heq : s.conn.topics.Equiv s.origin.topics :=
    Std.TreeMap.equiv_iff_toList_perm.mpr (ht ▸ List.Perm.refl _)
  exact ⟨s, hs, hw, exactlyOnce_of_reach hs fun t hf => heq.contains_eq.trans hf⟩

end Flow

end Smartfire
