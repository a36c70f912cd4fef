/-
  File:      Smartfire/Cable/RowRuns.lean
  Subject:   No sidebar row undoes a newer change of the unread state.

  A row goes out only where its fence is not crossed since the head read before its snapshot: every
  change published before the row was then published before that head, so committed before the
  snapshot. A viewer refused in the last try is skipped, and the marker that stands for the skip is
  in the ring or on its way there.

  * `Server.Follows`, `Server.Stands` -- what a server's step keeps, and where a skip's marker is;
  * `server_of_rows` -- the server's part of a run is one of the server's runs;
  * `RowsFresh`, `rowsFresh_of_reach` -- the property, in every run.
-/
import Smartfire.Cable.GapMarkers
import Smartfire.Cable.Rows

namespace Smartfire

open Lib

/-! ## 1. The server's part -/

namespace Server

variable {eng : Engine} {cap : Nat} {s s' : Server}

/-- What a step of the server can do to what others have seen of it. -/
structure Follows (s s' : Server) : Prop where
  hub : s.hub.Grows s'.hub
  journal : ∀ e ∈ s.journal, e ∈ s'.journal
  marked : ∀ call : Nat, s.skips[call]? = some Skip.marked → s'.skips[call]? = some Skip.marked

theorem Follows.refl (s : Server) : Follows s s := ⟨.refl _, fun _ => id, fun _ => id⟩

theorem mem_record {e e' : Event} (h : e ∈ s.journal) : e ∈ (s.record e').journal :=
  List.mem_append_left _ h

/-- The call of a skip stays the call it is, until its marker is pushed. -/
theorem skips_step {a : ServerAct} (hs : s.step eng cap a = some s') {call : Nat} {skip : Skip}
    (hc : s.skips[call]? = some skip) :
    s'.skips[call]? = some skip ∨ ∃ now user, skip = .marking user ∧ s'.skips[call]? = some Skip.marked ∧
      s' = { s with
        hub := s.hub.pushGap eng.config now user
        skips := s.skips.set call Skip.marked }.record (.marked call user (s.hub.sequence + 1)) := by
  have hlt : call < s.skips.length := (List.getElem?_eq_some_iff.mp hc).1
  cases step_cases hs with
  | socket i a t o hi ho =>
    rw [(moved_fields (s := s) i o).2.2.2]
    exact .inl hc
  | skipFor user hu => exact .inl ((List.getElem?_append_left hlt).trans hc)
  | mark c now user hm =>
    by_cases heq : c = call
    · subst heq
      obtain rfl : skip = .marking user := Option.some.inj (hc.symm.trans hm)
      refine .inr ⟨now, user, rfl, ?_, rfl⟩
      show (s.skips.set c Skip.marked)[c]? = some Skip.marked
      exact List.getElem?_set_self hlt
    · refine .inl ?_
      show (s.skips.set c Skip.marked)[call]? = some skip
      rw [List.getElem?_set_ne heq]
      exact hc
  | _ => exact .inl hc

theorem step_follows {a : ServerAct} (hs : s.step eng cap a = some s') : Follows s s' := by
  have hmarked : ∀ call : Nat, s.skips[call]? = some Skip.marked → s'.skips[call]? = some Skip.marked := by
    intro call hc
    rcases skips_step hs hc with h | ⟨_, _, h, _⟩
    · exact h
    · cases h
  have hkeep : ∀ e ∈ s.journal, e ∈ s.journal := fun _ => id
  cases step_cases hs with
  | socket i a t o hi ho =>
    refine ⟨(moved_fields (s := s) i o).1 ▸ (Task.step_cases ho).hub.1, fun e he => ?_, hmarked⟩
    rw [moved_journal]
    exact List.mem_append_left _ he
  | opens | still | observe | needed => exact ⟨.refl _, hkeep, hmarked⟩
  | publish _ now p => exact ⟨Hub.grows_act (.publish now p), hkeep, hmarked⟩
  | broadcast | disconnect => exact ⟨Hub.grows_broadcast, hkeep, hmarked⟩
  | evict now => exact ⟨Hub.grows_evict, hkeep, hmarked⟩
  | presenceSkip => exact ⟨Hub.grows_skip, hkeep, hmarked⟩
  | commit | unneeded | covered | skipFor => exact ⟨.refl _, fun _ => mem_record, hmarked⟩
  | skip call => exact ⟨Hub.grows_skip, fun _ => mem_record, hmarked⟩
  | mark call now user hc => exact ⟨Hub.grows_act (.pushGap now user), fun _ => mem_record, hmarked⟩

/-- The marker of the call is in the ring's log. -/
def InLog (s : Server) (user : Int) (call : Nat) : Prop :=
  ∃ seq now, Event.marked call user seq ∈ s.journal ∧ Entry.gapMarker seq now user ∈ s.hub.log

/-- The marker of the call is in the ring's log, or the call is about to push it. -/
def Stands (s : Server) (user : Int) (call : Nat) : Prop :=
  s.skips[call]? = some (Skip.marking user) ∨ s.skips[call]? = some Skip.marked ∧ s.InLog user call

theorem Stands.step {user : Int} {call : Nat} (h : s.Stands user call) {a : ServerAct}
    (hs : s.step eng cap a = some s') : s'.Stands user call := by
  obtain ⟨hgrow, hjournal, hmarked⟩ := step_follows hs
  rcases h with h | ⟨h, seq, now, hm, hlog⟩
  · rcases skips_step hs h with h' | ⟨now, u, hu, h', rfl⟩
    · exact .inl h'
    · cases hu
      refine .inr ⟨h', s.hub.sequence + 1, now, ?_, ?_⟩
      · exact List.mem_append_right _ (List.mem_singleton.mpr rfl)
      · exact List.mem_append_right _ (List.mem_singleton.mpr rfl)
  · exact .inr ⟨hmarked call h, seq, now, hjournal _ hm, hgrow.subset hlog⟩

/-- Every skip's marker, and every marker somebody is yet to act on, stands. -/
structure SkipsStand (s : Server) : Prop where
  skipped : ∀ user call, Event.skipped user call ∈ s.journal → s.Stands user call
  gapped : ∀ user call, (user, call) ∈ s.gapped → s.Stands user call

theorem skipsStand_reach (h : Reach (serverSystem eng cap) s) : s.SkipsStand := by
  refine h.induct (T := serverSystem eng cap) (I := SkipsStand) (fun s h0 => ?_)
    fun s a s' _ hi _ hs => ?_
  · rw [show s = .empty from h0]
    exact ⟨fun _ _ h => (List.not_mem_nil h).elim, fun _ _ h => (List.not_mem_nil h).elim⟩
  have hskipped : ∀ user call, Event.skipped user call ∈ s.journal → s'.Stands user call :=
    fun user call he => (hi.skipped user call he).step hs
  have hgapped : ∀ user call, (user, call) ∈ s.gapped → s'.Stands user call :=
    fun user call he => (hi.gapped user call he).step hs
  have hrecord : ∀ {v : Server} {e : Event}, (∀ user call, e ≠ .skipped user call) →
      ∀ user call, Event.skipped user call ∈ (v.record e).journal → Event.skipped user call ∈ v.journal := by
    intro v e hne user call he
    rcases List.mem_append.mp he with he | he
    · exact he
    · exact absurd (List.mem_singleton.mp he).symm (hne user call)
  cases step_cases hs with
  | socket i a t o hti ho =>
    refine ⟨fun user call he => ?_, fun user call hq => hgapped user call (gapped_moved hq).1⟩
    rw [moved_events] at he
    rcases List.mem_append.mp he with he | he
    · exact hskipped user call he
    · rcases Outcome.mem_events he with ⟨_, _, h⟩ | ⟨_, _, h⟩ <;> cases h
  | commit | unneeded | skip =>
    exact ⟨fun user call he => hskipped user call (hrecord (fun _ _ h => by cases h) user call he), hgapped⟩
  | mark call now user hc =>
    exact ⟨fun v c he => hskipped v c (hrecord (fun _ _ h => by cases h) v c he), hgapped⟩
  | skipFor user hu =>
    have hnew : (s.skips ++ [Skip.marking user])[s.skips.length]? = some (Skip.marking user) := by simp
    refine ⟨fun v c he => ?_, fun v c hq => ?_⟩
    · rcases List.mem_append.mp he with he | he
      · exact hskipped v c he
      · cases List.mem_singleton.mp he
        exact .inl hnew
    · rcases List.mem_cons.mp hq with heq | hq
      · cases heq
        exact .inl hnew
      · exact hgapped v c hq
  | covered user call hu =>
    refine ⟨fun v c he => ?_, hgapped⟩
    rcases List.mem_append.mp he with he | he
    · exact hskipped v c he
    · cases List.mem_singleton.mp he
      exact hgapped _ _ (mem_of_lookup hu)
  | opens | publish | broadcast | evict | disconnect | still | presenceSkip | observe | needed =>
    exact ⟨hskipped, hgapped⟩

end Server

/-! ## 2. The property -/

section Rows

variable {D R M W : Type} (b : Sidebar D R M W) (origin : D)

/-- The row at `seq` is the viewer's, rendered from the database as it was after `commits` commits:
    the room and the membership are those read then. -/
def Rows.Carries (s : Rows D R M) (user room : Int) (seq commits : Nat) : Prop :=
  commits ≤ s.commits.length ∧ ∃ now refreshRoom r m row,
    b.findById (stateAt origin s.commits commits) room = some r ∧
    m ∈ b.forRoom (stateAt origin s.commits commits) room ∧ b.userId m = user ∧
    b.sidebarRow (stateAt origin s.commits commits) r m = some row ∧
    Entry.ofPublication seq now { audience := .user user, payload := b.upserted row refreshRoom } ∈
      s.server.hub.log

/-- **No row undoes a newer change, and none is silently dropped.** -/
structure RowsFresh (s : Rows D R M) : Prop where
  /-- A row carries the state of a snapshot that includes every commit whose change was published,
      under the fence of the viewer's unread state, before the row. -/
  fresh : ∀ user room seq commits, RowEvent.upserted user room seq commits ∈ s.journal →
    Rows.Carries b origin s user room seq commits ∧
      ∀ seq' commit, RowEvent.fenced (unreadFence user room) seq' commit ∈ s.journal → seq' < seq →
        commit ≤ commits
  /-- A viewer refused in every try of a pass is skipped: the marker that stands for the skip is in
      the ring, or is on its way there in the hands of the call that found none pending. -/
  told : ∀ (i : Nat) (p : Pass D R M), s.passes[i]? = some p → p.phase = .done → ∀ user,
    (∀ k < maxTries, RowEvent.refused i k user ∈ s.journal) →
      ∃ call covered, RowEvent.gaveUp i user call covered ∈ s.journal ∧
        Event.skipped user call ∈ s.server.journal ∧ s.server.Stands user call ∧
          (covered = false → s.server.InLog user call)

end Rows

/-! ## 3. What a pass keeps -/

section Inv

variable {D R M W : Type} (b : Sidebar D R M W) (origin : D)

/-- The events the record holds under each fence. -/
def fencedEvents (journal : List RowEvent) : List (String × Nat) :=
  journal.filterMap fun
    | .fenced key seq _ => some (key, seq)
    | _ => none

/-- What a pass knows of its snapshot: it includes every commit whose event under a fence was
    published by the head read before it. -/
structure Pass.Knows (s : Rows D R M) (p : Pass D R M) : Prop where
  since : ∀ since, p.phase.since = some since → since ≤ s.server.hub.sequence
  commits : ∀ r, p.phase.reading = some r → r.commits ≤ s.commits.length ∧
    r.state = stateAt origin s.commits r.commits
  room : ∀ r room, p.phase.reading = some r → r.room = some room →
    b.findById r.state p.room = some room
  rendering : ∀ r room m todo refused, p.phase = .rendering r room m todo refused → r.room = some room
  members : ∀ r, p.phase.reading = some r → ∀ m ∈ p.phase.members, m ∈ b.forRoom r.state p.room
  includes : ∀ r, p.phase.reading = some r → ∀ key seq commit,
    RowEvent.fenced key seq commit ∈ s.journal → seq ≤ r.since → commit ≤ r.commits

/-- What a pass owes its viewers: who was refused in the last try is still to be given up on, or was;
    and the markers it found missing are pushed, but for the one it is about to push. -/
structure Pass.Owes (s : Rows D R M) (i : Nat) (p : Pass D R M) : Prop where
  tried : ∀ k user, RowEvent.refused i k user ∈ s.journal → k < p.phase.tries
  held : ∀ user, RowEvent.refused i (maxTries - 1) user ∈ s.journal →
    user ∈ p.phase.refused ∨ ∃ call covered, RowEvent.gaveUp i user call covered ∈ s.journal
  marks : ∀ user call, RowEvent.gaveUp i user call false ∈ s.journal →
    p.mark = some call ∨ s.server.skips[call]? = some Skip.marked
  done : p.phase = .done → p.ready s = true

/-- What a run keeps. -/
structure Rows.Inv (s : Rows D R M) : Prop where
  fences : s.fences.Keeps (fencedEvents s.journal)
  forgotten : s.fences.forgottenThrough ≤ s.server.hub.sequence
  fenced : ∀ key seq commit, RowEvent.fenced key seq commit ∈ s.journal →
    seq ≤ s.server.hub.sequence ∧ commit ≤ s.commits.length
  fresh : ∀ user room seq commits, RowEvent.upserted user room seq commits ∈ s.journal →
    seq ≤ s.server.hub.sequence ∧ Rows.Carries b origin s user room seq commits ∧
      ∀ seq' commit, RowEvent.fenced (unreadFence user room) seq' commit ∈ s.journal → seq' < seq →
        commit ≤ commits
  skipped : ∀ i user call covered, RowEvent.gaveUp i user call covered ∈ s.journal →
    Event.skipped user call ∈ s.server.journal
  known : ∀ i k user, RowEvent.refused i k user ∈ s.journal → i < s.passes.length
  knownUp : ∀ i user call covered, RowEvent.gaveUp i user call covered ∈ s.journal →
    i < s.passes.length
  knows : ∀ (i : Nat) (p : Pass D R M), s.passes[i]? = some p → p.Knows b origin s
  owes : ∀ (i : Nat) (p : Pass D R M), s.passes[i]? = some p → p.Owes s i

/-- What a step of the surroundings does to what a pass knows: a commit or an event under a fence is
    later than all it has seen. -/
structure Rows.Later (s s' : Rows D R M) (es : List RowEvent) : Prop where
  server : s.server.Follows s'.server
  commits : ∃ new, s'.commits = s.commits ++ new
  journal : s'.journal = s.journal ++ es
  fenced : ∀ key seq commit, RowEvent.fenced key seq commit ∈ es → s.server.hub.sequence < seq

variable {b origin} {s s' : Rows D R M} {es : List RowEvent} {i : Nat} {p : Pass D R M}

theorem stateAt_append {commits new : List D} {n : Nat} (h : n ≤ commits.length) :
    stateAt origin (commits ++ new) n = stateAt origin commits n := by
  unfold stateAt
  rw [← List.cons_append, List.getElem?_append_left (Nat.lt_succ_of_le h)]

theorem Rows.Carries.later {user room : Int} {seq commits : Nat}
    (h : Rows.Carries b origin s user room seq commits) (hl : s.Later s' es) :
    Rows.Carries b origin s' user room seq commits := by
  obtain ⟨new, hnew⟩ := hl.commits
  obtain ⟨hle, now, refreshRoom, r, m, row, hr, hm, hu, hrow, hlog⟩ := h
  have hstate : stateAt origin s'.commits commits = stateAt origin s.commits commits := by
    rw [hnew, stateAt_append hle]
  refine ⟨?_, now, refreshRoom, r, m, row, ?_⟩
  · rw [hnew, List.length_append]
    omega
  · rw [hstate]
    exact ⟨hr, hm, hu, hrow, hl.server.hub.subset hlog⟩

theorem Rows.Later.keep (hl : s.Later s' es) {e : RowEvent} (he : e ∈ s.journal) : e ∈ s'.journal := by
  rw [hl.journal]
  exact List.mem_append_left _ he

theorem Rows.Later.cases (hl : s.Later s' es) {e : RowEvent} (he : e ∈ s'.journal) :
    e ∈ s.journal ∨ e ∈ es := by
  rw [hl.journal] at he
  exact List.mem_append.mp he

/-- **What a pass knows stays true** whatever its surroundings do. -/
theorem Pass.Knows.later (hk : p.Knows b origin s) (hl : s.Later s' es) : p.Knows b origin s' := by
  obtain ⟨new, hnew⟩ := hl.commits
  refine ⟨fun q hq => Nat.le_trans (hk.since q hq) hl.server.hub.sequence, fun r hr => ?_, hk.room,
    hk.rendering, hk.members, fun r hr key seq commit he hle => ?_⟩
  · obtain ⟨hle, hstate⟩ := hk.commits r hr
    rw [hnew, List.length_append, stateAt_append hle]
    exact ⟨by omega, hstate⟩
  · rcases hl.cases he with he | he
    · exact hk.includes r hr key seq commit he hle
    · have hpast := hl.fenced key seq commit he
      have := hk.since r.since (PassPhase.since_of_reading hr)
      omega

/-- The marker a pass was to push is pushed before it goes on. -/
theorem Pass.marked_of_ready {call : Nat} (hr : p.ready s = true) (hm : p.mark = some call) :
    s.server.skips[call]? = some Skip.marked := by
  unfold Pass.ready at hr
  rw [hm] at hr
  exact of_decide_eq_true hr

theorem Pass.ready_later (hr : p.ready s = true) (hl : s.Later s' es) : p.ready s' = true := by
  unfold Pass.ready at hr ⊢
  cases hm : p.mark with
  | none => rfl
  | some call =>
    rw [hm] at hr
    exact decide_eq_true (hl.server.marked call (of_decide_eq_true hr))

theorem Pass.Owes.later (ho : p.Owes s i) (hl : s.Later s' es)
    (hr : ∀ k user, RowEvent.refused i k user ∉ es)
    (hg : ∀ user call covered, RowEvent.gaveUp i user call covered ∉ es) : p.Owes s' i := by
  refine ⟨fun k user he => ho.tried k user ((hl.cases he).resolve_right (hr k user)), fun user he => ?_,
    fun user call he => ?_, fun hd => p.ready_later (ho.done hd) hl⟩
  · exact (ho.held user ((hl.cases he).resolve_right (hr _ user))).imp_right
      fun ⟨call, covered, h⟩ => ⟨call, covered, hl.keep h⟩
  · exact (ho.marks user call ((hl.cases he).resolve_right (hg user call false))).imp_right
      (hl.server.marked call)

/-- A pass that goes on within its reading, or leaves it, knows what it knew. -/
theorem Pass.Knows.moves {p' : Pass D R M} (hk : p.Knows b origin s) (hroom : p'.room = p.room)
    (hs : ∀ q, p'.phase.since = some q → q ≤ s.server.hub.sequence)
    (hr : ∀ r, p'.phase.reading = some r → p.phase.reading = some r)
    (hrender : ∀ r room m todo refused, p'.phase = .rendering r room m todo refused → r.room = some room)
    (hm : ∀ m ∈ p'.phase.members, m ∈ p.phase.members) : p'.Knows b origin s :=
  ⟨hs, fun r h => hk.commits r (hr r h), fun r room h => hroom ▸ hk.room r room (hr r h), hrender,
    fun r h m hmem => hroom ▸ hk.members r (hr r h) m (hm m hmem), fun r h => hk.includes r (hr r h)⟩

/-- A pass outside a reading knows nothing. -/
theorem Pass.Knows.of_none {p' : Pass D R M} (hs : ∀ q, p'.phase.since = some q → q ≤ s.server.hub.sequence)
    (hr : p'.phase.reading = none) : p'.Knows b origin s := by
  have hno : ∀ r, p'.phase.reading ≠ some r := fun r h => by rw [hr] at h; cases h
  refine ⟨hs, fun r h => absurd h (hno r), fun r _ h => absurd h (hno r), fun r room m todo refused h => ?_,
    fun r h => absurd h (hno r), fun r h => absurd h (hno r)⟩
  rw [h] at hr
  cases hr

/-- A pass that goes on owes its viewers what it owed, unless it tries again. -/
theorem Pass.Owes.moves {p' : Pass D R M} (ho : p.Owes s i) (hready : p.ready s = true)
    (ht : p.phase.tries ≤ p'.phase.tries)
    (hf : p.phase.tries < maxTries ∨ ∀ user ∈ p.phase.refused, user ∈ p'.phase.refused)
    (hd : p'.phase = .done → p'.ready s = true) : p'.Owes s i := by
  refine ⟨fun k user he => Nat.lt_of_lt_of_le (ho.tried k user he) ht, fun user he => ?_,
    fun user call he => .inr ?_, hd⟩
  · rcases hf with hlt | hsub
    · have := ho.tried _ user he
      omega
    · exact (ho.held user he).imp_left (hsub user)
  · exact (ho.marks user call he).elim (p.marked_of_ready hready) id

theorem mem_fencedEvents {journal : List RowEvent} {q : String × Nat} :
    q ∈ fencedEvents journal ↔ ∃ commit, RowEvent.fenced q.1 q.2 commit ∈ journal := by
  unfold fencedEvents
  rw [List.mem_filterMap]
  constructor
  · rintro ⟨e, he, heq⟩
    cases e with
    | fenced key seq commit => cases heq; exact ⟨commit, he⟩
    | _ => cases heq
  · rintro ⟨commit, he⟩
    exact ⟨_, he, rfl⟩

theorem fencedEvents_append (J J' : List RowEvent) :
    fencedEvents (J ++ J') = fencedEvents J ++ fencedEvents J' := List.filterMap_append ..

/-- What the journal holds stays true as it grows, where it is true of what is added. -/
theorem Rows.Inv.later (hi : s.Inv b origin) (hl : s.Later s' es)
    (hfences : s'.fences.Keeps (fencedEvents s'.journal))
    (hforgotten : s'.fences.forgottenThrough ≤ s'.server.hub.sequence)
    (hfenced : ∀ key seq commit, RowEvent.fenced key seq commit ∈ es →
      seq ≤ s'.server.hub.sequence ∧ commit ≤ s'.commits.length)
    (hfresh : ∀ user room seq commits, RowEvent.upserted user room seq commits ∈ es →
      seq ≤ s'.server.hub.sequence ∧ Rows.Carries b origin s' user room seq commits ∧
        ∀ seq' commit, RowEvent.fenced (unreadFence user room) seq' commit ∈ s'.journal → seq' < seq →
          commit ≤ commits)
    (hskipped : ∀ i user call covered, RowEvent.gaveUp i user call covered ∈ es →
      Event.skipped user call ∈ s'.server.journal)
    (hlen : s.passes.length ≤ s'.passes.length)
    (hknown : ∀ i, (∃ k user, RowEvent.refused i k user ∈ es) ∨
      (∃ user call covered, RowEvent.gaveUp i user call covered ∈ es) → i < s'.passes.length)
    (hknows : ∀ (i : Nat) (p : Pass D R M), s'.passes[i]? = some p → p.Knows b origin s')
    (howes : ∀ (i : Nat) (p : Pass D R M), s'.passes[i]? = some p → p.Owes s' i) : s'.Inv b origin := by
  obtain ⟨new, hnew⟩ := hl.commits
  refine ⟨hfences, hforgotten, fun key seq commit he => ?_, fun user room seq commits he => ?_,
    fun i user call covered he => ?_, fun i k user he => ?_, fun i user call covered he => ?_, hknows,
    howes⟩
  · rcases hl.cases he with he | he
    · obtain ⟨hseq, hcommit⟩ := hi.fenced key seq commit he
      rw [hnew, List.length_append]
      exact ⟨Nat.le_trans hseq hl.server.hub.sequence, by omega⟩
    · exact hfenced key seq commit he
  · rcases hl.cases he with he | he
    · obtain ⟨hseq, hcarries, hall⟩ := hi.fresh user room seq commits he
      refine ⟨Nat.le_trans hseq hl.server.hub.sequence, hcarries.later hl, fun seq' commit he' hlt => ?_⟩
      rcases hl.cases he' with he' | he'
      · exact hall seq' commit he' hlt
      · -- an event under a fence comes after every row there is
        have := hl.fenced _ _ _ he'
        omega
    · exact hfresh user room seq commits he
  · rcases hl.cases he with he | he
    · exact hl.server.journal _ (hi.skipped i user call covered he)
    · exact hskipped i user call covered he
  · rcases hl.cases he with he | he
    · exact Nat.lt_of_lt_of_le (hi.known i k user he) hlen
    · exact hknown i (.inl ⟨k, user, he⟩)
  · rcases hl.cases he with he | he
    · exact Nat.lt_of_lt_of_le (hi.knownUp i user call covered he) hlen
    · exact hknown i (.inr ⟨user, call, covered, he⟩)

/-! ## 4. What a step keeps -/

section Step

variable {eng : Engine} {cap : Nat} {o : PassOutcome D R M}

/-- A step of a pass is at most one of the server's. -/
theorem Pass.Step.server (hs : Pass.Step b eng cap origin s i p o) :
    o.server = s.server ∨ ∃ a, s.server.step eng cap a = some o.server := by
  cases hs with
  | sends now q => exact .inr ⟨.publish now q, rfl⟩
  | upserts now r room m todo refused row => exact .inr ⟨.publish now (p.upsert b row m), rfl⟩
  | unseen user server mark r todo refused hr hf hm hs => exact .inr ⟨.skipFor user, hs⟩
  | givesUp user users server mark call covered hp hs => exact .inr ⟨.skipFor user, hs⟩
  | _ => exact .inl rfl

theorem Pass.Step.fenced (hs : Pass.Step b eng cap origin s i p o) (key : String) (seq commit : Nat) :
    RowEvent.fenced key seq commit ∉ o.events := by
  cases hs <;> simp

theorem Pass.Step.later (hs : Pass.Step b eng cap origin s i p o) : s.Later (s.after i o) o.events := by
  refine ⟨?_, ⟨[], (List.append_nil _).symm⟩, rfl, fun key seq commit he => (hs.fenced key seq commit he).elim⟩
  rcases hs.server with h | ⟨a, ha⟩
  · show s.server.Follows o.server
    rw [h]
    exact .refl _
  · exact Server.step_follows ha

/-- **A step of a pass keeps what it knows.** -/
theorem Pass.Step.knows (hs : Pass.Step b eng cap origin s i p o) (hi : s.Inv b origin)
    (hk : p.Knows b origin s) : o.pass.Knows b origin (s.after i o) := by
  have hk' : p.Knows b origin (s.after i o) := hk.later hs.later
  -- a step back to the rows of its reading
  have hrows : ∀ r todo refused mark, p.phase.reading = some r →
      (∀ m ∈ todo.filterMap Prod.snd, m ∈ p.phase.members) →
      Pass.Knows b origin (s.after i o) { p with phase := .rows r todo refused, mark := mark } := by
    intro r todo refused mark hr hm
    refine hk'.moves rfl (fun q hq => ?_) (fun r' hr' => ?_) nofun hm
    · cases hq
      exact hk'.since r.since (PassPhase.since_of_reading hr)
    · cases hr'
      exact hr
  cases hs with
  | asks | ends | retries | exhausts | givesUp => exact .of_none nofun rfl
  | heads k viewers hp =>
    refine .of_none (fun q hq => ?_) rfl
    cases hq
    exact Nat.le_refl _
  | reads k viewers since room todo hp hroom htodo =>
    refine ⟨fun q hq => ?_, fun r hr => ?_, fun r room' hr hr' => ?_, nofun, fun r hr m hm => ?_,
      fun r hr key seq commit he _ => ?_⟩
    · cases hq
      exact hk'.since since (by rw [hp]; rfl)
    · cases hr
      exact ⟨Nat.le_refl _, rfl⟩
    · cases hr
      exact hroom room' hr'
    · cases hr
      exact htodo m hm
    · cases hr
      have he' : RowEvent.fenced key seq commit ∈ s.journal := by
        rcases List.mem_append.mp he with he | he
        · exact he
        · cases he
      exact (hi.fenced key seq commit he').2
  | sends now q r todo refused hr hf hm => exact hrows r todo refused p.mark hr hm
  | unseen user server mark r todo refused hr hf hm => exact hrows r todo refused mark hr hm
  | renders r user room m todo refused hp hroom =>
    refine hk'.moves rfl (fun q hq => ?_) (fun r' hr' => ?_) (fun r' room' m' todo' refused' h => ?_)
      (fun m' hm' => ?_)
    · cases hq
      exact hk'.since r.since (by rw [hp]; rfl)
    · cases hr'
      rw [hp]
      rfl
    · cases h
      exact hroom
    · rw [hp]
      exact hm'
  | unrendered r room m todo refused hp | upserts now r room m todo refused row hp
  | refuses r room m todo refused hp =>
    refine hrows r todo _ p.mark (by rw [hp]; rfl) fun m' hm' => ?_
    rw [hp]
    exact List.mem_cons_of_mem _ hm'

/-- **A step of a pass keeps what it owes.** -/
theorem Pass.Step.owes (hs : Pass.Step b eng cap origin s i p o) (hready : p.ready s = true)
    (ho : p.Owes s i) : o.pass.Owes (s.after i o) i := by
  have hl : s.Later (s.after i o) o.events := hs.later
  have hready' : p.ready (s.after i o) = true := p.ready_later hready hl
  have hkept : o.events = [] → p.Owes (s.after i o) i := fun he =>
    ho.later hl (fun _ _ h => by rw [he] at h; cases h) (fun _ _ _ h => by rw [he] at h; cases h)
  have hrows : ∀ r todo refused mark, o.events = [] → p.phase.reading = some r →
      p.phase.refused = refused →
      Pass.Owes (s.after i o) i { p with phase := .rows r todo refused, mark := mark } := by
    intro r todo refused mark he hr hf
    refine (hkept he).moves hready' (Nat.le_of_eq (PassPhase.tries_of_reading hr)) (.inr fun user hu => ?_)
      nofun
    exact hf ▸ hu
  cases hs with
  | asks viewers hp =>
    exact (hkept rfl).moves hready' (by rw [hp]; exact Nat.zero_le _) (.inr (by rw [hp]; exact nofun)) nofun
  | ends hr =>
    exact (hkept rfl).moves hready' (PassPhase.tries_le _) (.inr (by rw [hr]; exact nofun))
      fun _ => hready'
  | heads k viewers hp =>
    exact (hkept rfl).moves hready' (by rw [hp]; exact Nat.le_refl _) (.inr (by rw [hp]; exact nofun)) nofun
  | reads k viewers since room todo hp =>
    exact (hkept rfl).moves hready' (by rw [hp]; exact Nat.le_succ _) (.inr (by rw [hp]; exact nofun)) nofun
  | sends now q r todo refused hr hf => exact hrows r todo refused p.mark rfl hr hf
  | unseen user server mark r todo refused hr hf => exact hrows r todo refused mark rfl hr hf
  | renders r user room m todo refused hp =>
    refine (hkept rfl).moves hready' (by rw [hp]; exact Nat.le_refl _) (.inr fun u hu => ?_) nofun
    rw [hp] at hu
    exact hu
  | unrendered r room m todo refused hp =>
    exact hrows r todo refused p.mark rfl (by rw [hp]; rfl) (by rw [hp]; rfl)
  | upserts now r room m todo refused row hp =>
    have hkept' := ho.later hl (by simp) (by simp)
    refine hkept'.moves hready' (by rw [hp]; exact Nat.le_refl _) (.inr fun u hu => ?_) nofun
    rw [hp] at hu
    exact hu
  | refuses r room m todo refused hp =>
    have htries : p.phase.tries = r.try_ + 1 := by rw [hp]; rfl
    refine ⟨fun k user he => ?_, fun user he => ?_, fun user call he => ?_, nofun⟩
    · rcases List.mem_append.mp he with he | he
      · have hlt : k < p.phase.tries := ho.tried k user he
        rwa [htries] at hlt
      · cases List.mem_singleton.mp he
        exact Nat.lt_succ_self _
    · rcases List.mem_append.mp he with he | he
      · refine (ho.held user he).imp (fun hu => ?_) fun ⟨call, covered, h⟩ =>
          ⟨call, covered, List.mem_append_left _ h⟩
        rw [hp] at hu
        exact List.mem_append_left _ hu
      · refine .inl ?_
        have hmem := List.mem_singleton.mp he
        injection hmem with _ _ huser
        rw [huser]
        exact List.mem_append_right _ (List.mem_singleton.mpr rfl)
    · rcases List.mem_append.mp he with he | he
      · exact ho.marks user call he
      · cases List.mem_singleton.mp he
  | retries r refused hp h =>
    refine (hkept rfl).moves hready' (by rw [hp]; exact Nat.le_refl _) (.inl ?_) nofun
    rw [hp]
    exact h
  | exhausts r refused hp =>
    refine (hkept rfl).moves hready' (PassPhase.tries_le _) (.inr fun u hu => ?_) nofun
    rw [hp] at hu
    exact hu
  | givesUp user users server mark call covered hp hs hc hm =>
    refine ⟨fun k u he => ?_, fun u he => ?_, fun u c he => ?_, nofun⟩
    · rcases List.mem_append.mp he with he | he
      · exact Nat.lt_of_lt_of_le (ho.tried k u he) (PassPhase.tries_le _)
      · cases List.mem_singleton.mp he
    · rcases List.mem_append.mp he with he | he
      · rcases ho.held u he with hu | ⟨call', covered', h⟩
        · rw [hp] at hu
          rcases List.mem_cons.mp hu with rfl | hu
          · exact .inr ⟨call, covered, List.mem_append_right _ (List.mem_singleton.mpr rfl)⟩
          · exact .inl hu
        · exact .inr ⟨call', covered', List.mem_append_left _ h⟩
      · cases List.mem_singleton.mp he
    · rcases List.mem_append.mp he with he | he
      · -- the pass goes on only once its last marker is pushed
        refine .inr (hl.server.marked c ?_)
        exact (ho.marks u c he).elim (p.marked_of_ready hready) id
      · cases List.mem_singleton.mp he
        exact .inl (hm rfl)

/-- The passes after a step of pass `i`. -/
theorem Rows.passes_after {j : Nat} {q : Pass D R M} (hq : (s.after i o).passes[j]? = some q) :
    j ≠ i ∧ s.passes[j]? = some q ∨ j = i ∧ q = o.pass := by
  have hq' : (s.passes.set i o.pass)[j]? = some q := hq
  rw [List.getElem?_set] at hq'
  split at hq'
  · next hij =>
    split at hq'
    · exact .inr ⟨hij.symm, (Option.some.inj hq').symm⟩
    · cases hq'
  · next hij => exact .inl ⟨fun h => hij h.symm, hq'⟩

/-- A step of pass `i` records nothing of another. -/
theorem Pass.Step.mine (hs : Pass.Step b eng cap origin s i p o) {j : Nat} (hij : j ≠ i) :
    (∀ k user, RowEvent.refused j k user ∉ o.events) ∧
      ∀ user call covered, RowEvent.gaveUp j user call covered ∉ o.events := by
  cases hs <;> simp [hij]

/-- **The row goes out only where its snapshot includes every change published.** -/
theorem Pass.Step.fresh (hs : Pass.Step b eng cap origin s i p o) (hi : s.Inv b origin)
    (hk : p.Knows b origin s) (user room : Int) (seq commits : Nat)
    (he : RowEvent.upserted user room seq commits ∈ o.events) :
    seq ≤ o.server.hub.sequence ∧ Rows.Carries b origin (s.after i o) user room seq commits ∧
      ∀ seq' commit, RowEvent.fenced (unreadFence user room) seq' commit ∈ (s.after i o).journal →
        seq' < seq → commit ≤ commits := by
  cases hs with
  | upserts now r room' m todo refused row hp hrow hc =>
    cases List.mem_singleton.mp he
    have hr : p.phase.reading = some r := by rw [hp]; rfl
    obtain ⟨hle, hstate⟩ := hk.commits r hr
    have hroom : b.findById r.state p.room = some room' :=
      hk.room r room' hr (hk.rendering r room' m todo refused hp)
    have hm : m ∈ b.forRoom r.state p.room := hk.members r hr m (by rw [hp]; exact List.mem_cons_self ..)
    have hid : b.roomId room' = p.room := b.find_id hroom
    refine ⟨Nat.le_refl _, ⟨hle, now, p.refreshRoom, room', m, row, ?_⟩, fun seq' commit he' _ => ?_⟩
    · have hfind : b.findById (stateAt origin s.commits r.commits) (b.roomId room') = some room' := by
        rw [← hstate, hid]
        exact hroom
      have hmem : m ∈ b.forRoom (stateAt origin s.commits r.commits) (b.roomId room') := by
        rw [← hstate, hid]
        exact hm
      have hrendered : b.sidebarRow (stateAt origin s.commits r.commits) room' m = some row := hstate ▸ hrow
      exact ⟨hfind, hmem, rfl, hrendered, List.mem_append_right _ (List.mem_singleton.mpr rfl)⟩
    · rcases List.mem_append.mp he' with he' | he'
      · have hseq : seq' ≤ r.since :=
          hi.fences.le_of_not_crossed hc (mem_fencedEvents.mpr ⟨commit, he'⟩)
        exact hk.includes r hr _ seq' commit he' hseq
      · cases List.mem_singleton.mp he'
  | refuses | givesUp => cases List.mem_singleton.mp he
  | _ => cases he

theorem Rows.Inv.pass (hi : s.Inv b origin) (hp : s.passes[i]? = some p) (hready : p.ready s = true)
    (hs : Pass.Step b eng cap origin s i p o) : (s.after i o).Inv b origin := by
  have hl : s.Later (s.after i o) o.events := hs.later
  have hlt : i < s.passes.length := (List.getElem?_eq_some_iff.mp hp).1
  have hlen : (s.after i o).passes.length = s.passes.length := List.length_set ..
  have hevents : fencedEvents (s.after i o).journal = fencedEvents s.journal := by
    show fencedEvents (s.journal ++ o.events) = _
    rw [fencedEvents_append]
    have hnil : fencedEvents o.events = [] := by cases hs <;> rfl
    rw [hnil, List.append_nil]
  refine hi.later hl (hevents ▸ hi.fences) (Nat.le_trans hi.forgotten hl.server.hub.sequence)
    (fun key seq commit he => (hs.fenced key seq commit he).elim) (hs.fresh hi (hi.knows i p hp))
    (fun j user call covered he => ?_) (Nat.le_of_eq hlen.symm) (fun j hj => ?_) (fun j q hq => ?_)
    fun j q hq => ?_
  · cases hs with
    | givesUp user' users server mark call' covered' hp hs hc =>
      cases List.mem_singleton.mp he
      exact hc
    | upserts | refuses => cases List.mem_singleton.mp he
    | _ => cases he
  · by_cases hij : j = i
    · rw [hij, hlen]
      exact hlt
    · rcases hj with ⟨k, user, he⟩ | ⟨user, call, covered, he⟩
      · exact absurd he ((hs.mine hij).1 k user)
      · exact absurd he ((hs.mine hij).2 user call covered)
  · rcases Rows.passes_after hq with ⟨_, hold⟩ | ⟨_, rfl⟩
    · exact (hi.knows j q hold).later hl
    · exact hs.knows hi (hi.knows i p hp)
  · rcases Rows.passes_after hq with ⟨hij, hold⟩ | ⟨rfl, rfl⟩
    · exact (hi.owes j q hold).later hl (hs.mine hij).1 (hs.mine hij).2
    · exact hs.owes hready (hi.owes j p hp)

/-- A step that records nothing and adds no pass keeps the invariant. -/
theorem Rows.Inv.quiet (hi : s.Inv b origin) (hl : s.Later s' []) (hf : s'.fences = s.fences)
    (hp : s'.passes = s.passes) : s'.Inv b origin := by
  have hjournal : s'.journal = s.journal := by rw [hl.journal, List.append_nil]
  refine hi.later hl (by rw [hf, hjournal]; exact hi.fences)
    (by rw [hf]; exact Nat.le_trans hi.forgotten hl.server.hub.sequence) nofun nofun nofun
    (Nat.le_of_eq (by rw [hp])) (fun j hj => ?_) (fun j q hq => ?_) fun j q hq => ?_
  · rcases hj with ⟨_, _, he⟩ | ⟨_, _, _, he⟩ <;> cases he
  · exact (hi.knows j q (hp ▸ hq)).later hl
  · exact (hi.owes j q (hp ▸ hq)).later hl nofun nofun

/-- An event under a fence is later than all that is on record. -/
theorem Rows.Inv.fence (hi : s.Inv b origin) {now commit : Nat} {q : SyncPublication} {key : String}
    (hc : commit ≤ s.commits.length)
    (hs' : s' = { s with
      server := { s.server with hub := s.server.hub.publish eng.config now q }
      fences := s.fences.record key (s.server.hub.sequence + 1)
      journal := s.journal ++ [.fenced key (s.server.hub.sequence + 1) commit] }) :
    s'.Inv b origin := by
  have hl : s.Later s' [.fenced key (s.server.hub.sequence + 1) commit] := by
    rw [hs']
    refine ⟨?_, ⟨[], (List.append_nil _).symm⟩, rfl, fun key' seq commit' he => ?_⟩
    · have hstep : s.server.step eng 0 (.publish now q) = some _ := rfl
      exact Server.step_follows hstep
    · cases List.mem_singleton.mp he
      exact Nat.lt_succ_self _
  have hlater : ∀ e ∈ fencedEvents s.journal, e.2 < s.server.hub.sequence + 1 := fun e he => by
    obtain ⟨commit', he'⟩ := mem_fencedEvents.mp he
    exact Nat.lt_succ_of_le (hi.fenced _ _ _ he').1
  have hforgotten := Nat.lt_succ_of_le hi.forgotten
  have hpasses : s'.passes = s.passes := by rw [hs']
  refine hi.later hl ?_ ?_ (fun key' seq commit' he => ?_) (fun _ _ _ _ he => ?_)
    (fun _ _ _ _ he => ?_) (Nat.le_of_eq (by rw [hpasses])) (fun j hj => ?_) (fun j q hq => ?_) fun j q hq => ?_
  · rw [hs']
    show (s.fences.record key _).Keeps (fencedEvents (s.journal ++ [_]))
    rw [fencedEvents_append]
    exact hi.fences.record hlater hforgotten
  · rw [hs']
    exact Nat.le_of_lt (Fences.forgottenThrough_record hi.fences hlater hforgotten)
  · cases List.mem_singleton.mp he
    rw [hs']
    exact ⟨Nat.le_refl _, hc⟩
  · cases List.mem_singleton.mp he
  · cases List.mem_singleton.mp he
  · rcases hj with ⟨_, _, he⟩ | ⟨_, _, _, he⟩ <;> cases List.mem_singleton.mp he
  · exact (hi.knows j q (hpasses ▸ hq)).later hl
  · refine (hi.owes j q (hpasses ▸ hq)).later hl (fun _ _ he => ?_) fun _ _ _ he => ?_
    · cases List.mem_singleton.mp he
    · cases List.mem_singleton.mp he

end Step

/-! ## 5. Runs -/

section Runs

variable {eng : Engine} {cap : Nat}

/-- A step of the passes' surroundings or of a pass is at most one of the server's. -/
theorem Rows.step_server {a : RowAct D} (hs : s.step b eng cap origin a = some s') :
    s'.server = s.server ∨ ∃ a, s.server.step eng cap a = some s'.server := by
  cases a with
  | server a =>
    obtain ⟨v, hv, rfl⟩ := Option.map_eq_some_iff.mp hs
    exact .inr ⟨a, hv⟩
  | commit state => cases hs; exact .inl rfl
  | fence now q key commit =>
    rw [Rows.step] at hs
    split at hs
    · cases hs; exact .inr ⟨.publish now q, rfl⟩
    · cases hs
  | publish => cases hs; exact .inl rfl
  | pass i a =>
    rw [Rows.step] at hs
    split at hs
    · split at hs
      · split at hs
        · next o ho => cases hs; exact (Pass.step_cases ho).server
        · cases hs
      · cases hs
    · cases hs

/-- **The server's part of a run is one of the server's runs.** -/
theorem server_of_rows (h : Reach (rowsSystem b eng cap origin) s) :
    Reach (serverSystem eng cap) s.server := by
  refine h.induct (T := rowsSystem b eng cap origin) (I := fun s => Reach (serverSystem eng cap) s.server)
    (fun s h0 => ?_) fun s a s' _ hi _ hs => ?_
  · rw [show s = .empty from h0]
    exact .start _ rfl
  · rcases Rows.step_server hs with heq | ⟨a, ha⟩
    · rw [heq]
      exact hi
    · exact .step _ _ a hi trivial ha

theorem Rows.inv_empty : (Rows.empty : Rows D R M).Inv b origin := by
  have hnone : ∀ {e : RowEvent}, e ∉ (Rows.empty : Rows D R M).journal := fun h => List.not_mem_nil h
  refine ⟨Fences.keeps_empty, Nat.le_refl _, fun _ _ _ h => (hnone h).elim, fun _ _ _ _ h => (hnone h).elim,
    fun _ _ _ _ h => (hnone h).elim, fun _ _ _ h => (hnone h).elim, fun _ _ _ _ h => (hnone h).elim,
    fun i p hp => ?_, fun i p hp => ?_⟩
  · cases hp
  · cases hp

theorem Rows.inv_reach (h : Reach (rowsSystem b eng cap origin) s) : s.Inv b origin := by
  refine h.induct (T := rowsSystem b eng cap origin) (I := Rows.Inv b origin)
    (fun s h0 => (show s = .empty from h0) ▸ Rows.inv_empty) fun s a s' _ hi _ hs => ?_
  cases a with
  | server a =>
    obtain ⟨v, hv, rfl⟩ := Option.map_eq_some_iff.mp hs
    exact hi.quiet ⟨Server.step_follows hv, ⟨[], (List.append_nil _).symm⟩, (List.append_nil _).symm, nofun⟩
      rfl rfl
  | commit state =>
    cases hs
    exact hi.quiet ⟨.refl _, ⟨[state], rfl⟩, (List.append_nil _).symm, nofun⟩ rfl rfl
  | fence now q key commit =>
    have hs' : Rows.step b eng cap origin s (.fence now q key commit) = some s' := hs
    rw [Rows.step] at hs'
    split at hs'
    · next hc => cases hs'; exact hi.fence hc rfl
    · cases hs'
  | publish room viewers refreshRoom renderer =>
    cases hs
    have hl : s.Later { s with passes := s.passes ++ [⟨room, refreshRoom, renderer, .asking viewers, none⟩] } [] :=
      ⟨.refl _, ⟨[], (List.append_nil _).symm⟩, (List.append_nil _).symm, nofun⟩
    have hcases : ∀ (j : Nat) (q : Pass D R M),
        (s.passes ++ [⟨room, refreshRoom, renderer, .asking viewers, none⟩])[j]? = some q →
          s.passes[j]? = some q ∨
            j = s.passes.length ∧ q = ⟨room, refreshRoom, renderer, .asking viewers, none⟩ := by
      intro j q hq
      rw [List.getElem?_append] at hq
      split at hq
      · exact .inl hq
      · next hge =>
        obtain ⟨hlt, hget⟩ := List.getElem?_eq_some_iff.mp hq
        rw [List.length_singleton] at hlt
        have hj : j = s.passes.length := by omega
        subst hj
        simp only [Nat.sub_self, List.getElem_cons_zero] at hget
        exact .inr ⟨rfl, hget.symm⟩
    refine hi.later hl hi.fences hi.forgotten nofun nofun nofun ?_ (fun j hj => ?_) (fun j q hq => ?_)
      fun j q hq => ?_
    · show s.passes.length ≤ (s.passes ++ [_]).length
      rw [List.length_append]
      exact Nat.le_add_right _ _
    · rcases hj with ⟨_, _, he⟩ | ⟨_, _, _, he⟩ <;> cases he
    · rcases hcases j q hq with hold | ⟨_, rfl⟩
      · exact (hi.knows j q hold).later hl
      · exact .of_none nofun rfl
    · rcases hcases j q hq with hold | ⟨rfl, rfl⟩
      · exact (hi.owes j q hold).later hl nofun nofun
      · refine ⟨fun k user he => ?_, fun user he => ?_, fun user call he => ?_, nofun⟩
        · have := hi.known _ k user he
          omega
        · have := hi.known _ _ user he
          omega
        · have := hi.knownUp _ user call false he
          omega
  | pass i a =>
    have hs' : Rows.step b eng cap origin s (.pass i a) = some s' := hs
    rw [Rows.step] at hs'
    split at hs'
    · next p hp =>
      split at hs'
      · next hready =>
        split at hs'
        · next o ho => cases hs'; exact hi.pass hp hready (Pass.step_cases ho)
        · cases hs'
      · cases hs'
    · cases hs'

/-- **No sidebar row undoes a newer change of the viewer's unread state, and no viewer refused in
    every try is dropped**, in every run. -/
theorem rowsFresh_of_reach (h : Reach (rowsSystem b eng cap origin) s) : RowsFresh b origin s := by
  have hi : s.Inv b origin := Rows.inv_reach h
  have hstand : s.server.SkipsStand := Server.skipsStand_reach (server_of_rows h)
  refine ⟨fun user room seq commits he => (hi.fresh user room seq commits he).2, fun i p hp hdone user hall => ?_⟩
  have ho : p.Owes s i := hi.owes i p hp
  rcases ho.held user (hall _ (by decide)) with hin | ⟨call, covered, hup⟩
  · rw [hdone] at hin
    cases hin
  · have hskipped := hi.skipped i user call covered hup
    refine ⟨call, covered, hup, hskipped, hstand.skipped user call hskipped, fun hc => ?_⟩
    subst hc
    have hmarked : s.server.skips[call]? = some Skip.marked :=
      (ho.marks user call hup).elim (p.marked_of_ready (ho.done hdone)) id
    rcases hstand.skipped user call hskipped with hmarking | ⟨_, hlog⟩
    · rw [hmarked] at hmarking
      cases hmarking
    · exact hlog

end Runs

end Inv

/-! ## 6. A run -/

/-- A room 7 with person 1 in it; the state is how often their unread state changed. -/
def testSidebar : Sidebar Nat Int Int Nat where
  findById _ id := some id
  roomId room := room
  deleted _ := false
  forRoom _ _ := [1]
  userId m := m
  sidebarRow d _ _ := some d
  upserted row _ := .ofMembers ("\"type\":\"sidebar.row.upserted\",\"data\":" ++ toString row)
  find_id h := (Option.some.inj h).symm

/-- The person reads the room after the snapshot and before the row: the row is read again. -/
def rereadRun : List (RowAct Nat) :=
  (greetAfresh 0 ++ [ServerAct.commit, ServerAct.observe 0]).map .server ++
    [.publish 7 .members none true, .pass 0 (.wanted 0), .pass 0 .head, .pass 0 (.snapshot .read),
      .commit 1, sendUnreadChange 0 1 7 .empty 1, .pass 0 (.viewer 0), .pass 0 (.render 0 false),
      .pass 0 .next, .pass 0 .head, .pass 0 (.snapshot .read), .pass 0 (.viewer 0),
      .pass 0 (.render 0 false), .pass 0 .next]

theorem rowsFresh_of_reach_sample :
    ∃ s, Reach (rowsSystem testSidebar testEngine 16 0) s ∧
      s.journal = [.fenced "unread:1:7" 1 1, .refused 0 0 1, .upserted 1 7 2 1] ∧
        RowsFresh testSidebar 0 s := by
  obtain ⟨s, hs, hp⟩ := exists_reachWhen_of_replay (T := rowsSystem testSidebar testEngine 16 0)
    (G := fun _ _ => True) (s := Rows.empty) (l := rereadRun)
    (p := fun s => s.journal = [.fenced "unread:1:7" 1 1, .refused 0 0 1, .upserted 1 7 2 1])
    rfl (by decide +kernel)
  exact ⟨s, hs, of_decide_eq_true hp, rowsFresh_of_reach hs⟩

end Smartfire
