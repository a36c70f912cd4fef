/-
  File:      Smartfire/Cable/Reader.lean
  Subject:   A task as a reader of the log: where its next read begins, what it has yet to write,
             and whether it is about to tell its client to refetch.

  A set of gap markers of a person, all in the log, draws a line: what lies below every one of
  them. A reader of that person below the line cannot pass it unnoticed, since reading a marker
  loses the stretch and makes the client refetch. These lemmas say so for every kind of step of a
  task; Cable/GapMarkers.lean runs them over the server.

  * `Task.position`, `Task.outstanding`, `Task.tells`, `Below`;
  * `below_catchUp` -- a catch-up that loses nothing ends below the line if it began there;
  * `Task.Step.position`, `Task.Step.outstanding`, `Task.Step.tells`, `Task.Step.wrote_below` --
    what a step does to the three.
-/
import Smartfire.Cable.Task

namespace Smartfire

open Lib

/-! ## 1. The reader -/

/-- Where the task's next read of the ring begins; nothing where a `refetched` comes before it, or
    where the task reads no more. -/
def Task.position (eng : Engine) (t : Task) : Option Nat :=
  match t.phase with
  | .greeted (some (e, p)) _ => if e = eng.epoch ∧ 0 ≤ p then some p.toNat else none
  | .resumed | .welcoming _ | .turn | .following _ | .selected _ _ _ | .cutting _ _
  | .settling _ none | .writing _ false => some t.conn.cursor
  | _ => none

/-- What the task may yet give its client as an event or as the point it resumes at. -/
def Task.outstanding (t : Task) : List Nat :=
  t.conn.pending.map Entry.seq ++
    match t.phase with
    | .welcoming (some p) => [p]
    | .writing frames _ => frames.flatMap Frame.cursors
    | _ => []

/-- Whether the task is on its way to a frame that makes its client refetch. -/
def Task.tells (t : Task) : Bool :=
  match t.phase with
  | .replayLost | .starting | .welcoming none | .catchLost _ | .selected _ (some _) _
  | .settling (some _) _ => true
  | .writing frames _ => frames.any Frame.refetches
  | _ => false

/-- Below every marker of the set `M` of sequences. -/
def Below (M : Nat → Prop) (x : Nat) : Prop := ∀ m, M m → x < m

/-- Every marker of `M` is in the log, as one of `user`. -/
def Marked (user : Int) (log : List Entry) (M : Nat → Prop) : Prop :=
  ∀ m, M m → ∃ g ∈ log, g.seq = m ∧ Connection.isGap user g = true

/-- How far a frame takes its client: the events of a batch; for a `welcome` that resumes, the
    point and where its replay ends. -/
def Frame.reach : Frame → List Nat
  | .welcome _ seq true through _ => [seq, through]
  | .batch events => events.map Wire.seq
  | _ => []

section CatchUp

variable {cfg : SyncConfig} {now : Nat} {before : Option Nat} {replay : Bool} {h : Hub}
  {c conn : Connection} {M : Nat → Prop}

/-- **A catch-up that loses nothing stays below the line**: it read no marker, so every marker lies
    at or past its bound. -/
theorem below_catchUp (hM : Marked c.userId h.log M) (hc : Below M c.cursor)
    (hcatch : Connection.CatchUp cfg now before replay h c (none, conn)) :
    Below M conn.cursor ∧ ∀ e ∈ conn.pending, e ∈ c.pending ∨ Below M e.seq := by
  cases hcatch with
  | events hle hgap =>
    have hpast : ∀ m, M m → ∃ b, before = some b ∧ b ≤ m := by
      intro m hm
      obtain ⟨g, hg, rfl, hgu⟩ := hM m hm
      by_contra hno
      have hin : g ∈ Connection.cutAt before (past Entry.seq c.cursor h.log) := by
        refine Connection.mem_cutAt.mpr ⟨mem_past.mpr ⟨hg, hc _ hm⟩, fun b hb => ?_⟩
        exact Nat.lt_of_not_le fun hle => hno ⟨b, hb, hle⟩
      rw [hgap g hin] at hgu
      cases hgu
    refine ⟨fun m hm => ?_, fun e he => ?_⟩
    · obtain ⟨b, rfl, hb⟩ := hpast m hm
      have := hc m hm
      rw [Connection.addAll_cursor]
      show max (min h.ring.head (b - 1)) c.cursor < m
      omega
    · rw [Connection.addAll_pending] at he
      rcases List.mem_append.mp he with he | he
      · exact .inl he
      · refine .inr fun m hm => ?_
        obtain ⟨b, hb, hbm⟩ := hpast m hm
        have := (Connection.mem_cutAt.mp (Connection.mem_admitted he).1).2 b hb
        omega

end CatchUp

/-! ## 2. What a step does -/

namespace Task

variable {eng : Engine} {cap : Nat} {h : Hub} {t : Task} {a : TaskAct}
    {o : Outcome} {M : Nat → Prop}

/-- **A step moves the reader below the line only**, unless the reader is being told to refetch. -/
theorem Step.position (hs : Step eng cap h t a o) (hM : Marked t.conn.userId h.log M)
    (hopen : ∀ p, o.effect ≠ .openPerson p) :
    o.effect = .refetched ∨
      ((∀ x, t.position eng = some x → Below M x) → ∀ x, o.task.position eng = some x → Below M x) := by
  cases hs with
  | hello point topics hp => exact absurd rfl (hopen point)
  | followHello point topic topics rest authorized more conn hp hf =>
    refine .inr fun hpos x hx => hpos x ?_
    rw [Task.position, hp]
    cases point with
    | none => cases hx
    | some q => exact hx
  | followSub topic topics rest authorized more conn hp hf =>
    refine .inr fun hpos x hx => hpos x ?_
    rcases Connection.followOne_eq hf with rfl | ⟨_, rfl⟩ <;> (rw [Task.position, hp]; exact hx)
  | resumes now p hp h0 hhead hev =>
    refine .inr fun hpos x hx => hpos x ?_
    rw [Task.position, hp]
    exact (if_pos ⟨rfl, h0⟩).trans hx
  | replayed now conn hp hc =>
    refine .inr fun hpos x hx => ?_
    cases hx
    exact (below_catchUp hM (hpos _ (by rw [Task.position, hp])) hc).1
  | caughtUp now conn hp hc =>
    refine .inr fun hpos x hx => ?_
    cases hx
    exact (below_catchUp hM (hpos _ (by rw [Task.position, hp])) hc).1
  | refetchReplay | refetchStart | refetchCatch | refetchCut => exact .inl rfl
  | branch bye hp =>
    refine .inr fun hpos x hx => hpos x ?_
    rcases hp with hp | hp <;> (rw [Task.position, hp]; exact hx)
  | unfound seen resync bye internal hp hl =>
    refine .inr fun hpos x hx => ?_
    cases bye with
    | none => exact hpos x (by rw [Task.position, hp]; exact hx)
    | some b => cases hx
  | settles now session resync bye hp =>
    refine .inr fun hpos x hx => ?_
    cases bye with
    | none =>
      refine hpos x ?_
      rw [Task.position, hp]
      have hx' : some (turnFrames eng.config now session resync none t.conn).2.cursor = some x := hx
      rwa [flushed_turnFrames.cursor] at hx'
    | some b => cases hx
  | writes f frames last hp =>
    refine .inr fun hpos x hx => ?_
    cases last with
    | false => exact hpos x (by rw [Task.position, hp]; exact hx)
    | true => cases hx
  | written last hp =>
    refine .inr fun hpos x hx => ?_
    cases last with
    | false => exact hpos x (by rw [Task.position, hp]; exact hx)
    | true => cases hx
  | leaves | starts | replayLost | catchLost | foundGapped | cut | cutLost | dropPerson
  | dropObserver => exact .inr fun _ x hx => nomatch hx
  | welcomes _ hp | lagged _ hp | received _ _ hp | sub _ hp | unsub _ hp | ping hp
  | found _ _ _ _ _ hp =>
    refine .inr fun hpos x hx => hpos x ?_
    rw [Task.position, hp]
    exact hx

/-- A reader that reads on is not about to tell; after a `refetched` it is, or it reads no more. -/
theorem Step.refetched (hs : Step eng cap h t a o) (he : o.effect = .refetched) :
    o.task.tells = true ∨ o.task.position eng = none := by
  cases hs with
  | refetchReplay | refetchStart | refetchCatch => exact .inl rfl
  | refetchCut => exact .inr rfl
  | _ => cases he

/-- **A task about to tell its client to refetch stays so until it does**, or reads no more. -/
theorem Step.tells (hs : Step eng cap h t a o) (ht : t.tells = true) :
    o.task.tells = true ∨ o.task.position eng = none ∨
      ∃ f, o.effect = .wrote f ∧ f.refetches = true := by
  cases hs with
  | leaves | starts | replayLost | refetchReplay | refetchStart | catchLost | refetchCatch
  | foundGapped | refetchCut => first | exact .inl rfl | exact .inr (.inl rfl)
  | welcomes start hp =>
    cases start with
    | none => exact .inr (.inr ⟨_, rfl, rfl⟩)
    | some p => rw [Task.tells, hp] at ht; cases ht
  | branch bye hp => rcases hp with hp | hp <;> (rw [Task.tells, hp] at ht; cases ht)
  | unfound seen resync bye internal hp hl =>
    refine .inl ?_
    rw [Task.tells, hp] at ht
    cases resync with
    | none => cases ht
    | some r => rfl
  | settles now session resync bye hp =>
    refine .inl ?_
    rw [Task.tells, hp] at ht
    cases resync with
    | none => cases ht
    | some r =>
      refine List.any_eq_true.mpr ⟨.resync r, ?_, rfl⟩
      exact List.mem_append_left _ (List.mem_append_left _
        (List.mem_append_right _ (List.mem_singleton_self _)))
  | writes f frames last hp =>
    rw [Task.tells, hp] at ht
    obtain ⟨g, hg, hr⟩ := List.any_eq_true.mp ht
    rcases List.mem_cons.mp hg with rfl | hg
    · exact .inr (.inr ⟨g, rfl, hr⟩)
    · exact .inl (List.any_eq_true.mpr ⟨g, hg, hr⟩)
  | written last hp => rw [Task.tells, hp] at ht; cases ht
  | dropPerson hp | dropObserver hp | hello _ _ hp | followHello _ _ _ _ _ _ _ hp
  | resumes _ _ hp | replayed _ _ hp | lagged _ hp | received _ _ hp | sub _ hp
  | followSub _ _ _ _ _ _ hp | unsub _ hp | ping hp | caughtUp _ _ hp | found _ _ _ _ _ hp
  | cut _ _ _ _ hp | cutLost _ _ _ _ _ hp => rw [Task.tells, hp] at ht; cases ht

theorem mem_outstanding_of_pending {e : Entry} (he : e ∈ t.conn.pending) : e.seq ∈ t.outstanding :=
  List.mem_append_left _ (List.mem_map_of_mem he)

/-- What a phase that writes nothing has outstanding is pending. -/
theorem outstanding_pending {x : Nat} {pending : List Entry}
    (hx : x ∈ pending.map Entry.seq ++ []) : ∃ e ∈ pending, e.seq = x := by
  rw [List.append_nil] at hx
  exact List.mem_map.mp hx

/-- **What a step adds to the outstanding lies below the line**, if the reader that reads on does. -/
theorem Step.outstanding (hs : Step eng cap h t a o) (hM : Marked t.conn.userId h.log M)
    (hout : ∀ x ∈ t.outstanding, Below M x)
    (hpos : t.tells = false → ∀ x, t.position eng = some x → Below M x) :
    ∀ x ∈ o.task.outstanding, Below M x := by
  have hpend : ∀ e ∈ t.conn.pending, Below M e.seq := fun e he =>
    hout _ (mem_outstanding_of_pending he)
  have hsame : ∀ x ∈ t.conn.pending.map Entry.seq ++ [], Below M x := by
    intro x hx
    obtain ⟨e, he, rfl⟩ := outstanding_pending hx
    exact hpend e he
  have hcut : ∀ d, ∀ x ∈ (t.conn.cutOff d).pending.map Entry.seq ++ [], Below M x := by
    intro d x hx
    obtain ⟨e, he, rfl⟩ := outstanding_pending hx
    exact hpend e (List.mem_of_mem_filter he)
  have hlost : ∀ conn : Connection, conn.pending = t.conn.pending →
      ∀ x ∈ conn.pending.map Entry.seq ++ [], Below M x := fun conn hc => hc ▸ hsame
  intro x hx
  cases hs with
  | followHello point topic topics rest authorized more conn hp hf =>
    rcases Connection.followOne_eq hf with rfl | ⟨_, rfl⟩ <;> exact hsame x hx
  | followSub topic topics rest authorized more conn hp hf =>
    rcases Connection.followOne_eq hf with rfl | ⟨_, rfl⟩ <;> exact hsame x hx
  | replayed now conn hp hc =>
    have hcur : Below M t.conn.cursor :=
      hpos (by rw [Task.tells, hp]) _ (by rw [Task.position, hp])
    rcases List.mem_append.mp hx with hx | hx
    · obtain ⟨e, he, rfl⟩ := List.mem_map.mp hx
      rcases (below_catchUp hM hcur hc).2 e he with he | he
      · exact hpend e he
      · exact he
    · rw [List.mem_singleton.mp hx]
      exact hcur
  | replayLost now reason conn hp hc => exact hlost conn hc.lost_pending x hx
  | caughtUp now conn hp hc =>
    have hcur : Below M t.conn.cursor :=
      hpos (by rw [Task.tells, hp]) _ (by rw [Task.position, hp])
    obtain ⟨e, he, rfl⟩ := outstanding_pending hx
    rcases (below_catchUp hM hcur hc).2 e he with he | he
    · exact hpend e he
    · exact he
  | catchLost now reason conn hp hc => exact hlost conn hc.lost_pending x hx
  | foundGapped => exact hcut _ x hx
  | cut now sequence bye conn hp hc =>
    have hcur : Below M t.conn.cursor :=
      hpos (by rw [Task.tells, hp]) _ (by rw [Task.position, hp])
    obtain ⟨e, he, rfl⟩ := outstanding_pending hx
    rcases (below_catchUp hM hcur hc).2 e (List.mem_of_mem_filter he) with he | he
    · exact hpend e he
    · exact he
  | cutLost now sequence bye reason conn hp hc => exact hlost conn hc.lost_pending x hx
  | refetchCut => exact hcut _ x hx
  | settles now session resync bye hp =>
    rcases List.mem_append.mp hx with hx | hx
    · obtain ⟨e, he, rfl⟩ := List.mem_map.mp hx
      have hfl : Flushed t.conn (turnFrames eng.config now session resync bye t.conn).2 :=
        flushed_turnFrames
      rcases hfl.pending with hnil | hself
      · rw [hnil] at he; cases he
      · rw [hself] at he; exact hpend e he
    · obtain ⟨f, hf, hxf⟩ := List.mem_flatMap.mp hx
      obtain ⟨e, he, rfl⟩ := cursors_turnFrames hf hxf
      exact hpend e he
  | writes f frames last hp =>
    refine hout x ?_
    rw [Task.outstanding, hp]
    rcases List.mem_append.mp hx with hx | hx
    · exact List.mem_append_left _ hx
    · exact List.mem_append_right _ (List.mem_append_right _ hx)
  | written last hp => cases last <;> exact hsame x hx
  | _ => exact hsame x hx

/-- **What a step writes tells the client to refetch, or takes it no further than the line.** -/
theorem Step.wrote_below (hs : Step eng cap h t a o) {f : Frame} (hf : o.effect = .wrote f)
    (hturn : ∀ f ∈ t.phase.frames, f.isTurn = true) (hout : ∀ x ∈ t.outstanding, Below M x)
    (hpos : t.tells = false → ∀ x, t.position eng = some x → Below M x) :
    f.refetches = true ∨ ∀ x ∈ f.reach, Below M x := by
  cases hs with
  | welcomes start hp =>
    cases hf
    cases start with
    | none => exact .inl rfl
    | some p =>
      refine .inr fun x hx => ?_
      rcases List.mem_cons.mp hx with rfl | hx
      · exact hout _ (by rw [Task.outstanding, hp]; exact List.mem_append_right _ (List.mem_singleton_self _))
      · rw [List.mem_singleton.mp hx]
        exact hpos (by rw [Task.tells, hp]) _ (by rw [Task.position, hp])
  | ping hp => cases hf; exact .inr fun x hx => nomatch hx
  | writes g frames last hp =>
    cases hf
    have hg : f.isTurn = true := hturn f (by rw [hp]; exact List.mem_cons_self ..)
    refine .inr fun x hx => hout x ?_
    rw [Task.outstanding, hp]
    refine List.mem_append_right _ (List.mem_append_left _ ?_)
    cases f with
    | batch events => exact hx
    | resync r => cases hx
    | bye b => cases hx
    | welcome => cases hg
    | ping => cases hg
  | _ => cases hf

/-- What a step gives is outstanding, or is where the task reads on. -/
theorem mem_gives {x : Nat} (hx : x ∈ t.gives) : x ∈ t.outstanding ∨ t.position eng = some x := by
  unfold gives at hx
  cases hp : t.phase with
  | welcoming start =>
    rw [hp] at hx
    cases start with
    | none => exact .inr (by rw [Task.position, hp, List.mem_singleton.mp hx]; rfl)
    | some p =>
      refine .inl ?_
      rw [Task.outstanding, hp]
      exact List.mem_append_right _ hx
  | writing frames last =>
    rw [hp] at hx
    refine .inl ?_
    rw [Task.outstanding, hp]
    exact List.mem_append_right _ hx
  | _ => rw [hp] at hx; cases hx

end Task

end Smartfire
