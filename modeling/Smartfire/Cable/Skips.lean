/-
  File:      Smartfire/Cable/Skips.lean
  Subject:   Skipped events and resumed clients: what `handed_out` is for.

  While no socket is open, `sync_wanted` answers that an event is not worth building and records a
  gap in the ring, unless nobody can hold a cursor that would resume past it (`gap_needed`). A
  client that resumes must not have missed such an event.

  * `Server.SkipsHonoured` -- the property, over the journal of a run;
  * `skipsHonoured_of_reach` -- it holds in every run in which `skip` meets no open socket whose
    `hello` is answered, as `sync_presence` ensures by holding the presence lock across the two;
  * `skipsHonoured_stale` -- `sync_wanted` does not: between its look at `observers` and its skip
    a socket can open and have its `hello` answered, the skip then clears `handed_out` under it,
    and the next call records no gap for the cursor it was given.
-/
import Smartfire.Cable.Server

namespace Smartfire

open Lib

/-! ## 1. The property -/

/-- **No skipped event is missed by a resumed client**: where a `welcome` resumes at `p`, and `p`
    was given to a client before, no change committed since was left unbuilt. -/
def Server.SkipsHonoured (s : Server) : Prop :=
  ∀ J₁ J₂ J₃ i user epoch p through viewer v call,
    s.journal = J₁ ++ J₂ ++ .wrote i user (.welcome epoch p true through viewer) :: J₃ →
    p ∈ given v J₁ → Event.committed call ∈ J₂ → Event.notBuilt call ∉ J₂

/-- Whether the ring has answered the task's `hello`, and the task may still give cursors. -/
def Phase.answered : Phase → Bool
  | .opened | .greeted _ _ | .closing _ | .closed => false
  | _ => true

/-- A skip of `sync_wanted` runs while no open socket has had its `hello` answered. -/
def SkipsUnanswered (s : Server) : ServerAct → Prop
  | .skip _ => ∀ t ∈ s.sockets, t.phase.answered = false
  | _ => True

instance (s : Server) (a : ServerAct) : Decidable (SkipsUnanswered s a) := by
  cases a <;> unfold SkipsUnanswered <;> infer_instance

/-- A cursor was given, and a change left unbuilt after it. -/
def Missed (J : List Event) (x : Nat) : Prop :=
  ∃ J₁ J₂ v call, J = J₁ ++ J₂ ∧ x ∈ given v J₁ ∧ Event.notBuilt call ∈ J₂

/-! ## 2. The invariant -/

/-- Where the task's client is being told that it resumes. -/
def Task.resumesAt (t : Task) : Option Nat :=
  match t.phase with
  | .resumed => some t.conn.cursor
  | .welcoming (some seq) => some seq
  | _ => none

/-- While a `hello` is answered, `handed_out` stands; where it does not, no cursor given sits at the
    head of what the ring covers. So a change left unbuilt ends every cursor given before it. -/
structure Server.SkipInv (s : Server) : Prop where
  answered : ∀ t ∈ s.sockets, t.phase.answered = true → s.hub.ring.handedOut = true
  behind : s.hub.ring.handedOut = false → ∀ v, ∀ x ∈ given v s.journal,
    s.hub.ring.evictedThrough ≤ x → x < s.hub.ring.head
  missed : ∀ x, Missed s.journal x → x < s.hub.ring.evictedThrough
  resuming : ∀ t ∈ s.sockets, ∀ p, t.resumesAt = some p → ¬ Missed s.journal p
  honoured : s.SkipsHonoured

theorem Task.answered_of_resumesAt {t : Task} {p : Nat} (h : t.resumesAt = some p) :
    t.phase.answered = true := by
  unfold resumesAt at h
  cases hp : t.phase <;> simp_all [Phase.answered]

theorem Task.answered_of_gives {t : Task} {x : Nat} (h : x ∈ t.gives) :
    t.phase.answered = true := by
  unfold gives at h
  cases hp : t.phase with
  | welcoming start => rfl
  | writing frames last => rfl
  | _ => rw [hp] at h; cases h

/-- A task is answered by a resume, which sets `handed_out`. -/
theorem Task.Step.answered {eng : Engine} {cap : Nat} {h : Hub} {t : Task} {a : TaskAct}
    {o : Outcome}
    (hs : Task.Step eng cap h t a o) (ho : o.task.phase.answered = true) :
    t.phase.answered = true ∨ o.hub.ring.handedOut = true := by
  cases hs with
  | resumes => exact .inr rfl
  | starts => exact .inr rfl
  | branch bye hp => rcases hp with hp | hp <;> exact .inl (by rw [hp]; rfl)
  | hello | leaves | followHello | dropPerson | dropObserver => cases ho
  | _ => exact .inl (by simp_all [Phase.answered])

/-- A client is told that it resumes where the ring's window has not passed it. -/
theorem Task.Step.resumesAt {eng : Engine} {cap : Nat} {h : Hub} {t : Task} {a : TaskAct}
    {o : Outcome}
    (hs : Task.Step eng cap h t a o) {p : Nat} (ho : o.task.resumesAt = some p) :
    t.resumesAt = some p ∨ o.hub.ring.evictedThrough ≤ p := by
  cases hs with
  | resumes now q hp h0 hhead hev =>
    cases ho
    exact .inr hev
  | replayed now conn hp hc =>
    cases ho
    exact .inl (by rw [Task.resumesAt, hp])
  | written last hp => cases last <;> cases ho
  | _ => cases ho

/-- What is written as a resuming `welcome` is where the task's client resumes. -/
theorem Task.Step.wrote_welcome {eng : Engine} {cap : Nat} {h : Hub} {t : Task} {a : TaskAct}
    {o : Outcome}
    (hs : Task.Step eng cap h t a o) (hb : ∀ f ∈ t.phase.frames, f.isTurn = true)
    {epoch : String} {p through : Nat} {viewer : Int}
    (ho : o.effect = .wrote (.welcome epoch p true through viewer)) : t.resumesAt = some p := by
  cases hs with
  | welcomes start hp =>
    cases start with
    | none => cases ho
    | some seq =>
      cases ho
      rw [Task.resumesAt, hp]
      rfl
  | writes f frames last hp =>
    cases ho
    have hturn := hb _ (by rw [hp]; exact List.mem_cons_self ..)
    cases hturn
  | _ => cases ho

theorem missed_nil (x : Nat) : ¬ Missed [] x := by
  rintro ⟨J₁, J₂, v, call, h, _, hn⟩
  rw [(List.append_eq_nil_iff.mp h.symm).2] at hn
  cases hn

/-- One more event: a cursor is missed if it was, or if it was given and a change is left unbuilt
    now. -/
theorem missed_snoc {J : List Event} {e : Event} {x : Nat} (h : Missed (J ++ [e]) x) :
    Missed J x ∨ (∃ call, e = .notBuilt call) ∧ ∃ v, x ∈ given v J := by
  obtain ⟨J₁, J₂, v, call, hJ, hx, hn⟩ := h
  rcases List.eq_nil_or_concat J₂ with rfl | ⟨J₂', e', rfl⟩
  · cases hn
  · rw [List.concat_eq_append] at hJ hn
    rw [← List.append_assoc] at hJ
    obtain ⟨hJ', he⟩ := List.append_inj' hJ rfl
    cases he
    rcases List.mem_append.mp hn with hn | hn
    · exact .inl ⟨J₁, J₂', v, call, hJ', hx, hn⟩
    · refine .inr ⟨⟨call, (List.mem_singleton.mp hn).symm⟩, v, ?_⟩
      rw [hJ', given_append]
      exact List.mem_append_left _ hx

namespace Server

variable {eng : Engine} {cap : Nat} {s s' : Server}

/-- One more event keeps the property, if a resuming `welcome` is written only where nothing was
    missed. -/
theorem honoured_snoc {e : Event} (h : s.SkipsHonoured) (hJ : s'.journal = s.journal ++ [e])
    (hnew : ∀ i user epoch p through viewer,
      e = .wrote i user (.welcome epoch p true through viewer) → ¬ Missed s.journal p) :
    s'.SkipsHonoured := by
  intro J₁ J₂ J₃ i user epoch p through viewer v call hs hp hc hn
  rw [hJ] at hs
  rcases List.eq_nil_or_concat J₃ with rfl | ⟨J₃', e', rfl⟩
  · obtain ⟨hpre, he⟩ := List.append_inj' hs rfl
    cases he
    exact hnew _ _ _ _ _ _ rfl ⟨J₁, J₂, v, call, hpre, hp, hn⟩
  · rw [List.concat_eq_append, ← List.cons_append, ← List.append_assoc] at hs
    obtain ⟨hpre, _⟩ := List.append_inj' hs rfl
    exact h J₁ J₂ J₃' i user epoch p through viewer v call hpre hp hc hn

theorem skipInv_empty : empty.SkipInv where
  answered _ ht := (List.not_mem_nil ht).elim
  behind _ _ _ hx := (List.not_mem_nil hx).elim
  missed x hm := absurd hm (missed_nil x)
  resuming _ ht := (List.not_mem_nil ht).elim
  honoured J₁ J₂ J₃ i user epoch p through viewer v call hJ := by
    have hnil : [] = J₁ ++ J₂ ++ .wrote i user (.welcome epoch p true through viewer) :: J₃ := hJ
    simp at hnil

/-- A step that records nothing and leaves sockets and `handed_out` alone keeps the invariant as
    the ring moves on. -/
theorem SkipInv.of_ring (hi : s.SkipInv) (hsock : s'.sockets = s.sockets)
    (hJ : s'.journal = s.journal) (hout : s'.hub.ring.handedOut = s.hub.ring.handedOut)
    (hhead : s.hub.ring.head ≤ s'.hub.ring.head)
    (hev : s.hub.ring.evictedThrough ≤ s'.hub.ring.evictedThrough) : s'.SkipInv where
  answered t ht ha := hout ▸ hi.answered t (hsock ▸ ht) ha
  behind h0 v x hx hle := by
    rw [hJ] at hx
    exact Nat.lt_of_lt_of_le (hi.behind (hout ▸ h0) v x hx (Nat.le_trans hev hle)) hhead
  missed x hm := Nat.lt_of_lt_of_le (hi.missed x (hJ ▸ hm)) hev
  resuming t ht p hp := hJ ▸ hi.resuming t (hsock ▸ ht) p hp
  honoured := fun J₁ J₂ J₃ i user epoch p through viewer v call h =>
    hi.honoured J₁ J₂ J₃ i user epoch p through viewer v call (hJ ▸ h)

/-- The event of a step that is neither a client's nor a change left unbuilt. -/
theorem SkipInv.of_event (hi : s.SkipInv) {e : Event} (hwrote : ∀ i v f, e ≠ .wrote i v f)
    (hbuilt : ∀ call, e ≠ .notBuilt call) (hsock : s'.sockets = s.sockets)
    (hJ : s'.journal = s.journal ++ [e]) (hout : s'.hub.ring.handedOut = s.hub.ring.handedOut)
    (hhead : s.hub.ring.head ≤ s'.hub.ring.head)
    (hev : s.hub.ring.evictedThrough ≤ s'.hub.ring.evictedThrough) : s'.SkipInv where
  answered t ht ha := hout ▸ hi.answered t (hsock ▸ ht) ha
  behind h0 v x hx hle := by
    obtain ⟨i, f, hmem, hxf⟩ := mem_given.mp hx
    rw [hJ] at hmem
    rcases List.mem_append.mp hmem with hmem | hmem
    · exact Nat.lt_of_lt_of_le (hi.behind (hout ▸ h0) v x (mem_given.mpr ⟨i, f, hmem, hxf⟩)
        (Nat.le_trans hev hle)) hhead
    · exact absurd (List.mem_singleton.mp hmem).symm (hwrote i v f)
  missed x hm := by
    rcases missed_snoc (hJ ▸ hm) with hm | ⟨⟨call, hc⟩, _⟩
    · exact Nat.lt_of_lt_of_le (hi.missed x hm) hev
    · exact absurd hc (hbuilt call)
  resuming t ht p hp hm := by
    rcases missed_snoc (hJ ▸ hm) with hm | ⟨⟨call, hc⟩, _⟩
    · exact hi.resuming t (hsock ▸ ht) p hp hm
    · exact absurd hc (hbuilt call)
  honoured := honoured_snoc hi.honoured hJ fun i user _ _ _ _ he => absurd he (hwrote i user _)

/-- A change is left unbuilt while no task is answered, and past every cursor given: every cursor
    given before has ended. -/
theorem SkipInv.of_notBuilt (hi : s.SkipInv) {call : Nat} (hsock : s'.sockets = s.sockets)
    (hJ : s'.journal = s.journal ++ [.notBuilt call])
    (hnone : ∀ t ∈ s.sockets, t.phase.answered = false)
    (hend : ∀ v, ∀ x ∈ given v s.journal, x < s'.hub.ring.evictedThrough)
    (hev : s.hub.ring.evictedThrough ≤ s'.hub.ring.evictedThrough) : s'.SkipInv where
  answered t ht ha := absurd ha (by rw [hnone t (hsock ▸ ht)]; exact Bool.false_ne_true)
  behind _ v x hx hle := by
    obtain ⟨i, f, hmem, hxf⟩ := mem_given.mp hx
    rw [hJ] at hmem
    rcases List.mem_append.mp hmem with hmem | hmem
    · have := hend v x (mem_given.mpr ⟨i, f, hmem, hxf⟩)
      omega
    · cases List.mem_singleton.mp hmem
  missed x hm := by
    rcases missed_snoc (hJ ▸ hm) with hm | ⟨_, v, hx⟩
    · exact Nat.lt_of_lt_of_le (hi.missed x hm) hev
    · exact hend v x hx
  resuming t ht p hp := by
    have := Task.answered_of_resumesAt hp
    rw [hnone t (hsock ▸ ht)] at this
    cases this
  honoured := honoured_snoc hi.honoured hJ fun _ _ _ _ _ _ he => nomatch he

/-- The step of a task keeps the invariant. -/
theorem skipInv_moved (hb : s.Basic) (hi : s.SkipInv) {i : Nat} {t : Task} {a : TaskAct} {o : Outcome}
    (ht : t ∈ s.sockets) (hs : Task.Step eng cap s.hub t a o) : (s.moved i o).SkipInv := by
  obtain ⟨hhub, hsock, _, _⟩ := moved_fields (s := s) i o
  obtain ⟨hgrow, _, hhead, _, hkeep⟩ := hs.hub
  have hev : s.hub.ring.evictedThrough ≤ (s.moved i o).hub.ring.evictedThrough := by
    rw [hhub]; exact hgrow.evicted
  -- no change is left unbuilt by a task
  have hmissed : ∀ x, Missed (s.moved i o).journal x → Missed s.journal x := by
    intro x hm
    rw [moved_journal] at hm
    cases he : o.effect with
    | wrote f =>
      rw [he] at hm
      rcases missed_snoc hm with hm | ⟨⟨call, hc⟩, _⟩
      · exact hm
      · cases hc
    | openPerson point =>
      rw [he] at hm
      rcases missed_snoc hm with hm | ⟨⟨call, hc⟩, _⟩
      · exact hm
      · cases hc
    | _ => rw [he] at hm; simpa using hm
  refine ⟨?_, ?_, ?_, ?_, ?_⟩
  · intro u hu ha
    rw [hhub]
    rw [hsock] at hu
    rcases List.mem_or_eq_of_mem_set hu with hu | rfl
    · exact hkeep (hi.answered u hu ha)
    · rcases hs.answered ha with ha | hout
      · exact hkeep (hi.answered t ht ha)
      · exact hout
  · intro h0 v x hx hle
    have h0' : s.hub.ring.handedOut = false := by
      rw [hhub] at h0
      rw [Bool.eq_false_iff] at h0 ⊢
      exact fun h => h0 (hkeep h)
    rcases given_moved hs hx with hx | ⟨_, hx⟩
    · rw [hhub, hhead]
      exact hi.behind h0' v x hx (Nat.le_trans hev hle)
    · rw [hi.answered t ht (Task.answered_of_gives hx)] at h0'
      cases h0'
  · exact fun x hm => Nat.lt_of_lt_of_le (hi.missed x (hmissed x hm)) hev
  · intro u hu p hp hm
    rw [hsock] at hu
    rcases List.mem_or_eq_of_mem_set hu with hu | rfl
    · exact hi.resuming u hu p hp (hmissed p hm)
    · rcases hs.resumesAt hp with hp | hle
      · exact hi.resuming t ht p hp (hmissed p hm)
      · have hlt := hi.missed p (hmissed p hm)
        have := hgrow.evicted
        omega
  · have hJ := moved_journal (s := s) i o
    cases he : o.effect with
    | wrote f =>
      rw [he] at hJ
      refine honoured_snoc hi.honoured hJ fun j user epoch p through viewer hw => ?_
      cases hw
      exact hi.resuming t ht p (hs.wrote_welcome (hb.bounded t ht).frames he)
    | openPerson point =>
      rw [he] at hJ
      exact honoured_snoc hi.honoured hJ fun _ _ _ _ _ _ hw => nomatch hw
    | _ =>
      rw [he] at hJ
      intro J₁ J₂ J₃ j user epoch p through viewer v call h
      rw [hJ, List.append_nil] at h
      exact hi.honoured J₁ J₂ J₃ j user epoch p through viewer v call h

/-- **Every guarded step keeps the invariant.** -/
theorem skipInv_step (hb : s.Basic) (hi : s.SkipInv) {a : ServerAct} (hguard : SkipsUnanswered s a)
    (hs : Step eng cap s a s') : s'.SkipInv := by
  have hnext : s.hub.ring.head ≤ s.hub.sequence + 1 := Nat.le_succ_of_le s.hub.head_le
  have hpast : ∀ v, ∀ x ∈ given v s.journal, x < s.hub.sequence + 1 :=
    fun v x hx => Nat.lt_succ_of_le (Nat.le_trans (hb.given v x hx) s.hub.head_le)
  have hskip : s.hub.ring.evictedThrough ≤ s.hub.skip.ring.evictedThrough :=
    Nat.le_trans s.hub.keeps.evicted_le hnext
  have hquiet : s.observers = 0 → ∀ t ∈ s.sockets, t.phase.answered = false :=
    fun h0 t ht => by rw [hb.closed h0 ht]; rfl
  cases hs with
  | opens user =>
    have hopen : (Task.opening user).phase = .opened := rfl
    refine ⟨?_, hi.behind, hi.missed, ?_, hi.honoured⟩
    · intro t ht ha
      rcases List.mem_append.mp ht with ht | ht
      · exact hi.answered t ht ha
      · rw [List.mem_singleton.mp ht, hopen] at ha
        cases ha
    · intro t ht p hp
      rcases List.mem_append.mp ht with ht | ht
      · exact hi.resuming t ht p hp
      · rw [List.mem_singleton.mp ht] at hp
        cases hp
  | socket i a t o hti hs => exact skipInv_moved hb hi (List.mem_of_getElem? hti) (Task.step_cases hs)
  | publish a now p => exact hi.of_ring rfl rfl rfl hnext (Hub.grows_act (.publish now p)).evicted
  | broadcast => exact hi.of_ring rfl rfl rfl (Nat.le_refl _) (Nat.le_refl _)
  | evict now => exact hi.of_ring rfl rfl rfl (Nat.le_refl _) s.hub.evicted_mono
  | disconnect user reconnect =>
    have hsame := hear_eq cap s user reconnect
    refine ⟨?_, hi.behind, hi.missed, ?_, hi.honoured⟩
    · intro u hu ha
      obtain ⟨t, ht, rfl⟩ := List.mem_map.mp hu
      rw [(hsame t).1] at ha
      exact hi.answered t ht ha
    · intro u hu p hp
      obtain ⟨t, ht, rfl⟩ := List.mem_map.mp hu
      refine hi.resuming t ht p ?_
      rwa [Task.resumesAt, (hsame t).1, (hsame t).2] at hp
  | still a => exact hi
  | presenceSkip now p h0 _ =>
    -- the whole step is under the presence lock: no socket is open
    have hnone := hquiet h0
    refine ⟨?_, ?_, ?_, ?_, hi.honoured⟩
    · intro t ht ha
      rw [hnone t ht] at ha
      cases ha
    · intro _ v x hx hle
      have := hpast v x hx
      exact absurd hle (Nat.not_le.mpr this)
    · exact fun x hm => Nat.lt_of_lt_of_le (hi.missed x hm) hskip
    · intro t ht p hp
      have := Task.answered_of_resumesAt hp
      rw [hnone t ht] at this
      cases this
  | commit =>
    exact hi.of_event (e := .committed _) nofun nofun rfl rfl rfl
      (Nat.le_refl _) (Nat.le_refl _)
  | observe call next => exact hi.of_ring rfl rfl rfl (Nat.le_refl _) (Nat.le_refl _)
  | needed call => exact hi.of_ring rfl rfl rfl (Nat.le_refl _) (Nat.le_refl _)
  | unneeded call hg =>
    -- nothing is recorded: no `hello` is answered since the last gap, and the ring is empty
    unfold RingState.gapNeeded at hg
    rw [Bool.or_eq_false_iff] at hg
    have hempty : s.hub.ring.entries = [] := by simpa using hg.2
    have heq := s.hub.keeps.head_eq_of_empty hempty
    refine hi.of_notBuilt rfl rfl ?_ ?_ (Nat.le_refl _)
    · intro t ht
      rw [Bool.eq_false_iff]
      intro ha
      rw [hi.answered t ht ha] at hg
      cases hg.1
    · intro v x hx
      by_contra hle
      have := hi.behind hg.1 v x hx (Nat.not_lt.mp hle)
      exact hle (heq ▸ this)
  | skip call => exact hi.of_notBuilt rfl rfl hguard hpast hskip
  | skipFor user hu =>
    exact hi.of_event (e := .skipped _ _) nofun nofun rfl rfl rfl
      (Nat.le_refl _) (Nat.le_refl _)
  | covered user call hu =>
    exact hi.of_event (e := .skipped _ _) nofun nofun rfl rfl rfl
      (Nat.le_refl _) (Nat.le_refl _)
  | mark call now user hc =>
    exact hi.of_event (e := .marked _ _ _) nofun nofun rfl rfl rfl hnext
      (Hub.grows_act (.pushGap now user)).evicted

/-! ## 3. Every run in which skips meet no answered socket -/

theorem skipInv_reach (h : ReachWhen (serverSystem eng cap) SkipsUnanswered s) : s.SkipInv :=
  h.induct (T := serverSystem eng cap) (I := SkipInv)
    (fun s h0 => (show s = .empty from h0) ▸ skipInv_empty)
    fun _ _ _ hr hi hg hs => skipInv_step (basic_reach hr) hi hg (step_cases hs)

/-- **No skipped event is missed by a resumed client, in every run in which `sync_wanted` skips
    while no open socket is answered.** -/
theorem skipsHonoured_of_reach (h : ReachWhen (serverSystem eng cap) SkipsUnanswered s) :
    s.SkipsHonoured :=
  (skipInv_reach h).honoured

end Server

/-! ## 4. Runs -/

/-- A client is given cursor 0 and goes; a change is skipped; the client comes back from 0. -/
def skippedRun : List ServerAct :=
  List.flatten [greetAfresh 0, leave 0, [.commit, .observe 0, .needed 0, .skip 0],
    [.opens 1, .socket 1 (.hello (some ("e", 0)) []), .socket 1 (.resume 0), .socket 1 .refetch,
      .socket 1 .write]]

/-- Its resume starts afresh. -/
theorem skipsHonoured_of_reach_sample :
    ∃ s, ReachWhen (serverSystem testEngine 16) SkipsUnanswered s ∧
      s.journal.getLast? = some (.wrote 1 1 (.welcome "e" 1 false 1 1)) ∧ s.SkipsHonoured := by
  obtain ⟨s, hs, hp⟩ := exists_reachWhen_of_replay (T := serverSystem testEngine 16)
    (G := SkipsUnanswered) (s := .empty) (l := skippedRun)
    (p := fun s => s.journal.getLast? = some (.wrote 1 1 (.welcome "e" 1 false 1 1)))
    rfl (by decide +kernel)
  exact ⟨s, hs, of_decide_eq_true hp, Server.skipsHonoured_of_reach hs⟩

/-- A call of `sync_wanted` sees no observer; a socket opens and its `hello` is answered; the call's
    skip then clears `handed_out`. The socket is given the skip's own sequence, 1, as its cursor and
    goes. The next change is neither built nor recorded as a gap, and the client comes back from 1. -/
def staleRun : List ServerAct :=
  List.flatten [greetAfresh 0, leave 0, [.commit, .observe 0],
    [.opens 1, .socket 1 (.hello (some ("e", 0)) []), .socket 1 (.resume 0)],
    [.needed 0, .skip 0],
    [.socket 1 (.catchUp 0), .socket 1 .refetch, .socket 1 .refetch, .socket 1 .write], leave 1,
    [.commit, .observe 1, .needed 1],
    [.opens 1, .socket 2 (.hello (some ("e", 1)) []), .socket 2 (.resume 0),
      .socket 2 (.catchUp 0), .socket 2 .write]]

/-- What that run does up to the first cursor it gives at the skip. -/
def staleBefore : List Event :=
  [.greeted 0 1 none, .wrote 0 1 (.welcome "e" 0 false 0 1), .committed 0,
    .greeted 1 1 (some ("e", 0)), .notBuilt 0, .wrote 1 1 (.welcome "e" 1 false 1 1)]

/-- **A stale skip loses a change**: the client resumes from 1 as if it had missed nothing. -/
theorem skipsHonoured_stale :
    ∃ s, Reach (serverSystem testEngine 16) s ∧ ¬ s.SkipsHonoured := by
  obtain ⟨s, hs, hp⟩ := exists_reachWhen_of_replay (T := serverSystem testEngine 16)
    (G := fun _ _ => True) (s := .empty) (l := staleRun)
    (p := fun s => s.journal = staleBefore ++
      [Event.committed 1, .notBuilt 1, .greeted 2 1 (some ("e", 1))] ++
      [Event.wrote 2 1 (.welcome "e" 1 true 1 1)])
    rfl (by decide +kernel)
  refine ⟨s, hs, fun hh => ?_⟩
  have hout : Event.notBuilt 1 ∉ [Event.committed 1, .notBuilt 1, .greeted 2 1 (some ("e", 1))] :=
    hh _ _ [] 2 1 "e" 1 1 1 1 1 (of_decide_eq_true hp) (by decide) (by decide)
  exact hout (by decide)

end Smartfire
