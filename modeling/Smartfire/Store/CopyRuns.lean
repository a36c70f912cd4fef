/-
  File:      Smartfire/Store/CopyRuns.lean
  Subject:   The copy of a message that is held, in every run.

  Copies come in any order and more than once. A record beside the run notes the versions of each part of a
  message that landed since the message was taken up.

  * `removed_of_reach` -- **a removed message does not come back**, unless a thread's detail brings it;
  * `Newest`, `newest_of_reach` -- **of every part the newest version is held**;
  * `agree_of_reach` -- **two stores that the same copies and events reached hold equal copies**, in
    whatever order they came, where no reactions overtook a newer edit.
-/
import Smartfire.Store.Landings

namespace Smartfire.Timelines

variable {V : Type} {world : World}

/-! ## 1. Removed messages -/

section Removed

variable [DecidableEq V] {s : State V}

theorem takes_nowhere {upToDate : Prop} {new : Option (Message V)} (h : Takes upToDate none noVersions new) :
    new = none := by
  generalize hlanded : (noVersions : Versions V) = landed at h
  cases h with
  | gone => rfl
  | first m => cases hlanded

/-- **A removed message does not come back**: from its removal until its tombstone is pruned it is not held,
    whatever pages, replies and events come, where no thread's detail brings it. -/
theorem removed_of_reach
    (h : Lib.ReachWhen (timelineRuns V) (fun s act => act.Fits world ∧ act.BringsNoRemoved s) s) {id : Int}
    (hid : (s.tombstones id).isSome) : s.messages id = none := by
  have hgone : Inv world s ∧ ∀ id, (s.tombstones id).isSome → s.messages id = none := by
    refine h.induct (I := fun s => Inv world s ∧ ∀ id, (s.tombstones id).isSome → s.messages id = none)
      (fun s hs => ?_) fun s act s' _ hinv hact hs => ?_
    · obtain rfl : s = initialState := hs
      exact ⟨inv_initial, fun _ _ => rfl⟩
    · obtain rfl := Option.some.inj hs
      refine ⟨inv_perform hinv.1 act hact.1, fun id hid => ?_⟩
      obtain hold | hnone := tombstones_perform s act hid
      · have htakes := takes_perform hinv.1 act hact.1 id
        rw [hinv.2 id hold, landsAt_removed hact.2 (hinv.2 id hold) hold] at htakes
        exact takes_nowhere htakes
      · exact hnone
  exact hgone.2 id hid

end Removed

/-- The message in between is removed, and copies of it come that were on their way. -/
def lateActs : List (Act Nat) :=
  sampleActs ++ [.removeMessage 2 1 none 0, .updateMessage (sampleMessage 2 "1" 1),
    .receiveMessage (sampleMessage 2 "" 0)]

theorem removed_of_reach_sample :
    ((lateActs.foldl perform initialState).tombstones 2).isSome ∧
      (lateActs.foldl perform initialState).messages 2 = none := by
  have hrun : Lib.ReachWhen (timelineRuns Nat) (fun s act => act.Fits sampleWorld ∧ act.BringsNoRemoved s)
      (lateActs.foldl perform initialState) := by
    refine Lib.reachWhen_foldl (fun _ _ => rfl) rfl fun act hact s => ?_
    obtain hact | hact := List.mem_append.mp hact
    · refine ⟨fits_sampleActs act hact, ?_⟩
      obtain rfl | rfl : act = _ ∨ act = _ := by simpa [sampleActs] using hact
      · trivial
      · trivial
    · obtain rfl | rfl | rfl : act = _ ∨ act = _ ∨ act = _ := by simpa using hact
      · exact ⟨⟨rfl, rfl⟩, trivial⟩
      · exact ⟨fits_sampleMessage 2 "1" 1, trivial⟩
      · exact ⟨fits_sampleMessage 2 "" 0, trivial⟩
  have htombstone : ((lateActs.foldl perform initialState).tombstones 2).isSome := by decide +kernel
  exact ⟨htombstone, removed_of_reach hrun htombstone⟩

/-! ## 2. The newest version -/

section Newest

variable {α : Type} {stamp : α → String} {l l' : List α} {a b : α}

/-- One of the list, of the newest stamp. -/
def IsNewest (stamp : α → String) (l : List α) (a : α) : Prop := a ∈ l ∧ ∀ b ∈ l, stamp b ≤ stamp a

theorem isNewest_singleton (stamp : α → String) (a : α) : IsNewest stamp [a] a :=
  ⟨List.mem_singleton_self a, fun b hb => by rw [List.mem_singleton.mp hb]⟩

theorem IsNewest.keep (h : IsNewest stamp l a) (hl' : ∀ b ∈ l', stamp b ≤ stamp a) : IsNewest stamp (l ++ l') a :=
  ⟨List.mem_append_left _ h.1, fun b hb => (List.mem_append.mp hb).elim (h.2 b) (hl' b)⟩

theorem IsNewest.take (h : IsNewest stamp l a) (h' : IsNewest stamp l' b) (hle : stamp a ≤ stamp b) :
    IsNewest stamp (l ++ l') b :=
  ⟨List.mem_append_right _ h'.1, fun c hc => (List.mem_append.mp hc).elim (fun hc => (h.2 c hc).trans hle) (h'.2 c)⟩

/-- A poll's versions: a closed one stays closed. -/
def PollsStay (polls : List (Poll V)) : Prop :=
  ∀ p ∈ polls, ∀ q ∈ polls, p.asOf ≤ q.asOf → p.closed = true → q.closed = true

/-- The newest poll, if there is one. -/
def NewestPoll (polls : List (Poll V)) : Option (Poll V) → Prop
  | none => polls = []
  | some p => IsNewest Poll.asOf polls p

/-- Of each step the newest version. -/
structure NewestSteps (versions steps : List (AgentStep V)) : Prop where
  source : ∀ s ∈ steps, s ∈ versions
  newest : ∀ s ∈ versions, ∃ s' ∈ steps, s'.id = s.id ∧ s.updatedAt ≤ s'.updatedAt

/-- **Of every part the newest version.** -/
structure Newest (v : Versions V) (m : Message V) : Prop where
  fields : IsNewest Fields.updatedAt v.fields m.fields
  cards : IsNewest Cards.asOf v.cards ⟨m.cardsAsOf, m.cards⟩
  poll : NewestPoll v.polls m.poll
  steps : NewestSteps v.steps m.steps

theorem newestSteps_self (steps : List (AgentStep V)) : NewestSteps steps steps :=
  ⟨fun _ hs => hs, fun s hs => ⟨s, hs, rfl, le_refl _⟩⟩

theorem NewestSteps.merge {v v' held incoming result : List (AgentStep V)} (h : NewestSteps v held)
    (h' : NewestSteps v' incoming)
    (hheld : ∀ s ∈ held, ∃ s' ∈ result, s'.id = s.id ∧ s.updatedAt ≤ s'.updatedAt)
    (hincoming : ∀ s ∈ incoming, ∃ s' ∈ result, s'.id = s.id ∧ s.updatedAt ≤ s'.updatedAt)
    (hsource : ∀ s ∈ result, s ∈ held ∨ s ∈ incoming) : NewestSteps (v ++ v') result := by
  refine ⟨fun s hs => ?_, fun s hs => ?_⟩
  · exact (hsource s hs).elim (fun hs => List.mem_append_left _ (h.source s hs))
      fun hs => List.mem_append_right _ (h'.source s hs)
  · obtain hs | hs := List.mem_append.mp hs
    · obtain ⟨s', hs', hid, hle⟩ := h.newest s hs
      obtain ⟨s'', hs'', hid', hle'⟩ := hheld s' hs'
      exact ⟨s'', hs'', hid'.trans hid, hle.trans hle'⟩
    · obtain ⟨s', hs', hid, hle⟩ := h'.newest s hs
      obtain ⟨s'', hs'', hid', hle'⟩ := hincoming s' hs'
      exact ⟨s'', hs'', hid'.trans hid, hle.trans hle'⟩

theorem NewestPoll.replace {polls polls' : List (Poll V)} {held incoming : Option (Poll V)} (h : NewestPoll polls held)
    (h' : NewestPoll polls' incoming) (hle : ∀ p, held = some p → ∃ q, incoming = some q ∧ p.asOf ≤ q.asOf) :
    NewestPoll (polls ++ polls') incoming := by
  cases held with
  | none =>
    obtain rfl : polls = [] := h
    exact h'
  | some p =>
    obtain ⟨q, rfl, hpq⟩ := hle p rfl
    have hp : IsNewest Poll.asOf polls p := h
    have hq : IsNewest Poll.asOf polls' q := h'
    exact hp.take hq hpq

/-- **The newer poll**, where no poll opens again. -/
theorem NewestPoll.newer {polls polls' : List (Poll V)} {held incoming : Option (Poll V)} (h : NewestPoll polls held)
    (h' : NewestPoll polls' incoming) (hstay : PollsStay (polls ++ polls')) :
    NewestPoll (polls ++ polls') (newerPoll held incoming) := by
  cases incoming with
  | none =>
    obtain rfl : polls' = [] := h'
    rw [List.append_nil]
    exact h
  | some q =>
    cases held with
    | none =>
      obtain rfl : polls = [] := h
      exact h'
    | some p =>
      have hp : IsNewest Poll.asOf polls p := h
      have hq : IsNewest Poll.asOf polls' q := h'
      unfold newerPoll
      split
      · next hkeeps =>
        have hle : q.asOf ≤ p.asOf := by
          simp only [keepsPoll, Bool.or_eq_true, Bool.and_eq_true, Bool.not_eq_true', decide_eq_true_eq] at hkeeps
          obtain ⟨hclosed, hopen | hle⟩ | hlt := hkeeps
          · -- an open poll is of before it closed
            by_contra hlt
            have hqclosed := hstay p (List.mem_append_left _ hp.1) q (List.mem_append_right _ hq.1)
              (not_le.mp hlt).le hclosed
            rw [hopen] at hqclosed
            cases hqclosed
          · exact hle
          · exact hlt.le
        exact hp.keep fun b hb => (hq.2 b hb).trans hle
      · next hlands =>
        simp only [keepsPoll, Bool.not_eq_true, Bool.or_eq_false_iff, decide_eq_false_iff_not, not_lt] at hlands
        exact hp.take hq hlands.2

theorem newest_versions (m : Message V) : Newest m.versions m := by
  refine ⟨isNewest_singleton _ _, isNewest_singleton _ _, ?_, newestSteps_self _⟩
  show NewestPoll m.poll.toList m.poll
  cases m.poll with
  | none => exact rfl
  | some p => exact isNewest_singleton _ _

theorem append_noVersions (v : Versions V) : v.append noVersions = v := by
  simp [Versions.append, noVersions]

theorem newest_sameStamped {v : Versions V} {m held : Message V} (h : Newest v held) (hsame : SameStamped m held) :
    Newest v m := by
  have hpart {β : Type} (part : Message V → β)
      (hpart : ∀ m : Message V, part m = part { m with pinned := false, thread := none }) : part m = part held := by
    rw [hpart m, hpart held, hsame]
  refine ⟨?_, ?_, ?_, ?_⟩
  · rw [hpart Message.fields fun _ => rfl]
    exact h.fields
  · rw [hpart Message.cardsAsOf fun _ => rfl, hpart Message.cards fun _ => rfl]
    exact h.cards
  · rw [hpart Message.poll fun _ => rfl]
    exact h.poll
  · rw [hpart Message.steps fun _ => rfl]
    exact h.steps

theorem PollsStay.left {polls polls' : List (Poll V)} (h : PollsStay (polls ++ polls')) : PollsStay polls :=
  fun p hp q hq => h p (List.mem_append_left _ hp) q (List.mem_append_left _ hq)

theorem newest_kept [DecidableEq V] {v : Versions V} {held m : Message V} (h : Newest v held)
    (hheld : Distinct held.steps) (hsteps : Distinct m.steps) (tie : Bool)
    (hstay : PollsStay (v.polls ++ m.versions.polls)) :
    Newest (v.append m.versions) (kept (some held) m tie) := by
  have hm := newest_versions m
  obtain ⟨hleHeld, hle⟩ := updatedAt_winner held m tie
  rw [kept_eq]
  have hmerged := merged_mergedSteps hheld hsteps tie
  refine ⟨?_, ?_, NewestPoll.newer h.poll hm.poll hstay,
    h.steps.merge hm.steps hmerged.overHeld hmerged.overIncoming hmerged.source⟩
  · show IsNewest Fields.updatedAt (v.fields ++ m.versions.fields) (if incomingWins held m tie then m else held).fields
    split
    · next hwins =>
      rw [if_pos hwins] at hleHeld
      exact h.fields.take hm.fields hleHeld
    · next hloses =>
      rw [if_neg hloses] at hle
      exact h.fields.keep fun b hb => (hm.fields.2 b hb).trans hle
  · show IsNewest Cards.asOf (v.cards ++ m.versions.cards)
      ⟨if held.cardsAsOf ≤ m.cardsAsOf then m.cardsAsOf else held.cardsAsOf,
        if held.cardsAsOf ≤ m.cardsAsOf then m.cards else held.cards⟩
    by_cases hcards : held.cardsAsOf ≤ m.cardsAsOf
    · rw [if_pos hcards, if_pos hcards]
      exact h.cards.take hm.cards hcards
    · rw [if_neg hcards, if_neg hcards]
      exact h.cards.keep fun b hb => (hm.cards.2 b hb).trans (not_le.mp hcards).le

/-- **What lands is held, where it is newer.** -/
theorem Newest.takes [DecidableEq V] {upToDate : Prop} {v landed : Versions V} {held m : Message V} (h : Newest v held)
    (hheld : Distinct held.steps) (htakes : Takes upToDate (some held) landed (some m)) (hup : upToDate)
    (hstay : PollsStay (v.append landed).polls) : Newest (v.append landed) m := by
  -- the parts that stay
  have hfields : IsNewest Fields.updatedAt (v.fields ++ []) held.fields := by
    rw [List.append_nil]
    exact h.fields
  have hcards : IsNewest Cards.asOf (v.cards ++ []) ⟨held.cardsAsOf, held.cards⟩ := by
    rw [List.append_nil]
    exact h.cards
  have hpoll : NewestPoll (v.polls ++ []) held.poll := by
    rw [List.append_nil]
    exact h.poll
  have hsteps : NewestSteps (v.steps ++ []) held.steps := by
    rw [List.append_nil]
    exact h.steps
  cases htakes with
  | kept _ m tie hsteps => exact newest_kept h hheld hsteps tie hstay
  | aside _ _ hsame =>
    rw [append_noVersions]
    exact newest_sameStamped h hsame
  | saved _ _ hle hbehind =>
    have hm := newest_versions m
    have hnot := hbehind hup
    refine ⟨h.fields.take hm.fields hle, h.cards.take hm.cards hnot.cards, ?_, ?_⟩
    · exact NewestPoll.replace h.poll hm.poll hnot.poll
    · exact h.steps.merge hm.steps hnot.steps (fun s hs => ⟨s, hs, rfl, le_refl _⟩) fun _ hs => .inr hs
  | reactions _ reactions updatedAt =>
    split
    · next hlt =>
      refine ⟨h.fields.keep fun b hb => ?_, hcards, hpoll, hsteps⟩
      obtain rfl := List.mem_singleton.mp hb
      exact hlt.le
    · next hle => exact ⟨h.fields.take (isNewest_singleton _ _) (not_lt.mp hle), hcards, hpoll, hsteps⟩
  | poll _ poll => exact ⟨hfields, hcards, NewestPoll.newer h.poll (isNewest_singleton _ poll) hstay, hsteps⟩
  | cards _ cards asOf =>
    split
    · next hlt =>
      refine ⟨hfields, h.cards.keep fun b hb => ?_, hpoll, hsteps⟩
      obtain rfl := List.mem_singleton.mp hb
      exact hlt.le
    · next hle => exact ⟨hfields, h.cards.take (isNewest_singleton _ _) (not_lt.mp hle), hpoll, hsteps⟩
  | steps _ steps =>
    have hmerged := merged_mergeSteps hheld steps
    exact ⟨hfields, hcards, hpoll,
      h.steps.merge (newestSteps_self steps) hmerged.overHeld hmerged.overIncoming hmerged.source⟩

end Newest

/-! ## 3. Runs -/

section Runs

variable [DecidableEq V] {s : State V × (Int → Versions V)} {id : Int} {m : Message V}

/-- What landed of each message since it was taken up. -/
def noteLanded (s : State V) (act : Act V) (s' : State V) (log : Int → Versions V) (id : Int) : Versions V :=
  if (s'.messages id).isNone then noVersions else (log id).append (landsAt s act id)

/-- The runs with that record. -/
def landedRuns (V : Type) [DecidableEq V] : Lib.System (State V × (Int → Versions V)) (Act V) :=
  (timelineRuns V).recording (fun _ => noVersions) noteLanded

def performNoted (s : State V × (Int → Versions V)) (act : Act V) : State V × (Int → Versions V) :=
  (perform s.1 act, noteLanded s.1 act (perform s.1 act) s.2)

/-- What the record says. -/
structure Recorded (world : World) (s : State V × (Int → Versions V)) : Prop where
  inv : Inv world s.1
  blank : ∀ id, s.1.messages id = none → s.2 id = noVersions
  newest : ∀ id m, s.1.messages id = some m → PollsStay (s.2 id).polls → Newest (s.2 id) m
  sourced : ∀ id, Sourced (s.2 id)

theorem recorded_step (h : Recorded world s) {act : Act V} {s' : State V × (Int → Versions V)}
    (hact : act.Fits world ∧ act.UpToDate s.1) (hs : (landedRuns V).step s act = some s') : Recorded world s' := by
  obtain ⟨hstep, hlog⟩ := Lib.recording_step hs
  have hstate : s'.1 = perform s.1 act := (Option.some.inj hstep).symm
  have htakes (id : Int) : Takes (act.UpToDate s.1) (s.1.messages id) (landsAt s.1 act id) (s'.1.messages id) := by
    rw [hstate]
    exact takes_perform h.inv act hact.1 id
  refine ⟨by rw [hstate]; exact inv_perform h.inv act hact.1, fun id hnone => ?_, fun id m hm hstay => ?_,
    fun id => ?_⟩
  · rw [hlog]
    simp only [noteLanded, hnone, Option.isNone_none, if_true]
  · have hid : s'.2 id = (s.2 id).append (landsAt s.1 act id) := by
      rw [hlog]
      simp only [noteLanded, hm, Option.isNone_some, Bool.false_eq_true, if_false]
    rw [hid] at hstay ⊢
    have htaken := htakes id
    rw [hm] at htaken
    cases hheld : s.1.messages id with
    | none =>
      -- the message is taken up
      rw [hheld] at htaken
      rw [h.blank id hheld]
      generalize landsAt s.1 act id = landed at htaken
      cases htaken with
      | first => exact newest_versions m
    | some held =>
      rw [hheld] at htaken
      exact (h.newest id held hheld hstay.left).takes (h.inv.holds id held hheld).2.steps.distinct htaken hact.2 hstay
  · rw [hlog]
    unfold noteLanded
    split
    · exact sourced_noVersions
    · exact (h.sourced id).append (sourced_landsAt s.1 act id)

theorem recorded_of_reach
    (h : Lib.ReachWhen (landedRuns V) (fun s act => act.Fits world ∧ act.UpToDate s.1) s) : Recorded world s := by
  refine h.induct (fun s hs => ?_) fun s act s' _ hrecorded hact hs => recorded_step hrecorded hact hs
  obtain ⟨hstate, hlog⟩ := hs
  have hstart : s.1 = initialState := hstate
  refine ⟨hstart ▸ inv_initial, fun id _ => by rw [hlog], fun id m hm => ?_, fun id => ?_⟩
  · rw [hstart] at hm
    cases hm
  · rw [hlog]
    exact sourced_noVersions

/-- **Of every part the newest version is held**: whatever copies and changes of a message land, in whatever
    order and however often, none is undone by an older one. The saved list has to be up to date, and a poll
    that closed has to stay closed. -/
theorem newest_of_reach
    (h : Lib.ReachWhen (landedRuns V) (fun s act => act.Fits world ∧ act.UpToDate s.1) s)
    (hm : s.1.messages id = some m) (hstay : PollsStay (s.2 id).polls) : Newest (s.2 id) m :=
  (recorded_of_reach h).newest id m hm hstay

end Runs

/-- A page with one copy of a message, and an event with another. -/
def copyActs (first second : String × Nat) : List (Act Nat) :=
  [.page (.room 1) ⟨[sampleMessage 1 first.1 first.2], none, none⟩ .replace none,
    .updateMessage (sampleMessage 1 second.1 second.2)]

def afterCopies (first second : String × Nat) : State Nat × (Int → Versions Nat) :=
  (copyActs first second).foldl performNoted (initialState, fun _ => noVersions)

theorem reach_afterCopies (first second : String × Nat) :
    Lib.ReachWhen (landedRuns Nat) (fun s act => act.Fits sampleWorld ∧ act.UpToDate s.1)
      (afterCopies first second) := by
  refine Lib.reachWhen_foldl (fun _ _ => rfl) ⟨rfl, rfl⟩ fun act hact s => ?_
  obtain rfl | rfl : act = _ ∨ act = _ := by simpa [copyActs] using hact
  · refine ⟨⟨fun m hm => ?_, List.pairwise_singleton _ _⟩, trivial⟩
    obtain rfl : m = _ := by simpa using hm
    exact ⟨fits_sampleMessage 1 _ _, rfl⟩
  · exact ⟨fits_sampleMessage 1 _ _, trivial⟩

/-- What the two copies left in the record. -/
theorem landed_afterCopies :
    (afterCopies ("2", 7) ("1", 0)).2 1 = ⟨[⟨"2", "", 0, 7⟩, ⟨"1", "", 0, 0⟩], [⟨"2", "", 0, 7⟩, ⟨"1", "", 0, 0⟩],
      [], [⟨"", 0⟩, ⟨"", 0⟩], [], []⟩ := by
  decide +kernel

theorem newest_of_reach_sample :
    ∃ m, (afterCopies ("2", 7) ("1", 0)).1.messages 1 = some m ∧ m.value = 7 ∧
      Newest ((afterCopies ("2", 7) ("1", 0)).2 1) m := by
  refine ⟨sampleMessage 1 "2" 7, ?_, rfl, newest_of_reach (reach_afterCopies ("2", 7) ("1", 0)) ?_ ?_⟩
  · decide +kernel
  · decide +kernel
  · rw [landed_afterCopies]
    exact fun p hp => (by cases hp)

/-! ## 4. Agreement -/

section Agreement

variable [DecidableEq V] {s : State V × (Int → Versions V)} {id : Int} {m : Message V}

/-- The same copies and events, in whatever order. -/
structure SameVersions (v v' : Versions V) : Prop where
  copies : ∀ a, a ∈ v.copies ↔ a ∈ v'.copies
  reactions : ∀ a, a ∈ v.reactions ↔ a ∈ v'.reactions
  cards : ∀ a, a ∈ v.cards ↔ a ∈ v'.cards
  polls : ∀ a, a ∈ v.polls ↔ a ∈ v'.polls
  steps : ∀ a, a ∈ v.steps ↔ a ∈ v'.steps

/-- A stamp names a version. -/
structure Consistent (v : Versions V) : Prop where
  copies : ∀ a ∈ v.copies, ∀ b ∈ v.copies, a.updatedAt = b.updatedAt → a = b
  reacted : ∀ a ∈ v.reacted, ∀ b ∈ v.reacted, a.updatedAt = b.updatedAt → a = b
  cards : ∀ a ∈ v.cards, ∀ b ∈ v.cards, a.asOf = b.asOf → a = b
  polls : ∀ a ∈ v.polls, ∀ b ∈ v.polls, a.asOf = b.asOf → a = b
  steps : ∀ a ∈ v.steps, ∀ b ∈ v.steps, a.id = b.id → a.updatedAt = b.updatedAt → a = b

/-- A whole copy came that is newer than all reactions that came by themselves. -/
def CopyAhead (v : Versions V) : Prop := ∃ f ∈ v.copies, ∀ r ∈ v.reactions, r.updatedAt < f.updatedAt

/-- Two copies that differ at most in what has no stamp, and in the fields that reactions leave as they are. -/
def SameReacted (m m' : Message V) : Prop :=
  SameStamped { m with clientMessageId := m'.clientMessageId, value := m'.value } m'

omit [DecidableEq V] in
theorem SameVersions.reacted {v v' : Versions V} (h : SameVersions v v') (r : Reactions V) :
    r ∈ v.reacted ↔ r ∈ v'.reacted := by
  simp only [Versions.reacted, List.mem_append, List.mem_map, h.copies, h.reactions]

omit [DecidableEq V] in
/-- **The newest reactions that came** are those of the newest version. -/
theorem Sourced.newest {v : Versions V} (h : Sourced v) {f : Fields V} (hf : IsNewest Fields.updatedAt v.fields f) :
    IsNewest Reactions.updatedAt v.reacted f.reacted := by
  refine ⟨?_, fun r hr => ?_⟩
  · rcases h.fields f hf.1 with hcopy | hreacted
    · exact List.mem_append_left _ (List.mem_map_of_mem hcopy)
    · exact List.mem_append_right _ hreacted
  · rcases List.mem_append.mp hr with hr | hr
    · obtain ⟨g, hg, rfl⟩ := List.mem_map.mp hr
      exact hf.2 g (h.copies g hg)
    · obtain ⟨g, hg, rfl⟩ := h.reactions r hr
      exact hf.2 g hg

omit [DecidableEq V] in
/-- Where a whole copy is ahead, a whole copy is the newest version. -/
theorem Sourced.newest_copy {v : Versions V} (h : Sourced v) {f : Fields V}
    (hf : IsNewest Fields.updatedAt v.fields f) (hahead : CopyAhead v) : IsNewest Fields.updatedAt v.copies f := by
  refine ⟨(h.fields f hf.1).resolve_right fun hreacted => ?_, fun g hg => hf.2 g (h.copies g hg)⟩
  obtain ⟨g, hg, hlt⟩ := hahead
  have hle := hf.2 g (h.copies g hg)
  exact absurd (lt_of_le_of_lt hle (hlt f.reacted hreacted)) (lt_irrefl _)

omit [DecidableEq V] in
theorem IsNewest.unique {α : Type} {stamp : α → String} {l l' : List α} {a b : α} (h : IsNewest stamp l a)
    (h' : IsNewest stamp l' b) (hsame : ∀ x, x ∈ l ↔ x ∈ l') (hone : ∀ x ∈ l, ∀ y ∈ l, stamp x = stamp y → x = y) :
    a = b := by
  have hb := (hsame b).mpr h'.1
  exact hone a h.1 b hb (le_antisymm (h'.2 a ((hsame a).mp h.1)) (h.2 b hb))

omit [DecidableEq V] in
theorem NewestPoll.unique {polls polls' : List (Poll V)} {p q : Option (Poll V)} (h : NewestPoll polls p)
    (h' : NewestPoll polls' q) (hsame : ∀ x, x ∈ polls ↔ x ∈ polls')
    (hone : ∀ x ∈ polls, ∀ y ∈ polls, x.asOf = y.asOf → x = y) : p = q := by
  cases p with
  | none =>
    obtain rfl : polls = [] := h
    cases q with
    | none => rfl
    | some q => exact absurd ((hsame q).mpr (show IsNewest Poll.asOf polls' q from h').1) (by simp)
  | some p =>
    have hp : IsNewest Poll.asOf polls p := h
    cases q with
    | none =>
      obtain rfl : polls' = [] := h'
      exact absurd ((hsame p).mp hp.1) (by simp)
    | some q => exact congrArg some (hp.unique (show IsNewest Poll.asOf polls' q from h') hsame hone)

omit [DecidableEq V] in
/-- The newest versions of the steps are the same ones. -/
theorem NewestSteps.subset {versions versions' steps steps' : List (AgentStep V)} (h : NewestSteps versions steps)
    (h' : NewestSteps versions' steps') (hsame : ∀ x, x ∈ versions ↔ x ∈ versions')
    (hone : ∀ x ∈ versions, ∀ y ∈ versions, x.id = y.id → x.updatedAt = y.updatedAt → x = y)
    (hdistinct : Distinct steps) {s : AgentStep V} (hs : s ∈ steps) : s ∈ steps' := by
  obtain ⟨s', hs', hid, hle⟩ := h'.newest s ((hsame s).mp (h.source s hs))
  have hversion := (hsame s').mpr (h'.source s' hs')
  obtain ⟨s'', hs'', hid', hle'⟩ := h.newest s' hversion
  obtain rfl : s'' = s := List.inj_on_of_nodup_map hdistinct hs'' hs (hid'.trans hid)
  rw [hone s'' (h.source s'' hs) s' hversion hid.symm (le_antisymm hle hle')]
  exact hs'

omit [DecidableEq V] in
theorem Shown.ext {steps steps' : List (AgentStep V)} (h : Shown steps) (h' : Shown steps')
    (hsame : ∀ s, s ∈ steps ↔ s ∈ steps') : steps = steps' := by
  have hperm : steps.Perm steps' :=
    (List.perm_ext_iff_of_nodup (h.distinct.of_map _) (h'.distinct.of_map _)).mpr hsame
  refine hperm.eq_of_pairwise (fun a b ha hb hab hba => ?_) h.order h'.order
  have hkey : (a.position, a.id) = (b.position, b.id) := toLex.injective (le_antisymm hab hba)
  exact List.inj_on_of_nodup_map h.distinct ha ((hsame b).mpr hb) (congrArg Prod.snd hkey)

/-- **Two stores agree**: where the same copies and events of a message reached two stores (in whatever
    order, by whatever ways, and however often), they hold the same reactions, stamps, cards, poll and steps;
    and the same of everything but its pin and its thread's indicator, where a whole copy is newer than the
    reactions that came by themselves. -/
theorem agree_of_reach {s' : State V × (Int → Versions V)} {m' : Message V}
    (h : Lib.ReachWhen (landedRuns V) (fun s act => act.Fits world ∧ act.UpToDate s.1) s)
    (h' : Lib.ReachWhen (landedRuns V) (fun s act => act.Fits world ∧ act.UpToDate s.1) s')
    (hm : s.1.messages id = some m) (hm' : s'.1.messages id = some m') (hsame : SameVersions (s.2 id) (s'.2 id))
    (hconsistent : Consistent (s.2 id)) (hstay : PollsStay (s.2 id).polls) :
    SameReacted m m' ∧ (CopyAhead (s.2 id) → SameStamped m m') := by
  have hstay' : PollsStay (s'.2 id).polls := fun p hp q hq =>
    hstay p ((hsame.polls p).mpr hp) q ((hsame.polls q).mpr hq)
  have hrecorded := recorded_of_reach h
  have hrecorded' := recorded_of_reach h'
  have hnewest := hrecorded.newest id m hm hstay
  have hnewest' := hrecorded'.newest id m' hm' hstay'
  obtain ⟨hid, hfits⟩ := hrecorded.inv.holds id m hm
  obtain ⟨hid', hfits'⟩ := hrecorded'.inv.holds id m' hm'
  have hplace : m.place = m'.place := by rw [hfits.place, hfits'.place, hid, hid']
  have hreacted : m.fields.reacted = m'.fields.reacted :=
    ((hrecorded.sourced id).newest hnewest.fields).unique ((hrecorded'.sourced id).newest hnewest'.fields)
      hsame.reacted hconsistent.reacted
  have hcards := hnewest.cards.unique hnewest'.cards hsame.cards hconsistent.cards
  have hpoll := NewestPoll.unique hnewest.poll hnewest'.poll hsame.polls hconsistent.polls
  have hsteps : m.steps = m'.steps := by
    refine hfits.steps.ext hfits'.steps fun step => ⟨fun hs => ?_, fun hs => ?_⟩
    · exact hnewest.steps.subset hnewest'.steps hsame.steps hconsistent.steps hfits.steps.distinct hs
    · refine hnewest'.steps.subset hnewest.steps (fun x => (hsame.steps x).symm) (fun x hx y hy => ?_)
        hfits'.steps.distinct hs
      exact hconsistent.steps x ((hsame.steps x).mpr hx) y ((hsame.steps y).mpr hy)
  have hfields (hahead : CopyAhead (s.2 id)) : m.fields = m'.fields := by
    obtain ⟨f, hf, hlt⟩ := hahead
    have hahead' : CopyAhead (s'.2 id) := ⟨f, (hsame.copies f).mp hf, fun r hr => hlt r ((hsame.reactions r).mpr hr)⟩
    exact ((hrecorded.sourced id).newest_copy hnewest.fields ⟨f, hf, hlt⟩).unique
      ((hrecorded'.sourced id).newest_copy hnewest'.fields hahead') hsame.copies hconsistent.copies
  cases m
  cases m'
  refine ⟨?_, fun hahead => ?_⟩
  · simp_all [SameReacted, SameStamped, Message.place, Message.fields, Fields.reacted]
  · have := hfields hahead
    simp_all [SameStamped, Message.place, Message.fields]

end Agreement

/-- A page, and then an edit and reactions of an earlier moment, or of a later one. -/
def overtakingActs (reactedAt : String) (editFirst : Bool) : List (Act Nat) :=
  let edit := .updateMessage (sampleMessage 1 "4" 7)
  let reactions := .reactions 1 9 reactedAt
  .page (.room 1) ⟨[sampleMessage 1 "1" 0], none, none⟩ .replace none ::
    if editFirst then [edit, reactions] else [reactions, edit]

def afterOvertaking (reactedAt : String) (editFirst : Bool) : State Nat × (Int → Versions Nat) :=
  (overtakingActs reactedAt editFirst).foldl performNoted (initialState, fun _ => noVersions)

theorem reach_afterOvertaking (reactedAt : String) (editFirst : Bool) :
    Lib.ReachWhen (landedRuns Nat) (fun s act => act.Fits sampleWorld ∧ act.UpToDate s.1)
      (afterOvertaking reactedAt editFirst) := by
  refine Lib.reachWhen_foldl (fun _ _ => rfl) ⟨rfl, rfl⟩ fun act hact s => ?_
  have hcases : act = .page (.room 1) ⟨[sampleMessage 1 "1" 0], none, none⟩ .replace none ∨
      act = .updateMessage (sampleMessage 1 "4" 7) ∨ act = .reactions 1 9 reactedAt := by
    cases editFirst with
    | true => simpa [overtakingActs] using hact
    | false => simpa [overtakingActs, or_comm, or_left_comm] using hact
  obtain rfl | rfl | rfl := hcases
  · refine ⟨⟨fun m hm => ?_, List.pairwise_singleton _ _⟩, trivial⟩
    obtain rfl : m = _ := by simpa using hm
    exact ⟨fits_sampleMessage 1 _ _, rfl⟩
  · exact ⟨fits_sampleMessage 1 _ _, trivial⟩
  · exact ⟨trivial, trivial⟩

/-- What came of the message. -/
theorem came_afterOvertaking :
    (afterOvertaking "3" false).2 1 = ⟨[⟨"1", "", 0, 0⟩, ⟨"3", "", 9, 0⟩, ⟨"4", "", 0, 7⟩],
      [⟨"1", "", 0, 0⟩, ⟨"4", "", 0, 7⟩], [⟨"3", 9⟩], [⟨"", 0⟩, ⟨"", 0⟩], [], []⟩ ∧
    (afterOvertaking "3" true).2 1 = ⟨[⟨"1", "", 0, 0⟩, ⟨"4", "", 0, 7⟩, ⟨"3", "", 9, 7⟩],
      [⟨"1", "", 0, 0⟩, ⟨"4", "", 0, 7⟩], [⟨"3", 9⟩], [⟨"", 0⟩, ⟨"", 0⟩], [], []⟩ := by
  decide +kernel

/-- An edit, and reactions of before it, in both orders. -/
theorem agree_of_reach_sample :
    ∃ m m', (afterOvertaking "3" false).1.messages 1 = some m ∧ (afterOvertaking "3" true).1.messages 1 = some m' ∧
      m.value = 7 ∧ SameStamped m m' := by
  obtain ⟨hbehind, hfirst⟩ := came_afterOvertaking
  refine ⟨sampleMessage 1 "4" 7, sampleMessage 1 "4" 7, ?_, ?_, rfl,
    (@agree_of_reach Nat sampleWorld _ _ 1 _ _ _ (reach_afterOvertaking "3" false) (reach_afterOvertaking "3" true)
      ?_ ?_ ?_ ?_ ?_).2 ?_⟩
  · decide +kernel
  · decide +kernel
  · decide +kernel
  · decide +kernel
  · rw [hbehind, hfirst]
    exact ⟨fun _ => Iff.rfl, fun _ => Iff.rfl, fun _ => Iff.rfl, fun _ => Iff.rfl, fun _ => Iff.rfl⟩
  · rw [hbehind]
    exact ⟨by decide +kernel, by decide +kernel, by decide +kernel, fun a ha => (by cases ha),
      fun a ha => (by cases ha)⟩
  · rw [hbehind]
    exact fun p hp => (by cases hp)
  · rw [hbehind]
    exact ⟨⟨"4", "", 0, 7⟩, by decide, by decide +kernel⟩

/-- Reactions of after the edit: where they come first, the edit is taken for an older copy. -/
example : (afterOvertaking "5" true).1.messages 1 = some { sampleMessage 1 "5" 7 with reactions := 9 } ∧
    (afterOvertaking "5" false).1.messages 1 = some { sampleMessage 1 "5" 0 with reactions := 9 } := by
  decide +kernel

end Smartfire.Timelines
