/-
  File:      Smartfire/Store/Copies.lean
  Subject:   Two copies of one message (frontend/src/store/agents.ts, cards.ts, revision.ts).

  A message's copies come with pages, events and replies in any order. Its fields, its poll, its cards
  and each of its agent steps carry stamps of their own, and are merged apart from each other.

  The code tells whether a copy changed by identity: it answers the held object itself where nothing
  does. Here that answer is `none`. A type `V` holds what no merge looks into.

  * `mergeSteps`, `mergeMessageCopies`, `newerPoll`, `reconcileMessage` -- the merge;
  * `merged_mergeSteps` -- **merged steps are the newest of both sides**;
  * `kept_eq` -- **what is kept, component by component**.
-/
import Mathlib.Data.List.Induction
import Mathlib.Data.Prod.Lex
import Mathlib.Data.String.Basic
import Smartfire.Lib.Assoc
import Smartfire.Lib.Keyset

namespace Smartfire.Timelines

variable {V : Type}

/-! ## 1. Copies -/

structure AgentStep (V : Type) where
  id : Int
  position : Int
  updatedAt : String
  value : V
deriving DecidableEq, Repr

structure Poll (V : Type) where
  asOf : String
  closed : Bool
  value : V
deriving DecidableEq, Repr

/-- A message's reply summary. -/
structure ThreadIndicator (V : Type) where
  threadId : Int
  value : V
deriving DecidableEq, Repr

/-- `MessageDTO` -/
structure Message (V : Type) where
  id : Int
  roomId : Int
  threadId : Option Int
  createdAt : String
  clientMessageId : String
  updatedAt : String
  reactions : V
  value : V
  pinned : Bool
  thread : Option (ThreadIndicator V)
  poll : Option (Poll V)
  cards : V
  cardsAsOf : String
  steps : List (AgentStep V)
deriving DecidableEq, Repr

/-! ## 2. Agent steps -/

/-- `byId.get` -/
def stepOf (steps : List (AgentStep V)) (id : Int) : Option (AgentStep V) := steps.find? (·.id = id)

/-- `landsOver` -/
def landsOver (stored : Option (AgentStep V)) (incoming : AgentStep V) : Bool :=
  stored.all fun stored => decide (stored.updatedAt ≤ incoming.updatedAt)

/-- `byId.set` -/
def setStep (steps : List (AgentStep V)) (step : AgentStep V) : List (AgentStep V) :=
  if (stepOf steps step.id).isSome then steps.map fun s => if s.id = step.id then step else s
  else steps ++ [step]

/-- One round of `mergeSteps`: the steps by id, and whether one has changed. -/
def landStep [DecidableEq V] (acc : List (AgentStep V) × Bool) (step : AgentStep V) : List (AgentStep V) × Bool :=
  if landsOver (stepOf acc.1 step.id) step then
    (setStep acc.1 step, acc.2 || decide (stepOf acc.1 step.id ≠ some step))
  else acc

/-- `mergeSteps`; `none` where the held steps stay. -/
def mergeSteps [DecidableEq V] (held incoming : List (AgentStep V)) : Option (List (AgentStep V)) :=
  let landed := incoming.foldl landStep (held.foldl setStep [], false)
  if landed.2 then some (Lib.sortBy (fun s => toLex (s.position, s.id)) landed.1) else none

/-- `newerOnly` -/
def newerOnly (candidates base : List (AgentStep V)) : List (AgentStep V) :=
  candidates.filter fun step => (stepOf base step.id).all fun other => decide (other.updatedAt < step.updatedAt)

/-! ## 3. Messages -/

/-- Whether the incoming copy's fields are taken. -/
def incomingWins (held incoming : Message V) (incomingWinsTie : Bool) : Bool :=
  decide (held.updatedAt < incoming.updatedAt) || (incomingWinsTie && incoming.updatedAt = held.updatedAt)

/-- `mergeMessageCopies`, and whether it answers the held copy itself. -/
def mergeMessageCopies [DecidableEq V] (held incoming : Message V) (incomingWinsTie : Bool) : Message V × Bool :=
  if incomingWins held incoming incomingWinsTie then
    match mergeSteps incoming.steps (newerOnly held.steps incoming.steps) with
    | some steps => ({ incoming with steps := steps }, false)
    | none => (incoming, false)
  else
    match mergeSteps held.steps incoming.steps with
    | some steps => ({ held with steps := steps }, false)
    | none => (held, true)

/-- Whether `newerPoll` answers the held poll. -/
def keepsPoll (held incoming : Option (Poll V)) : Bool :=
  match held, incoming with
  | _, none => true
  | none, some _ => false
  | some held, some incoming =>
    (held.closed && (!incoming.closed || decide (incoming.asOf ≤ held.asOf))) || decide (incoming.asOf < held.asOf)

/-- `newerPoll` -/
def newerPoll (held incoming : Option (Poll V)) : Option (Poll V) := if keepsPoll held incoming then held else incoming

/-- `base.poll === poll`: the base's poll is the held or the incoming object, or both have none. -/
def samePoll (held incoming : Message V) (incomingWinsTie : Bool) : Bool :=
  keepsPoll held.poll incoming.poll != incomingWins held incoming incomingWinsTie ||
    (held.poll.isNone && incoming.poll.isNone)

/-- `incoming.cardsAsOf >= held.cardsAsOf` -/
def takesCards (held incoming : Message V) : Bool := decide (held.cardsAsOf ≤ incoming.cardsAsOf)

/-- `reconcileMessage`; `none` where the held copy itself is kept. -/
def reconcileMessage [DecidableEq V] (held? : Option (Message V)) (incoming : Message V) (incomingWinsTie : Bool) :
    Option (Message V) :=
  match held? with
  | none => some incoming
  | some held =>
    let base := mergeMessageCopies held incoming incomingWinsTie
    if samePoll held incoming incomingWinsTie &&
        takesCards held incoming == incomingWins held incoming incomingWinsTie then
      if base.2 then none else some base.1
    else
      let cardsFrom := if takesCards held incoming then incoming else held
      some { base.1 with
        poll := newerPoll held.poll incoming.poll, cards := cardsFrom.cards, cardsAsOf := cardsFrom.cardsAsOf }

/-- The copy that is kept. -/
def kept [DecidableEq V] (held? : Option (Message V)) (incoming : Message V) (incomingWinsTie : Bool) : Message V :=
  (reconcileMessage held? incoming incomingWinsTie).getD (held?.getD incoming)

/-! ## 4. Steps by their ids -/

section Steps

variable {steps held incoming : List (AgentStep V)} {step s : AgentStep V} {id : Int}

/-- Each step once. -/
def Distinct (steps : List (AgentStep V)) : Prop := (steps.map (·.id)).Nodup

theorem stepOf_eq_some (h : Distinct steps) : stepOf steps id = some s ↔ s ∈ steps ∧ s.id = id := by
  constructor
  · intro hs
    exact Lib.mem_of_find?_key hs
  · rintro ⟨hs, rfl⟩
    exact Lib.find?_keyed h hs

theorem stepOf_eq_none : stepOf steps id = none ↔ ∀ s ∈ steps, s.id ≠ id := by
  simp [stepOf]

theorem map_id_setStep (steps : List (AgentStep V)) (step : AgentStep V) :
    (setStep steps step).map (·.id) =
      if (stepOf steps step.id).isSome then steps.map (·.id) else steps.map (·.id) ++ [step.id] := by
  unfold setStep
  split
  · rw [List.map_map]
    refine List.map_congr_left fun s _ => ?_
    by_cases h : s.id = step.id <;> simp [h]
  · simp

theorem Distinct.setStep (h : Distinct steps) (step : AgentStep V) : Distinct (setStep steps step) := by
  unfold Distinct
  rw [map_id_setStep]
  split
  · exact h
  · next hnone =>
    have habsent : step.id ∉ steps.map (·.id) := by
      intro hmem
      obtain ⟨s, hs, hid⟩ := List.mem_map.mp hmem
      exact stepOf_eq_none.mp (by simpa using hnone) s hs hid
    simpa using h.concat habsent

/-- **A step is written, and the others stay.** -/
theorem mem_setStep (h : Distinct steps) : s ∈ setStep steps step ↔ s = step ∨ s ∈ steps ∧ s.id ≠ step.id := by
  unfold setStep
  split
  · next hsome =>
    obtain ⟨old, hold⟩ := Option.isSome_iff_exists.mp hsome
    obtain ⟨hmem, hid⟩ := (stepOf_eq_some h).mp hold
    rw [List.mem_map]
    constructor
    · rintro ⟨s', hs', rfl⟩
      by_cases hs'id : s'.id = step.id
      · exact .inl (by simp [hs'id])
      · exact .inr (by simp [hs'id, hs'])
    · rintro (rfl | ⟨hs, hne⟩)
      · exact ⟨old, hmem, by simp [hid]⟩
      · exact ⟨s, hs, by simp [hne]⟩
  · next hnone =>
    have habsent := stepOf_eq_none.mp (by simpa using hnone : stepOf steps step.id = none)
    rw [List.mem_append, List.mem_singleton]
    constructor
    · rintro (hs | rfl)
      · exact .inr ⟨hs, habsent s hs⟩
      · exact .inl rfl
    · rintro (rfl | ⟨hs, -⟩)
      · exact .inr rfl
      · exact .inl hs

/-- Writing a step that is there changes nothing. -/
theorem setStep_self (h : Distinct steps) (hs : s ∈ steps) : setStep steps s = steps := by
  have hsome : stepOf steps s.id = some s := (stepOf_eq_some h).mpr ⟨hs, rfl⟩
  rw [setStep, if_pos (by rw [hsome]; rfl)]
  have hall : ∀ other ∈ steps, (if other.id = s.id then s else other) = other := by
    intro other hother
    split
    · next hid =>
      have hfound := (stepOf_eq_some h).mpr ⟨hother, hid⟩
      rw [hsome] at hfound
      exact Option.some.inj hfound
    · rfl
  exact (List.map_congr_left hall).trans (List.map_id'' (fun _ => rfl) steps)

/-- A list of distinct steps is read into the map as it is. -/
theorem foldl_setStep (h : Distinct held) : held.foldl setStep [] = held := by
  have hgo : ∀ front : List (AgentStep V), Distinct (front ++ held) → held.foldl setStep front = front ++ held := by
    clear h
    induction held with
    | nil => simp
    | cons s held ih =>
      intro front hfront
      have habsent : stepOf front s.id = none := by
        refine stepOf_eq_none.mpr fun other hother hid => ?_
        have hnodup : (front.map (·.id) ++ (s :: held).map (·.id)).Nodup := by simpa [Distinct] using hfront
        have hdisjoint := (List.nodup_append.mp hnodup).2.2
        exact hdisjoint _ (List.mem_map_of_mem hother) _ List.mem_cons_self hid
      have hset : setStep front s = front ++ [s] := by simp [setStep, habsent]
      rw [List.foldl_cons, hset, ih (front ++ [s]) (by simpa using hfront)]
      simp
  exact hgo [] h

/-- What landing steps one after the other makes of the held ones. -/
structure Landed (held incoming : List (AgentStep V)) (result : List (AgentStep V) × Bool) : Prop where
  distinct : Distinct result.1
  same : result.2 = false → result.1 = held
  overHeld : ∀ s ∈ held, ∃ s' ∈ result.1, s'.id = s.id ∧ s.updatedAt ≤ s'.updatedAt
  overIncoming : ∀ s ∈ incoming, ∃ s' ∈ result.1, s'.id = s.id ∧ s.updatedAt ≤ s'.updatedAt
  source : ∀ s ∈ result.1, s ∈ held ∨ s ∈ incoming

theorem landed_step [DecidableEq V] {result : List (AgentStep V) × Bool} (h : Landed held incoming result)
    (step : AgentStep V) : Landed held (incoming ++ [step]) (landStep result step) := by
  by_cases hlands : landsOver (stepOf result.1 step.id) step = true
  · -- the step lands
    have hmem (s : AgentStep V) := @mem_setStep V result.1 step s h.distinct
    -- what was there is kept, or is what the step lands over
    have hkeeps : ∀ s' ∈ result.1, ∃ s'' ∈ setStep result.1 step, s''.id = s'.id ∧ s'.updatedAt ≤ s''.updatedAt := by
      intro s' hs'
      by_cases hid : s'.id = step.id
      · have hfound := (stepOf_eq_some h.distinct).mpr ⟨hs', hid⟩
        rw [hfound] at hlands
        exact ⟨step, (hmem step).mpr (.inl rfl), hid.symm, by simpa [landsOver] using hlands⟩
      · exact ⟨s', (hmem s').mpr (.inr ⟨hs', hid⟩), rfl, le_refl _⟩
    rw [landStep, if_pos hlands]
    refine ⟨h.distinct.setStep step, fun hsame => ?_, fun s hs => ?_, fun s hs => ?_, fun s hs => ?_⟩
    · simp only [Bool.or_eq_false_iff, decide_eq_false_iff_not, not_not] at hsame
      obtain ⟨hresult, hfound⟩ := hsame
      rw [setStep_self h.distinct ((stepOf_eq_some h.distinct).mp hfound).1]
      exact h.same hresult
    · obtain ⟨s', hs', hid, hle⟩ := h.overHeld s hs
      obtain ⟨s'', hs'', hid', hle'⟩ := hkeeps s' hs'
      exact ⟨s'', hs'', hid'.trans hid, hle.trans hle'⟩
    · obtain hs | hs := List.mem_append.mp hs
      · obtain ⟨s', hs', hid, hle⟩ := h.overIncoming s hs
        obtain ⟨s'', hs'', hid', hle'⟩ := hkeeps s' hs'
        exact ⟨s'', hs'', hid'.trans hid, hle.trans hle'⟩
      · obtain rfl := List.mem_singleton.mp hs
        exact ⟨s, (hmem s).mpr (.inl rfl), rfl, le_refl _⟩
    · obtain rfl | ⟨hs, -⟩ := (hmem s).mp hs
      · exact .inr (List.mem_append_right _ List.mem_cons_self)
      · exact (h.source s hs).imp_right (List.mem_append_left _)
  · -- the held copy of it is newer
    obtain ⟨newer, hnewer, hlt⟩ : ∃ newer, stepOf result.1 step.id = some newer ∧ step.updatedAt < newer.updatedAt := by
      cases hfound : stepOf result.1 step.id with
      | none => simp [hfound, landsOver] at hlands
      | some newer => exact ⟨newer, rfl, by simpa [hfound, landsOver] using hlands⟩
    obtain ⟨hmem, hid⟩ := (stepOf_eq_some h.distinct).mp hnewer
    rw [landStep, if_neg hlands]
    refine ⟨h.distinct, h.same, h.overHeld, fun s hs => ?_,
      fun s hs => (h.source s hs).imp_right (List.mem_append_left _)⟩
    obtain hs | hs := List.mem_append.mp hs
    · exact h.overIncoming s hs
    · obtain rfl := List.mem_singleton.mp hs
      exact ⟨newer, hmem, hid, hlt.le⟩

theorem landed_foldl [DecidableEq V] (h : Distinct held) (incoming : List (AgentStep V)) :
    Landed held incoming (incoming.foldl landStep (held, false)) := by
  induction incoming using List.reverseRecOn with
  | nil => exact ⟨h, fun _ => rfl, fun s hs => ⟨s, hs, rfl, le_refl _⟩, fun s hs => (by cases hs), fun s hs => .inl hs⟩
  | append_singleton incoming step ih =>
    rw [List.foldl_append]
    exact landed_step ih step

/-- **Merged steps**: of each id the newest copy, from one side or the other. -/
structure Merged (held incoming result : List (AgentStep V)) : Prop where
  distinct : Distinct result
  overHeld : ∀ s ∈ held, ∃ s' ∈ result, s'.id = s.id ∧ s.updatedAt ≤ s'.updatedAt
  overIncoming : ∀ s ∈ incoming, ∃ s' ∈ result, s'.id = s.id ∧ s.updatedAt ≤ s'.updatedAt
  source : ∀ s ∈ result, s ∈ held ∨ s ∈ incoming

theorem merged_mergeSteps [DecidableEq V] (h : Distinct held) (incoming : List (AgentStep V)) :
    Merged held incoming ((mergeSteps held incoming).getD held) := by
  have hlanded := landed_foldl h incoming
  unfold mergeSteps
  rw [foldl_setStep h]
  generalize incoming.foldl landStep (held, false) = result at hlanded
  cases hchanged : result.2 with
  | false =>
    have hsame := hlanded.same hchanged
    simp only [hchanged, Bool.false_eq_true, if_false, Option.getD_none]
    exact ⟨h, hsame ▸ hlanded.overHeld, hsame ▸ hlanded.overIncoming, hsame ▸ hlanded.source⟩
  | true =>
    have hperm := Lib.sortBy_perm (fun s : AgentStep V => toLex (s.position, s.id)) result.1
    simp only [hchanged, if_true, Option.getD_some]
    have hover (s : AgentStep V) (hs : ∃ s' ∈ result.1, s'.id = s.id ∧ s.updatedAt ≤ s'.updatedAt) :
        ∃ s' ∈ Lib.sortBy (fun s : AgentStep V => toLex (s.position, s.id)) result.1,
          s'.id = s.id ∧ s.updatedAt ≤ s'.updatedAt := by
      obtain ⟨s', hs', hle⟩ := hs
      exact ⟨s', hperm.mem_iff.mpr hs', hle⟩
    exact ⟨((hperm.map _).nodup_iff).mpr hlanded.distinct, fun s hs => hover s (hlanded.overHeld s hs),
      fun s hs => hover s (hlanded.overIncoming s hs), fun s hs => hlanded.source s (hperm.mem_iff.mp hs)⟩

/-- Where the incoming copy's fields are taken, the held steps that are newer still count. -/
theorem merged_newerOnly [DecidableEq V] (held : List (AgentStep V)) (h : Distinct incoming) :
    Merged held incoming ((mergeSteps incoming (newerOnly held incoming)).getD incoming) := by
  have hmerged := merged_mergeSteps h (newerOnly held incoming)
  refine ⟨hmerged.distinct, fun s hs => ?_, hmerged.overHeld, fun s hs => ?_⟩
  · cases hother : stepOf incoming s.id with
    | none => exact hmerged.overIncoming s (List.mem_filter.mpr ⟨hs, by simp [hother]⟩)
    | some other =>
      obtain ⟨hmem, hid⟩ := (stepOf_eq_some h).mp hother
      by_cases hlt : other.updatedAt < s.updatedAt
      · exact hmerged.overIncoming s (List.mem_filter.mpr ⟨hs, by simpa [hother] using hlt⟩)
      · obtain ⟨s', hs', hid', hle⟩ := hmerged.overHeld other hmem
        exact ⟨s', hs', hid'.trans hid, (not_lt.mp hlt).trans hle⟩
  · exact (hmerged.source s hs).symm.imp_left fun hs => List.mem_of_mem_filter hs

end Steps

/-! ## 5. The kept copy -/

section Kept

variable {held incoming : Message V} {tie : Bool}

/-- The steps of the merge. -/
def mergedSteps [DecidableEq V] (held incoming : Message V) (tie : Bool) : List (AgentStep V) :=
  if incomingWins held incoming tie then
    (mergeSteps incoming.steps (newerOnly held.steps incoming.steps)).getD incoming.steps
  else (mergeSteps held.steps incoming.steps).getD held.steps

/-- Steps as they are shown: each once, and in order. -/
structure Shown (steps : List (AgentStep V)) : Prop where
  distinct : Distinct steps
  order : steps.Pairwise fun a b => toLex (a.position, a.id) ≤ toLex (b.position, b.id)

theorem Shown.mergeSteps [DecidableEq V] {steps : List (AgentStep V)} (h : Shown steps) (more : List (AgentStep V)) :
    Shown ((mergeSteps steps more).getD steps) := by
  refine ⟨(merged_mergeSteps h.distinct more).distinct, ?_⟩
  unfold Timelines.mergeSteps
  dsimp only
  split
  · exact Lib.sortBy_le _ _
  · exact h.order

theorem shown_mergedSteps [DecidableEq V] (hheld : Shown held.steps) (hincoming : Shown incoming.steps) (tie : Bool) :
    Shown (mergedSteps held incoming tie) := by
  unfold mergedSteps
  split
  · exact hincoming.mergeSteps _
  · exact hheld.mergeSteps _

theorem merged_mergedSteps [DecidableEq V] (hheld : Distinct held.steps) (hincoming : Distinct incoming.steps)
    (tie : Bool) : Merged held.steps incoming.steps (mergedSteps held incoming tie) := by
  unfold mergedSteps
  split
  · exact merged_newerOnly held.steps hincoming
  · exact merged_mergeSteps hheld incoming.steps

theorem mergeMessageCopies_eq [DecidableEq V] (held incoming : Message V) (tie : Bool) :
    mergeMessageCopies held incoming tie =
      ({ (if incomingWins held incoming tie then incoming else held) with steps := mergedSteps held incoming tie },
        !incomingWins held incoming tie && (mergeSteps held.steps incoming.steps).isNone) := by
  unfold mergeMessageCopies mergedSteps
  cases incomingWins held incoming tie with
  | false => cases mergeSteps held.steps incoming.steps <;> rfl
  | true => cases mergeSteps incoming.steps (newerOnly held.steps incoming.steps) <;> rfl

/-- **What is kept**, component by component. -/
theorem kept_eq [DecidableEq V] (held incoming : Message V) (tie : Bool) :
    kept (some held) incoming tie =
      { (if incomingWins held incoming tie then incoming else held) with
        poll := newerPoll held.poll incoming.poll
        cards := if held.cardsAsOf ≤ incoming.cardsAsOf then incoming.cards else held.cards
        cardsAsOf := if held.cardsAsOf ≤ incoming.cardsAsOf then incoming.cardsAsOf else held.cardsAsOf
        steps := mergedSteps held incoming tie } := by
  -- where the objects are the base's, so are their contents
  have hpoll : samePoll held incoming tie = true →
      (if incomingWins held incoming tie then incoming else held).poll = newerPoll held.poll incoming.poll := by
    intro hsame
    obtain hside | hnull := (Bool.or_eq_true _ _).mp hsame
    · cases hwins : incomingWins held incoming tie <;> simp [hwins] at hside <;> simp [newerPoll, hside]
    · simp only [Bool.and_eq_true, Option.isNone_iff_eq_none] at hnull
      cases incomingWins held incoming tie <;> simp [newerPoll, hnull]
  have hcards : (takesCards held incoming == incomingWins held incoming tie) = true →
      (if incomingWins held incoming tie then incoming else held) =
        if takesCards held incoming then incoming else held := by
    intro hsame
    rw [eq_of_beq hsame]
  have hsteps : incomingWins held incoming tie = false → (mergeSteps held.steps incoming.steps).isNone = true →
      mergedSteps held incoming tie = held.steps := by
    intro hwins hnone
    rw [mergedSteps, hwins, Option.isNone_iff_eq_none.mp hnone]
    rfl
  have hfrom : (if takesCards held incoming then incoming else held).cards =
      (if held.cardsAsOf ≤ incoming.cardsAsOf then incoming.cards else held.cards) ∧
      (if takesCards held incoming then incoming else held).cardsAsOf =
        if held.cardsAsOf ≤ incoming.cardsAsOf then incoming.cardsAsOf else held.cardsAsOf := by
    by_cases h : held.cardsAsOf ≤ incoming.cardsAsOf <;> simp [takesCards, h]
  rw [← hfrom.1, ← hfrom.2]
  simp only [kept, reconcileMessage, mergeMessageCopies_eq]
  split
  · next hsame =>
    obtain ⟨hsamePoll, hsameCards⟩ := (Bool.and_eq_true _ _).mp hsame
    rw [← hpoll hsamePoll, ← hcards hsameCards]
    split
    · next hheld =>
      obtain ⟨hwins, hnone⟩ := (Bool.and_eq_true _ _).mp hheld
      rw [hsteps (by simpa using hwins) hnone]
      simp [Bool.not_eq_true' _ |>.mp hwins]
    · rfl
  · rfl

theorem updatedAt_winner (held incoming : Message V) (tie : Bool) :
    held.updatedAt ≤ (if incomingWins held incoming tie then incoming else held).updatedAt ∧
      incoming.updatedAt ≤ (if incomingWins held incoming tie then incoming else held).updatedAt := by
  by_cases hlt : held.updatedAt < incoming.updatedAt
  · simp [incomingWins, hlt, hlt.le]
  · have hle := not_lt.mp hlt
    split
    · next hwins =>
      simp [incomingWins, hlt] at hwins
      exact ⟨hwins.2.ge, le_refl _⟩
    · exact ⟨le_refl _, hle⟩

end Kept

end Smartfire.Timelines
