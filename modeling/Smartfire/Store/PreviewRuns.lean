/-
  File:      Smartfire/Store/PreviewRuns.lean
  Subject:   A superseded preview fetch never lands, as long as its entry was not dropped.

  While an entry stays, its generation tells the fetches of its key apart: a fetch that was
  superseded, or whose GitHub preview was marked stale, holds a smaller one. A dropped entry takes its
  count along, and a reply to an event answer lands under the generation of the fetch on its way: the
  older fetch's answer is let in when its key was not fetched again, or as often again as it had been.

  * `PreviewEvent` -- what the record of a run tells of a key; `turn`, `occupied` -- read off it;
  * `Fetch` -- a fetch, with what happened since it started; `Answered` -- an answer that arrived;
  * `OutOfTurn` -- the condition: which fetches started when an answer that outlived its entry, or a
    reply, arrives;
  * `PreviewRun.Inv` -- what a run keeps of each entry and each fetch;
  * `PreviewRun.Inv.outdated_iff` -- such an answer is turned away just when the condition holds;
  * `previews_settled_of_reach` -- the property, of every run that meets the condition;
  * `lands_late` -- runs that do not.
-/
import Smartfire.Lib.History
import Smartfire.Lib.Runs
import Smartfire.Store.Previews

namespace Smartfire

open Lib

/-! ## 1. What happens to a key -/

/-- The card that previews this ref. -/
def cardOf (kind : PreviewKind) (ref : Nat) : MessageCard :=
  match kind with
  | .github => .github ref
  | .fizzy => .fizzy ref
  | .quotes => .quote ref
  | .attendance => .event ref

/-- What the record of a run tells. -/
inductive PreviewEvent where
  /-- A fetch started. -/
  | started (target : PreviewTarget)
  /-- These refs were invalidated. -/
  | invalidated (named : PreviewKind → Nat → Bool)
  /-- The reply to an answer of this event became its attendance. -/
  | replied (eventId : Nat)

/-- It drops the target's entry: GitHub's stay. -/
def PreviewEvent.drops (t : PreviewTarget) : PreviewEvent → Bool
  | .invalidated named => named t.kind t.ref && decide (t.kind ≠ .github)
  | _ => false

/-- It is a fetch of the target's key. -/
def PreviewEvent.starts (t : PreviewTarget) : PreviewEvent → Bool
  | .started u => decide (u.kind = t.kind ∧ u.key = t.key)
  | _ => false

/-- It makes the target's entry a reply. -/
def PreviewEvent.replies (t : PreviewTarget) : PreviewEvent → Bool
  | .replied eventId => decide (PreviewKind.attendance = t.kind ∧ attendanceKey eventId = t.key)
  | _ => false

/-- How many fetches of the key started since its entry was last dropped. -/
def turn (past : List PreviewEvent) (t : PreviewTarget) : Nat :=
  (since (PreviewEvent.drops t) past).countP (PreviewEvent.starts t)

/-- The key was fetched, or replied to, since its entry was last dropped. -/
def occupied (past : List PreviewEvent) (t : PreviewTarget) : Bool :=
  (since (PreviewEvent.drops t) past).any fun e => e.starts t || e.replies t

section Record

variable {past : List PreviewEvent} {e : PreviewEvent} {t : PreviewTarget}

theorem turn_of_drops (h : e.drops t = true) : turn (e :: past) t = 0 := by
  simp [turn, since_cons_of_reset h]

theorem occupied_of_drops (h : e.drops t = true) : occupied (e :: past) t = false := by
  simp [occupied, since_cons_of_reset h]

theorem turn_cons (h : e.drops t = false) :
    turn (e :: past) t = turn past t + if e.starts t then 1 else 0 := by
  simp only [turn, since_cons h, List.countP_cons]

theorem occupied_cons (h : e.drops t = false) :
    occupied (e :: past) t = (e.starts t || e.replies t || occupied past t) := by
  simp only [occupied, since_cons h, List.any_cons]

end Record

/-! ## 2. The runs -/

section Runs

variable {V : Type}

/-- How a fetch was answered. -/
inductive FetchOutcome (V : Type) where
  | loaded (value : V) (now : Nat)
  | failed (error : String)
deriving DecidableEq, Repr

/-- A fetch that started, the generation it was given, and what happened since. -/
structure Fetch (V : Type) where
  target : PreviewTarget
  generation : Nat
  /-- How many fetches of its key had started since its entry was last dropped, itself the last. -/
  turn : Nat
  /-- A later fetch of its key started. -/
  superseded : Bool
  /-- Its ref was invalidated. -/
  invalidated : Bool
  /-- The invalidation dropped the entries of its ref. -/
  dropped : Bool
  /-- The reply to an answer of its event became the attendance. -/
  settled : Bool
  /-- Its latest answer. -/
  answer : Option (FetchOutcome V)
deriving DecidableEq, Repr

/-- Nothing it answers may change the preview any more. -/
def Fetch.stale (f : Fetch V) : Bool := f.superseded || f.invalidated || f.settled

/-- The fetch is of this entry. -/
def Fetch.Of (f : Fetch V) (kind : PreviewKind) (key : String) : Prop := f.target.kind = kind ∧ f.target.key = key

instance (f : Fetch V) (kind : PreviewKind) (key : String) : Decidable (f.Of kind key) :=
  inferInstanceAs (Decidable (_ ∧ _))

/-- An answer that arrived: the fetch as it then was, and its preview before and after. -/
structure Answered (V : Type) where
  fetch : Fetch V
  before : Option (Preview V)
  after : Option (Preview V)
deriving DecidableEq, Repr

structure PreviewRun (V : Type) where
  state : PreviewState V
  /-- The record, the newest first. -/
  past : List PreviewEvent
  /-- The fetches, in the order they started. -/
  fetches : List (Fetch V)
  /-- The answers, the newest first. -/
  log : List (Answered V)

inductive PreviewOp (V : Type) where
  /-- A copy of a message lands. -/
  | receive (messageId : Nat) (held : HeldCards)
  | applyMessageCards (change : MessageCards)
  | invalidateGithub (pullRequestId : Nat)
  | previewLoading (target : PreviewTarget)
  /-- The fetch of this number, in the order they started, is answered. -/
  | answered (number : Nat) (outcome : FetchOutcome V)
  | setPendingAnswer (eventId : Nat) (answer : Option Nat)
  | settleAnswer (eventId answer : Nat) (reply : Option V) (now : Nat)
deriving DecidableEq, Repr

/-- `previewLoaded` or `previewFailed`, with the fetch's generation. -/
def land (s : PreviewState V) (f : Fetch V) : FetchOutcome V → PreviewState V
  | .loaded value now => previewLoaded s f.target.kind f.target.key f.target.ref value now f.generation
  | .failed error => previewFailed s f.target.kind f.target.key f.target.ref error f.generation

/-- The generation an entry has. -/
def generationOf (s : PreviewState V) (target : PreviewTarget) : Nat :=
  ((s.previews target.kind target.key).map Preview.generation).getD 0

/-- What a later fetch of its key makes of a fetch. -/
def Fetch.supersede (target : PreviewTarget) (f : Fetch V) : Fetch V :=
  { f with superseded := f.superseded || decide (f.Of target.kind target.key) }

/-- What the invalidation of these refs makes of it; the entries of a GitHub ref stay. -/
def Fetch.invalidate (named : PreviewKind → Nat → Bool) (f : Fetch V) : Fetch V :=
  { f with
    invalidated := f.invalidated || named f.target.kind f.target.ref
    dropped := f.dropped || (named f.target.kind f.target.ref && decide (f.target.kind ≠ .github)) }

/-- What the reply to an answer of this event makes of it. -/
def Fetch.settle (eventId : Nat) (f : Fetch V) : Fetch V :=
  { f with settled := f.settled || decide (f.Of .attendance (attendanceKey eventId)) }

/-- A `message.cards` event names the refs of the message's old and new cards, unless the message is
    not held or its cards are newer. -/
def namedBy (s : PreviewState V) (change : MessageCards) (kind : PreviewKind) (ref : Nat) : Bool :=
  (s.messages change.messageId).any fun held =>
    if change.asOf < held.cardsAsOf then false else decide (cardOf kind ref ∈ held.cards ++ change.cards)

/-- One pull request. -/
def pullRequestNamed (pullRequestId : Nat) (kind : PreviewKind) (ref : Nat) : Bool :=
  decide (kind = .github ∧ ref = pullRequestId)

namespace PreviewRun

def step (s : PreviewRun V) : PreviewOp V → Option (PreviewRun V)
  | .receive messageId held =>
    some { s with state := { s.state with
      messages := fun id => if id = messageId then some held else s.state.messages id } }
  | .applyMessageCards change =>
    some { s with
      state := applyMessageCards s.state change
      past := .invalidated (namedBy s.state change) :: s.past
      fetches := s.fetches.map (Fetch.invalidate (namedBy s.state change)) }
  | .invalidateGithub pullRequestId =>
    some { s with
      state := Smartfire.invalidateGithub s.state pullRequestId
      past := .invalidated (pullRequestNamed pullRequestId) :: s.past
      fetches := s.fetches.map (Fetch.invalidate (pullRequestNamed pullRequestId)) }
  | .previewLoading target =>
    let state := Smartfire.previewLoading s.state target.kind target.key target.ref
    let past := .started target :: s.past
    some { s with
      state := state
      past := past
      fetches := s.fetches.map (Fetch.supersede target) ++
        [⟨target, generationOf state target, turn past target, false, false, false, false, none⟩] }
  | .answered number outcome =>
    (s.fetches[number]?).map fun f =>
      let state := land s.state f outcome
      { state := state
        past := s.past
        fetches := s.fetches.set number { f with answer := some outcome }
        log := ⟨f, s.state.previews f.target.kind f.target.key, state.previews f.target.kind f.target.key⟩ :: s.log }
  | .setPendingAnswer eventId answer => some { s with state := Smartfire.setPendingAnswer s.state eventId answer }
  | .settleAnswer eventId answer reply now =>
    some { s with
      state := settleAnswer s.state eventId answer reply now
      past := if reply.isSome then .replied eventId :: s.past else s.past
      fetches := if reply.isSome then s.fetches.map (Fetch.settle eventId) else s.fetches }

end PreviewRun

/-- Every interleaving of fetches, answers, invalidations and replies. -/
def previewRuns (V : Type) : System (PreviewRun V) (PreviewOp V) where
  start s := s = ⟨emptyPreviews V, [], [], []⟩
  step := PreviewRun.step

/-! ## 3. What is claimed -/

/-- The preview shows the answer. -/
def Shows (p : Preview V) : FetchOutcome V → Prop
  | .loaded value now => p.status = .ready ∧ p.value = some value ∧ p.fetchedAt = now
  | .failed error => p.status = .error ∧ p.error = some error

/-- **A superseded fetch never lands**, the newest one's answer is shown, and a dropped preview is gone
    until its key is fetched or replied to. -/
structure PreviewRun.Settled (s : PreviewRun V) : Prop where
  unchanged : ∀ a ∈ s.log, a.fetch.stale = true → a.after = a.before
  shown : ∀ f ∈ s.fetches, f.stale = false → ∀ outcome, f.answer = some outcome →
    ∃ p, s.state.previews f.target.kind f.target.key = some p ∧ Shows p outcome
  gone : ∀ t : PreviewTarget, t.kind ≠ .github → occupied s.past t = false →
    s.state.previews t.kind t.key = none

/-- The fetch started before its entry was dropped, or before a reply became the attendance. -/
def Fetch.outlived (f : Fetch V) : Bool := f.dropped || f.settled

/-- **The condition**: when an answer arrives that outlived its entry, or a reply, its key was fetched
    or replied to since the last drop, but not fetched as often as it had been when the answer's own
    fetch started. -/
def OutOfTurn (s : PreviewRun V) : PreviewOp V → Prop
  | .answered number _ => ∀ f, s.fetches[number]? = some f → f.outlived = true →
      occupied s.past f.target = true ∧ turn s.past f.target ≠ f.turn
  | _ => True

end Runs

/-! ## 4. What a step does to an entry -/

section Entries

variable {V : Type} {s : PreviewState V} {f : Fetch V} {kind : PreviewKind} {key : String} {p : Preview V}

theorem setPreview_self : (setPreview s kind key p).previews kind key = some p := by
  simp [setPreview]

theorem setPreview_other {kind' : PreviewKind} {key' : String} (h : ¬ (kind' = kind ∧ key' = key)) :
    (setPreview s kind key p).previews kind' key' = s.previews kind' key' := by
  show (if kind' = kind ∧ key' = key then some p else s.previews kind' key') = _
  rw [if_neg h]

/-- **What a fetch does when it starts**: its entry has the next generation. -/
theorem previewLoading_entry (s : PreviewState V) (t : PreviewTarget) :
    ∃ q, previewLoading s t.kind t.key t.ref = setPreview s t.kind t.key q ∧ q.ref = t.ref ∧
      q.generation = ((s.previews t.kind t.key).map Preview.generation).getD 0 + 1 :=
  ⟨_, rfl, rfl, rfl⟩

theorem previewLoaded_eq {ref now generation : Nat} {value : V}
    (hout : outdated (s.previews kind key) generation = false) :
    previewLoaded s kind key ref value now generation =
      setPreview s kind key ⟨.ready, some value, none, ref, now, generation⟩ := by
  rw [previewLoaded, if_neg (by rw [hout]; exact Bool.false_ne_true)]

theorem previewFailed_eq {ref generation : Nat} {error : String}
    (hout : outdated (s.previews kind key) generation = false) :
    previewFailed s kind key ref error generation =
      setPreview s kind key ⟨.error, (s.previews kind key).bind Preview.value, some error, ref,
        ((s.previews kind key).map Preview.fetchedAt).getD 0, generation⟩ := by
  unfold previewFailed
  dsimp only
  rw [if_neg (by rw [hout]; exact Bool.false_ne_true)]

/-- **What an answer does**: nothing where the entry has moved on; else it is shown, under the fetch's
    generation and ref. -/
theorem land_cases (s : PreviewState V) (f : Fetch V) (outcome : FetchOutcome V) :
    (outdated (s.previews f.target.kind f.target.key) f.generation = true ∧ land s f outcome = s) ∨
      (outdated (s.previews f.target.kind f.target.key) f.generation = false ∧ ∃ p,
        land s f outcome = setPreview s f.target.kind f.target.key p ∧ Shows p outcome ∧
        p.generation = f.generation ∧ p.ref = f.target.ref) := by
  cases hout : outdated (s.previews f.target.kind f.target.key) f.generation with
  | true =>
    refine .inl ⟨rfl, ?_⟩
    cases outcome with
    | loaded value now => simp [land, previewLoaded, hout]
    | failed error => simp [land, previewFailed, hout]
  | false =>
    refine .inr ⟨rfl, ?_⟩
    cases outcome with
    | loaded value now =>
      exact ⟨_, previewLoaded_eq hout, ⟨rfl, rfl, rfl⟩, rfl, rfl⟩
    | failed error =>
      exact ⟨_, previewFailed_eq hout, ⟨rfl, rfl⟩, rfl, rfl⟩

/-- **What a reply does**: it becomes the attendance under the generation the entry had. -/
theorem settleAnswer_previews (s : PreviewState V) (eventId answer : Nat) (reply : Option V) (now : Nat) :
    (settleAnswer s eventId answer reply now).previews = s.previews ∧ reply = none ∨
      ∃ p : Preview V, (settleAnswer s eventId answer reply now).previews =
          (setPreview s .attendance (attendanceKey eventId) p).previews ∧
        reply.isSome = true ∧ p.ref = eventId ∧
        p.generation = ((s.previews .attendance (attendanceKey eventId)).map Preview.generation).getD 0 := by
  have hdrop : ∀ t : PreviewState V, (if t.pendingAnswers eventId = some answer then setPendingAnswer t eventId none
      else t).previews = t.previews := fun t => by split <;> rfl
  cases reply with
  | none => exact .inl ⟨hdrop s, rfl⟩
  | some reply =>
    have hout : outdated (s.previews .attendance (attendanceKey eventId))
        (((s.previews .attendance (attendanceKey eventId)).map Preview.generation).getD 0) = false := by
      cases s.previews .attendance (attendanceKey eventId) <;> simp [outdated]
    exact .inr ⟨_, (hdrop _).trans (congrArg PreviewState.previews (previewLoaded_eq hout)), rfl, rfl, rfl⟩

/-- **What an invalidation does to an entry**: a GitHub one of these refs moves on, and one of another
    kind is dropped; the others stay. -/
theorem invalidate_entry (refs : PreviewKind → List Nat) (previews : PreviewTables V) (h : previews kind key = some p) :
    (p.ref ∉ refs kind ∧ invalidate refs previews kind key = some p) ∨
      (p.ref ∈ refs kind ∧ kind ≠ .github ∧ invalidate refs previews kind key = none) ∨
      (p.ref ∈ refs kind ∧ kind = .github ∧ ∃ p', invalidate refs previews kind key = some p' ∧
        p'.ref = p.ref ∧ p'.generation = p.generation + 1) := by
  by_cases hin : p.ref ∈ refs kind
  · cases kind with
    | github => exact .inr (.inr ⟨hin, rfl, by simp [invalidate, restaleGithub, h, hin]⟩)
    | fizzy => exact .inr (.inl ⟨hin, by decide, by simp [invalidate, withoutRefs, h, hin]⟩)
    | quotes => exact .inr (.inl ⟨hin, by decide, by simp [invalidate, withoutRefs, h, hin]⟩)
    | attendance => exact .inr (.inl ⟨hin, by decide, by simp [invalidate, withoutRefs, h, hin]⟩)
  · refine .inl ⟨hin, ?_⟩
    cases kind with
    | github => simp [invalidate, restaleGithub, h, hin]
    | fizzy => simp [invalidate, withoutRefs, h, hin]
    | quotes => simp [invalidate, withoutRefs, h, hin]
    | attendance => simp [invalidate, withoutRefs, h, hin]

theorem invalidate_none (refs : PreviewKind → List Nat) (previews : PreviewTables V) (h : previews kind key = none) :
    invalidate refs previews kind key = none := by
  cases kind with
  | github => simp [invalidate, restaleGithub, h]
  | fizzy => simp [invalidate, withoutRefs, h]
  | quotes => simp [invalidate, withoutRefs, h]
  | attendance => simp [invalidate, withoutRefs, h]

/-- Invalidating no ref changes nothing. -/
theorem invalidate_nil (previews : PreviewTables V) : invalidate (fun _ => []) previews = previews := by
  funext kind key
  cases h : previews kind key with
  | none => exact invalidate_none _ _ h
  | some p =>
    rcases invalidate_entry (fun _ => []) previews h with ⟨-, heq⟩ | ⟨hin, -⟩ | ⟨hin, -⟩
    · exact heq
    · cases hin
    · cases hin

theorem mem_previewRefs {cards : List MessageCard} {ref : Nat} :
    ref ∈ previewRefs cards kind ↔ cardOf kind ref ∈ cards := by
  have hcard : ∀ card : MessageCard, (card.previewRef.filter fun q => q.1 = kind).map Prod.snd = some ref ↔
      card = cardOf kind ref := fun card => by
    cases card <;> cases kind <;> simp [MessageCard.previewRef, cardOf]
  simp only [previewRefs, List.mem_filterMap, hcard, exists_eq_right]

/-- The lists of refs are those of the names. -/
def Lists (refs : PreviewKind → List Nat) (named : PreviewKind → Nat → Bool) : Prop :=
  ∀ kind ref, ref ∈ refs kind ↔ named kind ref = true

theorem applyMessageCards_previews (s : PreviewState V) (change : MessageCards) :
    ∃ refs, Lists refs (namedBy s change) ∧ (applyMessageCards s change).previews = invalidate refs s.previews := by
  cases hheld : s.messages change.messageId with
  | none =>
    refine ⟨fun _ => [], fun kind ref => by simp [namedBy, hheld], ?_⟩
    simp only [applyMessageCards, hheld, invalidate_nil]
  | some held =>
    by_cases hold : change.asOf < held.cardsAsOf
    · have hnamed (kind : PreviewKind) (ref : Nat) : namedBy s change kind ref = false := by
        simp only [namedBy, hheld, Option.any_some, if_pos hold]
      refine ⟨fun _ => [], fun kind ref => by simp [hnamed], ?_⟩
      simp only [applyMessageCards, hheld, if_pos hold, invalidate_nil]
    · have hnamed (kind : PreviewKind) (ref : Nat) :
          namedBy s change kind ref = decide (cardOf kind ref ∈ held.cards ++ change.cards) := by
        simp only [namedBy, hheld, Option.any_some, if_neg hold]
      refine ⟨previewRefs (held.cards ++ change.cards), fun kind ref => ?_, ?_⟩
      · rw [mem_previewRefs, hnamed, decide_eq_true_iff]
      · simp only [applyMessageCards, hheld, if_neg hold]

/-- The refs of one pull request. -/
def githubRef (pullRequestId : Nat) : PreviewKind → List Nat
  | .github => [pullRequestId]
  | _ => []

theorem invalidateGithub_previews (s : PreviewState V) (pullRequestId : Nat) :
    Lists (githubRef pullRequestId) (pullRequestNamed pullRequestId) ∧
      (invalidateGithub s pullRequestId).previews = invalidate (githubRef pullRequestId) s.previews := by
  have hnil : ∀ table : String → Option (Preview V), withoutRefs table [] = table := fun table => by
    funext key
    unfold withoutRefs
    cases table key <;> simp
  refine ⟨fun kind ref => ?_, ?_⟩
  · cases kind <;> simp [githubRef, pullRequestNamed]
  · funext kind key
    cases kind with
    | github => rfl
    | fizzy => exact congrFun (hnil _).symm key
    | quotes => exact congrFun (hnil _).symm key
    | attendance => exact congrFun (hnil _).symm key

end Entries

/-! ## 5. The invariant -/

section Invariant

variable {V : Type} {s : PreviewState V} {f : Fetch V}

/-- A fetch against its entry: the entry has a later generation where the fetch was superseded or its
    preview marked stale, and shows its answer where nothing came in between. -/
def Holds (s : PreviewState V) (f : Fetch V) : Prop :=
  ∃ p, s.previews f.target.kind f.target.key = some p ∧ f.generation ≤ p.generation ∧
    (f.superseded = true ∨ f.invalidated = true → f.generation < p.generation) ∧
    (f.stale = false → f.generation = p.generation ∧ ∀ outcome, f.answer = some outcome → Shows p outcome)

/-- An entry against the record: it is there just when its key is occupied, and its generation is the
    key's turn. GitHub's entries stay, and their generations tell more. -/
def Counted (s : PreviewState V) (past : List PreviewEvent) (t : PreviewTarget) : Prop :=
  (s.previews t.kind t.key).isSome = occupied past t ∧
    ((s.previews t.kind t.key).map Preview.generation).getD 0 = turn past t

/-- An entry's ref is that of a target of its key. -/
def Named (s : PreviewState V) : Prop :=
  ∀ kind key p, s.previews kind key = some p → ∃ t : PreviewTarget, t.kind = kind ∧ t.key = key ∧ p.ref = t.ref

/-- Of the fetches of a key, only the last isn't superseded. -/
def OneNewest (marks : List (PreviewTarget × Bool)) : Prop :=
  marks.Pairwise fun a b => b.1.kind = a.1.kind ∧ b.1.key = a.1.key → a.2 = true

def Fetch.mark (f : Fetch V) : PreviewTarget × Bool := (f.target, f.superseded)

/-- What is so of a fetch from its start on: its number is its turn, and its entry was dropped by an
    invalidation only, as GitHub's never is. -/
structure Fetch.Counted (f : Fetch V) : Prop where
  turn : f.target.kind ≠ .github → f.generation = f.turn
  dropped : f.dropped = true → f.invalidated = true
  outlived : f.outlived = true → f.target.kind ≠ .github

structure PreviewRun.Inv (s : PreviewRun V) : Prop where
  named : Named s.state
  counted : ∀ t : PreviewTarget, t.kind ≠ .github → Counted s.state s.past t
  fetches : ∀ f ∈ s.fetches, f.Counted
  held : ∀ f ∈ s.fetches, f.dropped = false → Holds s.state f
  newest : OneNewest (s.fetches.map Fetch.mark)
  log : ∀ a ∈ s.log, a.fetch.stale = true → a.after = a.before

theorem stale_eq_false : f.stale = false ↔ f.superseded = false ∧ f.invalidated = false ∧ f.settled = false := by
  unfold Fetch.stale
  rw [Bool.or_eq_false_iff, Bool.or_eq_false_iff, and_assoc]

theorem Named.ref_eq (h : Named s) {p : Preview V} {t : PreviewTarget} (hp : s.previews t.kind t.key = some p) :
    p.ref = t.ref := by
  obtain ⟨u, hkind, hkey, href⟩ := h _ _ _ hp
  rw [href, PreviewTarget.ref_eq hkind hkey]

theorem Named.setPreview (h : Named s) {p : Preview V} {t : PreviewTarget} (href : p.ref = t.ref) :
    Named (setPreview s t.kind t.key p) := by
  intro kind key q hq
  by_cases hat : kind = t.kind ∧ key = t.key
  · obtain ⟨rfl, rfl⟩ := hat
    rw [setPreview_self] at hq
    cases hq
    exact ⟨t, rfl, rfl, href⟩
  · rw [setPreview_other hat] at hq
    exact h kind key q hq

theorem Named.invalidate (h : Named s) {s' : PreviewState V} {refs : PreviewKind → List Nat}
    (hs' : s'.previews = invalidate refs s.previews) : Named s' := by
  intro kind key q hq
  rw [hs'] at hq
  cases hp : s.previews kind key with
  | none => rw [invalidate_none _ _ hp] at hq; cases hq
  | some p =>
    obtain ⟨t, hkind, hkey, href⟩ := h kind key p hp
    rcases invalidate_entry refs s.previews hp with ⟨-, heq⟩ | ⟨-, -, heq⟩ | ⟨-, -, p', heq, href', -⟩
    · rw [heq] at hq
      cases hq
      exact ⟨t, hkind, hkey, href⟩
    · rw [heq] at hq
      cases hq
    · rw [heq] at hq
      cases hq
      exact ⟨t, hkind, hkey, href'.trans href⟩

/-- A fetch of another key is held as before. -/
theorem Holds.of_other {s' : PreviewState V} (h : Holds s f)
    (heq : s'.previews f.target.kind f.target.key = s.previews f.target.kind f.target.key) : Holds s' f := by
  obtain ⟨p, hp, hrest⟩ := h
  exact ⟨p, heq.trans hp, hrest⟩

/-- **An invalidation** moves a GitHub entry past its fetches, and drops the others. -/
theorem Holds.invalidate (h : Holds s f) (hn : Named s) {s' : PreviewState V} {refs : PreviewKind → List Nat}
    {named : PreviewKind → Nat → Bool} (hrefs : Lists refs named) (hs' : s'.previews = invalidate refs s.previews)
    (hd : (f.invalidate named).dropped = false) : Holds s' (f.invalidate named) := by
  obtain ⟨p, hp, hle, hlt, hshown⟩ := h
  have href : p.ref = f.target.ref := hn.ref_eq hp
  have hkept := (Bool.or_eq_false_iff.mp hd).2
  unfold Holds
  rw [hs']
  rcases invalidate_entry refs s.previews hp with ⟨hout, heq⟩ | ⟨hin, hkind, -⟩ | ⟨hin, -, p', heq, -, hgen⟩
  · rw [href, hrefs, Bool.not_eq_true] at hout
    have hsame : f.invalidate named = f := by simp [Fetch.invalidate, hout]
    rw [hsame]
    exact ⟨p, heq, hle, hlt, hshown⟩
  · rw [href, hrefs] at hin
    simp [hin, hkind] at hkept
  · rw [href, hrefs] at hin
    refine ⟨p', heq, by rw [hgen]; exact Nat.le_succ_of_le hle, fun _ => by rw [hgen]; exact Nat.lt_succ_of_le hle,
      fun hstale => ?_⟩
    have := (stale_eq_false.mp hstale).2.1
    simp [Fetch.invalidate, hin] at this

/-- **A later fetch** of its key supersedes it. -/
theorem Holds.supersede (h : Holds s f) (t : PreviewTarget) :
    Holds (previewLoading s t.kind t.key t.ref) (f.supersede t) := by
  obtain ⟨p, hp, hle, hlt, hshown⟩ := h
  by_cases hof : f.Of t.kind t.key
  · have hat : s.previews t.kind t.key = some p := by rw [← hof.1, ← hof.2, hp]
    obtain ⟨q, hq, -, hgen⟩ := previewLoading_entry s t
    rw [hat] at hgen
    have hnext : q.generation = p.generation + 1 := hgen
    rw [hq]
    refine ⟨q, ?_, ?_, fun _ => ?_, fun hstale => ?_⟩
    · show (setPreview s t.kind t.key q).previews f.target.kind f.target.key = some q
      rw [hof.1, hof.2]
      exact setPreview_self
    · rw [hnext]
      exact Nat.le_succ_of_le hle
    · rw [hnext]
      exact Nat.lt_succ_of_le hle
    · have := (stale_eq_false.mp hstale).1
      simp [Fetch.supersede, hof] at this
  · have hsame : f.supersede t = f := by simp [Fetch.supersede, hof]
    rw [hsame]
    refine Holds.of_other ⟨p, hp, hle, hlt, hshown⟩ ?_
    exact setPreview_other hof

/-- **A reply** takes the place of what its event's fetches answer, under their generation. -/
theorem Holds.settle (h : Holds s f) {s' : PreviewState V} {eventId : Nat} {q : Preview V}
    (hs' : s'.previews = (setPreview s .attendance (attendanceKey eventId) q).previews)
    (hgen : q.generation = ((s.previews .attendance (attendanceKey eventId)).map Preview.generation).getD 0) :
    Holds s' (f.settle eventId) := by
  obtain ⟨p, hp, hle, hlt, hshown⟩ := h
  by_cases hof : f.Of .attendance (attendanceKey eventId)
  · have hat : s.previews .attendance (attendanceKey eventId) = some p := by rw [← hof.1, ← hof.2, hp]
    rw [hat] at hgen
    have hq : q.generation = p.generation := hgen
    refine ⟨q, ?_, hq ▸ hle, fun hor => hq ▸ hlt hor, fun hstale => ?_⟩
    · show s'.previews f.target.kind f.target.key = some q
      rw [hs', hof.1, hof.2, setPreview_self]
    · have := (stale_eq_false.mp hstale).2.2
      simp [Fetch.settle, hof] at this
  · have hsame : f.settle eventId = f := by simp [Fetch.settle, hof]
    rw [hsame]
    refine Holds.of_other ⟨p, hp, hle, hlt, hshown⟩ ?_
    rw [hs', setPreview_other hof]

/-! The record keeps up with an entry. -/

section Counts

variable {past : List PreviewEvent} {t : PreviewTarget}

theorem Counted.of_other {s' : PreviewState V} {past' : List PreviewEvent} (h : Counted s past t)
    (heq : s'.previews t.kind t.key = s.previews t.kind t.key) (hocc : occupied past' t = occupied past t)
    (hturn : turn past' t = turn past t) : Counted s' past' t := by
  unfold Counted
  rw [heq, hocc, hturn]
  exact h

/-- **An invalidation** of the target's ref drops its entry, and the count starts again. -/
theorem Counted.invalidate (h : Counted s past t) (hn : Named s) (ht : t.kind ≠ .github) {s' : PreviewState V}
    {refs : PreviewKind → List Nat} {named : PreviewKind → Nat → Bool} (hrefs : Lists refs named)
    (hs' : s'.previews = Smartfire.invalidate refs s.previews) : Counted s' (.invalidated named :: past) t := by
  cases hnamed : named t.kind t.ref with
  | true =>
    have hdrops : (PreviewEvent.invalidated named).drops t = true := by simp [PreviewEvent.drops, hnamed, ht]
    have hgone : s'.previews t.kind t.key = none := by
      rw [hs']
      cases hp : s.previews t.kind t.key with
      | none => exact invalidate_none _ _ hp
      | some p =>
        rcases invalidate_entry refs s.previews hp with ⟨hout, -⟩ | ⟨-, -, heq⟩ | ⟨-, hkind, -⟩
        · rw [hn.ref_eq hp, hrefs, hnamed] at hout
          exact absurd rfl hout
        · exact heq
        · exact absurd hkind ht
    rw [Counted, hgone, turn_of_drops hdrops, occupied_of_drops hdrops]
    exact ⟨rfl, rfl⟩
  | false =>
    have hdrops : (PreviewEvent.invalidated named).drops t = false := by simp [PreviewEvent.drops, hnamed]
    have hsame : s'.previews t.kind t.key = s.previews t.kind t.key := by
      rw [hs']
      cases hp : s.previews t.kind t.key with
      | none => exact invalidate_none _ _ hp
      | some p =>
        rcases invalidate_entry refs s.previews hp with ⟨-, heq⟩ | ⟨hin, -⟩ | ⟨hin, -⟩
        · exact heq
        · rw [hn.ref_eq hp, hrefs, hnamed] at hin
          cases hin
        · rw [hn.ref_eq hp, hrefs, hnamed] at hin
          cases hin
    exact h.of_other hsame (occupied_cons hdrops) (turn_cons hdrops)

/-- **A fetch** of the target's key has the next turn. -/
theorem Counted.loading (h : Counted s past t) (u : PreviewTarget) :
    Counted (previewLoading s u.kind u.key u.ref) (.started u :: past) t := by
  have hdrops : (PreviewEvent.started u).drops t = false := rfl
  obtain ⟨q, hq, -, hgen⟩ := previewLoading_entry s u
  rw [hq]
  by_cases hof : u.kind = t.kind ∧ u.key = t.key
  · have hstarts : (PreviewEvent.started u).starts t = true := decide_eq_true hof
    rw [hof.1, hof.2] at hgen ⊢
    rw [Counted, setPreview_self, occupied_cons hdrops, turn_cons hdrops, hstarts]
    exact ⟨rfl, hgen.trans (congrArg (· + 1) h.2)⟩
  · have hstarts : (PreviewEvent.started u).starts t = false := decide_eq_false hof
    refine h.of_other (setPreview_other fun hat => hof ⟨hat.1.symm, hat.2.symm⟩) ?_ ?_
    · rw [occupied_cons hdrops, hstarts]
      rfl
    · rw [turn_cons hdrops, hstarts]
      rfl

/-- **A reply** makes an entry where there was none, and leaves the count. -/
theorem Counted.settle (h : Counted s past t) {s' : PreviewState V} {eventId : Nat} {q : Preview V}
    (hs' : s'.previews = (setPreview s .attendance (attendanceKey eventId) q).previews)
    (hgen : q.generation = ((s.previews .attendance (attendanceKey eventId)).map Preview.generation).getD 0) :
    Counted s' (.replied eventId :: past) t := by
  have hdrops : (PreviewEvent.replied eventId).drops t = false := rfl
  have hturn : turn (.replied eventId :: past) t = turn past t := turn_cons hdrops
  by_cases hof : PreviewKind.attendance = t.kind ∧ attendanceKey eventId = t.key
  · have hreplies : (PreviewEvent.replied eventId).replies t = true := decide_eq_true hof
    rw [hof.1, hof.2] at hs' hgen
    rw [Counted, hs', setPreview_self, occupied_cons hdrops, hturn, hreplies]
    exact ⟨rfl, hgen.trans h.2⟩
  · have hreplies : (PreviewEvent.replied eventId).replies t = false := decide_eq_false hof
    refine h.of_other ?_ ?_ hturn
    · rw [hs']
      exact setPreview_other fun hat => hof ⟨hat.1.symm, hat.2.symm⟩
    · rw [occupied_cons hdrops, hreplies]
      rfl

end Counts

/-! ## 6. The steps -/

namespace PreviewRun

variable {s s' : PreviewRun V}

theorem Inv.of_previews (h : s.Inv) {state : PreviewState V} (heq : state.previews = s.state.previews) :
    Inv { s with state := state } := by
  refine ⟨fun kind key p hp => ?_, fun t ht => (h.counted t ht).of_other (by rw [heq]) rfl rfl, h.fetches,
    fun f hf hd => (h.held f hf hd).of_other (by rw [heq]), h.newest, h.log⟩
  rw [heq] at hp
  exact h.named kind key p hp

theorem Inv.invalidate (h : s.Inv) {state : PreviewState V} {refs : PreviewKind → List Nat}
    {named : PreviewKind → Nat → Bool} (hrefs : Lists refs named)
    (heq : state.previews = Smartfire.invalidate refs s.state.previews) :
    Inv { s with
      state := state
      past := .invalidated named :: s.past
      fetches := s.fetches.map (Fetch.invalidate named) } := by
  refine ⟨h.named.invalidate heq, fun t ht => (h.counted t ht).invalidate h.named ht hrefs heq, fun g hg => ?_,
    fun g hg hd => ?_, ?_, h.log⟩
  · obtain ⟨f, hf, rfl⟩ := List.mem_map.mp hg
    obtain ⟨hturn, hdropped, houtlived⟩ := h.fetches f hf
    refine ⟨hturn, fun hd => ?_, fun ho => ?_⟩
    · rcases Bool.or_eq_true_iff.mp hd with hd | hd
      · simp [Fetch.invalidate, hdropped hd]
      · simp [Fetch.invalidate, (Bool.and_eq_true_iff.mp hd).1]
    · rcases Bool.or_eq_true_iff.mp ho with hd | hset
      · rcases Bool.or_eq_true_iff.mp hd with hd | hd
        · exact houtlived (Bool.or_eq_true_iff.mpr (.inl hd))
        · exact of_decide_eq_true (Bool.and_eq_true_iff.mp hd).2
      · exact houtlived (Bool.or_eq_true_iff.mpr (.inr hset))
  · obtain ⟨f, hf, rfl⟩ := List.mem_map.mp hg
    exact (h.held f hf (Bool.or_eq_false_iff.mp hd).1).invalidate h.named hrefs heq hd
  · have hmarks : (s.fetches.map (Fetch.invalidate named)).map Fetch.mark = s.fetches.map Fetch.mark := by
      rw [List.map_map]
      rfl
    show OneNewest ((s.fetches.map (Fetch.invalidate named)).map Fetch.mark)
    rw [hmarks]
    exact h.newest

theorem Inv.loading (h : s.Inv) (t : PreviewTarget) :
    Inv { s with
      state := previewLoading s.state t.kind t.key t.ref
      past := .started t :: s.past
      fetches := s.fetches.map (Fetch.supersede t) ++
        [⟨t, generationOf (previewLoading s.state t.kind t.key t.ref) t, turn (.started t :: s.past) t,
          false, false, false, false, none⟩] } := by
  have hcounted : ∀ u : PreviewTarget, u.kind ≠ .github →
      Counted (previewLoading s.state t.kind t.key t.ref) (.started t :: s.past) u :=
    fun u hu => (h.counted u hu).loading t
  refine ⟨h.named.setPreview rfl, hcounted, fun g hg => ?_, fun g hg hd => ?_, ?_, h.log⟩
  · rcases List.mem_append.mp hg with hg | hg
    · obtain ⟨f, hf, rfl⟩ := List.mem_map.mp hg
      exact ⟨(h.fetches f hf).turn, (h.fetches f hf).dropped, (h.fetches f hf).outlived⟩
    · rw [List.mem_singleton.mp hg]
      refine ⟨fun hkind => (hcounted t hkind).2, fun hd => ?_, fun ho => ?_⟩
      · cases hd
      · cases ho
  · rcases List.mem_append.mp hg with hg | hg
    · obtain ⟨f, hf, rfl⟩ := List.mem_map.mp hg
      exact (h.held f hf hd).supersede t
    · rw [List.mem_singleton.mp hg]
      obtain ⟨q, hq, -, -⟩ := previewLoading_entry s.state t
      have hgen : generationOf (previewLoading s.state t.kind t.key t.ref) t = q.generation := by
        rw [hq, generationOf, setPreview_self]
        rfl
      refine ⟨q, by rw [hq]; exact setPreview_self, Nat.le_of_eq hgen, fun hor => ?_, fun _ => ⟨hgen, fun _ ha => ?_⟩⟩
      · rcases hor with hor | hor
        · cases hor
        · cases hor
      · cases ha
  · show OneNewest ((s.fetches.map (Fetch.supersede t) ++ [_]).map Fetch.mark)
    rw [List.map_append, List.map_map]
    refine List.pairwise_append.mpr ⟨?_, List.pairwise_singleton _ _, fun a ha b hb hab => ?_⟩
    · rw [List.pairwise_map]
      refine (List.pairwise_map.mp h.newest).imp fun hnew hab => ?_
      simp [Fetch.mark, Fetch.supersede] at hab hnew ⊢
      exact .inl (hnew hab.1 hab.2)
    · obtain ⟨f, hf, rfl⟩ := List.mem_map.mp ha
      rw [List.map_singleton] at hb
      rw [List.mem_singleton.mp hb] at hab
      simp only [Function.comp_apply, Fetch.mark, Fetch.supersede] at hab ⊢
      exact Bool.or_eq_true_iff.mpr (.inr (decide_eq_true ⟨hab.1.symm, hab.2.symm⟩))

theorem Inv.settle (h : s.Inv) {state : PreviewState V} {eventId : Nat} {q : Preview V}
    (heq : state.previews = (setPreview s.state .attendance (attendanceKey eventId) q).previews)
    (href : q.ref = eventId)
    (hgen : q.generation = ((s.state.previews .attendance (attendanceKey eventId)).map Preview.generation).getD 0) :
    Inv { s with
      state := state
      past := .replied eventId :: s.past
      fetches := s.fetches.map (Fetch.settle eventId) } := by
  refine ⟨fun kind key p hp => ?_, fun t ht => (h.counted t ht).settle heq hgen, fun g hg => ?_,
    fun g hg hd => ?_, ?_, h.log⟩
  · rw [heq] at hp
    exact h.named.setPreview (t := .attendance eventId) href kind key p hp
  · obtain ⟨f, hf, rfl⟩ := List.mem_map.mp hg
    obtain ⟨hturn, hdropped, houtlived⟩ := h.fetches f hf
    refine ⟨hturn, hdropped, fun ho => ?_⟩
    rcases Bool.or_eq_true_iff.mp ho with hd | hset
    · exact houtlived (Bool.or_eq_true_iff.mpr (.inl hd))
    · rcases Bool.or_eq_true_iff.mp hset with hset | hof
      · exact houtlived (Bool.or_eq_true_iff.mpr (.inr hset))
      · have hkind : f.target.kind = .attendance := (of_decide_eq_true hof).1
        show f.target.kind ≠ .github
        rw [hkind]
        decide
  · obtain ⟨f, hf, rfl⟩ := List.mem_map.mp hg
    exact (h.held f hf hd).settle heq hgen
  · have hmarks : (s.fetches.map (Fetch.settle eventId)).map Fetch.mark = s.fetches.map Fetch.mark := by
      rw [List.map_map]
      rfl
    show OneNewest ((s.fetches.map (Fetch.settle eventId)).map Fetch.mark)
    rw [hmarks]
    exact h.newest

/-- Two fetches of a key: one of them is superseded. -/
theorem Inv.one_newest (h : s.Inv) {i j : Nat} {f g : Fetch V} (hi : s.fetches[i]? = some f)
    (hj : s.fetches[j]? = some g) (hne : i ≠ j) (hof : g.Of f.target.kind f.target.key) :
    f.superseded = true ∨ g.superseded = true := by
  have hpair := List.pairwise_iff_getElem.mp (List.pairwise_map.mp h.newest)
  obtain ⟨hil, rfl⟩ := List.getElem?_eq_some_iff.mp hi
  obtain ⟨hjl, rfl⟩ := List.getElem?_eq_some_iff.mp hj
  rcases Nat.lt_or_gt_of_ne hne with hlt | hlt
  · exact .inl (hpair i j hil hjl hlt ⟨hof.1, hof.2⟩)
  · exact .inr (hpair j i hjl hil hlt ⟨hof.1.symm, hof.2.symm⟩)

/-- **What the condition says**: the answer of a fetch that outlived its entry, or a reply, is turned
    away just when its key is occupied and at another turn. -/
theorem Inv.outdated_iff (h : s.Inv) {f : Fetch V} (hf : f ∈ s.fetches) (ho : f.outlived = true) :
    outdated (s.state.previews f.target.kind f.target.key) f.generation = true ↔
      occupied s.past f.target = true ∧ turn s.past f.target ≠ f.turn := by
  have hkind := (h.fetches f hf).outlived ho
  obtain ⟨hsome, hturn⟩ := h.counted f.target hkind
  rw [(h.fetches f hf).turn hkind, ← hsome, ← hturn]
  cases s.state.previews f.target.kind f.target.key with
  | none => simp [outdated]
  | some p => simp [outdated]

theorem map_mark_set {i : Nat} {f : Fetch V} (hi : s.fetches[i]? = some f) (answer : Option (FetchOutcome V)) :
    (s.fetches.set i { f with answer := answer }).map Fetch.mark = s.fetches.map Fetch.mark := by
  rw [List.map_set]
  refine List.ext_getElem? fun j => ?_
  rw [List.getElem?_set]
  split
  · next hij =>
    subst hij
    obtain ⟨hil, hf⟩ := List.getElem?_eq_some_iff.mp hi
    rw [if_pos (by simpa using hil), List.getElem?_map, hi]
    rfl
  · rfl

/-- Once a fetch is answered, the fetches are that one and the others. -/
theorem mem_set_answer {i : Nat} {f g : Fetch V} (hg : g ∈ s.fetches.set i f) :
    g = f ∨ ∃ j, j ≠ i ∧ s.fetches[j]? = some g := by
  obtain ⟨j, hj⟩ := List.mem_iff_getElem?.mp hg
  rw [List.getElem?_set] at hj
  split at hj
  · split at hj
    · exact .inl (Option.some.inj hj).symm
    · cases hj
  · next hne => exact .inr ⟨j, fun heq => hne heq.symm, hj⟩

/-- **An answer is let in** where nothing came in between: its fetch is the newest, and has the
    generation of its entry. -/
theorem Inv.fresh_of_let_in (h : s.Inv) {f : Fetch V} (hf : f ∈ s.fetches)
    (hg : f.outlived = true → occupied s.past f.target = true ∧ turn s.past f.target ≠ f.turn)
    (hin : outdated (s.state.previews f.target.kind f.target.key) f.generation = false) :
    f.stale = false ∧ ∃ p, s.state.previews f.target.kind f.target.key = some p ∧ p.generation = f.generation := by
  have hlive : f.outlived = false := by
    by_contra hne
    have ho : f.outlived = true := by simpa using hne
    have hout := (h.outdated_iff hf ho).mpr (hg ho)
    rw [hin] at hout
    cases hout
  obtain ⟨hdrop, hset⟩ := Bool.or_eq_false_iff.mp hlive
  obtain ⟨p, hp, -, hlt, -⟩ := h.held f hf hdrop
  have hpgen : p.generation = f.generation := by
    rw [hp] at hin
    simpa [outdated] using hin
  have hnot : ¬ (f.superseded = true ∨ f.invalidated = true) := fun hor => by
    have := hlt hor
    omega
  rw [not_or, Bool.not_eq_true, Bool.not_eq_true] at hnot
  exact ⟨stale_eq_false.mpr ⟨hnot.1, hnot.2, hset⟩, p, hp, hpgen⟩

/-- **An answer** that the condition lets in is the newest fetch's, and its entry then shows it. -/
theorem Inv.answered (h : s.Inv) {i : Nat} {f : Fetch V} {outcome : FetchOutcome V} (hi : s.fetches[i]? = some f)
    (hg : OutOfTurn s (.answered i outcome)) :
    Inv
      { state := land s.state f outcome
        past := s.past
        fetches := s.fetches.set i { f with answer := some outcome }
        log := ⟨f, s.state.previews f.target.kind f.target.key,
          (land s.state f outcome).previews f.target.kind f.target.key⟩ :: s.log } := by
  have hf : f ∈ s.fetches := List.mem_of_getElem? hi
  have hfetches : ∀ g ∈ s.fetches.set i { f with answer := some outcome }, g.Counted := by
    intro g hg
    rcases mem_set_answer hg with rfl | ⟨j, -, hj⟩
    · exact ⟨(h.fetches f hf).turn, (h.fetches f hf).dropped, (h.fetches f hf).outlived⟩
    · exact h.fetches g (List.mem_of_getElem? hj)
  have hnewest : OneNewest ((s.fetches.set i { f with answer := some outcome }).map Fetch.mark) := by
    rw [map_mark_set hi]
    exact h.newest
  rcases land_cases s.state f outcome with ⟨hout, heq⟩ | ⟨hin, q, heq, hshows, hqgen, hqref⟩
  · -- the entry has moved on: nothing changes
    rw [heq]
    refine ⟨h.named, h.counted, hfetches, fun g hg hd => ?_, hnewest, fun a ha hstale => ?_⟩
    · rcases mem_set_answer hg with rfl | ⟨j, -, hj⟩
      · obtain ⟨p, hp, hle, hlt, hshown⟩ := h.held f hf hd
        refine ⟨p, hp, hle, hlt, fun hstale => ?_⟩
        have hgen := (hshown hstale).1
        rw [hp] at hout
        simp [outdated, hgen] at hout
      · exact h.held g (List.mem_of_getElem? hj) hd
    · rcases List.mem_cons.mp ha with rfl | ha
      · rfl
      · exact h.log a ha hstale
  · -- it lands: nothing came in between
    obtain ⟨hfresh, p, hp, hpgen⟩ := h.fresh_of_let_in hf (hg f hi) hin
    obtain ⟨hsup, hinv, -⟩ := stale_eq_false.mp hfresh
    rw [heq]
    refine ⟨h.named.setPreview hqref, fun t ht => ?_, hfetches, fun g hg hd => ?_, hnewest, fun a ha hstale => ?_⟩
    · -- the entry was there, and keeps its generation
      by_cases hat : t.kind = f.target.kind ∧ t.key = f.target.key
      · have hcounted := h.counted t ht
        unfold Counted at hcounted ⊢
        rw [hat.1, hat.2] at hcounted ⊢
        rw [hp] at hcounted
        rw [setPreview_self]
        exact ⟨hcounted.1, (hqgen.trans hpgen.symm).trans hcounted.2⟩
      · exact (h.counted t ht).of_other (setPreview_other hat) rfl rfl
    · rcases mem_set_answer hg with rfl | ⟨j, hji, hj⟩
      · refine ⟨q, setPreview_self, Nat.le_of_eq hqgen.symm, fun hor => ?_, fun _ => ⟨hqgen.symm, fun o ho => ?_⟩⟩
        · rcases hor with hor | hor
          · exact absurd (hor.symm.trans hsup) (by decide)
          · exact absurd (hor.symm.trans hinv) (by decide)
        · cases ho
          exact hshows
      · have hheld := h.held g (List.mem_of_getElem? hj) hd
        by_cases hof : g.Of f.target.kind f.target.key
        · obtain ⟨p', hp', hle', hlt', -⟩ := hheld
          have hsame : p' = p := by
            rw [hof.1, hof.2, hp] at hp'
            exact (Option.some.inj hp').symm
          rw [hsame, hpgen, ← hqgen] at hle' hlt'
          refine ⟨q, ?_, hle', hlt', fun hstale => ?_⟩
          · rw [hof.1, hof.2]
            exact setPreview_self
          · rcases h.one_newest hi hj hji.symm hof with hlater | hlater
            · exact absurd (hlater.symm.trans hsup) (by decide)
            · exact absurd (hlater.symm.trans (stale_eq_false.mp hstale).1) (by decide)
        · exact hheld.of_other (setPreview_other hof)
    · rcases List.mem_cons.mp ha with rfl | ha
      · rw [hfresh] at hstale
        cases hstale
      · exact h.log a ha hstale

/-- **The step lemma.** -/
theorem inv_step {op : PreviewOp V} (h : s.Inv) (hg : OutOfTurn s op) (hs : step s op = some s') : s'.Inv := by
  cases op with
  | receive messageId held =>
    cases hs
    exact h.of_previews rfl
  | applyMessageCards change =>
    cases hs
    obtain ⟨refs, hrefs, heq⟩ := applyMessageCards_previews s.state change
    exact h.invalidate hrefs heq
  | invalidateGithub pullRequestId =>
    cases hs
    obtain ⟨hrefs, heq⟩ := invalidateGithub_previews s.state pullRequestId
    exact h.invalidate hrefs heq
  | previewLoading target =>
    cases hs
    exact h.loading target
  | answered number outcome =>
    obtain ⟨f, hf, rfl⟩ := Option.map_eq_some_iff.mp hs
    exact h.answered hf hg
  | setPendingAnswer eventId answer =>
    cases hs
    exact h.of_previews rfl
  | settleAnswer eventId answer reply now =>
    cases hs
    rcases settleAnswer_previews s.state eventId answer reply now with ⟨heq, hnone⟩ | ⟨q, heq, hsome, href, hgen⟩
    · rw [hnone] at heq ⊢
      exact h.of_previews heq
    · rw [if_pos hsome, if_pos hsome]
      exact h.settle heq href hgen

/-- **The run lemma.** -/
theorem inv_of_reach (h : ReachWhen (previewRuns V) OutOfTurn s) : s.Inv := by
  refine h.induct ?_ fun s₁ op s₂ _ hi hg hs => ?_
  · rintro s rfl
    refine ⟨fun _ _ _ hp => (by cases hp), fun _ _ => ⟨rfl, rfl⟩, fun _ hf => (List.not_mem_nil hf).elim,
      fun _ hf => (List.not_mem_nil hf).elim, List.Pairwise.nil, fun _ ha => (List.not_mem_nil ha).elim⟩
  · have hstep : step s₁ op = some s₂ := hs
    exact inv_step hi hg hstep

/-- **A superseded fetch never lands**, in every run whose answers that outlived their entry, or a
    reply, arrive out of turn. -/
theorem previews_settled_of_reach (h : ReachWhen (previewRuns V) OutOfTurn s) : s.Settled := by
  have hi : s.Inv := inv_of_reach h
  refine ⟨hi.log, fun f hf hstale outcome ho => ?_, fun t ht hocc => ?_⟩
  · have hdrop : f.dropped = false := by
      by_contra hne
      have hinv := (hi.fetches f hf).dropped (by simpa using hne)
      exact absurd (hinv.symm.trans (stale_eq_false.mp hstale).2.1) (by decide)
    obtain ⟨p, hp, -, -, hshown⟩ := hi.held f hf hdrop
    exact ⟨p, hp, (hshown hstale).2 outcome ho⟩
  · have hsome := (hi.counted t ht).1
    rw [hocc] at hsome
    exact Option.isNone_iff_eq_none.mp (Option.isSome_eq_false_iff.mp hsome)

end PreviewRun

end Invariant

/-! ## 7. Runs -/

instance (s : PreviewRun Nat) (op : PreviewOp Nat) : Decidable (OutOfTurn s op) :=
  match op with
  | .answered number _ =>
    match h : s.fetches[number]? with
    | none => .isTrue fun f hf => by rw [h] at hf; cases hf
    | some f => decidable_of_iff (f.outlived = true →
        occupied s.past f.target = true ∧ turn s.past f.target ≠ f.turn)
        ⟨fun hall g hg => by rw [h] at hg; cases hg; exact hall, fun hall => hall f h⟩
  | .receive .. => .isTrue trivial
  | .applyMessageCards _ => .isTrue trivial
  | .invalidateGithub _ => .isTrue trivial
  | .previewLoading _ => .isTrue trivial
  | .setPendingAnswer .. => .isTrue trivial
  | .settleAnswer .. => .isTrue trivial

namespace PreviewRun

/-- A quoted message's preview is fetched, its entry dropped, and fetched twice again: the first
    fetch's turn was 1, and its answer arrives at turn 2. A GitHub card is fetched, its pull request
    invalidated, and fetched again; the first answer is late. -/
theorem previews_settled_of_reach_sample :
    ∃ s, ReachWhen (previewRuns Nat) OutOfTurn s ∧
      s.fetches.map (fun f => (f.superseded, f.dropped, f.turn)) =
        [(true, true, 1), (true, false, 1), (false, false, 2), (true, false, 1), (false, false, 2)] ∧
      s.log.length = 4 ∧ s.Settled := by
  obtain ⟨s, hs, hlog⟩ := exists_reachWhen_of_replay (T := previewRuns Nat) (G := OutOfTurn)
    (s := ⟨emptyPreviews Nat, [], [], []⟩)
    (l := [.receive 9 ⟨[.quote 7], "a"⟩, .previewLoading (.quote 1 7), .applyMessageCards ⟨9, [.quote 7], "b"⟩,
      .previewLoading (.quote 1 7), .previewLoading (.quote 1 7), .answered 0 (.loaded 10 5),
      .answered 2 (.loaded 12 5),
      .previewLoading (.github 1 2 (.message 3)), .invalidateGithub 2,
      .previewLoading (.github 1 2 (.message 3)), .answered 3 (.loaded 20 6), .answered 4 (.failed "gone")])
    (p := fun s => s.fetches.map (fun f => (f.superseded, f.dropped, f.turn)) ==
      [(true, true, 1), (true, false, 1), (false, false, 2), (true, false, 1), (false, false, 2)] &&
        s.log.length == 4) rfl (by decide)
  obtain ⟨hmarks, hlen⟩ := Bool.and_eq_true_iff.mp hlog
  exact ⟨s, hs, eq_of_beq hmarks, eq_of_beq hlen, previews_settled_of_reach hs⟩

/-- The answer of such a fetch changed its preview. -/
def landed (p : Fetch Nat → Bool) (s : PreviewRun Nat) : Bool :=
  s.log.any fun a => p a.fetch && a.after != a.before

theorem not_settled_of_landed {p : Fetch Nat → Bool} {s : PreviewRun Nat} (hp : ∀ f, p f = true → f.stale = true)
    (h : landed p s = true) : ¬ s.Settled := fun hs => by
  obtain ⟨a, ha, hlate⟩ := List.any_eq_true.mp h
  obtain ⟨hpa, hne⟩ := Bool.and_eq_true_iff.mp hlate
  rw [hs.unchanged a ha (hp a.fetch hpa)] at hne
  simp at hne

/-- **A superseded fetch lands**: a quoted message's preview is dropped while its first fetch is out,
    and the second one starts again at its generation; and an attendance fetch lands over the reply
    that was settled while it was out. -/
theorem lands_late :
    (∃ s, Reach (previewRuns Nat) s ∧ landed Fetch.superseded s = true ∧ ¬ s.Settled) ∧
      ∃ s, Reach (previewRuns Nat) s ∧ landed Fetch.settled s = true ∧ ¬ s.Settled := by
  constructor
  · obtain ⟨s, hs, hlate⟩ := exists_reachWhen_of_replay (T := previewRuns Nat) (G := fun _ _ => True)
      (s := ⟨emptyPreviews Nat, [], [], []⟩)
      (l := [.receive 9 ⟨[.quote 7], "a"⟩, .previewLoading (.quote 1 7), .applyMessageCards ⟨9, [.quote 7], "b"⟩,
        .previewLoading (.quote 1 7), .answered 0 (.loaded 10 5)])
      (p := landed Fetch.superseded) rfl (by decide)
    exact ⟨s, hs, hlate, not_settled_of_landed (fun f hf => by simp [Fetch.stale, hf]) hlate⟩
  · obtain ⟨s, hs, hlate⟩ := exists_reachWhen_of_replay (T := previewRuns Nat) (G := fun _ _ => True)
      (s := ⟨emptyPreviews Nat, [], [], []⟩)
      (l := [.previewLoading (.attendance 4), .setPendingAnswer 4 (some 1), .settleAnswer 4 1 (some 20) 5,
        .answered 0 (.loaded 10 6)])
      (p := landed Fetch.settled) rfl (by decide)
    exact ⟨s, hs, hlate, not_settled_of_landed (fun f hf => by simp [Fetch.stale, hf]) hlate⟩

end PreviewRun

end Smartfire
