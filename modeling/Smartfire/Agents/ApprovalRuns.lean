/-
  File:      Smartfire/Agents/ApprovalRuns.lean
  Subject:   An approval is decided once and acts at most once.

  A transaction keeps the row, expires it, cancels it or decides it (`Change`, `change_run`), and all
  but the first find it pending and leave it settled. So in a run at most one transaction changes the
  row, and what it did beside that is all the run did.

  * `ActsOnce` -- the property, of a run;
  * `actsOnce_of_reach` -- it holds of every run, under any clock and any stale copies.
-/
import Mathlib.Algebra.Order.Group.Int
import Smartfire.Agents.Approval

namespace Smartfire.AgentApprovals

open Lib AgentApproval

/-! ## 1. What is claimed -/

def Effect.isActionJob : Effect → Bool
  | .githubAction _ | .fizzyAction _ => true
  | _ => false

def Effect.decision? : Effect → Option ApprovalDecided
  | .approvalDecided event => some event
  | _ => none

namespace Entry

variable (e : Entry)

/-- The external action jobs the transaction enqueued. -/
def jobs : List Effect := e.effects.filter Effect.isActionJob

/-- The `approval_decided` events it created. -/
def decisionEvents : List ApprovalDecided := e.effects.filterMap Effect.decision?

/-- It approved the request before it expired, for an active administrator. -/
def ApprovedInTime : Prop :=
  ∃ copy user note, e.transaction.op = .decideAuthorized copy "approved" user note ∧
    e.before.status = .pending ∧ e.after.status = .approved ∧
    e.transaction.readings.pending < e.before.expiresAt ∧
    ∃ actor, e.transaction.env.user user.id = some actor ∧ actor.status = 0 ∧ actor.role = 1

/-- It did nothing but settle an overdue request as expired. -/
def LazilyExpired : Prop :=
  e.before.status = .pending ∧ e.before.expiresAt ≤ e.transaction.readings.due ∧
    e.after = { e.before with status := .expired, updatedAt := e.after.updatedAt } ∧
    e.effects = e.before.announced

end Entry

/-- The states of the row, the newest first. -/
def Run.rows (s : Run) : List AgentApproval := s.log.map Entry.after ++ [s.opened]

def ApprovalStatus.isDecision (status : ApprovalStatus) : Prop := status = .approved ∨ status = .denied

instance (status : ApprovalStatus) : Decidable status.isDecision :=
  inferInstanceAs (Decidable (_ ∨ _))

/-- **The request is decided once and acts at most once.** -/
structure ActsOnce (s : Run) : Prop where
  /-- Once the row isn't pending, its status stays. -/
  settled : s.rows.Pairwise fun later earlier => earlier.status ≠ .pending → later.status = earlier.status
  /-- A later state of the row has a later revision. -/
  revised : s.rows.Pairwise fun later earlier => later = earlier ∨ earlier.updatedAt < later.updatedAt
  jobs : (s.log.flatMap Entry.jobs).length ≤ 1
  acted : ∀ e ∈ s.log, e.jobs ≠ [] → e.ApprovedInTime
  forbidden : ∀ e ∈ s.log, e.answer = .decided .forbidden → e.after = e.before ∧ e.effects = []
  invalid : ∀ e ∈ s.log, ∀ errors, e.answer = .decided (.invalid errors) →
    e.after = e.before ∧ e.effects = [] ∨ e.LazilyExpired
  events : (s.log.flatMap Entry.decisionEvents).length =
    if s.opened.status = .pending ∧ s.row.status.isDecision then 1 else 0
  /-- An event names the request and the decision that stands. -/
  named : ∀ event ∈ s.log.flatMap Entry.decisionEvents, event.approvalId = s.row.id ∧
    event.status = s.row.status

/-! ## 2. What a transaction does -/

/-- What a transaction comes to: its answer, the row it leaves, and its effects. -/
inductive Change (op : Op) (env : Surroundings) (r : Readings) (row : AgentApproval) :
    Answer → AgentApproval → List Effect → Prop where
  | kept (answer : Answer) : Change op env r row answer row []
  | expired (answer : Answer) (updatedAt : Int) (hforbidden : answer ≠ .decided .forbidden)
      (hpending : row.status = .pending) (hdue : row.expiresAt ≤ r.due) (hrev : row.updatedAt < updatedAt) :
      Change op env r row answer { row with status := .expired, updatedAt } row.announced
  | cancelled (updatedAt : Int) (hpending : row.status = .pending) (hrev : row.updatedAt < updatedAt) :
      Change op env r row (.cancelled []) { row with status := .cancelled, updatedAt } row.announced
  | decided (copy after : AgentApproval) (decision : String) (user : User) (note : Option String)
      (hop : op = .decideAuthorized copy decision user note) (hpending : row.status = .pending)
      (htime : r.pending < row.expiresAt) (hstatus : decisionStatus decision = some after.status)
      (hid : after.id = row.id) (haction : after.action = row.action)
      (happrovable : decision = "approved" → row.approvableBy env user.id = true)
      (hrev : row.updatedAt < after.updatedAt) :
      Change op env r row (.decided .applied) after
        (after.decisionEffects decision user env.opensWebhook)

section Changes

variable {op : Op} {env : Surroundings} {r : Readings} {row self copy : AgentApproval} {tx : Tx}
  {answer : Answer} {errors : Errors}

theorem lt_revisionAfter (now previous : Int) : previous < revisionAfter now previous := by
  unfold revisionAfter
  omega

theorem find_eq {id : Nat} (h : AgentApproval.find tx id = some self) : self = tx.row := by
  unfold AgentApproval.find at h
  split at h
  next => cases h; rfl
  next => cases h

/-- An overdue request is settled as expired; every other is as it was. -/
theorem expireIfDue_cases {due : Bool} (h : copy.expireIfDue env r ⟨row, []⟩ = some (self, due, tx)) :
    self = tx.row ∧ (tx = ⟨row, []⟩ ∨ row.status = .pending ∧ row.expiresAt ≤ r.due ∧
      ∃ updatedAt, row.updatedAt < updatedAt ∧
        tx = ⟨{ row with status := .expired, updatedAt }, row.announced⟩) := by
  obtain ⟨self₁, hfind, h⟩ := Option.bind_eq_some_iff.mp h
  cases find_eq hfind
  split at h
  next => cases h; exact ⟨rfl, .inl rfl⟩
  next hdue =>
    split at h
    next => cases h
    next =>
      cases h
      have hpending : row.status = .pending := by
        by_contra hne
        exact hdue (.inl hne)
      have htime : row.expiresAt ≤ r.due := by
        by_contra hlt
        exact hdue (.inr (lt_of_not_ge hlt))
      exact ⟨rfl, .inr ⟨hpending, htime, _, lt_revisionAfter _ _, rfl⟩⟩

theorem pendingErrors_eq_nil (self : AgentApproval) (now : Int) (h : (self.pendingErrors now).isEmpty = true) :
    self.status = .pending ∧ now < self.expiresAt := by
  unfold pendingErrors effectiveStatus at h
  by_cases hdue : self.status = .pending ∧ self.expiresAt ≤ now
  · rw [if_pos hdue] at h
    cases h
  · rw [if_neg hdue] at h
    by_cases hpending : self.status = .pending
    · refine ⟨hpending, lt_of_not_ge fun hle => hdue ⟨hpending, hle⟩⟩
    · rw [if_pos hpending] at h
      cases h

/-- After the lazy expiry: the request is refused with errors, as it was or expired, or it goes on. -/
theorem decide_cases {decision : String} {user : User} {note : Option String}
    (h : copy.decide env r ⟨row, []⟩ decision user note = some (self, errors, tx)) :
    (errors.isEmpty = false ∧ (tx = ⟨row, []⟩ ∨ row.status = .pending ∧ row.expiresAt ≤ r.due ∧
      ∃ updatedAt, row.updatedAt < updatedAt ∧
        tx = ⟨{ row with status := .expired, updatedAt }, row.announced⟩)) ∨
    errors = [] ∧ row.status = .pending ∧ r.pending < row.expiresAt ∧
      decisionStatus decision = some tx.row.status ∧ tx.row.id = row.id ∧ tx.row.action = row.action ∧
      row.updatedAt < tx.row.updatedAt ∧
      tx.effects = tx.row.decisionEffects decision user env.opensWebhook := by
  obtain ⟨status, hstatus, h⟩ := Option.bind_eq_some_iff.mp h
  obtain ⟨⟨self₁, due, tx₁⟩, hexpire, h⟩ := Option.bind_eq_some_iff.mp h
  obtain ⟨rfl, hcases⟩ := expireIfDue_cases hexpire
  dsimp only at h
  split at h
  next herrors =>
    cases h
    exact .inl ⟨by simpa using herrors, hcases⟩
  next hnone =>
    have hpend := pendingErrors_eq_nil tx₁.row r.pending (by simpa using hnone)
    -- what is still pending has not been expired
    rcases hcases with rfl | ⟨-, -, updatedAt, -, rfl⟩
    · split at h
      next herrors =>
        cases h
        exact .inl ⟨by simpa using herrors, .inl rfl⟩
      next =>
        cases h
        exact .inr ⟨rfl, hpend.1, hpend.2, hstatus, rfl, rfl, lt_revisionAfter _ _, rfl⟩
    · exact absurd hpend.1 (by simp)

theorem change_decideAuthorized {decision : String} {user : User} {note : Option String}
    {result : ApprovalDecision}
    (h : copy.decideAuthorized env r ⟨row, []⟩ decision user note = some (self, result, tx)) :
    Change (.decideAuthorized copy decision user note) env r row (.decided result) tx.row tx.effects := by
  obtain ⟨self₁, hfind, h⟩ := Option.bind_eq_some_iff.mp h
  cases find_eq hfind
  split at h
  next => cases h; exact .kept _
  next hallowed =>
    obtain ⟨⟨self₂, errors, tx₂⟩, hdecide, h⟩ := Option.bind_eq_some_iff.mp h
    cases h
    rcases decide_cases hdecide with ⟨herrors, rfl | ⟨hpending, hdue, updatedAt, hrev, rfl⟩⟩ |
      ⟨rfl, hpending, htime, hstatus, hid, haction, hrev, heffects⟩
    · exact .kept _
    · rw [herrors]
      exact .expired _ updatedAt (by simp) hpending hdue hrev
    · rw [heffects]
      refine .decided copy tx.row decision user note rfl hpending htime hstatus hid haction
        (fun happroved => ?_) hrev
      simp only [happroved, Bool.or_eq_true, not_or, Bool.and_eq_true, Bool.not_eq_true', not_and,
        Bool.not_eq_false, decide_true] at hallowed
      exact hallowed.2 trivial

theorem change_cancelByAgent (h : copy.cancelByAgent env r ⟨row, []⟩ = some (self, errors, tx)) :
    Change op env r row (.cancelled errors) tx.row tx.effects := by
  obtain ⟨⟨self₁, due, tx₁⟩, hexpire, h⟩ := Option.bind_eq_some_iff.mp h
  obtain ⟨rfl, hcases⟩ := expireIfDue_cases hexpire
  have refused (tx₂ : Tx) (htx : tx₂ = tx₁) :
      Change op env r row (.cancelled errors) tx₂.row tx₂.effects := by
    subst htx
    rcases hcases with rfl | ⟨hpending, hdue, updatedAt, hrev, rfl⟩
    · exact .kept _
    · exact .expired _ updatedAt (by simp) hpending hdue hrev
  dsimp only at h
  split at h
  next => cases h; exact refused _ rfl
  next hnone =>
    split at h
    next => cases h; exact refused _ rfl
    next =>
      cases h
      have hpend := pendingErrors_eq_nil tx₁.row r.pending (by simpa using hnone)
      rcases hcases with rfl | ⟨-, -, updatedAt, -, rfl⟩
      · exact .cancelled _ hpend.1 (lt_revisionAfter _ _)
      · exact absurd hpend.1 (by simp)

theorem change_expireIfDue {due : Bool} (h : copy.expireIfDue env r ⟨row, []⟩ = some (self, due, tx)) :
    Change op env r row (.expired due) tx.row tx.effects := by
  obtain ⟨-, rfl | ⟨hpending, hdue, updatedAt, hrev, rfl⟩⟩ := expireIfDue_cases h
  · exact .kept _
  · exact .expired _ updatedAt (by simp) hpending hdue hrev

/-- **A transaction keeps the row, expires it, cancels it or decides it.** -/
theorem change_run (h : op.run env r ⟨row, []⟩ = some (answer, tx)) :
    Change op env r row answer tx.row tx.effects := by
  cases op with
  | decideAuthorized copy decision user note =>
    obtain ⟨⟨self, result, tx'⟩, hrun, heq⟩ := Option.map_eq_some_iff.mp h
    cases heq
    exact change_decideAuthorized hrun
  | cancelByAgent copy =>
    obtain ⟨⟨self, errors, tx'⟩, hrun, heq⟩ := Option.map_eq_some_iff.mp h
    cases heq
    exact change_cancelByAgent hrun
  | expireIfDue copy =>
    obtain ⟨⟨self, due, tx'⟩, hrun, heq⟩ := Option.map_eq_some_iff.mp h
    cases heq
    exact change_expireIfDue hrun

end Changes

/-! ## 3. Runs -/

/-- What the row knows of the history. -/
structure Inv (s : Run) : Prop where
  /-- Each earlier state is the row, or was left from pending. -/
  past : ∀ row ∈ s.rows, row = s.row ∨
    row.status = .pending ∧ s.row.status ≠ .pending ∧ row.updatedAt < s.row.updatedAt
  /-- As long as it is pending, nothing was done. -/
  quiet : s.row.status = .pending →
    s.log.flatMap Entry.jobs = [] ∧ s.log.flatMap Entry.decisionEvents = []
  once : ActsOnce s

section Runs

variable {s s' : Run} {t : Transaction} {answer : Answer} {after : AgentApproval} {effects : List Effect}

/-- The run after a transaction that comes to this. -/
def Run.next (s : Run) (t : Transaction) (answer : Answer) (after : AgentApproval) (effects : List Effect) :
    Run :=
  { s with row := after, log := ⟨t, s.row, after, answer, effects⟩ :: s.log }

/-- The new state of the row against the earlier ones. -/
theorem pairwise_next {R : AgentApproval → AgentApproval → Prop} (h : s.rows.Pairwise R)
    (hnew : ∀ row ∈ s.rows, R after row) : (s.next t answer after effects).rows.Pairwise R :=
  List.pairwise_cons.mpr ⟨hnew, h⟩

theorem opened_pending (h : Inv s) (hpending : s.row.status = .pending) : s.opened.status = .pending := by
  rcases h.past s.opened (List.mem_append_right _ (List.mem_singleton_self _)) with heq | ⟨hp, -, -⟩
  · rw [heq]
    exact hpending
  · exact hp

/-- A transaction that keeps the row and does nothing. -/
theorem Inv.kept (h : Inv s) : Inv (s.next t answer s.row []) := by
  refine ⟨?_, fun hp => h.quiet hp, ?_⟩
  · intro row hrow
    rcases List.mem_cons.mp hrow with rfl | hrow
    · exact .inl rfl
    · exact h.past row hrow
  · refine ⟨pairwise_next h.once.settled ?_, pairwise_next h.once.revised ?_, h.once.jobs, ?_, ?_, ?_,
      h.once.events, h.once.named⟩
    · intro row hrow hsettled
      rcases h.past row hrow with rfl | ⟨hp, -, -⟩
      · rfl
      · exact absurd hp hsettled
    · intro row hrow
      rcases h.past row hrow with rfl | ⟨-, -, hrev⟩
      · exact .inl rfl
      · exact .inr hrev
    · intro e he hjobs
      rcases List.mem_cons.mp he with rfl | he
      · exact absurd rfl hjobs
      · exact h.once.acted e he hjobs
    · intro e he hanswer
      rcases List.mem_cons.mp he with rfl | he
      · exact ⟨rfl, rfl⟩
      · exact h.once.forbidden e he hanswer
    · intro e he errors hanswer
      rcases List.mem_cons.mp he with rfl | he
      · exact .inl ⟨rfl, rfl⟩
      · exact h.once.invalid e he errors hanswer

/-- A transaction that settles a pending request: it is the only one of the run that did anything. -/
theorem Inv.settle (h : Inv s) (hpending : s.row.status = .pending) (hsettled : after.status ≠ .pending)
    (hrev : s.row.updatedAt < after.updatedAt)
    (hjobs : (effects.filter Effect.isActionJob).length ≤ 1)
    (hacted : Entry.jobs ⟨t, s.row, after, answer, effects⟩ ≠ [] →
      Entry.ApprovedInTime ⟨t, s.row, after, answer, effects⟩)
    (hforbidden : answer ≠ .decided .forbidden)
    (hinvalid : ∀ errors, answer = .decided (.invalid errors) →
      Entry.LazilyExpired ⟨t, s.row, after, answer, effects⟩)
    (hevents : (effects.filterMap Effect.decision?).length = if after.status.isDecision then 1 else 0)
    (hnamed : ∀ event ∈ effects.filterMap Effect.decision?,
      event.approvalId = after.id ∧ event.status = after.status) :
    Inv (s.next t answer after effects) := by
  obtain ⟨hquiet, hsilent⟩ := h.quiet hpending
  have hpast : ∀ row ∈ s.rows, row.status = .pending ∧ row.updatedAt < after.updatedAt := by
    intro row hrow
    rcases h.past row hrow with rfl | ⟨-, hne, -⟩
    · exact ⟨hpending, hrev⟩
    · exact absurd hpending hne
  have hjobs' : (s.next t answer after effects).log.flatMap Entry.jobs =
      effects.filter Effect.isActionJob := by
    rw [Run.next, List.flatMap_cons, hquiet, List.append_nil, Entry.jobs]
  have hevents' : (s.next t answer after effects).log.flatMap Entry.decisionEvents =
      effects.filterMap Effect.decision? := by
    rw [Run.next, List.flatMap_cons, hsilent, List.append_nil, Entry.decisionEvents]
  refine ⟨?_, fun hp => absurd hp hsettled, ?_⟩
  · intro row hrow
    rcases List.mem_cons.mp hrow with rfl | hrow
    · exact .inl rfl
    · exact .inr ⟨(hpast row hrow).1, hsettled, (hpast row hrow).2⟩
  · refine ⟨pairwise_next h.once.settled fun row hrow hne => absurd (hpast row hrow).1 hne,
      pairwise_next h.once.revised fun row hrow => .inr (hpast row hrow).2, ?_, ?_, ?_, ?_, ?_, ?_⟩
    · rw [hjobs']
      exact hjobs
    · intro e he hne
      rcases List.mem_cons.mp he with rfl | he
      · exact hacted hne
      · exact h.once.acted e he hne
    · intro e he hanswer
      rcases List.mem_cons.mp he with rfl | he
      · exact absurd hanswer hforbidden
      · exact h.once.forbidden e he hanswer
    · intro e he errors hanswer
      rcases List.mem_cons.mp he with rfl | he
      · exact .inr (hinvalid errors hanswer)
      · exact h.once.invalid e he errors hanswer
    · rw [hevents', hevents]
      exact if_congr (by simp [Run.next, opened_pending h hpending]) rfl rfl
    · rw [hevents']
      exact hnamed

/-- The jobs of an approval are for one service: an action has one prefix. -/
theorem length_actionJobs (row : AgentApproval) : row.actionJobs.length ≤ 1 := by
  unfold actionJobs
  by_cases hgithub : row.githubAction = true
  · have hfizzy : row.fizzyAction = false := by
      obtain ⟨rest, hrest⟩ := List.isPrefixOf_iff_prefix.mp hgithub
      rw [fizzyAction, ← hrest]
      rfl
    rw [if_pos hgithub, hfizzy]
    simp
  · rw [if_neg hgithub]
    split <;> simp

theorem jobs_of_decided (row : AgentApproval) (user : User) (decision : String) (opens : Bool) :
    (row.decisionEffects decision user opens).filter Effect.isActionJob =
      if decision = "approved" then row.actionJobs else [] := by
  unfold decisionEffects actionJobs announced
  cases opens <;> cases row.githubAction <;> cases row.fizzyAction <;> by_cases h : decision = "approved" <;>
    simp [h, List.filter_cons, Effect.isActionJob]

theorem events_of_decided (row : AgentApproval) (user : User) (decision : String) (opens : Bool) :
    (row.decisionEffects decision user opens).filterMap Effect.decision? = [row.decidedEvent user] := by
  unfold decisionEffects actionJobs announced
  cases opens <;> cases row.githubAction <;> cases row.fizzyAction <;> by_cases h : decision = "approved" <;>
    simp [h, List.filterMap_cons, Effect.decision?]

theorem isDecision_of_decisionStatus {decision : String} {status : ApprovalStatus}
    (h : decisionStatus decision = some status) : status.isDecision ∧ (decision = "approved" → status = .approved) := by
  unfold decisionStatus at h
  split at h
  next => cases h; exact ⟨.inl rfl, fun _ => rfl⟩
  next hne =>
    split at h
    next => cases h; exact ⟨.inr rfl, fun h => absurd h hne⟩
    next => cases h

/-- An external action is approved by an active administrator only. -/
theorem administrator_of_approvable {row : AgentApproval} {env : Surroundings} {userId : Nat}
    (h : row.approvableBy env userId = true) (hjobs : row.actionJobs ≠ []) :
    ∃ actor, env.user userId = some actor ∧ actor.status = 0 ∧ actor.role = 1 := by
  have hexternal : (row.githubAction || row.fizzyAction) = true := by
    by_contra hne
    obtain ⟨hg, hf⟩ := Bool.or_eq_false_iff.mp (eq_false_of_ne_true hne)
    exact hjobs (by rw [actionJobs, hg, hf]; rfl)
  obtain ⟨hdecidable, hrole⟩ := Bool.and_eq_true_iff.mp h
  rw [hexternal, Bool.not_true, Bool.false_or, Option.any_eq_true] at hrole
  obtain ⟨actor, huser, hrole⟩ := hrole
  obtain ⟨a, -, hparties⟩ := (Option.any_eq_true _ _).mp hdecidable
  rw [huser, Option.any_some, Bool.and_eq_true, Bool.and_eq_true, Bool.and_eq_true] at hparties
  exact ⟨actor, huser, of_decide_eq_true hparties.2.1.1, of_decide_eq_true hrole⟩

theorem inv_start (h : approvalSystem.start s) : Inv s := by
  obtain ⟨opened, row, log⟩ := s
  obtain ⟨rfl, rfl⟩ : row = opened ∧ log = [] := h
  refine ⟨?_, fun _ => ⟨rfl, rfl⟩, List.pairwise_singleton _ _, List.pairwise_singleton _ _, Nat.zero_le 1,
    fun e he => absurd he List.not_mem_nil, fun e he => absurd he List.not_mem_nil,
    fun e he => absurd he List.not_mem_nil, ?_, fun event he => absurd he List.not_mem_nil⟩
  · intro r hr
    exact .inl (List.mem_singleton.mp hr)
  · refine (if_neg ?_).symm
    rintro ⟨hpending, hdecision⟩
    change row.status = .pending at hpending
    rw [hpending] at hdecision
    rcases hdecision with h | h <;> cases h

/-- **Each transaction keeps what the row knows of the history.** -/
theorem inv_change (h : Inv s) (hc : Change t.op t.env t.readings s.row answer after effects) :
    Inv (s.next t answer after effects) := by
  cases hc with
  | kept => exact h.kept
  | expired _ updatedAt hforbidden hpending hdue hrev =>
    exact h.settle hpending (by simp) hrev (by simp [announced, Effect.isActionJob])
      (fun hne => absurd (by simp [Entry.jobs, announced, Effect.isActionJob]) hne) hforbidden
      (fun errors _ => ⟨hpending, hdue, rfl, rfl⟩)
      (by simp [announced, List.filterMap_cons, Effect.decision?, ApprovalStatus.isDecision])
      (by simp [announced, List.filterMap_cons, Effect.decision?])
  | cancelled updatedAt hpending hrev =>
    exact h.settle hpending (by simp) hrev (by simp [announced, Effect.isActionJob])
      (fun hne => absurd (by simp [Entry.jobs, announced, Effect.isActionJob]) hne) (by simp)
      (fun errors he => by cases he)
      (by simp [announced, List.filterMap_cons, Effect.decision?, ApprovalStatus.isDecision])
      (by simp [announced, List.filterMap_cons, Effect.decision?])
  | decided copy _ decision user note hop hpending htime hstatus hid haction happrovable hrev =>
    obtain ⟨hdecision, happroved⟩ := isDecision_of_decisionStatus hstatus
    have hsettled : after.status ≠ .pending := by
      intro heq
      rw [heq] at hdecision
      rcases hdecision with h | h <;> cases h
    refine h.settle hpending hsettled hrev ?_ ?_ (by simp) (fun errors he => by cases he) ?_ ?_
    · rw [jobs_of_decided]
      split
      next => exact length_actionJobs after
      next => exact Nat.zero_le 1
    · intro hne
      rw [Entry.jobs, jobs_of_decided] at hne
      split at hne
      next hyes =>
        subst hyes
        have hsame : after.actionJobs ≠ [] → s.row.actionJobs ≠ [] := by
          unfold actionJobs githubAction fizzyAction
          rw [haction, hid]
          exact fun h => h
        exact ⟨copy, user, note, hop, hpending, happroved rfl, htime,
          administrator_of_approvable (happrovable rfl) (hsame hne)⟩
      next => exact absurd rfl hne
    · rw [events_of_decided, if_pos hdecision]
      rfl
    · rw [events_of_decided]
      intro event he
      cases List.mem_singleton.mp he
      exact ⟨rfl, rfl⟩

theorem inv_step (h : Inv s) (hs : approvalSystem.step s t = some s') : Inv s' := by
  cases hs
  unfold Run.after
  split
  next answer tx hrun =>
    split at hrun
    next => exact inv_change h (change_run hrun)
    next => cases hrun
  next => exact h.kept

/-- **An approval is decided once and acts at most once**, in every run of transactions on stale copies
    under any clock. -/
theorem actsOnce_of_reach (h : Reach approvalSystem s) : ActsOnce s :=
  (h.induct (fun _ => inv_start) fun _ _ _ _ hi _ => inv_step hi).once

end Runs

/-- User 1 administers, user 2 owns the agent, user 3 is its bot. -/
def sampleSurroundings : Surroundings where
  user := fun id => if id = 1 then some ⟨0, 1⟩ else if id = 2 then some ⟨0, 0⟩ else if id = 3 then some ⟨0, 2⟩ else none
  agent := fun id => if id = 7 then some ⟨3, some 2⟩ else none
  externalIdTaken := false
  opensWebhook := true

def sampleRequest : AgentApproval :=
  ⟨5, 7, none, "github.merge", "Merge the branch", none, none, .pending, 1000, none, none, none, 10⟩

/-- The owner may not approve it, the administrator does by a clock that stepped back, and the agent's
    cancellation comes too late. -/
def approvedRun : List Transaction :=
  [⟨.decideAuthorized sampleRequest "approved" ⟨2, "Owner"⟩ none, sampleSurroundings, ⟨20, 20, 20, 20, 20⟩, true⟩,
    ⟨.decideAuthorized sampleRequest "approved" ⟨1, "Admin"⟩ none, sampleSurroundings, ⟨20, 20, 20, 20, 20⟩, false⟩,
    ⟨.decideAuthorized sampleRequest "approved" ⟨1, "Admin"⟩ (some " "), sampleSurroundings, ⟨5, 5, 5, 5, 5⟩, true⟩,
    ⟨.cancelByAgent sampleRequest, sampleSurroundings, ⟨30, 30, 30, 30, 30⟩, true⟩]

theorem actsOnce_of_reach_sample : ∃ s, Reach approvalSystem s ∧
    s.log.map Entry.answer = [.cancelled [("base", "Request is already approved")], .decided .applied, .undone,
      .decided .forbidden] ∧
    s.log.flatMap Entry.jobs = [.githubAction 5] ∧ s.row.updatedAt = 11 ∧ ActsOnce s := by
  obtain ⟨s, hs, hp⟩ := exists_reachWhen_of_replay (T := approvalSystem) (G := fun _ _ => True)
    (s := ⟨sampleRequest, sampleRequest, []⟩) (l := approvedRun)
    (p := fun s => s.log.map Entry.answer = [.cancelled [("base", "Request is already approved")],
      .decided .applied, .undone, .decided .forbidden] ∧ s.log.flatMap Entry.jobs = [.githubAction 5] ∧
      s.row.updatedAt = 11)
    ⟨rfl, rfl⟩ (by decide +kernel)
  obtain ⟨hanswers, hjobs, hrev⟩ := of_decide_eq_true hp
  exact ⟨s, hs, hanswers, hjobs, hrev, actsOnce_of_reach hs⟩

end Smartfire.AgentApprovals
