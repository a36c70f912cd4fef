/-
  File:      Smartfire/Agents/DeliveryRuns.lean
  Subject:   A webhook delivery is decided once.

  A claim compares the row with its job, a recovery with its snapshot. A worker's outcome is written
  by the event's id alone, so it belongs to the claim that holds the row only while there was no later
  one. And a failed row can lose its status to a job that finds no webhook; an acknowledged event then
  has its webhook opened again.

  * `DecidedOnce` -- the property, over the log;
  * `Delivery.Inv`, `inv_reach` -- the row against the number of claims;
  * `decidedOnce_of_reach` -- the property, in every run in which only the newest claim's worker
    records an outcome and no failed delivery is opened again;
  * `delivery_overwritten` -- a run in which a slow worker writes over the outcome of a later claim.
-/
import Mathlib.Data.List.Nodup
import Mathlib.Data.List.Perm.Basic
import Smartfire.Lib.Log
import Smartfire.Agents.Delivery

namespace Smartfire.AgentDelivery

open Lib

/-! ## 1. The property -/

def WebhookStatus.settled : WebhookStatus → Bool
  | .delivered | .failed => true
  | .none | .pending => false

namespace Entry

def settles (e : Entry) : Bool := e.after.webhookStatus.settled

/-- Which claim an outcome is of. -/
def finisher : Entry → Option Nat
  | .finished w _ _ _ => some w.number
  | _ => none

end Entry

/-- What follows a settled row: no claim, and no row that waits. -/
def Entry.StaysDecided (e f : Entry) : Prop :=
  e.settles = true → f.isClaim = false ∧ f.after.webhookStatus ≠ .pending

/-- Outcomes come in the order of their claims. -/
def Entry.InOrder (e f : Entry) : Prop :=
  ∀ m n, e.finisher = some m → f.finisher = some n → m < n

/-- Attempts fall only by the outcome that fails the delivery. -/
def Entry.Counts (e : Entry) : Prop :=
  e.before.webhookAttempts ≤ e.after.webhookAttempts ∨
    ∃ w error, e = .finished w (.permanent error) e.before e.after ∧ e.after.webhookStatus = .failed

/-- An outcome finds the row at the attempt its worker claimed. -/
def Entry.Holds (e : Entry) : Prop :=
  ∀ w result before after, e = .finished w result before after →
    before.webhookAttempts = w.event.webhookAttempts

/-- **A delivery is decided once.** -/
structure DecidedOnce (s : Delivery) : Prop where
  claims : s.claims ≤ maxAttempts
  decided : s.log.Pairwise Entry.StaysDecided
  counts : ∀ e ∈ s.log, e.Counts
  holds : ∀ e ∈ s.log, e.Holds
  inOrder : s.log.Pairwise Entry.InOrder

/-- The webhook of an acknowledged event is opened. -/
def Ledger.opensAcknowledged (l : Ledger) (env : Surroundings) : Bool :=
  messageTypes.contains l.event.eventType && (l.event.outcome = some .acknowledged : Bool) &&
    env.hasWebhook && env.authorized && (l.event.webhookStatus = .none : Bool)

/-- The row was settled before. -/
def Delivery.decided (s : Delivery) : Bool := s.log.any Entry.settles

/-- An outcome is of the newest claim, and a webhook is opened only where the delivery isn't decided
    and has attempts left. -/
def Undisturbed (s : Delivery) : Label → Prop
  | .finish worker _ => ∀ w, s.workers[worker]? = some w → w.number = s.claims
  | .perform env =>
    s.ledger.opensAcknowledged env = true →
      s.decided = false ∧ s.ledger.event.webhookAttempts < maxAttempts
  | _ => True

/-! ## 2. What a step keeps -/

namespace Delivery

variable {s s' : Delivery}

def JobsBelow (jobs : List QueuedWebhook) : Prop :=
  ∀ q ∈ jobs, ∃ n, q.job.attempt = some n ∧ n < maxAttempts

/-- What a run keeps. -/
structure Inv (s : Delivery) : Prop where
  once : DecidedOnce s
  jobs : JobsBelow s.ledger.jobs
  snapshots : ∀ n next, Recovery.webhook n next ∈ s.candidates → n < maxAttempts
  /-- Nothing happened to an event that isn't delivered yet. -/
  fresh : s.ledger.event.outcome = some .pending →
    s.decided = false ∧ s.ledger.event.webhookStatus = .none ∧ s.ledger.event.webhookAttempts = 0
  undecided : s.decided = false → s.ledger.event.webhookAttempts = s.claims
  current : s.ledger.event.webhookStatus.settled = true → s.decided = true
  decided : s.decided = true → s.ledger.event.webhookStatus ≠ .pending
  workers : ∀ w ∈ s.workers, 1 ≤ w.number ∧ w.number ≤ s.claims ∧ w.event.webhookAttempts = w.number
  distinct : (s.workers.map (·.number)).Nodup
  /-- While the newest claim's worker sends, only the sweep of exhausted rows can have decided. -/
  newest : ∀ w ∈ s.workers, w.number = s.claims →
    s.ledger.event.webhookAttempts = s.claims ∧ (s.decided = true → maxAttempts ≤ s.claims)
  recorded : ∀ e ∈ s.log, ∀ n, e.finisher = some n → n ≤ s.claims ∧ n ∉ s.workers.map (·.number)

theorem inv_start (hs : deliverySystem.start s) : s.Inv := by
  obtain ⟨eventType, outcome, hop, now, rfl⟩ := hs
  exact
    { once := ⟨Nat.zero_le _, .nil, fun _ he => absurd he List.not_mem_nil,
        fun _ he => absurd he List.not_mem_nil, .nil⟩
      jobs := fun _ hq => absurd hq List.not_mem_nil
      snapshots := fun _ _ hc => absurd hc List.not_mem_nil
      fresh := fun _ => ⟨rfl, rfl, rfl⟩
      undecided := fun _ => rfl
      current := fun h => Bool.noConfusion h
      decided := fun h => Bool.noConfusion h
      workers := fun _ hw => absurd hw List.not_mem_nil
      distinct := .nil
      newest := fun _ hw => absurd hw List.not_mem_nil
      recorded := fun _ he => absurd he List.not_mem_nil }

theorem claims_push (log : List Entry) (e : Entry) :
    (log ++ [e]).countP Entry.isClaim = log.countP Entry.isClaim + if e.isClaim then 1 else 0 := by
  rw [List.countP_append, List.countP_singleton]

theorem decided_push (log : List Entry) (e : Entry) :
    (log ++ [e]).any Entry.settles = (log.any Entry.settles || e.settles) := by
  rw [List.any_append, List.any_cons, List.any_nil, Bool.or_false]


theorem pairwise_push {R : Entry → Entry → Prop} {log : List Entry} {e : Entry} (h : log.Pairwise R)
    (he : ∀ f ∈ log, R f e) : (log ++ [e]).Pairwise R := by
  rw [List.pairwise_append]
  refine ⟨h, List.pairwise_singleton _ _, fun f hf g hg => ?_⟩
  rw [List.mem_singleton.mp hg]
  exact he f hf

/-- The property past one more entry. -/
theorem once_push (h : DecidedOnce s) {e : Entry} (hlog : s'.log = s.log ++ [e])
    (hclaims : e.isClaim = true → s.claims < maxAttempts)
    (hdecided : s.decided = true → e.isClaim = false ∧ e.after.webhookStatus ≠ .pending)
    (hcounts : e.Counts) (hholds : e.Holds)
    (horder : ∀ f ∈ s.log, f.InOrder e) : DecidedOnce s' := by
  refine ⟨?_, ?_, fun f hf => ?_, fun f hf => ?_, ?_⟩
  · have hs := h.claims
    unfold claims at hs hclaims ⊢
    rw [hlog, claims_push]
    split
    next he => exact hclaims he
    next => exact hs
  · rw [hlog]
    refine pairwise_push h.decided fun f hf hsettles => hdecided ?_
    exact List.any_eq_true.mpr ⟨f, hf, hsettles⟩
  · rw [hlog] at hf
    rcases List.mem_append.mp hf with hf | hf
    · exact h.counts f hf
    · rw [List.mem_singleton.mp hf]
      exact hcounts
  · rw [hlog] at hf
    rcases List.mem_append.mp hf with hf | hf
    · exact h.holds f hf
    · rw [List.mem_singleton.mp hf]
      exact hholds
  · rw [hlog]
    exact pairwise_push h.inOrder horder

/-- A transaction that claims nothing and records no outcome. -/
structure Keeps (l l' : Ledger) : Prop where
  jobs : JobsBelow l'.jobs
  attempts : l'.event.webhookAttempts = l.event.webhookAttempts
  /-- An event not delivered yet stays untouched. -/
  fresh : l'.event.outcome = some .pending →
    l.event.outcome = some .pending ∧ l'.event.webhookStatus = .none
  /-- The sweep settles a row only after the last attempt. -/
  settled : l'.event.webhookStatus.settled = true →
    l.event.webhookStatus.settled = true ∨ maxAttempts ≤ l.event.webhookAttempts

theorem Inv.did (h : s.Inv) {ledger : Ledger} (hk : Keeps s.ledger ledger)
    (hpending : s.decided = true → ledger.event.webhookStatus ≠ .pending) : (s.did ledger).Inv := by
  have hclaims : (s.did ledger).claims = s.claims := by
    show (s.log ++ [_]).countP _ = _
    rw [claims_push]
    rfl
  have hdecided : (s.did ledger).decided = (s.decided || ledger.event.webhookStatus.settled) :=
    decided_push _ _
  have hlate : ledger.event.webhookStatus.settled = true → s.decided = false →
      maxAttempts ≤ s.ledger.event.webhookAttempts := by
    intro hsettled hundecided
    rcases hk.settled hsettled with hs | hs
    · rw [h.current hs] at hundecided
      cases hundecided
    · exact hs
  exact
    { once := once_push h.once rfl (fun hc => Bool.noConfusion hc) (fun hd => ⟨rfl, hpending hd⟩)
        (.inl (Nat.le_of_eq hk.attempts.symm)) (fun _ _ _ _ he => Entry.noConfusion he)
        (fun _ _ _ _ _ hn => absurd hn.symm (Option.some_ne_none _))
      jobs := hk.jobs
      snapshots := h.snapshots
      fresh := fun ho => by
        obtain ⟨hpend, hnone⟩ := hk.fresh ho
        obtain ⟨hd, _, ha⟩ := h.fresh hpend
        refine ⟨?_, hnone, hk.attempts.trans ha⟩
        rw [hdecided, hd]
        show ledger.event.webhookStatus.settled = false
        rw [hnone]
        rfl
      undecided := fun hd => by
        rw [hdecided, Bool.or_eq_false_iff] at hd
        rw [hclaims]
        exact hk.attempts.trans (h.undecided hd.1)
      current := fun hs => by
        rw [hdecided, Bool.or_eq_true]
        exact .inr hs
      decided := fun hd => by
        rw [hdecided, Bool.or_eq_true] at hd
        rcases hd with hd | hd
        · exact hpending hd
        · intro hp
          rw [show ledger.event.webhookStatus = .pending from hp] at hd
          cases hd
      workers := fun w hw => by
        rw [hclaims]
        exact h.workers w hw
      distinct := h.distinct
      newest := fun w hw hn => by
        rw [hclaims] at hn ⊢
        obtain ⟨ha, hd⟩ := h.newest w hw hn
        refine ⟨hk.attempts.trans ha, fun hd' => ?_⟩
        cases hdec : s.decided with
        | true => exact hd hdec
        | false =>
          rw [hdecided, hdec] at hd'
          rw [← ha]
          exact hlate hd' hdec
      recorded := fun e he n hn => by
        rw [hclaims]
        rcases List.mem_append.mp he with he | he
        · exact h.recorded e he n hn
        · rw [List.mem_singleton.mp he] at hn
          cases hn }

/-! ## 3. The steps -/

theorem keeps_acknowledge (h : s.Inv) : Keeps s.ledger
    { s.ledger with event := { s.ledger.event with outcome := some .acknowledged } } :=
  ⟨h.jobs, rfl, nofun, .inl⟩

theorem jobsBelow_push {jobs : List QueuedWebhook} (h : JobsBelow jobs) (wait : Nat) {n : Nat}
    (hn : n < maxAttempts) : JobsBelow (jobs ++ [⟨wait, ⟨some n⟩⟩]) := by
  intro q hq
  rcases List.mem_append.mp hq with hq | hq
  · exact h q hq
  · rw [List.mem_singleton.mp hq]
    exact ⟨n, rfl, hn⟩

/-- What `perform_delivery` does: nothing, an outcome without a webhook, or the webhook opened. -/
theorem perform_cases (l : Ledger) (env : Surroundings) (now : Int) :
    l.performDelivery env now = l ∨
    (l.event.outcome = some .pending ∧ (l.performDelivery env now).jobs = l.jobs ∧
      (l.performDelivery env now).event.webhookAttempts = l.event.webhookAttempts ∧
      (l.performDelivery env now).event.outcome ≠ some .pending ∧
      ((l.performDelivery env now).event.webhookStatus = l.event.webhookStatus ∨
        (l.performDelivery env now).event.webhookStatus = .none)) ∨
    ((l.event.outcome = some .pending ∨ l.opensAcknowledged env = true) ∧
      (l.performDelivery env now).jobs = l.jobs ++ [⟨0, ⟨some l.event.webhookAttempts⟩⟩] ∧
      (l.performDelivery env now).event.webhookAttempts = l.event.webhookAttempts ∧
      (l.performDelivery env now).event.outcome ≠ some .pending ∧
      (l.performDelivery env now).event.webhookStatus = .pending) := by
  by_cases ht : l.event.eventType ∈ messageTypes
  · by_cases ha : l.event.outcome = some .acknowledged
    · by_cases ho : env.hasWebhook = true ∧ env.authorized = true ∧ l.event.webhookStatus = .none
      · refine .inr (.inr ⟨.inr ?_, ?_⟩)
        · simp [Ledger.opensAcknowledged, ht, ha, ho.1, ho.2.1, ho.2.2]
        · simp [Ledger.performDelivery, ht, ha, ho.1, ho.2.1, ho.2.2, Ledger.enqueueWebhook]
      · refine .inl ?_
        have hclosed : (env.hasWebhook && env.authorized && (l.event.webhookStatus = .none : Bool)) = false := by
          simpa using ho
        simp [Ledger.performDelivery, ha, hclosed]
    · by_cases hp : l.event.outcome = some .pending
      · cases hv : env.available with
        | false =>
          refine .inr (.inl ⟨hp, ?_⟩)
          simp [Ledger.performDelivery, ht, hp, hv, Ledger.suppressed]
        | true =>
          cases hs : l.suppression env with
          | some reason =>
            refine .inr (.inl ⟨hp, ?_⟩)
            simp [Ledger.performDelivery, ht, hp, hv, hs, Ledger.suppressed]
          | none =>
            cases hw : env.hasWebhook with
            | false =>
              refine .inr (.inl ⟨hp, ?_⟩)
              simp [Ledger.performDelivery, ht, hp, hv, hs, hw]
            | true =>
              refine .inr (.inr ⟨.inl hp, ?_⟩)
              simp [Ledger.performDelivery, ht, hp, hv, hs, hw, Ledger.enqueueWebhook]
      · refine .inl ?_
        simp [Ledger.performDelivery, ha, hp]
  · refine .inl ?_
    simp [Ledger.performDelivery, ht]

theorem inv_perform (h : s.Inv) (env : Surroundings) (hg : Undisturbed s (.perform env)) :
    (s.did (s.ledger.performDelivery env s.now)).Inv := by
  rcases perform_cases s.ledger env s.now with heq | ⟨hp, hj, ha, ho, hst⟩ | ⟨hopen, hj, ha, ho, hst⟩
  · rw [heq]
    exact h.did ⟨h.jobs, rfl, fun hp => ⟨hp, (h.fresh hp).2.1⟩, .inl⟩ h.decided
  · obtain ⟨_, hnone, _⟩ := h.fresh hp
    rw [hnone, or_self] at hst
    refine h.did ⟨hj ▸ h.jobs, ha, fun hp' => absurd hp' ho, fun hs => ?_⟩ fun _ => ?_
    · rw [hst] at hs
      cases hs
    · rw [hst]
      nofun
  · have hopened : s.decided = false ∧ s.ledger.event.webhookAttempts < maxAttempts := by
      rcases hopen with hp | hopen
      · obtain ⟨hd, _, hz⟩ := h.fresh hp
        exact ⟨hd, by rw [hz]; decide⟩
      · exact hg hopen
    refine h.did ⟨?_, ha, fun hp' => absurd hp' ho, fun hs => ?_⟩ fun hd => ?_
    · rw [hj]
      exact jobsBelow_push h.jobs 0 hopened.2
    · rw [hst] at hs
      cases hs
    · rw [hopened.1] at hd
      cases hd

theorem inv_recover (h : s.Inv) {c : Recovery} (hc : c ∈ s.candidates) :
    (s.did (s.ledger.recoverOne s.now c)).Inv := by
  cases c with
  | delivery => exact h.did ⟨h.jobs, rfl, fun hp => ⟨hp, (h.fresh hp).2.1⟩, .inl⟩ h.decided
  | webhook attempt next =>
    have hevent : ∀ event : AgentEvent,
        event = s.ledger.event ∨ event = { s.ledger.event with webhookNextAttemptAt := some s.now } →
        event.webhookStatus = s.ledger.event.webhookStatus ∧ event.outcome = s.ledger.event.outcome ∧
          event.webhookAttempts = s.ledger.event.webhookAttempts := by
      rintro event (rfl | rfl)
      · exact ⟨rfl, rfl, rfl⟩
      · exact ⟨rfl, rfl, rfl⟩
    obtain ⟨hst, ho, ha⟩ := hevent (s.ledger.recoverOne s.now (.webhook attempt next)).event (by
      show (if _ then _ else _) = _ ∨ (if _ then _ else _) = _
      split
      · exact .inr rfl
      · exact .inl rfl)
    refine h.did ⟨jobsBelow_push h.jobs 0 (h.snapshots _ _ hc), ha, fun hp => ?_, fun hs => .inl ?_⟩ ?_
    · rw [ho] at hp
      exact ⟨hp, hst.trans (h.fresh hp).2.1⟩
    · rw [← hst]
      exact hs
    · rw [hst]
      exact h.decided

theorem inv_exhaust (h : s.Inv) (t : Int) :
    (s.did { s.ledger with event := failExhausted s.ledger.event t }).Inv := by
  by_cases hx : s.ledger.event.webhookStatus = .pending ∧ 5 ≤ s.ledger.event.webhookAttempts ∧
      overdue s.ledger.event (t - minutes 7) = true
  · rw [failExhausted, if_pos hx]
    refine h.did ⟨h.jobs, rfl, fun hp => ?_, fun _ => .inr hx.2.1⟩ nofun
    rw [(h.fresh hp).2.1] at hx
    cases hx.1
  · rw [failExhausted, if_neg hx]
    exact h.did ⟨h.jobs, rfl, fun hp => ⟨hp, (h.fresh hp).2.1⟩, .inl⟩ h.decided

/-- A job's attempt claims a row that waits at just this attempt; else it changes its status at most
    to none. -/
theorem claim_cases (e : AgentEvent) (job : EventWebhookJob) (hasWebhook : Bool) (now : Int) :
    claimWebhook e job hasWebhook now = (e, none) ∨
    claimWebhook e job hasWebhook now = ({ e with webhookStatus := .none }, none) ∨
    (e.webhookStatus = .pending ∧ e.webhookAttempts = job.attempt.getD e.webhookAttempts ∧
      ∃ claimed : AgentEvent, claimWebhook e job hasWebhook now = (claimed, some claimed) ∧
        claimed = { e with
          webhookAttempts := job.attempt.getD e.webhookAttempts + 1
          webhookNextAttemptAt := some now }) := by
  unfold claimWebhook
  split
  next => exact .inl rfl
  next =>
    split
    next => exact .inr (.inl rfl)
    next =>
      dsimp only
      split
      next hc => exact .inr (.inr ⟨hc.2, hc.1, _, rfl, rfl⟩)
      next => exact .inl rfl

theorem inv_claimed (h : s.Inv) {event : AgentEvent} (hstatus : s.ledger.event.webhookStatus = .pending)
    (hattempts : s.ledger.event.webhookAttempts < maxAttempts)
    (hevent : event =
      { s.ledger.event with
        webhookAttempts := s.ledger.event.webhookAttempts + 1
        webhookNextAttemptAt := some s.now }) :
    Inv { s with
      ledger := { s.ledger with event := event }
      workers := s.workers ++ [⟨s.claims + 1, event⟩]
      log := s.log ++ [.claimed s.ledger.event event] } := by
  have hd : s.decided = false := by
    cases hd : s.decided with
    | false => rfl
    | true => exact absurd hstatus (h.decided hd)
  have ha : s.ledger.event.webhookAttempts = s.claims := h.undecided hd
  have hevent' : event.webhookStatus = .pending ∧ event.webhookAttempts = s.claims + 1 ∧
      event.outcome = s.ledger.event.outcome := by
    rw [hevent, ← ha]
    exact ⟨hstatus, rfl, rfl⟩
  obtain ⟨hst, hat, hout⟩ := hevent'
  have hclaims : (s.log ++ [Entry.claimed s.ledger.event event]).countP Entry.isClaim = s.claims + 1 := by
    rw [claims_push]
    rfl
  have hundecided : (s.log ++ [Entry.claimed s.ledger.event event]).any Entry.settles = false := by
    rw [decided_push, show s.log.any Entry.settles = false from hd]
    show event.webhookStatus.settled = false
    rw [hst]
    rfl
  have hnew : s.claims + 1 ∉ s.workers.map (·.number) := by
    intro hm
    obtain ⟨w, hw, hn⟩ := List.mem_map.mp hm
    have := (h.workers w hw).2.1
    omega
  exact
    { once := by
        refine once_push h.once rfl (fun _ => ha ▸ hattempts) (fun hd' => ?_) (.inl ?_)
          (fun _ _ _ _ he => Entry.noConfusion he) (fun _ _ _ _ _ hn => absurd hn.symm (Option.some_ne_none _))
        · rw [hd] at hd'
          cases hd'
        · show s.ledger.event.webhookAttempts ≤ event.webhookAttempts
          omega
      jobs := h.jobs
      snapshots := h.snapshots
      fresh := fun ho => by
        obtain ⟨_, hnone, _⟩ := h.fresh (hout.symm.trans ho)
        rw [hstatus] at hnone
        cases hnone
      undecided := fun _ => hat.trans hclaims.symm
      current := fun hs => by
        rw [show event.webhookStatus = .pending from hst] at hs
        cases hs
      decided := fun hd' => Bool.noConfusion (hundecided.symm.trans hd')
      workers := fun w hw => by
        rw [claims, hclaims]
        rcases List.mem_append.mp hw with hw | hw
        · obtain ⟨hpos, hle, hcopy⟩ := h.workers w hw
          exact ⟨hpos, by omega, hcopy⟩
        · rw [List.mem_singleton.mp hw]
          exact ⟨Nat.le_add_left 1 _, Nat.le_refl _, hat⟩
      distinct := by
        rw [List.map_append, List.nodup_append]
        refine ⟨h.distinct, List.pairwise_singleton _ _, fun n hn m hm heq => hnew ?_⟩
        rw [List.map_singleton, List.mem_singleton] at hm
        rw [heq.trans hm] at hn
        exact hn
      newest := fun w hw hn => by
        exact ⟨hat.trans hclaims.symm, fun hd' => Bool.noConfusion (hundecided.symm.trans hd')⟩
      recorded := fun e he n hn => by
        rw [claims, hclaims]
        rcases List.mem_append.mp he with he | he
        · obtain ⟨hle, hnot⟩ := h.recorded e he n hn
          refine ⟨by omega, fun hm => ?_⟩
          rw [List.map_append, List.mem_append] at hm
          rcases hm with hm | hm
          · exact hnot hm
          · rw [List.map_singleton, List.mem_singleton] at hm
            have : n = s.claims + 1 := hm
            omega
        · rw [List.mem_singleton.mp he] at hn
          cases hn }

theorem inv_claim (h : s.Inv) {job : Nat} {hasWebhook : Bool}
    (hs : s.step (.claim job hasWebhook) = some s') : s'.Inv := by
  rw [step] at hs
  split at hs
  next => cases hs
  next queued hq =>
    obtain ⟨n, hn, hlt⟩ := h.jobs queued (List.mem_of_getElem? hq)
    rcases claim_cases s.ledger.event queued.job hasWebhook s.now with heq | heq | ⟨hp, ha, event, heq, hevent⟩
    · rw [heq] at hs
      cases hs
      exact h.did ⟨h.jobs, rfl, fun hp => ⟨hp, (h.fresh hp).2.1⟩, .inl⟩ h.decided
    · rw [heq] at hs
      cases hs
      exact h.did ⟨h.jobs, rfl, fun hp => ⟨hp, rfl⟩, fun hs => Bool.noConfusion hs⟩
        fun _ => WebhookStatus.noConfusion
    · rw [heq] at hs
      cases hs
      rw [hn, Option.getD_some] at ha
      refine inv_claimed h hp (by rw [ha]; exact hlt) ?_
      rw [hevent, hn, Option.getD_some, ← ha]

/-- What `finish_webhook` writes: a settled row, one failed with the attempt given back, or one that
    waits for its next attempt. -/
theorem finish_cases (l : Ledger) (e : AgentEvent) (result : AttemptOutcome) (now : Int) :
    (l.finishWebhook e result now).event.outcome = l.event.outcome ∧
    (((l.finishWebhook e result now).jobs = l.jobs ∧
      (l.finishWebhook e result now).event.webhookStatus.settled = true ∧
        (l.finishWebhook e result now).event.webhookAttempts = e.webhookAttempts) ∨
    ((l.finishWebhook e result now).jobs = l.jobs ∧ (∃ error, result = .permanent error) ∧
      (l.finishWebhook e result now).event.webhookStatus = .failed) ∨
    (∃ wait, (l.finishWebhook e result now).jobs = l.jobs ++ [⟨wait, ⟨some e.webhookAttempts⟩⟩] ∧
      e.webhookAttempts < maxAttempts ∧
      (l.finishWebhook e result now).event.webhookStatus = .pending ∧
        (l.finishWebhook e result now).event.webhookAttempts = e.webhookAttempts)) := by
  cases result with
  | delivered => exact ⟨rfl, .inl ⟨rfl, rfl, rfl⟩⟩
  | permanent error => exact ⟨rfl, .inr (.inl ⟨rfl, ⟨error, rfl⟩, rfl⟩)⟩
  | retry error hint =>
    unfold Ledger.finishWebhook
    dsimp only
    split
    next => exact ⟨rfl, .inl ⟨rfl, rfl, rfl⟩⟩
    next hlt => exact ⟨rfl, .inr (.inr ⟨_, rfl, Nat.not_le.mp hlt, rfl, rfl⟩)⟩

/-- The other workers are of other claims. -/
theorem number_ne_of_erased (h : s.Inv) {k : Nat} {w : Worker} (hw : s.workers[k]? = some w) :
    w.number ∉ (s.workers.eraseIdx k).map (·.number) ∧
      ((s.workers.eraseIdx k).map (·.number)).Nodup := by
  obtain ⟨hk, rfl⟩ := List.getElem?_eq_some_iff.mp hw
  have hperm := (List.getElem_cons_eraseIdx_perm hk).map (·.number)
  exact List.nodup_cons.mp (hperm.nodup_iff.mpr h.distinct)

theorem inv_finish (h : s.Inv) {k : Nat} {result : AttemptOutcome} (hg : Undisturbed s (.finish k result))
    (hs : s.step (.finish k result) = some s') : s'.Inv := by
  rw [step] at hs
  split at hs
  next => cases hs
  next w hw =>
    have hmem := List.mem_of_getElem? hw
    have hnum : w.number = s.claims := hg w hw
    obtain ⟨hpos, _, hcopy⟩ := h.workers w hmem
    obtain ⟨ha, hlast⟩ := h.newest w hmem hnum
    obtain ⟨hother, hnodup⟩ := number_ne_of_erased h hw
    obtain ⟨hout, hcases⟩ := finish_cases s.ledger w.event result s.now
    generalize s.ledger.finishWebhook w.event result s.now = l' at hs hout hcases
    cases hs
    have hclaims : (s.log ++ [Entry.finished w result s.ledger.event l'.event]).countP Entry.isClaim =
        s.claims := by
      rw [claims_push]
      rfl
    have hdecided : (s.log ++ [Entry.finished w result s.ledger.event l'.event]).any Entry.settles =
        (s.decided || l'.event.webhookStatus.settled) := decided_push _ _
    have hnotFresh : l'.event.outcome ≠ some .pending := by
      intro ho
      have := (h.fresh (hout.symm.trans ho)).2.2
      omega
    have hbelow : ∀ e ∈ s.log, ∀ n, e.finisher = some n → n < w.number := by
      intro e he n hn
      obtain ⟨hle, hnot⟩ := h.recorded e he n hn
      refine Nat.lt_of_le_of_ne (hnum ▸ hle) fun heq => hnot ?_
      exact List.mem_map.mpr ⟨w, hmem, heq.symm⟩
    -- a row left waiting isn't decided: the attempts of a decided one are used up
    have hwaits : s.decided = true → l'.event.webhookStatus ≠ .pending := by
      intro hd hp
      have hused := hlast hd
      rcases hcases with ⟨_, hst, _⟩ | ⟨_, _, hst⟩ | ⟨_, _, hlt, _⟩
      · rw [hp] at hst
        cases hst
      · rw [hp] at hst
        cases hst
      · omega
    have hcounts : Entry.Counts (.finished w result s.ledger.event l'.event) := by
      rcases hcases with ⟨_, _, hat⟩ | ⟨_, ⟨error, rfl⟩, hst⟩ | ⟨_, _, _, _, hat⟩
      · exact .inl (show s.ledger.event.webhookAttempts ≤ l'.event.webhookAttempts by omega)
      · exact .inr ⟨w, error, rfl, hst⟩
      · exact .inl (show s.ledger.event.webhookAttempts ≤ l'.event.webhookAttempts by omega)
    exact
      { once := by
          refine once_push h.once rfl (fun hc => Bool.noConfusion hc) (fun hd => ⟨rfl, hwaits hd⟩) hcounts ?_ ?_
          · intro w' r b a he
            cases he
            exact ha.trans (hnum.symm.trans hcopy.symm)
          · intro f hf m n hm hn
            cases hn
            exact hbelow f hf m hm
        jobs := by
          rcases hcases with ⟨hj, _⟩ | ⟨hj, _⟩ | ⟨wait, hj, hlt, _⟩
          · exact hj ▸ h.jobs
          · exact hj ▸ h.jobs
          · exact hj ▸ jobsBelow_push h.jobs wait hlt
        snapshots := h.snapshots
        fresh := fun ho => absurd ho hnotFresh
        undecided := fun hd => by
          have hd' := Bool.or_eq_false_iff.mp (hdecided.symm.trans hd)
          refine Eq.trans ?_ hclaims.symm
          show l'.event.webhookAttempts = s.claims
          rcases hcases with ⟨_, hst, _⟩ | ⟨_, _, hst⟩ | ⟨_, _, _, _, hat⟩
          · exact Bool.noConfusion (hst.symm.trans hd'.2)
          · rw [hst] at hd'
            exact Bool.noConfusion hd'.2
          · omega
        current := fun hst => by
          refine hdecided.trans ?_
          rw [Bool.or_eq_true]
          exact .inr hst
        decided := fun hd => by
          rcases (Bool.or_eq_true _ _).mp (hdecided.symm.trans hd) with hd | hst
          · exact hwaits hd
          · intro hp
            rw [show l'.event.webhookStatus = .pending from hp] at hst
            cases hst
        workers := fun w' hw' => by
          obtain ⟨hpos', hle, hcopy'⟩ := h.workers w' (List.mem_of_mem_eraseIdx hw')
          exact ⟨hpos', Nat.le_trans hle (Nat.le_of_eq hclaims.symm), hcopy'⟩
        distinct := hnodup
        newest := fun w' hw' hn => by
          refine absurd ?_ hother
          exact List.mem_map.mpr ⟨w', hw', hn.trans (hclaims.trans hnum.symm)⟩
        recorded := fun e he n hn => by
          rcases List.mem_append.mp he with he | he
          · obtain ⟨hle, hnot⟩ := h.recorded e he n hn
            refine ⟨Nat.le_trans hle (Nat.le_of_eq hclaims.symm), fun hm => hnot ?_⟩
            obtain ⟨w', hw', rfl⟩ := List.mem_map.mp hm
            exact List.mem_map.mpr ⟨w', List.mem_of_mem_eraseIdx hw', rfl⟩
          · rw [List.mem_singleton.mp he] at hn
            cases hn
            exact ⟨Nat.le_of_eq (hnum.trans hclaims.symm), hother⟩ }

theorem inv_sweep (h : s.Inv) :
    Inv { s with candidates := s.candidates ++ recoveryCandidates s.ledger.event s.now } := by
  refine { h with snapshots := fun n next hc => ?_, once := ?_ }
  · exact ⟨h.once.claims, h.once.decided, h.once.counts, h.once.holds, h.once.inOrder⟩
  · rcases List.mem_append.mp hc with hc | hc
    · exact h.snapshots n next hc
    · rcases List.mem_append.mp hc with hc | hc
      · split at hc
        · cases List.mem_singleton.mp hc
        · cases hc
      · split at hc
        next hp =>
          cases List.mem_singleton.mp hc
          exact hp.2.1
        next => cases hc

/-! ## 4. Runs -/

theorem inv_step {a : Label} (h : s.Inv) (hg : Undisturbed s a) (hs : s.step a = some s') : s'.Inv := by
  cases a with
  | tick =>
    cases hs
    exact { h with once := ⟨h.once.claims, h.once.decided, h.once.counts, h.once.holds, h.once.inOrder⟩ }
  | acknowledge =>
    cases hs
    exact h.did (keeps_acknowledge h) h.decided
  | perform env =>
    cases hs
    exact inv_perform h env hg
  | claim => exact inv_claim h hs
  | finish => exact inv_finish h hg hs
  | sweep =>
    cases hs
    exact inv_sweep h
  | recover candidate =>
    rw [step] at hs
    split at hs
    next => cases hs
    next c hc =>
      cases hs
      exact inv_recover h (List.mem_of_getElem? hc)
  | exhaust since =>
    cases hs
    exact inv_exhaust h _

theorem inv_reach (h : ReachWhen deliverySystem Undisturbed s) : s.Inv :=
  h.induct (fun _ => inv_start) fun _ _ _ _ => inv_step

/-- **A delivery is decided once, in every run in which an outcome is of the newest claim, and a
    webhook is opened only where the delivery isn't decided and has attempts left.** -/
theorem decidedOnce_of_reach (h : ReachWhen deliverySystem Undisturbed s) : DecidedOnce s :=
  (inv_reach h).once

instance instDecidableUndisturbed (s : Delivery) (a : Label) : Decidable (Undisturbed s a) := by
  cases a with
  | finish worker result =>
    show Decidable (∀ w, s.workers[worker]? = some w → w.number = s.claims)
    cases h : s.workers[worker]? with
    | none => exact isTrue fun _ h => by cases h
    | some w => exact decidable_of_iff (w.number = s.claims) ⟨fun hn _ he => by cases he; exact hn, fun h => h w rfl⟩
  | perform env =>
    exact inferInstanceAs (Decidable (s.ledger.opensAcknowledged env = true →
      s.decided = false ∧ s.ledger.event.webhookAttempts < maxAttempts))
  | tick | acknowledge | claim | sweep | recover | exhaust => exact isTrue trivial

def openSurroundings : Surroundings := ⟨true, true, true, false⟩

def newMention : Delivery := ⟨⟨newEvent "mention" (some .pending) 0 0, [], []⟩, 0, [], [], []⟩

/-- A first attempt to be retried, a second one delivered. -/
def retriedRun : List Label :=
  [.perform openSurroundings, .claim 0 true, .finish 0 (.retry "timeout" none), .claim 0 true, .claim 1 true,
    .finish 0 .delivered, .claim 1 true]

theorem decidedOnce_of_reach_sample : ∃ s, ReachWhen deliverySystem Undisturbed s ∧
    s.ledger.event.webhookStatus = .delivered ∧ s.claims = 2 ∧ DecidedOnce s := by
  obtain ⟨s, hs, hp⟩ := exists_reachWhen_of_replay (T := deliverySystem) (G := Undisturbed)
    (s := newMention) (l := retriedRun)
    (p := fun s => s.ledger.event.webhookStatus = .delivered ∧ s.claims = 2)
    ⟨_, _, _, _, rfl⟩ (by decide +kernel)
  obtain ⟨hst, hc⟩ := of_decide_eq_true hp
  exact ⟨s, hs, hst, hc, decidedOnce_of_reach hs⟩

/-- A worker sends for three minutes: the sweep has its attempt claimed again and delivered, then the
    first worker records that it timed out. -/
def overtakenRun : List Label :=
  [.perform openSurroundings, .claim 0 true, .tick 180000000, .sweep, .recover 0, .claim 1 true,
    .finish 1 .delivered, .finish 0 (.retry "timeout" none)]

instance instDecidableStaysDecided (e f : Entry) : Decidable (e.StaysDecided f) :=
  inferInstanceAs (Decidable (e.settles = true → f.isClaim = false ∧ f.after.webhookStatus ≠ .pending))

/-- **A slow worker writes over the outcome of a later claim**: the delivered webhook waits for its
    second attempt. -/
theorem delivery_overwritten : ¬ ∀ s, Reach deliverySystem s → DecidedOnce s := by
  intro hall
  obtain ⟨s, hs, hp⟩ := exists_reachWhen_of_replay (T := deliverySystem) (G := fun _ _ => True)
    (s := newMention) (l := overtakenRun)
    (p := fun s => s.ledger.event.webhookStatus = .pending ∧ s.ledger.event.webhookAttempts = 1 ∧
      ¬ s.log.Pairwise Entry.StaysDecided)
    ⟨_, _, _, _, rfl⟩ (by decide +kernel)
  exact (of_decide_eq_true hp).2.2 (hall s hs).decided

end Delivery

end Smartfire.AgentDelivery
