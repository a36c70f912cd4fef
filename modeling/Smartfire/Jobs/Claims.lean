/-
  File:      Smartfire/Jobs/Claims.lean
  Subject:   A job's row obeys only its current claim.

  A runner owns a row by its own name, not by the claim. So an execution owns the row of the claim
  that started it as long as its runner has not claimed the job again: of the executions a runner
  still performs, those of a job it holds are all of the claim that holds it.

  * `JobSystem.Inv`, `inv_reach` -- who holds a row, and how often it was claimed, by the history;
  * `Obeys`, `obeys_of_reach` -- the property, in every run in which a claim takes no job that the
    runner still performs;
  * `obeys_reclaimed` -- a run in which an execution deletes the row of a later claim.
-/
import Smartfire.Jobs.Runner

namespace Smartfire

open Lib

/-! ## 1. What the history says -/

section History

variable {h evs before after : List JobEvent} {e : JobEvent} {id : Nat}

theorem holds_of_ne {held : Option (Nat × String)} {n : Nat} (hne : e.id ≠ id) :
    holds id held (e, n) = held := if_neg hne

theorem foldl_holds_of_ne (hne : ∀ e ∈ evs, e.id ≠ id) (held : Option (Nat × String)) (n : Nat) :
    (evs.zipIdx n).foldl (holds id) held = held := by
  induction evs generalizing held n with
  | nil => rfl
  | cons e evs ih =>
    rw [List.zipIdx_cons, List.foldl_cons, holds_of_ne (hne e List.mem_cons_self)]
    exact ih (fun e' he => hne e' (List.mem_cons_of_mem _ he)) held (n + 1)

theorem holder_append :
    holder (h ++ evs) id = (evs.zipIdx h.length).foldl (holds id) (holder h id) := by
  unfold holder
  rw [List.zipIdx_append, List.foldl_append, Nat.zero_add]

theorem holder_of_ne (hne : ∀ e ∈ evs, e.id ≠ id) : holder (h ++ evs) id = holder h id := by
  rw [holder_append, foldl_holds_of_ne hne]

/-- The only event about the job decides who holds it. -/
theorem holder_of_one (hb : ∀ e ∈ before, e.id ≠ id) (ha : ∀ e ∈ after, e.id ≠ id) :
    holder (h ++ (before ++ e :: after)) id = holds id (holder h id) (e, h.length + before.length) := by
  rw [holder_append, List.zipIdx_append, List.foldl_append, foldl_holds_of_ne hb, List.zipIdx_cons,
    List.foldl_cons, foldl_holds_of_ne ha]

theorem filter_of_ne (hne : ∀ e ∈ evs, e.id ≠ id) : evs.filter (·.id = id) = [] := by
  simpa [List.filter_eq_nil_iff] using hne

theorem sinceReset_of_ne (hne : ∀ e ∈ evs, e.id ≠ id) : sinceReset (h ++ evs) id = sinceReset h id := by
  unfold sinceReset
  rw [List.reverse_append, List.filter_append, filter_of_ne (by simpa using hne), List.nil_append]

theorem sinceReset_of_one (hid : e.id = id) (hb : ∀ e ∈ before, e.id ≠ id)
    (ha : ∀ e ∈ after, e.id ≠ id) : sinceReset (h ++ (before ++ e :: after)) id =
      if e.resets then [] else e :: sinceReset h id := by
  have hfilter : (h ++ (before ++ e :: after)).reverse.filter (·.id = id) =
      e :: h.reverse.filter (·.id = id) := by
    have hb' : before.reverse.filter (·.id = id) = [] := filter_of_ne (by simpa using hb)
    have ha' : after.reverse.filter (·.id = id) = [] := filter_of_ne (by simpa using ha)
    rw [List.reverse_append, List.reverse_append, List.reverse_cons, List.filter_append,
      List.filter_append, List.filter_append, ha', hb']
    simp [hid]
  unfold sinceReset
  rw [hfilter, List.takeWhile_cons]
  cases e.resets <;> rfl

theorem claimsSince_of_one (hid : e.id = id) (hb : ∀ e ∈ before, e.id ≠ id)
    (ha : ∀ e ∈ after, e.id ≠ id) : claimsSince (h ++ (before ++ e :: after)) id =
      if e.resets then 0 else (if e.isClaim then 1 else 0) + claimsSince h id := by
  unfold claimsSince
  rw [sinceReset_of_one hid hb ha]
  cases e.resets with
  | true => rfl
  | false => simp [List.countP_cons, Nat.add_comm]

theorem releasesSince_of_one (hid : e.id = id) (hb : ∀ e ∈ before, e.id ≠ id)
    (ha : ∀ e ∈ after, e.id ≠ id) : releasesSince (h ++ (before ++ e :: after)) id =
      if e.resets then 0 else (if e.isRelease then 1 else 0) + releasesSince h id := by
  unfold releasesSince
  rw [sinceReset_of_one hid hb ha]
  cases e.resets with
  | true => rfl
  | false => simp [List.countP_cons, Nat.add_comm]

end History

/-! ## 2. A row against the history -/

/-- What the history says of a row. -/
structure JobRow.Recorded (h : List JobEvent) (row : JobRow) : Prop where
  /-- A running row is held by the claim that holds the job, of the runner it names. -/
  held : row.status = .running →
    ∃ n runner, row.claimedBy = some runner ∧ holder h row.id = some (n, runner)
  attempts : row.attempts + releasesSince h row.id = claimsSince h row.id
  started : row.status = .running → 1 ≤ row.attempts

namespace JobRow.Recorded

variable {h evs before after : List JobEvent} {e : JobEvent} {row row' : JobRow}

/-- Events about other jobs bear on nothing. -/
theorem frame (hr : row.Recorded h) (hne : ∀ e ∈ evs, e.id ≠ row.id) : row.Recorded (h ++ evs) := by
  refine ⟨fun hs => ?_, ?_, hr.started⟩
  · rw [holder_of_ne hne]
    exact hr.held hs
  · unfold releasesSince claimsSince
    rw [sinceReset_of_ne hne]
    exact hr.attempts

/-- Nor does what isn't about who holds the row. -/
theorem same (hr : row.Recorded h) (hid : row'.id = row.id) (ha : row'.attempts = row.attempts)
    (hs : row'.status = .running → row.status = .running ∧ row'.claimedBy = row.claimedBy) :
    row'.Recorded h := by
  refine ⟨fun hrun => ?_, ?_, fun hrun => ?_⟩
  · obtain ⟨hrun', hby⟩ := hs hrun
    rw [hid, hby]
    exact hr.held hrun'
  · rw [hid, ha]
    exact hr.attempts
  · rw [ha]
    exact hr.started (hs hrun).1

/-- A claim. -/
theorem claimed (hr : row.Recorded h) {runner : String} (leaseUntil : Int)
    (hb : ∀ e ∈ before, e.id ≠ row.id) (ha : ∀ e ∈ after, e.id ≠ row.id) :
    (row.claimedFor runner leaseUntil).Recorded (h ++ (before ++ .claimed row.id runner :: after)) := by
  refine ⟨fun _ => ⟨h.length + before.length, runner, rfl, ?_⟩, ?_, fun _ => Nat.le_add_left 1 _⟩
  · show holder _ row.id = _
    rw [holder_of_one hb ha]
    exact if_pos rfl
  · show row.attempts + 1 + releasesSince _ row.id = claimsSince _ row.id
    have hid : (JobEvent.claimed row.id runner).id = row.id := rfl
    rw [claimsSince_of_one hid hb ha, releasesSince_of_one hid hb ha]
    have := hr.attempts
    simp only [JobEvent.resets, JobEvent.isClaim, JobEvent.isRelease, Bool.false_eq_true, if_true,
      if_false]
    omega

/-- A row let go: held no more, with its attempts as the event says. -/
theorem letGo (hr : row.Recorded h) (hid : row'.id = row.id) (he : e.id = row.id)
    (hb : ∀ e ∈ before, e.id ≠ row.id) (ha : ∀ e ∈ after, e.id ≠ row.id)
    (hs : row'.status ≠ .running) (hc : e.isClaim = false)
    (hattempts : if e.resets then row'.attempts = 0
      else row'.attempts + (if e.isRelease then 1 else 0) = row.attempts) :
    row'.Recorded (h ++ (before ++ e :: after)) := by
  refine ⟨fun hrun => absurd hrun hs, ?_, fun hrun => absurd hrun hs⟩
  rw [hid, claimsSince_of_one he hb ha, releasesSince_of_one he hb ha, hc]
  have := hr.attempts
  cases hres : e.resets with
  | true =>
    rw [hres] at hattempts
    have hzero : row'.attempts = 0 := hattempts
    simp [hzero]
  | false =>
    rw [hres] at hattempts
    simp only [Bool.false_eq_true, if_false] at hattempts ⊢
    omega

end JobRow.Recorded

theorem mem_updateWhere {p : JobRow → Bool} {f : JobRow → JobRow} {rows : List JobRow} {row' : JobRow}
    (hm : row' ∈ updateWhere p f rows) :
    ∃ row ∈ rows, (p row = true ∧ row' = f row) ∨ (p row = false ∧ row' = row) := by
  obtain ⟨row, hrow, rfl⟩ := List.mem_map.mp hm
  refine ⟨row, hrow, ?_⟩
  cases hp : p row with
  | true => exact .inl ⟨rfl, by simp⟩
  | false => exact .inr ⟨rfl, by simp⟩

theorem updateWhere_ids {p : JobRow → Bool} {f : JobRow → JobRow} (hf : ∀ row, (f row).id = row.id)
    (rows : List JobRow) : (updateWhere p f rows).map (·.id) = rows.map (·.id) := by
  unfold updateWhere
  rw [List.map_map]
  refine List.map_congr_left fun row _ => ?_
  show (if p row = true then f row else row).id = row.id
  split
  · exact hf row
  · rfl

/-- A statement that finds no row changes none. -/
theorem updateWhere_eq_self {p : JobRow → Bool} {f : JobRow → JobRow} {rows : List JobRow}
    (hp : ∀ row ∈ rows, p row = false) : updateWhere p f rows = rows := by
  unfold updateWhere
  rw [List.map_congr_left (g := id) fun row hrow => by simp [hp row hrow], List.map_id]

/-! ## 3. What a step keeps -/

namespace JobSystem

/-- What a run keeps. -/
structure Inv (s : JobSystem) : Prop where
  ids : (s.rows.map (·.id)).Nodup
  below : ∀ row ∈ s.rows, row.id < s.nextId
  past : ∀ e ∈ s.history, e.id < s.nextId
  rows : ∀ row ∈ s.rows, row.Recorded s.history
  /-- Of the executions its holder still performs, those of a job are of the claim that holds it. -/
  latest : ∀ e ∈ s.executions, ∀ n, holder s.history e.job.id = some (n, e.runner) → n = e.claim

variable {s s' : JobSystem}

theorem Inv.unique (hi : s.Inv) {row row' : JobRow} (hr : row ∈ s.rows) (hr' : row' ∈ s.rows)
    (hid : row.id = row'.id) : row = row' :=
  List.inj_on_of_nodup_map hi.ids hr hr' hid

/-- A step that records nothing and moves no row out of or into anybody's hands. -/
theorem Inv.still (hi : s.Inv) (hids : (s'.rows.map (·.id)).Nodup) (hnext : s.nextId ≤ s'.nextId)
    (hbelow : ∀ row ∈ s'.rows, row.id < s'.nextId) (hhistory : s'.history = s.history)
    (hrows : ∀ row ∈ s'.rows, row.Recorded s.history)
    (hexecutions : ∀ e ∈ s'.executions, e ∈ s.executions) : s'.Inv := by
  refine ⟨hids, hbelow, fun e he => ?_, fun row hr => ?_, fun e he n hn => ?_⟩
  · rw [hhistory] at he
    exact Nat.lt_of_lt_of_le (hi.past e he) hnext
  · rw [hhistory]
    exact hrows row hr
  · rw [hhistory] at hn
    exact hi.latest e (hexecutions e he) n hn

/-- A statement that moves no row out of or into anybody's hands. -/
theorem Inv.update (hi : s.Inv) {p : JobRow → Bool} {f : JobRow → JobRow}
    (hf : ∀ row, (f row).id = row.id ∧ (f row).attempts = row.attempts ∧ (f row).status = row.status ∧
      (f row).claimedBy = row.claimedBy) : { s with rows := updateWhere p f s.rows }.Inv := by
  have hmem : ∀ row' ∈ updateWhere p f s.rows, ∃ row ∈ s.rows, row'.id = row.id ∧
      row'.attempts = row.attempts ∧ row'.status = row.status ∧ row'.claimedBy = row.claimedBy := by
    intro row' hr'
    obtain ⟨row, hr, ⟨_, rfl⟩ | ⟨_, rfl⟩⟩ := mem_updateWhere hr'
    · exact ⟨row, hr, hf row⟩
    · exact ⟨row', hr, rfl, rfl, rfl, rfl⟩
  refine hi.still ?_ (Nat.le_refl _) (fun row' hr' => ?_) rfl (fun row' hr' => ?_) fun _ => id
  · rw [updateWhere_ids fun row => (hf row).1]
    exact hi.ids
  · obtain ⟨row, hr, hid, _⟩ := hmem row' hr'
    rw [hid]
    exact hi.below row hr
  · obtain ⟨row, hr, hid, ha, hs, hby⟩ := hmem row' hr'
    exact (hi.rows row hr).same hid ha fun hrun => ⟨hs ▸ hrun, hby⟩

theorem Inv.enqueue (hi : s.Inv) (queue jobClass : String) (arguments : RetryState) (runAt : Int) :
    { s with
      nextId := s.nextId + 1
      rows := s.rows ++ [newJob s.nextId queue jobClass arguments runAt] }.Inv := by
  have hnew : ∀ e ∈ s.history, e.id ≠ s.nextId := fun e he => Nat.ne_of_lt (hi.past e he)
  have hsince : sinceReset s.history s.nextId = [] := by
    have := @sinceReset_of_ne [] s.history s.nextId hnew
    rwa [List.nil_append] at this
  refine hi.still ?_ (Nat.le_succ _) (fun row hr => ?_) rfl (fun row hr => ?_) fun _ => id
  · rw [List.map_append, List.nodup_append]
    refine ⟨hi.ids, List.nodup_singleton _, fun id hid id' hid' => ?_⟩
    obtain ⟨row, hr, rfl⟩ := List.mem_map.mp hid
    obtain rfl : id' = s.nextId := List.mem_singleton.mp hid'
    exact Nat.ne_of_lt (hi.below row hr)
  · rcases List.mem_append.mp hr with hr | hr
    · exact Nat.lt_succ_of_lt (hi.below row hr)
    · rw [List.mem_singleton.mp hr]
      exact Nat.lt_succ_self _
  · rcases List.mem_append.mp hr with hr | hr
    · exact hi.rows row hr
    · rw [List.mem_singleton.mp hr]
      refine ⟨nofun, ?_, nofun⟩
      show 0 + (sinceReset s.history s.nextId).countP _ = (sinceReset s.history s.nextId).countP _
      rw [hsince]
      rfl

/-- An event that lets a job go: its row is changed as `f` says, and no other. -/
theorem Inv.letGo (hi : s.Inv) {e : JobEvent} {rows : List JobRow} {executions : List JobExecution}
    {listed : List JobRow} {held : JobRow} (hheld : held ∈ s.rows) (he : e.id = held.id)
    (hc : e.isClaim = false) (hids : (rows.map (·.id)).Nodup)
    (hrows : ∀ row' ∈ rows, (row' ∈ s.rows ∧ row'.id ≠ held.id) ∨ (row'.id = held.id ∧
      row'.status ≠ .running ∧ if e.resets then row'.attempts = 0
        else row'.attempts + (if e.isRelease then 1 else 0) = held.attempts))
    (hexecutions : ∀ e ∈ executions, e ∈ s.executions) :
    { s with rows, executions, listed, history := s.history ++ [e] }.Inv := by
  refine ⟨hids, fun row' hr' => ?_, fun e' he' => ?_, fun row' hr' => ?_, fun x hx n hn => ?_⟩
  · rcases hrows row' hr' with ⟨hr, _⟩ | ⟨hid, _⟩
    · exact hi.below row' hr
    · rw [hid]
      exact hi.below held hheld
  · rcases List.mem_append.mp he' with he' | he'
    · exact hi.past e' he'
    · rw [List.mem_singleton.mp he', he]
      exact hi.below held hheld
  · rcases hrows row' hr' with ⟨hr, hne⟩ | ⟨hid, hs, hattempts⟩
    · refine (hi.rows row' hr).frame fun e' he' => ?_
      rw [List.mem_singleton.mp he', he]
      exact fun h => hne h.symm
    · exact @JobRow.Recorded.letGo s.history [] [] e held row' (hi.rows held hheld) hid he nofun nofun
        hs hc hattempts
  · by_cases hid : x.job.id = held.id
    · -- nobody holds the job now
      have hone := @holder_of_one s.history [] [] e x.job.id nofun nofun
      rw [List.nil_append] at hone
      have hn' : holder (s.history ++ [e]) x.job.id = some (n, x.runner) := hn
      rw [hone, holds, if_pos (he.trans hid.symm)] at hn'
      cases e with
      | claimed => cases hc
      | _ => cases hn'
    · have hne : ∀ e' ∈ [e], e'.id ≠ x.job.id := by
        intro e' he'
        rw [List.mem_singleton.mp he', he]
        exact fun h => hid h.symm
      have hn' : holder (s.history ++ [e]) x.job.id = some (n, x.runner) := hn
      rw [holder_of_ne hne] at hn'
      exact hi.latest x (hexecutions x hx) n hn'

/-- The rows once their arguments are written, or not. -/
def argued (s : JobSystem) (e : JobExecution) (arguments : Option RetryState) : List JobRow :=
  match arguments with
  | some arguments => setArguments e.job.id e.runner arguments s.rows
  | none => s.rows

section Finish

variable {e : JobExecution} {decision : Decision} {arguments : Option RetryState} {row' : JobRow}

theorem mem_argued (hm : row' ∈ s.argued e arguments) : ∃ row ∈ s.rows,
    row'.isHeld e.job.id e.runner = row.isHeld e.job.id e.runner ∧
      (row.isHeld e.job.id e.runner = false → row' = row) ∧
      row'.id = row.id ∧ row'.attempts = row.attempts := by
  cases arguments with
  | none => exact ⟨row', hm, rfl, fun _ => rfl, rfl, rfl⟩
  | some arguments =>
    obtain ⟨row, hr, ⟨hp, rfl⟩ | ⟨hp, rfl⟩⟩ := mem_updateWhere hm
    · refine ⟨row, hr, rfl, fun hn => ?_, rfl, rfl⟩
      rw [hp] at hn
      cases hn
    · exact ⟨row', hr, rfl, fun _ => rfl, rfl, rfl⟩

theorem argued_ids : (s.argued e arguments).map (·.id) = s.rows.map (·.id) := by
  cases arguments with
  | none => rfl
  | some arguments =>
    show (updateWhere _ _ s.rows).map _ = _
    rw [updateWhere_ids]
    exact fun _ => rfl

/-- An outcome leaves the rows its execution's runner doesn't hold, and lets the job's row go. -/
theorem mem_decided (hm : row' ∈ s.decided e decision arguments) : ∃ row ∈ s.rows,
    (row.isHeld e.job.id e.runner = false ∧ row' = row) ∨
      row.isHeld e.job.id e.runner = true ∧ row'.id = row.id ∧ row'.status ≠ .running ∧
        if (JobEvent.finished e.job.id decision).resets then row'.attempts = 0
        else row'.attempts + (if (JobEvent.finished e.job.id decision).isRelease then 1 else 0) =
          row.attempts := by
  cases decision with
  | delete =>
    obtain ⟨hm, hn⟩ := List.mem_filter.mp (show row' ∈ (s.argued e arguments).filter _ from hm)
    obtain ⟨row, hr, hheld, heq, _⟩ := mem_argued hm
    rw [hheld] at hn
    have hn' : row.isHeld e.job.id e.runner = false := by simpa using hn
    exact ⟨row, hr, .inl ⟨hn', heq hn'⟩⟩
  | reschedule wait error resetAttempts =>
    obtain ⟨mid, hmid, hcases⟩ := mem_updateWhere (show row' ∈ updateWhere _ _ (s.argued e arguments) from hm)
    obtain ⟨row, hr, hheld, heq, hid, ha⟩ := mem_argued hmid
    rcases hcases with ⟨hp, rfl⟩ | ⟨hp, rfl⟩
    · refine ⟨row, hr, .inr ⟨hheld.symm.trans hp, hid, nofun, ?_⟩⟩
      cases resetAttempts with
      | true => exact rfl
      | false => exact ha
    · exact ⟨row, hr, .inl ⟨hheld.symm.trans hp, heq (hheld.symm.trans hp)⟩⟩
  | fail error =>
    obtain ⟨mid, hmid, hcases⟩ := mem_updateWhere (show row' ∈ updateWhere _ _ (s.argued e arguments) from hm)
    obtain ⟨row, hr, hheld, heq, hid, ha⟩ := mem_argued hmid
    rcases hcases with ⟨hp, rfl⟩ | ⟨hp, rfl⟩
    · exact ⟨row, hr, .inr ⟨hheld.symm.trans hp, hid, nofun, ha⟩⟩
    · exact ⟨row, hr, .inl ⟨hheld.symm.trans hp, heq (hheld.symm.trans hp)⟩⟩

theorem decided_ids (hi : s.Inv) : ((s.decided e decision arguments).map (·.id)).Nodup := by
  have hnodup : ((s.argued e arguments).map (·.id)).Nodup := by
    rw [argued_ids]
    exact hi.ids
  cases decision with
  | delete =>
    exact hnodup.sublist ((show (s.decided e .delete arguments).Sublist (s.argued e arguments) from
      List.filter_sublist).map _)
  | reschedule wait error resetAttempts =>
    show ((updateWhere _ _ (s.argued e arguments)).map _).Nodup
    rw [updateWhere_ids]
    · exact hnodup
    · exact fun _ => rfl
  | fail error =>
    show ((updateWhere _ _ (s.argued e arguments)).map _).Nodup
    rw [updateWhere_ids]
    · exact hnodup
    · exact fun _ => rfl

/-- **An outcome of an execution whose runner doesn't hold the job changes no row.** -/
theorem decided_of_not_owned (hn : s.rows.any (·.isHeld e.job.id e.runner) = false) :
    s.decided e decision arguments = s.rows := by
  have hno : ∀ row ∈ s.rows, row.isHeld e.job.id e.runner = false := by
    simpa [List.any_eq_false] using hn
  have hargued : s.argued e arguments = s.rows := by
    cases arguments with
    | none => rfl
    | some arguments => exact updateWhere_eq_self hno
  cases decision with
  | delete =>
    show (s.argued e arguments).filter _ = s.rows
    rw [hargued, List.filter_eq_self]
    intro row hr
    rw [hno row hr]
    rfl
  | reschedule | fail =>
    show updateWhere _ _ (s.argued e arguments) = s.rows
    rw [hargued]
    exact updateWhere_eq_self hno

end Finish

section Step

variable {policy : String → Option Nat}

theorem Inv.finish (hi : s.Inv) (k : Nat) (e : JobExecution) (result : JobResult) (delay : Int) :
    (s.finishJob policy k e result delay).Inv := by
  unfold finishJob
  rcases decisionWithMetadata (policyAttempts policy e.job.jobClass) e.job result delay with
    ⟨decision, arguments⟩
  dsimp only
  cases howned : s.rows.any (·.isHeld e.job.id e.runner) with
  | false =>
    rw [decided_of_not_owned howned]
    exact hi.still hi.ids (Nat.le_refl _) hi.below rfl hi.rows fun x hx => List.mem_of_mem_eraseIdx hx
  | true =>
    obtain ⟨held, hheld, hp⟩ := List.any_eq_true.mp howned
    have hid : held.id = e.job.id := by
      have := (Bool.and_eq_true _ _).mp hp
      exact of_decide_eq_true this.1
    have hevent : (JobEvent.finished e.job.id decision).id = held.id := hid.symm
    refine hi.letGo hheld hevent rfl (decided_ids hi) (fun row' hr' => ?_) fun x hx =>
      List.mem_of_mem_eraseIdx hx
    obtain ⟨row, hr, ⟨hn, rfl⟩ | ⟨hp', hid', hs, ha⟩⟩ := mem_decided hr'
    · refine .inl ⟨hr, fun h => ?_⟩
      obtain rfl := hi.unique hr hheld h
      rw [hp] at hn
      cases hn
    · have hrow : row.id = held.id := by
        have := (Bool.and_eq_true _ _).mp hp'
        exact (of_decide_eq_true this.1 : row.id = e.job.id).trans hid.symm
      obtain rfl := hi.unique hr hheld hrow
      exact .inr ⟨hid', hs, ha⟩

theorem Inv.recover (hi : s.Inv) (k : Nat) (orphan : JobRow) : (s.recoverJob policy k orphan).Inv := by
  unfold recoverJob
  dsimp only
  cases htaken : s.rows.any fun row => row.id = orphan.id && row.expired s.now with
  | false =>
    have hno : ∀ row ∈ s.rows, (row.id = orphan.id && row.expired s.now) = false :=
      fun row hr => Bool.eq_false_iff.mpr fun h => by
        rw [List.any_eq_false] at htaken
        exact htaken row hr h
    rw [Smartfire.recover, updateWhere_eq_self hno]
    exact hi.still hi.ids (Nat.le_refl _) hi.below rfl hi.rows fun _ => id
  | true =>
    obtain ⟨held, hheld, hp⟩ := List.any_eq_true.mp htaken
    have hid : held.id = orphan.id := of_decide_eq_true ((Bool.and_eq_true _ _).mp hp).1
    have hevent : (JobEvent.recovered orphan.id).id = held.id := hid.symm
    refine hi.letGo hheld hevent rfl ?_ (fun row' hr' => ?_) fun _ => id
    · rw [Smartfire.recover, updateWhere_ids]
      · exact hi.ids
      · intro row
        split <;> rfl
    · obtain ⟨row, hr, ⟨hp', rfl⟩ | ⟨hn, rfl⟩⟩ := mem_updateWhere hr'
      · have hrow : row.id = held.id :=
          (of_decide_eq_true ((Bool.and_eq_true _ _).mp hp').1 : row.id = orphan.id).trans hid.symm
        obtain rfl := hi.unique hr hheld hrow
        refine .inr ?_
        split
        · exact ⟨rfl, nofun, rfl⟩
        · exact ⟨rfl, nofun, rfl⟩
      · refine .inl ⟨hr, fun h => ?_⟩
        obtain rfl := hi.unique hr hheld h
        rw [hp] at hn
        cases hn

/-- A row among rows of different ids. -/
theorem split_at {jobs : List JobRow} {job : JobRow} {i : Nat} (hn : (jobs.map (·.id)).Nodup)
    (hi : jobs[i]? = some job) : ∃ before after, jobs = before ++ job :: after ∧ before.length = i ∧
      (∀ x ∈ before, x.id ≠ job.id) ∧ ∀ x ∈ after, x.id ≠ job.id := by
  obtain ⟨hlt, hget⟩ := List.getElem?_eq_some_iff.mp hi
  have hsplit : jobs = jobs.take i ++ job :: jobs.drop (i + 1) := by
    rw [← hget, List.getElem_cons_drop, List.take_append_drop]
  have hlen : (jobs.take i).length = i := by
    rw [List.length_take]
    omega
  generalize jobs.take i = before at hsplit hlen
  generalize jobs.drop (i + 1) = after at hsplit
  subst hsplit
  rw [List.map_append, List.map_cons] at hn
  obtain ⟨_, hcons, hne⟩ := List.nodup_append.mp hn
  refine ⟨before, after, rfl, hlen, fun x hx => ?_, fun x hx h => ?_⟩
  · exact hne x.id (List.mem_map_of_mem hx) job.id List.mem_cons_self
  · exact (List.nodup_cons.mp hcons).1 (h ▸ List.mem_map_of_mem hx)

/-- One event for each of the jobs. -/
theorem ne_of_map {jobs : List JobRow} {f : JobRow → JobEvent} {i : Nat} (hf : ∀ job, (f job).id = job.id)
    (hne : ∀ job ∈ jobs, job.id ≠ i) : ∀ e ∈ jobs.map f, e.id ≠ i := by
  intro e he
  obtain ⟨job, hjob, rfl⟩ := List.mem_map.mp he
  rw [hf]
  exact hne job hjob

/-- The event of a job decides who holds it. -/
theorem holder_of_map {h : List JobEvent} {before after : List JobRow} {job : JobRow} {f : JobRow → JobEvent}
    (hf : ∀ job, (f job).id = job.id) (hb : ∀ x ∈ before, x.id ≠ job.id)
    (ha : ∀ x ∈ after, x.id ≠ job.id) : holder (h ++ (before ++ job :: after).map f) job.id =
      holds job.id (holder h job.id) (f job, h.length + before.length) := by
  rw [List.map_append, List.map_cons, holder_of_one (ne_of_map hf hb) (ne_of_map hf ha), List.length_map]

theorem Inv.release (hi : s.Inv) (runner : String) : (s.releaseJobs runner).Inv := by
  unfold releaseJobs
  let held := s.rows.filter (·.heldBy runner)
  have hnodup : (held.map (·.id)).Nodup := hi.ids.sublist (List.filter_sublist.map _)
  refine ⟨?_, fun row' hr' => ?_, fun e he => ?_, fun row' hr' => ?_, fun x hx n hn => ?_⟩
  · show ((updateWhere _ _ s.rows).map _).Nodup
    rw [updateWhere_ids]
    · exact hi.ids
    · exact fun _ => rfl
  · obtain ⟨row, hr, ⟨_, rfl⟩ | ⟨_, rfl⟩⟩ := mem_updateWhere hr'
    · exact hi.below row hr
    · exact hi.below row' hr
  · rcases List.mem_append.mp he with he | he
    · exact hi.past e he
    · obtain ⟨row, hr, rfl⟩ := List.mem_map.mp he
      exact hi.below row (List.mem_filter.mp hr).1
  · obtain ⟨row, hr, ⟨hp, rfl⟩ | ⟨hn, rfl⟩⟩ := mem_updateWhere hr'
    · obtain ⟨i, hat⟩ := List.mem_iff_getElem?.mp (List.mem_filter.mpr ⟨hr, hp⟩)
      obtain ⟨before, after, heq, _, hb, ha⟩ := split_at hnodup hat
      show JobRow.Recorded (s.history ++ held.map _) _
      rw [heq, List.map_append, List.map_cons]
      have hrun : row.status = .running := by
        have := of_decide_eq_true hp
        exact this.1
      have := (hi.rows row hr).started hrun
      refine (hi.rows row hr).letGo rfl rfl (ne_of_map (fun _ => rfl) hb) (ne_of_map (fun _ => rfl) ha)
        nofun rfl ?_
      show row.attempts - 1 + 1 = row.attempts
      omega
    · refine (hi.rows row' hr).frame (ne_of_map (fun _ => rfl) fun x hx h => ?_)
      obtain ⟨hxr, hxp⟩ := List.mem_filter.mp hx
      obtain rfl := hi.unique hxr hr h
      rw [hxp] at hn
      cases hn
  · have hn' : holder (s.history ++ held.map fun row => .released row.id) x.job.id = some (n, x.runner) := hn
    by_cases hex : ∃ row ∈ held, row.id = x.job.id
    · obtain ⟨row, hrow, hid⟩ := hex
      obtain ⟨i, hat⟩ := List.mem_iff_getElem?.mp hrow
      obtain ⟨before, after, heq, _, hb, ha⟩ := split_at hnodup hat
      rw [heq, ← hid, holder_of_map (fun _ => rfl) hb ha, holds, if_pos (by rfl)] at hn'
      cases hn'
    · rw [holder_of_ne (ne_of_map (fun _ => rfl) fun row hrow h => hex ⟨row, hrow, h⟩)] at hn'
      exact hi.latest x hx n hn'

/-- The jobs a claim takes are ready rows, each once. -/
theorem claimable_rows (hi : s.Inv) {queue : String} {concurrency limit : Nat} :
    (∀ job ∈ claimable queue concurrency limit s.now s.rows, job ∈ s.rows ∧ job.status = .ready) ∧
      ((claimable queue concurrency limit s.now s.rows).map (·.id)).Nodup := by
  have hsub := List.take_sublist (min limit (concurrency - liveJobs queue s.now s.rows))
    (dueJobs queue s.now s.rows)
  refine ⟨fun job hjob => ?_, ?_⟩
  · have hdue := (List.mem_insertionSort _).mp (hsub.subset hjob)
    obtain ⟨hrow, hp⟩ := List.mem_filter.mp hdue
    simp only [Bool.and_eq_true, decide_eq_true_eq] at hp
    exact ⟨hrow, hp.1.1⟩
  · refine List.Nodup.sublist (hsub.map _) ?_
    exact ((List.perm_insertionSort _ _).map _).nodup_iff.mpr
      (hi.ids.sublist (List.filter_sublist.map _))

/-- **A claim keeps the invariant**, where the runner performs no earlier claim of its jobs. -/
theorem Inv.claim (hi : s.Inv) {jobs : List JobRow} {runner : String} {lease : Nat}
    (hjobs : ∀ job ∈ jobs, job ∈ s.rows ∧ job.status = .ready) (hnodup : (jobs.map (·.id)).Nodup)
    (hidle : ∀ job ∈ jobs, ∀ e ∈ s.executions, e.runner = runner → e.job.id ≠ job.id) :
    (s.claimJobs jobs runner lease).Inv := by
  unfold claimJobs
  refine ⟨?_, fun row' hr' => ?_, fun e he => ?_, fun row' hr' => ?_, fun x hx n hn => ?_⟩
  · show ((updateWhere _ _ s.rows).map _).Nodup
    rw [updateWhere_ids]
    · exact hi.ids
    · exact fun _ => rfl
  · obtain ⟨row, hr, ⟨_, rfl⟩ | ⟨_, rfl⟩⟩ := mem_updateWhere hr'
    · exact hi.below row hr
    · exact hi.below row' hr
  · rcases List.mem_append.mp he with he | he
    · exact hi.past e he
    · obtain ⟨job, hjob, rfl⟩ := List.mem_map.mp he
      exact hi.below job (hjobs job hjob).1
  · obtain ⟨row, hr, ⟨hp, rfl⟩ | ⟨hn, rfl⟩⟩ := mem_updateWhere hr'
    · obtain ⟨job, hjob, hid⟩ : ∃ job ∈ jobs, job.id = row.id := by
        simpa using (Bool.and_eq_true _ _).mp hp |>.2
      obtain rfl := hi.unique (hjobs job hjob).1 hr hid
      obtain ⟨i, hat⟩ := List.mem_iff_getElem?.mp hjob
      obtain ⟨before, after, heq, _, hb, ha⟩ := split_at hnodup hat
      show JobRow.Recorded (s.history ++ jobs.map _) _
      rw [heq, List.map_append, List.map_cons]
      exact (hi.rows job hr).claimed _ (ne_of_map (fun _ => rfl) hb) (ne_of_map (fun _ => rfl) ha)
    · refine (hi.rows row' hr).frame (ne_of_map (fun _ => rfl) fun job hjob h => ?_)
      obtain rfl := hi.unique (hjobs job hjob).1 hr h
      have hready : job.status = .ready := (hjobs job hjob).2
      have hcontains : (jobs.map (·.id)).contains job.id = true := by
        simpa using ⟨job, hjob, rfl⟩
      rw [hready, hcontains] at hn
      cases hn
  · have hn' : holder (s.history ++ jobs.map fun job => .claimed job.id runner) x.job.id =
        some (n, x.runner) := hn
    rcases List.mem_append.mp hx with hx | hx
    · by_cases hex : ∃ job ∈ jobs, job.id = x.job.id
      · obtain ⟨job, hjob, hid⟩ := hex
        obtain ⟨i, hat⟩ := List.mem_iff_getElem?.mp hjob
        obtain ⟨before, after, heq, _, hb, ha⟩ := split_at hnodup hat
        rw [heq, ← hid, holder_of_map (fun _ => rfl) hb ha, holds, if_pos (by rfl)] at hn'
        have hrunner : runner = x.runner := (Prod.mk.inj (Option.some.inj hn')).2
        exact absurd hid.symm (hidle job hjob x hx hrunner.symm)
      · rw [holder_of_ne (ne_of_map (fun _ => rfl) fun job hjob h => hex ⟨job, hjob, h⟩)] at hn'
        exact hi.latest x hx n hn'
    · -- its own claim's execution
      obtain ⟨⟨job, i⟩, hji, rfl⟩ := List.mem_map.mp hx
      have hat : jobs[i]? = some job := List.mem_zipIdx_iff_getElem?.mp hji
      obtain ⟨before, after, heq, rfl, hb, ha⟩ := split_at hnodup hat
      have hn'' : holder (s.history ++ jobs.map fun job => .claimed job.id runner) job.id =
        some (n, runner) := hn'
      rw [heq, holder_of_map (fun _ => rfl) hb ha, holds, if_pos (by rfl)] at hn''
      exact (Prod.mk.inj (Option.some.inj hn'')).1.symm

theorem inv_empty : JobSystem.empty.Inv :=
  ⟨List.nodup_nil, fun _ h => absurd h List.not_mem_nil, fun _ h => absurd h List.not_mem_nil,
    fun _ h => absurd h List.not_mem_nil, fun _ h => absurd h List.not_mem_nil⟩

/-- **A step keeps the invariant**, where a claim takes no job its runner still performs. -/
theorem Inv.step (hi : s.Inv) {a : JobAct} (hg : ClaimsIdle s a) (hs : s.step policy a = some s') :
    s'.Inv := by
  cases a with
  | tick | stop | orphans =>
    cases hs
    exact hi.still hi.ids (Nat.le_refl _) hi.below rfl hi.rows fun _ => id
  | enqueue queue jobClass arguments runAt =>
    cases hs
    exact hi.enqueue queue jobClass _ runAt
  | claim runner queue concurrency limit lease =>
    rw [JobSystem.step] at hs
    split at hs
    · cases hs
    · cases hs
      exact hi.claim (claimable_rows hi).1 (claimable_rows hi).2 hg
  | heartbeat runner ids lease =>
    cases hs
    exact hi.update fun _ => ⟨rfl, rfl, rfl, rfl⟩
  | finish k result delay =>
    obtain ⟨e, _, rfl⟩ := Option.map_eq_some_iff.mp hs
    exact hi.finish k e result delay
  | drop k =>
    cases hs
    exact hi.still hi.ids (Nat.le_refl _) hi.below rfl hi.rows fun _ h => List.mem_of_mem_eraseIdx h
  | recover k =>
    obtain ⟨orphan, _, rfl⟩ := Option.map_eq_some_iff.mp hs
    exact hi.recover k orphan
  | release runner =>
    rw [JobSystem.step] at hs
    split at hs
    · cases hs
      exact hi.release runner
    · cases hs
  | makeDue queue jobClass chosen =>
    cases hs
    exact hi.update fun _ => ⟨rfl, rfl, rfl, rfl⟩

theorem inv_reach (h : ReachWhen (jobSystem policy) ClaimsIdle s) : s.Inv :=
  h.induct (T := jobSystem policy) (I := Inv) (fun s h0 => (show s = .empty from h0) ▸ inv_empty)
    fun _ _ _ _ hi hg hs => hi.step hg hs

end Step

/-! ## 4. The property -/

/-- **A job's row obeys only its current claim.** -/
structure Obeys (policy : String → Option Nat) (s : JobSystem) : Prop where
  /-- An outcome changes the rows only while its job is held by the claim that started its execution. -/
  outcomes : ∀ k result delay s' e, s.step policy (.finish k result delay) = some s' →
    s.executions[k]? = some e → s'.rows ≠ s.rows → holder s.history e.job.id = some (e.claim, e.runner)
  /-- A row goes only through an outcome of its current claim that is done or discarded, or a group
      exhausted that discards. -/
  goes : ∀ a s' row, s.step policy a = some s' → row ∈ s.rows → (∀ row' ∈ s'.rows, row'.id ≠ row.id) →
    ∃ k result delay e, a = .finish k result delay ∧ s.executions[k]? = some e ∧ e.job.id = row.id ∧
      holder s.history row.id = some (e.claim, e.runner) ∧ result.Deletes e.job
  /-- A recovery changes no row whose lease has not expired. -/
  recovers : ∀ k s' row, s.step policy (.recover k) = some s' → row ∈ s.rows → row ∉ s'.rows →
    row.status = .running ∧ ∃ lease, row.leaseExpiresAt = some lease ∧ lease ≤ s.now
  /-- A job's attempts are its claims since its last fresh run, but for those handed back. -/
  attempts : ∀ row ∈ s.rows, row.attempts + releasesSince s.history row.id = claimsSince s.history row.id

section Property

variable {policy : String → Option Nat}

/-- **A row held by an execution's runner is held by the claim that started it.** -/
theorem Inv.holder_of_held (hi : s.Inv) {e : JobExecution} (he : e ∈ s.executions) {row : JobRow}
    (hr : row ∈ s.rows) (hheld : row.isHeld e.job.id e.runner = true) :
    row.id = e.job.id ∧ holder s.history e.job.id = some (e.claim, e.runner) := by
  obtain ⟨hid, hby⟩ := (Bool.and_eq_true _ _).mp hheld
  have hid' : row.id = e.job.id := of_decide_eq_true hid
  obtain ⟨hrun, hby'⟩ : row.status = .running ∧ row.claimedBy = some e.runner := of_decide_eq_true hby
  obtain ⟨n, runner, hrunner, hholder⟩ := (hi.rows row hr).held hrun
  obtain rfl : runner = e.runner := Option.some.inj (hrunner.symm.trans hby')
  rw [hid'] at hholder
  have hn : n = e.claim := hi.latest e he n hholder
  exact ⟨hid', hn ▸ hholder⟩

/-- A statement that only updates takes no row away. -/
theorem exists_updateWhere {p : JobRow → Bool} {f : JobRow → JobRow} (hf : ∀ row, (f row).id = row.id)
    {rows : List JobRow} {row : JobRow} (hr : row ∈ rows) : ∃ row' ∈ updateWhere p f rows, row'.id = row.id := by
  have hmem : row.id ∈ (updateWhere p f rows).map (·.id) := by
    rw [updateWhere_ids hf]
    exact List.mem_map_of_mem hr
  obtain ⟨row', hr', hid⟩ := List.mem_map.mp hmem
  exact ⟨row', hr', hid⟩

/-- Writing arguments moves no row out of or into anybody's hands. -/
theorem exists_argued {e : JobExecution} {arguments : Option RetryState} {row : JobRow} (hr : row ∈ s.rows) :
    ∃ row' ∈ s.argued e arguments, row'.id = row.id ∧
      row'.isHeld e.job.id e.runner = row.isHeld e.job.id e.runner := by
  cases arguments with
  | none => exact ⟨row, hr, rfl, rfl⟩
  | some arguments =>
    refine ⟨_, List.mem_map_of_mem hr, ?_⟩
    split
    · exact ⟨rfl, rfl⟩
    · exact ⟨rfl, rfl⟩

/-- **An outcome takes only its own job's row away**, and only where it deletes. -/
theorem decided_goes {e : JobExecution} {decision : Decision} {arguments : Option RetryState}
    {row : JobRow} (hr : row ∈ s.rows)
    (hgone : ∀ row' ∈ s.decided e decision arguments, row'.id ≠ row.id) :
    decision = .delete ∧ row.isHeld e.job.id e.runner = true := by
  obtain ⟨row', hr', hid, hheld⟩ := @exists_argued s e arguments row hr
  cases decision with
  | delete =>
    refine ⟨rfl, Bool.not_eq_false _ |>.mp fun hn => hgone row' ?_ hid⟩
    refine List.mem_filter.mpr ⟨hr', ?_⟩
    rw [hheld, hn]
    rfl
  | reschedule wait error resetAttempts =>
    obtain ⟨row'', hr'', hid''⟩ := @exists_updateWhere (·.isHeld e.job.id e.runner) (fun row =>
      { row with
        status := .ready
        runAt := s.now + wait
        claimedBy := none
        lastError := (error.map truncate).or row.lastError
        attempts := if resetAttempts then 0 else row.attempts }) (fun _ => rfl) _ row' hr'
    exact absurd (hid''.trans hid) (hgone row'' hr'')
  | fail error =>
    obtain ⟨row'', hr'', hid''⟩ := @exists_updateWhere (·.isHeld e.job.id e.runner) (fun row =>
      { row with
        status := .failed
        failedAt := some s.now
        lastError := some (truncate error)
        claimedBy := none }) (fun _ => rfl) _ row' hr'
    exact absurd (hid''.trans hid) (hgone row'' hr'')

/-- A step that only updates rows, or adds some, takes none away. -/
theorem finish_of_goes {a : JobAct} (hs : s.step policy a = some s') {row : JobRow} (hr : row ∈ s.rows)
    (hgone : ∀ row' ∈ s'.rows, row'.id ≠ row.id) : ∃ k result delay e, a = .finish k result delay ∧
      s.executions[k]? = some e ∧ s' = s.finishJob policy k e result delay := by
  have hupdate : ∀ {p : JobRow → Bool} {f : JobRow → JobRow}, s'.rows = updateWhere p f s.rows →
      (∀ row, (f row).id = row.id) → False := by
    intro p f heq hf
    obtain ⟨row', hr', hid⟩ := @exists_updateWhere p f hf s.rows row hr
    exact hgone row' (heq ▸ hr') hid
  cases a with
  | finish k result delay =>
    obtain ⟨e, he, rfl⟩ := Option.map_eq_some_iff.mp hs
    exact ⟨k, result, delay, e, rfl, he, rfl⟩
  | tick | stop | orphans | drop =>
    cases hs
    exact absurd rfl (hgone row hr)
  | enqueue =>
    cases hs
    exact absurd rfl (hgone row (List.mem_append_left _ hr))
  | claim =>
    rw [JobSystem.step] at hs
    split at hs
    · cases hs
    · cases hs
      exact (hupdate rfl fun _ => rfl).elim
  | heartbeat | makeDue =>
    cases hs
    exact (hupdate rfl fun _ => rfl).elim
  | recover k =>
    obtain ⟨orphan, _, rfl⟩ := Option.map_eq_some_iff.mp hs
    refine (hupdate rfl fun row => ?_).elim
    split <;> rfl
  | release =>
    rw [JobSystem.step] at hs
    split at hs
    · cases hs
      exact (hupdate rfl fun _ => rfl).elim
    · cases hs

theorem Inv.obeys (hi : s.Inv) : Obeys policy s := by
  refine ⟨fun k result delay s' e hs hk hne => ?_, fun a s' row hs hr hgone => ?_,
    fun k s' row hs hr hgone => ?_, fun row hr => (hi.rows row hr).attempts⟩
  · rw [JobSystem.step, hk] at hs
    cases hs
    have howned : s.rows.any (·.isHeld e.job.id e.runner) = true := by
      refine Bool.not_eq_false _ |>.mp fun hn => hne ?_
      exact decided_of_not_owned hn
    obtain ⟨row, hr, hheld⟩ := List.any_eq_true.mp howned
    exact (hi.holder_of_held (List.mem_of_getElem? hk) hr hheld).2
  · obtain ⟨k, result, delay, e, rfl, hk, rfl⟩ := finish_of_goes hs hr hgone
    obtain ⟨hdelete, hheld⟩ := decided_goes hr hgone
    obtain ⟨hid, hholder⟩ := hi.holder_of_held (List.mem_of_getElem? hk) hr hheld
    exact ⟨k, result, delay, e, rfl, hk, hid.symm, hid ▸ hholder, deletes_of_delete hdelete⟩
  · obtain ⟨orphan, _, rfl⟩ := Option.map_eq_some_iff.mp hs
    have hp : (row.id = orphan.id && row.expired s.now) = true := by
      refine Bool.not_eq_false _ |>.mp fun hn => hgone (List.mem_map.mpr ⟨row, hr, ?_⟩)
      exact if_neg (by simp only [hn, Bool.false_eq_true, not_false_eq_true])
    have hexpired := (Bool.and_eq_true _ _).mp ((Bool.and_eq_true _ _).mp hp).2
    obtain ⟨lease, hlease, hle⟩ := Option.any_eq_true _ _ |>.mp hexpired.2
    exact ⟨of_decide_eq_true hexpired.1, lease, hlease, of_decide_eq_true hle⟩

/-- **A job's row obeys only its current claim, in every run in which a claim takes no job that its
    runner still performs.** -/
theorem obeys_of_reach (h : ReachWhen (jobSystem policy) ClaimsIdle s) : Obeys policy s :=
  (inv_reach h).obeys

end Property

/-! ## 5. Runs -/

instance instDecidableClaimsIdle (s : JobSystem) (a : JobAct) : Decidable (ClaimsIdle s a) := by
  unfold ClaimsIdle
  split <;> infer_instance

/-- A class retried three times. -/
def testPolicy (_ : String) : Option Nat := some 3

/-- A job is claimed by "A", recovered by "B" once its lease ran out, claimed by "C" and done. -/
def handedOnRun : List JobAct :=
  [.enqueue "default" "Push" "" 0, .claim "A" "default" 5 5 30, .tick 31, .orphans "B" [], .recover 0,
    .claim "C" "default" 5 5 30, .finish 0 .done 0, .finish 0 .done 0]

theorem obeys_of_reach_sample : ∃ s, ReachWhen (jobSystem testPolicy) ClaimsIdle s ∧
    s.history = [.claimed 1 "A", .recovered 1, .claimed 1 "C", .finished 1 .delete] ∧
      Obeys testPolicy s := by
  obtain ⟨s, hs, hp⟩ := exists_reachWhen_of_replay (T := jobSystem testPolicy) (G := ClaimsIdle)
    (s := JobSystem.empty) (l := handedOnRun)
    (p := fun s => s.history = [.claimed 1 "A", .recovered 1, .claimed 1 "C", .finished 1 .delete])
    rfl (by decide +kernel)
  exact ⟨s, hs, of_decide_eq_true hp, obeys_of_reach hs⟩

/-- "A" claims the job again while its first execution of it still runs. -/
def reclaimedRun : List JobAct :=
  [.enqueue "default" "Push" "" 0, .claim "A" "default" 5 5 30, .tick 31, .orphans "B" [], .recover 0,
    .claim "A" "default" 5 5 30]

/-- **The first execution's outcome deletes the row of the second claim.** -/
theorem obeys_reclaimed : ∃ s, Reach (jobSystem testPolicy) s ∧ ¬ Obeys testPolicy s := by
  obtain ⟨s, hs, hp⟩ := exists_reachWhen_of_replay (T := jobSystem testPolicy) (G := fun _ _ => True)
    (s := JobSystem.empty) (l := reclaimedRun)
    (p := fun s => holder s.history 1 = some (2, "A") ∧
      (s.executions[0]?).map (fun e => (e.job.id, e.claim, e.runner)) = some (1, 0, "A") ∧
      ((s.step testPolicy (.finish 0 .done 0)).map (·.rows)) = some [] ∧ s.rows ≠ [])
    rfl (by decide +kernel)
  obtain ⟨hholder, hfirst, hrows, hne⟩ := of_decide_eq_true hp
  refine ⟨s, hs, fun ho => ?_⟩
  obtain ⟨e, he, hids⟩ := Option.map_eq_some_iff.mp hfirst
  obtain ⟨s', hs', hempty⟩ := Option.map_eq_some_iff.mp hrows
  obtain ⟨hid, hclaim, hrunner⟩ : e.job.id = 1 ∧ e.claim = 0 ∧ e.runner = "A" := by simpa using hids
  have hheld := ho.outcomes 0 .done 0 s' e hs' he (fun h => hne (h.symm.trans hempty))
  rw [hid, hclaim, hholder] at hheld
  cases hheld

end JobSystem

end Smartfire
