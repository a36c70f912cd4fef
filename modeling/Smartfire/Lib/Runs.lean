/-
  File:      Smartfire/Lib/Runs.lean
  Subject:   Runs of guarded, executable step functions.

  A system is a set of starting states and a PARTIAL step function: a label that is not enabled
  in a state has no successor there. What is left open (which thread moves, what a clock shows,
  what the other side of a connection sends) stands in the label, so a run is the list of its
  labels and can be replayed by evaluation.

  * `System`, `ReachWhen`, `Reach` -- the states of the runs whose every step meets a guard, and
    of all runs;
  * `ReachWhen.induct` -- an invariant that holds at the start and is kept by every guarded step
    holds in every state reached;
  * `System.recording`, `ReachWhen.unrecorded` -- history variables;
  * `reachWhen_of_replay` -- a replayed list of labels is a run.
-/
import Mathlib.Logic.Basic
import Mathlib.Tactic.Common

namespace Lib

universe u v

variable {σ : Type u} {α : Type v}

/-- A guarded step function with its starting states. -/
structure System (σ : Type u) (α : Type v) where
  /-- The states a run may start in. -/
  start : σ → Prop
  /-- The successor under a label, where the label is enabled. -/
  step : σ → α → Option σ

variable {T : System σ α} {G : σ → α → Prop}

/-- The states of the runs of `T` whose every step meets the guard `G`. -/
inductive ReachWhen (T : System σ α) (G : σ → α → Prop) : σ → Prop where
  | start (s : σ) (hs : T.start s) : ReachWhen T G s
  | step (s s' : σ) (a : α) (h : ReachWhen T G s) (hg : G s a) (hs : T.step s a = some s') :
      ReachWhen T G s'

/-- The states of all runs of `T`. -/
abbrev Reach (T : System σ α) : σ → Prop := ReachWhen T fun _ _ => True

/-! ## 1. Invariants -/

/-- **The rule of invariants**: what holds in every starting state and is kept by every guarded
    step out of a reached state holds in every state reached. -/
theorem ReachWhen.induct {I : σ → Prop} (h0 : ∀ s, T.start s → I s)
    (hstep : ∀ s a s', ReachWhen T G s → I s → G s a → T.step s a = some s' → I s') {s : σ}
    (h : ReachWhen T G s) : I s := by
  induction h with
  | start s hs => exact h0 s hs
  | step s s' a h hg hs ih => exact hstep s a s' h ih hg hs

/-! ## 2. History variables -/

section History

variable {γ : Type v}

/-- The system with a record of its runs: `note` updates the record at each step and bears on none. -/
def System.recording (T : System σ α) (blank : γ) (note : σ → α → σ → γ → γ) :
    System (σ × γ) α where
  start s := T.start s.1 ∧ s.2 = blank
  step s a := (T.step s.1 a).map fun s' => (s', note s.1 a s' s.2)

variable {blank : γ} {note : σ → α → σ → γ → γ} {H : σ × γ → α → Prop}

/-- A step of the recording system is a step of the system, noted. -/
theorem recording_step {s s' : σ × γ} {a : α} (hs : (T.recording blank note).step s a = some s') :
    T.step s.1 a = some s'.1 ∧ s'.2 = note s.1 a s'.1 s.2 := by
  obtain ⟨s₁, h₁, rfl⟩ := Option.map_eq_some_iff.mp hs
  exact ⟨h₁, rfl⟩

/-- **The record bears on nothing**: the states of a recorded run are those of a run. -/
theorem ReachWhen.unrecorded {s : σ × γ} (h : ReachWhen (T.recording blank note) H s) :
    Reach T s.1 := by
  induction h with
  | start s hs => exact .start s.1 hs.1
  | step s s' a _ _ hs ih => exact .step s.1 s'.1 a ih trivial (recording_step hs).1

end History

/-! ## 3. Replay -/

/-- Where every label is enabled, a list of labels is a run. -/
theorem reachWhen_foldl {f : σ → α → σ} (hstep : ∀ s a, T.step s a = some (f s a)) {s : σ} {l : List α}
    (hs : T.start s) (hl : ∀ a ∈ l, ∀ s, G s a) : ReachWhen T G (l.foldl f s) := by
  suffices hrun : ∀ s, ReachWhen T G s → ReachWhen T G (l.foldl f s) from hrun s (.start s hs)
  induction l with
  | nil => exact fun _ h => h
  | cons a l ih =>
    intro s h
    refine ih (fun b hb => hl b (List.mem_cons_of_mem _ hb)) _ ?_
    exact .step s _ a h (hl a List.mem_cons_self s) (hstep s a)

section Replay

variable [∀ s a, Decidable (G s a)]

/-- Replays the labels from `s`, as long as each is enabled and meets the guard. -/
def replay (T : System σ α) (G : σ → α → Prop) [∀ s a, Decidable (G s a)] :
    σ → List α → Option σ
  | s, [] => some s
  | s, a :: l =>
    if G s a then
      match T.step s a with
      | some s' => replay T G s' l
      | none => none
    else none

theorem replay_reach {s s' : σ} {l : List α} (h : ReachWhen T G s)
    (hr : replay T G s l = some s') : ReachWhen T G s' := by
  induction l generalizing s with
  | nil => cases hr; exact h
  | cons a l ih =>
    rw [replay] at hr
    by_cases hg : G s a
    · rw [if_pos hg] at hr
      cases hs : T.step s a with
      | none => rw [hs] at hr; cases hr
      | some s₁ => rw [hs] at hr; exact ih (.step s s₁ a h hg hs) hr
    · rw [if_neg hg] at hr; cases hr

/-- **A replayed list of labels is a run.** -/
theorem reachWhen_of_replay {s s' : σ} {l : List α} (hs : T.start s)
    (hr : replay T G s l = some s') : ReachWhen T G s' :=
  replay_reach (.start s hs) hr

/-- A replay that ends in a state with a decidable property witnesses a run to such a state. -/
theorem exists_reachWhen_of_replay {s : σ} {l : List α} {p : σ → Bool} (hs : T.start s)
    (hr : (replay T G s l).any p = true) : ∃ s', ReachWhen T G s' ∧ p s' = true := by
  cases h : replay T G s l with
  | none => rw [h] at hr; cases hr
  | some s' => rw [h] at hr; exact ⟨s', reachWhen_of_replay hs h, hr⟩

end Replay

end Lib
