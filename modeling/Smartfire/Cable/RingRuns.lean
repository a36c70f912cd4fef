/-
  File:      Smartfire/Cable/RingRuns.lean
  Subject:   What the replay ring answers, over every history of its operations.

  Sequences have holes and entries leave in three operations under two limits; but they only ever
  leave at the front, so what the ring has lost is always what lies at or before `evictedThrough`.
  The settings, the clock readings and the sequences are any: only that a sequence lies past the
  head is asked, which the hub's counter sees to.

  * `ringRuns` -- the ring with what was published and what was skipped;
  * `RingRun.Inv` -- the ring keeps the end of what was published, and `evictedThrough` is the
    latest that was lost;
  * `lawful_of_reach` -- the representation and the answers, in every state of every run.
-/
import Smartfire.Cable.Ring
import Smartfire.Lib.Runs

namespace Smartfire

open Lib

/-! ## 1. The runs -/

/-- A call of the ring, with the instant it reads. -/
inductive RingOp where
  | push (seq now : Nat) (p : SyncPublication)
  | pushGap (seq now : Nat) (user : Int)
  | skip (seq : Nat)
  | read (now cursor : Nat)
  | resume (now : Nat) (point : Option (String × Int))
deriving DecidableEq

/-- The ring, with every entry it was given and every sequence it was told to skip. -/
structure RingRun where
  ring : RingState
  published : List Entry
  skipped : List Nat
deriving DecidableEq

namespace RingRun

variable (engine : Engine)

/-- One call; a sequence is past the head. -/
def step (s : RingRun) : RingOp → Option RingRun
  | .push seq now p =>
    if s.ring.head < seq then
      some { s with
        ring := s.ring.push engine.config now seq p
        published := s.published ++ [Entry.ofPublication seq now p] }
    else none
  | .pushGap seq now user =>
    if s.ring.head < seq then
      some { s with
        ring := s.ring.pushGap engine.config now seq user
        published := s.published ++ [Entry.gapMarker seq now user] }
    else none
  | .skip seq =>
    if s.ring.head < seq then
      some { s with ring := s.ring.skip seq, skipped := s.skipped ++ [seq] }
    else none
  | .read now cursor => some { s with ring := (s.ring.read engine.config now cursor).2 }
  | .resume now point =>
    some { s with ring := (s.ring.resume engine.config now engine.epoch point).2 }

end RingRun

/-- The histories of a ring. -/
def ringRuns (engine : Engine) : System RingRun RingOp where
  start s := s = ⟨.empty, [], []⟩
  step := RingRun.step engine

/-! ## 2. What is claimed -/

namespace RingRun

/-- A sequence past the cursor was evicted or skipped, as the ring stands at `r`. -/
def LostSome (s : RingRun) (r : RingState) (cursor : Nat) : Prop :=
  ∃ seq, cursor < seq ∧ seq ≤ r.head ∧
    (seq ∈ s.skipped ∨ ∃ e ∈ s.published, e.seq = seq ∧ e ∉ r.entries)

/-- Reading at a cursor: it has lost events, or gets all that were published past it. -/
structure ReadLaw (cfg : SyncConfig) (s : RingRun) (now cursor : Nat) : Prop where
  lost : s.LostSome (s.ring.read cfg now cursor).2 cursor →
    (s.ring.read cfg now cursor).1 = .lost s.ring.head
  kept : ¬ s.LostSome (s.ring.read cfg now cursor).2 cursor →
    (s.ring.read cfg now cursor).1 =
      .events (s.published.filter fun e => cursor < e.seq ∧ e.seq ≤ s.ring.head) s.ring.head
  evicted : s.LostSome (s.ring.read cfg now cursor).2 cursor ↔
    cursor < (s.ring.read cfg now cursor).2.evictedThrough

/-- The point is of this epoch, and reading at it loses nothing. -/
def Resumable (engine : Engine) (s : RingRun) (now : Nat) (epoch : String) (p : Int) : Prop :=
  epoch = engine.epoch ∧ 0 ≤ p ∧ p ≤ s.ring.head ∧
    ∀ head, (s.ring.read engine.config now p.toNat).1 ≠ .lost head

/-- Resuming at a point, or without one. -/
structure ResumeLaw (engine : Engine) (s : RingRun) (now : Nat) : Prop where
  resumed : ∀ epoch p, s.Resumable engine now epoch p →
    (s.ring.resume engine.config now engine.epoch (some (epoch, p))).1 = (p.toNat, true)
  fresh : ∀ epoch p, ¬ s.Resumable engine now epoch p →
    (s.ring.resume engine.config now engine.epoch (some (epoch, p))).1 = (s.ring.head, false)
  unknown : (s.ring.resume engine.config now engine.epoch none).1 = (s.ring.head, false)

/-- **The representation of the ring and the law of its reads.** -/
structure Lawful (engine : Engine) (s : RingRun) : Prop where
  increasing : Increasing Entry.seq s.ring.entries
  within : ∀ e ∈ s.ring.entries, s.ring.evictedThrough < e.seq ∧ e.seq ≤ s.ring.head
  bounded : s.ring.entries.length ≤ engine.config.ringCapacity
  read : ∀ now cursor, s.ReadLaw engine.config now cursor
  resume : ∀ now, s.ResumeLaw engine now

/-! ## 3. The invariant -/

/-- The ring keeps the end of what was published, and `evictedThrough` is the latest lost. -/
structure Inv (cfg : SyncConfig) (s : RingRun) : Prop where
  keeps : s.ring.Keeps s.published
  bounded : s.ring.entries.length ≤ cfg.ringCapacity
  skipped : ∀ seq ∈ s.skipped, seq ≤ s.ring.evictedThrough
  source : s.ring.evictedThrough = 0 ∨ s.ring.evictedThrough ∈ s.skipped ∨
    ∃ e ∈ s.published, e.seq = s.ring.evictedThrough

variable {engine : Engine} {cfg : SyncConfig} {s s' : RingRun} {now cursor seq : Nat}

theorem evictEntries_length (cfg : SyncConfig) (now : Nat) (l : List Entry) (through : Nat) :
    (evictEntries cfg now l through).1.length ≤ cfg.ringCapacity := by
  induction l generalizing through with
  | nil => simp [evictEntries]
  | cons front rest ih =>
    unfold evictEntries
    split
    · next h => exact h.1
    · exact ih front.seq

/-- What holds before an eviction, whatever the number of entries. -/
theorem Inv.of_evict {r : RingState} {published : List Entry} {skipped : List Nat} (cfg : SyncConfig)
    (now : Nat) (hk : r.Keeps published) (hs : ∀ seq ∈ skipped, seq ≤ r.evictedThrough)
    (hsrc : r.evictedThrough = 0 ∨ r.evictedThrough ∈ skipped ∨
      ∃ e ∈ published, e.seq = r.evictedThrough) :
    Inv cfg ⟨r.evict cfg now, published, skipped⟩ := by
  obtain ⟨t, hle, ht, heq⟩ := RingState.evictEntries_window cfg now hk.increasing r.evictedThrough
  have hthrough : (r.evict cfg now).evictedThrough = t := by
    rw [RingState.evict, hk.entries, heq]
  refine ⟨hk.evict, evictEntries_length .., fun seq h => ?_, ?_⟩
  · show seq ≤ (r.evict cfg now).evictedThrough
    rw [hthrough]
    exact Nat.le_trans (hs seq h) hle
  · show (r.evict cfg now).evictedThrough = 0 ∨ (r.evict cfg now).evictedThrough ∈ skipped ∨
      ∃ e ∈ published, e.seq = (r.evict cfg now).evictedThrough
    rw [hthrough]
    rcases ht with rfl | hmem
    · exact hsrc
    · exact .inr (.inr hmem)

/-- An eviction keeps the invariant. -/
theorem Inv.evict (h : s.Inv cfg) (now : Nat) :
    Inv cfg ⟨s.ring.evict cfg now, s.published, s.skipped⟩ :=
  .of_evict cfg now h.keeps h.skipped h.source

/-- An append keeps it. -/
theorem Inv.append (h : s.Inv cfg) {e : Entry} (now : Nat) (he : s.ring.head < e.seq) :
    Inv cfg ⟨s.ring.append cfg now e, s.published ++ [e], s.skipped⟩ := by
  refine .of_evict cfg now (h.keeps.push_back he) h.skipped ?_
  rcases h.source with hz | hs | ⟨e', he', heq⟩
  · exact .inl hz
  · exact .inr (.inl hs)
  · exact .inr (.inr ⟨e', List.mem_append_left _ he', heq⟩)

/-- A skip keeps it: nothing is left of what was published. -/
theorem Inv.skip (h : s.Inv cfg) (hs : s.ring.head < seq) :
    Inv cfg ⟨s.ring.skip seq, s.published, s.skipped ++ [seq]⟩ := by
  refine ⟨h.keeps.skip hs, Nat.zero_le _, fun q hq => ?_, .inr (.inl ?_)⟩
  · show q ≤ seq
    rcases List.mem_append.mp hq with hold | hnew
    · have := h.skipped q hold
      have := h.keeps.evicted_le
      omega
    · exact Nat.le_of_eq (List.mem_singleton.mp hnew)
  · exact List.mem_append_right _ (List.mem_singleton.mpr rfl)

theorem read_snd (cfg : SyncConfig) (now cursor : Nat) (r : RingState) :
    (r.read cfg now cursor).2 = r.evict cfg now := by
  unfold RingState.read
  dsimp only
  split <;> rfl

/-- **The step lemma.** -/
theorem inv_step {op : RingOp} (h : s.Inv engine.config) (hs : step engine s op = some s') :
    s'.Inv engine.config := by
  cases op with
  | push seq now p =>
    obtain ⟨hlt, hs⟩ := Option.ite_none_right_eq_some.mp hs
    cases hs
    exact h.append (e := Entry.ofPublication seq now p) now hlt
  | pushGap seq now user =>
    obtain ⟨hlt, hs⟩ := Option.ite_none_right_eq_some.mp hs
    cases hs
    exact h.append (e := Entry.gapMarker seq now user) now hlt
  | skip seq =>
    obtain ⟨hlt, hs⟩ := Option.ite_none_right_eq_some.mp hs
    cases hs
    exact h.skip hlt
  | read now cursor =>
    cases hs
    rw [read_snd]
    exact h.evict now
  | resume now point =>
    cases hs
    rw [RingState.resume_snd]
    exact ⟨⟨(h.evict now).keeps.increasing, (h.evict now).keeps.bounded, (h.evict now).keeps.evicted_le,
      (h.evict now).keeps.entries, (h.evict now).keeps.tip⟩, (h.evict now).bounded,
      (h.evict now).skipped, (h.evict now).source⟩

/-- **The run lemma.** -/
theorem inv_of_reach (h : Reach (ringRuns engine) s) : s.Inv engine.config := by
  refine h.induct ?_ fun s₁ op s₂ _ hi _ hs => ?_
  · rintro s rfl
    exact ⟨RingState.keeps_empty, Nat.zero_le _, fun _ h => (List.not_mem_nil h).elim, .inl rfl⟩
  · have hstep : step engine s₁ op = some s₂ := hs
    exact inv_step hi hstep

/-! ## 4. The answers -/

/-- **What was lost past a cursor** is there when the ring's start lies past it. -/
theorem Inv.lostSome_iff (h : s.Inv cfg) :
    s.LostSome s.ring cursor ↔ cursor < s.ring.evictedThrough := by
  constructor
  · rintro ⟨seq, hlt, -, hskipped | ⟨e, he, rfl, hgone⟩⟩
    · exact Nat.lt_of_lt_of_le hlt (h.skipped seq hskipped)
    · by_contra hle
      refine hgone ?_
      rw [h.keeps.entries]
      exact mem_past.mpr ⟨he, by omega⟩
  · intro hlt
    refine ⟨s.ring.evictedThrough, hlt, h.keeps.evicted_le, ?_⟩
    rcases h.source with hz | hs | ⟨e, he, heq⟩
    · omega
    · exact .inl hs
    · refine .inr ⟨e, he, heq, fun hin => ?_⟩
      rw [h.keeps.entries] at hin
      have := (mem_past.mp hin).2
      omega

theorem Inv.readLaw (h : s.Inv cfg) (now cursor : Nat) : s.ReadLaw cfg now cursor := by
  have hiff : s.LostSome (s.ring.evict cfg now) cursor ↔ cursor < (s.ring.evict cfg now).evictedThrough :=
    (h.evict now).lostSome_iff
  have hread : s.ring.read cfg now cursor = _ := h.keeps.read_eq cursor
  refine ⟨fun hl => ?_, fun hk => ?_, ?_⟩
  · rw [read_snd, hiff] at hl
    rw [hread, if_pos hl]
  · rw [read_snd, hiff] at hk
    rw [hread, if_neg hk]
    show Read.events (past Entry.seq cursor s.published) s.ring.head = _
    congr 1
    refine List.filter_congr fun e he => ?_
    have := h.keeps.bounded e he
    simp [this]
  · rw [read_snd]
    exact hiff

/-- A read says that it lost events when the ring's start lies past the cursor. -/
theorem Inv.not_lost_iff (h : s.Inv cfg) (now cursor : Nat) :
    (∀ head, (s.ring.read cfg now cursor).1 ≠ .lost head) ↔
      (s.ring.evict cfg now).evictedThrough ≤ cursor := by
  rw [show s.ring.read cfg now cursor = _ from h.keeps.read_eq cursor]
  split
  · next hlt => exact ⟨fun hne => absurd rfl (hne _), fun hle => absurd hle (Nat.not_le.mpr hlt)⟩
  · next hle => exact ⟨fun _ => Nat.not_lt.mp hle, fun _ head heq => by cases heq⟩

theorem Inv.resumeLaw (h : s.Inv engine.config) (now : Nat) : s.ResumeLaw engine now := by
  have hanswer : ∀ epoch p, (s.ring.resume engine.config now engine.epoch (some (epoch, p))).1 =
      if epoch = engine.epoch ∧ 0 ≤ p ∧ p.toNat ≤ s.ring.head ∧
        (s.ring.evict engine.config now).evictedThrough ≤ p.toNat then (p.toNat, true)
      else (s.ring.head, false) := by
    intro epoch p
    unfold RingState.resume
    dsimp only
    split
    · next hin => exact (if_pos hin).symm
    · next hout => exact (if_neg hout).symm
  have hiff : ∀ epoch p, s.Resumable engine now epoch p ↔ epoch = engine.epoch ∧ 0 ≤ p ∧
      p.toNat ≤ s.ring.head ∧ (s.ring.evict engine.config now).evictedThrough ≤ p.toNat := by
    intro epoch p
    unfold Resumable
    rw [h.not_lost_iff]
    constructor
    · rintro ⟨hepoch, hzero, hhead, hle⟩
      exact ⟨hepoch, hzero, by omega, hle⟩
    · rintro ⟨hepoch, hzero, hhead, hle⟩
      exact ⟨hepoch, hzero, by omega, hle⟩
  refine ⟨fun epoch p hr => ?_, fun epoch p hr => ?_, rfl⟩
  · rw [hanswer, if_pos ((hiff epoch p).mp hr)]
  · rw [hanswer, if_neg fun hin => hr ((hiff epoch p).mpr hin)]

/-- **The ring is lawful** in every state of every run. -/
theorem lawful_of_reach (h : Reach (ringRuns engine) s) : s.Lawful engine := by
  have hi : s.Inv engine.config := inv_of_reach h
  refine ⟨?_, fun e he => ?_, hi.bounded, hi.readLaw, hi.resumeLaw⟩
  · rw [hi.keeps.entries]
    exact hi.keeps.increasing.sublist (past_sublist ..)
  · rw [hi.keeps.entries] at he
    exact ⟨(mem_past.mp he).2, hi.keeps.bounded e (mem_past.mp he).1⟩

/-- A ring of two: sequence 1 is evicted, 5 was skipped, and 7 is kept. -/
theorem lawful_of_reach_sample : ∃ s, Reach (ringRuns ⟨{ SyncConfig.default with ringCapacity := 2 }, "e"⟩) s ∧
    s.Lawful ⟨{ SyncConfig.default with ringCapacity := 2 }, "e"⟩ := by
  obtain ⟨s, hs, -⟩ := exists_reachWhen_of_replay (T := ringRuns ⟨{ SyncConfig.default with ringCapacity := 2 }, "e"⟩)
    (G := fun _ _ => True) (s := ⟨.empty, [], []⟩)
    (l := [.pushGap 1 0 3, .pushGap 2 1 3, .read 1 0, .pushGap 4 2 3, .resume 3 (some ("e", 2)), .skip 5,
      .pushGap 7 9 3])
    (p := fun s => s.ring.evictedThrough = 5 ∧ s.ring.entries.map Entry.seq = [7]) rfl (by decide)
  exact ⟨s, hs, lawful_of_reach hs⟩

end RingRun

end Smartfire
