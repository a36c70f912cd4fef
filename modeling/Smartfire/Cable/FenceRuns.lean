/-
  File:      Smartfire/Cable/FenceRuns.lean
  Subject:   The fences over any history of events.

  A map that forgets may say that a key was crossed when it was not, but never that it was not when
  it was. What it forgets lies at or before `forgottenThrough`, which is the sequence of an event
  it once held; each forgetting drops at least that event's key, so there is always room for the
  next one.

  * `recorded` -- the fences after a history;
  * `Fences.Tracks` -- the invariant of a history, kept by each event;
  * `soundAndBounded` -- what the fences answer, and how far they grow;
  * `Tracks.forgets` -- more keys than the limit are not all remembered.
-/
import Mathlib.Data.List.Induction
import Mathlib.Data.List.Nodup
import Std.Data.String.ToNat
import Smartfire.Cable.Fences

namespace Smartfire

open Lib

namespace Fences

/-- The fences after these events, each recorded with its key. -/
def recorded (events : List (String × Nat)) : Fences :=
  events.foldl (fun f q => f.record q.1 q.2) empty

/-! ## 1. What is claimed -/

/-- **Fences are sound and bounded** for the history they were recorded from. -/
structure Sound (f : Fences) (events : List (String × Nat)) : Prop where
  /-- A key that was not crossed has no later event. -/
  uncrossed : ∀ key since, f.crossed key since = false → ∀ seq, (key, seq) ∈ events → seq ≤ since
  /-- A key that was crossed has one, or the reading is older than an event forgotten. -/
  crossed : ∀ key since, f.crossed key since = true →
    (∃ seq, (key, seq) ∈ events ∧ since < seq) ∨
      since < f.forgottenThrough ∧ ∃ forgotten, (forgotten, f.forgottenThrough) ∈ events
  /-- Nothing is forgotten, or the sequence forgotten through is that of an event. -/
  source : f.forgottenThrough = 0 ∨ ∃ forgotten, (forgotten, f.forgottenThrough) ∈ events
  /-- It never decreases. -/
  monotone : ∀ before, before <+: events → (recorded before).forgottenThrough ≤ f.forgottenThrough
  bounded : f.latest.size ≤ limit

/-! ## 2. The invariant of a history -/

/-- The fences against a history, whose first sequence may be zero. -/
structure Tracks (f : Fences) (events : List (String × Nat)) : Prop where
  remembered : ∀ key seq, f.latest[key]? = some seq → (key, seq) ∈ events ∧ f.forgottenThrough ≤ seq
  kept : ∀ key seq, (key, seq) ∈ events →
    seq ≤ f.forgottenThrough ∨ ∃ latest, f.latest[key]? = some latest ∧ seq ≤ latest
  source : f.forgottenThrough = 0 ∨ ∃ key, (key, f.forgottenThrough) ∈ events
  bounded : f.latest.size ≤ limit

variable {f : Fences} {events : List (String × Nat)} {key : String} {seq : Nat}

theorem recorded_push (events : List (String × Nat)) (key : String) (seq : Nat) :
    recorded (events ++ [(key, seq)]) = (recorded events).record key seq := by
  simp [recorded]

theorem tracks_empty : Tracks empty [] := by
  refine ⟨fun key seq h => ?_, fun _ _ h => (List.not_mem_nil h).elim, .inl rfl, ?_⟩
  · exact absurd (keeps_empty.remembered key seq h).1 List.not_mem_nil
  · exact Nat.zero_le _

/-- **What forgetting does to a full map**: the entries at or before one of them go. -/
theorem forget_eq (hfull : limit ≤ f.latest.size) :
    ∃ (key : String) (cutoff : Nat), f.latest[key]? = some cutoff ∧
      f.forget = ⟨f.latest.filter fun _ seq => cutoff < seq, cutoff⟩ := by
  have hlength : f.sequences.length = f.latest.size := by
    simp [sequences, Std.TreeMap.length_toList]
  have h : limit / 2 < f.sequences.length := by
    have hlimit : limit / 2 < limit := by decide
    omega
  obtain ⟨key, hkey⟩ := mem_sequences.mp (selectNth_mem h)
  exact ⟨key, _, hkey, by rw [forget, dif_pos h]⟩

theorem getElem?_filter_past (t : Std.TreeMap String Nat) (cutoff : Nat) (key : String) :
    (t.filter fun _ seq => cutoff < seq)[key]? = t[key]?.filter fun seq => cutoff < seq :=
  Std.TreeMap.getElem?_filter'

/-- The cutoff's own entry goes. -/
theorem size_filter_past {t : Std.TreeMap String Nat} {cutoff : Nat} (h : t[key]? = some cutoff) :
    (t.filter fun _ seq => cutoff < seq).size < t.size := by
  refine Nat.lt_of_le_of_ne Std.TreeMap.size_filter_le_size fun heq => ?_
  have hin : key ∈ t := Std.TreeMap.mem_iff_isSome_getElem?.mpr (Option.isSome_of_eq_some h)
  have hall := Std.TreeMap.size_filter_eq_size_iff.mp heq key hin
  have hget : t[key] = cutoff := by
    have := Std.TreeMap.getElem?_eq_some_getElem hin
    rw [h] at this
    exact (Option.some.inj this).symm
  rw [hget] at hall
  simp at hall

/-- **Forgetting keeps the history tracked** and makes room. -/
theorem Tracks.forget (ht : f.Tracks events) (hfull : limit ≤ f.latest.size) :
    f.forget.Tracks events ∧ f.forgottenThrough ≤ f.forget.forgottenThrough ∧
      f.forget.latest.size < limit := by
  obtain ⟨old, cutoff, hold, heq⟩ := forget_eq hfull
  have hle : f.forgottenThrough ≤ cutoff := (ht.remembered old cutoff hold).2
  have hsize : (f.latest.filter fun _ seq => cutoff < seq).size < f.latest.size := size_filter_past hold
  have hbound := ht.bounded
  rw [heq]
  refine ⟨⟨fun key seq h => ?_, fun key seq h => ?_, .inr ⟨old, (ht.remembered old cutoff hold).1⟩, ?_⟩, hle, ?_⟩
  · have h' := (getElem?_filter_past f.latest cutoff key).symm.trans h
    obtain ⟨hin, hpast⟩ := Option.filter_eq_some_iff.mp h'
    exact ⟨(ht.remembered key seq hin).1, Nat.le_of_lt (of_decide_eq_true hpast)⟩
  · rcases ht.kept key seq h with hseq | ⟨latest, hlatest, hseq⟩
    · exact .inl (Nat.le_trans hseq hle)
    · by_cases hpast : cutoff < latest
      · refine .inr ⟨latest, (getElem?_filter_past f.latest cutoff key).trans ?_, hseq⟩
        exact Option.filter_eq_some_iff.mpr ⟨hlatest, decide_eq_true hpast⟩
      · exact .inl (Nat.le_trans hseq (Nat.not_lt.mp hpast))
  · show (f.latest.filter fun _ seq => cutoff < seq).size ≤ limit
    omega
  · show (f.latest.filter fun _ seq => cutoff < seq).size < limit
    omega

/-- **What recording does**: the event is put into fences that track the history still and have
    room for its key. -/
theorem Tracks.record_eq (ht : f.Tracks events) (key : String) (seq : Nat) :
    ∃ f₁ : Fences, f.record key seq = { f₁ with latest := f₁.latest.insert key seq } ∧
      f₁.Tracks events ∧ f.forgottenThrough ≤ f₁.forgottenThrough ∧
      (f₁.latest.insert key seq).size ≤ limit := by
  have hbound := ht.bounded
  unfold record
  dsimp only
  split
  · next hfull =>
    have hlimit : limit ≤ f.latest.size := by simp at hfull; exact hfull.1
    obtain ⟨ht₁, hle, hroom⟩ := ht.forget hlimit
    refine ⟨f.forget, rfl, ht₁, hle, ?_⟩
    have := Std.TreeMap.size_insert_le (t := f.forget.latest) (k := key) (v := seq)
    omega
  · next hroom =>
    refine ⟨f, rfl, ht, Nat.le_refl _, ?_⟩
    rw [Std.TreeMap.size_insert]
    split
    · exact hbound
    · next hnew =>
      rw [Bool.and_eq_true, decide_eq_true_iff, not_and] at hroom
      have hlt : ¬ limit ≤ f.latest.size := fun hle => hroom hle (by rw [(Bool.not_eq_true _).mp hnew]; rfl)
      omega

/-- **Recording an event past all others keeps the history tracked.** -/
theorem Tracks.record (ht : f.Tracks events) (hlater : ∀ q ∈ events, q.2 < seq) :
    (f.record key seq).Tracks (events ++ [(key, seq)]) ∧
      f.forgottenThrough ≤ (f.record key seq).forgottenThrough := by
  obtain ⟨f₁, heq, ht₁, hle, hsize⟩ := ht.record_eq key seq
  rw [heq]
  refine ⟨⟨fun k q h => ?_, fun k q h => ?_, ?_, hsize⟩, hle⟩
  · have h' : (f₁.latest.insert key seq)[k]? = some q := h
    rw [Std.TreeMap.getElem?_insert] at h'
    split at h'
    · next hkey =>
      cases h'
      rw [Std.LawfulEqCmp.compare_eq_iff_eq.mp hkey]
      refine ⟨List.mem_append_right _ (List.mem_singleton.mpr rfl), ?_⟩
      rcases ht₁.source with hzero | ⟨k', hk'⟩
      · exact hzero ▸ Nat.zero_le _
      · exact Nat.le_of_lt (hlater _ hk')
    · exact ⟨List.mem_append_left _ (ht₁.remembered k q h').1, (ht₁.remembered k q h').2⟩
  · by_cases hkey : k = key
    · subst hkey
      refine .inr ⟨seq, Std.TreeMap.getElem?_insert_self, ?_⟩
      rcases List.mem_append.mp h with hold | hnew
      · exact Nat.le_of_lt (hlater _ hold)
      · cases List.mem_singleton.mp hnew
        exact Nat.le_refl _
    · rcases List.mem_append.mp h with hold | hnew
      · refine (ht₁.kept k q hold).imp_right fun ⟨latest, hlatest, hq⟩ => ⟨latest, ?_, hq⟩
        show (f₁.latest.insert key seq)[k]? = some latest
        rw [Std.TreeMap.getElem?_insert, if_neg fun h => hkey (Std.LawfulEqCmp.compare_eq_iff_eq.mp h).symm]
        exact hlatest
      · cases List.mem_singleton.mp hnew
        exact absurd rfl hkey
  · exact ht₁.source.imp_right fun ⟨k, hk⟩ => ⟨k, List.mem_append_left _ hk⟩

/-- The history as the list it is, from its last event. -/
theorem increasing_push (h : (events ++ [(key, seq)]).Pairwise fun a b => a.2 < b.2) :
    events.Pairwise (fun a b => a.2 < b.2) ∧ ∀ q ∈ events, q.2 < seq := by
  obtain ⟨hbefore, -, hlast⟩ := List.pairwise_append.mp h
  exact ⟨hbefore, fun q hq => hlast q hq _ (List.mem_singleton.mpr rfl)⟩

/-- **The run lemma**: the fences track every history of increasing sequences. -/
theorem tracks_recorded (events : List (String × Nat)) (h : events.Pairwise fun a b => a.2 < b.2) :
    (recorded events).Tracks events := by
  induction events using List.reverseRecOn with
  | nil => exact tracks_empty
  | append_singleton events q ih =>
    obtain ⟨hbefore, hlater⟩ := increasing_push h
    rw [recorded_push]
    exact ((ih hbefore).record hlater).1

theorem forgottenThrough_mono {before : List (String × Nat)} (events : List (String × Nat))
    (h : events.Pairwise fun a b => a.2 < b.2) (hp : before <+: events) :
    (recorded before).forgottenThrough ≤ (recorded events).forgottenThrough := by
  induction events using List.reverseRecOn with
  | nil =>
    exact Nat.le_of_eq (congrArg _ (congrArg recorded (List.prefix_nil.mp hp)))
  | append_singleton events q ih =>
    obtain ⟨hbefore, hlater⟩ := increasing_push h
    rcases List.prefix_concat_iff.mp hp with rfl | hp
    · exact Nat.le_refl _
    · have hstep : (recorded events).forgottenThrough ≤ ((recorded events).record q.1 q.2).forgottenThrough :=
        ((tracks_recorded events hbefore).record hlater).2
      rw [recorded_push]
      exact Nat.le_trans (ih hbefore hp) hstep

/-! ## 3. The answers -/

theorem Tracks.le_of_uncrossed (ht : f.Tracks events) {since : Nat} (hc : f.crossed key since = false)
    (hev : (key, seq) ∈ events) : seq ≤ since := by
  unfold Fences.crossed at hc
  rw [Bool.or_eq_false_iff, decide_eq_false_iff_not, Nat.not_lt] at hc
  rcases ht.kept key seq hev with hle | ⟨latest, hlatest, hle⟩
  · exact Nat.le_trans hle hc.1
  · have hany := hc.2
    rw [hlatest] at hany
    have : ¬ since < latest := by simpa using hany
    omega

theorem Tracks.of_crossed (ht : f.Tracks events) {since : Nat} (hc : f.crossed key since = true) :
    (∃ seq, (key, seq) ∈ events ∧ since < seq) ∨
      since < f.forgottenThrough ∧ ∃ forgotten, (forgotten, f.forgottenThrough) ∈ events := by
  unfold Fences.crossed at hc
  rw [Bool.or_eq_true, decide_eq_true_iff] at hc
  rcases hc with hpast | hany
  · refine .inr ⟨hpast, ht.source.resolve_left ?_⟩
    omega
  · obtain ⟨latest, hlatest, hlt⟩ := (Option.any_eq_true _ _).mp hany
    exact .inl ⟨latest, (ht.remembered key latest hlatest).1, of_decide_eq_true hlt⟩

/-- **Fences are sound and bounded**, whatever was recorded. -/
theorem soundAndBounded (events : List (String × Nat)) (h : events.Pairwise fun a b => a.2 < b.2) :
    (recorded events).Sound events where
  uncrossed _ _ hc _ hev := (tracks_recorded events h).le_of_uncrossed hc hev
  crossed _ _ hc := (tracks_recorded events h).of_crossed hc
  source := (tracks_recorded events h).source
  monotone _ hp := forgottenThrough_mono events h hp
  bounded := (tracks_recorded events h).bounded

/-- **More keys than the map holds are forgotten**: of those that never had a sequence of 0, the map
    remembers each or forgets through it. -/
theorem Tracks.forgets (ht : f.Tracks events) (hkeys : (events.map Prod.fst).Nodup)
    (hpos : ∀ q ∈ events, 0 < q.2) (hmany : limit < events.length) : 0 < f.forgottenThrough := by
  by_contra hnone
  have hzero : f.forgottenThrough = 0 := Nat.eq_zero_of_not_pos hnone
  have hall : events.map Prod.fst ⊆ f.latest.keys := by
    intro key hkey
    obtain ⟨⟨key, seq⟩, hev, rfl⟩ := List.mem_map.mp hkey
    have hseq : 0 < seq := hpos _ hev
    rcases ht.kept key seq hev with hle | ⟨latest, hlatest, -⟩
    · omega
    · exact Std.TreeMap.mem_keys.mpr (Std.TreeMap.mem_iff_isSome_getElem?.mpr (Option.isSome_of_eq_some hlatest))
  have hlength : events.length ≤ f.latest.size := by
    calc events.length = (events.map Prod.fst).length := (List.length_map Prod.fst).symm
      _ ≤ f.latest.keys.length := hkeys.length_le_of_subset hall
      _ = f.latest.size := Std.TreeMap.length_keys
  have hbound := ht.bounded
  omega

/-- `n` events, each under a key of its own. -/
def numbered (n : Nat) : List (String × Nat) := (List.range n).map fun k => (toString k, k + 1)

theorem numbered_increasing (n : Nat) : (numbered n).Pairwise fun a b => a.2 < b.2 :=
  List.pairwise_map.mpr (List.pairwise_lt_range.imp Nat.succ_lt_succ)

theorem nodup_numbered (n : Nat) : ((numbered n).map Prod.fst).Nodup := by
  rw [numbered, List.map_map]
  exact (List.nodup_map_iff fun _ _ h => Nat.repr_injective h).mpr List.nodup_range

/-- One key more than the map holds: it forgets, and a key that was never recorded counts as crossed. -/
theorem soundAndBounded_sample :
    (numbered (limit + 1)).Pairwise (fun a b : String × Nat => a.2 < b.2) ∧
      (recorded (numbered (limit + 1))).Sound (numbered (limit + 1)) ∧
      0 < (recorded (numbered (limit + 1))).forgottenThrough ∧
      (recorded (numbered (limit + 1))).crossed "a" 0 = true := by
  have hinc := numbered_increasing (limit + 1)
  have hpast : 0 < (recorded (numbered (limit + 1))).forgottenThrough := by
    refine (tracks_recorded _ hinc).forgets (nodup_numbered _) (fun q hq => ?_) ?_
    · obtain ⟨k, -, rfl⟩ := List.mem_map.mp hq
      exact Nat.succ_pos k
    · rw [numbered, List.length_map, List.length_range]
      exact Nat.lt_succ_self limit
  exact ⟨hinc, soundAndBounded _ hinc, hpast, by rw [crossed, decide_eq_true hpast, Bool.true_or]⟩

end Fences

end Smartfire
