/-
  File:      Smartfire/Cable/Fences.lean
  Subject:   Fences: which publications came after a reading (crates/cable/src/sync.rs `Fences`,
             `Server::{sync_publish_fencing, sync_publish_fresh}`).

  A fence key keeps the sequence of its latest event. The map is bounded: when it is full, the older
  half of the keys is forgotten and only the sequence they are older than is kept. A key that is
  forgotten then counts as crossed for every reading before that sequence, so forgetting errs on the
  side of a refusal.

  * `Fences.record`, `Fences.crossed`;
  * `Fences.Keeps` -- the fences against the events recorded; `crossed_eq_false` -- where no event is
    reported after a point, none was recorded after it;
  * `publishFencing`, `publishFresh` -- the publications that record and ask.
-/
import Smartfire.Cable.Hub
import Std.Data.TreeMap

namespace Smartfire

open Lib

/-! ## 1. The fences -/

/-- For each key, the sequence of the latest event published under it. -/
structure Fences where
  latest : Std.TreeMap String Nat
  /-- Keys forgotten to bound the map: their latest event was at or before this sequence. -/
  forgottenThrough : Nat

namespace Fences

/-- Keys remembered at most; when full, the older half is forgotten. -/
def limit : Nat := 4096

def empty : Fences := ⟨∅, 0⟩

/-- The entry at index `n` of the list once sorted (`select_nth_unstable`). -/
def selectNth (n : Nat) (l : List Nat) (h : n < l.length) : Nat :=
  (l.mergeSort (· ≤ ·)).get ⟨n, by rwa [List.length_mergeSort]⟩

/-- The sequences remembered. -/
def sequences (f : Fences) : List Nat := f.latest.toList.map Prod.snd

/-- Forgets the older half of the keys, where the map is full. -/
def forget (f : Fences) : Fences :=
  if h : limit / 2 < f.sequences.length then
    let cutoff := selectNth (limit / 2) f.sequences h
    ⟨f.latest.filter fun _ seq => cutoff < seq, cutoff⟩
  else f

/-- An event was published under `key` at `seq`. -/
def record (key : String) (seq : Nat) (f : Fences) : Fences :=
  let f := if limit ≤ f.latest.size && !f.latest.contains key then f.forget else f
  { f with latest := f.latest.insert key seq }

/-- Whether an event under `key` may have been published after `since`. -/
def crossed (key : String) (since : Nat) (f : Fences) : Bool :=
  since < f.forgottenThrough || f.latest[key]?.any fun seq => since < seq

/-! ## 2. What they remember -/

/-- The fences against the events recorded, each with its key: what is remembered of a key is its
    latest event, and what is not lies at or before `forgottenThrough`. -/
structure Keeps (f : Fences) (events : List (String × Nat)) : Prop where
  remembered : ∀ key seq, f.latest[key]? = some seq → (key, seq) ∈ events ∧ f.forgottenThrough < seq
  kept : ∀ key seq, (key, seq) ∈ events →
    seq ≤ f.forgottenThrough ∨ ∃ latest, f.latest[key]? = some latest ∧ seq ≤ latest

variable {f : Fences} {events : List (String × Nat)} {key : String} {seq since : Nat}

theorem keeps_empty : Keeps empty [] := by
  refine ⟨fun key seq h => ?_, fun _ _ h => (List.not_mem_nil h).elim⟩
  have h' : (∅ : Std.TreeMap String Nat)[key]? = some seq := h
  rw [Std.TreeMap.getElem?_emptyc] at h'
  cases h'

theorem selectNth_mem {n : Nat} {l : List Nat} (h : n < l.length) : selectNth n l h ∈ l := by
  have hmem : selectNth n l h ∈ l.mergeSort (· ≤ ·) := List.get_mem ..
  exact List.mem_mergeSort.mp hmem

theorem mem_sequences : seq ∈ f.sequences ↔ ∃ key : String, f.latest[key]? = some seq := by
  unfold sequences
  rw [List.mem_map]
  constructor
  · rintro ⟨⟨key, seq'⟩, hmem, rfl⟩
    exact ⟨key, Std.TreeMap.mem_toList_iff_getElem?_eq_some.mp hmem⟩
  · rintro ⟨key, hkey⟩
    exact ⟨(key, seq), Std.TreeMap.mem_toList_iff_getElem?_eq_some.mpr hkey, rfl⟩

/-- **Forgetting raises the point before which a key counts as crossed** to the latest event it
    forgets. -/
theorem Keeps.forget (hk : f.Keeps events) :
    f.forget.Keeps events ∧ f.forgottenThrough ≤ f.forget.forgottenThrough := by
  unfold Fences.forget
  split
  · next h =>
    obtain ⟨old, hold⟩ := mem_sequences.mp (selectNth_mem h)
    have hlt : f.forgottenThrough < selectNth (limit / 2) f.sequences h := (hk.remembered old _ hold).2
    have hfilter : ∀ key : String, (f.latest.filter fun _ seq => selectNth (limit / 2) f.sequences h < seq)[key]? =
        f.latest[key]?.filter fun seq => selectNth (limit / 2) f.sequences h < seq := fun key =>
      Std.TreeMap.getElem?_filter'
    refine ⟨⟨fun key seq hseq => ?_, fun key seq hev => ?_⟩, Nat.le_of_lt hlt⟩
    · have hseq' := (hfilter key).symm.trans hseq
      obtain ⟨hin, hpast⟩ := Option.filter_eq_some_iff.mp hseq'
      exact ⟨(hk.remembered key seq hin).1, of_decide_eq_true hpast⟩
    · rcases hk.kept key seq hev with hle | ⟨latest, hlatest, hle⟩
      · exact .inl (Nat.le_trans hle (Nat.le_of_lt hlt))
      · by_cases hpast : selectNth (limit / 2) f.sequences h < latest
        · refine .inr ⟨latest, (hfilter key).trans ?_, hle⟩
          exact Option.filter_eq_some_iff.mpr ⟨hlatest, decide_eq_true hpast⟩
        · exact .inl (Nat.le_trans hle (Nat.not_lt.mp hpast))
  · exact ⟨hk, Nat.le_refl _⟩

/-- **Recording an event past all others keeps the fences.** -/
theorem Keeps.record {f : Fences} (hk : f.Keeps events) (hlater : ∀ q ∈ events, q.2 < seq)
    (hpast : f.forgottenThrough < seq) : (f.record key seq).Keeps (events ++ [(key, seq)]) := by
  have hf : ∃ f₁ : Fences, f.record key seq = { f₁ with latest := f₁.latest.insert key seq } ∧
      f₁.Keeps events ∧ f₁.forgottenThrough < seq := by
    unfold Fences.record
    dsimp only
    split
    · refine ⟨_, rfl, hk.forget.1, ?_⟩
      unfold Fences.forget
      split
      · next h =>
        obtain ⟨old, hold⟩ := mem_sequences.mp (selectNth_mem h)
        exact hlater _ (hk.remembered old _ hold).1
      · exact hpast
    · exact ⟨f, rfl, hk, hpast⟩
  obtain ⟨f₁, heq, hk₁, hpast₁⟩ := hf
  rw [heq]
  refine ⟨fun k q hq => ?_, fun k q hev => ?_⟩
  · have hq' : (f₁.latest.insert key seq)[k]? = some q := hq
    rw [Std.TreeMap.getElem?_insert] at hq'
    split at hq'
    · next hkey =>
      cases hq'
      rw [Std.LawfulEqCmp.compare_eq_iff_eq.mp hkey]
      exact ⟨List.mem_append_right _ (List.mem_singleton.mpr rfl), hpast₁⟩
    · obtain ⟨hin, hlt⟩ := hk₁.remembered k q hq'
      exact ⟨List.mem_append_left _ hin, hlt⟩
  · by_cases hkey : k = key
    · subst hkey
      refine .inr ⟨seq, Std.TreeMap.getElem?_insert_self, ?_⟩
      rcases List.mem_append.mp hev with hold | heq
      · exact Nat.le_of_lt (hlater _ hold)
      · cases List.mem_singleton.mp heq
        exact Nat.le_refl _
    · rcases List.mem_append.mp hev with hold | heq
      · refine (hk₁.kept k q hold).imp_right fun ⟨latest, hlatest, hle⟩ => ⟨latest, ?_, hle⟩
        show (f₁.latest.insert key seq)[k]? = some latest
        rw [Std.TreeMap.getElem?_insert, if_neg fun h => hkey (Std.LawfulEqCmp.compare_eq_iff_eq.mp h).symm]
        exact hlatest
      · cases List.mem_singleton.mp heq
        exact absurd rfl hkey

theorem forgottenThrough_record {f : Fences} (hk : f.Keeps events) (hlater : ∀ q ∈ events, q.2 < seq)
    (hpast : f.forgottenThrough < seq) : (f.record key seq).forgottenThrough < seq := by
  have hk' : (f.record key seq).Keeps (events ++ [(key, seq)]) := hk.record hlater hpast
  exact (hk'.remembered key seq Std.TreeMap.getElem?_insert_self).2

/-- **Where no event is reported after a point, none was recorded after it.** -/
theorem Keeps.le_of_not_crossed (hk : f.Keeps events) (hc : f.crossed key since = false)
    (hev : (key, seq) ∈ events) : seq ≤ since := by
  unfold crossed at hc
  rw [Bool.or_eq_false_iff, decide_eq_false_iff_not, Nat.not_lt] at hc
  rcases hk.kept key seq hev with hle | ⟨latest, hlatest, hle⟩
  · exact Nat.le_trans hle hc.1
  · have hany := hc.2
    rw [hlatest] at hany
    have : ¬ since < latest := by simpa using hany
    omega

end Fences

/-! ## 3. Publishing -/

/-- `Server::sync_publish_fencing`: the event's sequence is recorded under `fence` in the same
    step. -/
def publishFencing (cfg : SyncConfig) (now : Nat) (p : SyncPublication) (fence : String) (h : Hub)
    (f : Fences) : Hub × Fences :=
  (h.publish cfg now p, f.record fence (h.sequence + 1))

/-- `Server::sync_publish_fresh`: the publication is refused where an event under `fence` may have
    come after `since`, and takes no sequence then. -/
def publishFresh (cfg : SyncConfig) (now : Nat) (p : SyncPublication) (fence : String) (since : Nat)
    (h : Hub) (f : Fences) : Option Hub :=
  if f.crossed fence since then none else some (h.publish cfg now p)

end Smartfire
