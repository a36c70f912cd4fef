/-
  File:      Smartfire/Caching/JsonCache.lean
  Subject:   The byte-bounded value cache (crates/app/src/json_cache.rs).

  A value is one of any type; a caller gets a stored one only at its own type. How large a value is is a
  parameter.

  * `CacheValue`, `JsonEntry`, `JsonEntries` -- the map, the recency order and the two counters;
  * `read`, `write`, `prune` -- the locked steps, `write` with what it removes;
  * `JsonEntries.Inv` -- map and order are in bijection, the clock bounds the uses, the sizes add up;
  * `Inv.read`, `Inv.write` -- the steps keep it, and what a write prunes was used before what stays;
  * `write_held`, `Inv.write_other` -- a write answers with what the key holds at its type, or puts its own.
-/
import Mathlib.Algebra.Order.BigOperators.Group.List
import Mathlib.Algebra.Order.Group.Nat
import Mathlib.Algebra.Order.Ring.Int
import Mathlib.Data.List.Perm.Basic
import Smartfire.Lib.Bytes
import Smartfire.Lib.Insert
import Smartfire.Lib.Keyed

namespace Smartfire

open Lib

/-! ## 1. The cache -/

/-- `Arc<dyn Any>` -/
structure CacheValue (τ V : Type) where
  type : τ
  value : V
deriving DecidableEq

structure JsonEntry (τ V : Type) where
  key : Bytes
  value : CacheValue τ V
  used : Nat
  size : Nat
deriving DecidableEq

structure JsonEntries (τ V : Type) where
  values : List (Bytes × JsonEntry τ V)
  /-- Last use and key, oldest first. -/
  recency : List (Nat × Bytes)
  clock : Nat
  bytes : Nat
deriving DecidableEq

def perEntryOverhead : Nat := 240

/-- `BTreeMap::insert` -/
def recencyInsert (used : Nat) (key : Bytes) (recency : List (Nat × Bytes)) : List (Nat × Bytes) :=
  insertBefore (fun e => used < e.1) (used, key) (recency.filter (·.1 ≠ used))

/-- `BTreeMap::remove` -/
def recencyRemove (used : Nat) (recency : List (Nat × Bytes)) : List (Nat × Bytes) := recency.filter (·.1 ≠ used)

/-- How a write ended: with what the key already held, with its own value stored, or with it too large. -/
inductive WriteOutcome where
  | held
  | stored
  | tooLarge
deriving DecidableEq

namespace JsonEntries

variable {τ V : Type}

def empty : JsonEntries τ V := ⟨[], [], 0, 0⟩

def find (s : JsonEntries τ V) (key : Bytes) : Option (JsonEntry τ V) := (s.values.find? (·.1 = key)).map (·.2)

/-- `Entry::touch` at the clock's next tick. -/
def touch (s : JsonEntries τ V) (entry : JsonEntry τ V) : JsonEntries τ V :=
  { s with
    clock := s.clock + 1
    values := s.values.map fun (k, e) => if k = entry.key then (k, { e with used := s.clock + 1 }) else (k, e)
    recency := recencyInsert (s.clock + 1) entry.key (recencyRemove entry.used s.recency) }

variable [DecidableEq τ]

def read (s : JsonEntries τ V) (key : Bytes) (type : τ) : Option V × JsonEntries τ V :=
  match s.find key with
  | none => (none, s)
  | some entry => if entry.value.type = type then (some entry.value.value, s.touch entry) else (none, s)

/-- The loop of `prune`, oldest first, with the entries it removes. -/
def prune (target : Nat) (values : List (Bytes × JsonEntry τ V)) (bytes : Nat) :
    List (Nat × Bytes) → List (Bytes × JsonEntry τ V) × List (Nat × Bytes) × Nat × List (JsonEntry τ V)
  | [] => (values, [], bytes, [])
  | (used, oldest) :: recency =>
    if target < bytes then
      match (values.find? (·.1 = oldest)).map (·.2) with
      | none => prune target values bytes recency
      | some entry =>
        let (values, recency, bytes, pruned) :=
          prune target (values.filter (·.1 ≠ oldest)) (bytes - entry.size) recency
        (values, recency, bytes, entry :: pruned)
    else (values, (used, oldest) :: recency, bytes, [])

/-- Drops an entry of another type. -/
def replace (s : JsonEntries τ V) (entry : JsonEntry τ V) : JsonEntries τ V :=
  { s with
    values := s.values.filter (·.1 ≠ entry.key)
    recency := recencyRemove entry.used s.recency
    bytes := s.bytes - entry.size }

def insertNew (s : JsonEntries τ V) (key : Bytes) (value : CacheValue τ V) (size : Nat) : JsonEntries τ V :=
  { s with
    values := s.values ++ [(key, ⟨key, value, s.clock, size⟩)]
    recency := recencyInsert s.clock key s.recency
    bytes := s.bytes + size }

structure Written (τ V : Type) where
  entries : JsonEntries τ V
  result : V
  outcome : WriteOutcome
  pruned : List (JsonEntry τ V)

/-- What `write` does once the key holds nothing. -/
def store (s : JsonEntries τ V) (maxBytes : Nat) (key : Bytes) (value : CacheValue τ V) (size : Nat) : Written τ V :=
  if maxBytes / 4 < size then ⟨s, value.value, .tooLarge, []⟩
  else
    let s := s.insertNew key value size
    if maxBytes < s.bytes then
      let (values, recency, bytes, pruned) := prune (maxBytes / 4 * 3) s.values s.bytes s.recency
      ⟨{ s with values, recency, bytes }, value.value, .stored, pruned⟩
    else ⟨s, value.value, .stored, []⟩

def write (s : JsonEntries τ V) (maxBytes : Nat) (key : Bytes) (value : CacheValue τ V) (size : Nat) : Written τ V :=
  match s.find key with
  | none => { s with clock := s.clock + 1 }.store maxBytes key value size
  | some entry =>
    if entry.value.type = value.type then ⟨s.touch entry, entry.value.value, .held, []⟩
    else ({ s with clock := s.clock + 1 }.replace entry).store maxBytes key value size

end JsonEntries

/-! ## 2. The invariant -/

namespace JsonEntries

variable {τ V : Type} {s : JsonEntries τ V} {key : Bytes} {entry : JsonEntry τ V}

/-- Map and recency order are in bijection through `used`, the clock bounds every use, the sizes add up. -/
structure Inv (s : JsonEntries τ V) : Prop where
  keyed : ∀ p ∈ s.values, p.2.key = p.1
  distinct : (s.values.map (·.1)).Nodup
  recent : s.recency.Perm (s.values.map fun p => (p.2.used, p.1))
  sorted : s.recency.Pairwise fun a b => a.1 < b.1
  clock_le : ∀ p ∈ s.recency, p.1 ≤ s.clock
  bytes_eq : s.bytes = (s.values.map (·.2.size)).sum

theorem inv_empty : (empty : JsonEntries τ V).Inv :=
  ⟨by simp [empty], .nil, .nil, .nil, by simp [empty], rfl⟩

theorem mem_of_find (h : s.find key = some entry) : (key, entry) ∈ s.values := by
  obtain ⟨⟨k, e⟩, hfind, rfl⟩ := Option.map_eq_some_iff.mp h
  obtain ⟨hmem, rfl⟩ := mem_of_find?_key hfind
  exact hmem

theorem find_of_mem (h : s.Inv) (hm : (key, entry) ∈ s.values) : s.find key = some entry := by
  have hfind := find?_keyed h.distinct hm
  dsimp only at hfind
  rw [find, hfind]
  rfl

theorem find_eq_none : s.find key = none ↔ key ∉ s.values.map (·.1) := by
  rw [find, Option.map_eq_none_iff]
  exact find?_key_eq_none

/-- A use stands once in the order. -/
theorem Inv.used_nodup (h : s.Inv) : (s.recency.map (·.1)).Nodup :=
  List.pairwise_map.mpr (h.sorted.imp fun hlt => hlt.ne)

theorem Inv.mem_recency (h : s.Inv) (hm : (key, entry) ∈ s.values) : (entry.used, key) ∈ s.recency :=
  h.recent.mem_iff.mpr (List.mem_map.mpr ⟨_, hm, rfl⟩)

/-- Behind every use the clock's next tick is the newest. -/
theorem recencyInsert_newest {used : Nat} {recency : List (Nat × Bytes)} (h : ∀ p ∈ recency, p.1 < used) :
    recencyInsert used key recency = recency ++ [(used, key)] := by
  have hkeep : recency.filter (·.1 ≠ used) = recency :=
    List.filter_eq_self.mpr fun p hp => by simpa using (h p hp).ne
  rw [recencyInsert, hkeep, insertBefore_eq]
  have hall : ∀ p ∈ recency, (fun e : Nat × Bytes => !decide (used < e.1)) p = true := fun p hp => by
    simpa using (h p hp).le
  rw [List.takeWhile_eq_self_iff.mpr hall, List.dropWhile_eq_nil_iff.mpr hall]

/-- The order of the values in the map does not matter. -/
theorem Inv.perm (h : s.Inv) {values : List (Bytes × JsonEntry τ V)} (hp : values.Perm s.values) :
    ({ s with values } : JsonEntries τ V).Inv where
  keyed p hm := h.keyed p (hp.mem_iff.mp hm)
  distinct := (hp.map _).nodup_iff.mpr h.distinct
  recent := h.recent.trans (hp.map _).symm
  sorted := h.sorted
  clock_le := h.clock_le
  bytes_eq := h.bytes_eq.trans (hp.map _).sum_eq.symm

theorem Inv.tick (h : s.Inv) : ({ s with clock := s.clock + 1 } : JsonEntries τ V).Inv :=
  { h with clock_le := fun p hp => Nat.le_succ_of_le (h.clock_le p hp) }

/-- **An entry goes from all three.** -/
theorem Inv.erase (h : s.Inv) (hm : (key, entry) ∈ s.values) : ({ s with
    values := s.values.filter (·.1 ≠ key)
    recency := recencyRemove entry.used s.recency
    bytes := s.bytes - entry.size } : JsonEntries τ V).Inv := by
  have hvalues : ((key, entry) :: s.values.filter (·.1 ≠ key)).Perm s.values := perm_erase h.distinct hm
  have hrecency : ((entry.used, key) :: recencyRemove entry.used s.recency).Perm s.recency :=
    perm_erase h.used_nodup (h.mem_recency hm)
  refine ⟨fun p hp => h.keyed p (List.mem_filter.mp hp).1, h.distinct.sublist (List.filter_sublist.map _), ?_,
    h.sorted.sublist List.filter_sublist, fun p hp => h.clock_le p (List.mem_filter.mp hp).1, ?_⟩
  · exact ((hrecency.trans h.recent).trans (hvalues.map _).symm).cons_inv
  · have hsum := (hvalues.map (·.2.size)).sum_eq
    simp only [List.map_cons, List.sum_cons] at hsum
    simp only [h.bytes_eq]
    omega

/-- **A new entry comes into all three**, used at the clock's tick. -/
theorem Inv.add (h : s.Inv) (entry : JsonEntry τ V) (hfresh : key ∉ s.values.map (·.1))
    (hclock : ∀ p ∈ s.recency, p.1 < s.clock) (hkey : entry.key = key) (hused : entry.used = s.clock) : ({ s with
    values := s.values ++ [(key, entry)]
    recency := recencyInsert s.clock key s.recency
    bytes := s.bytes + entry.size } : JsonEntries τ V).Inv := by
  rw [recencyInsert_newest hclock]
  refine ⟨fun p hp => ?_, ?_, ?_, ?_, fun p hp => ?_, ?_⟩
  · obtain hp | hp := List.mem_append.mp hp
    · exact h.keyed p hp
    · obtain rfl := List.mem_singleton.mp hp
      exact hkey
  · rw [List.map_append]
    refine List.nodup_append.mpr ⟨h.distinct, List.nodup_singleton _, ?_⟩
    rintro k hk _ hk' rfl
    obtain rfl := List.mem_singleton.mp hk'
    exact hfresh hk
  · rw [List.map_append, List.map_singleton, hused]
    exact h.recent.append_right _
  · refine List.pairwise_append.mpr ⟨h.sorted, List.pairwise_singleton _ _, fun a ha b hb => ?_⟩
    obtain rfl := List.mem_singleton.mp hb
    exact hclock a ha
  · obtain hp | hp := List.mem_append.mp hp
    · exact h.clock_le p hp
    · obtain rfl := List.mem_singleton.mp hp
      exact le_rfl
  · simp only [h.bytes_eq, List.map_append, List.map_singleton, List.sum_append, List.sum_singleton]

/-! ## 3. The steps -/

/-- What a key holds. -/
def view (s : JsonEntries τ V) (key : Bytes) : Option (CacheValue τ V) := (s.find key).map (·.value)

theorem Inv.size_le (h : s.Inv) (hm : (key, entry) ∈ s.values) : entry.size ≤ s.bytes :=
  h.bytes_eq ▸ List.single_le_sum (fun _ _ => Nat.zero_le _) _ (List.mem_map.mpr ⟨_, hm, rfl⟩)

/-- **A use moves its entry to the newest.** -/
theorem Inv.touch (h : s.Inv) (hm : (entry.key, entry) ∈ s.values) : (s.touch entry).Inv := by
  have hvalues : ((entry.key, entry) :: s.values.filter (·.1 ≠ entry.key)).Perm s.values := perm_erase h.distinct hm
  have hfresh : entry.key ∉ (s.values.filter (·.1 ≠ entry.key)).map (·.1) := fun hmem => by
    obtain ⟨p, hp, hk⟩ := List.mem_map.mp hmem
    simpa [hk] using (List.mem_filter.mp hp).2
  have hadd := (h.erase hm).tick.add { entry with used := s.clock + 1 } hfresh
    (fun p hp => Nat.lt_succ_of_le (h.clock_le p (List.mem_filter.mp hp).1)) rfl rfl
  have hbytes : s.bytes - entry.size + entry.size = s.bytes := Nat.sub_add_cancel (h.size_le hm)
  simp only [hbytes] at hadd
  refine hadd.perm ?_
  have hrest : (s.values.filter (·.1 ≠ entry.key)).map
      (fun (k, e) => if k = entry.key then (k, { e with used := s.clock + 1 }) else (k, e)) =
      s.values.filter (·.1 ≠ entry.key) := by
    have hid : ∀ p ∈ s.values.filter (·.1 ≠ entry.key),
        (if p.1 = entry.key then (p.1, { p.2 with used := s.clock + 1 }) else (p.1, p.2)) = id p := fun p hp => by
      have hne : p.1 ≠ entry.key := by simpa using (List.mem_filter.mp hp).2
      rw [if_neg hne]
      rfl
    rw [List.map_congr_left hid, List.map_id]
  have htouched := (hvalues.map fun (k, e) =>
    if k = entry.key then (k, { e with used := s.clock + 1 }) else (k, e)).symm
  rw [List.map_cons, hrest] at htouched
  dsimp only at htouched
  rw [if_pos rfl] at htouched
  exact htouched.trans (List.perm_append_singleton _ _).symm

theorem view_touch (s : JsonEntries τ V) (entry : JsonEntry τ V) (k : Bytes) : (s.touch entry).view k = s.view k := by
  have hkey : ∀ p : Bytes × JsonEntry τ V,
      (if p.1 = entry.key then (p.1, { p.2 with used := s.clock + 1 }) else (p.1, p.2)).1 = p.1 := by
    intro p
    split <;> rfl
  simp only [view, find, touch]
  rw [find?_map_keyed hkey]
  cases s.values.find? (·.1 = k) with
  | none => rfl
  | some p =>
    simp only [Option.map_some]
    split <;> rfl

/-- **Reading** keeps the invariant and what is held, and answers with the key's value at its own type. -/
theorem Inv.read [DecidableEq τ] (h : s.Inv) (key : Bytes) (type : τ) :
    (s.read key type).2.Inv ∧ (∀ k, (s.read key type).2.view k = s.view k) ∧
      (s.read key type).2.bytes = s.bytes ∧
      (s.read key type).1 = (s.view key).bind fun value => if value.type = type then some value.value else none := by
  unfold JsonEntries.read view
  cases hfind : s.find key with
  | none => exact ⟨h, fun _ => rfl, rfl, rfl⟩
  | some entry =>
    have hm := mem_of_find hfind
    have hkey : entry.key = key := h.keyed _ hm
    dsimp only
    split
    · next htype => exact ⟨h.touch (hkey ▸ hm), view_touch s entry, rfl, by simp [htype]⟩
    · next htype => exact ⟨h, fun _ => rfl, rfl, by simp [htype]⟩

/-- **What pruning does**: the oldest go until the target is met, and all that stay were used later. -/
theorem Inv.prune {target : Nat} {values : List (Bytes × JsonEntry τ V)} {recency : List (Nat × Bytes)}
    {clock bytes : Nat} (h : (⟨values, recency, clock, bytes⟩ : JsonEntries τ V).Inv)
    {values' : List (Bytes × JsonEntry τ V)} {recency' : List (Nat × Bytes)} {bytes' : Nat}
    {pruned : List (JsonEntry τ V)}
    (hprune : JsonEntries.prune target values bytes recency = (values', recency', bytes', pruned)) :
    (⟨values', recency', clock, bytes'⟩ : JsonEntries τ V).Inv ∧ bytes' ≤ target ∧
      recency'.Sublist recency ∧ (∀ e ∈ pruned, ∀ p ∈ values', e.used < p.2.used) ∧
      ∀ k, (values'.find? (·.1 = k)) = if k ∈ pruned.map (·.key) then none else values.find? (·.1 = k) := by
  induction recency generalizing values bytes pruned with
  | nil =>
    simp only [JsonEntries.prune, Prod.mk.injEq] at hprune
    obtain ⟨rfl, rfl, rfl, rfl⟩ := hprune
    have hnil : values = [] := List.map_eq_nil_iff.mp h.recent.symm.eq_nil
    subst hnil
    have hbytes : bytes = 0 := h.bytes_eq
    exact ⟨h, by omega, .slnil, by simp, by simp⟩
  | cons oldest rest ih =>
    obtain ⟨used, key⟩ := oldest
    unfold JsonEntries.prune at hprune
    split at hprune
    · next hover =>
      have hmem : (used, key) ∈ values.map fun p => (p.2.used, p.1) := h.recent.mem_iff.mp List.mem_cons_self
      obtain ⟨⟨k, entry⟩, hm, heq⟩ := List.mem_map.mp hmem
      obtain ⟨rfl, rfl⟩ := Prod.mk.inj heq
      have hfind : (values.find? (·.1 = k)).map (·.2) = some entry := find_of_mem h hm
      have herase := h.erase hm
      have hrest : recencyRemove entry.used ((entry.used, k) :: rest) = rest := by
        rw [recencyRemove, List.filter_cons_of_neg (by simp)]
        refine List.filter_eq_self.mpr fun p hp => ?_
        simpa using ((List.pairwise_cons.mp h.sorted).1 p hp).ne'
      simp only [hrest] at herase
      rw [hfind] at hprune
      dsimp only at hprune
      rcases hinner : JsonEntries.prune target (values.filter (·.1 ≠ k)) (bytes - entry.size) rest with
        ⟨values₁, recency₁, bytes₁, pruned₁⟩
      rw [hinner] at hprune
      obtain ⟨rfl, rfl, rfl, rfl⟩ : values₁ = values' ∧ recency₁ = recency' ∧ bytes₁ = bytes' ∧
        entry :: pruned₁ = pruned := by simpa using hprune
      obtain ⟨hinv, hle, hsub, hlater, hfound⟩ := ih herase hinner
      refine ⟨hinv, hle, hsub.cons _, ?_, fun j => ?_⟩
      · intro e he p hp
        obtain rfl | he := List.mem_cons.mp he
        · have hp' : (p.2.used, p.1) ∈ rest := hsub.subset (hinv.mem_recency hp)
          exact (List.pairwise_cons.mp h.sorted).1 _ hp'
        · exact hlater e he p hp
      · have hkey : entry.key = k := h.keyed _ hm
        rw [hfound, find?_erase]
        by_cases hj : j = k <;> by_cases hjp : j ∈ pruned₁.map (·.key) <;> simp [hj, hjp, hkey]
    · next hfits =>
      simp only [Prod.mk.injEq] at hprune
      obtain ⟨rfl, rfl, rfl, rfl⟩ := hprune
      exact ⟨h, by omega, .refl _, by simp, by simp⟩

/-- What a write with no value to find does. -/
structure Put (s : JsonEntries τ V) (maxBytes : Nat) (key : Bytes) (value : CacheValue τ V) (size : Nat)
    (w : Written τ V) : Prop where
  result : w.result = value.value
  view : w.outcome = .tooLarge ∧ maxBytes / 4 < size ∧ w.pruned = [] ∧
      (∀ k, w.entries.view k = if k = key then none else s.view k) ∨
    w.outcome = .stored ∧
      ∀ k, w.entries.view k =
        if k ∈ w.pruned.map (·.key) then none else if k = key then some value else s.view k

/-- What every locked write keeps. -/
structure Keeps (maxBytes : Nat) (w : Written τ V) : Prop where
  inv : w.entries.Inv
  within : w.entries.bytes ≤ maxBytes
  /-- **What goes was used before what stays.** -/
  older : ∀ e ∈ w.pruned, ∀ p ∈ w.entries.values, e.used < p.2.used

theorem Inv.store {maxBytes : Nat} (h : s.Inv) (value : CacheValue τ V) (size : Nat) (hwithin : s.bytes ≤ maxBytes)
    (hfresh : key ∉ s.values.map (·.1)) (hclock : ∀ p ∈ s.recency, p.1 < s.clock) :
    Keeps maxBytes (s.store maxBytes key value size) ∧
      Put s maxBytes key value size (s.store maxBytes key value size) := by
  have hnone : s.view key = none := by rw [view, find_eq_none.mpr hfresh]; rfl
  have hview : ∀ k, (s.insertNew key value size).view k = if k = key then some value else s.view k := by
    intro k
    simp only [view, find, insertNew, List.find?_append]
    by_cases hk : k = key
    · have hfind : s.values.find? (·.1 = key) = none := find?_key_eq_none.mpr hfresh
      simp [hk, hfind]
    · cases s.values.find? (·.1 = k) <;> simp [hk, Ne.symm hk]
  have hadd : (s.insertNew key value size).Inv := h.add ⟨key, value, s.clock, size⟩ hfresh hclock rfl rfl
  unfold JsonEntries.store
  split
  · next hlarge =>
    refine ⟨⟨h, hwithin, by simp⟩, ⟨rfl, .inl ⟨rfl, hlarge, rfl, fun k => ?_⟩⟩⟩
    by_cases hk : k = key
    · rw [if_pos hk, hk, hnone]
    · rw [if_neg hk]
  · next hsmall =>
    dsimp only
    split
    · next hover =>
      rcases hp : JsonEntries.prune (maxBytes / 4 * 3) (s.insertNew key value size).values
        (s.insertNew key value size).bytes (s.insertNew key value size).recency with ⟨values, recency, bytes, pruned⟩
      obtain ⟨hinv, hle, -, holder, hfound⟩ := Inv.prune hadd hp
      refine ⟨⟨hinv, ?_, holder⟩, ⟨rfl, .inr ⟨rfl, fun k => ?_⟩⟩⟩
      · dsimp only
        omega
      · rw [← hview]
        simp only [view, find, hfound]
        split <;> rfl
    · next hfits =>
      refine ⟨⟨hadd, by dsimp only; omega, by simp⟩, ⟨rfl, .inr ⟨rfl, fun k => ?_⟩⟩⟩
      simp [hview]

/-- **A write at the held value's type** answers with that value, and changes no key's. -/
theorem write_held [DecidableEq τ] (maxBytes size : Nat) {value held : CacheValue τ V} (hview : s.view key = some held)
    (htype : held.type = value.type) :
    (s.write maxBytes key value size).result = held.value ∧ (s.write maxBytes key value size).outcome = .held ∧
      (s.write maxBytes key value size).pruned = [] ∧
      ∀ k, (s.write maxBytes key value size).entries.view k = s.view k := by
  obtain ⟨entry, hfind, rfl⟩ := Option.map_eq_some_iff.mp hview
  simp only [JsonEntries.write, hfind, htype, if_true]
  exact ⟨trivial, trivial, trivial, view_touch s entry⟩

/-- A write at a key that holds nothing of its type puts its own. -/
theorem Inv.write_other [DecidableEq τ] {maxBytes : Nat} (h : s.Inv) (hwithin : s.bytes ≤ maxBytes) (key : Bytes)
    (value : CacheValue τ V) (size : Nat) (hother : ∀ held, s.view key = some held → held.type ≠ value.type) :
    Keeps maxBytes (s.write maxBytes key value size) ∧
      Put s maxBytes key value size (s.write maxBytes key value size) := by
  have hticked : ∀ p ∈ s.recency, p.1 < s.clock + 1 := fun p hp => Nat.lt_succ_of_le (h.clock_le p hp)
  unfold JsonEntries.write
  cases hfind : s.find key with
  | none =>
    obtain ⟨hkeeps, hput⟩ := h.tick.store value size hwithin (find_eq_none.mp hfind) hticked
    exact ⟨hkeeps, hput.result, hput.view⟩
  | some entry =>
    have hm := mem_of_find hfind
    obtain rfl : entry.key = key := h.keyed _ hm
    have hview : s.view entry.key = some entry.value := by rw [view, hfind]; rfl
    dsimp only
    rw [if_neg (hother _ hview)]
    have hfresh : entry.key ∉ (s.values.filter (·.1 ≠ entry.key)).map (·.1) := fun hmem => by
      obtain ⟨p, hp, hk⟩ := List.mem_map.mp hmem
      simpa [hk] using (List.mem_filter.mp hp).2
    obtain ⟨hkeeps, hput⟩ := (h.erase hm).tick.store value size (Nat.le_trans (Nat.sub_le _ _) hwithin) hfresh
      (fun p hp => hticked p (List.mem_filter.mp hp).1)
    have herased : ∀ k, ({ s with
        values := s.values.filter (·.1 ≠ entry.key)
        recency := recencyRemove entry.used s.recency
        clock := s.clock + 1
        bytes := s.bytes - entry.size } : JsonEntries τ V).view k = if k = entry.key then none else s.view k := by
      intro k
      simp only [view, find, find?_erase]
      split <;> rfl
    refine ⟨hkeeps, hput.result, ?_⟩
    obtain ⟨h₁, h₂, h₃, h₄⟩ | ⟨h₁, h₂⟩ := hput.view
    · refine .inl ⟨h₁, h₂, h₃, fun k => (h₄ k).trans ?_⟩
      rw [herased]
      by_cases hk : k = entry.key <;> simp only [hk, if_true, if_false]
    · refine .inr ⟨h₁, fun k => (h₂ k).trans ?_⟩
      rw [herased]
      by_cases hk : k = entry.key <;> simp only [hk, if_true, if_false] <;> rfl

/-- What every write keeps. -/
theorem Inv.write [DecidableEq τ] {maxBytes : Nat} (h : s.Inv) (hwithin : s.bytes ≤ maxBytes) (key : Bytes)
    (value : CacheValue τ V) (size : Nat) : Keeps maxBytes (s.write maxBytes key value size) := by
  by_cases hheld : ∃ held, s.view key = some held ∧ held.type = value.type
  · obtain ⟨held, hview, htype⟩ := hheld
    obtain ⟨entry, hfind, rfl⟩ := Option.map_eq_some_iff.mp hview
    have hm := mem_of_find hfind
    have hkey : entry.key = key := h.keyed _ hm
    have hwrite : s.write maxBytes key value size = ⟨s.touch entry, entry.value.value, .held, []⟩ := by
      simp only [JsonEntries.write, hfind, htype, if_true]
    rw [hwrite]
    exact ⟨h.touch (hkey ▸ hm), hwithin, by simp⟩
  · exact (h.write_other hwithin key value size fun held hview htype => hheld ⟨held, hview, htype⟩).1

end JsonEntries

end Smartfire
