/-
  File:      Smartfire/Front/Eviction.lean
  Subject:   The cache's map and its list of keys (crates/kit/src/front/cache.rs `Inner`).

  The bounded map once more as the source has it: each key an allocated string that map and list share, each
  index and each `expect` a possible panic, the loop in `set` without a bound of its own. What is drawn in
  each of a round's five samples is left open.

  * `SharedStr`, `Inner`, `evictOldestItem`, `makeRoom`, `set` -- the source's steps; `none` is a panic, or a
    loop that goes on;
  * `InStep` -- map and list agree, and the sizes add up;
  * `forget_set` -- the strings forgotten, `set` is that of the map of texts;
  * **`cacheLawful_of_reach`** -- every run of calls keeps it, and a get answers with the last set.
-/
import Mathlib.Algebra.Order.BigOperators.Group.List
import Mathlib.Algebra.Order.Ring.Int
import Smartfire.Front.Handler
import Smartfire.Lib.Keyed

namespace Smartfire

open Lib

/-! ## 1. Lists whose last element fills a gap -/

section SwapRemove

variable {β : Type}

/-- `Vec::swap_remove` -/
def swapRemove (l : List β) (i : Nat) : List β :=
  match l.getLast? with
  | none => []
  | some last => (l.set i last).dropLast

theorem swapRemove_concat (init : List β) (last : β) (i : Nat) :
    swapRemove (init ++ [last]) i = if i < init.length then init.set i last else init := by
  simp only [swapRemove, List.getLast?_concat]
  split
  · next h => rw [List.set_append_left _ _ h, List.dropLast_concat]
  · next h =>
    rw [List.set_append_right _ _ (Nat.le_of_not_lt h)]
    cases i - init.length <;> simp

/-- **What is left is what was not at the index, in some order.** -/
theorem swapRemove_perm {l : List β} {i : Nat} (h : i < l.length) : (l[i] :: swapRemove l i).Perm l := by
  rcases List.eq_nil_or_concat l with rfl | ⟨init, last, rfl⟩
  · simp at h
  · rw [List.concat_eq_append] at h
    simp only [List.concat_eq_append]
    rw [swapRemove_concat]
    by_cases hi : i < init.length
    · rw [if_pos hi, List.getElem_append_left hi]
      have hset := List.set_eq_take_append_cons_drop (l := init) (i := i) (a := last)
      rw [if_pos hi] at hset
      have hsplit : init = init.take i ++ init[i] :: init.drop (i + 1) := by
        rw [← List.drop_eq_getElem_cons hi, List.take_append_drop]
      rw [hset]
      conv_rhs => rw [hsplit]
      generalize init[i] = x
      generalize init.take i = front
      generalize init.drop (i + 1) = back
      have hback : (last :: back).Perm (back ++ [last]) := (List.perm_append_singleton last back).symm
      rw [List.append_assoc, List.cons_append]
      exact List.perm_middle.symm.trans ((hback.cons x).append_left front)
    · have hlast : i = init.length := by simp at h; omega
      subst hlast
      rw [if_neg hi, List.getElem_concat_length rfl]
      exact (List.perm_append_singleton last init).symm

end SwapRemove

/-! ## 2. The cache with its strings -/

/-- An `Arc<str>`: the allocation and its text. -/
structure SharedStr where
  alloc : Nat
  str : Bytes
deriving DecidableEq

/-- The entries of the hash map, each under a key's text once. -/
abbrev CacheItems := List (SharedStr × CacheEntry CachedResponse)

namespace CacheItems

def get (items : CacheItems) (key : Bytes) : Option (CacheEntry CachedResponse) :=
  (items.find? (·.1.str = key)).map (·.2)

/-- `HashMap::insert`: a key that is there keeps its string. -/
def insert (key : SharedStr) (entry : CacheEntry CachedResponse) : CacheItems → CacheItems
  | [] => [(key, entry)]
  | (k, e) :: rest => if k.str = key.str then (k, entry) :: rest else (k, e) :: insert key entry rest

def remove (items : CacheItems) (key : Bytes) : CacheItems := items.filter (·.1.str ≠ key)

def sizes (items : CacheItems) : Int := (items.map (·.2.size)).sum

end CacheItems

structure Inner where
  capacity : Int
  maxItemSize : Int
  size : Int
  keys : List SharedStr
  items : CacheItems
  /-- How many strings were allocated. -/
  allocated : Nat

namespace Inner

def new (capacity maxItemSize : Int) : Inner := ⟨capacity, maxItemSize, 0, [], [], 0⟩

def get (inner : Inner) (key : Bytes) (now : Nat) : Option CachedResponse × Inner :=
  match inner.items.get key with
  | none => (none, inner)
  | some item =>
    if item.expiresAt < now then (none, inner)
    else
      let touched : CacheItems := inner.items.map fun (k, e) =>
        if k.str = key then (k, { e with lastAccessedAt := now }) else (k, e)
      (some item.value, { inner with items := touched })

/-- The samples of one eviction; the outer `none` is an empty range or a key the map lacks. -/
def sample (inner : Inner) (now : Nat) : List Nat → Option (Nat × Nat) → Option (Option (Nat × Nat))
  | [], oldest => some oldest
  | draw :: draws, oldest =>
    if inner.keys.isEmpty then none
    else
      let index := draw % inner.keys.length
      match inner.keys[index]?.bind fun key => inner.items.get key.str with
      | none => none
      | some item =>
        if item.expiresAt < now then some (some (index, item.lastAccessedAt))
        else if oldest.all fun (_, last) => item.lastAccessedAt < last then
          sample inner now draws (some (index, item.lastAccessedAt))
        else sample inner now draws oldest

/-- With the key it evicts. -/
def evictOldestItem (inner : Inner) (now : Nat) (draws : Fin 5 → Nat) : Option (Inner × Bytes) := do
  let oldest ← inner.sample now (List.ofFn draws) none
  -- `expect("sampled at least one key")`
  let (index, _) ← oldest
  let key ← inner.keys[index]?
  let removed := (inner.items.get key.str).map (·.size)
  return ({ inner with
    keys := swapRemove inner.keys index
    items := inner.items.remove key.str
    size := inner.size - removed.getD 0 }, key.str)

/-- The loop of `set`, with the keys it evicts; `none` also where it goes on after so many rounds. -/
def makeRoom (limit : Int) (now : Nat) (draws : Nat → Fin 5 → Nat) : Nat → Inner → Option (Inner × List Bytes)
  | rounds, inner =>
    if inner.size > limit && !inner.keys.isEmpty then
      match rounds with
      | 0 => none
      | rounds + 1 => do
        let (inner, key) ← inner.evictOldestItem now (draws rounds)
        let (inner, evicted) ← makeRoom limit now draws rounds inner
        return (inner, key :: evicted)
    else some (inner, [])

def tooLarge (inner : Inner) (itemSize : Int) : Bool := itemSize > inner.maxItemSize || itemSize > inner.capacity

/-- `MemoryCache::set`, with the keys it evicts; every round takes a key away, so there is one for each. -/
def set (inner : Inner) (key : Bytes) (value : CachedResponse) (expiresAt now : Nat) (draws : Nat → Fin 5 → Nat) :
    Option (Inner × List Bytes) :=
  let itemSize : Int := value.size key
  if inner.tooLarge itemSize then some (inner, [])
  else do
    let (inner, evicted) ← makeRoom (inner.capacity - itemSize) now draws inner.keys.length inner
    let shared : SharedStr := ⟨inner.allocated, key⟩
    let entry : CacheEntry CachedResponse := ⟨now, expiresAt, value, itemSize⟩
    let (size, keys) := match inner.items.get key with
      | some existing => (inner.size - existing.size, inner.keys)
      | none => (inner.size, inner.keys ++ [shared])
    return ({ inner with
      keys
      items := inner.items.insert shared entry
      size := size + itemSize
      allocated := inner.allocated + 1 }, evicted)

end Inner

/-! ## 3. The map -/

namespace CacheItems

variable {items : CacheItems} {key : SharedStr} {k : Bytes} {entry : CacheEntry CachedResponse}

/-- Each text is a key once. -/
def Distinct (items : CacheItems) : Prop := (items.map (·.1.str)).Nodup

theorem mem_of_get (h : items.get k = some entry) : ∃ key, (key, entry) ∈ items ∧ key.str = k := by
  obtain ⟨⟨key, e⟩, hfind, rfl⟩ := Option.map_eq_some_iff.mp h
  obtain ⟨hmem, hkey⟩ := mem_of_find?_key hfind
  exact ⟨key, hmem, hkey⟩

theorem get_eq_none_iff : items.get k = none ↔ k ∉ items.map (·.1.str) := by
  rw [get, Option.map_eq_none_iff]
  exact find?_key_eq_none

theorem get_of_mem (hd : items.Distinct) (h : (key, entry) ∈ items) : items.get key.str = some entry := by
  have hfind := find?_keyed hd h
  dsimp only at hfind
  rw [get, hfind]
  rfl

theorem get_remove (items : CacheItems) (k k' : Bytes) :
    (items.remove k).get k' = if k' = k then none else items.get k' := by
  rw [get, remove, find?_erase]
  split <;> rfl

/-- What a key's removal leaves, and the key's entry, are all entries. -/
theorem remove_perm (hd : items.Distinct) (h : (key, entry) ∈ items) :
    ((key, entry) :: items.remove key.str).Perm items := perm_erase hd h

theorem insert_eq_of_none (h : items.get key.str = none) : items.insert key entry = items ++ [(key, entry)] := by
  induction items with
  | nil => rfl
  | cons e rest ih =>
    have hmem := get_eq_none_iff.mp h
    have hne : e.1.str ≠ key.str := fun hstr => hmem (hstr ▸ List.mem_cons_self)
    have hrest : get rest key.str = none := get_eq_none_iff.mpr fun hm => hmem (List.mem_cons_of_mem _ hm)
    simp only [insert, hne, if_false, ih hrest, List.cons_append]

theorem get_insert (items : CacheItems) (key : SharedStr) (entry : CacheEntry CachedResponse) (k : Bytes) :
    (items.insert key entry).get k = if k = key.str then some entry else items.get k := by
  induction items with
  | nil =>
    by_cases hk : key.str = k
    · simp [insert, get, hk]
    · simp [insert, get, hk, Ne.symm hk]
  | cons e rest ih =>
    by_cases hkey : e.1.str = key.str
    · simp only [insert, hkey, if_true, get, List.find?_cons]
      by_cases hk : k = key.str
      · simp [hk]
      · simp [hk, Ne.symm hk]
    · simp only [insert, hkey, if_false]
      simp only [get, List.find?_cons] at ih ⊢
      by_cases hk : e.1.str = k
      · have hne : k ≠ key.str := hk ▸ hkey
        simp [hk, hne]
      · simpa [hk] using ih

/-- An entry put over another keeps the key's string. -/
theorem insert_over {existing : CacheEntry CachedResponse} (h : items.get key.str = some existing) :
    (items.insert key entry).map (·.1) = items.map (·.1) ∧
      (items.insert key entry).sizes = items.sizes - existing.size + entry.size := by
  induction items with
  | nil => cases h
  | cons e rest ih =>
    by_cases hkey : e.1.str = key.str
    · have he : e.2 = existing := by simpa [get, hkey] using h
      simp only [insert, hkey, if_true, List.map_cons, sizes, List.sum_cons, he]
      exact ⟨trivial, by omega⟩
    · have hrest : get rest key.str = some existing := by simpa [get, hkey] using h
      obtain ⟨hkeys, hsizes⟩ := ih hrest
      simp only [insert, hkey, if_false, List.map_cons, hkeys]
      simp only [sizes, List.map_cons, List.sum_cons] at hsizes ⊢
      exact ⟨trivial, by omega⟩

theorem mem_insert {e : SharedStr × CacheEntry CachedResponse} (h : e ∈ items.insert key entry) :
    e.2 = entry ∨ e ∈ items := by
  induction items with
  | nil => exact .inl (congrArg Prod.snd (List.mem_singleton.mp h))
  | cons first rest ih =>
    unfold insert at h
    split at h
    · obtain rfl | h := List.mem_cons.mp h
      · exact .inl rfl
      · exact .inr (List.mem_cons_of_mem _ h)
    · obtain rfl | h := List.mem_cons.mp h
      · exact .inr List.mem_cons_self
      · exact (ih h).imp id (List.mem_cons_of_mem _)

theorem sizes_nonneg (h : ∀ e ∈ items, 0 ≤ e.2.size) : 0 ≤ items.sizes := by
  refine List.sum_nonneg fun n hn => ?_
  obtain ⟨e, he, rfl⟩ := List.mem_map.mp hn
  exact h e he

end CacheItems

/-! ## 4. Map and list in step -/

namespace Inner

variable {inner : Inner}

structure InStep (inner : Inner) : Prop where
  /-- The list has each key of the map once, by the same string. -/
  shared : inner.keys.Perm (inner.items.map (·.1))
  distinct : inner.items.Distinct
  size_eq : inner.size = inner.items.sizes
  nonneg : ∀ e ∈ inner.items, 0 ≤ e.2.size
  within : inner.size ≤ max inner.capacity 0

theorem InStep.size_nonneg (h : inner.InStep) : 0 ≤ inner.size := h.size_eq ▸ CacheItems.sizes_nonneg h.nonneg

/-- An index of the list is one of the map. -/
theorem InStep.item_at (h : inner.InStep) {i : Nat} (hi : i < inner.keys.length) :
    ∃ item, (inner.keys[i], item) ∈ inner.items ∧ inner.items.get inner.keys[i].str = some item := by
  have hmem : inner.keys[i] ∈ inner.items.map (·.1) := h.shared.mem_iff.mp (List.getElem_mem hi)
  obtain ⟨⟨key, item⟩, hitem, hkey⟩ := List.mem_map.mp hmem
  obtain rfl : key = inner.keys[i] := hkey
  exact ⟨item, hitem, CacheItems.get_of_mem h.distinct hitem⟩

/-- **Sampling never indexes a key the map lacks**, and finds one unless it has nothing to sample. -/
theorem InStep.sample_some (h : inner.InStep) (hne : inner.keys ≠ []) (now : Nat) (draws : List Nat)
    (oldest : Option (Nat × Nat)) (hold : ∀ p ∈ oldest, p.1 < inner.keys.length) :
    ∃ found, inner.sample now draws oldest = some found ∧ (∀ p ∈ found, p.1 < inner.keys.length) ∧
      (found = none → draws = [] ∧ oldest = none) := by
  induction draws generalizing oldest with
  | nil => exact ⟨oldest, rfl, hold, fun h => ⟨rfl, h⟩⟩
  | cons draw draws ih =>
    have hpos : 0 < inner.keys.length := List.length_pos_iff.mpr hne
    have hindex : draw % inner.keys.length < inner.keys.length := Nat.mod_lt _ hpos
    obtain ⟨item, -, hitem⟩ := h.item_at hindex
    have hempty : inner.keys.isEmpty = false := by simpa using hne
    simp only [sample, hempty, Bool.false_eq_true, if_false, List.getElem?_eq_getElem hindex, Option.bind_some, hitem]
    split
    · exact ⟨_, rfl, by simpa using hindex, fun h => by cases h⟩
    · split
      · obtain ⟨found, hsample, hfound, hnone⟩ :=
          ih (some (draw % inner.keys.length, item.lastAccessedAt)) (by simpa using hindex)
        exact ⟨found, hsample, hfound, fun h => by cases (hnone h).2⟩
      · next hall =>
        obtain ⟨found, hsample, hfound, hnone⟩ := ih oldest hold
        refine ⟨found, hsample, hfound, fun h => ?_⟩
        rw [(hnone h).2] at hall
        exact absurd rfl hall

/-- **What an eviction does**: one key goes, from both, with its size. -/
theorem InStep.evict (h : inner.InStep) (hne : inner.keys ≠ []) (now : Nat) (draws : Fin 5 → Nat) :
    ∃ inner' key, inner.evictOldestItem now draws = some (inner', key) ∧ inner'.InStep ∧
      inner'.keys.length + 1 = inner.keys.length ∧ inner'.items = inner.items.remove key ∧
      inner'.capacity = inner.capacity ∧ inner'.maxItemSize = inner.maxItemSize := by
  obtain ⟨found, hsample, hfound, hnone⟩ := h.sample_some hne now (List.ofFn draws) none (by simp)
  obtain _ | ⟨index, last⟩ := found
  · exact absurd (hnone rfl).1 (by simp)
  · have hindex : index < inner.keys.length := hfound _ rfl
    obtain ⟨item, hmem, hitem⟩ := h.item_at hindex
    have hkeys := swapRemove_perm hindex
    have hitems := CacheItems.remove_perm h.distinct hmem
    have hsizes : item.size + (inner.items.remove inner.keys[index].str).sizes = inner.items.sizes := by
      simpa [CacheItems.sizes] using (hitems.map (·.2.size)).sum_eq
    have hsub : ∀ e ∈ inner.items.remove inner.keys[index].str, e ∈ inner.items := fun e he =>
      (List.mem_filter.mp he).1
    have hevict : inner.evictOldestItem now draws = some ({ inner with
        keys := swapRemove inner.keys index
        items := inner.items.remove inner.keys[index].str
        size := inner.size - item.size }, inner.keys[index].str) := by
      rw [evictOldestItem, hsample]
      simp [List.getElem?_eq_getElem hindex, hitem]
    refine ⟨_, _, hevict, ⟨?_, ?_, ?_, ?_, ?_⟩, ?_, rfl, rfl, rfl⟩
    · have hcons := (hkeys.trans h.shared).trans (hitems.map (·.1)).symm
      exact hcons.cons_inv
    · exact h.distinct.sublist ((List.filter_sublist (p := _) (l := inner.items)).map _)
    · simp only [h.size_eq]
      omega
    · exact fun e he => h.nonneg e (hsub e he)
    · have hitemsize := h.nonneg _ hmem
      have hwithin := h.within
      simp only at hitemsize ⊢
      omega
    · simpa using hkeys.length_eq

/-- **The loop ends**, with room made or nothing left. -/
theorem InStep.makeRoom (h : inner.InStep) (limit : Int) (now : Nat) (draws : Nat → Fin 5 → Nat) {rounds : Nat}
    (hrounds : inner.keys.length ≤ rounds) :
    ∃ inner' evicted, Inner.makeRoom limit now draws rounds inner = some (inner', evicted) ∧ inner'.InStep ∧
      (inner'.size ≤ limit ∨ inner'.keys = []) ∧
      (∀ k, inner'.items.get k = if k ∈ evicted then none else inner.items.get k) ∧
      inner'.capacity = inner.capacity ∧ inner'.maxItemSize = inner.maxItemSize := by
  induction rounds generalizing inner with
  | zero =>
    have hnil : inner.keys = [] := List.eq_nil_of_length_eq_zero (Nat.le_zero.mp hrounds)
    exact ⟨inner, [], by simp [Inner.makeRoom, hnil], h, .inr hnil, by simp, rfl, rfl⟩
  | succ rounds ih =>
    by_cases hgo : inner.size > limit ∧ inner.keys ≠ []
    · obtain ⟨inner₁, key, hevict, h₁, hlen, hitems, hcap, hmax⟩ := h.evict hgo.2 now (draws rounds)
      obtain ⟨inner₂, evicted, hroom, h₂, hdone, hget, hcap₂, hmax₂⟩ := ih h₁ (by omega)
      refine ⟨inner₂, key :: evicted, ?_, h₂, hdone, fun k => ?_, hcap₂.trans hcap, hmax₂.trans hmax⟩
      · have hguard : (decide (inner.size > limit) && !inner.keys.isEmpty) = true := by simpa using hgo
        rw [Inner.makeRoom, if_pos hguard]
        simp [hevict, hroom]
      · rw [hget, hitems, CacheItems.get_remove]
        by_cases hk : k = key <;> by_cases hm : k ∈ evicted <;> simp [hk, hm]
    · have hguard : ¬ (decide (inner.size > limit) && !inner.keys.isEmpty) = true := by simpa using hgo
      refine ⟨inner, [], by rw [Inner.makeRoom, if_neg hguard], h, ?_, by simp, rfl, rfl⟩
      by_cases hnil : inner.keys = []
      · exact .inr hnil
      · exact .inl (Int.not_lt.mp fun hlt => hgo ⟨hlt, hnil⟩)

/-- What a key holds, and until when. -/
def view (inner : Inner) (k : Bytes) : Option (CachedResponse × Nat) :=
  (inner.items.get k).map fun item => (item.value, item.expiresAt)

theorem new_inStep (capacity maxItemSize : Int) : (new capacity maxItemSize).InStep :=
  ⟨.nil, .nil, rfl, by simp [new], Int.le_max_right _ _⟩

/-- A get notes the access and changes nothing else. -/
theorem InStep.get (h : inner.InStep) (key : Bytes) (now : Nat) :
    (inner.get key now).2.InStep ∧ (∀ k, (inner.get key now).2.view k = inner.view k) ∧
      (inner.get key now).2.capacity = inner.capacity ∧ (inner.get key now).2.maxItemSize = inner.maxItemSize := by
  unfold Inner.get
  split
  · exact ⟨h, fun _ => rfl, rfl, rfl⟩
  · split
    · exact ⟨h, fun _ => rfl, rfl, rfl⟩
    · have hkey : ∀ e : SharedStr × CacheEntry CachedResponse,
          (if e.1.str = key then (e.1, { e.2 with lastAccessedAt := now }) else (e.1, e.2)).1 = e.1 := by
        intro e
        split <;> rfl
      have hsize : ∀ e : SharedStr × CacheEntry CachedResponse,
          (if e.1.str = key then (e.1, { e.2 with lastAccessedAt := now }) else (e.1, e.2)).2.size = e.2.size := by
        intro e
        split <;> rfl
      refine ⟨⟨?_, ?_, ?_, ?_, h.within⟩, fun k => ?_, rfl, rfl⟩
      · simpa [List.map_map, Function.comp_def, hkey] using h.shared
      · simpa [CacheItems.Distinct, List.map_map, Function.comp_def, hkey] using h.distinct
      · simpa [CacheItems.sizes, List.map_map, Function.comp_def, hsize] using h.size_eq
      · intro e he
        obtain ⟨e₀, he₀, rfl⟩ := List.mem_map.mp he
        simpa [hsize] using h.nonneg e₀ he₀
      · simp only [view, CacheItems.get, List.find?_map, Function.comp_def, hkey, Option.map_map]
        congr 1
        funext e
        split <;> rfl

/-- **What a set does.** -/
theorem InStep.set (h : inner.InStep) (key : Bytes) (value : CachedResponse) (expiresAt now : Nat)
    (draws : Nat → Fin 5 → Nat) :
    ∃ inner' evicted, inner.set key value expiresAt now draws = some (inner', evicted) ∧ inner'.InStep ∧
      inner'.capacity = inner.capacity ∧ inner'.maxItemSize = inner.maxItemSize ∧
      if inner.tooLarge (value.size key) then inner' = inner ∧ evicted = []
      else ∀ k, inner'.view k =
        if k = key then some (value, expiresAt) else if k ∈ evicted then none else inner.view k := by
  by_cases hlarge : inner.tooLarge (value.size key) = true
  · exact ⟨inner, [], by rw [Inner.set, if_pos hlarge], h, rfl, rfl, by rw [if_pos hlarge]; exact ⟨rfl, rfl⟩⟩
  · simp only [tooLarge, gt_iff_lt, Bool.or_eq_true, decide_eq_true_eq, not_or, Int.not_lt] at hlarge
    obtain ⟨inner₁, evicted, hroom, h₁, hdone, hget, hcap, hmax⟩ :=
      h.makeRoom (inner.capacity - (value.size key : Nat)) now draws le_rfl
    have hfits : inner₁.size ≤ inner.capacity - (value.size key : Nat) := by
      obtain hle | hnil := hdone
      · exact hle
      · have hitems : inner₁.items = [] := by
          have hlen := h₁.shared.length_eq
          rw [hnil] at hlen
          exact List.eq_nil_of_length_eq_zero (by simpa using hlen.symm)
        rw [h₁.size_eq, hitems]
        simp only [CacheItems.sizes, List.map_nil, List.sum_nil]
        omega
    have hview : ∀ items : CacheItems, ∀ entry : CacheEntry CachedResponse,
        items = inner₁.items.insert ⟨inner₁.allocated, key⟩ entry → ∀ k,
        (items.get k).map (fun item => (item.value, item.expiresAt)) =
          if k = key then some (entry.value, entry.expiresAt)
          else if k ∈ evicted then none else inner.view k := by
      rintro items entry rfl k
      rw [CacheItems.get_insert, hget]
      by_cases hk : k = key <;> by_cases hm : k ∈ evicted <;> simp [hk, hm, view]
    have hguard : ¬ inner.tooLarge (value.size key) = true := by simp [tooLarge, hlarge]
    have hentry : ∀ entry : CacheEntry CachedResponse, 0 ≤ entry.size →
        ∀ e ∈ inner₁.items.insert ⟨inner₁.allocated, key⟩ entry, 0 ≤ e.2.size := by
      intro entry hentry e he
      obtain heq | he := CacheItems.mem_insert he
      · exact heq ▸ hentry
      · exact h₁.nonneg e he
    rw [Inner.set, if_neg hguard, hroom]
    cases hexisting : inner₁.items.get key with
    | none =>
      have hinsert : inner₁.items.insert ⟨inner₁.allocated, key⟩ ⟨now, expiresAt, value, (value.size key : Nat)⟩ =
          inner₁.items ++ [(⟨inner₁.allocated, key⟩, ⟨now, expiresAt, value, (value.size key : Nat)⟩)] :=
        CacheItems.insert_eq_of_none hexisting
      simp only [Option.bind_eq_bind, Option.bind_some, hexisting]
      refine ⟨_, evicted, rfl, ⟨?_, ?_, ?_, hentry _ (Int.natCast_nonneg _), ?_⟩, hcap, hmax, ?_⟩
      · rw [hinsert, List.map_append]
        exact h₁.shared.append_right _
      · rw [hinsert, CacheItems.Distinct, List.map_append]
        refine List.nodup_append.mpr ⟨h₁.distinct, List.nodup_singleton _, ?_⟩
        rintro k hk _ hk' rfl
        obtain rfl := List.mem_singleton.mp hk'
        exact CacheItems.get_eq_none_iff.mp hexisting hk
      · rw [hinsert, h₁.size_eq]
        simp [CacheItems.sizes]
      · simp only [hcap]
        omega
      · rw [if_neg hguard]
        exact hview _ _ rfl
    | some existing =>
      obtain ⟨hkeys, hsizes⟩ : (inner₁.items.insert ⟨inner₁.allocated, key⟩
          ⟨now, expiresAt, value, (value.size key : Nat)⟩).map (·.1) = inner₁.items.map (·.1) ∧ _ :=
        CacheItems.insert_over hexisting
      have hstrs := congrArg (List.map SharedStr.str) hkeys
      rw [List.map_map, List.map_map] at hstrs
      obtain ⟨old, hmem, -⟩ := CacheItems.mem_of_get hexisting
      have hold := h₁.nonneg _ hmem
      simp only [Option.bind_eq_bind, Option.bind_some, hexisting]
      refine ⟨_, evicted, rfl, ⟨?_, ?_, ?_, hentry _ (Int.natCast_nonneg _), ?_⟩, hcap, hmax, ?_⟩
      · rw [hkeys]
        exact h₁.shared
      · have hdistinct : (List.map (SharedStr.str ∘ fun x => x.1) inner₁.items).Nodup := h₁.distinct
        rw [← hstrs] at hdistinct
        exact hdistinct
      · rw [hsizes, ← h₁.size_eq]
      · simp only [hcap] at hold ⊢
        omega
      · rw [if_neg hguard]
        exact hview _ _ rfl

end Inner

/-! ## 5. Without the strings -/

namespace Inner

variable {inner : Inner}

/-- The cache as a map of texts. -/
def forget (inner : Inner) : MemoryCache CachedResponse where
  capacity := inner.capacity
  maxItemSize := inner.maxItemSize
  size := inner.size
  keys := inner.keys.map (·.str)
  items := inner.items.map fun (key, entry) => (key.str, entry)

/-- The samples of so many rounds, the next first. -/
def sampled (draws : Nat → Fin 5 → Nat) : Nat → List (List Nat)
  | 0 => []
  | rounds + 1 => List.ofFn (draws rounds) :: sampled draws rounds

theorem forget_item (inner : Inner) (k : Bytes) : inner.forget.item k = inner.items.get k := by
  simp [MemoryCache.item, forget, CacheItems.get, List.find?_map, Function.comp_def]

theorem forget_putItem (items : CacheItems) (key : SharedStr) (entry : CacheEntry CachedResponse) :
    MemoryCache.putItem key.str entry (items.map fun (k, e) => (k.str, e)) =
      (items.insert key entry).map fun (k, e) => (k.str, e) := by
  induction items with
  | nil => rfl
  | cons e rest ih =>
    by_cases hkey : e.1.str = key.str
    · simp [MemoryCache.putItem, CacheItems.insert, hkey]
    · simp only [List.map_cons, MemoryCache.putItem, CacheItems.insert, hkey, if_false, ih]

theorem forget_swapRemove (keys : List SharedStr) (i : Nat) :
    MemoryCache.swapRemove (keys.map (·.str)) i = (swapRemove keys i).map (·.str) := by
  unfold MemoryCache.swapRemove swapRemove
  rw [List.getLast?_map]
  cases keys.getLast? with
  | none => rfl
  | some last => simp [List.map_dropLast, List.map_set]

theorem forget_sample {now : Nat} {draws : List Nat} {oldest found : Option (Nat × Nat)}
    (h : inner.sample now draws oldest = some found) :
    inner.forget.sampleOldest now draws oldest = found.map (·.1) := by
  induction draws generalizing oldest with
  | nil =>
    obtain rfl := Option.some.inj h
    rfl
  | cons draw draws ih =>
    have hat : (inner.forget.keys[draw % inner.forget.keys.length]?.bind inner.forget.item) =
        inner.keys[draw % inner.keys.length]?.bind fun key => inner.items.get key.str := by
      have hkeys : inner.forget.keys = inner.keys.map (·.str) := rfl
      rw [hkeys, List.length_map, List.getElem?_map]
      cases inner.keys[draw % inner.keys.length]? with
      | none => rfl
      | some key => exact forget_item inner key.str
    rw [sample] at h
    split at h
    · cases h
    · dsimp only at h
      rw [MemoryCache.sampleOldest]
      dsimp only
      rw [hat]
      cases hitem : inner.keys[draw % inner.keys.length]?.bind fun key => inner.items.get key.str with
      | none =>
        rw [hitem] at h
        cases h
      | some item =>
        rw [hitem] at h
        dsimp only at h ⊢
        have hlen : inner.forget.keys.length = inner.keys.length := List.length_map _
        rw [hlen]
        split at h
        · next hexpired =>
          obtain rfl := Option.some.inj h
          rw [if_pos hexpired]
          rfl
        · next hfresh =>
          rw [if_neg hfresh]
          split at h
          · next hold =>
            rw [if_pos hold]
            exact ih h
          · next hold =>
            rw [if_neg hold]
            exact ih h

theorem forget_evict {now : Nat} {draws : Fin 5 → Nat} {inner' : Inner} {key : Bytes}
    (h : inner.evictOldestItem now draws = some (inner', key)) :
    inner.forget.evictOldestItem now (List.ofFn draws) = inner'.forget := by
  simp only [evictOldestItem, Option.bind_eq_bind, Option.bind_eq_some_iff] at h
  obtain ⟨found, hsample, ⟨index, last⟩, rfl, shared, hat, heq⟩ := h
  obtain ⟨rfl, -⟩ := Prod.mk.inj (Option.some.inj heq)
  have htake : (List.ofFn draws).take 5 = List.ofFn draws := List.take_of_length_le (by simp)
  have hkey : inner.forget.keys[index]? = some shared.str := by
    have hkeys : inner.forget.keys = inner.keys.map (·.str) := rfl
    rw [hkeys, List.getElem?_map, hat]
    rfl
  simp only [MemoryCache.evictOldestItem, htake, forget_sample hsample, Option.map_some, hkey, forget_item]
  simp only [forget, forget_swapRemove, CacheItems.remove, List.filter_map, Function.comp_def]

theorem forget_makeRoom {limit : Int} {now : Nat} {draws : Nat → Fin 5 → Nat} {rounds : Nat} {inner' : Inner}
    {evicted : List Bytes} (h : Inner.makeRoom limit now draws rounds inner = some (inner', evicted)) :
    MemoryCache.makeRoom limit now rounds (sampled draws rounds) inner.forget = inner'.forget := by
  induction rounds generalizing inner evicted with
  | zero =>
    rw [Inner.makeRoom] at h
    split at h
    · cases h
    · obtain ⟨rfl, -⟩ := Prod.mk.inj (Option.some.inj h)
      rfl
  | succ rounds ih =>
    have hguard : (decide (inner.forget.size > limit) && !inner.forget.keys.isEmpty) =
        (decide (inner.size > limit) && !inner.keys.isEmpty) := by
      simp [forget]
    rw [Inner.makeRoom] at h
    rw [MemoryCache.makeRoom, hguard]
    split at h
    · next hgo =>
      simp only [Option.bind_eq_bind, Option.bind_eq_some_iff] at h
      obtain ⟨⟨inner₁, key⟩, hevict, ⟨inner₂, rest⟩, hroom, heq⟩ := h
      obtain ⟨rfl, -⟩ := Prod.mk.inj (Option.some.inj heq)
      rw [if_pos hgo, sampled, List.headD_cons, List.tail_cons, forget_evict hevict]
      exact ih hroom
    · next hstop =>
      obtain ⟨rfl, -⟩ := Prod.mk.inj (Option.some.inj h)
      rw [if_neg hstop]

/-- **A set, its strings forgotten, is the set of the map of texts**, on the same samples. -/
theorem forget_set {key : Bytes} {value : CachedResponse} {expiresAt now : Nat} {draws : Nat → Fin 5 → Nat}
    {inner' : Inner} {evicted : List Bytes} (h : inner.set key value expiresAt now draws = some (inner', evicted)) :
    inner.forget.set key value (value.size key) expiresAt now (sampled draws inner.keys.length) = inner'.forget := by
  have hlen : inner.forget.keys.length = inner.keys.length := List.length_map _
  rw [Inner.set] at h
  rw [MemoryCache.set]
  split at h
  · next hlarge =>
    obtain ⟨rfl, -⟩ := Prod.mk.inj (Option.some.inj h)
    exact if_pos hlarge
  · next hfits =>
    simp only [Option.bind_eq_bind, Option.bind_eq_some_iff] at h
    obtain ⟨⟨inner₁, rest⟩, hroom, heq⟩ := h
    obtain ⟨rfl, -⟩ := Prod.mk.inj (Option.some.inj heq)
    have hfits' : ¬ (decide ((value.size key : Int) > inner.forget.maxItemSize) ||
        decide ((value.size key : Int) > inner.forget.capacity)) = true := hfits
    have hforget : MemoryCache.makeRoom (inner.forget.capacity - (value.size key : Nat)) now inner.keys.length
        (sampled draws inner.keys.length) inner.forget = inner₁.forget := forget_makeRoom hroom
    have hput : MemoryCache.putItem key ⟨now, expiresAt, value, (value.size key : Nat)⟩ inner₁.forget.items = _ :=
      forget_putItem inner₁.items ⟨inner₁.allocated, key⟩ ⟨now, expiresAt, value, (value.size key : Nat)⟩
    rw [if_neg hfits', hlen]
    simp only [hforget, forget_item, hput]
    cases inner₁.items.get key <;> simp [forget]

end Inner

/-! ## 6. Runs of calls -/

inductive CacheCall where
  | get (key : Bytes) (now : Nat)
  | set (key : Bytes) (value : CachedResponse) (expiresAt now : Nat) (draws : Nat → Fin 5 → Nat)

/-- A cache, with the last accepted set of each key and whether it was evicted since. -/
structure CacheRun where
  inner : Inner
  lastSet : Bytes → Option (CachedResponse × Nat)
  evicted : Bytes → Bool

namespace CacheRun

/-- No successor where a call panics or does not return. -/
def step (run : CacheRun) : CacheCall → Option CacheRun
  | .get key now => some { run with inner := (run.inner.get key now).2 }
  | .set key value expiresAt now draws =>
    match run.inner.set key value expiresAt now draws with
    | none => none
    | some (inner, evicted) =>
      if run.inner.tooLarge (value.size key) then some { run with inner }
      else some {
        inner
        lastSet := fun k => if k = key then some (value, expiresAt) else run.lastSet k
        evicted := fun k => if k = key then false else run.evicted k || evicted.contains k }

end CacheRun

/-- Any capacity and limit, a cache that was just made. -/
def cacheSystem : System CacheRun CacheCall where
  start run := ∃ capacity maxItemSize, run = ⟨.new capacity maxItemSize, fun _ => none, fun _ => false⟩
  step := CacheRun.step

namespace CacheRun

/-- What a key should hold. -/
def expected (run : CacheRun) (key : Bytes) : Option (CachedResponse × Nat) :=
  if run.evicted key then none else run.lastSet key

/-- What holds after every call. -/
structure Lawful (run : CacheRun) : Prop where
  /-- The list of keys is the map's, each once and by the same string. -/
  shared : run.inner.keys.Perm (run.inner.items.map (·.1))
  distinct : (run.inner.items.map (·.1.str)).Nodup
  size_eq : run.inner.size = (run.inner.items.map (·.2.size)).sum
  size_nonneg : 0 ≤ run.inner.size
  size_le : run.inner.size ≤ max run.inner.capacity 0
  /-- No call panics, and each returns. -/
  returns : ∀ call, (run.step call).isSome = true
  /-- A get answers with the last accepted set, unless it expired or was evicted. -/
  answers : ∀ key now, (run.inner.get key now).1 =
    match run.lastSet key with
    | none => none
    | some (value, expiresAt) => if run.evicted key || expiresAt < now then none else some value
  /-- What is too large leaves the cache as it is. -/
  refuses : ∀ key value expiresAt now draws,
    run.inner.maxItemSize < (value.size key : Nat) ∨ run.inner.capacity < (value.size key : Nat) →
      run.inner.set key value expiresAt now draws = some (run.inner, [])

/-- The invariant behind it. -/
structure Inv (run : CacheRun) : Prop where
  inStep : run.inner.InStep
  holds : ∀ k, run.inner.view k = run.expected k

variable {run run' : CacheRun}

theorem Inv.lawful (h : run.Inv) : run.Lawful where
  shared := h.inStep.shared
  distinct := h.inStep.distinct
  size_eq := h.inStep.size_eq
  size_nonneg := h.inStep.size_nonneg
  size_le := h.inStep.within
  returns call := by
    cases call with
    | get key now => rfl
    | set key value expiresAt now draws =>
      obtain ⟨inner, evicted, hset, -⟩ := h.inStep.set key value expiresAt now draws
      simp only [step, hset]
      split <;> rfl
  answers key now := by
    have hheld := h.holds key
    unfold Inner.view expected at hheld
    unfold Inner.get
    cases hitem : run.inner.items.get key with
    | none =>
      rw [hitem] at hheld
      cases hlast : run.lastSet key with
      | none => rfl
      | some last =>
        have hevicted : run.evicted key = true := by
          by_contra hno
          rw [if_neg hno, hlast] at hheld
          cases hheld
        simp [hevicted]
    | some item =>
      rw [hitem] at hheld
      have hevicted : ¬ run.evicted key = true := fun hyes => by
        rw [if_pos hyes] at hheld
        cases hheld
      rw [if_neg hevicted] at hheld
      simp only [← hheld, Option.map_some, hevicted, Bool.false_or, decide_eq_true_eq]
      split <;> rfl
  refuses key value expiresAt now draws hlarge := by
    have htoo : run.inner.tooLarge (value.size key) = true := by simpa [Inner.tooLarge] using hlarge
    rw [Inner.set, if_pos htoo]

theorem Inv.step (h : run.Inv) {call : CacheCall} (hs : run.step call = some run') : run'.Inv := by
  cases call with
  | get key now =>
    obtain rfl := Option.some.inj hs
    obtain ⟨hstep, hview, -, -⟩ := h.inStep.get key now
    exact ⟨hstep, fun k => (hview k).trans (h.holds k)⟩
  | set key value expiresAt now draws =>
    obtain ⟨inner, evicted, hset, hstep, -, -, hwhat⟩ := h.inStep.set key value expiresAt now draws
    simp only [CacheRun.step, hset] at hs
    by_cases hlarge : run.inner.tooLarge (value.size key) = true
    · rw [if_pos hlarge] at hs hwhat
      obtain rfl := Option.some.inj hs
      exact ⟨hstep, fun k => hwhat.1 ▸ h.holds k⟩
    · rw [if_neg hlarge] at hs hwhat
      obtain rfl := Option.some.inj hs
      refine ⟨hstep, fun k => ?_⟩
      rw [hwhat k, h.holds k]
      unfold expected
      by_cases hk : k = key <;> by_cases hm : k ∈ evicted <;> simp [hk, hm]

end CacheRun

/-- **After every call, whatever the samples drew: map and list are in step, the sizes add up within the
capacity, no call panics or goes on for ever, and a get answers with the last accepted set.** -/
theorem cacheLawful_of_reach {run : CacheRun} (h : Reach cacheSystem run) : run.Lawful := by
  refine CacheRun.Inv.lawful (h.induct ?_ ?_)
  · rintro run ⟨capacity, maxItemSize, rfl⟩
    exact ⟨Inner.new_inStep capacity maxItemSize, fun k => rfl⟩
  · exact fun run call run' _ hinv _ hs => hinv.step hs

/-- Two fit: the third set evicts the one not read since. -/
def evictingCalls : List CacheCall :=
  let response : CachedResponse := ⟨200, [], text "body", []⟩
  let draws : Nat → Fin 5 → Nat := fun _ i => i
  [.set (text "a") response 9 1 draws, .set (text "b") response 9 2 draws, .get (text "a") 3,
    .set (text "c") response 9 4 draws]

theorem cacheLawful_of_reach_sample : ∃ run : CacheRun, run.Lawful ∧
    run.inner.keys = [⟨0, text "a"⟩, ⟨2, text "c"⟩] ∧ run.inner.size = 522 ∧ run.evicted (text "b") = true := by
  obtain ⟨run, hreach, hrun⟩ := exists_reachWhen_of_replay (T := cacheSystem) (G := fun _ _ => True)
    (s := ⟨.new 600 300, fun _ => none, fun _ => false⟩) (l := evictingCalls)
    (p := fun run => run.inner.keys = [⟨0, text "a"⟩, ⟨2, text "c"⟩] && run.inner.size = 522 &&
      run.evicted (text "b")) ⟨600, 300, rfl⟩ (by decide +kernel)
  simp only [Bool.and_eq_true, decide_eq_true_eq] at hrun
  exact ⟨run, cacheLawful_of_reach hreach, hrun.1.1, hrun.1.2, hrun.2⟩

end Smartfire
