/-
  File:      Smartfire/Caching/JsonCacheRuns.lean
  Subject:   Interleaved calls of the value cache.

  A `try_fetch_value` is a locked read and, where it missed and the value was computed, a locked write; any
  other step may come in between, one of a nested call too. An epoch of a key ends where its entry is removed.

  * `JsonCall`, `JsonCacheRun.step` -- the locked steps, with what the calls returned;
  * `JsonCacheRun.Lawful` -- the bounded recency order, and the first value stored wins;
  * **`jsonCacheLawful_of_reach`** -- every run is so;
  * `clock_and_returns` -- the clock only reaches the last use, and a value too large to keep is returned too.
-/
import Smartfire.Caching.JsonCache
import Smartfire.Lib.Runs

namespace Smartfire

open Lib

/-! ## 1. The steps -/

/-- What a call returned, and the key's epoch it returned in. -/
structure JsonReturned (τ V : Type) where
  key : Bytes
  value : CacheValue τ V
  epoch : Nat
  outcome : WriteOutcome
deriving DecidableEq

inductive JsonCall (τ V : Type) where
  /-- The read of a `try_fetch_value`. -/
  | fetch (key : Bytes) (type : τ)
  /-- The computation of the `i`th that missed fails. -/
  | fails (i : Nat)
  /-- It gives a value, which is written. -/
  | computed (i : Nat) (value : V)
  | get (key : Bytes) (type : τ)
  | clear

structure JsonCacheRun (τ V : Type) where
  entries : JsonEntries τ V
  /-- The calls that missed and compute. -/
  pending : List (Bytes × τ)
  epochs : Bytes → Nat
  firstStored : Bytes → Nat → Option (CacheValue τ V)
  returned : List (JsonReturned τ V)

/-- The keys' next epochs. -/
def bump (keys : List Bytes) (epochs : Bytes → Nat) : Bytes → Nat := fun k =>
  if k ∈ keys then epochs k + 1 else epochs k

namespace JsonCacheRun

variable {τ V : Type} [DecidableEq τ]

def empty : JsonCacheRun τ V := ⟨.empty, [], fun _ => 0, fun _ _ => none, []⟩

/-- A read that found a value, or the state as it was. -/
def noteRead (run : JsonCacheRun τ V) (key : Bytes) (type : τ) : Option V × JsonCacheRun τ V :=
  match run.entries.read key type with
  | (none, entries) => (none, { run with entries })
  | (some value, entries) =>
    (some value, { run with
      entries
      returned := run.returned ++ [⟨key, ⟨type, value⟩, run.epochs key, .held⟩] })

/-- The key holds a value of another type, which a write at this type removes. -/
def otherType (run : JsonCacheRun τ V) (key : Bytes) (type : τ) : Bool :=
  (run.entries.view key).any fun held => held.type ≠ type

/-- A write, its removals and what it returned. -/
def noteWrite (run : JsonCacheRun τ V) (key : Bytes) (type : τ) (w : JsonEntries.Written τ V) : JsonCacheRun τ V :=
  -- a value of another type is removed before the write's own is stored, the oldest after
  let epochs := bump (if run.otherType key type then [key] else []) run.epochs
  { run with
    entries := w.entries
    epochs := bump (w.pruned.map (·.key)) epochs
    firstStored := fun k n =>
      if w.outcome = .stored ∧ k = key ∧ n = epochs key then some ⟨type, w.result⟩ else run.firstStored k n
    returned := run.returned ++ [⟨key, ⟨type, w.result⟩, epochs key, w.outcome⟩] }

def step (maxBytes : Nat) (cacheSize : V → Nat) (run : JsonCacheRun τ V) : JsonCall τ V → Option (JsonCacheRun τ V)
  | .fetch key type =>
    match run.noteRead key type with
    | (some _, run) => some run
    | (none, run) => some { run with pending := run.pending ++ [(key, type)] }
  | .fails i => if i < run.pending.length then some { run with pending := run.pending.eraseIdx i } else none
  | .computed i value =>
    match run.pending[i]? with
    | none => none
    | some (key, type) =>
      let size := key.length + cacheSize value + perEntryOverhead
      let w := run.entries.write maxBytes key ⟨type, value⟩ size
      some { run.noteWrite key type w with pending := run.pending.eraseIdx i }
  | .get key type => some (run.noteRead key type).2
  | .clear =>
    some { run with
      entries := .empty
      epochs := bump (run.entries.values.map (·.1)) run.epochs }

end JsonCacheRun

def jsonCacheSystem {τ V : Type} [DecidableEq τ] (maxBytes : Nat) (cacheSize : V → Nat) :
    System (JsonCacheRun τ V) (JsonCall τ V) where
  start run := run = .empty
  step := JsonCacheRun.step maxBytes cacheSize

/-! ## 2. What every run keeps -/

namespace JsonCacheRun

variable {τ V : Type} {run run' : JsonCacheRun τ V} {maxBytes : Nat} {cacheSize : V → Nat}

structure Inv (maxBytes : Nat) (cacheSize : V → Nat) (run : JsonCacheRun τ V) : Prop where
  entries : run.entries.Inv
  within : run.entries.bytes ≤ maxBytes
  /-- What a key holds is the first value stored in its epoch. -/
  held : ∀ k, run.firstStored k (run.epochs k) = run.entries.view k
  later : ∀ k n, run.epochs k < n → run.firstStored k n = none
  past : ∀ r ∈ run.returned, r.epoch ≤ run.epochs r.key
  kept : ∀ r ∈ run.returned, r.outcome ≠ .tooLarge → run.firstStored r.key r.epoch = some r.value
  large : ∀ r ∈ run.returned, r.outcome = .tooLarge →
    maxBytes / 4 < r.key.length + cacheSize r.value.value + perEntryOverhead
  first : run.returned.Pairwise fun a b =>
    a.key = b.key → a.epoch = b.epoch → a.outcome ≠ .tooLarge → b.outcome ≠ .tooLarge

theorem inv_empty : (empty : JsonCacheRun τ V).Inv maxBytes cacheSize where
  entries := JsonEntries.inv_empty
  within := Nat.zero_le _
  held _ := rfl
  later _ _ _ := rfl
  past := by simp [empty]
  kept := by simp [empty]
  large := by simp [empty]
  first := .nil

theorem bump_le (keys : List Bytes) (epochs : Bytes → Nat) (k : Bytes) : epochs k ≤ bump keys epochs k := by
  unfold bump
  split <;> omega

/-- What a call returned is noted. -/
theorem Inv.note (h : run.Inv maxBytes cacheSize) {key : Bytes} {value : CacheValue τ V}
    (hheld : run.firstStored key (run.epochs key) = some value) {entries : JsonEntries τ V}
    (hentries : entries.Inv) (hwithin : entries.bytes ≤ maxBytes) (hview : ∀ k, entries.view k = run.entries.view k) :
    ({ run with entries, returned := run.returned ++ [⟨key, value, run.epochs key, .held⟩] } :
      JsonCacheRun τ V).Inv maxBytes cacheSize where
  entries := hentries
  within := hwithin
  held k := (h.held k).trans (hview k).symm
  later := h.later
  past r hr := by
    obtain hr | hr := List.mem_append.mp hr
    · exact h.past r hr
    · obtain rfl := List.mem_singleton.mp hr
      exact le_rfl
  kept r hr hout := by
    obtain hr | hr := List.mem_append.mp hr
    · exact h.kept r hr hout
    · obtain rfl := List.mem_singleton.mp hr
      exact hheld
  large r hr hout := by
    obtain hr | hr := List.mem_append.mp hr
    · exact h.large r hr hout
    · obtain rfl := List.mem_singleton.mp hr
      cases hout
  first := by
    refine List.pairwise_append.mpr ⟨h.first, List.pairwise_singleton _ _, fun a _ b hb _ _ _ => ?_⟩
    obtain rfl := List.mem_singleton.mp hb
    exact WriteOutcome.noConfusion

theorem Inv.noteRead [DecidableEq τ] (h : run.Inv maxBytes cacheSize) (key : Bytes) (type : τ) :
    (run.noteRead key type).2.Inv maxBytes cacheSize := by
  obtain ⟨hentries, hview, hbytes, hresult⟩ := h.entries.read key type
  unfold JsonCacheRun.noteRead
  rcases hread : run.entries.read key type with ⟨_ | value, entries⟩
  · rw [hread] at hentries hview hbytes
    exact { h with
      entries := hentries
      within := hbytes ▸ h.within
      held := fun k => (h.held k).trans (hview k).symm }
  · rw [hread] at hentries hview hbytes hresult
    obtain ⟨held, hheld, hvalue⟩ := Option.bind_eq_some_iff.mp hresult.symm
    split at hvalue
    · next htype =>
      have heq : held = ⟨type, value⟩ := by
        obtain rfl := htype
        obtain rfl := Option.some.inj hvalue
        rfl
      exact h.note ((h.held key).trans (hheld.trans (congrArg some heq))) hentries (hbytes ▸ h.within) hview
    · cases hvalue

/-- **A write that finds no value of its type** ends the epoch of another type's value, and its own value is
    the first of its epoch, if it is kept. -/
theorem Inv.noteWrite [DecidableEq τ] (h : run.Inv maxBytes cacheSize) {key : Bytes} {type : τ} {value : V}
    {w : JsonEntries.Written τ V} (hkeeps : JsonEntries.Keeps maxBytes w)
    (hother : ∀ held, run.entries.view key = some held → held.type ≠ type)
    (hput : JsonEntries.Put run.entries maxBytes key ⟨type, value⟩
      (key.length + cacheSize value + perEntryOverhead) w) :
    (run.noteWrite key type w).Inv maxBytes cacheSize := by
  unfold JsonCacheRun.noteWrite
  generalize hepochs : bump (if run.otherType key type then [key] else []) run.epochs = epochs
  have hrest : ∀ k, k ≠ key → epochs k = run.epochs k := by
    intro k hk
    rw [← hepochs, bump]
    split <;> simp_all
  have hle : ∀ k, run.epochs k ≤ epochs k := fun k => hepochs ▸ bump_le _ _ k
  -- the key's epoch has no value yet
  have hnone : run.firstStored key (epochs key) = none := by
    cases hview : run.entries.view key with
    | none =>
      have hsame : epochs key = run.epochs key := by simp [← hepochs, bump, otherType, hview]
      rw [hsame, h.held, hview]
    | some held =>
      have hne := hother held hview
      have hnext : epochs key = run.epochs key + 1 := by simp [← hepochs, bump, otherType, hview, hne]
      exact h.later key _ (by omega)
  have hresult : (⟨type, w.result⟩ : CacheValue τ V) = ⟨type, value⟩ := by rw [hput.result]
  have hafter : ∀ k n, epochs k < n → run.firstStored k n = none := fun k n hn =>
    h.later k n (Nat.lt_of_le_of_lt (hle k) hn)
  constructor
  case entries => exact hkeeps.inv
  case within => exact hkeeps.within
  case held =>
    intro k
    dsimp only
    by_cases hpruned : k ∈ w.pruned.map (·.key)
    · have hnext : bump (w.pruned.map (·.key)) epochs k = epochs k + 1 := if_pos hpruned
      have hgone : w.entries.view k = none := by
        obtain ⟨-, -, hnil, -⟩ | ⟨-, hview⟩ := hput.view
        · simp [hnil] at hpruned
        · rw [hview, if_pos hpruned]
      rw [hnext, hgone, if_neg (by rintro ⟨-, rfl, hn⟩; omega)]
      exact hafter k _ (by omega)
    · have hsame : bump (w.pruned.map (·.key)) epochs k = epochs k := if_neg hpruned
      rw [hsame]
      by_cases hk : k = key
      · subst hk
        obtain ⟨hout, -, -, hview⟩ | ⟨hout, hview⟩ := hput.view
        · rw [hview, if_pos rfl, if_neg (by simp [hout])]
          exact hnone
        · rw [hview, if_neg hpruned, if_pos rfl, if_pos ⟨hout, rfl, rfl⟩, hresult]
      · rw [if_neg (by simp [hk]), hrest k hk, h.held]
        obtain ⟨-, -, -, hview⟩ | ⟨-, hview⟩ := hput.view
        · rw [hview, if_neg hk]
        · rw [hview, if_neg hpruned, if_neg hk]
  case later =>
    intro k n hn
    dsimp only at hn ⊢
    have hlt : epochs k < n := Nat.lt_of_le_of_lt (bump_le _ _ k) hn
    rw [if_neg (by rintro ⟨-, rfl, rfl⟩; omega)]
    exact hafter k n hlt
  case past =>
    intro r hr
    dsimp only at hr ⊢
    refine Nat.le_trans ?_ (bump_le _ _ _)
    obtain hr | hr := List.mem_append.mp hr
    · exact Nat.le_trans (h.past r hr) (hle _)
    · obtain rfl := List.mem_singleton.mp hr
      exact le_rfl
  case kept =>
    intro r hr hout
    dsimp only at hr ⊢
    obtain hr | hr := List.mem_append.mp hr
    · have hfirst := h.kept r hr hout
      rw [if_neg, hfirst]
      rintro ⟨-, hk, hn⟩
      rw [hk, hn, hnone] at hfirst
      cases hfirst
    · obtain rfl := List.mem_singleton.mp hr
      obtain ⟨hlarge, -⟩ | ⟨hstored, -⟩ := hput.view
      · exact absurd hlarge hout
      · exact if_pos ⟨hstored, rfl, rfl⟩
  case large =>
    intro r hr hout
    obtain hr | hr := List.mem_append.mp hr
    · exact h.large r hr hout
    · obtain rfl := List.mem_singleton.mp hr
      obtain ⟨-, hlarge, -⟩ | ⟨hstored, -⟩ := hput.view
      · dsimp only
        rw [hput.result]
        exact hlarge
      · dsimp only at hout
        rw [hstored] at hout
        cases hout
  case first =>
    refine List.pairwise_append.mpr ⟨h.first, List.pairwise_singleton _ _, fun a ha b hb hk hn hout => ?_⟩
    obtain rfl := List.mem_singleton.mp hb
    dsimp only at hk hn
    have hfirst := h.kept a ha hout
    rw [hk, hn, hnone] at hfirst
    cases hfirst

theorem Inv.clear (h : run.Inv maxBytes cacheSize) : ({ run with
    entries := .empty
    epochs := bump (run.entries.values.map (·.1)) run.epochs } : JsonCacheRun τ V).Inv maxBytes cacheSize where
  entries := JsonEntries.inv_empty
  within := Nat.zero_le _
  held k := by
    show run.firstStored k (bump (run.entries.values.map (·.1)) run.epochs k) = none
    unfold bump
    split
    · exact h.later k _ (Nat.lt_succ_self _)
    · next hk => rw [h.held, JsonEntries.view, JsonEntries.find_eq_none.mpr hk]; rfl
  later k n hn := h.later k n (Nat.lt_of_le_of_lt (bump_le _ _ k) hn)
  past r hr := Nat.le_trans (h.past r hr) (bump_le _ _ _)
  kept := h.kept
  large := h.large
  first := h.first

theorem Inv.pending (h : run.Inv maxBytes cacheSize) (pending : List (Bytes × τ)) :
    ({ run with pending } : JsonCacheRun τ V).Inv maxBytes cacheSize := { h with }

theorem Inv.step [DecidableEq τ] (h : run.Inv maxBytes cacheSize) {call : JsonCall τ V}
    (hs : run.step maxBytes cacheSize call = some run') : run'.Inv maxBytes cacheSize := by
  cases call with
  | fetch key type =>
    have hread := h.noteRead key type
    simp only [JsonCacheRun.step] at hs
    split at hs
    · next hnote =>
      obtain rfl := Option.some.inj hs
      rwa [hnote] at hread
    · next hnote =>
      obtain rfl := Option.some.inj hs
      rw [hnote] at hread
      exact hread.pending _
  | fails i =>
    simp only [JsonCacheRun.step] at hs
    split at hs
    · obtain rfl := Option.some.inj hs
      exact h.pending _
    · cases hs
  | computed i value =>
    simp only [JsonCacheRun.step] at hs
    split at hs
    · cases hs
    · next key type _ =>
      obtain rfl := Option.some.inj hs
      refine Inv.pending ?_ _
      by_cases hheld : ∃ held, run.entries.view key = some held ∧ held.type = type
      · obtain ⟨held, hview, htype⟩ := hheld
        have hkeeps := h.entries.write h.within key ⟨type, value⟩ (key.length + cacheSize value + perEntryOverhead)
        obtain ⟨hresult, hout, hpruned, hsame⟩ := @JsonEntries.write_held _ _ _ _ _ maxBytes
          (key.length + cacheSize value + perEntryOverhead) ⟨type, value⟩ _ hview htype
        have heq : held = ⟨type, held.value⟩ := by
          obtain rfl : held.type = type := htype
          rfl
        have hnote := h.note ((h.held key).trans (hview.trans (congrArg some heq))) hkeeps.inv hkeeps.within hsame
        have hepochs : ∀ epochs : Bytes → Nat, bump [] epochs = epochs := fun epochs => by
          funext k
          simp [bump]
        have hsole : run.otherType key type = false := by simp [otherType, hview, htype]
        unfold JsonCacheRun.noteWrite
        simp only [hresult, hout, hsole, hpruned, Bool.false_eq_true, if_false, List.map_nil, hepochs, reduceCtorEq,
          false_and]
        exact hnote
      · have hother : ∀ held, run.entries.view key = some held → held.type ≠ type :=
          fun held hview htype => hheld ⟨held, hview, htype⟩
        obtain ⟨hkeeps, hput⟩ := h.entries.write_other h.within key ⟨type, value⟩
          (key.length + cacheSize value + perEntryOverhead) hother
        exact h.noteWrite hkeeps hother hput
  | get key type =>
    obtain rfl := Option.some.inj hs
    exact h.noteRead key type
  | clear =>
    obtain rfl := Option.some.inj hs
    exact h.clear

/-- What holds after every step. -/
structure Lawful [DecidableEq τ] (maxBytes : Nat) (cacheSize : V → Nat) (run : JsonCacheRun τ V) : Prop where
  /-- Order and map are in bijection through `used`. -/
  bijection : run.entries.recency.Perm (run.entries.values.map fun p => (p.2.used, p.1))
  keys_distinct : (run.entries.values.map (·.1)).Nodup
  uses_distinct : (run.entries.recency.map (·.1)).Nodup
  clock_ge : ∀ p ∈ run.entries.values, p.2.used ≤ run.entries.clock
  bytes_eq : run.entries.bytes = (run.entries.values.map (·.2.size)).sum
  within : run.entries.bytes ≤ maxBytes
  /-- What a write prunes was used before what it keeps. -/
  prunes_oldest : ∀ key value size, ∀ e ∈ (run.entries.write maxBytes key value size).pruned,
    ∀ p ∈ (run.entries.write maxBytes key value size).entries.values, e.used < p.2.used
  /-- A write at the held value's type answers with that value, and removes and changes nothing. -/
  writes_held : ∀ key value held size, run.entries.view key = some held → held.type = value.type →
    (run.entries.write maxBytes key value size).result = held.value ∧
      (run.entries.write maxBytes key value size).pruned = [] ∧
      ∀ k, (run.entries.write maxBytes key value size).entries.view k = run.entries.view k
  /-- From the first value stored in an epoch of its key on, the calls return that value. -/
  first_wins : run.returned.Pairwise fun a b =>
    a.key = b.key → a.epoch = b.epoch → a.outcome ≠ .tooLarge → b.outcome ≠ .tooLarge ∧ b.value = a.value
  /-- A value that is returned and not kept is too large. -/
  large : ∀ r ∈ run.returned, r.outcome = .tooLarge →
    maxBytes / 4 < r.key.length + cacheSize r.value.value + perEntryOverhead
  /-- A read finds the first value stored in the key's epoch, at its type. -/
  reads_first : ∀ key type, (run.entries.read key type).1 =
    (run.firstStored key (run.epochs key)).bind fun value => if value.type = type then some value.value else none

theorem Inv.lawful [DecidableEq τ] (h : run.Inv maxBytes cacheSize) : run.Lawful maxBytes cacheSize where
  bijection := h.entries.recent
  keys_distinct := h.entries.distinct
  uses_distinct := h.entries.used_nodup
  clock_ge p hp := h.entries.clock_le _ (h.entries.mem_recency hp)
  bytes_eq := h.entries.bytes_eq
  within := h.within
  prunes_oldest key value size := (h.entries.write h.within key value size).older
  writes_held key value held size hview htype := by
    obtain ⟨hresult, -, hpruned, hsame⟩ := JsonEntries.write_held maxBytes size hview htype
    exact ⟨hresult, hpruned, hsame⟩
  first_wins := by
    refine h.first.imp_of_mem fun {a b} ha hb hfirst hk hn hout => ?_
    have hout' := hfirst hk hn hout
    have hsame := (h.kept a ha hout).symm.trans (hk ▸ hn ▸ h.kept b hb hout')
    exact ⟨hout', (Option.some.inj hsame).symm⟩
  large := h.large
  reads_first key type := by
    rw [h.held]
    exact (h.entries.read key type).2.2.2

end JsonCacheRun

/-- **After every step of every interleaving** map and order are in bijection, the clock is no earlier than any
use, the sizes add up within the limit, what is pruned is what was used longest ago, and from the first value
stored on a key's calls return that value until the key is removed. -/
theorem jsonCacheLawful_of_reach {τ V : Type} [DecidableEq τ] {maxBytes : Nat} {cacheSize : V → Nat}
    {run : JsonCacheRun τ V} (h : Reach (jsonCacheSystem maxBytes cacheSize) run) :
    run.Lawful maxBytes cacheSize := by
  refine JsonCacheRun.Inv.lawful (h.induct ?_ ?_)
  · rintro run rfl
    exact JsonCacheRun.inv_empty
  · exact fun run call run' _ hinv _ hs => hinv.step hs

/-- Four fit; the fifth prunes the two used longest ago. -/
def pruningCalls : List (JsonCall Bool Nat) :=
  [.fetch (text "a") true, .computed 0 9, .fetch (text "b") true, .computed 0 9, .fetch (text "c") false,
    .computed 0 9, .fetch (text "d") true, .computed 0 9, .get (text "a") true, .fetch (text "e") true, .computed 0 9]

theorem jsonCacheLawful_of_reach_sample : ∃ run : JsonCacheRun Bool Nat,
    run.Lawful 1000 (fun n => n) ∧ run.entries.values.map (·.1) = [text "a", text "d", text "e"] := by
  obtain ⟨run, hreach, hrun⟩ := exists_reachWhen_of_replay
    (T := (jsonCacheSystem 1000 fun n => n : System (JsonCacheRun Bool Nat) _)) (G := fun _ _ => True) (s := .empty)
    (l := pruningCalls) (p := fun run => run.entries.values.map (·.1) = [text "a", text "d", text "e"]) rfl
    (by decide +kernel)
  exact ⟨run, jsonCacheLawful_of_reach hreach, by simpa using hrun⟩

/-- **The clock only reaches the last use; and of two calls that race the first returns a value too large to
keep, the second stores and returns its own**, with no removal of the key between them. -/
theorem clock_and_returns :
    (∃ run : JsonCacheRun Bool Nat, Reach (jsonCacheSystem 1000 fun n => n) run ∧
      ¬ ∀ p ∈ run.entries.values, p.2.used < run.entries.clock) ∧
    ∃ run : JsonCacheRun Bool Nat, Reach (jsonCacheSystem 1000 fun n => n) run ∧
      ∃ a ∈ run.returned, ∃ b ∈ run.returned,
        a.key = b.key ∧ a.value.type = b.value.type ∧ a.epoch = b.epoch ∧ a.value ≠ b.value := by
  constructor
  · obtain ⟨run, hreach, hrun⟩ := exists_reachWhen_of_replay
      (T := (jsonCacheSystem 1000 fun n => n : System (JsonCacheRun Bool Nat) _)) (G := fun _ _ => True)
      (s := .empty) (l := [.fetch (text "a") true, .computed 0 9])
      (p := fun run => ¬ ∀ p ∈ run.entries.values, p.2.used < run.entries.clock) rfl (by decide +kernel)
    exact ⟨run, hreach, by simpa using hrun⟩
  · obtain ⟨run, hreach, hrun⟩ := exists_reachWhen_of_replay
      (T := (jsonCacheSystem 1000 fun n => n : System (JsonCacheRun Bool Nat) _)) (G := fun _ _ => True)
      (s := .empty) (l := [.fetch (text "a") true, .fetch (text "a") true, .computed 0 900, .computed 0 5])
      (p := fun run => run.returned = [⟨text "a", ⟨true, 900⟩, 0, .tooLarge⟩, ⟨text "a", ⟨true, 5⟩, 0, .stored⟩])
      rfl (by decide +kernel)
    have hreturned := of_decide_eq_true hrun
    refine ⟨run, hreach, ⟨text "a", ⟨true, 900⟩, 0, .tooLarge⟩, ?_, ⟨text "a", ⟨true, 5⟩, 0, .stored⟩, ?_, rfl, rfl,
      rfl, by decide⟩
    · simp [hreturned]
    · simp [hreturned]

end Smartfire
