/-
  File:      Smartfire/Lib/Assoc.lean
  Subject:   Lists of pairs read by their first match, and a copy that is told of the changes.

  * `get`, `upsert`, `firstWins` -- reading, writing in place, and keeping a key's first value;
  * `Told` -- writes and removals, waiting, that say how the values differ from those a copy has;
  * `Told.write`, `Told.skip`, `Told.drop` -- one change and what is noted for it;
  * `Told.replay` -- a copy told of the writes and then of the removals has the values.
-/
import Smartfire.Lib.Keyed

namespace Lib.Assoc

universe u v w x

/-! ## 1. Lists of pairs -/

section Pairs

variable {κ : Type u} {α : Type v} {β : Type w} [DecidableEq κ] {l : List (κ × α)} {k k' : κ} {a : α}

def get (l : List (κ × α)) (k : κ) : Option α := (l.find? (·.1 = k)).map (·.2)

/-- In place where the key stands, else at the end. -/
def upsert : List (κ × α) → κ → α → List (κ × α)
  | [], k, a => [(k, a)]
  | (k', a') :: rest, k, a => if k' = k then (k', a) :: rest else (k', a') :: upsert rest k a

/-- The keys seen before are left out. -/
def firstWins (seen : List κ) : List (κ × α) → List (κ × α)
  | [] => []
  | (k, a) :: rest => if k ∈ seen then firstWins seen rest else (k, a) :: firstWins (k :: seen) rest

@[simp] theorem get_nil (k : κ) : get ([] : List (κ × α)) k = none := rfl

theorem get_cons (e : κ × α) (l : List (κ × α)) (k : κ) : get (e :: l) k = if e.1 = k then some e.2 else get l k := by
  by_cases h : e.1 = k
  · simp [get, h]
  · simp [get, h]

theorem get_append (l l' : List (κ × α)) (k : κ) : get (l ++ l') k = (get l k).or (get l' k) := by
  induction l with
  | nil => rfl
  | cons e rest ih =>
    rw [List.cons_append, get_cons, get_cons, ih]
    split <;> simp

theorem get_eq_none : get l k = none ↔ k ∉ l.map (·.1) := by
  rw [get, Option.map_eq_none_iff]
  exact find?_key_eq_none

/-- The values changed, the keys kept. -/
theorem get_map (f : κ → α → β) (l : List (κ × α)) (k : κ) :
    get (l.map fun e => (e.1, f e.1 e.2)) k = (get l k).map (f k) := by
  induction l with
  | nil => rfl
  | cons e rest ih =>
    rw [List.map_cons, get_cons, get_cons, ih]
    by_cases h : e.1 = k
    · simp [h]
    · simp [h]

/-- **A write is read back, and nothing else changes.** -/
theorem get_upsert (l : List (κ × α)) (k : κ) (a : α) (k' : κ) :
    get (upsert l k a) k' = if k = k' then some a else get l k' := by
  induction l with
  | nil => rw [upsert, get_cons]
  | cons e rest ih =>
    rw [upsert]
    split
    · next h =>
      subst h
      rw [get_cons, get_cons]
      split <;> rfl
    · next h =>
      rw [get_cons, get_cons, ih]
      by_cases hk : e.1 = k'
      · simp [hk, show k ≠ k' from fun hkk => h (hk.trans hkk.symm)]
      · simp [hk]

theorem keys_upsert (l : List (κ × α)) (k : κ) (a : α) :
    (upsert l k a).map (·.1) = if k ∈ l.map (·.1) then l.map (·.1) else l.map (·.1) ++ [k] := by
  induction l with
  | nil => rfl
  | cons e rest ih =>
    rw [upsert]
    by_cases h : e.1 = k
    · simp [h]
    · have h' : k ≠ e.1 := fun he => h he.symm
      rw [if_neg h, List.map_cons, ih]
      simp only [List.map_cons, List.mem_cons, h', false_or]
      split <;> rfl

theorem nodup_upsert (h : (l.map (·.1)).Nodup) (k : κ) (a : α) : ((upsert l k a).map (·.1)).Nodup := by
  rw [keys_upsert]
  split
  · exact h
  · next hk => simpa using h.concat hk

/-- What a write leaves is the written pair, or was there. -/
theorem mem_upsert {e : κ × α} (h : e ∈ upsert l k a) : e = (k, a) ∨ e ∈ l := by
  induction l with
  | nil => exact .inl (List.mem_singleton.mp h)
  | cons e' rest ih =>
    rw [upsert] at h
    split at h
    · next hk =>
      obtain rfl | h := List.mem_cons.mp h
      · exact .inl (by rw [← hk])
      · exact .inr (List.mem_cons_of_mem _ h)
    · obtain rfl | h := List.mem_cons.mp h
      · exact .inr List.mem_cons_self
      · exact (ih h).imp_right (List.mem_cons_of_mem _)

theorem get_filter_ne (l : List (κ × α)) (k k' : κ) :
    get (l.filter (·.1 ≠ k)) k' = if k' = k then none else get l k' := by
  rw [get, find?_erase]
  split
  · rfl
  · rfl

/-- Where a key stands once, taking its first pair out takes them all. -/
theorem eraseP_eq_filter (h : (l.map (·.1)).Nodup) (k : κ) : l.eraseP (·.1 = k) = l.filter (·.1 ≠ k) := by
  induction l with
  | nil => rfl
  | cons e rest ih =>
    obtain ⟨hfresh, hrest⟩ := List.nodup_cons.mp h
    by_cases hk : e.1 = k
    · have hkeep : rest.filter (·.1 ≠ k) = rest := by
        refine List.filter_eq_self.mpr fun e' he' => ?_
        simpa using fun hk' : e'.1 = k => hfresh (List.mem_map.mpr ⟨e', he', hk'.trans hk.symm⟩)
      rw [List.eraseP_cons_of_pos (by simpa using hk), List.filter_cons_of_neg (by simpa using hk), hkeep]
    · rw [List.eraseP_cons_of_neg (by simpa using hk), List.filter_cons_of_pos (by simpa using hk), ih hrest]

theorem get_firstWins (seen : List κ) (l : List (κ × α)) (k : κ) :
    get (firstWins seen l) k = if k ∈ seen then none else get l k := by
  induction l generalizing seen with
  | nil => simp [firstWins]
  | cons e rest ih =>
    rw [firstWins]
    split
    · next h =>
      rw [ih, get_cons]
      by_cases hk : e.1 = k
      · simp [← hk, h]
      · simp [hk]
    · next h =>
      rw [get_cons, get_cons, ih]
      by_cases hk : e.1 = k
      · simp [← hk, h]
      · simp [hk, Ne.symm hk]

theorem firstWins_sublist (seen : List κ) (l : List (κ × α)) : (firstWins seen l).Sublist l := by
  induction l generalizing seen with
  | nil => exact .slnil
  | cons e rest ih =>
    rw [firstWins]
    split
    · exact (ih seen).cons _
    · exact (ih _).cons_cons _

theorem nodup_firstWins (seen : List κ) (l : List (κ × α)) : ((firstWins seen l).map (·.1)).Nodup := by
  induction l generalizing seen with
  | nil => exact List.nodup_nil
  | cons e rest ih =>
    rw [firstWins]
    split
    · exact ih seen
    · refine List.nodup_cons.mpr ⟨?_, ih _⟩
      rw [← get_eq_none, get_firstWins]
      exact if_pos List.mem_cons_self

/-- Writes, one after the other: where a key stands once, its write is what is read. -/
theorem get_foldl_upsert {w : List (κ × β)} (hw : (w.map (·.1)).Nodup) (f : κ → β → α) (l : List (κ × α)) (k : κ) :
    get (w.foldl (fun s e => upsert s e.1 (f e.1 e.2)) l) k = ((get w k).map (f k)).or (get l k) := by
  induction w generalizing l with
  | nil => simp
  | cons e rest ih =>
    obtain ⟨hfresh, hrest⟩ := List.nodup_cons.mp hw
    rw [List.foldl_cons, ih hrest, get_upsert, get_cons]
    by_cases hk : e.1 = k
    · subst hk
      rw [get_eq_none.mpr hfresh]
      simp
    · simp [hk]

theorem get_foldl_filter (d : List (κ × β)) (l : List (κ × α)) (k : κ) :
    get (d.foldl (fun s e => s.filter (·.1 ≠ e.1)) l) k = if k ∈ d.map (·.1) then none else get l k := by
  induction d generalizing l with
  | nil => simp
  | cons e rest ih =>
    rw [List.foldl_cons, ih, get_filter_ne]
    simp only [List.map_cons, List.mem_cons]
    by_cases hk : k = e.1
    · simp [hk]
    · simp only [hk, false_or, if_false]

end Pairs

/-! ## 2. A copy told of the changes -/

section Told

variable {κ : Type u} {α : Type v} {β : Type w} {δ : Type x} [DecidableEq κ]

/-- What waits to be told, key by key: a removal, else a write, else nothing changed. -/
structure Told (base : κ → Option α) (val : β → α) (current : List (κ × α)) (writes : List (κ × β))
    (drops : List (κ × δ)) : Prop where
  /-- each key stands once -/
  nodupCurrent : (current.map (·.1)).Nodup
  nodupWrites : (writes.map (·.1)).Nodup
  dropped : ∀ k ∈ drops.map (·.1), get current k = none
  kept : ∀ k, k ∉ drops.map (·.1) → get current k = ((get writes k).map val).or (base k)

variable {base : κ → Option α} {val : β → α} {current : List (κ × α)} {writes : List (κ × β)}
  {drops : List (κ × δ)}

theorem told_start (h : (current.map (·.1)).Nodup) :
    Told (get current) val current ([] : List (κ × β)) ([] : List (κ × δ)) :=
  ⟨h, List.nodup_nil, by simp, by simp⟩

/-- **A write is noted over an earlier one, and takes a removal back.** -/
theorem Told.write (h : Told base val current writes drops) (k : κ) (b : β) :
    Told base val (upsert current k (val b)) (upsert writes k b) (drops.filter (·.1 ≠ k)) := by
  have hkeys : ∀ k', k' ∈ (drops.filter (·.1 ≠ k)).map (·.1) ↔ k' ≠ k ∧ k' ∈ drops.map (·.1) := by
    intro k'
    simp only [List.mem_map, List.mem_filter, decide_eq_true_eq]
    constructor
    · rintro ⟨e, ⟨he, hne⟩, rfl⟩
      exact ⟨hne, e, he, rfl⟩
    · rintro ⟨hne, e, he, rfl⟩
      exact ⟨e, ⟨he, hne⟩, rfl⟩
  refine ⟨nodup_upsert h.nodupCurrent k _, nodup_upsert h.nodupWrites k b, ?_, ?_⟩
  · intro k' hk'
    obtain ⟨hne, hk'⟩ := (hkeys k').mp hk'
    rw [get_upsert, if_neg (Ne.symm hne), h.dropped k' hk']
  · intro k' hk'
    rw [get_upsert, get_upsert]
    by_cases hne : k = k'
    · simp [hne]
    · rw [if_neg hne, if_neg hne]
      exact h.kept k' fun hd => hk' ((hkeys k').mpr ⟨Ne.symm hne, hd⟩)

/-- **A removal is noted, and earlier writes stay noted.** -/
theorem Told.drop (h : Told base val current writes drops) (k : κ) (d : δ) :
    Told base val (current.eraseP (·.1 = k)) writes (upsert drops k d) := by
  rw [eraseP_eq_filter h.nodupCurrent]
  have hkeys : ∀ k', k' ∈ (upsert drops k d).map (·.1) ↔ k' = k ∨ k' ∈ drops.map (·.1) := by
    intro k'
    rw [keys_upsert]
    split
    · next hk =>
      constructor
      · exact .inr
      · rintro (rfl | hk')
        · exact hk
        · exact hk'
    · simp [or_comm]
  refine ⟨?_, h.nodupWrites, ?_, ?_⟩
  · exact h.nodupCurrent.sublist ((List.filter_sublist (l := current)).map _)
  · intro k' hk'
    rw [get_filter_ne]
    split
    · rfl
    · next hne => exact h.dropped k' (((hkeys k').mp hk').resolve_left hne)
  · intro k' hk'
    have hne : k' ≠ k := fun he => hk' ((hkeys k').mpr (.inl he))
    rw [get_filter_ne, if_neg hne]
    exact h.kept k' fun hd => hk' ((hkeys k').mpr (.inr hd))

/-- **A copy told of the writes and then of the removals has the values**: `enc` is how a value is written in
    the copy, and `dec` how it is read there. -/
theorem Told.replay {γ : Type v} {copy : List (κ × γ)} {enc : κ → β → γ} {dec : γ → α}
    (h : Told base val current writes drops) (hbase : ∀ k, base k = (get copy k).map dec)
    (hval : ∀ k b, get writes k = some b → dec (enc k b) = val b) (k : κ) :
    (get (drops.foldl (fun s e => s.filter (·.1 ≠ e.1))
      (writes.foldl (fun s e => upsert s e.1 (enc e.1 e.2)) copy)) k).map dec = get current k := by
  rw [get_foldl_filter, get_foldl_upsert h.nodupWrites]
  split
  · next hk => rw [h.dropped k hk]; rfl
  · next hk =>
    rw [h.kept k hk, hbase]
    cases hw : get writes k with
    | none => rfl
    | some b => simp [hval k b hw]

end Told

end Lib.Assoc
