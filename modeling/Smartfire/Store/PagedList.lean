/-
  File:      Smartfire/Store/PagedList.lean
  Subject:   Keyset-paged lists in the store (frontend/src/store/paged-list.ts).

  A live change takes an id out of the window and puts it back at its sorted place, unless that is
  past the last row of a window that more pages follow. The last row is read after the id was taken
  out: re-placing the last row itself compares it with the row before it, and drops it, though the
  next page starts after it and doesn't bring it back.

  * `PagedList`, `pagedWithout`, `pagedPlaced` -- the window and a live change of it;
  * `PlacedWell` -- what a change has to do;
  * `placedWell_iff` -- it does so exactly where the id is not the last row, kept after the one
    before it, and the window isn't empty of other rows.
-/
import Smartfire.Lib.Insert

namespace Smartfire

open Lib

/-! ## 1. The window -/

inductive LoadStatus where
  | idle
  | loading
  | ready
  | error
deriving DecidableEq, Repr

/-- The ids of the pages loaded so far, in the list's order. -/
structure PagedList where
  ids : List Nat
  /-- The cursor of the next page; none when the last page is loaded. -/
  nextCursor : Option String
  status : LoadStatus
  loadingMore : Bool
  error : Option String
  stale : Bool
  staleGeneration : Nat
  generation : Nat
  firstPageFailed : Bool
  firstPageLoading : Bool
  staleMark : Nat
deriving DecidableEq, Repr

def emptyPagedList : PagedList where
  ids := []
  nextCursor := none
  status := .idle
  loadingMore := false
  error := none
  stale := false
  staleGeneration := 0
  generation := 0
  firstPageFailed := false
  firstPageLoading := false
  staleMark := 0

/-- Negative where the left id comes first, positive where the right one does. -/
abbrev IdOrder := Nat → Nat → Int

/-- Drops the id; the same list when it wasn't there. -/
def pagedWithout (list : PagedList) (id : Nat) : PagedList :=
  if id ∈ list.ids then { list with ids := list.ids.filter (· ≠ id) } else list

/-- Whether the id sorts past the last of these rows, and more pages follow. -/
def pastLast (nextCursor : Option String) (others : List Nat) (id : Nat) (order : IdOrder) : Bool :=
  match nextCursor, others.getLast? with
  | some _, some last => order id last > 0
  | _, _ => false

/-- Places the id after a live change. -/
def pagedPlaced (list : PagedList) (id : Nat) (belongs : Bool) (order : IdOrder) : PagedList :=
  let without := pagedWithout list id
  if belongs = false ∨ list.status ≠ .ready then without
  else
    let others := without.ids
    if pastLast list.nextCursor others id order then without
    else
      let ids := insertBefore (fun held => order id held < 0) id others
      if ids = list.ids then list else { list with ids := ids }

/-! ## 2. What is claimed -/

universe u

variable {K : Type u} [LinearOrder K]

/-- The order sorts these ids by a key, which tells them apart. -/
structure Sorts (order : IdOrder) (key : Nat → K) (members : List Nat) : Prop where
  first : ∀ a ∈ members, ∀ b ∈ members, order a b < 0 ↔ key a < key b
  second : ∀ a ∈ members, ∀ b ∈ members, order a b > 0 ↔ key b < key a
  distinct : ∀ a ∈ members, ∀ b ∈ members, key a = key b → a = b

/-- A window before a change of `id`, whose key becomes `key id`. -/
structure Window (list : PagedList) (id : Nat) (before key : Nat → K) (order : IdOrder) : Prop where
  ready : list.status = .ready
  sorted : list.ids.Pairwise fun a b => before a < before b
  others : ∀ a ∈ list.ids, a ≠ id → before a = key a
  sorts : Sorts order key (id :: list.ids)

/-- The loaded pages are all, or cover the place of the id: it was in the window and lies no later
    than the last row did, or it sorts before the last row. -/
def InWindow (list : PagedList) (id : Nat) (before key : Nat → K) : Prop :=
  list.nextCursor = none ∨ (id ∈ list.ids ∧ ∃ last, list.ids.getLast? = some last ∧ key id ≤ before last) ∨
    ∃ last, list.ids.getLast? = some last ∧ key id < before last

/-- **A live change never loses a row.** -/
structure PlacedWell (list placed : PagedList) (id : Nat) (belongs : Bool) (before key : Nat → K) : Prop where
  sorted : placed.ids.Pairwise fun a b => key a < key b
  others : placed.ids.filter (· ≠ id) = list.ids.filter (· ≠ id)
  member : id ∈ placed.ids ↔ belongs = true ∧ InWindow list id before key
  unchanged : belongs = true → id ∈ list.ids → key id = before id → placed = list
  frame : placed = { list with ids := placed.ids }

/-- The id is the last of several rows, and its key still lies after that of the row before it. -/
def KeptLast (list : PagedList) (id : Nat) (before key : Nat → K) : Prop :=
  ∃ rows previous, list.ids = rows ++ [previous, id] ∧ before previous < key id ∧ key id ≤ before id

/-- No row but the id's is left, and the window doesn't cover its place. -/
def Emptied (list : PagedList) (id : Nat) (before key : Nat → K) : Prop :=
  list.ids = [] ∨ list.ids = [id] ∧ before id < key id

/-! ## 3. What a placement does -/

/-- Whether the id is put back: no page follows, or it isn't past the last of the other rows. -/
def takes (list : PagedList) (id : Nat) (order : IdOrder) : Prop :=
  list.nextCursor = none ∨ ∀ last, (list.ids.filter (· ≠ id)).getLast? = some last → order id last ≤ 0

variable {list : PagedList} {id : Nat} {belongs : Bool} {order : IdOrder} {before key : Nat → K}

theorem pagedWithout_eq (list : PagedList) (id : Nat) :
    pagedWithout list id = { list with ids := list.ids.filter (· ≠ id) } := by
  unfold pagedWithout
  split
  · rfl
  · next h =>
    have hall : list.ids.filter (· ≠ id) = list.ids :=
      List.filter_eq_self.mpr fun a ha => by simpa using fun heq : a = id => h (heq ▸ ha)
    rw [hall]

theorem pastLast_eq_false :
    pastLast list.nextCursor (list.ids.filter (· ≠ id)) id order = false ↔ takes list id order := by
  unfold pastLast takes
  cases list.nextCursor with
  | none => simp
  | some cursor =>
    cases (list.ids.filter (· ≠ id)).getLast? with
    | none => simp
    | some last => simp

/-- **What a placement does**: the other rows stay, and the id is put among them or left out. -/
theorem pagedPlaced_eq (hr : list.status = .ready) (id : Nat) (belongs : Bool) (order : IdOrder) :
    (belongs = true ∧ takes list id order ∧ pagedPlaced list id belongs order =
      { list with
        ids := insertBefore (fun held => order id held < 0) id (list.ids.filter (· ≠ id)) }) ∨
    (¬ (belongs = true ∧ takes list id order) ∧ pagedPlaced list id belongs order =
      { list with ids := list.ids.filter (· ≠ id) }) := by
  unfold pagedPlaced
  rw [pagedWithout_eq]
  dsimp only
  cases belongs with
  | false => exact .inr ⟨fun h => Bool.false_ne_true h.1, if_pos (.inl rfl)⟩
  | true =>
    rw [if_neg (by simp [hr])]
    have htakes : pastLast list.nextCursor (list.ids.filter (· ≠ id)) id order = false ↔ takes list id order :=
      pastLast_eq_false
    split
    · next hlater =>
      refine .inr ⟨fun h => ?_, rfl⟩
      rw [htakes.mpr h.2] at hlater
      exact Bool.false_ne_true hlater
    · next hlater =>
      refine .inl ⟨rfl, htakes.mp (eq_false_of_ne_true hlater), ?_⟩
      split
      · next heq => rw [heq]
      · rfl

/-! ## 4. Exactly when it does so well -/

theorem Sorts.nonpos_iff {members : List Nat} (h : Sorts order key members) {a b : Nat} (ha : a ∈ members)
    (hb : b ∈ members) (hne : a ≠ b) : order a b ≤ 0 ↔ key a < key b := by
  have hsecond := h.second a ha b hb
  constructor
  · intro hle
    have hnot : ¬ key b < key a := fun hlt => by
      have := hsecond.mpr hlt
      omega
    exact lt_of_le_of_ne (not_lt.mp hnot) fun heq => hne (h.distinct a ha b hb heq)
  · intro hlt
    by_contra hpos
    exact lt_asymm hlt (hsecond.mp (by omega))

theorem Window.pairwise_others (h : Window list id before key order) :
    (list.ids.filter (· ≠ id)).Pairwise fun a b => key a < key b := by
  refine List.Pairwise.imp_of_mem (fun ha hb hab => ?_) (h.sorted.filter _)
  obtain ⟨hina, hnea⟩ := List.mem_filter.mp ha
  obtain ⟨hinb, hneb⟩ := List.mem_filter.mp hb
  rw [← h.others _ hina (by simpa using hnea), ← h.others _ hinb (by simpa using hneb)]
  exact hab

theorem Window.mem_others (h : Window list id before key order) {a : Nat}
    (ha : a ∈ list.ids.filter (· ≠ id)) : a ∈ id :: list.ids ∧ a ≠ id ∧ key a ≠ key id := by
  obtain ⟨hin, hne⟩ := List.mem_filter.mp ha
  have hne' : a ≠ id := by simpa using hne
  exact ⟨List.mem_cons_of_mem _ hin, hne', fun heq =>
    hne' (h.sorts.distinct a (List.mem_cons_of_mem _ hin) id (List.mem_cons_self ..) heq)⟩

/-- **Whatever it does with the id**, the window stays sorted and the other rows stay. -/
theorem Window.placed (h : Window list id before key order) (belongs : Bool) :
    ((pagedPlaced list id belongs order).ids.Pairwise fun a b => key a < key b) ∧
      (pagedPlaced list id belongs order).ids.filter (· ≠ id) = list.ids.filter (· ≠ id) ∧
      (id ∈ (pagedPlaced list id belongs order).ids ↔ belongs = true ∧ takes list id order) ∧
      pagedPlaced list id belongs order =
        { list with ids := (pagedPlaced list id belongs order).ids } := by
  have hself : (list.ids.filter (· ≠ id)).filter (· ≠ id) = list.ids.filter (· ≠ id) := by
    rw [List.filter_filter]
    simp
  rcases pagedPlaced_eq h.ready id belongs order with ⟨hb, ht, heq⟩ | ⟨hout, heq⟩
  · rw [heq]
    refine ⟨pairwise_insertBefore h.pairwise_others (fun a ha => ?_) fun a ha => (h.mem_others ha).2.2,
      ?_, ?_, rfl⟩
    · rw [decide_eq_true_iff]
      exact h.sorts.first id (List.mem_cons_self ..) a (h.mem_others ha).1
    · rw [filter_insertBefore (by simp), hself]
    · simp [hb, ht]
  · rw [heq]
    refine ⟨h.pairwise_others, hself, ?_, rfl⟩
    exact ⟨fun hin => absurd rfl (h.mem_others hin).2.1, fun hin => absurd hin hout⟩

/-- The last row is the greatest. -/
theorem Window.le_last (h : Window list id before key order) {a last : Nat} (ha : a ∈ list.ids)
    (hlast : list.ids.getLast? = some last) : before a ≤ before last := by
  obtain ⟨rows, hrows⟩ := List.getLast?_eq_some_iff.mp hlast
  rw [hrows] at ha
  have hs := h.sorted
  rw [hrows] at hs
  rcases List.mem_append.mp ha with hin | hin
  · exact le_of_lt ((List.pairwise_append.mp hs).2.2 a hin last (List.mem_singleton.mpr rfl))
  · rw [List.mem_singleton.mp hin]

/-- An id placed under its old key is covered. -/
theorem Window.covers_self (h : Window list id before key order) (hin : id ∈ list.ids)
    (hkey : key id = before id) : InWindow list id before key := by
  cases hlast : list.ids.getLast? with
  | none => rw [List.getLast?_eq_none_iff.mp hlast] at hin; cases hin
  | some last => exact .inr (.inl ⟨hin, last, hlast, hkey ▸ h.le_last hin hlast⟩)

/-- **It does well if it keeps the id exactly where that is covered.** -/
theorem Window.placedWell_iff_member (h : Window list id before key order) (belongs : Bool) :
    PlacedWell list (pagedPlaced list id belongs order) id belongs before key ↔
      (belongs = true → (takes list id order ↔ InWindow list id before key)) := by
  obtain ⟨hsorted, hothers, hmember, hframe⟩ := h.placed belongs
  constructor
  · intro hp hb
    have := hmember.symm.trans hp.member
    simpa [hb] using this
  · intro hiff
    have hmember' : id ∈ (pagedPlaced list id belongs order).ids ↔
        belongs = true ∧ InWindow list id before key :=
      hmember.trans (and_congr_right hiff)
    refine ⟨hsorted, hothers, hmember', fun hb hin hkey => ?_, hframe⟩
    have hheld : id ∈ (pagedPlaced list id belongs order).ids :=
      hmember'.mpr ⟨hb, h.covers_self hin hkey⟩
    have hkeys : ∀ a ∈ list.ids, before a = key a := fun a ha => by
      by_cases hne : a = id
      · rw [hne, hkey]
      · exact h.others a ha hne
    have hsorted' : list.ids.Pairwise fun a b => key a < key b :=
      h.sorted.imp_of_mem fun ha hb hab => by rw [← hkeys _ ha, ← hkeys _ hb]; exact hab
    have hids : (pagedPlaced list id belongs order).ids = list.ids := by
      refine eq_of_sorted hsorted hsorted' fun a => ?_
      by_cases hne : a = id
      · rw [hne]
        exact ⟨fun _ => hin, fun _ => hheld⟩
      · have hmem : a ∈ (pagedPlaced list id belongs order).ids.filter (· ≠ id) ↔
            a ∈ list.ids.filter (· ≠ id) := by rw [hothers]
        simpa [hne] using hmem
    rw [hframe, hids]

/-- Between a window whose last row is another and its next page nothing is lost. -/
theorem Window.takes_iff_of_last (h : Window list id before key order) {last : Nat}
    (hlast : list.ids.getLast? = some last) (hne : last ≠ id) :
    takes list id order ↔ InWindow list id before key := by
  obtain ⟨rows, hrows⟩ := List.getLast?_eq_some_iff.mp hlast
  have hin : last ∈ list.ids := by simp [hrows]
  have hothers : (list.ids.filter (· ≠ id)).getLast? = some last := by
    simp [hrows, List.filter_append, hne]
  have hkey : before last = key last := h.others last hin hne
  have hlt : order id last ≤ 0 ↔ key id < key last :=
    h.sorts.nonpos_iff (List.mem_cons_self ..) (List.mem_cons_of_mem _ hin) (Ne.symm hne)
  unfold takes InWindow
  rw [hothers, hlast]
  simp only [Option.some.injEq, forall_eq', exists_eq_left', hkey, hlt]
  refine or_congr_right ⟨.inr, ?_⟩
  rintro (⟨hid, hle⟩ | hlt)
  · refine lt_of_le_of_ne hle fun heq => ?_
    exact hne (h.sorts.distinct id (List.mem_cons_self ..) last (List.mem_cons_of_mem _ hin) heq).symm
  · exact hlt

/-- A window whose last row is the id itself. -/
theorem Window.takes_iff_of_self (h : Window list id before key order) {rows : List Nat}
    (hrows : list.ids = rows ++ [id]) (hmore : list.nextCursor ≠ none) :
    (takes list id order ↔ ∀ previous, rows.getLast? = some previous → key id < before previous) ∧
      (InWindow list id before key ↔ key id ≤ before id) := by
  have hin : id ∈ list.ids := by simp [hrows]
  have hlast : list.ids.getLast? = some id := by simp [hrows]
  have hnot : ∀ a ∈ rows, a ≠ id := fun a ha heq => by
    have hs := h.sorted
    rw [hrows] at hs
    have := (List.pairwise_append.mp hs).2.2 a ha id (List.mem_singleton.mpr rfl)
    rw [heq] at this
    exact lt_irrefl _ this
  have hothers : list.ids.filter (· ≠ id) = rows := by
    rw [hrows, List.filter_append, List.filter_eq_self.mpr fun a ha => by simpa using hnot a ha]
    simp
  constructor
  · unfold takes
    rw [hothers]
    refine (or_iff_right hmore).trans (forall₂_congr fun previous hprevious => ?_)
    have hmem : previous ∈ rows := List.mem_of_getLast? hprevious
    have hids : previous ∈ list.ids := by simp [hrows, hmem]
    rw [h.others previous hids (hnot previous hmem)]
    exact h.sorts.nonpos_iff (List.mem_cons_self ..) (List.mem_cons_of_mem _ hids) (hnot previous hmem).symm
  · unfold InWindow
    rw [hlast]
    simp only [Option.some.injEq, exists_eq_left', hin, true_and]
    exact ⟨fun hc => hc.elim (fun hn => absurd hn hmore) fun hc => hc.elim (fun hle => hle) le_of_lt,
      fun hle => .inr (.inl hle)⟩

/-- **A placement does well, exactly** unless the id belongs, more pages follow, and it is the last
    row, kept after the one before it, or its place lies outside a window of no other row. -/
theorem placedWell_iff (h : Window list id before key order) (belongs : Bool) :
    PlacedWell list (pagedPlaced list id belongs order) id belongs before key ↔
      ¬ (belongs = true ∧ list.nextCursor ≠ none ∧
        (KeptLast list id before key ∨ Emptied list id before key)) := by
  rw [h.placedWell_iff_member, not_and]
  refine forall_congr' fun _ => ?_
  by_cases hmore : list.nextCursor = none
  · simp [takes, InWindow, hmore]
  · rcases List.eq_nil_or_concat' list.ids with hnil | ⟨rows, last, hrows⟩
    · have htakes : takes list id order := .inr (by simp [hnil])
      have hcovers : ¬ InWindow list id before key := by simp [InWindow, hnil, hmore]
      simp [htakes, hcovers, hmore, Emptied, hnil]
    · have hlast : list.ids.getLast? = some last := by simp [hrows]
      by_cases hne : last = id
      · rw [hne] at hrows
        obtain ⟨htakes, hcovers⟩ := h.takes_iff_of_self hrows hmore
        rw [htakes, hcovers]
        rcases List.eq_nil_or_concat' rows with hrow | ⟨rows', previous, hrow⟩
        · have hlone : list.ids = [id] := by rw [hrows, hrow]; rfl
          have hkept : ¬ KeptLast list id before key := by
            rintro ⟨rows', previous, heq, -⟩
            rw [hlone] at heq
            have := congrArg List.length heq
            simp at this
          simp [hrow, hmore, hkept, Emptied, hlone]
        · have hprevious : before previous < before id := by
            have hs := h.sorted
            rw [hrows] at hs
            exact (List.pairwise_append.mp hs).2.2 previous (by simp [hrow]) id (List.mem_singleton.mpr rfl)
          have hkept : KeptLast list id before key ↔ before previous < key id ∧ key id ≤ before id := by
            constructor
            · rintro ⟨rows'', previous', heq, hlt, hle⟩
              have hsame : rows' ++ [previous, id] = rows'' ++ [previous', id] := by
                rw [← heq, hrows, hrow]
                simp
              have : previous = previous' := by
                have := (List.append_inj' hsame rfl).2
                simpa using this
              exact ⟨this ▸ hlt, hle⟩
            · exact fun ⟨hlt, hle⟩ => ⟨rows', previous, by rw [hrows, hrow]; simp, hlt, hle⟩
          have hemptied : ¬ Emptied list id before key := by
            rintro (hnil | ⟨hone, -⟩)
            · simp [hrows] at hnil
            · rw [hrows, hrow] at hone
              have := congrArg List.length hone
              simp at this
          have hkey : key id ≠ before previous := fun heq => by
            have hid : previous ≠ id := fun hid => by rw [hid] at hprevious; exact lt_irrefl _ hprevious
            have hin : previous ∈ list.ids := by simp [hrows, hrow]
            rw [h.others previous hin hid] at heq
            exact hid (h.sorts.distinct id (List.mem_cons_self ..) previous (List.mem_cons_of_mem _ hin) heq).symm
          rw [hkept]
          simp only [hrow, List.getLast?_concat, Option.some.injEq, forall_eq', hmore, ne_eq,
            not_false_eq_true, true_and, hemptied, or_false, not_and, not_le]
          constructor
          · exact fun hiff hlt => by
              by_contra hle
              exact lt_asymm hlt (hiff.mpr (not_lt.mp hle))
          · intro hout
            constructor
            · exact fun hlt => le_of_lt (hlt.trans hprevious)
            · intro hle
              by_contra hlt
              have hlt' : before previous < key id := lt_of_le_of_ne (not_lt.mp hlt) hkey.symm
              exact absurd (hout hlt') (not_lt.mpr hle)
      · have hkept : ¬ KeptLast list id before key := by
          rintro ⟨rows', previous, heq, -⟩
          rw [heq] at hlast
          simp at hlast
          exact hne hlast.symm
        have hemptied : ¬ Emptied list id before key := by
          rintro (hnil | ⟨hone, -⟩)
          · simp [hnil] at hlast
          · rw [hone] at hlast
            simp at hlast
            exact hne hlast.symm
        simp [h.takes_iff_of_last hlast hne, hkept, hemptied]

/-- A window of these ids, in the order of ids, that more pages follow. -/
def pageOf (ids : List Nat) : PagedList :=
  { emptyPagedList with ids := ids, nextCursor := some "c", status := .ready }

theorem pageOf_ok {ids : List Nat} (hs : ids.Pairwise fun a b => a < b) (id : Nat) :
    Window (pageOf ids) id (fun a => a) (fun a => a) fun a b => a - b := by
  refine ⟨rfl, hs, fun _ _ _ => rfl, ?_, ?_, fun _ _ _ _ h => h⟩
  · intro a _ b _
    omega
  · intro a _ b _
    omega

/-- The middle one of three rows is placed where it was. -/
theorem placedWell_iff_sample :
    PlacedWell (pageOf [1, 2, 3]) (pagedPlaced (pageOf [1, 2, 3]) 2 true fun a b => a - b) 2 true
      (fun a => a) (fun a => a) := by
  refine (placedWell_iff (pageOf_ok (by decide) 2) true).mpr ?_
  rintro ⟨-, -, ⟨rows, previous, heq, -⟩ | hnil | ⟨hone, -⟩⟩
  · have := congrArg List.getLast? heq
    simp [pageOf] at this
  · cases hnil
  · cases hone

/-- **The last row of a window that more pages follow is dropped** when it is placed where it was. -/
theorem pagedPlaced_drops_last :
    Window (pageOf [1, 2]) 2 (fun a => a) (fun a => a) (fun a b => a - b) ∧
      (pagedPlaced (pageOf [1, 2]) 2 true fun a b => a - b).ids = [1] ∧
      ¬ PlacedWell (pageOf [1, 2]) (pagedPlaced (pageOf [1, 2]) 2 true fun a b => a - b) 2 true
        (fun a => a) (fun a => a) := by
  have hids : (pagedPlaced (pageOf [1, 2]) 2 true fun a b => a - b).ids = [1] := by decide
  refine ⟨pageOf_ok (by decide) 2, hids, fun h => ?_⟩
  have hsame := h.unchanged rfl (by decide) rfl
  rw [hsame] at hids
  cases hids

end Smartfire
