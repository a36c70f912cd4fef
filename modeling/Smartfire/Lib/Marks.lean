/-
  File:      Smartfire/Lib/Marks.lean
  Subject:   Marks put into a list, and the list's places found again behind them.

  A mark of `m` elements is put in at each of some rising positions. The mark at the `i`th position
  `p` then starts at `p + i * m`, so of a place behind it `m` has to be taken off for every mark in
  front, and how many stand in front is counted at shifted positions.

  * `marked`, `unmarked` -- putting the marks in, and taking out what stands in their places;
  * `Inside`, `marksBefore`, `unshift` -- a place strictly inside a mark, the count, the place in the list;
  * `marked_take`, `marked_drop` -- the main results: what is in front of a place is the marked list in
    front of its place, and so for what is behind;
  * `unshift_mono`, `stretch_eq` -- the order stays, and a stretch without a mark is the list's own.
-/
import Mathlib.Data.List.Sort
import Mathlib.Tactic.Common

namespace Lib

variable {α : Type*}

/-! ## 1. Putting in and taking out -/

/-- The list from a place on, with a mark at each position. -/
def marked (mark xs : List α) : Nat → List Nat → List α
  | cursor, [] => xs.drop cursor
  | cursor, p :: positions => (xs.drop cursor).take (p - cursor) ++ mark ++ marked mark xs p positions

/-- From a place on, what is left without the `m` elements that stand at each position. -/
def unmarked (m : Nat) : Nat → List Nat → List α → List α
  | _, [], text => text
  | cursor, p :: positions, text => text.take (p - cursor) ++ unmarked m p positions (text.drop (p - cursor + m))

/-- Positions from a place on that rise and are places of the list. -/
def Positions (n cursor : Nat) (positions : List Nat) : Prop :=
  positions.Pairwise (· < ·) ∧ ∀ p ∈ positions, cursor ≤ p ∧ p ≤ n

section Marked

variable {mark xs : List α} {n m cursor p s : Nat} {positions front back : List Nat}

theorem Positions.tail (h : Positions n cursor (p :: positions)) :
    cursor ≤ p ∧ p ≤ n ∧ Positions n p positions := by
  obtain ⟨hsorted, hin⟩ := h
  rw [List.pairwise_cons] at hsorted
  obtain ⟨hle, hn⟩ := hin p List.mem_cons_self
  exact ⟨hle, hn, hsorted.2, fun q hq => ⟨(hsorted.1 q hq).le, (hin q (List.mem_cons_of_mem p hq)).2⟩⟩

/-- Taken out again, the marks leave the list. -/
theorem unmarked_marked (h : Positions xs.length cursor positions) :
    unmarked mark.length cursor positions (marked mark xs cursor positions) = xs.drop cursor := by
  induction positions generalizing cursor with
  | nil => rfl
  | cons p positions ih =>
    obtain ⟨hle, hn, htail⟩ := h.tail
    have hlen : ((xs.drop cursor).take (p - cursor)).length = p - cursor := by
      rw [List.length_take, List.length_drop]
      omega
    have hboth : ((xs.drop cursor).take (p - cursor) ++ mark).length = p - cursor + mark.length := by
      rw [List.length_append, hlen]
    rw [marked, unmarked, List.drop_left' hboth, List.append_assoc, List.take_left' hlen, ih htail]
    calc (xs.drop cursor).take (p - cursor) ++ xs.drop p
        = (xs.drop cursor).take (p - cursor) ++ (xs.drop cursor).drop (p - cursor) := by
          rw [List.drop_drop, Nat.add_sub_cancel' hle]
      _ = xs.drop cursor := List.take_append_drop _ _

theorem length_marked (h : Positions xs.length cursor positions) (hcursor : cursor ≤ xs.length) :
    (marked mark xs cursor positions).length = xs.length - cursor + positions.length * mark.length := by
  induction positions generalizing cursor with
  | nil => simp [marked]
  | cons p positions ih =>
    obtain ⟨hle, hn, htail⟩ := h.tail
    rw [marked, List.length_append, List.length_append, ih htail hn, List.length_take, List.length_drop,
      List.length_cons, Nat.succ_mul]
    omega

/-- At its position, shifted by the marks in front, a mark stands. -/
theorem mark_at (mark : List α) (h : Positions xs.length cursor positions) {i : Nat} (hp : positions[i]? = some p) :
    ((marked mark xs cursor positions).drop (p - cursor + i * mark.length)).take mark.length = mark := by
  induction positions generalizing cursor i with
  | nil => simp at hp
  | cons q positions ih =>
    obtain ⟨hle, hn, htail⟩ := h.tail
    have hlen : ((xs.drop cursor).take (q - cursor)).length = q - cursor := by
      rw [List.length_take, List.length_drop]
      omega
    rw [marked]
    cases i with
    | zero =>
      cases hp
      rw [Nat.zero_mul, Nat.add_zero, List.append_assoc, List.drop_left' hlen, List.take_left]
    | succ i =>
      rw [List.getElem?_cons_succ] at hp
      obtain ⟨hqp, -⟩ := htail.2 p (List.mem_of_getElem? hp)
      have hboth : ((xs.drop cursor).take (q - cursor) ++ mark).length = q - cursor + mark.length := by
        rw [List.length_append, hlen]
      have hshift : p - cursor + (i + 1) * mark.length = q - cursor + mark.length + (p - q + i * mark.length) := by
        rw [Nat.succ_mul]
        omega
      rw [hshift, ← List.drop_drop, List.drop_left' hboth]
      exact ih htail hp

/-- The marks in front of a place stand in what is in front of it, the others behind. -/
theorem marked_split (mark : List α) (hfront : Positions s cursor front) (hback : Positions xs.length s back) (hcursor : cursor ≤ s) :
    marked mark xs cursor (front ++ back) = marked mark (xs.take s) cursor front ++ marked mark xs s back := by
  induction front generalizing cursor with
  | nil =>
    have hrest : (xs.take s).drop cursor = (xs.drop cursor).take (s - cursor) := by rw [List.drop_take]
    cases back with
    | nil =>
      rw [List.append_nil, marked, marked, marked, hrest]
      calc xs.drop cursor
          = (xs.drop cursor).take (s - cursor) ++ (xs.drop cursor).drop (s - cursor) := (List.take_append_drop _ _).symm
        _ = (xs.drop cursor).take (s - cursor) ++ xs.drop s := by rw [List.drop_drop, Nat.add_sub_cancel' hcursor]
    | cons p back =>
      obtain ⟨hle, hn, -⟩ := hback.tail
      have htake : (xs.drop cursor).take (p - cursor) =
          (xs.drop cursor).take (s - cursor) ++ (xs.drop s).take (p - s) := by
        rw [show p - cursor = (s - cursor) + (p - s) by omega, List.take_add, List.drop_drop,
          Nat.add_sub_cancel' hcursor]
      rw [List.nil_append, marked, marked, marked, hrest, htake, List.append_assoc, List.append_assoc,
        List.append_assoc]
  | cons p front ih =>
    obtain ⟨hle, hn, htail⟩ := hfront.tail
    rw [List.cons_append, marked, marked, ih htail hn, List.drop_take, List.take_take, Nat.min_eq_left (by omega),
      List.append_assoc, List.append_assoc, List.append_assoc]

end Marked

/-! ## 2. Places -/

/-- Whether a place is strictly inside a mark. -/
def Inside (m : Nat) (positions : List Nat) (place : Nat) : Prop :=
  ∃ i p, positions[i]? = some p ∧ p + i * m < place ∧ place < p + i * m + m

/-- How many marks start in front of a place, each position shifted by the marks counted before it. -/
def marksBefore (m : Nat) (positions : List Nat) (place : Nat) : Nat :=
  (positions.zipIdx.takeWhile fun q => q.1 + q.2 * m < place).length

/-- The place in the list of a place behind its marks. -/
def unshift (m : Nat) (positions : List Nat) (place : Nat) : Nat := place - marksBefore m positions place * m

section Places

variable {mark xs : List α} {n m place place' len : Nat} {positions : List Nat}

/-- The first elements of a list that meet a condition: each does, and the next one does not. -/
theorem takeWhile_length (f : α → Bool) (l : List α) :
    (∀ i < (l.takeWhile f).length, ∀ x, l[i]? = some x → f x = true) ∧
    ∀ x, l[(l.takeWhile f).length]? = some x → f x = false := by
  induction l with
  | nil => exact ⟨fun i hi => absurd hi (by simp), fun x hx => by simp at hx⟩
  | cons a l ih =>
    by_cases ha : f a = true
    · rw [List.takeWhile_cons_of_pos ha, List.length_cons]
      refine ⟨fun i hi x hx => ?_, fun x hx => ih.2 x (by simpa using hx)⟩
      cases i with
      | zero =>
        cases hx
        exact ha
      | succ i => exact ih.1 i (by omega) x (by simpa using hx)
    · rw [List.takeWhile_cons_of_neg ha]
      refine ⟨fun i hi => absurd hi (by simp), fun x hx => ?_⟩
      cases hx
      simpa using ha

theorem lt_of_marksBefore {i p : Nat} (hi : i < marksBefore m positions place) (hp : positions[i]? = some p) :
    p + i * m < place := by
  have h := (takeWhile_length (fun (q : Nat × Nat) => decide (q.1 + q.2 * m < place)) positions.zipIdx).1 i hi (p, i)
    (by simp [hp])
  simpa using h

theorem le_of_marksBefore {p : Nat} (hp : positions[marksBefore m positions place]? = some p) :
    place ≤ p + marksBefore m positions place * m := by
  have hget : positions.zipIdx[marksBefore m positions place]? = some (p, marksBefore m positions place) := by simp [hp]
  have h := (takeWhile_length (fun (q : Nat × Nat) => decide (q.1 + q.2 * m < place)) positions.zipIdx).2 _ hget
  simpa using h

theorem marksBefore_le (m : Nat) (positions : List Nat) (place : Nat) :
    marksBefore m positions place ≤ positions.length := by
  have h := (List.takeWhile_sublist (fun (q : Nat × Nat) => decide (q.1 + q.2 * m < place))
    (l := positions.zipIdx)).length_le
  rwa [List.length_zipIdx] at h

/-- A mark that starts in front of a place outside the marks is in front of it whole. -/
theorem add_le_of_marksBefore (hout : ¬ Inside m positions place) {i p : Nat} (hi : i < marksBefore m positions place)
    (hp : positions[i]? = some p) : p + (i + 1) * m ≤ place := by
  have hlt := lt_of_marksBefore hi hp
  rw [Nat.succ_mul]
  by_contra hcon
  exact hout ⟨i, p, hp, hlt, by omega⟩

/-- **No more is taken off than there is.** -/
theorem marksBefore_mul_le (hout : ¬ Inside m positions place) : marksBefore m positions place * m ≤ place := by
  obtain hzero | hpos := Nat.eq_zero_or_pos (marksBefore m positions place)
  · rw [hzero, Nat.zero_mul]
    exact Nat.zero_le _
  · have hle := marksBefore_le m positions place
    obtain ⟨i, hi⟩ : ∃ i, marksBefore m positions place = i + 1 := ⟨marksBefore m positions place - 1, by omega⟩
    have hget : positions[i]? = some positions[i] := List.getElem?_eq_getElem (by omega)
    have hadd := add_le_of_marksBefore hout (by omega) hget
    rw [hi]
    omega

theorem le_of_sorted (h : positions.Pairwise (· < ·)) {i j p q : Nat} (hp : positions[i]? = some p)
    (hq : positions[j]? = some q) (hij : i ≤ j) : p ≤ q := by
  obtain ⟨hi, rfl⟩ := List.getElem?_eq_some_iff.mp hp
  obtain ⟨hj, rfl⟩ := List.getElem?_eq_some_iff.mp hq
  obtain rfl | hlt := Nat.eq_or_lt_of_le hij
  · exact le_rfl
  · exact (List.pairwise_iff_getElem.mp h i j hi hj hlt).le

/-- The positions in front of a place are at most its place in the list, the others at least. -/
theorem positions_unshift (h : Positions n 0 positions) (hout : ¬ Inside m positions place)
    (hplace : place ≤ n + positions.length * m) :
    Positions (unshift m positions place) 0 (positions.take (marksBefore m positions place)) ∧
      Positions n (unshift m positions place) (positions.drop (marksBefore m positions place)) ∧
      unshift m positions place ≤ n := by
  obtain ⟨hsorted, hin⟩ := h
  have hcount := marksBefore_le m positions place
  have hfront : ∀ i p, i < marksBefore m positions place → positions[i]? = some p → p ≤ unshift m positions place := by
    intro i p hi hp
    obtain ⟨last, hlast⟩ : ∃ last, marksBefore m positions place = last + 1 :=
      ⟨marksBefore m positions place - 1, by omega⟩
    have hget : positions[last]? = some positions[last] := List.getElem?_eq_getElem (by omega)
    have hadd := add_le_of_marksBefore hout (by omega) hget
    have hle := le_of_sorted hsorted hp hget (by omega)
    rw [unshift, hlast]
    omega
  have hback : ∀ i p, marksBefore m positions place ≤ i → positions[i]? = some p → unshift m positions place ≤ p := by
    intro i p hi hp
    obtain ⟨hlt, -⟩ := List.getElem?_eq_some_iff.mp hp
    have hget : positions[marksBefore m positions place]? = some positions[marksBefore m positions place] :=
      List.getElem?_eq_getElem (by omega)
    have hle := le_of_marksBefore hget
    have hrest := le_of_sorted hsorted hget hp hi
    rw [unshift]
    omega
  refine ⟨⟨hsorted.sublist (List.take_sublist _ _), fun p hp => ⟨Nat.zero_le p, ?_⟩⟩,
    ⟨hsorted.sublist (List.drop_sublist _ _), fun p hp => ⟨?_, (hin p (List.mem_of_mem_drop hp)).2⟩⟩, ?_⟩
  · obtain ⟨i, hi, rfl⟩ := List.mem_take_iff_getElem.mp hp
    exact hfront i _ (by omega) (List.getElem?_eq_getElem (by omega))
  · obtain ⟨i, hi, rfl⟩ := List.mem_drop_iff_getElem.mp hp
    exact hback _ _ (by omega) (List.getElem?_eq_getElem (by omega))
  · by_cases hlast : marksBefore m positions place < positions.length
    · have hget : positions[marksBefore m positions place]? = some positions[marksBefore m positions place] :=
        List.getElem?_eq_getElem hlast
      exact (hback _ _ le_rfl hget).trans (hin _ (List.getElem_mem hlast)).2
    · have hall : marksBefore m positions place = positions.length := by omega
      rw [unshift, hall]
      omega

/-- **A place is split where it comes from**: in front of it stands what is in front of its place in the list,
    with the marks counted, and behind it what is behind that place, with the others. -/
theorem marked_at (h : Positions xs.length 0 positions) (hout : ¬ Inside mark.length positions place)
    (hplace : place ≤ (marked mark xs 0 positions).length) :
    (marked mark xs 0 positions).take place =
        marked mark (xs.take (unshift mark.length positions place)) 0
          (positions.take (marksBefore mark.length positions place)) ∧
      (marked mark xs 0 positions).drop place =
        marked mark xs (unshift mark.length positions place)
          (positions.drop (marksBefore mark.length positions place)) := by
  rw [length_marked h (Nat.zero_le _), Nat.sub_zero] at hplace
  obtain ⟨hfront, hback, hle⟩ := positions_unshift h hout hplace
  have hsplit := marked_split mark hfront hback (Nat.zero_le _)
  rw [List.take_append_drop] at hsplit
  have htake : (xs.take (unshift mark.length positions place)).length = unshift mark.length positions place := by
    rw [List.length_take, Nat.min_eq_left hle]
  have hlen : (marked mark (xs.take (unshift mark.length positions place)) 0
      (positions.take (marksBefore mark.length positions place))).length = place := by
    have hmul := marksBefore_mul_le hout
    rw [length_marked (by rwa [htake]) (Nat.zero_le _), htake, List.length_take,
      Nat.min_eq_left (marksBefore_le _ _ _), unshift]
    omega
  rw [hsplit, List.take_left' hlen, List.drop_left' hlen]
  exact ⟨rfl, rfl⟩

/-- **A place's own list**: without its marks, what is in front of the place is what is in front of where it
    comes from. -/
theorem unmarked_take (h : Positions xs.length 0 positions) (hout : ¬ Inside mark.length positions place)
    (hplace : place ≤ (marked mark xs 0 positions).length) :
    unshift mark.length positions place ≤ xs.length ∧
      unmarked mark.length 0 (positions.take (marksBefore mark.length positions place))
        ((marked mark xs 0 positions).take place) = xs.take (unshift mark.length positions place) := by
  have hlen := hplace
  rw [length_marked h (Nat.zero_le _), Nat.sub_zero] at hlen
  obtain ⟨hfront, -, hle⟩ := positions_unshift h hout hlen
  refine ⟨hle, ?_⟩
  rw [(marked_at h hout hplace).1, unmarked_marked (by rwa [List.length_take, Nat.min_eq_left hle]), List.drop_zero]

/-- **The order of places stays.** -/
theorem unshift_mono (h : positions.Pairwise (· < ·))
    (hout' : ¬ Inside m positions place') (hle : place ≤ place') :
    unshift m positions place ≤ unshift m positions place' := by
  have hcount := marksBefore_le m positions place
  have hcount' := marksBefore_le m positions place'
  have hget : ∀ i, i < positions.length → ∃ p, positions[i]? = some p := fun i hi => ⟨_, List.getElem?_eq_getElem hi⟩
  obtain hlt | heq | hgt := Nat.lt_trichotomy (marksBefore m positions place) (marksBefore m positions place')
  · -- the first mark behind the one place is in front of the other
    obtain ⟨p, hp⟩ := hget (marksBefore m positions place) (by omega)
    obtain ⟨q, hq⟩ := hget (marksBefore m positions place' - 1) (by omega)
    have hnext := le_of_marksBefore hp
    have hlast := add_le_of_marksBefore hout' (by omega) hq
    have hrise := le_of_sorted h hp hq (by omega)
    rw [Nat.sub_add_cancel (by omega)] at hlast
    rw [unshift, unshift]
    omega
  · rw [unshift, unshift, heq]
    omega
  · obtain ⟨p, hp⟩ := hget (marksBefore m positions place') (by omega)
    have hnext := le_of_marksBefore hp
    have hlast := lt_of_marksBefore hgt hp
    omega

/-- Whether a stretch holds no element of a mark. -/
def Clear (m : Nat) (positions : List Nat) (place len : Nat) : Prop :=
  ∀ i p, positions[i]? = some p → place + len ≤ p + i * m ∨ p + i * m + m ≤ place

theorem Clear.outside (h : Clear m positions place len) : ¬ Inside m positions place := by
  rintro ⟨i, p, hp, hlt, hgt⟩
  have := h i p hp
  omega

/-- **A stretch without a mark is the list's own.** -/
theorem stretch_eq (h : Positions xs.length 0 positions) (hmark : mark ≠ [])
    (hclear : Clear mark.length positions place len) (hplace : place ≤ (marked mark xs 0 positions).length) :
    ((marked mark xs 0 positions).drop place).take len = (xs.drop (unshift mark.length positions place)).take len := by
  have hpos := List.length_pos_iff.mpr hmark
  rw [(marked_at h hclear.outside hplace).2]
  cases hback : positions.drop (marksBefore mark.length positions place) with
  | nil => rfl
  | cons p back =>
    have hp : positions[marksBefore mark.length positions place]? = some p := by
      rw [← List.head?_drop, hback]
      rfl
    have hnext := le_of_marksBefore hp
    have hmul := marksBefore_mul_le hclear.outside
    have hlen : len ≤ p - unshift mark.length positions place := by
      rw [unshift]
      obtain hle | hle := hclear _ p hp <;> omega
    have hp' := (h.2 p (List.mem_of_getElem? hp)).2
    rw [marked, List.append_assoc, List.take_append_of_le_length, List.take_take, Nat.min_eq_left hlen]
    rw [List.length_take, List.length_drop]
    omega

end Places

end Lib
