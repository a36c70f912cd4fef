/-
  File:      Smartfire/Kit/MultipartScan.lean
  Subject:   The scan of a whole multipart body, by places.

  * `firstBoundary`, `findBoundary_eq` -- a delimiter by its place alone;
  * `afterOpening`, `scan` -- the scan; of the buffers it knows where they end.
-/
import Smartfire.Kit.Multipart

namespace Smartfire.Spooled

open Lib

/-! ## 1. Delimiters by their places -/

/-- Whether a delimiter stands in front, and whether it closes. -/
def delimiter (marker s : Bytes) : Option Bool :=
  if (marker ++ text "--").isPrefixOf s then some true
  else if (marker ++ crlf).isPrefixOf s then some false
  else none

/-- A place counted from further in front. -/
def later (j : Nat) (found : Nat × Bool) : Nat × Bool := (found.1 + j, found.2)

/-- Where the first delimiter ends, and whether it closes. -/
def firstBoundary (marker : Bytes) : Bytes → Option (Nat × Bool)
  | [] => none
  | b :: s =>
    match delimiter marker (b :: s) with
    | some closing => some (marker.length + 2, closing)
    | none => (firstBoundary marker s).map (later 1)

section Places

variable {marker x y s : Bytes} {e n : Nat} {closing : Bool}

theorem delimiter_append (h : marker.length + 2 ≤ x.length) (y : Bytes) :
    delimiter marker (x ++ y) = delimiter marker x := by
  have hdashes : (marker ++ text "--").length ≤ x.length := by simpa [text] using h
  have hcrlf : (marker ++ crlf).length ≤ x.length := by simpa [crlf] using h
  rw [delimiter, delimiter, isPrefixOf_append hdashes, isPrefixOf_append hcrlf]

theorem delimiter_short (h : s.length < marker.length + 2) : delimiter marker s = none := by
  have hno : ∀ behind : Bytes, behind.length = 2 → (marker ++ behind).isPrefixOf s = false := by
    intro behind hlen
    rw [Bool.eq_false_iff]
    intro hprefix
    have hle := (List.isPrefixOf_iff_prefix.mp hprefix).length_le
    rw [List.length_append] at hle
    omega
  rw [delimiter, hno _ rfl, hno _ rfl]
  rfl

theorem delimiter_of_not_prefix (h : ¬ marker.isPrefixOf s = true) : delimiter marker s = none := by
  have hno : ∀ behind : Bytes, (marker ++ behind).isPrefixOf s = false := by
    intro behind
    rw [Bool.eq_false_iff]
    intro hprefix
    exact h (List.isPrefixOf_iff_prefix.mpr ((List.prefix_append marker behind).trans
      (List.isPrefixOf_iff_prefix.mp hprefix)))
  rw [delimiter, hno, hno]
  rfl

theorem firstBoundary_cons (b : UInt8) (s : Bytes) : firstBoundary marker (b :: s) =
    match delimiter marker (b :: s) with
    | some closing => some (marker.length + 2, closing)
    | none => (firstBoundary marker s).map (later 1) := rfl

theorem firstBoundary_bounds (h : firstBoundary marker s = some (e, closing)) :
    marker.length + 2 ≤ e ∧ e ≤ s.length := by
  induction s generalizing e closing with
  | nil => cases h
  | cons b s ih =>
    rw [firstBoundary_cons] at h
    cases hfront : delimiter marker (b :: s) with
    | some c =>
      rw [hfront] at h
      obtain ⟨rfl, rfl⟩ := Prod.mk.inj (Option.some.inj h)
      refine ⟨Nat.le_refl _, ?_⟩
      by_contra hlong
      rw [delimiter_short (by omega)] at hfront
      cases hfront
    | none =>
      rw [hfront] at h
      obtain ⟨⟨e', c⟩, hrest, hmap⟩ := Option.map_eq_some_iff.mp h
      obtain ⟨rfl, rfl⟩ := Prod.mk.inj hmap
      have hbounds := ih hrest
      simp only [List.length_cons]
      omega

/-- What is found is found in a longer text. -/
theorem firstBoundary_append (h : firstBoundary marker x = some (e, closing)) (y : Bytes) :
    firstBoundary marker (x ++ y) = some (e, closing) := by
  induction x generalizing e closing with
  | nil => cases h
  | cons b x ih =>
    have hbounds := firstBoundary_bounds h
    rw [List.cons_append, firstBoundary_cons, ← List.cons_append, delimiter_append (by omega)]
    rw [firstBoundary_cons] at h
    cases hfront : delimiter marker (b :: x) with
    | some c =>
      rw [hfront] at h
      exact h
    | none =>
      rw [hfront] at h
      obtain ⟨⟨e', c⟩, hrest, hmap⟩ := Option.map_eq_some_iff.mp h
      simp only [ih hrest, Option.map_some, hmap]

/-- What is found is found in as much of the text as holds it. -/
theorem firstBoundary_take (h : firstBoundary marker s = some (e, closing)) (hle : e ≤ n) :
    firstBoundary marker (s.take n) = some (e, closing) := by
  induction s generalizing e n closing with
  | nil => cases h
  | cons b s ih =>
    have hbounds := firstBoundary_bounds h
    obtain ⟨n, rfl⟩ : ∃ j, n = j + 1 := ⟨n - 1, by omega⟩
    have hsame : delimiter marker (b :: s) = delimiter marker ((b :: s).take (n + 1)) := by
      have hfits : marker.length + 2 ≤ ((b :: s).take (n + 1)).length := by
        rw [List.length_take]
        omega
      have happend := delimiter_append hfits ((b :: s).drop (n + 1))
      rwa [List.take_append_drop] at happend
    rw [List.take_succ_cons, firstBoundary_cons, ← List.take_succ_cons, ← hsame]
    rw [firstBoundary_cons] at h
    cases hfront : delimiter marker (b :: s) with
    | some c =>
      rw [hfront] at h
      exact h
    | none =>
      rw [hfront] at h
      obtain ⟨⟨e', c⟩, hrest, hmap⟩ := Option.map_eq_some_iff.mp h
      obtain ⟨rfl, rfl⟩ := Prod.mk.inj hmap
      have hfewer := ih hrest (show e' ≤ n by omega)
      simp only [hfewer, Option.map_some, later]

/-- **Where nothing was found, all but as many bytes as a delimiter may have more can be let go.** -/
theorem firstBoundary_skip (h : firstBoundary marker x = none) {j : Nat} (hj : j + marker.length + 1 ≤ x.length)
    (y : Bytes) : firstBoundary marker (x ++ y) = (firstBoundary marker (x.drop j ++ y)).map (later j) := by
  induction j generalizing x with
  | zero =>
    have hlater : later 0 = id := rfl
    rw [List.drop_zero, hlater, Option.map_id_apply]
  | succ j ih =>
    cases x with
    | nil => simp at hj
    | cons b x =>
      rw [List.length_cons] at hj
      rw [firstBoundary_cons] at h
      cases hfront : delimiter marker (b :: x) with
      | some c =>
        rw [hfront] at h
        cases h
      | none =>
        rw [hfront] at h
        have hrest := Option.map_eq_none_iff.mp h
        have hlong : delimiter marker (b :: x ++ y) = none := by
          rw [delimiter_append (by rw [List.length_cons]; omega), hfront]
        rw [List.cons_append] at hlong
        rw [List.cons_append, firstBoundary_cons, hlong, List.drop_succ_cons]
        simp only [ih hrest (by omega), Option.map_map]
        congr 1

theorem later_later (j k : Nat) : later j ∘ later k = later (k + j) := by
  funext found
  simp only [Function.comp_apply, later, Nat.add_assoc]

/-- Nothing is a delimiter before the marker's first place. -/
theorem firstBoundary_findText {i : Nat} (h : findText marker s = some i) :
    firstBoundary marker s = (firstBoundary marker (s.drop i)).map (later i) := by
  induction s generalizing i with
  | nil =>
    rw [List.drop_nil]
    rfl
  | cons b s ih =>
    rw [findText] at h
    split at h
    · obtain rfl := Option.some.inj h
      exact (Option.map_id_apply).symm
    · next hno =>
      obtain ⟨i, hi, rfl⟩ := Option.map_eq_some_iff.mp h
      rw [firstBoundary_cons, delimiter_of_not_prefix hno, List.drop_succ_cons]
      simp only [ih hi, Option.map_map, later_later]

theorem firstBoundary_of_findText_none (h : findText marker s = none) : firstBoundary marker s = none := by
  induction s with
  | nil => rfl
  | cons b s ih =>
    rw [findText] at h
    split at h
    · cases h
    · next hno =>
      rw [firstBoundary_cons, delimiter_of_not_prefix hno]
      simp only [ih (Option.map_eq_none_iff.mp h), Option.map_none]

/-- Nothing is a delimiter before the byte it starts with. -/
theorem firstBoundary_behind {b : UInt8} {rest : Bytes} (h : b ∉ x) :
    firstBoundary (b :: rest) (x ++ y) = (firstBoundary (b :: rest) y).map (later x.length) := by
  induction x with
  | nil => exact (Option.map_id_apply).symm
  | cons c x ih =>
    rw [List.mem_cons, not_or] at h
    have hno : ¬ (b :: rest).isPrefixOf (c :: (x ++ y)) = true := by
      rw [List.isPrefixOf_cons_cons, beq_eq_false_iff_ne.mpr h.1, Bool.false_and]
      decide
    rw [List.cons_append, firstBoundary_cons, delimiter_of_not_prefix hno]
    simp only [ih h.2, Option.map_map, later_later, List.length_cons]

/-- A marker in front is a delimiter or is passed over whole. -/
theorem firstBoundary_marker {b : UInt8} {rest tail : Bytes} (h : b ∉ rest) :
    firstBoundary (b :: rest) (b :: rest ++ tail) =
      match delimiter (b :: rest) (b :: rest ++ tail) with
      | some closing => some ((b :: rest).length + 2, closing)
      | none => (firstBoundary (b :: rest) tail).map (later (b :: rest).length) := by
  rw [List.cons_append, firstBoundary_cons]
  cases delimiter (b :: rest) (b :: (rest ++ tail)) with
  | some closing => rfl
  | none => simp only [firstBoundary_behind h, Option.map_map, later_later, List.length_cons]

theorem delimiter_two {marker : Bytes} (b c : UInt8) (rest : Bytes) : delimiter marker (marker ++ b :: c :: rest) =
    if [b, c] = text "--" then some true else if [b, c] = crlf then some false else none := by
  have hprefix : ∀ behind : Bytes, behind.length = 2 →
      ((marker ++ behind).isPrefixOf (marker ++ b :: c :: rest) = true ↔ [b, c] = behind) := by
    intro behind hlen
    obtain ⟨b', c', rfl⟩ : ∃ b' c', behind = [b', c'] := by
      rcases behind with _ | ⟨b', _ | ⟨c', _ | ⟨d, behind⟩⟩⟩ <;> simp_all
    rw [List.isPrefixOf_iff_prefix, List.prefix_append_right_inj]
    simp [eq_comm]
  simp only [delimiter, hprefix _ (rfl : (text "--").length = 2), hprefix _ (rfl : crlf.length = 2)]

/-- **A delimiter is found at its first place**, where only its first byte starts it. -/
theorem findBoundary_eq {marker : Marker} {b : UInt8} {rest : Bytes} (hmarker : marker.bytes = b :: rest) (h : b ∉ rest)
    (s : Bytes) : findBoundary marker s = firstBoundary marker.bytes s := by
  have hpassed : ∀ {index : Nat} {s : Bytes}, findText marker.bytes s = some index →
      firstBoundary marker.bytes s =
        (match delimiter marker.bytes (marker.bytes ++ s.drop (index + marker.length)) with
        | some closing => some (marker.length + 2, closing)
        | none => (firstBoundary marker.bytes (s.drop (index + marker.length))).map (later marker.length)).map
          (later index) := by
    intro index s hindex
    obtain ⟨x, y, rfl, rfl⟩ := findText_spec hindex
    rw [firstBoundary_findText hindex, List.append_assoc, List.drop_left, Marker.length, ← List.length_append,
      ← List.append_assoc, List.drop_left, hmarker, firstBoundary_marker h]
  fun_induction findBoundary marker s with
  | case1 s hnone => exact (firstBoundary_of_findText_none hnone).symm
  | case2 s index hindex stop hdrop =>
    rw [hpassed hindex, hdrop, delimiter_short (by simp)]
    rfl
  | case3 s index hindex stop c hdrop =>
    rw [hpassed hindex, hdrop, delimiter_short (by simp), firstBoundary_cons, delimiter_short (by simp)]
    rfl
  | case4 s index hindex stop b c tail hdrop hdashes =>
    rw [hpassed hindex, hdrop, delimiter_two, if_pos hdashes]
    simp only [Option.map_some, later, stop]
    congr 2
    omega
  | case5 s index hindex stop b c tail hdrop hdashes hcrlf =>
    rw [hpassed hindex, hdrop, delimiter_two, if_neg hdashes, if_pos hcrlf]
    simp only [Option.map_some, later, stop]
    congr 2
    omega
  | case6 s index hindex stop b c tail hdrop hdashes hcrlf ih =>
    rw [hpassed hindex, hdrop, delimiter_two, if_neg hdashes, if_neg hcrlf, ih]
    simp only [Option.map_map, later_later]
    congr 1
    funext found
    simp only [later, stop, Prod.mk.injEq, and_true]
    omega

end Places

/-! ## 2. The scan of a whole body -/

section Scan

/-- Where the buffer ends that holds the byte before a place, the body being read in buffers of one size. -/
def bufferEnd (size len p : Nat) : Nat := min len ((p - 1) / size * size + size)

/-- Where headers are given up: at the end of the first buffer behind which more than the limit is kept. -/
def headersEnd (size len p : Nat) : Nat :=
  if bufferEnd size len p - p > headerLimit then bufferEnd size len p else bufferEnd size len (bufferEnd size len p + 1)

variable (size : Nat) (boundary body : Bytes)

/-- The parts behind an opening delimiter: of each its headers, and what it holds up to the next delimiter. -/
def afterOpening (start p : Nat) : Except BodyError MultipartPosition :=
  match findText (crlf ++ crlf) ((body.take (headersEnd size body.length p)).drop p) with
  | none =>
    if headersEnd size body.length p - p > headerLimit then .error multipartError else .ok ⟨start, body.length⟩
  | some i =>
    match h : firstBoundary (subsequentMarker boundary).bytes (body.drop (p + (i + 4))) with
    | none => .ok ⟨start, body.length⟩
    | some (e, true) => .ok ⟨start, bufferEnd size body.length (p + (i + 4) + e)⟩
    | some (e, false) => afterOpening start (p + (i + 4) + e)
termination_by body.length - p
decreasing_by
  have hbounds := firstBoundary_bounds h
  rw [List.length_drop] at hbounds
  omega

/-- From the cursor on the opening delimiter, which the first buffer holds, and the parts behind it. -/
def opening (cursor : Nat) : Except BodyError MultipartPosition :=
  match h : findInitialBoundary (firstMarker boundary) (body.take size) cursor with
  | none =>
    .error (if (body.take size).length > preambleLimit then multipartError else .read "empty multipart content")
  | some (e, true) =>
    if e = (firstMarker boundary).length + 2 ∧ (body.take size).drop e = crlf then .ok ⟨0, (body.take size).length⟩
    else opening e
  | some (e, false) => afterOpening size boundary body (e - (firstMarker boundary).length - 2) e
termination_by body.length - cursor
decreasing_by
  have hbounds := initialFrom_bounds h
  rw [List.length_take] at hbounds
  omega

/-- The scan of a whole body read in buffers of one size. -/
def scan : Except BodyError MultipartPosition := opening size boundary body 0

end Scan

end Smartfire.Spooled
