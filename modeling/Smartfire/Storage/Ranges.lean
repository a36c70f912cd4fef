/-
  File:      Smartfire/Storage/Ranges.lean
  Subject:   What a `Range` header asks for, and that reading it never panics or overflows.

  * `Fields`, `Finder` -- a text split at a separator, and the finders that split so;
  * `numberOf`, `rubyToI_eq` -- the number a text writes, however large, and that it is only cut where nobody sees;
  * `Wanted`, `wanted`, `oneRange_spec` -- a range asked for, and the bytes of a file it takes;
  * `byteRanges_spec` -- the ranges found are those asked for, or too many.
-/
import Mathlib.Tactic.Linarith
import Smartfire.Lib.Split
import Smartfire.Storage.FileServer

namespace Smartfire.FileServer

open Lib

/-! ## 1. Splitting -/

/-- The fields of a text: in front of each separator, what `skip` leaves of the rest being split on. -/
inductive Fields (sep : UInt8) (skip : Bytes → Bytes) : Bytes → List Bytes → Prop
  | last {s : Bytes} (h : sep ∉ s) : Fields sep skip s [s]
  | more {x y : Bytes} {rest : List Bytes} (h : sep ∉ x) (hrest : Fields sep skip (skip y) rest) :
      Fields sep skip (x ++ sep :: y) (x :: rest)

/-- A finder of a separator that `skip` goes on behind. -/
structure Finder (find : Bytes → Option (Option (Nat × Nat))) (sep : UInt8) (skip : Bytes → Bytes) : Prop where
  absent : ∀ s, sep ∉ s → find s = some none
  present : ∀ x y, sep ∉ x → Steady (x ++ sep :: y) → ∃ stop, find (x ++ sep :: y) = some (some (x.length, stop)) ∧
    Lib.slice (x ++ sep :: y) 0 x.length = some x ∧
    Lib.slice (x ++ sep :: y) stop (x ++ sep :: y).length = some (skip y)
  suffix : ∀ y, skip y <:+ y

section Splitting

variable {find : Bytes → Option (Option (Nat × Nat))} {sep : UInt8} {skip : Bytes → Bytes} {s : Bytes}
  {fields : List Bytes}

theorem findIdx?_append {x y : Bytes} (h : sep ∉ x) : (x ++ sep :: y).findIdx? (· = sep) = some x.length := by
  induction x with
  | nil => simp [List.findIdx?_cons]
  | cons b x ih =>
    have hb : b ≠ sep := fun he => h (he ▸ List.mem_cons_self)
    have hx : sep ∉ x := fun he => h (List.mem_cons_of_mem b he)
    simp [List.findIdx?_cons, hb, ih hx]

theorem findIdx?_absent (h : sep ∉ s) : s.findIdx? (· = sep) = none := by
  rw [List.findIdx?_eq_none_iff]
  intro b hb
  simpa using fun he : b = sep => h (he ▸ hb)

/-- The slices around a separator of ASCII. -/
theorem slice_around {x y : Bytes} (hsep : sep < 0x80) (hs : Steady (x ++ sep :: y)) :
    Lib.slice (x ++ sep :: y) 0 x.length = some x ∧
      Lib.slice (x ++ sep :: y) (x.length + 1) (x ++ sep :: y).length = some y := by
  have hat : (x ++ sep :: y)[x.length]? = some sep := by simp
  have hle : x.length + 1 ≤ (x ++ sep :: y).length := by simp
  constructor
  · rw [slice_to (by omega) (charBoundary_ascii hat hsep)]
    simp
  · rw [slice_from hle (hs.boundary_succ hat hsep)]
    simp [List.drop_append]

theorem finder_dash : Finder splitDash (byte '-') id := by
  refine ⟨fun s h => ?_, fun x y hx hs => ⟨x.length + 1, ?_, ?_⟩, fun y => List.suffix_rfl⟩
  · rw [splitDash, findIdx?_absent h]
    rfl
  · rw [splitDash, findIdx?_append hx]
    rfl
  · exact slice_around (by decide) hs

/-- The rest behind a comma, without the blanks in front. -/
def skipBlanks (y : Bytes) : Bytes := y.dropWhile fun b => b = byte ' ' || b = byte '\t'

theorem finder_comma : Finder splitComma (byte ',') skipBlanks := by
  refine ⟨fun s h => ?_, fun x y hx hs => ?_, fun y => List.dropWhile_suffix _⟩
  · rw [splitComma, findIdx?_absent h]
  obtain ⟨hfront, hbehind⟩ := slice_around (by decide) hs
  have hsplit : y.takeWhile (fun b => b = byte ' ' || b = byte '\t') ++ skipBlanks y = y :=
    List.takeWhile_append_dropWhile
  have hblank : ∀ b ∈ y.takeWhile (fun b => b = byte ' ' || b = byte '\t'), b < 0x80 := by
    intro b hb
    have hor : b = byte ' ' ∨ b = byte '\t' := by simpa using List.mem_takeWhile_imp hb
    obtain rfl | rfl := hor <;> decide
  have hlen : y.length - (skipBlanks y).length = (y.takeWhile fun b => b = byte ' ' || b = byte '\t').length := by
    have hsum := congrArg List.length hsplit
    rw [List.length_append] at hsum
    omega
  refine ⟨x.length + 1 + (y.length - (skipBlanks y).length), ?_, hfront, ?_⟩
  · rw [splitComma, findIdx?_append hx]
    simp only [hbehind]
    rfl
  · rw [hlen]
    rcases List.eq_nil_or_concat (y.takeWhile fun b => b = byte ' ' || b = byte '\t') with hnil | ⟨blanks, b, hlast⟩
    · rw [hnil, List.nil_append] at hsplit
      rw [hnil, List.length_nil, Nat.add_zero, hsplit]
      exact hbehind
    · -- Behind the last blank a character starts.
      rw [hlast] at hsplit hblank ⊢
      have hjoin : x ++ byte ',' :: y = (x ++ byte ',' :: blanks) ++ b :: skipBlanks y := by
        have htail := congrArg (fun t => x ++ byte ',' :: t) hsplit
        simpa using htail.symm
      have hstop : x.length + 1 + (blanks.concat b).length = (x ++ byte ',' :: blanks).length + 1 := by
        simp
        omega
      rw [hjoin, hstop]
      rw [hjoin] at hs
      exact (slice_around (hblank b (by simp)) hs).2

/-- **Splitting ends, and gives the fields.** -/
theorem rubyFields_fields (hfind : Finder find sep skip) {fuel : Nat} (hs : Steady s) (hfuel : s.length < fuel) :
    ∃ fields, rubyFields find fuel s = some fields ∧ Fields sep skip s fields := by
  induction fuel generalizing s with
  | zero => omega
  | succ fuel ih =>
    by_cases h : sep ∈ s
    · obtain ⟨x, y, rfl, hx⟩ := List.eq_append_cons_of_mem h
      obtain ⟨stop, hfound, hfront, hbehind⟩ := hfind.present x y hx hs
      have hinfix : skip y <:+: x ++ sep :: y :=
        ((hfind.suffix y).trans (List.suffix_cons sep y)).isInfix.trans (List.suffix_append x _).isInfix
      have hlen := (hfind.suffix y).length_le
      have hshort : (skip y).length < fuel := by
        simp only [List.length_append, List.length_cons] at hfuel
        omega
      obtain ⟨rest, hrest, hfields⟩ := ih (hs.inside hinfix) hshort
      refine ⟨x :: rest, ?_, .more hx hfields⟩
      simp only [rubyFields, hfound, hfront, hbehind, hrest, bind, Option.bind, pure]
    · refine ⟨[s], ?_, .last h⟩
      simp only [rubyFields, hfind.absent s h, bind, Option.bind, pure]

theorem rubySplit_fields (hfind : Finder find sep skip) (hs : Steady s) :
    ∃ fields, rubySplit find s = some (fields.rdropWhile (·.isEmpty)) ∧ Fields sep skip s fields := by
  obtain ⟨fields, hfields, h⟩ := rubyFields_fields hfind hs (Nat.lt_succ_self s.length)
  refine ⟨fields, ?_, h⟩
  simp only [rubySplit, hfields, bind, Option.bind, pure]

/-- Each field is a part of the text, and there is one more than separators at most. -/
theorem Fields.spec (hskip : ∀ y, skip y <:+ y) (h : Fields sep skip s fields) :
    (∀ field ∈ fields, field <:+: s) ∧ fields.length ≤ s.count sep + 1 := by
  induction h with
  | @last s h =>
    refine ⟨fun field hf => ?_, by simp⟩
    exact (List.mem_singleton.mp hf) ▸ List.infix_rfl
  | @more x y rest h _ ih =>
    have hsuffix : skip y <:+ x ++ sep :: y :=
      ((hskip y).trans (List.suffix_cons sep y)).trans (List.suffix_append x _)
    refine ⟨fun field hf => ?_, ?_⟩
    · obtain rfl | hf := List.mem_cons.mp hf
      · exact (List.prefix_append field _).isInfix
      · exact (ih.1 field hf).trans hsuffix.isInfix
    · have hcount := (hskip y).sublist.count_le sep
      have hlen := ih.2
      simp only [List.length_cons, List.count_append, List.count_cons_self]
      omega

end Splitting

/-! ## 2. Numbers -/

/-- What digits write, behind a value: no bound to it. -/
def digitsNat : Nat → Nat → Bool → Bytes → Nat
  | _, value, _, [] => value
  | i, value, previousUnderscore, c :: rest =>
    if byte '0' ≤ c ∧ c ≤ byte '9' then digitsNat (i + 1) (value * 10 + (c.toNat - (byte '0').toNat)) false rest
    else if c = byte '_' ∧ 0 < i ∧ previousUnderscore = false then digitsNat (i + 1) value true rest
    else value

/-- The number a text without a minus writes. -/
def numberOf (s : Bytes) : Nat :=
  let s := s.dropWhile rubySpace
  digitsNat 0 0 false (if s.head? = some (byte '+') then s.tail else s)

/-- The largest number of type `i128`. -/
def i128Max : Nat := 2 ^ 127 - 1

theorem digitsLoop_eq (i v : Nat) (previous : Bool) (s : Bytes) :
    digitsLoop i (min v i128Max : Nat) previous s = (min (digitsNat i v previous s) i128Max : Nat) := by
  induction s generalizing i v previous with
  | nil => rfl
  | cons c rest ih =>
    rw [digitsLoop, digitsNat]
    split
    · have hstep : saturated (saturated ((min v i128Max : Nat) * 10) + (c.toNat - (byte '0').toNat : Nat)) =
          (min (v * 10 + (c.toNat - (byte '0').toNat)) i128Max : Nat) := by
        simp only [saturated, i128Max]
        omega
      rw [hstep, ih]
    · split
      · exact ih _ _ _
      · rfl

/-- **A number is read as it is written, or as the largest there is.** -/
theorem rubyToI_eq {s : Bytes} (hs : Steady s) (h : byte '-' ∉ s) :
    rubyToI s = some ((min (numberOf s) i128Max : Nat) : Int) := by
  have hdigits : ∀ digits, digitsLoop 0 0 false digits = (min (digitsNat 0 0 false digits) i128Max : Nat) := by
    intro digits
    have hloop := digitsLoop_eq 0 0 false digits
    simpa using hloop
  rw [rubyToI, numberOf]
  cases hdrop : s.dropWhile rubySpace with
  | nil => simp [hdigits]
  | cons c rest =>
    have hsuffix : c :: rest <:+ s := hdrop ▸ List.dropWhile_suffix _
    have hc : c ≠ byte '-' := fun he => h (hsuffix.subset (he ▸ List.mem_cons_self))
    by_cases hplus : c = byte '+'
    · subst hplus
      have hslice : Lib.slice (byte '+' :: rest) 1 (rest.length + 1) = some rest :=
        (slice_around (x := []) (by decide) (hs.inside hsuffix.isInfix)).2
      simp [hc, hslice, hdigits]
    · simp [hc, hplus, hdigits]

/-! ## 3. One range -/

/-- A range asked for: from and to a byte, from a byte on, or so many bytes of the end. -/
inductive Wanted where
  | span (first last : Nat)
  | openEnd (first : Nat)
  | suffix (n : Nat)
deriving DecidableEq

/-- The bytes it takes of a file: the first, and the one behind the last. -/
def Wanted.within (size : Nat) : Wanted → Nat × Nat
  | .span first last => (first, min (last + 1) size)
  | .openEnd first => (first, size)
  | .suffix n => (size - n, size)

/-- It takes a byte. -/
def Wanted.Satisfiable (size : Nat) (w : Wanted) : Prop := (w.within size).1 < (w.within size).2

instance (size : Nat) (w : Wanted) : Decidable (w.Satisfiable size) := inferInstanceAs (Decidable (_ < _))

def Wanted.length (size : Nat) (w : Wanted) : Nat := (w.within size).2 - (w.within size).1

/-- Its first and its last byte. -/
def Wanted.found (size : Nat) (w : Wanted) : Option (Nat × Nat) :=
  if w.Satisfiable size then some ((w.within size).1, (w.within size).2 - 1) else none

/-- What one entry of the list asks for: what stands up to the second dash counts. -/
def wanted (rangeSpec : Bytes) : Option Wanted :=
  match splitOnce (byte '-') rangeSpec with
  | none => none
  | some (x, y) =>
    if y.all (· = byte '-') then (if x.isEmpty then none else some (.openEnd (numberOf x)))
    else
      let last := numberOf (y.takeWhile (· ≠ byte '-'))
      some (if x.isEmpty then .suffix last else .span (numberOf x) last)

section OneRange

theorem i128_of_bounds {x : Int} (h₁ : -2 ^ 127 ≤ x) (h₂ : x < 2 ^ 127) : i128 x = some x := if_pos ⟨h₁, h₂⟩

/-- At most one element in front of those that are dropped. -/
theorem rdropWhile_cons {α : Type} (p : α → Bool) (x : α) (rest : List α) :
    (x :: rest).rdropWhile p =
      if rest.all p then (if p x then [] else [x]) else x :: rest.rdropWhile p := by
  have hnil : (rest.reverse.dropWhile p).isEmpty = rest.all p := by
    rw [Bool.eq_iff_iff, List.isEmpty_iff, List.dropWhile_eq_nil_iff, List.all_eq_true]
    simp
  rw [List.rdropWhile, List.rdropWhile, List.reverse_cons, List.dropWhile_append, hnil]
  split
  · cases h : p x <;> simp [h]
  · simp

/-- The fields behind a dash: all of them empty where only dashes follow, else the first is what comes before the
    next. -/
theorem dash_fields {y : Bytes} {rest : List Bytes} (h : Fields (byte '-') id y rest) :
    rest.all (·.isEmpty) = y.all (· = byte '-') ∧ rest.head? = some (y.takeWhile (· ≠ byte '-')) := by
  induction h with
  | @last s h =>
    have htake : s.takeWhile (· ≠ byte '-') = s :=
      List.takeWhile_eq_self_iff.mpr fun b hb => by simpa using fun he : b = byte '-' => h (he ▸ hb)
    refine ⟨?_, by rw [htake]; rfl⟩
    cases s with
    | nil => rfl
    | cons b s =>
      have hb : b ≠ byte '-' := fun he => h (he ▸ List.mem_cons_self)
      simp [hb]
  | @more x y rest h _ ih =>
    have htake : x.takeWhile (· ≠ byte '-') = x :=
      List.takeWhile_eq_self_iff.mpr fun b hb => by simpa using fun he : b = byte '-' => h (he ▸ hb)
    constructor
    · rw [List.all_cons, ih.1]
      cases x with
      | nil => simp
      | cons b x =>
        have hb : b ≠ byte '-' := fun he => h (he ▸ List.mem_cons_self)
        simp [hb]
    · rw [List.head?_cons, List.takeWhile_append, htake]
      simp

/-- The parts of an entry around its first dash. -/
theorem dash_parts {x y : Bytes} (hx : byte '-' ∉ x) (hs : Steady (x ++ byte '-' :: y)) :
    ∃ parts, rubySplit splitDash (x ++ byte '-' :: y) = some parts ∧
      (if y.all (· = byte '-') then parts = if x.isEmpty then [] else [x]
        else parts[0]? = some x ∧ parts[1]? = some (y.takeWhile (· ≠ byte '-'))) := by
  obtain ⟨fields, hsplit, hfields⟩ := rubySplit_fields finder_dash hs
  refine ⟨_, hsplit, ?_⟩
  have hrest : ∃ rest, fields = x :: rest ∧ Fields (byte '-') id y rest := by
    generalize hwhole : x ++ byte '-' :: y = s at hfields
    cases hfields with
    | last h => exact absurd (hwhole ▸ List.mem_append_right x List.mem_cons_self) h
    | @more x' y' rest hx' hrest =>
      obtain ⟨rfl, htail⟩ := line_inj hx hx' (closed_cons _ y) (closed_cons _ y') hwhole
      obtain rfl : y = y' := List.tail_eq_of_cons_eq htail
      exact ⟨rest, rfl, hrest⟩
  obtain ⟨rest, rfl, hrest⟩ := hrest
  obtain ⟨hall, hhead⟩ := dash_fields hrest
  rw [rdropWhile_cons, hall]
  split
  · rfl
  · next hdash =>
    cases rest with
    | nil => cases hhead
    | cons r1 rest =>
      obtain rfl : r1 = _ := Option.some.inj hhead
      refine ⟨rfl, ?_⟩
      rw [rdropWhile_cons]
      split
      · next htail =>
        split
        · next hr1 => exact absurd (by rw [← hall, List.all_cons, hr1, htail]; rfl) hdash
        · rfl
      · rfl

/-- A pair of ends finds what a wanted range does, where one is a range when the other is, and the same. -/
theorem found_eq {size : Nat} {w : Wanted} {r0 r1 : Int} (h : w.Satisfiable size ↔ r0 ≤ r1)
    (hends : r0 ≤ r1 → (w.within size).1 = r0.toNat ∧ (w.within size).2 - 1 = r1.toNat) :
    w.found size = if r0 ≤ r1 then some (r0.toNat, r1.toNat) else none := by
  by_cases hle : r0 ≤ r1
  · rw [Wanted.found, if_pos (h.mpr hle), if_pos hle, (hends hle).1, (hends hle).2]
  · rw [Wanted.found, if_neg (fun hs => hle (h.mp hs)), if_neg hle]

/-- **One entry is read without a failure**: it gives the header up, or is the bytes of what it asks for. -/
theorem oneRange_spec {size : Nat} (hpos : 0 < size) (hsize : size < 2 ^ 64) {rangeSpec : Bytes}
    (hs : Steady rangeSpec) :
    oneRange size rangeSpec = some none ∨
      ∃ w r0 r1, wanted rangeSpec = some w ∧ oneRange size rangeSpec = some (some (r0, r1)) ∧ 0 ≤ r0 ∧
        w.found size = if r0 ≤ r1 then some (r0.toNat, r1.toNat) else none := by
  by_cases hdash : byte '-' ∈ rangeSpec
  swap
  · exact .inl (by simp [oneRange, hdash])
  obtain ⟨x, y, rfl, hx⟩ := List.eq_append_cons_of_mem hdash
  obtain ⟨parts, hsplit, hparts⟩ := dash_parts hx hs
  have hlast : i128 ((size : Int) - 1) = some ((size : Int) - 1) := i128_of_bounds (by omega) (by omega)
  have hxs : Steady x := hs.inside (List.prefix_append x _).isInfix
  have hnumber : byte '-' ∉ y.takeWhile (· ≠ byte '-') := fun h => by simpa using List.mem_takeWhile_imp h
  have hys : Steady (y.takeWhile (· ≠ byte '-')) := hs.inside
    ((List.takeWhile_prefix _).isInfix.trans ((List.suffix_cons _ y).trans (List.suffix_append x _)).isInfix)
  have hwanted : wanted (x ++ byte '-' :: y) = if y.all (· = byte '-') then
      (if x.isEmpty then none else some (.openEnd (numberOf x)))
      else some (if x.isEmpty then .suffix (numberOf (y.takeWhile (· ≠ byte '-')))
        else .span (numberOf x) (numberOf (y.takeWhile (· ≠ byte '-')))) := by
    rw [wanted, splitOnce_append hx]
  have hmin : i128Max = 2 ^ 127 - 1 := rfl
  rw [hwanted]
  simp only [oneRange, hdash, not_true_eq_false, if_false, hsplit, Option.bind_eq_bind, Option.bind_some, pure,
    hlast]
  by_cases hall : y.all (· = byte '-') = true
  · rw [if_pos hall] at hparts
    rw [if_pos hall]
    cases x with
    | nil => exact .inl (by simp [hparts])
    | cons b x =>
      right
      refine ⟨.openEnd (numberOf (b :: x)), (min (numberOf (b :: x)) i128Max : Nat), size - 1, rfl, ?_, by omega, ?_⟩
      · simp only [hparts, List.isEmpty_cons, Bool.false_eq_true, if_false, List.getElem?_cons_zero,
          rubyToI_eq hxs hx, Option.bind_some, List.getElem?_cons_succ, List.getElem?_nil]
      · apply found_eq <;> simp only [Wanted.Satisfiable, Wanted.within] <;> omega
  · rw [if_neg hall] at hparts
    rw [if_neg hall]
    obtain ⟨h0, h1⟩ := hparts
    cases x with
    | nil =>
      right
      have hdiff : i128 ((size : Int) - (min (numberOf (y.takeWhile (· ≠ byte '-'))) i128Max : Nat)) =
          some ((size : Int) - (min (numberOf (y.takeWhile (· ≠ byte '-'))) i128Max : Nat)) :=
        i128_of_bounds (by omega) (by omega)
      refine ⟨.suffix (numberOf (y.takeWhile (· ≠ byte '-'))),
        max (size - (min (numberOf (y.takeWhile (· ≠ byte '-'))) i128Max : Nat)) 0, size - 1, rfl, ?_, by omega, ?_⟩
      · simp only [h0, h1, rubyToI_eq hys hnumber, Option.bind_some, hdiff]
      · apply found_eq <;> simp only [Wanted.Satisfiable, Wanted.within] <;> omega
    | cons b x =>
      simp only [h0, h1, rubyToI_eq hxs hx, rubyToI_eq hys hnumber, Option.bind_some]
      split
      · exact .inl rfl
      · right
        refine ⟨.span (numberOf (b :: x)) (numberOf (y.takeWhile (· ≠ byte '-'))), _, _, rfl, rfl, by omega, ?_⟩
        apply found_eq <;> simp only [Wanted.Satisfiable, Wanted.within] <;> omega

end OneRange

/-! ## 4. The header -/

section Header

variable {size : Nat}

theorem Wanted.found_spec {w : Wanted} {a b : Nat} (h : w.found size = some (a, b)) :
    a ≤ b ∧ b < size ∧ b - a + 1 = w.length size := by
  have hle : (w.within size).2 ≤ size := by
    cases w <;> simp [Wanted.within]
  rw [Wanted.found] at h
  split at h
  · next hs =>
    obtain ⟨rfl, rfl⟩ := Prod.mk.inj (Option.some.inj h)
    unfold Wanted.Satisfiable at hs
    refine ⟨?_, ?_, ?_⟩
    · omega
    · omega
    · rw [Wanted.length]
      omega
  · cases h

theorem Wanted.length_of_not_satisfiable {w : Wanted} (h : ¬ w.Satisfiable size) : w.length size = 0 := by
  unfold Wanted.Satisfiable at h
  rw [Wanted.length]
  omega

/-- The bytes of what is found are the bytes of what is wanted. -/
theorem sum_found (size : Nat) (ws : List Wanted) :
    ((ws.filterMap (Wanted.found size)).map fun r => r.2 - r.1 + 1).sum = (ws.map (Wanted.length size)).sum := by
  induction ws with
  | nil => rfl
  | cons w ws ih =>
    cases h : w.found size with
    | none =>
      have hs : ¬ w.Satisfiable size := fun hs => by simp [Wanted.found, hs] at h
      rw [List.filterMap_cons_none h, List.map_cons, List.sum_cons, w.length_of_not_satisfiable hs, ih, Nat.zero_add]
    | some r =>
      rw [List.filterMap_cons_some h, List.map_cons, List.map_cons, List.sum_cons, List.sum_cons, ih,
        (Wanted.found_spec h).2.2]

/-- A pair as the numbers of the loop. -/
def ofNats (r : Nat × Nat) : Int × Int := (r.1, r.2)

/-- **The loop over the entries**: it gives the header up, or adds what the entries ask for and the file has. -/
theorem rangesLoop_spec (hpos : 0 < size) (hsize : size < 2 ^ 64) {fields : List Bytes}
    (hs : ∀ field ∈ fields, Steady field) (acc : List (Int × Int)) :
    rangesLoop size fields acc = some none ∨
      ∃ ws, List.Forall₂ (fun field w => wanted field = some w) fields ws ∧
        rangesLoop size fields acc = some (some (acc ++ (ws.filterMap (Wanted.found size)).map ofNats)) := by
  induction fields generalizing acc with
  | nil => exact .inr ⟨[], .nil, by simp [rangesLoop]⟩
  | cons field rest ih =>
    obtain hone | ⟨w, r0, r1, hw, hone, hr0, hfound⟩ := oneRange_spec hpos hsize (hs field List.mem_cons_self)
    · exact .inl (by simp only [rangesLoop, hone, bind, Option.bind, pure])
    · have hloop : rangesLoop size (field :: rest) acc =
          rangesLoop size rest (if r0 ≤ r1 then acc ++ [(r0, r1)] else acc) := by
        simp only [rangesLoop, hone, bind, Option.bind]
      rw [hloop]
      refine (ih (fun f hf => hs f (List.mem_cons_of_mem _ hf)) _).imp_right ?_
      rintro ⟨ws, hws, hrest⟩
      refine ⟨w :: ws, .cons hw hws, ?_⟩
      rw [hrest]
      by_cases hle : r0 ≤ r1
      · rw [if_pos hle] at hfound ⊢
        have hpair : ofNats (r0.toNat, r1.toNat) = (r0, r1) := by
          simp only [ofNats, Prod.mk.injEq]
          omega
        rw [List.filterMap_cons_some hfound, List.map_cons, hpair]
        simp
      · rw [if_neg hle] at hfound ⊢
        rw [List.filterMap_cons_none hfound]

/-- **The sum of the lengths stays far from the ends of its type.** -/
theorem sumLengths_spec {ranges : List (Nat × Nat)} (hranges : ∀ r ∈ ranges, r.1 ≤ r.2 ∧ r.2 < 2 ^ 64) (total : Nat)
    (htotal : total + ranges.length * 2 ^ 64 < 2 ^ 127) :
    sumLengths total (ranges.map ofNats) = some ((total + (ranges.map fun r => r.2 - r.1 + 1).sum : Nat) : Int) := by
  induction ranges generalizing total with
  | nil => rfl
  | cons r rest ih =>
    obtain ⟨hle, hlt⟩ := hranges r List.mem_cons_self
    rw [List.length_cons] at htotal
    have hdiff : i128 ((r.2 : Int) - r.1) = some ((r.2 : Int) - r.1) := i128_of_bounds (by omega) (by omega)
    have hone : i128 ((r.2 : Int) - r.1 + 1) = some ((r.2 : Int) - r.1 + 1) := i128_of_bounds (by omega) (by omega)
    have hnext : i128 ((total : Int) + ((r.2 : Int) - r.1 + 1)) = some ((total + (r.2 - r.1 + 1) : Nat) : Int) := by
      rw [i128_of_bounds (by omega) (by omega)]
      congr 1
      omega
    simp only [List.map_cons, ofNats, sumLengths, hdiff, hone, hnext, bind, Option.bind]
    have hrest := ih (fun r hr => hranges r (List.mem_cons_of_mem _ hr)) (total + (r.2 - r.1 + 1)) (by omega)
    rw [hrest, List.sum_cons, Nat.add_assoc]

/-- The list of ranges in a header is cut out without a failure, and has not more than a hundred entries. -/
theorem rangesText_spec {header : Bytes} (hs : Steady header) :
    rangesText header = some none ∨
      ∃ spec, rangesText header = some (some spec) ∧ spec <:+: header ∧ spec.count (byte ',') < 100 := by
  rw [rangesText]
  cases hfind : findText (text "bytes=") header with
  | none => exact .inl rfl
  | some i =>
    obtain ⟨x, y, rfl, rfl⟩ := findText_spec hfind
    have hjoin : x ++ text "bytes=" ++ y = (x ++ text "bytes") ++ byte '=' :: y := by
      simp [text]
    have hbehind : Lib.slice (x ++ text "bytes=" ++ y) (x.length + 6) (x ++ text "bytes=" ++ y).length = some y := by
      rw [hjoin] at hs ⊢
      have hslice := (slice_around (by decide) hs).2
      rwa [List.length_append] at hslice
    have hy : y <:+: x ++ text "bytes=" ++ y := (List.suffix_append _ y).isInfix
    have hys := hs.inside hy
    have hcut : ∃ spec, Lib.slice y 0 ((y.findIdx? (· = byte ';')).getD y.length) = some spec ∧ spec <+: y := by
      by_cases hsemi : byte ';' ∈ y
      · obtain ⟨p, q, rfl, hp⟩ := List.eq_append_cons_of_mem hsemi
        rw [findIdx?_append hp]
        exact ⟨p, (slice_around (by decide) hys).1, List.prefix_append p _⟩
      · rw [findIdx?_absent hsemi]
        exact ⟨y, by rw [Option.getD_none, slice_to le_rfl (charBoundary_length y), List.take_length],
          List.prefix_rfl⟩
    obtain ⟨spec, hspec, hfront⟩ := hcut
    simp only [hbehind, hspec, bind, Option.bind, pure]
    split
    · exact .inl rfl
    · next hno => exact .inr ⟨spec, rfl, hfront.isInfix.trans hy, by omega⟩

/-- What the entries of a list ask for, entry by entry. -/
def Asks (spec : Bytes) (ws : List Wanted) : Prop :=
  ∃ fields, rubySplit splitComma spec = some fields ∧ List.Forall₂ (fun field w => wanted field = some w) fields ws

theorem toU64_ofNats {found : List (Nat × Nat)} (h : ∀ r ∈ found, r.1 < 2 ^ 64 ∧ r.2 < 2 ^ 64) :
    (found.map ofNats).map (fun (a, b) => (toU64 a, toU64 b)) = found := by
  rw [List.map_map]
  refine (List.map_congr_left fun r hr => ?_).trans (List.map_id _)
  have hr := h r hr
  simp only [Function.comp_apply, ofNats, toU64, id, Prod.ext_iff]
  omega

/-- **A header is read without a failure**: it is given up, or what is found is what it asks for of the file, and
    nothing where that is more than the file has. -/
theorem byteRanges_spec (header : Option Str) (size : UInt64) :
    byteRanges header size = some none ∨
      0 < size.toNat ∧ ∃ h spec ws, header = some h ∧ rangesText h.bytes = some (some spec) ∧ Asks spec ws ∧
        ws.length ≤ 100 ∧
        byteRanges header size = some (some
          (if size.toNat < (ws.map (Wanted.length size.toNat)).sum then []
            else ws.filterMap (Wanted.found size.toNat))) := by
  by_cases hzero : size = 0
  · exact .inl (by simp [byteRanges, hzero])
  have hpos : 0 < size.toNat := Nat.pos_of_ne_zero fun h => hzero (UInt64.toNat_inj.mp h)
  have hsize : size.toNat < 2 ^ 64 := size.toNat_lt
  cases header with
  | none => exact .inl (by simp [byteRanges])
  | some h =>
    obtain htext | ⟨spec, htext, hinfix, hcount⟩ := rangesText_spec h.steady
    · exact .inl (by simp only [byteRanges, if_neg hzero, htext, bind, Option.bind, pure])
    · have hspec : Steady spec := h.steady.inside hinfix
      obtain ⟨fields, hsplit, hfields⟩ := rubySplit_fields finder_comma hspec
      obtain ⟨hinfixes, hlen⟩ := hfields.spec finder_comma.suffix
      have hfront := List.rdropWhile_prefix (fun field : Bytes => field.isEmpty) fields
      have hsteady : ∀ field ∈ fields.rdropWhile (·.isEmpty), Steady field :=
        fun field hf => hspec.inside (hinfixes field (hfront.subset hf))
      obtain hloop | ⟨ws, hws, hloop⟩ := rangesLoop_spec hpos hsize hsteady []
      · exact .inl (by simp only [byteRanges, if_neg hzero, htext, hsplit, hloop, bind, Option.bind, pure])
      · right
        have hfew : ws.length ≤ 100 := by
          have hle := hfront.length_le
          have heq := hws.length_eq
          omega
        have hfound : ∀ r ∈ ws.filterMap (Wanted.found size.toNat), r.1 ≤ r.2 ∧ r.2 < size.toNat := by
          intro r hr
          obtain ⟨w, -, hw⟩ := List.mem_filterMap.mp hr
          exact ⟨(Wanted.found_spec hw).1, (Wanted.found_spec hw).2.1⟩
        have hcountFound := (List.length_filterMap_le (Wanted.found size.toNat) ws).trans hfew
        have hsum := sumLengths_spec (fun r hr => ⟨(hfound r hr).1, (hfound r hr).2.trans hsize⟩) 0
          (by omega : 0 + (ws.filterMap (Wanted.found size.toNat)).length * 2 ^ 64 < 2 ^ 127)
        rw [sum_found, Nat.zero_add] at hsum
        have hback := toU64_ofNats fun r hr => ⟨(hfound r hr).1.trans_lt ((hfound r hr).2.trans hsize),
          (hfound r hr).2.trans hsize⟩
        refine ⟨hpos, h, spec, ws, rfl, htext, ⟨_, hsplit, hws⟩, hfew, ?_⟩
        simp only [byteRanges, if_neg hzero, htext, hsplit, hloop, bind, Option.bind, pure, List.nil_append]
        rw [show ((0 : Int)) = ((0 : Nat) : Int) from rfl, hsum]
        simp only [gt_iff_lt, Nat.cast_lt, hback]
        split <;> rfl

end Header

end Smartfire.FileServer
