/-
  File:      Smartfire/Richtext/Autolinks.lean
  Subject:   Ending bare URLs in front of spoiler bars (crates/richtext/src/markdown.rs).

  A break is put in front of a `||` inside a URL, and kept only where the parser then puts the link under a
  spoiler. The parser sees the text with the breaks; what it reports is counted back to the source. Its
  report is a parameter, one for each round: any links, any of them under a spoiler. A `BTreeSet` that is only
  asked for its members is a list.

  * `withBreaks`, `sourceOffset` -- the text with breaks, and an offset in it counted back;
  * `round`, `rounds`, `endAutolinksAtSpoilers` -- one round of the loop, the loop, the whole;
  * `Kept` -- the invariant of the rounds: each break is at a bar, and its URL's start was never rejected;
  * `autolink_breaks` -- the main result.
-/
import Smartfire.Lib.Find
import Smartfire.Lib.Marks
import Smartfire.Lib.Utf8
import Std.Data.TreeMap.Lemmas

namespace Smartfire

namespace Autolinks

open Lib

/-! ## 1. The code -/

/-- What ends a bare URL. -/
def autolinkBreak : Bytes := text "<!-- -->"

/-- The break offsets in the source, each with the start of the URL it ends. -/
abbrev Breaks := Std.TreeMap Nat Nat

def withBreaksFrom (source : Bytes) : Nat → List Nat → Option Bytes
  | cursor, [] => Lib.slice source cursor source.length
  | cursor, place :: rest => do
    let piece ← Lib.slice source cursor place
    let out ← withBreaksFrom source place rest
    some (piece ++ autolinkBreak ++ out)

/-- The source with a break at each offset; `none` where a slice panics. -/
def withBreaks (source : Bytes) (breaks : Breaks) : Option Bytes := withBreaksFrom source 0 breaks.keys

/-- How many breaks stand in front of an offset of the text with breaks. -/
def breaksBefore (place : Nat) (breaks : Breaks) : Nat :=
  (breaks.keys.zipIdx.takeWhile fun q => q.1 + q.2 * autolinkBreak.length < place).length

/-- An offset in the text with breaks, outside any break, counted back to the source. -/
def sourceOffset (place : Nat) (breaks : Breaks) : Nat := place - breaksBefore place breaks * autolinkBreak.length

/-- A link as it is found in the text with breaks. -/
structure Autolink where
  start : Nat
  text : Bytes
  /-- Whether a spoiler is among its ancestors. -/
  spoilered : Bool

structure Rounds where
  breaks : Breaks
  rejected : List Nat

def Rounds.init : Rounds := ⟨∅, []⟩

/-- `||` -/
def bars : Bytes := text "||"

/-- Where a break is tried for a link, with the link's start. -/
def candidate (breaks : Breaks) (link : Autolink) : Option (Nat × Nat) :=
  (findText bars link.text).map fun bar => (sourceOffset link.start breaks + bar, sourceOffset link.start breaks)

def spoilered (breaks : Breaks) (links : List Autolink) : List Nat :=
  (links.filter (·.spoilered)).map fun link => sourceOffset link.start breaks

/-- The breaks with the candidates that were not rejected, and whether one is new. -/
def insertAll (rejected : List Nat) : List (Nat × Nat) → Bool × Breaks → Bool × Breaks
  | [], s => s
  | (bar, start) :: rest, (changed, breaks) =>
    if start ∈ rejected then insertAll rejected rest (changed, breaks)
    else insertAll rejected rest (changed || breaks[bar]?.isNone, breaks.insert bar start)

/-- One round: whether it changed the breaks, and the state behind it. -/
def round (links : List Autolink) (s : Rounds) : Bool × Rounds :=
  let starts := spoilered s.breaks links
  let candidates := links.filterMap (candidate s.breaks)
  let dropped := (s.breaks.toList.filter fun e => e.2 ∉ starts).map (·.2)
  let rejected := s.rejected ++ dropped
  let kept := s.breaks.filter fun _ start => start ∈ starts
  let (changed, breaks) := insertAll rejected candidates (!dropped.isEmpty, kept)
  (changed, ⟨breaks, rejected⟩)

/-- What the parser reports in a round (the number of rounds left) on a text with breaks. -/
abbrev Parser := Nat → Breaks → Bytes → List Autolink

/-- The loop, with the rounds left. -/
def rounds (parse : Parser) (source : Bytes) : Nat → Rounds → Option Rounds
  | 0, s => some s
  | left + 1, s => do
    let attempt ← withBreaks source s.breaks
    let (changed, s') := round (parse left s.breaks attempt) s
    if changed then rounds parse source left s' else some s'

def contains (source : Bytes) (needle : String) : Bool := (findText (text needle) source).isSome

/-- `end_autolinks_at_spoilers`; `none` is a panic. -/
def endAutolinksAtSpoilers (parse : Parser) (source : Bytes) : Option Bytes :=
  if !contains source "||" || !(contains source "://" || contains source "www.") then some source
  else do
    let s ← rounds parse source 8 .init
    if s.breaks.isEmpty then some source else withBreaks source s.breaks

/-! ## 2. Offsets -/

section Offsets

variable {source attempt : Bytes} {breaks : Breaks} {place len : Nat}

theorem le_of_charBoundary (h : charBoundary source place = true) : place ≤ source.length := by
  rw [charBoundary] at h
  by_contra hlt
  have hnone : source[place]? = none := List.getElem?_eq_none_iff.mpr (by omega)
  rw [hnone] at h
  simp only [Bool.or_eq_true, decide_eq_true_eq] at h
  omega

theorem positions_keys (h : ∀ p ∈ breaks, charBoundary source p = true) :
    Positions source.length 0 breaks.keys :=
  ⟨breaks.ordered_keys.imp fun hlt => Nat.compare_eq_lt.mp hlt,
    fun p hp => ⟨Nat.zero_le p, le_of_charBoundary (h p (Std.TreeMap.mem_keys.mp hp))⟩⟩

theorem withBreaksFrom_eq {cursor : Nat} {positions : List Nat} (hp : Positions source.length cursor positions)
    (hcursor : cursor ≤ source.length) (hfirst : charBoundary source cursor = true)
    (h : ∀ p ∈ positions, charBoundary source p = true) :
    withBreaksFrom source cursor positions = some (marked autolinkBreak source cursor positions) := by
  induction positions generalizing cursor with
  | nil => exact slice_from hcursor hfirst
  | cons p positions ih =>
    obtain ⟨hle, hn, htail⟩ := hp.tail
    have hboundary := h p List.mem_cons_self
    rw [withBreaksFrom, slice_eq hle hn hfirst hboundary,
      ih htail hn hboundary fun q hq => h q (List.mem_cons_of_mem p hq), marked, List.drop_take]
    rfl

/-- Breaks at boundaries do not panic. -/
theorem withBreaks_eq (h : ∀ p ∈ breaks, charBoundary source p = true) :
    withBreaks source breaks = some (marked autolinkBreak source 0 breaks.keys) :=
  withBreaksFrom_eq (positions_keys h) (Nat.zero_le _) (charBoundary_zero source)
    fun p hp => h p (Std.TreeMap.mem_keys.mp hp)

theorem sourceOffset_eq (place : Nat) (breaks : Breaks) :
    sourceOffset place breaks = unshift autolinkBreak.length breaks.keys place := rfl

theorem autolinkBreak_ne_nil : autolinkBreak ≠ [] := by decide

end Offsets

/-! ## 3. Rounds -/

/-- A link is a stretch of the text with breaks, and no byte of it is a break's. -/
def Autolink.In (link : Autolink) (attempt : Bytes) (breaks : Breaks) : Prop :=
  (∃ front back, attempt = front ++ link.text ++ back ∧ front.length = link.start) ∧
    Clear autolinkBreak.length breaks.keys link.start link.text.length

/-- What is kept in front of each bar: the break is at the bar, and its URL's start was never rejected. -/
structure Kept (source : Bytes) (s : Rounds) : Prop where
  bar : ∀ p start : Nat, s.breaks[p]? = some start → (source.drop p).take 2 = bars
  apart : ∀ p start : Nat, s.breaks[p]? = some start → start ∉ s.rejected

section Round

variable {source attempt : Bytes} {breaks : Breaks} {s : Rounds} {links : List Autolink} {link : Autolink}
  {p bar start : Nat}

/-- In front of a bar a character starts. -/
theorem charBoundary_bar (h : (source.drop p).take 2 = bars) : charBoundary source p = true := by
  cases hdrop : source.drop p with
  | nil =>
    rw [hdrop] at h
    cases h
  | cons b rest =>
    have hget : source[p]? = some b := by
      rw [← List.head?_drop, hdrop]
      rfl
    rw [hdrop, List.take_succ_cons] at h
    have hb : b = byte '|' := (List.cons.inj h).1
    exact charBoundary_ascii hget (by rw [hb]; decide)

theorem Kept.boundary (h : Kept source s) : ∀ p ∈ s.breaks, charBoundary source p = true := by
  intro p hp
  have hget := Std.TreeMap.getElem?_eq_some_getElem hp
  exact charBoundary_bar (h.bar p _ hget)

/-- **A link found behind breaks is the source's own.** -/
theorem Autolink.In.source_eq (h : ∀ p ∈ breaks, charBoundary source p = true)
    (hattempt : withBreaks source breaks = some attempt) (hin : link.In attempt breaks) :
    (source.drop (sourceOffset link.start breaks)).take link.text.length = link.text := by
  obtain ⟨⟨front, back, heq, hlen⟩, hclear⟩ := hin
  rw [withBreaks_eq h, Option.some.injEq] at hattempt
  have hplace : link.start ≤ (marked autolinkBreak source 0 breaks.keys).length := by
    rw [hattempt, heq, List.length_append, List.length_append]
    omega
  rw [sourceOffset_eq, ← stretch_eq (positions_keys h) autolinkBreak_ne_nil hclear hplace, hattempt, heq,
    List.append_assoc, List.drop_left' hlen, List.take_left]

/-- A candidate stands at a bar. -/
theorem bar_of_candidate (h : ∀ p ∈ breaks, charBoundary source p = true)
    (hattempt : withBreaks source breaks = some attempt) (hin : link.In attempt breaks)
    (hc : candidate breaks link = some (bar, start)) : (source.drop bar).take 2 = bars := by
  rw [candidate, Option.map_eq_some_iff] at hc
  obtain ⟨i, hfind, heq⟩ := hc
  cases heq
  obtain ⟨x, y, htext, hlen⟩ := findText_spec hfind
  have hsource := hin.source_eq h hattempt
  obtain ⟨rest, hrest⟩ : ∃ rest, source.drop (sourceOffset link.start breaks) = link.text ++ rest := by
    refine ⟨(source.drop (sourceOffset link.start breaks)).drop link.text.length, ?_⟩
    conv_lhs => rw [← List.take_append_drop link.text.length (source.drop _), hsource]
  rw [← List.drop_drop, hrest, htext, List.append_assoc, List.append_assoc, List.drop_left' hlen]
  exact List.take_left' rfl

/-- What the insertions leave was there, or is a candidate that was not rejected. -/
theorem insertAll_spec {P : Nat → Nat → Prop} {rejected : List Nat} {candidates : List (Nat × Nat)}
    (hnew : ∀ c ∈ candidates, c.2 ∉ rejected → P c.1 c.2) (changed : Bool) {breaks : Breaks}
    (hold : ∀ p start : Nat, breaks[p]? = some start → P p start) :
    ∀ p start : Nat, (insertAll rejected candidates (changed, breaks)).2[p]? = some start → P p start := by
  induction candidates generalizing changed breaks with
  | nil => exact hold
  | cons c candidates ih =>
    obtain ⟨bar, start⟩ := c
    have hrest : ∀ c ∈ candidates, c.2 ∉ rejected → P c.1 c.2 := fun c hc => hnew c (List.mem_cons_of_mem _ hc)
    rw [insertAll]
    split
    · exact ih hrest _ hold
    · next hne =>
      refine ih hrest _ fun p start' hp => ?_
      rw [Std.TreeMap.getElem?_insert] at hp
      split at hp
      · next heq =>
        cases hp
        rw [← Nat.compare_eq_eq.mp heq]
        exact hnew _ List.mem_cons_self hne
      · exact hold p start' hp

/-- **One round keeps the invariant**, and nothing rejected is forgotten. -/
theorem round_kept (hs : Kept source s) (hattempt : withBreaks source s.breaks = some attempt)
    (hin : ∀ link ∈ links, link.In attempt s.breaks) :
    Kept source (round links s).2 ∧ s.rejected ⊆ (round links s).2.rejected := by
  -- the state behind the round, by its parts
  let rejected := (round links s).2.rejected
  have hsub : s.rejected ⊆ rejected := List.subset_append_left _ _
  have hdropped : ∀ start ∈ rejected, start ∈ s.rejected ∨ start ∉ spoilered s.breaks links := by
    intro start hstart
    obtain hold | hnew := List.mem_append.mp hstart
    · exact .inl hold
    · obtain ⟨e, he, rfl⟩ := List.mem_map.mp hnew
      exact .inr (by simpa using (List.mem_filter.mp he).2)
  have hspec : ∀ p start : Nat, (round links s).2.breaks[p]? = some start →
      (source.drop p).take 2 = bars ∧ start ∉ rejected := by
    refine insertAll_spec (P := fun p start => (source.drop p).take 2 = bars ∧ start ∉ rejected)
      (fun c hc hne => ⟨?_, hne⟩) _ fun p start hp => ?_
    · obtain ⟨link, hlink, hcandidate⟩ := List.mem_filterMap.mp hc
      exact bar_of_candidate hs.boundary hattempt (hin link hlink) hcandidate
    · rw [Std.TreeMap.getElem?_filter', Option.filter_eq_some_iff, decide_eq_true_eq] at hp
      refine ⟨hs.bar p start hp.1, fun hstart => ?_⟩
      obtain hold | hnew := hdropped start hstart
      · exact hs.apart p start hp.1 hold
      · exact hnew hp.2
  exact ⟨⟨fun p start hp => (hspec p start hp).1, fun p start hp => (hspec p start hp).2⟩, hsub⟩

end Round

/-! ## 4. Runs -/

/-- The state behind some rounds' reports. -/
def afterRounds (reports : List (List Autolink)) (s : Rounds) : Rounds :=
  reports.foldl (fun s links => (round links s).2) s

/-- Each round's report is about the text with the breaks that the rounds before it left. -/
def Reported (source : Bytes) : Rounds → List (List Autolink) → Prop
  | _, [] => True
  | s, links :: rest =>
    (∀ attempt, withBreaks source s.breaks = some attempt → ∀ link ∈ links, link.In attempt s.breaks) ∧
      Reported source (round links s).2 rest

/-- Whatever it reports is about the text it is given. -/
def Parser.Faithful (parse : Parser) (source : Bytes) : Prop :=
  ∀ left breaks attempt, withBreaks source breaks = some attempt →
    ∀ link ∈ parse left breaks attempt, link.In attempt breaks

/-- What an offset of the text with breaks says about the source. -/
structure Attributed (source : Bytes) (breaks : Breaks) (attempt : Bytes) : Prop where
  /-- At each break offset, behind the breaks in front of it, a break stands. -/
  inserted : ∀ i p : Nat, breaks.keys[i]? = some p →
    (attempt.drop (p + i * autolinkBreak.length)).take autolinkBreak.length = autolinkBreak
  /-- Without the breaks it is the source. -/
  removed : unmarked autolinkBreak.length 0 breaks.keys attempt = source
  /-- Outside the breaks, the offset counted back is the offset of the same position: in front of both stands
      the same, but for the breaks counted. -/
  position : ∀ place ≤ attempt.length, ¬ Inside autolinkBreak.length breaks.keys place →
    breaksBefore place breaks * autolinkBreak.length ≤ place ∧ sourceOffset place breaks ≤ source.length ∧
      unmarked autolinkBreak.length 0 (breaks.keys.take (breaksBefore place breaks)) (attempt.take place) =
        source.take (sourceOffset place breaks)
  /-- The order of offsets stays. -/
  mono : ∀ place place', ¬ Inside autolinkBreak.length breaks.keys place →
    ¬ Inside autolinkBreak.length breaks.keys place' → place ≤ place' →
      sourceOffset place breaks ≤ sourceOffset place' breaks
  /-- A link without a byte of a break is the source's own text. -/
  own : ∀ link : Autolink, link.In attempt breaks →
    (source.drop (sourceOffset link.start breaks)).take link.text.length = link.text

section Runs

variable {source : Bytes} {breaks : Breaks} {s : Rounds} {reports earlier later : List (List Autolink)} {parse : Parser}

theorem kept_init (source : Bytes) : Kept source .init := by
  refine ⟨fun p start h => ?_, fun p start h => ?_⟩ <;>
    exact absurd h (by simp [Rounds.init])

theorem attributed (h : ∀ p ∈ breaks, charBoundary source p = true) :
    Attributed source breaks (marked autolinkBreak source 0 breaks.keys) where
  inserted i p hp := by simpa using mark_at autolinkBreak (positions_keys h) hp
  removed := unmarked_marked (positions_keys h)
  position place hplace hout := ⟨marksBefore_mul_le hout, unmarked_take (positions_keys h) hout hplace⟩
  mono _ _ _ hout' hle := unshift_mono (positions_keys h).1 hout' hle
  own _ hin := hin.source_eq h (withBreaks_eq h)

theorem afterRounds_append : afterRounds (earlier ++ later) s = afterRounds later (afterRounds earlier s) :=
  List.foldl_append

theorem reported_append : Reported source s (earlier ++ later) ↔
    Reported source s earlier ∧ Reported source (afterRounds earlier s) later := by
  induction earlier generalizing s with
  | nil => simp [Reported, afterRounds]
  | cons links earlier ih => rw [List.cons_append, Reported, Reported, ih, and_assoc]; rfl

/-- The rounds keep the invariant, and what was rejected stays so. -/
theorem afterRounds_kept (hs : Kept source s) (h : Reported source s reports) :
    Kept source (afterRounds reports s) ∧ s.rejected ⊆ (afterRounds reports s).rejected := by
  induction reports generalizing s with
  | nil => exact ⟨hs, List.Subset.refl _⟩
  | cons links reports ih =>
    have hattempt := withBreaks_eq hs.boundary
    obtain ⟨hround, hsub⟩ := round_kept hs hattempt (h.1 _ hattempt)
    obtain ⟨hkept, hrest⟩ := ih hround h.2
    exact ⟨hkept, List.Subset.trans hsub hrest⟩

/-- **The loop goes through reported rounds and does not panic.** -/
theorem rounds_eq (hparse : parse.Faithful source) (left : Nat) (hs : Kept source s) :
    ∃ reports, reports.length ≤ left ∧ Reported source s reports ∧
      rounds parse source left s = some (afterRounds reports s) := by
  induction left generalizing s with
  | zero => exact ⟨[], Nat.le_refl _, trivial, rfl⟩
  | succ left ih =>
    obtain ⟨attempt, hattempt⟩ : ∃ attempt, withBreaks source s.breaks = some attempt := ⟨_, withBreaks_eq hs.boundary⟩
    have hin := hparse left _ _ hattempt
    obtain ⟨hround, -⟩ := round_kept hs hattempt hin
    have hreported : ∀ attempt', withBreaks source s.breaks = some attempt' →
        ∀ link ∈ parse left s.breaks attempt, link.In attempt' s.breaks := by
      intro attempt' h
      rw [hattempt, Option.some.injEq] at h
      rwa [← h]
    rw [rounds, hattempt]
    simp only [Option.bind_eq_bind, Option.bind_some]
    cases hchanged : (round (parse left s.breaks attempt) s).1 with
    | false =>
      rw [if_neg (by simp)]
      exact ⟨[parse left s.breaks attempt], by simp, ⟨hreported, trivial⟩, rfl⟩
    | true =>
      obtain ⟨rest, hlen, hrest, heq⟩ := ih hround
      rw [if_pos rfl]
      exact ⟨parse left s.breaks attempt :: rest, by simpa using hlen, ⟨hreported, hrest⟩, heq⟩

/-- **A link behind breaks is attributed to its own text, and every break kept is at a bar.** For breaks at
    char boundaries the text with them is the source but for them, its offsets count back to the source's in
    their order, and a link is the source's own text. Whatever is reported in each round, every break then
    stands at a char boundary in front of a `||` of the source, and a URL start that was rejected has no break
    any more. -/
theorem autolink_breaks (source : Bytes) :
    (∀ breaks : Breaks, (∀ p ∈ breaks, charBoundary source p = true) →
      ∃ attempt, withBreaks source breaks = some attempt ∧ Attributed source breaks attempt) ∧
    (∀ earlier later, Reported source .init (earlier ++ later) →
      (∀ p ∈ (afterRounds (earlier ++ later) .init).breaks,
        charBoundary source p = true ∧ (source.drop p).take 2 = bars) ∧
      ∀ start ∈ (afterRounds earlier .init).rejected, ∀ p : Nat,
        (afterRounds (earlier ++ later) .init).breaks[p]? ≠ some start) ∧
    ∀ parse : Parser, parse.Faithful source →
      ∃ result, endAutolinksAtSpoilers parse source = some result ∧
        (result = source ∨ ∃ reports, reports.length ≤ 8 ∧ Reported source .init reports ∧
          rounds parse source 8 .init = some (afterRounds reports .init) ∧
            withBreaks source (afterRounds reports .init).breaks = some result) := by
  refine ⟨fun breaks h => ⟨_, withBreaks_eq h, attributed h⟩, fun earlier later h => ?_, fun parse hparse => ?_⟩
  · obtain ⟨hearlier, hlater⟩ := reported_append.mp h
    obtain ⟨hkept, -⟩ := afterRounds_kept (kept_init source) hearlier
    obtain ⟨hend, hsub⟩ := afterRounds_kept hkept hlater
    rw [afterRounds_append]
    refine ⟨fun p hp => ⟨hend.boundary p hp, ?_⟩, fun start hstart p hp => hend.apart p start hp (hsub hstart)⟩
    exact hend.bar p _ (Std.TreeMap.getElem?_eq_some_getElem hp)
  · unfold endAutolinksAtSpoilers
    split
    · exact ⟨source, rfl, .inl rfl⟩
    · obtain ⟨reports, hlen, hreported, heq⟩ := rounds_eq hparse 8 (kept_init source)
      rw [heq]
      simp only [Option.bind_eq_bind, Option.bind_some]
      split
      · exact ⟨source, rfl, .inl rfl⟩
      · have hkept := (afterRounds_kept (kept_init source) hreported).1
        exact ⟨_, withBreaks_eq hkept.boundary, .inr ⟨reports, hlen, hreported, rfl, withBreaks_eq hkept.boundary⟩⟩

/-- A URL between bars: its own text in the first round, without the bars and under the spoiler in the next. -/
def spoileredUrl : List (List Autolink) :=
  [[⟨2, text "http://a||", false⟩], [⟨2, text "http://a", true⟩]]

theorem autolink_breaks_sample :
    (∃ attempt, withBreaks (text "||http://a||") ((∅ : Breaks).insert 10 2) = some attempt ∧
      Attributed (text "||http://a||") ((∅ : Breaks).insert 10 2) attempt) ∧
    (afterRounds spoileredUrl .init).breaks.toList = [(10, 2)] ∧
    (∀ p ∈ (afterRounds (spoileredUrl ++ []) .init).breaks,
      charBoundary (text "||http://a||") p = true ∧ ((text "||http://a||").drop p).take 2 = bars) ∧
    ∃ result, endAutolinksAtSpoilers (fun _ _ _ => []) (text "||http://a||") = some result := by
  have hall := autolink_breaks (text "||http://a||")
  refine ⟨hall.1 _ fun p hp => ?_, by decide +kernel, (hall.2.1 spoileredUrl [] ⟨?_, ?_, trivial⟩).1, ?_⟩
  · simp only [Std.TreeMap.mem_insert, Std.LawfulEqCmp.compare_eq_iff_eq, Std.TreeMap.not_mem_emptyc, or_false] at hp
    rw [← hp]
    decide +kernel
  · have hattempt : withBreaks (text "||http://a||") Rounds.init.breaks = some (text "||http://a||") := by
      decide +kernel
    intro attempt h link hlink
    rw [hattempt, Option.some.injEq] at h
    subst h
    cases List.mem_singleton.mp hlink
    exact ⟨⟨text "||", [], by decide +kernel, by decide⟩, fun i p hp => absurd hp (by simp [Rounds.init])⟩
  · have hattempt : withBreaks (text "||http://a||") (round [⟨2, text "http://a||", false⟩] .init).2.breaks =
        some (text "||http://a<!-- -->||") := by decide +kernel
    have hkeys : (round [⟨2, text "http://a||", false⟩] .init).2.breaks.keys = [10] := by decide +kernel
    intro attempt h link hlink
    rw [hattempt, Option.some.injEq] at h
    subst h
    cases List.mem_singleton.mp hlink
    refine ⟨⟨text "||", text "<!-- -->||", by decide +kernel, by decide⟩, fun i p hp => ?_⟩
    rw [hkeys] at hp
    cases i with
    | zero =>
      cases hp
      exact .inl (by decide)
    | succ i => simp at hp
  · obtain ⟨result, hresult, -⟩ := hall.2.2 (fun _ _ _ => []) fun _ _ _ _ link hlink => absurd hlink List.not_mem_nil
    exact ⟨result, hresult⟩

end Runs

end Autolinks

end Smartfire
