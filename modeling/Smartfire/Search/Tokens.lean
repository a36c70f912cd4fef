/-
  File:      Smartfire/Search/Tokens.lean
  Subject:   A search query read word by word.

  The pattern matches whole words, and what a match is taken for depends on the word alone. So a query is
  its words, and squishing parts them once more where other white space stands.

  * `matchOperator_word`, `scan_word` -- a match is a word;
  * `entries_eq` -- what is recognised, word by word;
  * `words_removedText` -- the spans deleted are the words that are tokens;
  * `squish_eq` -- a text squished is its words, joined;
  * `parseWithOperators_eq` -- the query in terms of its tokens.
-/
import Smartfire.Lib.Bytes
import Smartfire.Search.Query

namespace Smartfire.Search

open Lib

/-! ## 1. A match is a word -/

section Match

variable {w rest : Text} {operator : Operator} {value : Text}

/-- An operator with its colon. -/
def Operator.head (operator : Operator) : Text := operator.name.toList ++ [':']

theorem head_word (operator : Operator) : IsWord isSpace operator.head := by
  refine ⟨by simp [Operator.head], forall_mem_of_all ?_⟩
  cases operator <;> decide +kernel

theorem takeWhile_word (hw : ∀ c ∈ w, isSpace c = false) (hr : Stops isSpace rest) :
    (w ++ rest).takeWhile (fun c => !isSpace c) = w := by
  rw [List.takeWhile_append_of_pos fun c hc => by simp [hw c hc]]
  cases rest with
  | nil => simp
  | cons c rest =>
    have hc : isSpace c = true := hr c rfl
    rw [List.takeWhile_cons_of_neg (by simp [hc]), List.append_nil]

/-- What follows the word bears on no match. -/
theorem matchOperator_word (hw : IsWord isSpace w) (hr : Stops isSpace rest) :
    matchOperator (w ++ rest) = matchOperator w := by
  unfold matchOperator
  congr 1
  funext operator
  have hheads : operator.head <+: w ++ rest ↔ operator.head <+: w :=
    ⟨fun h => prefix_of_prefix_append (head_word operator).2 hr h, fun h => h.trans (List.prefix_append ..)⟩
  show (if operator.head <+: w ++ rest then _ else _) = if operator.head <+: w then _ else _
  by_cases h : operator.head <+: w
  · have hin (c : Char) (hc : c ∈ w.drop operator.head.length) : isSpace c = false := hw.2 c (List.mem_of_mem_drop hc)
    have hvalue : ((w ++ rest).drop operator.head.length).takeWhile (fun c => !isSpace c) =
        (w.drop operator.head.length).takeWhile fun c => !isSpace c := by
      rw [List.drop_append_of_le_length h.length_le, takeWhile_word hin hr]
      have halone := takeWhile_word hin (stops_nil isSpace)
      rw [List.append_nil] at halone
      exact halone.symm
    rw [if_pos (hheads.mpr h), if_pos h]
    dsimp only
    rw [show (operator.name.toList ++ [':']).length = operator.head.length from rfl, hvalue]
  · rw [if_neg (mt hheads.mp h), if_neg h]

/-- **A match takes the whole word.** -/
theorem word_of_match (hw : IsWord isSpace w) (h : matchOperator w = some (operator, value)) :
    operator.name.toList ++ ':' :: value = w := by
  obtain ⟨_, _, found, -, hfound, -⟩ := List.findSome?_eq_some_iff.mp h
  dsimp only at hfound
  split at hfound
  · next hheads =>
    split at hfound
    · cases hfound
    · obtain ⟨rfl, rfl⟩ := Prod.mk.inj (Option.some.inj hfound)
      obtain ⟨u, rfl⟩ := hheads
      have hu : (u ++ []).takeWhile (fun c => !isSpace c) = u :=
        takeWhile_word (fun c hc => hw.2 c (List.mem_append_right _ hc)) (stops_nil isSpace)
      rw [List.append_nil] at hu
      rw [List.drop_left, hu]
      simp
  · cases hfound

theorem matchOperator_space {c : Char} (hc : isSpace c = true) (s : Text) : matchOperator (c :: s) = none := by
  refine List.findSome?_eq_none_iff.mpr fun operator _ => if_neg fun hp => ?_
  have hp : operator.head <+: c :: s := hp
  obtain ⟨d, u, hd⟩ := List.exists_cons_of_ne_nil (head_word operator).1
  rw [hd] at hp
  obtain ⟨rfl, -⟩ := List.cons_prefix_cons.mp hp
  have hfalse := (head_word operator).2 d (hd ▸ List.mem_cons_self ..)
  rw [hc] at hfalse
  cases hfalse

theorem scan_stops (hr : Stops isSpace rest) (boundary : Bool) (position : Nat) :
    scan 0 boundary position rest = scan 0 true position rest := by
  cases rest with
  | nil => rfl
  | cons c rest =>
    have hc : isSpace c = true := hr c rfl
    cases boundary with
    | true => rfl
    | false =>
      rw [scan, scan, if_pos rfl, matchOperator_space hc]
      rfl

theorem scan_space {c : Char} (hc : isSpace c = true) (position : Nat) (s : Text) :
    scan 0 true position (c :: s) = scan 0 true (position + 1) s := by
  rw [scan, if_pos rfl, matchOperator_space hc, hc]

/-- The rest of a match is passed over. -/
theorem scan_skip (hw : ∀ c ∈ w, isSpace c = false) (hr : Stops isSpace rest) (boundary : Bool) (position : Nat) :
    scan w.length boundary position (w ++ rest) = scan 0 true (position + w.length) rest := by
  induction w generalizing boundary position with
  | nil => exact scan_stops hr boundary position
  | cons c w ih =>
    have hlength : position + (w.length + 1) = position + 1 + w.length := by omega
    rw [List.length_cons, List.cons_append, scan, ih fun d hd => hw d (List.mem_cons_of_mem _ hd), hlength]

/-- So is a word without one. -/
theorem scan_inside (hw : ∀ c ∈ w, isSpace c = false) (hr : Stops isSpace rest) (position : Nat) :
    scan 0 false position (w ++ rest) = scan 0 true (position + w.length) rest := by
  induction w generalizing position with
  | nil => exact scan_stops hr false position
  | cons c w ih =>
    have hlength : position + (w.length + 1) = position + 1 + w.length := by omega
    rw [List.cons_append, scan, if_neg (by simp), hw c (List.mem_cons_self ..), List.length_cons, hlength]
    exact ih (fun d hd => hw d (List.mem_cons_of_mem _ hd)) (position + 1)

/-- The match that a word is. -/
def wordCapture (position : Nat) (w : Text) : Option Capture :=
  (matchOperator w).map fun (operator, value) => ⟨position, operator, value⟩

/-- **The scan goes word by word.** -/
theorem scan_word (hw : IsWord isSpace w) (hr : Stops isSpace rest) (position : Nat) :
    scan 0 true position (w ++ rest) =
      (wordCapture position w).toList ++ scan 0 true (position + w.length) rest := by
  obtain ⟨c, u, rfl⟩ := List.exists_cons_of_ne_nil hw.1
  have hmatch := matchOperator_word hw hr
  rw [List.cons_append] at hmatch
  have hu : ∀ d ∈ u, isSpace d = false := fun d hd => hw.2 d (List.mem_cons_of_mem _ hd)
  have hlength : position + (c :: u).length = position + 1 + u.length := by
    rw [List.length_cons]
    omega
  rw [List.cons_append, scan, if_pos rfl, hmatch, wordCapture, hlength]
  cases hfound : matchOperator (c :: u) with
  | none =>
    rw [hw.2 c (List.mem_cons_self ..)]
    exact scan_inside hu hr (position + 1)
  | some found =>
    obtain ⟨operator, value⟩ := found
    have hword := congrArg List.length (word_of_match hw hfound)
    have hskip : operator.name.length + value.length = u.length := by
      rw [List.length_append, List.length_cons, List.length_cons, String.length_toList] at hword
      omega
    show _ :: scan (operator.name.length + value.length) _ _ _ = _
    rw [hskip]
    exact congrArg (List.cons _) (scan_skip hu hr _ (position + 1))

end Match

/-! ## 2. What is recognised, word by word -/

/-- What a word is taken for, if it is a token. -/
def tokenOf (extended : Bool) (w : Text) : Option (Operator × Text) :=
  match matchOperator w with
  | some (operator, value) => (recognize extended ⟨0, operator, value⟩).map fun cleaned => (operator, cleaned)
  | none => none

def isToken (extended : Bool) (w : Text) : Bool := (tokenOf extended w).isSome

/-- The words that are tokens, from left to right. -/
def tokens (extended : Bool) (s : Text) : List Text := (words isSpace s).filter (isToken extended)

section Entries

variable {extended : Bool} {w rest : Text}

/-- A recognised match: its token, its operator and the value. -/
def entryOf (extended : Bool) (capture : Capture) : Option (Text × Operator × Text) :=
  (recognize extended capture).map fun cleaned => (capture.token, capture.operator, cleaned)

def wordEntry (extended : Bool) (w : Text) : Option (Text × Operator × Text) :=
  (tokenOf extended w).map fun found => (w, found)

theorem entryOf_wordCapture (extended : Bool) (hw : IsWord isSpace w) (position : Nat) :
    (wordCapture position w).bind (entryOf extended) = wordEntry extended w := by
  unfold wordCapture wordEntry tokenOf
  cases hfound : matchOperator w with
  | none => rfl
  | some found =>
    obtain ⟨operator, value⟩ := found
    have hrecognize : recognize extended ⟨position, operator, value⟩ = recognize extended ⟨0, operator, value⟩ := rfl
    have htoken : Capture.token ⟨position, operator, value⟩ = w := word_of_match hw hfound
    simp only [Option.map_some, Option.bind_some, entryOf, hrecognize, htoken]
    cases recognize extended ⟨0, operator, value⟩ <;> rfl

theorem filterMap_toList {A B : Type} (f : A → Option B) (a : Option A) : a.toList.filterMap f = (a.bind f).toList := by
  cases a with
  | none => rfl
  | some a => cases h : f a <;> simp [h]

/-- **What the scan recognises** is the words that are tokens. -/
theorem entries_scan (extended : Bool) (position : Nat) (s : Text) :
    (scan 0 true position s).filterMap (entryOf extended) = (words isSpace s).filterMap (wordEntry extended) := by
  induction s using words_induct isSpace generalizing position with
  | nil => simp [scan]
  | space c s hc ih => rw [scan_space hc, words_cons_sep hc, ih]
  | word w rest hw hr ih =>
    rw [scan_word hw hr, words_append hw hr, List.filterMap_append, filterMap_toList, entryOf_wordCapture extended hw, ih]
    cases hentry : wordEntry extended w <;> simp [hentry]

theorem isToken_iff : isToken extended w = true ↔ ∃ found, wordEntry extended w = some (w, found) := by
  unfold isToken wordEntry
  cases tokenOf extended w <;> simp

theorem entries_tokens (extended : Bool) (s : Text) :
    (tokens extended s).filterMap (wordEntry extended) = (words isSpace s).filterMap (wordEntry extended) := by
  rw [tokens, List.filterMap_filter]
  refine List.filterMap_congr fun w _ => ?_
  unfold isToken wordEntry
  cases tokenOf extended w <;> simp

theorem fst_wordEntry {ws : List Text} (h : ∀ w ∈ ws, isToken extended w = true) :
    (ws.filterMap (wordEntry extended)).map Prod.fst = ws := by
  induction ws with
  | nil => rfl
  | cons w ws ih =>
    obtain ⟨found, hfound⟩ := isToken_iff.mp (h w (List.mem_cons_self ..))
    rw [List.filterMap_cons_some hfound, List.map_cons, ih fun v hv => h v (List.mem_cons_of_mem _ hv)]

theorem isToken_of_mem {s : Text} (h : w ∈ tokens extended s) : isToken extended w = true := (List.mem_filter.mp h).2

/-! ## 3. The spans deleted -/

variable {spans later : List Capture} {position : Nat}

theorem deleteSpans_append (spans : List Capture) (position : Nat) (u s : Text) :
    deleteSpans spans position (u ++ s) = deleteSpans spans position u ++ deleteSpans spans (position + u.length) s := by
  induction u generalizing position with
  | nil => rfl
  | cons c u ih =>
    have hlength : position + (u.length + 1) = position + 1 + u.length := by omega
    rw [List.cons_append, deleteSpans, deleteSpans, ih, List.length_cons, hlength]
    split <;> rfl

theorem deleteSpans_out {u : Text}
    (h : ∀ i, position ≤ i → i < position + u.length → spans.any (·.covers i) = false) :
    deleteSpans spans position u = u := by
  induction u generalizing position with
  | nil => rfl
  | cons c u ih =>
    rw [List.length_cons] at h
    rw [deleteSpans, if_neg (by rw [h position (by omega) (by omega)]; simp),
      ih fun i hi hlt => h i (by omega) (by omega)]

theorem deleteSpans_in {u : Text}
    (h : ∀ i, position ≤ i → i < position + u.length → spans.any (·.covers i) = true) :
    deleteSpans spans position u = [] := by
  induction u generalizing position with
  | nil => rfl
  | cons c u ih =>
    rw [List.length_cons] at h
    rw [deleteSpans, if_pos (h position (by omega) (by omega)), ih fun i hi hlt => h i (by omega) (by omega)]

theorem deleteSpans_congr {s : Text} (h : ∀ i, position ≤ i → spans.any (·.covers i) = later.any (·.covers i)) :
    deleteSpans spans position s = deleteSpans later position s := by
  induction s generalizing position with
  | nil => rfl
  | cons c s ih =>
    rw [deleteSpans, deleteSpans, h position (Nat.le_refl _), ih fun i hi => h i (by omega)]

/-- Later matches start later. -/
theorem start_scan {capture : Capture} {s : Text} (h : capture ∈ scan 0 true position s) : position ≤ capture.start := by
  induction s using words_induct isSpace generalizing position with
  | nil => simp [scan] at h
  | space c s hc ih =>
    rw [scan_space hc] at h
    have hle := ih h
    omega
  | word w rest hw hr ih =>
    rw [scan_word hw hr, List.mem_append] at h
    rcases h with h | h
    · unfold wordCapture at h
      cases hfound : matchOperator w with
      | none => simp [hfound] at h
      | some found =>
        rw [hfound] at h
        obtain rfl := List.mem_singleton.mp h
        exact Nat.le_refl _
    · have hle := ih h
      omega

theorem uncovered (hspans : ∀ capture ∈ spans, position ≤ capture.start) {i : Nat} (hi : i < position) :
    spans.any (·.covers i) = false := by
  refine List.any_eq_false.mpr fun capture hc => ?_
  have hle := hspans capture hc
  simp only [Capture.covers, Bool.and_eq_true, decide_eq_true_eq, not_and]
  omega

/-- The recognised matches of a scan. -/
def spansFrom (extended : Bool) (position : Nat) (s : Text) : List Capture :=
  (scan 0 true position s).filter fun capture => (recognize extended capture).isSome

theorem start_spansFrom {capture : Capture} {s : Text} (h : capture ∈ spansFrom extended position s) :
    position ≤ capture.start := start_scan (List.mem_filter.mp h).1

/-- A space is in no span. -/
theorem stops_deleteSpans (extended : Bool) (hr : Stops isSpace rest) (position : Nat) :
    Stops isSpace (deleteSpans (spansFrom extended position rest) position rest) := by
  cases rest with
  | nil => exact stops_nil isSpace
  | cons c rest =>
    have hc : isSpace c = true := hr c rfl
    have hspans : ∀ capture ∈ spansFrom extended position (c :: rest), position + 1 ≤ capture.start := by
      intro capture h
      rw [spansFrom, scan_space hc] at h
      exact start_scan (List.mem_filter.mp h).1
    have hout := uncovered hspans (Nat.lt_succ_self position)
    rw [deleteSpans, if_neg (by rw [hout]; simp)]
    exact stops_cons hc _

/-- What a word leaves in the text. -/
theorem spansFrom_word (hw : IsWord isSpace w) (hr : Stops isSpace rest) (position : Nat) :
    deleteSpans (spansFrom extended position (w ++ rest)) position (w ++ rest) =
      (if isToken extended w then [] else w) ++
        deleteSpans (spansFrom extended (position + w.length) rest) (position + w.length) rest := by
  have hlater : ∀ capture ∈ spansFrom extended (position + w.length) rest, position + w.length ≤ capture.start :=
    fun _ h => start_spansFrom h
  have hsplit : spansFrom extended position (w ++ rest) =
      (wordCapture position w).toList.filter (fun capture => (recognize extended capture).isSome) ++
        spansFrom extended (position + w.length) rest := by
    rw [spansFrom, scan_word hw hr, List.filter_append, spansFrom]
  rw [deleteSpans_append, hsplit]
  have hentry := entryOf_wordCapture extended hw position
  cases hcapture : wordCapture position w with
  | none =>
    have hnot : isToken extended w = false := by
      rw [hcapture, Option.bind_none, wordEntry] at hentry
      simpa [isToken] using hentry.symm
    simp only [Option.toList_none, List.filter_nil, List.nil_append, hnot, Bool.false_eq_true, if_false]
    rw [deleteSpans_out fun i hi hlt => uncovered hlater hlt]
  | some capture =>
    have hcovers (i : Nat) : capture.covers i = true ↔ position ≤ i ∧ i < position + w.length := by
      unfold wordCapture at hcapture
      cases hfound : matchOperator w with
      | none => simp [hfound] at hcapture
      | some found =>
        rw [hfound] at hcapture
        obtain rfl := Option.some.inj hcapture
        have htoken : Capture.token ⟨position, found.1, found.2⟩ = w := word_of_match hw hfound
        simp only [Capture.covers, Bool.and_eq_true, decide_eq_true_eq]
        rw [htoken]
    have htoken : isToken extended w = (recognize extended capture).isSome := by
      rw [hcapture, Option.bind_some, entryOf, wordEntry] at hentry
      have hsome := congrArg Option.isSome hentry
      rw [Option.isSome_map, Option.isSome_map] at hsome
      exact hsome.symm
    rw [htoken]
    cases hrecognized : (recognize extended capture).isSome with
    | false =>
      simp only [Option.toList_some, List.filter_cons, hrecognized, Bool.false_eq_true, if_false, List.filter_nil,
        List.nil_append]
      rw [deleteSpans_out fun i hi hlt => uncovered hlater hlt]
    | true =>
      simp only [Option.toList_some, List.filter_cons, hrecognized, if_true, List.filter_nil, List.singleton_append]
      rw [deleteSpans_in fun i hi hlt => by rw [List.any_cons, (hcovers i).mpr ⟨hi, hlt⟩, Bool.true_or]]
      rw [List.nil_append, List.nil_append]
      refine deleteSpans_congr fun i hi => ?_
      have hout : capture.covers i = false := Bool.eq_false_iff.mpr fun hin => by
        have := (hcovers i).mp hin
        omega
      rw [List.any_cons, hout, Bool.false_or]

/-- **The spans deleted** are the words that are tokens. -/
theorem words_removedText (extended : Bool) (raw : Text) :
    words isSpace (removedText extended raw) = (words isSpace raw).filter fun w => !isToken extended w := by
  have hfrom (position : Nat) (s : Text) : words isSpace (deleteSpans (spansFrom extended position s) position s) =
      (words isSpace s).filter fun w => !isToken extended w := by
    induction s using words_induct isSpace generalizing position with
    | nil => simp [deleteSpans]
    | space c s hc ih =>
      have hspans : spansFrom extended position (c :: s) = spansFrom extended (position + 1) s := by
        rw [spansFrom, scan_space hc, spansFrom]
      have hlater : ∀ capture ∈ spansFrom extended (position + 1) s, position + 1 ≤ capture.start :=
        fun _ => start_spansFrom
      have hout := uncovered hlater (Nat.lt_succ_self position)
      rw [hspans, deleteSpans, if_neg (by rw [hout]; simp), words_cons_sep hc, words_cons_sep hc, ih]
    | word w rest hw hr ih =>
      rw [spansFrom_word hw hr, words_append hw hr]
      have hstop := stops_deleteSpans extended hr (position + w.length)
      cases htoken : isToken extended w with
      | true =>
        rw [List.filter_cons_of_neg (by simp [htoken]), if_pos rfl, List.nil_append, ih]
      | false =>
        rw [List.filter_cons_of_pos (by simp [htoken]), if_neg (by simp), words_append hw hstop, ih]
  exact hfrom 0 raw

end Entries

/-! ## 4. Squished texts -/

/-- Words with a space between. -/
def join (ws : List Text) : Text := List.intercalate [' '] ws

section Squish

variable {ws : List Text} {s : Text}

theorem isWhitespace_of_isSpace {c : Char} (h : isSpace c = true) : isWhitespace c = true := by
  simp only [isSpace, Bool.or_eq_true, Bool.and_eq_true, decide_eq_true_eq, beq_iff_eq] at h
  simp only [isWhitespace, Bool.or_eq_true, Bool.and_eq_true, decide_eq_true_eq, beq_iff_eq]
  omega

theorem join_cons {w : Text} (hne : ws ≠ []) : join (w :: ws) = w ++ ' ' :: join ws := by
  rw [join, List.intercalate_cons_of_ne_nil hne, List.append_assoc]
  rfl

theorem replaceSpaces_word {w : Text} (hw : ∀ c ∈ w, isWhitespace c = false) (rest : Text) :
    replaceSpaces false (w ++ rest) = w ++ replaceSpaces false rest := by
  induction w with
  | nil => rfl
  | cons c w ih =>
    rw [List.cons_append, replaceSpaces, if_neg (by rw [hw c (List.mem_cons_self ..)]; simp),
      ih fun d hd => hw d (List.mem_cons_of_mem _ hd), List.cons_append]

/-- At a word it makes no difference whether a run of spaces came before. -/
theorem replaceSpaces_start {w : Text} (hw : IsWord isWhitespace w) (rest : Text) :
    replaceSpaces true (w ++ rest) = replaceSpaces false (w ++ rest) := by
  obtain ⟨c, u, rfl⟩ := List.exists_cons_of_ne_nil hw.1
  have hc := hw.2 c (List.mem_cons_self ..)
  rw [List.cons_append, replaceSpaces, replaceSpaces, if_neg (by rw [hc]; simp), if_neg (by rw [hc]; simp)]

/-- Inside a run of spaces: the words, joined, and what white space is left. -/
theorem replaceSpaces_true (s : Text) : ∃ trail, (∀ c ∈ trail, isWhitespace c = true) ∧
    replaceSpaces true s = join (words isWhitespace s) ++ trail := by
  induction s using words_induct isWhitespace with
  | nil => exact ⟨[], by simp, by simp [replaceSpaces, join]⟩
  | space c s hc ih =>
    rw [replaceSpaces, if_pos hc, if_pos rfl, words_cons_sep hc]
    exact ih
  | word w rest hw hr ih =>
    rw [replaceSpaces_start hw, replaceSpaces_word hw.2, words_append hw hr]
    cases rest with
    | nil => exact ⟨[], by simp, by simp [replaceSpaces, join]⟩
    | cons c rest =>
      have hc : isWhitespace c = true := hr c rfl
      rw [replaceSpaces, if_pos hc, if_pos rfl] at ih
      rw [replaceSpaces, if_pos hc, if_neg (by simp)]
      obtain ⟨trail, htrail, heq⟩ := ih
      rw [heq]
      by_cases hnil : words isWhitespace (c :: rest) = []
      · refine ⟨' ' :: trail, fun d hd => ?_, by simp [hnil, join]⟩
        rcases List.mem_cons.mp hd with rfl | hd
        · rfl
        · exact htrail d hd
      · exact ⟨trail, htrail, by rw [join_cons hnil, List.append_assoc, List.cons_append]⟩

/-- Words joined start and end with one of their characters. -/
theorem join_ends (h : ∀ w ∈ ws, IsWord isWhitespace w) :
    (∀ c ∈ (join ws).head?, isWhitespace c = false) ∧ ∀ c ∈ (join ws).reverse.head?, isWhitespace c = false := by
  induction ws with
  | nil => simp [join]
  | cons w ws ih =>
    have hw := h w (List.mem_cons_self ..)
    have hin (c : Char) (hc : c ∈ w.head?) : isWhitespace c = false := hw.2 c (List.mem_of_mem_head? hc)
    have hhead (s : Text) : (w ++ s).head? = w.head? := by
      rw [List.head?_append]
      cases hh : w.head? with
      | none => exact absurd (List.head?_eq_none_iff.mp hh) hw.1
      | some c => rfl
    by_cases hnil : ws = []
    · subst hnil
      have hone : join [w] = w := List.intercalate_singleton
      rw [hone]
      exact ⟨hin, fun c hc => hw.2 c (List.mem_reverse.mp (List.mem_of_mem_head? hc))⟩
    · obtain ⟨-, hlast⟩ := ih fun v hv => h v (List.mem_cons_of_mem _ hv)
      rw [join_cons hnil]
      refine ⟨fun c hc => hin c (by rwa [hhead] at hc), fun c hc => ?_⟩
      have hne : (join ws).reverse ≠ [] := by
        obtain ⟨v, vs, rfl⟩ := List.exists_cons_of_ne_nil hnil
        have hv := (h v (by simp)).1
        intro hrev
        have hjoin := List.reverse_eq_nil_iff.mp hrev
        by_cases hvs : vs = []
        · subst hvs
          exact hv (by rwa [show join [v] = v from List.intercalate_singleton] at hjoin)
        · rw [join_cons hvs] at hjoin
          exact hv (List.append_eq_nil_iff.mp hjoin).1
      rw [List.reverse_append, List.reverse_cons, List.append_assoc, List.head?_append] at hc
      cases hh : (join ws).reverse.head? with
      | none => exact absurd (List.head?_eq_none_iff.mp hh) hne
      | some d =>
        rw [hh] at hc
        exact hlast c (hh ▸ hc)

theorem dropWhile_lead {lead m : Text} (hlead : ∀ c ∈ lead, isWhitespace c = true)
    (hm : ∀ c ∈ m.head?, isWhitespace c = false) : (lead ++ m).dropWhile isWhitespace = m := by
  rw [List.dropWhile_append_of_pos hlead]
  cases m with
  | nil => rfl
  | cons c m => rw [List.dropWhile_cons_of_neg (by rw [hm c rfl]; simp)]

theorem trim_eq {lead m trail : Text} (hlead : ∀ c ∈ lead, isWhitespace c = true)
    (htrail : ∀ c ∈ trail, isWhitespace c = true) (hhead : ∀ c ∈ m.head?, isWhitespace c = false)
    (hlast : ∀ c ∈ m.reverse.head?, isWhitespace c = false) : trim (lead ++ m ++ trail) = m := by
  have hend : (m ++ trail).rdropWhile isWhitespace = m := by
    rw [List.rdropWhile, List.reverse_append,
      dropWhile_lead (fun c hc => htrail c (List.mem_reverse.mp hc)) hlast, List.reverse_reverse]
  have hall (c : Char) (hc : c ∈ lead ++ trail) : isWhitespace c = true :=
    (List.mem_append.mp hc).elim (hlead c) (htrail c)
  rw [trim, List.append_assoc]
  by_cases hnil : m = []
  · subst hnil
    have hdrop := dropWhile_lead (m := []) hall (by simp)
    rw [List.append_nil] at hdrop
    rw [List.nil_append, hdrop]
    rfl
  · rw [dropWhile_lead hlead, hend]
    intro c hc
    obtain ⟨d, u, rfl⟩ := List.exists_cons_of_ne_nil hnil
    exact hhead c hc

/-- **A text squished** is its words, joined. -/
theorem squish_eq (s : Text) : squish s = join (words isWhitespace s) := by
  have hends : _ ∧ _ := join_ends fun w (hw : w ∈ words isWhitespace s) => isWord_of_mem hw
  obtain ⟨trail, htrail, heq⟩ := replaceSpaces_true s
  have hlead : ∃ lead, (∀ c ∈ lead, isWhitespace c = true) ∧ replaceSpaces false s = lead ++ replaceSpaces true s := by
    cases s with
    | nil => exact ⟨[], by simp, rfl⟩
    | cons c s =>
      by_cases hc : isWhitespace c = true
      · refine ⟨[' '], forall_mem_of_all (by decide), ?_⟩
        rw [replaceSpaces, replaceSpaces, if_pos hc, if_pos hc, if_neg (by simp), if_pos rfl]
        rfl
      · refine ⟨[], by simp, ?_⟩
        rw [replaceSpaces, replaceSpaces, if_neg hc, if_neg hc]
        rfl
  obtain ⟨lead, hlead, hstart⟩ := hlead
  rw [squish, hstart, heq, ← List.append_assoc]
  exact trim_eq hlead htrail hends.1 hends.2

/-- Squished, a text parts at every white space. -/
theorem words_squish (s : Text) : words isSpace (squish s) = words isWhitespace s := by
  rw [squish_eq]
  exact words_join (by decide) fun w hw => (isWord_of_mem hw).coarse fun _ => isWhitespace_of_isSpace

theorem words_squish_fine (s : Text) : words isWhitespace (squish s) = words isWhitespace s := by
  rw [squish_eq]
  exact words_join (by decide) fun w hw => isWord_of_mem hw

theorem squish_inj {s s' : Text} : squish s = squish s' ↔ words isWhitespace s = words isWhitespace s' := by
  refine ⟨fun h => ?_, fun h => by rw [squish_eq, squish_eq, h]⟩
  rw [← words_squish_fine, h, words_squish_fine]

end Squish

/-! ## 5. The query in terms of its tokens -/

section Parse

variable {extended : Bool} {raw : Text}

/-- Each token removed by its first occurrence in what is left. -/
def removeAll (ts : List Text) (s : Text) : Text := ts.foldl (fun s t => removeFirst t s) s

/-- The filters alone. -/
def SearchQuery.withoutText (q : SearchQuery) : SearchQuery := { q with raw := [], text := [], chips := [] }

/-- The filters that tokens add, from left to right. -/
def filtersOf (extended : Bool) (ts : List Text) : SearchQuery :=
  (ts.filterMap (wordEntry extended)).foldl (fun q entry => q.applyOperator entry.2.1 entry.2.2) (.new [])

/-- A token's chip. -/
def chipOf (raw : Text) (entry : Text × Operator × Text) : Chip :=
  ⟨entry.1, label entry.2.1 entry.2.2, squish (removeFirst entry.1 raw)⟩

def parseEntry (raw : Text) (state : SearchQuery × Text) (entry : Text × Operator × Text) : SearchQuery × Text :=
  ({ state.1.applyOperator entry.2.1 entry.2.2 with
      chips := (state.1.applyOperator entry.2.1 entry.2.2).chips ++ [chipOf raw entry] }, removeFirst entry.1 state.2)

theorem parseCapture_eq (raw : Text) (extended : Bool) (state : SearchQuery × Text) (capture : Capture) :
    parseCapture raw extended state capture =
      match entryOf extended capture with
      | some entry => parseEntry raw state entry
      | none => state := by
  unfold parseCapture entryOf
  cases recognize extended capture <;> rfl

theorem applyOperator_chips (q : SearchQuery) (operator : Operator) (cleaned : Text) :
    (q.applyOperator operator cleaned).chips = q.chips := by
  cases operator
  case has =>
    unfold SearchQuery.applyOperator
    dsimp only
    split <;> rfl
  all_goals rfl

theorem applyOperator_withoutText (q : SearchQuery) (operator : Operator) (cleaned : Text) :
    (q.applyOperator operator cleaned).withoutText = q.withoutText.applyOperator operator cleaned := by
  cases operator
  case has =>
    have hvalues : q.withoutText.hasValues = q.hasValues := rfl
    unfold SearchQuery.applyOperator
    dsimp only
    rw [hvalues]
    split <;> rfl
  all_goals rfl

/-- What a run over the entries leaves. -/
theorem foldl_parseEntry (entries : List (Text × Operator × Text)) (q : SearchQuery) (remaining : Text) :
    ((entries.foldl (parseEntry raw) (q, remaining)).1.chips = q.chips ++ entries.map (chipOf raw)) ∧
      (entries.foldl (parseEntry raw) (q, remaining)).1.withoutText =
        entries.foldl (fun q entry => q.applyOperator entry.2.1 entry.2.2) q.withoutText ∧
      (entries.foldl (parseEntry raw) (q, remaining)).2 = removeAll (entries.map Prod.fst) remaining := by
  induction entries generalizing q remaining with
  | nil => exact ⟨(List.append_nil _).symm, rfl, rfl⟩
  | cons entry entries ih =>
    obtain ⟨hchips, hfilters, hrest⟩ := ih (parseEntry raw (q, remaining) entry).1 (parseEntry raw (q, remaining) entry).2
    refine ⟨?_, ?_, ?_⟩
    · rw [List.foldl_cons, hchips]
      show ((q.applyOperator entry.2.1 entry.2.2).chips ++ [chipOf raw entry]) ++ _ = _
      rw [applyOperator_chips, List.append_assoc, List.map_cons, List.singleton_append]
    · rw [List.foldl_cons, hfilters, List.foldl_cons]
      congr 1
      exact applyOperator_withoutText q entry.2.1 entry.2.2
    · rw [List.foldl_cons, hrest, List.map_cons]
      rfl

theorem foldl_captures (raw : Text) (extended : Bool) (state : SearchQuery × Text) :
    (capturesIter raw).foldl (parseCapture raw extended) state =
      ((tokens extended raw).filterMap (wordEntry extended)).foldl (parseEntry raw) state := by
  rw [entries_tokens, ← entries_scan extended 0 raw, List.foldl_filterMap]
  congr 1
  funext state capture
  rw [parseCapture_eq]
  cases entryOf extended capture <;> rfl

theorem parse_text (raw : Text) (extended : Bool) :
    (parseWithOperators raw extended).text = squish (removeAll (tokens extended raw) raw) := by
  show squish ((capturesIter raw).foldl (parseCapture raw extended) (.new raw, raw)).2 = _
  rw [foldl_captures, (foldl_parseEntry ..).2.2, fst_wordEntry fun _ => isToken_of_mem]

/-- **A chip for every token.** -/
theorem parse_chips (raw : Text) (extended : Bool) :
    (parseWithOperators raw extended).chips = ((tokens extended raw).filterMap (wordEntry extended)).map (chipOf raw) := by
  show ((capturesIter raw).foldl (parseCapture raw extended) (.new raw, raw)).1.chips = _
  rw [foldl_captures, (foldl_parseEntry ..).1]
  rfl

/-- **The filters are the tokens'.** -/
theorem parse_filters (raw : Text) (extended : Bool) :
    (parseWithOperators raw extended).withoutText = filtersOf extended (tokens extended raw) := by
  show ((capturesIter raw).foldl (parseCapture raw extended) (.new raw, raw)).1.withoutText = _
  rw [foldl_captures, (foldl_parseEntry ..).2.1]
  rfl

end Parse

end Smartfire.Search
