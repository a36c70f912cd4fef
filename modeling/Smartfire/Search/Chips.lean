/-
  File:      Smartfire/Search/Chips.lean
  Subject:   What removing a chip does to a search query.

  A chip's query is the raw one without the first occurrence of the chip's token, and that may stand in
  another word. Squished, it also parts words that the pattern took for one.

  * `ChipsRemove` -- each chip's query is the query without that chip;
  * `RemovesWhen` -- when that is so: in terms of words and tokens;
  * `chipsRemove_iff` -- it is so then only.
-/
import Mathlib.Data.List.InsertIdx
import Smartfire.Search.Tokens

namespace Smartfire.Search

open Lib

/-! ## 1. What a chip's query owes -/

/-- What of a chip is shown. -/
def Chip.shown (chip : Chip) : Text × Text := (chip.token, chip.label)

/-- **Removing a chip removes that filter and nothing else.** -/
structure ChipsRemove (extended : Bool) (raw : Text) : Prop where
  text : (parseWithOperators raw extended).text = squish (removedText extended raw)
  removed : ∀ i chip, (parseWithOperators raw extended).chips[i]? = some chip →
    let rest := ((parseWithOperators raw extended).chips.map Chip.shown).eraseIdx i
    (parseWithOperators chip.removeQuery extended).text = (parseWithOperators raw extended).text ∧
      (parseWithOperators chip.removeQuery extended).chips.map Chip.shown = rest ∧
      (parseWithOperators chip.removeQuery extended).withoutText = filtersOf extended (rest.map Prod.fst)

/-! ## 2. When it does -/

/-- Nothing stands in a token's way. The words are those that any white space parts. -/
structure Apart (extended : Bool) (raw : Text) : Prop where
  /-- White space that the pattern knows not parts no token, and no token from other text. -/
  settled : ∀ w ∈ words isSpace raw,
    (words isWhitespace w).filter (isToken extended) = if isToken extended w then [w] else []
  /-- A word that holds a later token's text is a token. -/
  undisturbed : Undisturbed (isToken extended) (words isWhitespace raw)
  /-- The first word that holds a token's text is that token. -/
  first : ∀ t ∈ words isWhitespace raw, isToken extended t = true → StandsFirst t (words isWhitespace raw)
  /-- Between equal tokens stand equal tokens only. -/
  adjoin : EqualsAdjoin (tokens extended raw)

/-- The one token holds white space that the pattern knows not. Without it no token shows, and its first
    occurrence leaves the same words. -/
def LoneSpaced (extended : Bool) (raw : Text) : Prop :=
  ∃ t, tokens extended raw = [t] ∧ ¬ IsWord isWhitespace t ∧ tokens extended (squish (removedText extended raw)) = [] ∧
    squish (removeFirst t raw) = squish (removedText extended raw)

def RemovesWhen (extended : Bool) (raw : Text) : Prop :=
  tokens extended raw = [] ∨ Apart extended raw ∨ LoneSpaced extended raw

/-! ## 3. In terms of words -/

section Words

variable {extended : Bool} {raw t : Text} {i : Nat}

theorem shown_chips (raw : Text) (extended : Bool) :
    (parseWithOperators raw extended).chips.map Chip.shown =
      ((tokens extended raw).filterMap (wordEntry extended)).map fun entry =>
        (entry.1, label entry.2.1 entry.2.2) := by
  rw [parse_chips, List.map_map]
  rfl

theorem shown_fst (raw : Text) (extended : Bool) :
    ((parseWithOperators raw extended).chips.map Chip.shown).map Prod.fst = tokens extended raw := by
  rw [shown_chips, List.map_map]
  exact fst_wordEntry fun _ => isToken_of_mem

theorem filterMap_eraseIdx {A B : Type} {f : A → Option B} {l : List A} (h : ∀ a ∈ l, (f a).isSome = true) (i : Nat) :
    (l.eraseIdx i).filterMap f = (l.filterMap f).eraseIdx i := by
  induction l generalizing i with
  | nil => rfl
  | cons a l ih =>
    obtain ⟨b, hb⟩ := Option.isSome_iff_exists.mp (h a (List.mem_cons_self ..))
    have hl : ∀ a ∈ l, (f a).isSome = true := fun a ha => h a (List.mem_cons_of_mem _ ha)
    cases i with
    | zero => rw [List.eraseIdx_cons_zero, List.filterMap_cons_some hb, List.eraseIdx_cons_zero]
    | succ i =>
      rw [List.eraseIdx_cons_succ, List.filterMap_cons_some hb, List.filterMap_cons_some hb, List.eraseIdx_cons_succ,
        ih hl]

/-- **The chips are the tokens**: a query shows the chips of another without the `i`th if its tokens are. -/
theorem shown_eraseIdx {query : Text} :
    (parseWithOperators query extended).chips.map Chip.shown =
        ((parseWithOperators raw extended).chips.map Chip.shown).eraseIdx i ↔
      tokens extended query = (tokens extended raw).eraseIdx i := by
  constructor
  · intro h
    have hfst := congrArg (List.map Prod.fst) h
    rwa [shown_fst, ← List.eraseIdx_map, shown_fst] at hfst
  · intro h
    have hsome (w : Text) (hw : w ∈ tokens extended raw) : (wordEntry extended w).isSome = true := by
      obtain ⟨found, hfound⟩ := isToken_iff.mp (isToken_of_mem hw)
      rw [hfound]
      rfl
    rw [shown_chips, shown_chips, h, filterMap_eraseIdx hsome, List.eraseIdx_map]

theorem chips_getElem? {chip : Chip} (h : (parseWithOperators raw extended).chips[i]? = some chip) :
    (tokens extended raw)[i]? = some chip.token ∧ chip.removeQuery = squish (removeFirst chip.token raw) := by
  have hfst := shown_fst raw extended
  have hget := congrArg (·[i]?) hfst
  simp only [List.getElem?_map, h, Option.map_some] at hget
  rw [parse_chips, List.getElem?_map] at h
  obtain ⟨entry, -, rfl⟩ := Option.map_eq_some_iff.mp h
  exact ⟨hget.symm, rfl⟩

theorem chip_of_token (h : (tokens extended raw)[i]? = some t) :
    ∃ chip, (parseWithOperators raw extended).chips[i]? = some chip ∧ chip.token = t ∧
      chip.removeQuery = squish (removeFirst t raw) := by
  have hfst := shown_fst raw extended
  have hget := congrArg (·[i]?) hfst
  simp only [List.getElem?_map, h] at hget
  obtain ⟨shown, hshown, rfl⟩ := Option.map_eq_some_iff.mp hget
  obtain ⟨chip, hchip, rfl⟩ := Option.map_eq_some_iff.mp hshown
  exact ⟨chip, hchip, rfl, (chips_getElem? hchip).2⟩

/-- A chip removed, in terms of tokens and texts. -/
structure TokenRemoved (extended : Bool) (raw t : Text) (i : Nat) : Prop where
  tokens : tokens extended (squish (removeFirst t raw)) = (tokens extended raw).eraseIdx i
  text : squish (removeAll ((Search.tokens extended raw).eraseIdx i) (squish (removeFirst t raw))) =
    squish (removeAll (Search.tokens extended raw) raw)

theorem chipsRemove_iff_tokens : ChipsRemove extended raw ↔
    squish (removeAll (tokens extended raw) raw) = squish (removedText extended raw) ∧
      ∀ i t, (tokens extended raw)[i]? = some t → TokenRemoved extended raw t i := by
  constructor
  · intro h
    refine ⟨(parse_text raw extended).symm.trans h.text, fun i t ht => ?_⟩
    obtain ⟨chip, hchip, rfl, hquery⟩ := chip_of_token ht
    obtain ⟨htext, hshown, -⟩ := h.removed i chip hchip
    have htokens := shown_eraseIdx.mp hshown
    rw [parse_text, parse_text, htokens] at htext
    rw [hquery] at htokens htext
    exact ⟨htokens, htext⟩
  · rintro ⟨htext, hremoved⟩
    refine ⟨(parse_text raw extended).trans htext, fun i chip hchip => ?_⟩
    obtain ⟨htoken, hquery⟩ := chips_getElem? hchip
    have h := hremoved i chip.token htoken
    have htokens : tokens extended chip.removeQuery = (tokens extended raw).eraseIdx i := hquery ▸ h.tokens
    refine ⟨?_, shown_eraseIdx.mpr htokens, ?_⟩
    · rw [parse_text, parse_text, htokens, hquery]
      exact h.text
    · rw [parse_filters, htokens, ← List.eraseIdx_map, shown_fst]

end Words

/-! ## 4. Words parted at any white space -/

section Fine

variable {extended : Bool} {raw t : Text} {i : Nat} {ws ts : List Text}

theorem ne_nil_of_isToken (h : isToken extended t = true) : t ≠ [] := by
  rintro rfl
  obtain ⟨found, hfound⟩ := isToken_iff.mp h
  have hnone : matchOperator [] = none := by decide +kernel
  simp [wordEntry, tokenOf, hnone] at hfound

theorem words_removeAll (h : ∀ t ∈ ts, IsWord isWhitespace t) (s : Text) :
    words isWhitespace (removeAll ts s) = cutAll ts (words isWhitespace s) := by
  induction ts generalizing s with
  | nil => rfl
  | cons t ts ih =>
    have hrest := ih (fun u hu => h u (List.mem_cons_of_mem _ hu)) (removeFirst t s)
    rw [words_removeFirst (h t (List.mem_cons_self ..))] at hrest
    exact hrest

theorem flatMap_raw (s : Text) : words isWhitespace s = (words isSpace s).flatMap (words isWhitespace) :=
  flatMap_words (fun _ => isWhitespace_of_isSpace) s

theorem flatMap_removedText (extended : Bool) (raw : Text) : words isWhitespace (removedText extended raw) =
    ((words isSpace raw).filter fun w => !isToken extended w).flatMap (words isWhitespace) := by
  rw [flatMap_raw, words_removedText]

/-- The tokens of a squished query. -/
theorem tokens_squish (s : Text) : tokens extended (squish s) = (words isWhitespace s).filter (isToken extended) := by
  rw [tokens, words_squish]

/-- A token that any white space would part is none of a squished query. -/
theorem isWord_of_tokens_squish {s : Text} (h : t ∈ tokens extended (squish s)) : IsWord isWhitespace t := by
  rw [tokens_squish] at h
  exact isWord_of_mem (List.mem_filter.mp h).1

/-- Tokens are words of their own: what the others come to. -/
theorem length_flatMap (h : ∀ w ∈ ws, isToken extended w = true → IsWord isWhitespace w) :
    (ws.flatMap (words isWhitespace)).length =
      ((ws.filter fun w => !isToken extended w).flatMap (words isWhitespace)).length +
        (ws.filter (isToken extended)).length := by
  induction ws with
  | nil => rfl
  | cons w ws ih =>
    have ih := ih fun v hv => h v (List.mem_cons_of_mem _ hv)
    rw [List.flatMap_cons, List.length_append, ih]
    cases hw : isToken extended w with
    | true =>
      have hone : (words isWhitespace w).length = 1 := by rw [words_word (h w (List.mem_cons_self ..) hw)]; rfl
      rw [List.filter_cons_of_neg (by simp [hw]), List.filter_cons_of_pos hw, List.length_cons]
      omega
    | false =>
      rw [List.filter_cons_of_pos (by simp [hw]), List.filter_cons_of_neg (by simp [hw]), List.flatMap_cons,
        List.length_append]
      omega

/-- What `Apart.settled` says of a word. -/
def SettledWord (extended : Bool) (w : Text) : Prop :=
  (words isWhitespace w).filter (isToken extended) = if isToken extended w then [w] else []

theorem filter_word (h : IsWord isWhitespace t) (htok : isToken extended t = true) :
    (words isWhitespace t).filter (isToken extended) = [t] := by
  rw [words_word h, List.filter_cons_of_pos htok, List.filter_nil]

theorem length_le_flatMap (h : ∀ w ∈ ws, isToken extended w = true → IsWord isWhitespace w) :
    (ws.filter (isToken extended)).length ≤ ((ws.flatMap (words isWhitespace)).filter (isToken extended)).length := by
  induction ws with
  | nil => exact Nat.le_refl _
  | cons w ws ih =>
    have ih := ih fun v hv => h v (List.mem_cons_of_mem _ hv)
    rw [List.flatMap_cons, List.filter_append, List.length_append]
    cases hw : isToken extended w with
    | true =>
      rw [List.filter_cons_of_pos hw, List.length_cons, filter_word (h w (List.mem_cons_self ..) hw) hw,
        List.length_singleton]
      omega
    | false =>
      rw [List.filter_cons_of_neg (by simp [hw])]
      omega

/-- **No more tokens show than there were**: each word shows what it is. -/
theorem settled_of_length (h : ∀ w ∈ ws, isToken extended w = true → IsWord isWhitespace w)
    (hle : ((ws.flatMap (words isWhitespace)).filter (isToken extended)).length ≤
      (ws.filter (isToken extended)).length) : ∀ w ∈ ws, SettledWord extended w := by
  induction ws with
  | nil => simp
  | cons w ws ih =>
    have hws : ∀ v ∈ ws, isToken extended v = true → IsWord isWhitespace v :=
      fun v hv => h v (List.mem_cons_of_mem _ hv)
    have hbound := length_le_flatMap hws
    rw [List.flatMap_cons, List.filter_append, List.length_append] at hle
    intro v hv
    cases hw : isToken extended w with
    | true =>
      have hone := filter_word (h w (List.mem_cons_self ..) hw) hw
      rw [List.filter_cons_of_pos hw, List.length_cons, hone, List.length_singleton] at hle
      rcases List.mem_cons.mp hv with rfl | hv
      · rw [SettledWord, hone, if_pos hw]
      · exact ih hws (by omega) v hv
    | false =>
      rw [List.filter_cons_of_neg (by simp [hw])] at hle
      rcases List.mem_cons.mp hv with rfl | hv
      · rw [SettledWord, if_neg (by simp [hw])]
        exact List.eq_nil_of_length_eq_zero (by omega)
      · exact ih hws (by omega) v hv

theorem isWord_of_settled (h : SettledWord extended t) (htok : isToken extended t = true) : IsWord isWhitespace t := by
  rw [SettledWord, if_pos htok] at h
  have hin : t ∈ (words isWhitespace t).filter (isToken extended) := h ▸ List.mem_singleton_self t
  exact isWord_of_mem (List.mem_filter.mp hin).1

/-- Settled, the tokens are those of the squished query. -/
theorem filter_of_settled (h : ∀ w ∈ ws, SettledWord extended w) :
    (ws.flatMap (words isWhitespace)).filter (isToken extended) = ws.filter (isToken extended) := by
  induction ws with
  | nil => rfl
  | cons w ws ih =>
    rw [List.flatMap_cons, List.filter_append, h w (List.mem_cons_self ..), ih fun v hv => h v (List.mem_cons_of_mem _ hv)]
    cases hw : isToken extended w with
    | true => rw [if_pos rfl, List.filter_cons_of_pos hw, List.singleton_append]
    | false => rw [if_neg (by simp), List.filter_cons_of_neg (by simp [hw]), List.nil_append]

/-- So is the rest. -/
theorem filter_not_of_settled (h : ∀ w ∈ ws, SettledWord extended w) :
    (ws.flatMap (words isWhitespace)).filter (fun w => !isToken extended w) =
      (ws.filter fun w => !isToken extended w).flatMap (words isWhitespace) := by
  induction ws with
  | nil => rfl
  | cons w ws ih =>
    have hw := h w (List.mem_cons_self ..)
    rw [List.flatMap_cons, List.filter_append, ih fun v hv => h v (List.mem_cons_of_mem _ hv)]
    cases htok : isToken extended w with
    | true =>
      rw [words_word (isWord_of_settled hw htok), List.filter_cons_of_neg (by simp [htok]), List.filter_nil,
        List.nil_append, List.filter_cons_of_neg (by simp [htok])]
    | false =>
      have hall : (words isWhitespace w).filter (fun v => !isToken extended v) = words isWhitespace w := by
        rw [SettledWord, htok, if_neg (by simp)] at hw
        refine List.filter_eq_self.mpr fun v hv => ?_
        have hnot := List.filter_eq_nil_iff.mp hw v hv
        simpa using hnot
      rw [hall, List.filter_cons_of_pos (by simp [htok]), List.flatMap_cons]

/-! ## 5. Apart, and only then -/

/-- **Apart, each chip goes alone.** -/
theorem tokens_of_apart (h : Apart extended raw) :
    squish (removeAll (tokens extended raw) raw) = squish (removedText extended raw) ∧
      ∀ i t, (tokens extended raw)[i]? = some t → TokenRemoved extended raw t i := by
  have hsettled : ∀ w ∈ words isSpace raw, SettledWord extended w := h.settled
  have hwords (t : Text) (ht : t ∈ tokens extended raw) : IsWord isWhitespace t :=
    isWord_of_settled (hsettled t (List.mem_filter.mp ht).1) (isToken_of_mem ht)
  have htokens : (words isWhitespace raw).filter (isToken extended) = tokens extended raw := by
    rw [flatMap_raw, filter_of_settled hsettled, tokens]
  have hrest : words isWhitespace (removedText extended raw) =
      (words isWhitespace raw).filter fun w => !isToken extended w := by
    rw [flatMap_removedText, flatMap_raw raw, filter_not_of_settled hsettled]
  have hall : words isWhitespace (removeAll (tokens extended raw) raw) =
      (words isWhitespace raw).filter fun w => !isToken extended w := by
    rw [words_removeAll hwords, ← htokens]
    exact cutAll_undisturbed (fun _ => ne_nil_of_isToken) h.undisturbed
  refine ⟨squish_inj.mpr (hall.trans hrest.symm), fun i t hi => ?_⟩
  have ht := List.mem_of_getElem? hi
  have hin : t ∈ words isWhitespace raw := (List.mem_filter.mp (htokens ▸ ht)).1
  have htok := isToken_of_mem ht
  have hcut : words isWhitespace (removeFirst t raw) = (words isWhitespace raw).erase t := by
    rw [words_removeFirst (hwords t ht), cutFirst_of_first (ne_nil_of_isToken htok) (h.first t hin htok)]
  have hleft : ((words isWhitespace raw).erase t).filter (isToken extended) = (tokens extended raw).eraseIdx i := by
    rw [← List.erase_filter, htokens]
    exact erase_eq_eraseIdx_iff.mpr h.adjoin i t hi
  refine ⟨by rw [tokens_squish, hcut, hleft], squish_inj.mpr ?_⟩
  have hsub : Undisturbed (isToken extended) ((words isWhitespace raw).erase t) :=
    List.Pairwise.sublist List.erase_sublist h.undisturbed
  have hrestWords (u : Text) (hu : u ∈ (tokens extended raw).eraseIdx i) : IsWord isWhitespace u :=
    hwords u (List.mem_of_mem_eraseIdx hu)
  rw [words_removeAll hrestWords, words_squish_fine, hcut, hall, ← hleft]
  calc cutAll (((words isWhitespace raw).erase t).filter (isToken extended)) ((words isWhitespace raw).erase t)
      = ((words isWhitespace raw).erase t).filter fun w => !isToken extended w :=
        cutAll_undisturbed (fun _ => ne_nil_of_isToken) hsub
    _ = (words isWhitespace raw).filter fun w => !isToken extended w := by
        rw [← List.erase_filter]
        exact List.erase_of_not_mem fun hmem => by simp [htok] at hmem

/-- What a chip removed says of its token: it stands first, and no token shows that was none. -/
theorem standsFirst_of_removed (hwords : ∀ t ∈ tokens extended raw, IsWord isWhitespace t)
    (htext : squish (removeAll (tokens extended raw) raw) = squish (removedText extended raw))
    (hi : (tokens extended raw)[i]? = some t) (h : TokenRemoved extended raw t i) :
    StandsFirst t (words isWhitespace raw) ∧
      ((words isWhitespace raw).filter (isToken extended)).erase t = (tokens extended raw).eraseIdx i := by
  have ht := List.mem_of_getElem? hi
  have hlt : i < (tokens extended raw).length := (List.getElem?_eq_some_iff.mp hi).1
  have hword : ∀ w ∈ words isSpace raw, isToken extended w = true → IsWord isWhitespace w :=
    fun w hw htok => hwords w (List.mem_filter.mpr ⟨hw, htok⟩)
  have hlength := length_flatMap hword
  rw [← flatMap_raw, ← flatMap_removedText] at hlength
  have hrest : cutAll ((tokens extended raw).eraseIdx i) (cutFirst t (words isWhitespace raw)) =
      words isWhitespace (removedText extended raw) := by
    have heq := squish_inj.mp (h.text.trans htext)
    rwa [words_removeAll fun u hu => hwords u (List.mem_of_mem_eraseIdx hu), words_squish_fine,
      words_removeFirst (hwords t ht)] at heq
  have hle := length_le_cutAll ((tokens extended raw).eraseIdx i) (cutFirst t (words isWhitespace raw))
  rw [hrest, List.length_eraseIdx_of_lt hlt] at hle
  have hfirst : StandsFirst t (words isWhitespace raw) := by
    refine standsFirst_of_length ?_
    have hcount : (words isWhitespace raw).length =
        (words isWhitespace (removedText extended raw)).length + (tokens extended raw).length := hlength
    omega
  refine ⟨hfirst, ?_⟩
  have htokens := h.tokens
  rwa [tokens_squish, words_removeFirst (hwords t ht), cutFirst_of_first (ne_nil_of_isToken (isToken_of_mem ht)) hfirst,
    ← List.erase_filter] at htokens

/-- **Where chips go alone, they are apart**, if any white space would leave the tokens whole. -/
theorem apart_of_tokens (hwords : ∀ t ∈ tokens extended raw, IsWord isWhitespace t) (hne : tokens extended raw ≠ [])
    (htext : squish (removeAll (tokens extended raw) raw) = squish (removedText extended raw))
    (h : ∀ i t, (tokens extended raw)[i]? = some t → TokenRemoved extended raw t i) : Apart extended raw := by
  have hword : ∀ w ∈ words isSpace raw, isToken extended w = true → IsWord isWhitespace w :=
    fun w hw htok => hwords w (List.mem_filter.mpr ⟨hw, htok⟩)
  have hsettled : ∀ w ∈ words isSpace raw, SettledWord extended w := by
    obtain ⟨t, ts, hts⟩ := List.exists_cons_of_ne_nil hne
    have hi : (tokens extended raw)[0]? = some t := by rw [hts]; rfl
    obtain ⟨hfirst, herase⟩ := standsFirst_of_removed hwords htext hi (h 0 t hi)
    have hin : t ∈ (words isWhitespace raw).filter (isToken extended) :=
      List.mem_filter.mpr ⟨mem_of_standsFirst hfirst, isToken_of_mem (List.mem_of_getElem? hi)⟩
    have hlength := List.length_erase_of_mem hin
    have hpos := List.length_pos_of_mem hin
    rw [herase, hts, List.eraseIdx_cons_zero] at hlength
    have hcount : (words isSpace raw).filter (isToken extended) = t :: ts := hts
    refine settled_of_length hword ?_
    rw [← flatMap_raw, hcount, List.length_cons]
    omega
  have htokens : (words isWhitespace raw).filter (isToken extended) = tokens extended raw := by
    rw [flatMap_raw, filter_of_settled hsettled, tokens]
  refine ⟨hsettled, ?_, fun t hin htok => ?_, erase_eq_eraseIdx_iff.mp fun i t hi => ?_⟩
  · refine undisturbed_of_length (fun _ => ne_nil_of_isToken) ?_
    have heq := squish_inj.mp htext
    rw [words_removeAll hwords, flatMap_removedText, ← filter_not_of_settled hsettled, ← flatMap_raw, ← htokens] at heq
    rw [heq]
  · have ht : t ∈ tokens extended raw := htokens ▸ List.mem_filter.mpr ⟨hin, htok⟩
    obtain ⟨i, hi⟩ := List.mem_iff_getElem?.mp ht
    exact (standsFirst_of_removed hwords htext hi (h i t hi)).1
  · rw [← (standsFirst_of_removed hwords htext hi (h i t hi)).2, htokens]

/-- Of two tokens, neither holds other white space: removing the one leaves the other in a squished query. -/
theorem isWord_of_removed (h : ∀ i t, (tokens extended raw)[i]? = some t → TokenRemoved extended raw t i)
    {u : Text} {us : List Text} {v : Text} (htokens : tokens extended raw = u :: v :: us) :
    ∀ t ∈ tokens extended raw, IsWord isWhitespace t := by
  intro t ht
  obtain ⟨j, hj⟩ := List.mem_iff_getElem?.mp ht
  obtain ⟨i, s, hi, hne⟩ : ∃ i s, (tokens extended raw)[i]? = some s ∧ j ≠ i := by
    cases j with
    | zero => exact ⟨1, v, by rw [htokens]; rfl, by omega⟩
    | succ j => exact ⟨0, u, by rw [htokens]; rfl, by omega⟩
  have hin : t ∈ (tokens extended raw).eraseIdx i := List.mem_eraseIdx_iff_getElem?.mpr ⟨j, hne, hj⟩
  exact isWord_of_tokens_squish ((h i s hi).tokens ▸ hin)

theorem squish_squish (s : Text) : squish (squish s) = squish s := squish_inj.mpr (words_squish_fine s)

/-- The one token: its removal leaves what the first occurrence leaves. -/
theorem lone_iff (htokens : tokens extended raw = [t]) :
    (squish (removeAll (tokens extended raw) raw) = squish (removedText extended raw) ∧
      ∀ i u, (tokens extended raw)[i]? = some u → TokenRemoved extended raw u i) ↔
    tokens extended (squish (removedText extended raw)) = [] ∧
      squish (removeFirst t raw) = squish (removedText extended raw) := by
  have hall : removeAll (tokens extended raw) raw = removeFirst t raw := by rw [htokens]; rfl
  rw [hall]
  constructor
  · rintro ⟨htext, h⟩
    have hremoved := (h 0 t (by rw [htokens]; rfl)).tokens
    rw [htokens, List.eraseIdx_cons_zero, htext] at hremoved
    exact ⟨hremoved, htext⟩
  · rintro ⟨hnone, htext⟩
    refine ⟨htext, fun i u hi => ?_⟩
    rw [htokens] at hi
    cases i with
    | succ i => cases hi
    | zero =>
      obtain rfl := Option.some.inj hi
      refine ⟨by rw [htext, hnone, htokens]; rfl, ?_⟩
      rw [hall, htokens]
      exact squish_squish _

/-- **A chip's query is the query without that chip** when the tokens are apart, and only then. -/
theorem chipsRemove_iff (extended : Bool) (raw : Text) : ChipsRemove extended raw ↔ RemovesWhen extended raw := by
  rw [chipsRemove_iff_tokens]
  constructor
  · rintro ⟨htext, h⟩
    cases htokens : tokens extended raw with
    | nil => exact .inl htokens
    | cons u us =>
      refine .inr ?_
      by_cases hwords : ∀ t ∈ tokens extended raw, IsWord isWhitespace t
      · exact .inl (apart_of_tokens hwords (by rw [htokens]; simp) htext h)
      · cases us with
        | cons v us => exact absurd (isWord_of_removed h htokens) hwords
        | nil =>
          obtain ⟨hnone, hsame⟩ := (lone_iff htokens).mp ⟨htext, h⟩
          refine .inr ⟨u, htokens, fun hword => hwords fun t ht => ?_, hnone, hsame⟩
          rw [htokens] at ht
          exact List.mem_singleton.mp ht ▸ hword
  · rintro (hnil | hapart | ⟨t, htokens, -, hnone, hsame⟩)
    · refine ⟨?_, fun i t hi => by rw [hnil] at hi; cases hi⟩
      have hall : (words isSpace raw).filter (fun w => !isToken extended w) = words isSpace raw := by
        refine List.filter_eq_self.mpr fun w hw => ?_
        have hnot := List.filter_eq_nil_iff.mp hnil w hw
        simpa using hnot
      rw [hnil, squish_inj, flatMap_removedText, hall, ← flatMap_raw]
      rfl
    · exact tokens_of_apart hapart
    · exact (lone_iff htokens).mpr ⟨hnone, hsame⟩

/-- The token's text stands in an earlier word, and is removed there. -/
theorem chip_leaves_its_token : ¬ ChipsRemove false "xin:a in:a".toList := by
  intro h
  have htext : (parseWithOperators "xin:a in:a".toList false).text = "x in:a".toList := by decide +kernel
  have hwant : squish (removedText false "xin:a in:a".toList) = "xin:a".toList := by decide +kernel
  have heq := h.text
  rw [htext, hwant] at heq
  exact absurd heq (by decide +kernel)

end Fine

end Smartfire.Search
