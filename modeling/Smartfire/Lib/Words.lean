/-
  File:      Smartfire/Lib/Words.lean
  Subject:   The words of a text, and what removing a text's first occurrence does to them.

  Words are the maximal runs without a separator. A separator test may be coarse or fine.

  * `words`, `words_induct` -- a text is read separator by separator and word by word;
  * `flatMap_words` -- fine words are the fine words of the coarse ones;
  * `words_join` -- words joined are those words;
  * `removeFirst`, `words_removeFirst` -- a word's text is removed inside one word;
  * `cutFirst_of_first`, `standsFirst_of_length` -- a word goes only where it stands alone;
  * `cutAll_undisturbed`, `undisturbed_of_length` -- some words are cut, one after another;
  * `erase_eq_eraseIdx_iff` -- when it makes no difference which of equal entries goes.
-/
import Mathlib.Data.List.Basic
import Mathlib.Data.List.Infix

namespace Lib

universe u

variable {α : Type u} {sep : α → Bool}

/-! ## 1. Words -/

/-- The maximal runs without a separator. -/
def words (sep : α → Bool) (s : List α) : List (List α) := (s.splitOnP sep).filter (! ·.isEmpty)

/-- It is empty or starts with a separator. -/
def Stops (sep : α → Bool) (s : List α) : Prop := ∀ c ∈ s.head?, sep c = true

/-- Not empty, and without a separator. -/
def IsWord (sep : α → Bool) (w : List α) : Prop := w ≠ [] ∧ ∀ c ∈ w, sep c = false

@[simp] theorem words_nil : words sep [] = [] := by simp [words]

theorem words_cons_sep {c : α} (h : sep c = true) (s : List α) : words sep (c :: s) = words sep s := by
  simp [words, List.splitOnP_cons_eq_if_modifyHead, h]

theorem stops_cons {c : α} (h : sep c = true) (s : List α) : Stops sep (c :: s) := by
  simpa [Stops] using h

theorem stops_nil (sep : α → Bool) : Stops sep ([] : List α) := by simp [Stops]

theorem words_append {w : List α} (hw : IsWord sep w) {rest : List α} (hr : Stops sep rest) :
    words sep (w ++ rest) = w :: words sep rest := by
  have hkeep (ws : List (List α)) : (w :: ws).filter (! ·.isEmpty) = w :: ws.filter (! ·.isEmpty) :=
    List.filter_cons_of_pos (by simpa using hw.1)
  cases rest with
  | nil => rw [List.append_nil, words, List.splitOnP_eq_singleton hw.2, hkeep, List.filter_nil, words_nil]
  | cons c rest =>
    have hc : sep c = true := hr c rfl
    rw [words, List.splitOnP_append_cons_of_forall_mem hw.2 c hc, hkeep, words_cons_sep hc, words]

theorem words_word {w : List α} (hw : IsWord sep w) : words sep w = [w] := by
  have h := words_append hw (stops_nil sep)
  rwa [List.append_nil, words_nil] at h

/-- **A text is read separator by separator and word by word.** -/
theorem words_induct (sep : α → Bool) {motive : List α → Prop} (nil : motive [])
    (space : ∀ c s, sep c = true → motive s → motive (c :: s))
    (word : ∀ w rest, IsWord sep w → Stops sep rest → motive rest → motive (w ++ rest)) (s : List α) : motive s := by
  induction hn : s.length using Nat.strong_induction_on generalizing s with
  | _ n ih =>
    cases s with
    | nil => exact nil
    | cons c s =>
      subst hn
      cases hc : sep c with
      | true => exact space c s hc (ih s.length (by simp) s rfl)
      | false =>
        have hsplit := List.takeWhile_append_dropWhile (p := fun c => !sep c) (l := c :: s)
        have htake : (c :: s).takeWhile (fun c => !sep c) = c :: s.takeWhile fun c => !sep c := by
          rw [List.takeWhile_cons_of_pos (by simp [hc])]
        have hdrop : (c :: s).dropWhile (fun c => !sep c) = s.dropWhile fun c => !sep c := by
          rw [List.dropWhile_cons_of_pos (by simp [hc])]
        have hlt : ((c :: s).dropWhile fun c => !sep c).length < (c :: s).length := by
          rw [hdrop, List.length_cons]
          exact Nat.lt_succ_of_le (List.dropWhile_sublist _).length_le
        rw [← hsplit]
        refine word _ _ ⟨by rw [htake]; exact List.cons_ne_nil _ _, fun d hd => ?_⟩ (fun d hd => ?_)
          (ih _ hlt _ rfl)
        · simpa using List.all_eq_true.mp List.all_takeWhile d hd
        · have hhead := List.head?_dropWhile_not (fun c => !sep c) (c :: s)
          rw [Option.mem_def] at hd
          rw [hd] at hhead
          simpa using hhead

theorem isWord_of_mem {s w : List α} (h : w ∈ words sep s) : IsWord sep w := by
  induction s using words_induct sep with
  | nil => simp at h
  | space c s hc ih => exact ih (by rwa [words_cons_sep hc] at h)
  | word v rest hv hr ih =>
    rw [words_append hv hr] at h
    rcases List.mem_cons.mp h with rfl | h
    · exact hv
    · exact ih h

/-! ## 2. Coarse and fine words -/

section Fine

variable {fine : α → Bool}

theorem words_append_left {a b : List α} (hb : Stops sep b) : words sep (a ++ b) = words sep a ++ words sep b := by
  induction a using words_induct sep with
  | nil => simp
  | space c s hc ih => rw [List.cons_append, words_cons_sep hc, words_cons_sep hc, ih]
  | word w rest hw hr ih =>
    have hstop : Stops sep (rest ++ b) := by
      cases rest with
      | nil => exact hb
      | cons c rest => exact hr
    rw [List.append_assoc, words_append hw hstop, words_append hw hr, ih, List.cons_append]

/-- **Fine words** are the fine words of the coarse ones. -/
theorem flatMap_words (h : ∀ c, sep c = true → fine c = true) (s : List α) :
    words fine s = (words sep s).flatMap (words fine) := by
  induction s using words_induct sep with
  | nil => simp
  | space c s hc ih => rw [words_cons_sep (h c hc), words_cons_sep hc, ih]
  | word w rest hw hr ih =>
    rw [words_append hw hr, List.flatMap_cons, ← ih]
    exact words_append_left fun c hc => h c (hr c hc)

theorem IsWord.coarse (h : ∀ c, sep c = true → fine c = true) {w : List α} (hw : IsWord fine w) : IsWord sep w := by
  refine ⟨hw.1, fun c hc => ?_⟩
  cases hs : sep c with
  | false => rfl
  | true => exact (h c hs).symm.trans (hw.2 c hc)

end Fine

/-- **Words joined** are those words. -/
theorem words_join {b : α} (hb : sep b = true) {ws : List (List α)} (h : ∀ w ∈ ws, IsWord sep w) :
    words sep (List.intercalate [b] ws) = ws := by
  induction ws with
  | nil => simp
  | cons w ws ih =>
    have hw := h w (List.mem_cons_self ..)
    have ih := ih fun v hv => h v (List.mem_cons_of_mem _ hv)
    cases ws with
    | nil =>
      rw [List.intercalate_singleton]
      exact words_word hw
    | cons v ws =>
      rw [List.intercalate_cons_cons, List.append_assoc, List.singleton_append, words_append hw (stops_cons hb _),
        words_cons_sep hb, ih]

/-! ## 3. The first occurrence removed -/

section Remove

variable [DecidableEq α] {t : List α}

/-- `replacen(t, "", 1)`. -/
def removeFirst (t : List α) : List α → List α
  | [] => []
  | c :: s => if t <+: c :: s then (c :: s).drop t.length else c :: removeFirst t s

theorem length_removeFirst {s : List α} (h : t <:+: s) : (removeFirst t s).length + t.length = s.length := by
  induction s with
  | nil => simp [removeFirst, List.infix_nil.mp h]
  | cons c s ih =>
    by_cases hp : t <+: c :: s
    · rw [removeFirst, if_pos hp, List.length_drop, Nat.sub_add_cancel hp.length_le]
    · have hi := ih ((List.infix_cons_iff.mp h).resolve_left hp)
      rw [removeFirst, if_neg hp, List.length_cons, List.length_cons]
      omega

theorem removeFirst_self : removeFirst t t = [] := by
  have hlength := length_removeFirst (List.infix_refl t)
  exact List.eq_nil_of_length_eq_zero (by omega)

theorem eq_of_removeFirst_nil {w : List α} (h : t <:+: w) (hnil : removeFirst t w = []) : w = t := by
  have hlength := length_removeFirst h
  rw [hnil, List.length_nil, Nat.zero_add] at hlength
  exact (h.eq_of_length hlength).symm

theorem removeFirst_sublist (t s : List α) : (removeFirst t s).Sublist s := by
  induction s with
  | nil => exact List.Sublist.refl _
  | cons c s ih =>
    rw [removeFirst]
    split
    · exact List.drop_sublist ..
    · exact ih.cons_cons c

/-- An occurrence in the front goes from there. -/
theorem removeFirst_append_left (ht : t ≠ []) {w : List α} (h : t <:+: w) (rest : List α) :
    removeFirst t (w ++ rest) = removeFirst t w ++ rest := by
  induction w with
  | nil => exact absurd (List.infix_nil.mp h) ht
  | cons c w ih =>
    by_cases hp : t <+: c :: w
    · have hp' : t <+: c :: w ++ rest := hp.trans (List.prefix_append ..)
      rw [List.cons_append] at hp'
      rw [List.cons_append, removeFirst, if_pos hp', removeFirst, if_pos hp, ← List.cons_append,
        List.drop_append_of_le_length hp.length_le]
    · have hi : t <:+: w := (List.infix_cons_iff.mp h).resolve_left hp
      have hp' : ¬ t <+: c :: (w ++ rest) := fun hp' => hp (by
        rw [← List.cons_append] at hp'
        exact List.prefix_of_prefix_length_le hp' (List.prefix_append ..) (Nat.le_succ_of_le hi.length_le))
      rw [List.cons_append, removeFirst, if_neg hp', removeFirst, if_neg hp, ih hi, List.cons_append]

omit [DecidableEq α] in
/-- What has no separator does not reach over the end of a word. -/
theorem prefix_of_prefix_append (ht : ∀ c ∈ t, sep c = false) {w rest : List α} (hr : Stops sep rest)
    (h : t <+: w ++ rest) : t <+: w := by
  rcases Nat.lt_or_ge w.length t.length with hlt | hle
  · exfalso
    obtain ⟨u, rfl⟩ := List.prefix_of_prefix_length_le (List.prefix_append w rest) h (Nat.le_of_lt hlt)
    have hu := (List.prefix_append_right_inj w).mp h
    cases u with
    | nil => simp at hlt
    | cons d u =>
      cases rest with
      | nil => exact List.cons_ne_nil _ _ (List.prefix_nil.mp hu)
      | cons e rest =>
        obtain ⟨rfl, -⟩ := List.cons_prefix_cons.mp hu
        have hsep : sep d = true := hr d rfl
        rw [ht d (List.mem_append_right _ (List.mem_cons_self ..))] at hsep
        cases hsep
  · exact List.prefix_of_prefix_length_le h (List.prefix_append ..) hle

/-- A word without an occurrence is passed over. -/
theorem removeFirst_append_right (ht : ∀ c ∈ t, sep c = false) {w rest : List α} (hr : Stops sep rest)
    (h : ¬ t <:+: w) : removeFirst t (w ++ rest) = w ++ removeFirst t rest := by
  induction w with
  | nil => rfl
  | cons c w ih =>
    have hp : ¬ t <+: c :: (w ++ rest) := fun hp =>
      h (prefix_of_prefix_append (w := c :: w) ht hr hp).isInfix
    rw [List.cons_append, removeFirst, if_neg hp, ih fun hi => h (List.infix_cons hi), List.cons_append]

/-- Removed from the words: inside the first that holds it. -/
def cutFirst (t : List α) : List (List α) → List (List α)
  | [] => []
  | w :: ws =>
    if t <:+: w then
      if removeFirst t w = [] then ws else removeFirst t w :: ws
    else w :: cutFirst t ws

/-- **A text without a separator is removed inside one word.** -/
theorem words_removeFirst (ht : IsWord sep t) (s : List α) :
    words sep (removeFirst t s) = cutFirst t (words sep s) := by
  induction s using words_induct sep with
  | nil => simp [removeFirst, cutFirst]
  | space c s hc ih =>
    have hp : ¬ t <+: c :: s := fun hp => by
      obtain ⟨d, u, rfl⟩ := List.exists_cons_of_ne_nil ht.1
      obtain ⟨rfl, -⟩ := List.cons_prefix_cons.mp hp
      rw [ht.2 d (List.mem_cons_self ..)] at hc
      cases hc
    rw [removeFirst, if_neg hp, words_cons_sep hc, words_cons_sep hc, ih]
  | word w rest hw hr ih =>
    rw [words_append hw hr, cutFirst]
    by_cases hi : t <:+: w
    · rw [removeFirst_append_left ht.1 hi, if_pos hi]
      split
      · next hnil => rw [hnil, List.nil_append]
      · next hne =>
        exact words_append ⟨hne, fun c hc => hw.2 c ((removeFirst_sublist t w).subset hc)⟩ hr
    · rw [removeFirst_append_right ht.2 hr hi, if_neg hi]
      have hstop : Stops sep (removeFirst t rest) := by
        cases rest with
        | nil => exact stops_nil sep
        | cons c rest =>
          have hc : sep c = true := hr c rfl
          have hp : ¬ t <+: c :: rest := fun hp => by
            have hnil := prefix_of_prefix_append (w := []) ht.2 (stops_cons hc rest) hp
            exact ht.1 (List.prefix_nil.mp hnil)
          rw [removeFirst, if_neg hp]
          exact stops_cons hc _
      rw [words_append hw hstop, ih]

/-! ## 4. Words cut -/

variable {ws : List (List α)}

/-- The first word that holds it is it. -/
def StandsFirst (t : List α) (ws : List (List α)) : Prop := ws.find? (fun w => t <:+: w) = some t

/-- Where it stands alone first, the word goes. -/
theorem cutFirst_of_first (ht : t ≠ []) (h : StandsFirst t ws) : cutFirst t ws = ws.erase t := by
  induction ws with
  | nil => cases h
  | cons w ws ih =>
    by_cases hi : t <:+: w
    · have hw : w = t := by simpa [StandsFirst, hi] using h
      subst hw
      rw [cutFirst, if_pos hi, if_pos removeFirst_self, List.erase_cons_head]
    · have hne : w ≠ t := fun heq => hi (heq ▸ List.infix_refl t)
      have hfirst : StandsFirst t ws := by simpa [StandsFirst, hi] using h
      rw [cutFirst, if_neg hi, ih hfirst, List.erase_cons_tail (by simpa using hne)]

/-- At most one word goes. -/
theorem length_le_cutFirst (t : List α) (ws : List (List α)) : ws.length ≤ (cutFirst t ws).length + 1 := by
  induction ws with
  | nil => exact Nat.zero_le _
  | cons w ws ih =>
    rw [cutFirst]
    split
    · split
      · exact Nat.le_refl _
      · simp
    · rw [List.length_cons, List.length_cons]
      omega

/-- **A word goes only where it stands first.** -/
theorem standsFirst_of_length (h : (cutFirst t ws).length < ws.length) : StandsFirst t ws := by
  induction ws with
  | nil => simp [cutFirst] at h
  | cons w ws ih =>
    rw [cutFirst] at h
    by_cases hi : t <:+: w
    · rw [if_pos hi] at h
      by_cases hnil : removeFirst t w = []
      · simp [StandsFirst, eq_of_removeFirst_nil hi hnil]
      · simp [hnil] at h
    · rw [if_neg hi, List.length_cons, List.length_cons] at h
      have hfirst := ih (by omega)
      simpa [StandsFirst, hi] using hfirst

theorem mem_of_standsFirst (h : StandsFirst t ws) : t ∈ ws := List.mem_of_find?_eq_some h

/-- Cut one after another. -/
def cutAll (ts ws : List (List α)) : List (List α) := ts.foldl (fun ws t => cutFirst t ws) ws

theorem length_le_cutAll (ts ws : List (List α)) : ws.length ≤ (cutAll ts ws).length + ts.length := by
  induction ts generalizing ws with
  | nil => exact Nat.le_refl _
  | cons t ts ih =>
    have hone := length_le_cutFirst t ws
    have hrest := ih (cutFirst t ws)
    rw [List.length_cons]
    show ws.length ≤ (cutAll ts (cutFirst t ws)).length + (ts.length + 1)
    omega

section Tokens

variable {tok : List α → Bool} {before after : List (List α)}

/-- An earlier word that holds a token is a token. -/
def Undisturbed (tok : List α → Bool) (ws : List (List α)) : Prop :=
  ws.Pairwise fun w t => tok t = true → t <:+: w → tok w = true

/-- No word before holds the token: it stands first. -/
theorem standsFirst_append {t : List α} (h : ∀ w ∈ before, ¬ t <:+: w) : StandsFirst t (before ++ t :: after) := by
  have hnone : before.find? (fun w => t <:+: w) = none :=
    List.find?_eq_none.mpr fun w hw => by simpa using h w hw
  rw [StandsFirst, List.find?_append, hnone, Option.none_or, List.find?_cons_of_pos (by simp)]

theorem cutFirst_append (ht : t ≠ []) (h : ∀ w ∈ before, ¬ t <:+: w) :
    cutFirst t (before ++ t :: after) = before ++ after := by
  rw [cutFirst_of_first ht (standsFirst_append h),
    List.erase_append_right _ fun hin => h t hin (List.infix_refl t), List.erase_cons_head]

/-- The words before are read. -/
theorem cutAll_append (ht : ∀ t, tok t = true → t ≠ []) (hb : ∀ w ∈ before, tok w = false)
    (h : Undisturbed tok (before ++ after)) :
    cutAll (after.filter tok) (before ++ after) = before ++ after.filter fun w => !tok w := by
  induction after generalizing before with
  | nil => rfl
  | cons w after ih =>
    cases hw : tok w with
    | true =>
      have hout : ∀ v ∈ before, ¬ w <:+: v := fun v hv hi => by
        have hpair := (List.pairwise_append.mp h).2.2 v hv w (List.mem_cons_self ..)
        exact absurd (hpair hw hi) (by simp [hb v hv])
      have hrest : Undisturbed tok (before ++ after) :=
        List.Pairwise.sublist ((List.sublist_cons_self w after).append_left before) h
      rw [List.filter_cons_of_pos hw, List.filter_cons_of_neg (by simp [hw])]
      show cutAll (after.filter tok) (cutFirst w (before ++ w :: after)) = _
      rw [cutFirst_append (ht w hw) hout, ih hb hrest]
    | false =>
      have hsplit : before ++ w :: after = before ++ [w] ++ after := by simp
      rw [List.filter_cons_of_neg (by simp [hw]), List.filter_cons_of_pos (by simp [hw]), hsplit,
        ih (fun v hv => ?_) (hsplit ▸ h)]
      · simp
      · rcases List.mem_append.mp hv with hv | hv
        · exact hb v hv
        · exact List.mem_singleton.mp hv ▸ hw

theorem undisturbed_append (ht : ∀ t, tok t = true → t ≠ []) (hb : ∀ w ∈ before, tok w = false)
    (h : (cutAll (after.filter tok) (before ++ after)).length ≤ before.length + (after.filter fun w => !tok w).length) :
    Undisturbed tok (before ++ after) := by
  induction after generalizing before with
  | nil =>
    rw [List.append_nil]
    exact List.pairwise_of_forall_mem_list fun _ _ t hin htok => absurd htok (by simp [hb t hin])
  | cons w after ih =>
    cases hw : tok w with
    | true =>
      rw [List.filter_cons_of_pos hw, List.filter_cons_of_neg (by simp [hw])] at h
      have hcut : (cutAll (after.filter tok) (cutFirst w (before ++ w :: after))).length ≤
          before.length + (after.filter fun w => !tok w).length := h
      have hle := length_le_cutAll (after.filter tok) (cutFirst w (before ++ w :: after))
      have hsum := List.length_eq_length_filter_add (l := after) tok
      have hfirst : StandsFirst w (before ++ w :: after) := by
        refine standsFirst_of_length ?_
        rw [List.length_append, List.length_cons]
        omega
      have hout : ∀ v ∈ before, ¬ w <:+: v := by
        intro v hv hi
        have hsome : (before.find? fun v => w <:+: v).isSome = true :=
          List.find?_isSome.mpr ⟨v, hv, by simpa using hi⟩
        obtain ⟨u, hu⟩ := Option.isSome_iff_exists.mp hsome
        rw [StandsFirst, List.find?_append, hu, Option.some_or] at hfirst
        obtain rfl := Option.some.inj hfirst
        have := hb u (List.mem_of_find?_eq_some hu)
        rw [hw] at this
        cases this
      rw [cutFirst_append (ht w hw) hout] at hcut
      have hrest := List.pairwise_append.mp (ih hb hcut)
      refine List.pairwise_append.mpr ⟨hrest.1, List.pairwise_cons.mpr ⟨fun _ _ _ _ => hw, hrest.2.1⟩, ?_⟩
      intro v hv u hu
      rcases List.mem_cons.mp hu with rfl | hu
      · exact fun _ hi => absurd hi (hout v hv)
      · exact hrest.2.2 v hv u hu
    | false =>
      have hsplit : before ++ w :: after = before ++ [w] ++ after := by simp
      rw [hsplit]
      refine ih (fun v hv => ?_) ?_
      · rcases List.mem_append.mp hv with hv | hv
        · exact hb v hv
        · exact List.mem_singleton.mp hv ▸ hw
      · rw [List.filter_cons_of_neg (by simp [hw]), List.filter_cons_of_pos (by simp [hw]), hsplit] at h
        rw [List.length_append, List.length_singleton]
        rw [List.length_cons] at h
        omega

/-- **Undisturbed, the tokens go and the rest stays.** -/
theorem cutAll_undisturbed (ht : ∀ t, tok t = true → t ≠ []) (h : Undisturbed tok ws) :
    cutAll (ws.filter tok) ws = ws.filter fun w => !tok w :=
  have hnil : ∀ w ∈ ([] : List (List α)), tok w = false := fun _ hw => absurd hw List.not_mem_nil
  cutAll_append ht hnil h

/-- **Where as many words go as there are tokens**, nothing disturbs them. -/
theorem undisturbed_of_length (ht : ∀ t, tok t = true → t ≠ [])
    (h : (cutAll (ws.filter tok) ws).length ≤ (ws.filter fun w => !tok w).length) : Undisturbed tok ws := by
  have hnil : ∀ w ∈ ([] : List (List α)), tok w = false := fun _ hw => absurd hw List.not_mem_nil
  have happend : Undisturbed tok ([] ++ ws) := undisturbed_append ht hnil (by simpa using h)
  exact happend

end Tokens

end Remove

/-! ## 5. Erased by value, erased by place -/

section Erase

variable {a b : α} {l : List α}

/-- Between equal entries stand equal entries only. -/
def EqualsAdjoin (l : List α) : Prop := ∀ a b, [a, b, a].Sublist l → b = a

theorem EqualsAdjoin.tail (h : EqualsAdjoin (a :: l)) : EqualsAdjoin l := fun _ _ hs => h _ _ (hs.cons a)

/-- All entries up to an equal one are equal to it. -/
theorem cons_eraseIdx (h : ∀ b, [b, a].Sublist l → b = a) {i : Nat} (hi : l[i]? = some a) : a :: l.eraseIdx i = l := by
  induction l generalizing i with
  | nil => cases hi
  | cons c l ih =>
    cases i with
    | zero =>
      obtain rfl := Option.some.inj hi
      rfl
    | succ i =>
      have hmem : a ∈ l := List.mem_of_getElem? hi
      obtain rfl : c = a := h c ((List.singleton_sublist.mpr hmem).cons_cons c)
      rw [List.eraseIdx_cons_succ, ih (fun b hs => h b (hs.cons c)) hi]

theorem getElem?_of_cons_eraseIdx {i : Nat} (h : a :: l.eraseIdx i = l) (k : Nat) (hk : k ≤ i) : l[k]? = some a := by
  induction k with
  | zero =>
    rw [← h]
    rfl
  | succ k ih =>
    rw [← h, List.getElem?_cons_succ, List.getElem?_eraseIdx_of_lt (by omega)]
    exact ih (by omega)

theorem getElem?_of_pair (h : [b, a].Sublist l) : ∃ k i : Nat, k ≤ i ∧ l[k]? = some b ∧ l[i]? = some a := by
  induction l with
  | nil => cases h
  | cons c l ih =>
    cases h with
    | cons _ h =>
      obtain ⟨k, i, hle, hk, hi⟩ := ih h
      exact ⟨k + 1, i + 1, by omega, by simpa using hk, by simpa using hi⟩
    | cons_cons _ h =>
      obtain ⟨i, hi⟩ := List.mem_iff_getElem?.mp (List.singleton_sublist.mp h)
      exact ⟨0, i + 1, by omega, rfl, by simpa using hi⟩

variable [BEq α] [LawfulBEq α]

/-- **Erasing an entry by value is erasing it by place**, wherever it stands, if equal entries adjoin. -/
theorem erase_eq_eraseIdx_iff :
    (∀ i a, l[i]? = some a → l.erase a = l.eraseIdx i) ↔ EqualsAdjoin l := by
  induction l with
  | nil => simp [EqualsAdjoin]
  | cons c l ih =>
    constructor
    · intro h
      have hfront (i : Nat) (hi : l[i]? = some c) : c :: l.eraseIdx i = l := by
        have heq := h (i + 1) c (by simpa using hi)
        rw [List.erase_cons_head, List.eraseIdx_cons_succ] at heq
        exact heq.symm
      have htail : ∀ i a, l[i]? = some a → l.erase a = l.eraseIdx i := fun i a hi => by
        by_cases hc : c = a
        · subst hc
          calc l.erase c = (c :: l.eraseIdx i).erase c := by rw [hfront i hi]
            _ = l.eraseIdx i := List.erase_cons_head ..
        · have heq := h (i + 1) a (by simpa using hi)
          rw [List.eraseIdx_cons_succ, List.erase_cons_tail (by simpa using hc)] at heq
          exact (List.cons.inj heq).2
      intro a b hs
      cases hs with
      | cons _ hs => exact ih.mp htail a b hs
      | cons_cons _ hs =>
        obtain ⟨k, i, hle, hk, hi⟩ := getElem?_of_pair hs
        exact Option.some.inj (hk.symm.trans (getElem?_of_cons_eraseIdx (hfront i hi) k hle))
    · intro h i a hi
      cases i with
      | zero =>
        obtain rfl := Option.some.inj hi
        exact List.erase_cons_head ..
      | succ i =>
        rw [List.getElem?_cons_succ] at hi
        rw [List.eraseIdx_cons_succ]
        by_cases hc : c = a
        · subst hc
          rw [List.erase_cons_head]
          exact (cons_eraseIdx (fun b hs => h c b (hs.cons_cons c)) hi).symm
        · rw [List.erase_cons_tail (by simpa using hc), ih.mpr h.tail i a hi]

end Erase

end Lib
