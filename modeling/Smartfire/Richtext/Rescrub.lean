/-
  File:      Smartfire/Richtext/Rescrub.lean
  Subject:   Scrubbing what has been scrubbed (crates/richtext/src/sanitizer.rs).

  A URL is re-escaped after its own check, so the next scrub checks another text. That is the only thing a
  second scrub can find to do.

  * `Scrubbed`, `scrubbed_scrubElement` -- what an element that is kept has settled;
  * `settle` -- the attributes whose re-escaped value still passes;
  * `scrubElement_of_scrubbed` -- scrubbing it again settles it;
  * `distinct_rescrub` -- a link that a second scrub takes away;
  * **`sound_rescrub`** -- a scrubbed forest is sound, a second scrub settles it, a third changes nothing.
-/
import Smartfire.Richtext.Sanitizer

namespace Smartfire

/-! ## 1. A style, scrubbed -/

section Styles

variable {style scrubbed text : Text} {c : Char} {d : Declaration} {ds : List Declaration}

theorem skipWhitespace_trimText (text : Text) : skipWhitespace (trimText text) = trimText text := by
  have hprefix : trimText text <+: skipWhitespace text := List.rdropWhile_prefix isCharWhitespace _
  have hhead := List.head?_dropWhile_not isCharWhitespace text
  cases htrim : trimText text with
  | nil => rfl
  | cons c rest =>
    rw [htrim] at hprefix
    obtain ⟨behind, hbehind⟩ := hprefix
    rw [← skipWhitespace, ← hbehind, List.cons_append, List.head?_cons] at hhead
    exact List.dropWhile_cons_of_neg (by simp [hhead])

theorem trimText_trimText (text : Text) : trimText (trimText text) = trimText text := by
  rw [trimText, skipWhitespace_trimText, trimText, List.rdropWhile_idempotent]

theorem trimText_blank (text : Text) : trimText (' ' :: text) = trimText text := by
  have hspace : isCharWhitespace ' ' = true := by decide
  rw [trimText, skipWhitespace, List.dropWhile_cons_of_pos hspace, ← skipWhitespace, ← trimText]

theorem mem_of_mem_trimText (h : c ∈ trimText text) : c ∈ text :=
  (List.dropWhile_sublist _).mem ((List.rdropWhile_prefix isCharWhitespace _).subset h)

theorem trimText_ne_nil (hmem : c ∈ text) (hc : isCharWhitespace c = false) : trimText text ≠ [] := by
  intro hnil
  have hall := List.rdropWhile_eq_nil_iff.mp hnil
  rw [← List.takeWhile_append_dropWhile (p := isCharWhitespace) (l := text), List.mem_append] at hmem
  rcases hmem with hmem | hmem
  · rw [List.mem_takeWhile_imp hmem] at hc; cases hc
  · rw [hall c hmem] at hc; cases hc

/-- A declaration that scrubbing writes. -/
structure Written (d : Declaration) : Prop where
  allowed : allowedDeclaration d = true
  trimmed : trimText d.2 = d.2
  whole : ';' ∉ d.2

theorem written_of_mem (h : d ∈ declarations style) (hallowed : allowedDeclaration d = true) : Written d := by
  obtain ⟨piece, hpiece, rfl⟩ := List.mem_map.mp h
  refine ⟨hallowed, trimText_trimText _, fun hmem => ?_⟩
  have hin : ';' ∈ piece := (List.drop_sublist _ _).mem (mem_of_mem_trimText hmem)
  exact Lib.not_mem_of_mem_splitOn (List.mem_filter.mp hpiece).1 hin

theorem property_cases (h : allowedDeclaration d = true) : d.1 = "color".toList ∨ d.1 = "background-color".toList := by
  simp only [allowedDeclaration, Bool.and_eq_true, List.contains_iff_mem] at h
  simpa [allowedStyleProperties] using h.1

/-- What is written is read back. -/
theorem parseDeclaration_write (h : Written d) : parseDeclaration (d.1 ++ ": ".toList ++ d.2) = d := by
  have hread : ∀ property : Text, (∀ c ∈ property, (decide (c ≠ ':')) = true) →
      (trimText property).map Char.toLower = property →
      parseDeclaration (property ++ ": ".toList ++ d.2) = (property, d.2) := by
    intro property hcolon hsame
    have hblank : ": ".toList = [':', ' '] := by decide
    have htake : (property ++ ':' :: ' ' :: d.2).takeWhile (· ≠ ':') = property := by
      rw [List.takeWhile_append_of_pos hcolon, List.takeWhile_cons_of_neg (by simp), List.append_nil]
    have hdrop : (property ++ ':' :: ' ' :: d.2).drop (property.length + 1) = ' ' :: d.2 := by
      rw [List.drop_append, List.drop_eq_nil_of_le (by omega)]
      simp
    rw [hblank, List.append_assoc, List.cons_append, List.singleton_append]
    simp only [parseDeclaration, htake, hdrop, hsame, trimText_blank, h.trimmed]
  have hpair : d = (d.1, d.2) := rfl
  rcases property_cases h.allowed with hproperty | hproperty
  · rw [hpair, hproperty]
    exact hread _ (Lib.forall_mem_of_all (by decide)) (by decide)
  · rw [hpair, hproperty]
    exact hread _ (Lib.forall_mem_of_all (by decide)) (by decide)

theorem declarations_write (h : ∀ d ∈ ds, Written d) : declarations (ds.flatMap writeDeclaration) = ds := by
  induction ds with
  | nil => decide
  | cons d ds ih =>
    have hd := h d List.mem_cons_self
    have hrest := ih fun e he => h e (List.mem_cons_of_mem _ he)
    have hbody : ∀ c ∈ d.1 ++ ": ".toList ++ d.2, (c == ';') = false := by
      have hproperty : ∀ c ∈ d.1 ++ ": ".toList, (c == ';') = false := by
        rcases property_cases hd.allowed with hproperty | hproperty <;> rw [hproperty] <;> exact Lib.forall_mem_of_all (by decide)
      intro c hc
      rcases List.mem_append.mp hc with hc | hc
      · exact hproperty c hc
      · exact beq_eq_false_iff_ne.mpr fun heq => hd.whole (heq ▸ hc)
    have hfull : trimText (d.1 ++ ": ".toList ++ d.2) ≠ [] := by
      rcases property_cases hd.allowed with hproperty | hproperty <;> rw [hproperty]
      · exact trimText_ne_nil List.mem_cons_self (by decide)
      · exact trimText_ne_nil List.mem_cons_self (by decide)
    have hsplit : ((d :: ds).flatMap writeDeclaration).splitOn ';' =
        (d.1 ++ ": ".toList ++ d.2) :: (ds.flatMap writeDeclaration).splitOn ';' := by
      rw [List.flatMap_cons, writeDeclaration, List.append_assoc _ [';'], List.singleton_append,
        List.splitOn_eq_splitOnP, List.splitOn_eq_splitOnP]
      exact List.splitOnP_append_cons_of_forall_mem hbody ';' (by simp) _
    rw [declarations, hsplit, List.filter_cons_of_pos (by simpa using hfull), List.map_cons,
      parseDeclaration_write hd, ← declarations, hrest]

/-- **A scrubbed style stays.** -/
theorem scrubStyleValue_scrubbed (h : scrubStyleValue style = some scrubbed) :
    scrubStyleValue scrubbed = some scrubbed := by
  simp only [scrubStyleValue] at h
  split at h
  · next hall =>
    obtain rfl := Option.some.inj h
    rw [scrubStyleValue, if_pos hall]
  · split at h
    · cases h
    · next hne =>
      obtain rfl := Option.some.inj h
      have hread : declarations (((declarations style).filter allowedDeclaration).flatMap writeDeclaration) =
          (declarations style).filter allowedDeclaration :=
        declarations_write fun d hd => by
          obtain ⟨hmem, hallowed⟩ := List.mem_filter.mp hd
          exact written_of_mem hmem hallowed
      have hsome : (declarations style).filter allowedDeclaration ≠ [] := fun hnil => hne (by rw [hnil]; rfl)
      rw [scrubStyleValue, hread, if_pos]
      simpa [List.isEmpty_iff] using hsome

end Styles

/-! ## 2. What a kept element has settled -/

section Elements

variable {special : Lowering} {list : SafeList} {localName n : String} {attrs original : Attrs} {v : Text}

/-- The attributes of an element that has been scrubbed. -/
structure Scrubbed (list : SafeList) (localName : String) (attrs : Attrs) : Prop where
  /-- All are allowed, but for the class of a spoiler, which is last then. -/
  allowed : ∀ n v, (n, v) ∈ attrs.list → n ≠ "class" →
    list.allowsAttribute n = true ∧ (n = "name" → localName = "a")
  escaped : ∀ n v, (n, v) ∈ attrs.list → escapes (localName = "a") n = true → escapeValue v = v
  style : ∀ v, attrs.get "style" = some v → scrubStyleValue v = some v
  spoiler : (localName = "span" ∧ attrs.get "data-spoiler" = some [] ∧ hasSpoilerClass attrs = true) ∨
    (attrs.get "data-spoiler" = none ∧ hasSpoilerClass attrs = false)
  classAllowed : list.allowsAttribute "class" = true ∨ attrs.get "class" = none ∨
    (attrs.get "data-spoiler" = some [] ∧
      attrs.list = (attrs.remove "class").list ++ [("class", spoilerClass)])

/-- The attributes a second scrub leaves: the URLs that still pass, and no blank `src`. -/
def stays (special : Lowering) : String × Text → Bool
  | (name, value) => !(attrValIsUri.contains name && !allowedUri special value) &&
      !(name = "src" && value.all isCharWhitespace)

def settle (special : Lowering) (attrs : Attrs) : Attrs := attrs.filter (stays special)

theorem Attrs.ext_list {a b : Attrs} (h : a.list = b.list) : a = b := Attrs.ext h

theorem Attrs.filter_filter (p q : String × Text → Bool) :
    (attrs.filter p).filter q = attrs.filter fun pair => p pair && q pair := by
  refine Attrs.ext_list ?_
  simp only [Attrs.filter, List.filter_filter]
  exact List.filter_congr fun pair _ => Bool.and_comm _ _

theorem Attrs.filter_congr {p q : String × Text → Bool} (h : ∀ pair ∈ attrs.list, p pair = q pair) :
    attrs.filter p = attrs.filter q := Attrs.ext_list (List.filter_congr h)

theorem Attrs.filter_eq_self {p : String × Text → Bool} (h : ∀ pair ∈ attrs.list, p pair = true) :
    attrs.filter p = attrs := Attrs.ext_list (List.filter_eq_self.mpr h)

theorem Attrs.mapValues_eq_self {f : String → Text → Text} (h : ∀ n v, (n, v) ∈ attrs.list → f n v = v) :
    attrs.mapValues f = attrs := by
  refine Attrs.ext_list ((List.map_congr_left fun pair hpair => ?_).trans (List.map_id _))
  obtain ⟨n, v⟩ := pair
  simp only [h n v hpair, id_eq]

theorem Attrs.remove_of_get (h : attrs.get n = none) : attrs.remove n = attrs := by
  refine Attrs.filter_eq_self fun pair hpair => ?_
  obtain ⟨m, v⟩ := pair
  have hne : m ≠ n := fun heq => Attrs.get_eq_none.mp h v (heq ▸ hpair)
  simpa using hne

theorem Attrs.set_of_get (h : attrs.get n = some v) : attrs.set n v = attrs := by
  have hmem := Attrs.get_eq_some.mp h
  have hname : n ∈ attrs.names := Attrs.mem_names.mpr ⟨v, hmem⟩
  rw [Attrs.set, dif_pos hname]
  refine Attrs.mapValues_eq_self fun m w hw => ?_
  split
  · next hm => exact Attrs.eq_of_mem hmem (hm ▸ hw)
  · rfl

/-- What a second scrub's visits leave of an attribute. -/
def passes (special : Lowering) (list : SafeList) (isA : Bool) : String × Text → Bool
  | (name, value) => !(!list.allowsAttribute name || (name = "name" && !isA)) && stays special (name, value)

theorem force_of_escaped {isA : Bool} (h : ∀ n v, (n, v) ∈ attrs.list → escapes isA n = true → escapeValue v = v) :
    forceCorrectAttributeEscaping isA attrs = attrs := by
  refine Attrs.mapValues_eq_self fun n v hmem => ?_
  split
  · next hescapes => exact h n v hmem hescapes
  · rfl

/-- A visit takes an attribute that does not pass, and nothing else. -/
theorem scrubAttribute_of_escaped {isA : Bool} (hget : attrs.get n = some v)
    (h : ∀ n v, (n, v) ∈ attrs.list → escapes isA n = true → escapeValue v = v) :
    scrubAttribute special list isA attrs n = if passes special list isA (n, v) then attrs else attrs.remove n := by
  have hremoved : ∀ m w, (m, w) ∈ (attrs.remove n).list → escapes isA m = true → escapeValue w = w :=
    fun m w hmem => h m w (Attrs.mem_remove.mp hmem).1
  simp only [scrubAttribute, hget]
  split
  · next hallowed =>
    have hpass : passes special list isA (n, v) = false := by
      simp only [passes, hallowed, Bool.not_true, Bool.false_and]
    rw [if_neg (Bool.eq_false_iff.mp hpass)]
  split
  · next huri =>
    have hpass : passes special list isA (n, v) = false := by
      simp only [passes, stays, huri, Bool.not_true, Bool.false_and, Bool.and_false]
    rw [if_neg (Bool.eq_false_iff.mp hpass)]
  · next hallowed huri =>
    by_cases hsrc : (n = "src" && v.all isCharWhitespace) = true
    · have hpass : passes special list isA (n, v) = false := by
        simp only [passes, stays, hsrc, Bool.not_true, Bool.and_false]
      rw [if_pos hsrc, if_neg (Bool.eq_false_iff.mp hpass)]
      exact force_of_escaped hremoved
    · have hpass : passes special list isA (n, v) = true := by
        simp only [passes, stays, Bool.eq_false_iff.mpr hallowed, Bool.eq_false_iff.mpr huri,
          Bool.eq_false_iff.mpr hsrc, Bool.not_false, Bool.and_true]
      rw [if_neg hsrc, if_pos hpass]
      exact force_of_escaped h

/-- **The visits leave the attributes that pass.** -/
theorem visits_of_escaped {isA : Bool}
    (h : ∀ n v, (n, v) ∈ attrs.list → escapes isA n = true → escapeValue v = v) :
    attrs.names.foldl (scrubAttribute special list isA) attrs = attrs.filter (passes special list isA) := by
  -- what is still to visit stays until then
  suffices hfold : ∀ todo : List String, todo.Nodup → (∀ n ∈ todo, n ∈ attrs.names) →
      todo.foldl (scrubAttribute special list isA)
        (attrs.filter fun pair => todo.contains pair.1 || passes special list isA pair) =
      attrs.filter (passes special list isA) by
    have hall : (attrs.filter fun pair => attrs.names.contains pair.1 || passes special list isA pair) = attrs := by
      refine Attrs.filter_eq_self fun pair hpair => ?_
      have hname : attrs.names.contains pair.1 = true :=
        List.contains_iff_mem.mpr (Attrs.mem_names.mpr ⟨pair.2, hpair⟩)
      rw [hname, Bool.true_or]
    have hfolded := hfold attrs.names attrs.nodup fun _ hn => hn
    rwa [hall] at hfolded
  intro todo
  induction todo with
  | nil =>
    intro _ _
    exact Attrs.filter_congr fun pair _ => by simp
  | cons name todo ih =>
    intro hnodup hnames
    obtain ⟨hfresh, hnodup⟩ := List.nodup_cons.mp hnodup
    obtain ⟨v, hv⟩ := Attrs.mem_names.mp (hnames name List.mem_cons_self)
    rw [List.foldl_cons, ← ih hnodup fun n hn => hnames n (List.mem_cons_of_mem _ hn)]
    congr 1
    have hget : (attrs.filter fun pair => (name :: todo).contains pair.1 || passes special list isA pair).get name =
        some v := Attrs.get_eq_some.mpr (Attrs.mem_filter.mpr ⟨hv, by simp⟩)
    have hescaped : ∀ n w, (n, w) ∈ (attrs.filter fun pair =>
        (name :: todo).contains pair.1 || passes special list isA pair).list →
        escapes isA n = true → escapeValue w = w := fun n w hmem => h n w (Attrs.mem_filter.mp hmem).1
    rw [scrubAttribute_of_escaped hget hescaped]
    -- the attribute visited is the only one of its name
    have honly : ∀ w, (name, w) ∈ attrs.list → w = v := fun w hw => Attrs.eq_of_mem hw hv
    split
    · next hpass =>
      refine Attrs.filter_congr fun pair hpair => ?_
      obtain ⟨n, w⟩ := pair
      by_cases hn : n = name
      · subst hn
        rw [honly w hpair, hpass]
        simp
      · simp [hn]
    · next hpass =>
      rw [Attrs.remove, Attrs.filter_filter]
      refine Attrs.filter_congr fun pair hpair => ?_
      obtain ⟨n, w⟩ := pair
      by_cases hn : n = name
      · subst hn
        rw [honly w hpair, Bool.eq_false_iff.mpr hpass]
        simp [hfresh]
      · simp [hn]

theorem get_filter {p : String × Text → Bool} (h : ∀ v, attrs.get n = some v → p (n, v) = true) :
    (attrs.filter p).get n = attrs.get n := by
  cases hget : attrs.get n with
  | none => exact Attrs.get_eq_none.mpr fun v hmem => Attrs.get_eq_none.mp hget v (Attrs.mem_filter.mp hmem).1
  | some v => exact Attrs.get_eq_some.mpr (Attrs.mem_filter.mpr ⟨Attrs.get_eq_some.mp hget, h v hget⟩)

/-- Only a URL can be settled away. -/
theorem stays_of_not_uri (h : n ∉ attrValIsUri) : stays special (n, v) = true := by
  have hsrc : n ≠ "src" := fun hn => h (hn ▸ by decide)
  simp [stays, h, hsrc]

theorem get_settle (h : n ∉ attrValIsUri) : (settle special attrs).get n = attrs.get n :=
  get_filter fun _ _ => stays_of_not_uri h

theorem scrubStyle_of_stable (h : ∀ v, attrs.get "style" = some v → scrubStyleValue v = some v) :
    scrubStyle attrs = attrs := by
  unfold scrubStyle
  split
  · rfl
  · next style hget =>
    simp only [h style hget]
    exact Attrs.set_of_get hget

theorem canonicalizeSpoiler_of_spoiler (hdata : attrs.get "data-spoiler" = some [])
    (hclass : hasSpoilerClass attrs = true) : canonicalizeSpoiler attrs true = attrs := by
  simp only [canonicalizeSpoiler, if_true, Attrs.set_of_get hdata, hclass]

theorem canonicalizeSpoiler_of_plain (hdata : attrs.get "data-spoiler" = none)
    (hclass : hasSpoilerClass attrs = false) : canonicalizeSpoiler attrs false = attrs := by
  simp only [canonicalizeSpoiler, Bool.false_eq_true, if_false, Attrs.remove_of_get hdata, hclass]

theorem hasSpoilerClass_of_none (h : attrs.get "class" = none) : hasSpoilerClass attrs = false := by
  rw [hasSpoilerClass, h, Option.any_none]

/-- A spoiler without a class gets one, behind its other attributes. -/
theorem canonicalizeSpoiler_of_classless (h : attrs.get "class" = none) :
    (canonicalizeSpoiler attrs true).list = (attrs.set "data-spoiler" []).list ++ [("class", spoilerClass)] := by
  have hne : "class" ≠ "data-spoiler" := by decide
  have hnone : (attrs.set "data-spoiler" []).get "class" = none := by rw [Attrs.get_set, if_neg hne, h]
  have hnames : "class" ∉ (attrs.set "data-spoiler" []).names := fun hmem => by
    obtain ⟨v, hv⟩ := Attrs.mem_names.mp hmem
    exact Attrs.get_eq_none.mp hnone v hv
  have hclasses : spoilerClasses (attrs.set "data-spoiler" []) = spoilerClass := by
    rw [spoilerClasses, hnone]
  simp only [canonicalizeSpoiler, if_true, hasSpoilerClass_of_none hnone, Bool.false_eq_true, if_false,
    hclasses]
  rw [Attrs.set, dif_neg hnames]

/-- **A kept element has settled.** -/
theorem scrubbed_scrubElement (special : Lowering) (list : SafeList) (localName : String) (original : Attrs) :
    Scrubbed list localName (scrubElement special list localName original) := by
  have hsound := attrsSound_scrubElement special list localName original
  revert hsound
  unfold scrubElement
  dsimp only
  generalize hattrs : scrubAttributes special list (localName = "a") original = attrs
  have hfit : ∀ n v, (n, v) ∈ attrs.list → Fit special list (localName = "a") n v := by
    rw [← hattrs]
    exact fun _ _ => fit_scrubAttributes
  have hstyle : ∀ v, attrs.get "style" = some v → scrubStyleValue v = some v := by
    intro v hv
    rw [← hattrs, scrubAttributes, scrubStyle] at hv
    split at hv
    · next hnone => rw [hnone] at hv; cases hv
    · split at hv
      · rw [Attrs.get_remove, if_pos rfl] at hv
        cases hv
      · next scrubbed hscrubbed =>
        rw [Attrs.get_set, if_pos rfl] at hv
        rw [← Option.some.inj hv]
        exact scrubStyleValue_scrubbed hscrubbed
  generalize hspoiler : (isSpoilerSpan localName original && list.allowsAttribute "data-spoiler") = spoiler
  intro hsound
  have hother : ∀ n v, n ≠ "data-spoiler" → n ≠ "class" →
      (n, v) ∈ (canonicalizeSpoiler attrs spoiler).list → (n, v) ∈ attrs.list := fun n v hdata hclass hmem => by
    rw [← Attrs.get_eq_some, get_canonicalizeSpoiler hdata hclass] at hmem
    exact Attrs.get_eq_some.mp hmem
  refine ⟨fun n v hmem hclass => ?_, fun n v hmem hescapes => ?_, fun v hv => ?_, ?_, ?_⟩
  · exact (hsound.allowed n v hmem).resolve_right fun h => hclass h.1
  · have hdata : n ≠ "data-spoiler" := by rintro rfl; revert hescapes; simp [escapes]
    have hclass : n ≠ "class" := by rintro rfl; revert hescapes; simp [escapes]
    exact (hfit n v (hother n v hdata hclass hmem)).escaped hescapes
  · exact hstyle v (by rwa [get_canonicalizeSpoiler (by decide) (by decide)] at hv)
  · cases spoiler with
    | true =>
      have hspan := ((Bool.and_eq_true _ _).mp ((Bool.and_eq_true _ _).mp hspoiler).1).1
      exact .inl ⟨of_decide_eq_true hspan, canonicalizeSpoiler_true attrs⟩
    | false => exact .inr (canonicalizeSpoiler_false attrs)
  · by_cases hallowed : list.allowsAttribute "class" = true
    · exact .inl hallowed
    have hclass : attrs.get "class" = none := by
      cases hget : attrs.get "class" with
      | none => rfl
      | some v => exact absurd (hfit "class" v (Attrs.get_eq_some.mp hget)).allowed hallowed
    refine .inr ?_
    cases spoiler with
    | true =>
      refine .inr ⟨(canonicalizeSpoiler_true attrs).1, ?_⟩
      have hwritten := canonicalizeSpoiler_of_classless hclass
      have hnone : ((attrs.set "data-spoiler" []).remove "class") = attrs.set "data-spoiler" [] := by
        refine Attrs.remove_of_get ?_
        rw [Attrs.get_set, if_neg (by decide), hclass]
      have hlist : ((canonicalizeSpoiler attrs true).remove "class").list = (attrs.set "data-spoiler" []).list := by
        simp only [Attrs.remove, Attrs.filter, hwritten, List.filter_append]
        rw [Attrs.remove, Attrs.filter] at hnone
        have hkeep := congrArg Attrs.list hnone
        simpa using hkeep
      rw [hlist, hwritten]
    | false =>
      refine .inl ?_
      cases hget : (canonicalizeSpoiler attrs false).get "class" with
      | none => rfl
      | some v =>
        rcases class_canonicalizeSpoiler hget with ⟨classes, hsome⟩ | ⟨hfalse, -⟩
        · rw [hclass] at hsome; cases hsome
        · cases hfalse

/-! ## 3. Scrubbing it again -/

theorem passes_of_scrubbed (h : Scrubbed list localName attrs) (hmem : (n, v) ∈ attrs.list) (hclass : n ≠ "class") :
    passes special list (localName = "a") (n, v) = stays special (n, v) := by
  obtain ⟨hallowed, hname⟩ := h.allowed n v hmem hclass
  have hnamed : (n = "name" && !decide (localName = "a")) = false := by
    by_cases hn : n = "name"
    · simp [hn, hname hn]
    · simp [hn]
  simp only [passes, hallowed, hnamed, Bool.not_true, Bool.or_false, Bool.not_false, Bool.true_and]

/-- A class that is not allowed goes with the visits. -/
theorem visits_of_scrubbed (h : Scrubbed list localName attrs) :
    attrs.names.foldl (scrubAttribute special list (localName = "a")) attrs =
      settle special (if list.allowsAttribute "class" then attrs else attrs.remove "class") := by
  rw [visits_of_escaped h.escaped]
  split
  · next hallowed =>
    refine Attrs.filter_congr fun pair hpair => ?_
    obtain ⟨n, v⟩ := pair
    by_cases hclass : n = "class"
    · subst hclass
      simp [passes, hallowed]
    · exact passes_of_scrubbed h hpair hclass
  · next hallowed =>
    rw [settle, Attrs.remove, Attrs.filter_filter]
    refine Attrs.filter_congr fun pair hpair => ?_
    obtain ⟨n, v⟩ := pair
    by_cases hclass : n = "class"
    · subst hclass
      simp [passes, Bool.eq_false_iff.mpr hallowed]
    · simp [hclass, passes_of_scrubbed h hpair hclass]

/-- **Scrubbing it again settles it.** -/
theorem scrubElement_of_scrubbed (h : Scrubbed list localName attrs) :
    scrubElement special list localName attrs = settle special attrs := by
  have hdataUri : "data-spoiler" ∉ attrValIsUri := by decide
  have hclassUri : "class" ∉ attrValIsUri := by decide
  have hstyleUri : "style" ∉ attrValIsUri := by decide
  have hclassOf : ∀ a : Attrs, hasSpoilerClass (settle special a) = hasSpoilerClass a := fun a =>
    hasSpoilerClass_eq (get_settle hclassUri)
  have hvisits : attrs.names.foldl (scrubAttribute special list (localName = "a")) attrs =
      settle special (if list.allowsAttribute "class" then attrs else attrs.remove "class") := visits_of_scrubbed h
  -- whether a spoiler's class is allowed or goes, the style stays
  have hstyle : scrubAttributes special list (localName = "a") attrs =
      settle special (if list.allowsAttribute "class" then attrs else attrs.remove "class") := by
    rw [scrubAttributes, hvisits]
    refine scrubStyle_of_stable fun v hv => h.style v ?_
    rw [get_settle hstyleUri] at hv
    split at hv
    · exact hv
    · rwa [Attrs.get_remove, if_neg (by decide)] at hv
  have hplainClass : attrs.get "class" = none →
      (if list.allowsAttribute "class" then attrs else attrs.remove "class") = attrs := fun hnone => by
    rw [Attrs.remove_of_get hnone, ite_self]
  simp only [scrubElement, hstyle]
  rcases h.spoiler with ⟨hspan, hdata, hmark⟩ | ⟨hdata, hmark⟩
  · have hlisted : list.allowsAttribute "data-spoiler" = true :=
      (h.allowed "data-spoiler" [] (Attrs.get_eq_some.mp hdata) (by decide)).1
    have hspoiler : (isSpoilerSpan localName attrs && list.allowsAttribute "data-spoiler") = true := by
      simp [isSpoilerSpan, hspan, hmark, hlisted]
    rw [hspoiler]
    have hkept : list.allowsAttribute "class" = true →
        canonicalizeSpoiler (settle special (if list.allowsAttribute "class" then attrs else attrs.remove "class"))
          true = settle special attrs := fun hallowed => by
      rw [if_pos hallowed]
      exact canonicalizeSpoiler_of_spoiler (by rw [get_settle hdataUri, hdata]) (by rw [hclassOf, hmark])
    rcases h.classAllowed with hallowed | hnone | ⟨-, hlist⟩
    · exact hkept hallowed
    · rw [hasSpoilerClass_of_none hnone] at hmark
      cases hmark
    · by_cases hallowed : list.allowsAttribute "class" = true
      · exact hkept hallowed
      rw [if_neg hallowed]
      have hgone : (settle special (attrs.remove "class")).get "class" = none := by
        rw [get_settle hclassUri, Attrs.get_remove, if_pos rfl]
      have hmarked : (settle special (attrs.remove "class")).get "data-spoiler" = some [] := by
        rw [get_settle hdataUri, Attrs.get_remove, if_neg (by decide), hdata]
      refine Attrs.ext_list ?_
      rw [canonicalizeSpoiler_of_classless hgone, Attrs.set_of_get hmarked]
      have hstays : stays special ("class", spoilerClass) = true := stays_of_not_uri hclassUri
      have hsplit := congrArg (List.filter (stays special)) hlist
      rw [List.filter_append, List.filter_cons_of_pos hstays, List.filter_nil] at hsplit
      exact hsplit.symm
  · have hspoiler : isSpoilerSpan localName attrs = false := by
      simp [isSpoilerSpan, Attrs.has, hdata, hmark]
    rw [hspoiler, Bool.false_and]
    have hsame : canonicalizeSpoiler (settle special attrs) false = settle special attrs :=
      canonicalizeSpoiler_of_plain (by rw [get_settle hdataUri, hdata]) (by rw [hclassOf, hmark])
    rcases h.classAllowed with hallowed | hnone | ⟨hdata', -⟩
    · rwa [if_pos hallowed]
    · rwa [hplainClass hnone]
    · rw [hdata] at hdata'
      cases hdata'

theorem settle_settle : settle special (settle special attrs) = settle special attrs := by
  rw [settle, settle, Attrs.filter_filter]
  exact Attrs.filter_congr fun pair _ => Bool.and_self _

/-- What has settled, settled, has settled. -/
theorem Scrubbed.settle (h : Scrubbed list localName attrs) : Scrubbed list localName (settle special attrs) := by
  have hdata : (Smartfire.settle special attrs).get "data-spoiler" = attrs.get "data-spoiler" :=
    get_settle (by decide)
  have hclass : (Smartfire.settle special attrs).get "class" = attrs.get "class" := get_settle (by decide)
  refine ⟨fun n v hmem => h.allowed n v (Attrs.mem_filter.mp hmem).1,
    fun n v hmem => h.escaped n v (Attrs.mem_filter.mp hmem).1, fun v hv => ?_, ?_, ?_⟩
  · rw [get_settle (by decide)] at hv
    exact h.style v hv
  · rw [hdata, hasSpoilerClass_eq hclass]
    exact h.spoiler
  · rw [hdata, hclass]
    refine h.classAllowed.imp_right (Or.imp_right fun ⟨hspoiler, hlist⟩ => ⟨hspoiler, ?_⟩)
    have hstays : stays special ("class", spoilerClass) = true := stays_of_not_uri (by decide)
    have hsplit := congrArg (List.filter (stays special)) hlist
    rw [List.filter_append, List.filter_cons_of_pos hstays, List.filter_nil] at hsplit
    refine hsplit.trans (congrArg (· ++ _) ?_)
    have hcomm : ((attrs.remove "class").filter (stays special)) = (Smartfire.settle special attrs).remove "class" := by
      rw [Smartfire.settle, Attrs.remove, Attrs.remove, Attrs.filter_filter, Attrs.filter_filter]
      exact Attrs.filter_congr fun pair _ => Bool.and_comm _ _
    exact congrArg Attrs.list hcomm

end Elements

/-! ## 4. Forests -/

mutual

/-- Every node has been scrubbed. -/
def NodeScrubbed (list : SafeList) : Node → Prop
  | .text _ => True
  | .comment _ => False
  | .doctype _ => False
  | .element _ localName attrs children =>
    list.allowsTag localName = true ∧ Scrubbed list localName attrs ∧ ForestScrubbed list children

def ForestScrubbed (list : SafeList) : List Node → Prop
  | [] => True
  | node :: rest => NodeScrubbed list node ∧ ForestScrubbed list rest

end

mutual

def settleNode (special : Lowering) : Node → Node
  | .text text => .text text
  | .comment text => .comment text
  | .doctype name => .doctype name
  | .element ns localName attrs children =>
    .element ns localName (settle special attrs) (settleForest special children)

def settleForest (special : Lowering) : List Node → List Node
  | [] => []
  | node :: rest => settleNode special node :: settleForest special rest

end

section Forests

variable {special : Lowering} {list : SafeList} {forest : List Node}

theorem ForestScrubbed.append {first second : List Node} (h : ForestScrubbed list first)
    (h' : ForestScrubbed list second) : ForestScrubbed list (first ++ second) := by
  induction first with
  | nil => exact h'
  | cons node rest ih =>
    rw [List.cons_append, ForestScrubbed]
    rw [ForestScrubbed] at h
    exact ⟨h.1, ih h.2⟩

mutual

theorem scrubbed_scrubBottomUp (special : Lowering) (list : SafeList) :
    (node : Node) → ForestScrubbed list (scrubBottomUp special list node)
  | .text _ => by simp [scrubBottomUp, ForestScrubbed, NodeScrubbed]
  | .comment _ => by simp [scrubBottomUp, ForestScrubbed]
  | .doctype _ => by simp [scrubBottomUp, ForestScrubbed]
  | .element ns localName attrs children => by
    have hchildren := scrubbed_scrubForest special list children
    simp only [scrubBottomUp]
    split
    · next htag =>
      rw [ForestScrubbed, NodeScrubbed, ForestScrubbed]
      exact ⟨⟨htag, scrubbed_scrubElement special list localName attrs, hchildren⟩, trivial⟩
    · split
      · exact hchildren
      · rw [ForestScrubbed]
        trivial

/-- **All that is left has been scrubbed**, promoted or not. -/
theorem scrubbed_scrubForest (special : Lowering) (list : SafeList) :
    (forest : List Node) → ForestScrubbed list (scrubForest special list forest)
  | [] => by rw [scrubForest, ForestScrubbed]; trivial
  | node :: rest => by
    rw [scrubForest]
    exact (scrubbed_scrubBottomUp special list node).append (scrubbed_scrubForest special list rest)

end

mutual

theorem scrubBottomUp_of_scrubbed :
    (node : Node) → NodeScrubbed list node → scrubBottomUp special list node = [settleNode special node]
  | .text _, _ => by simp only [scrubBottomUp, settleNode]
  | .comment _, h => by rw [NodeScrubbed] at h; exact h.elim
  | .doctype _, h => by rw [NodeScrubbed] at h; exact h.elim
  | .element ns localName attrs children, h => by
    rw [NodeScrubbed] at h
    obtain ⟨htag, hattrs, hchildren⟩ := h
    simp only [scrubBottomUp, if_pos htag, settleNode, scrubElement_of_scrubbed hattrs,
      scrubForest_of_scrubbed children hchildren]

theorem scrubForest_of_scrubbed :
    (forest : List Node) → ForestScrubbed list forest → scrubForest special list forest = settleForest special forest
  | [], _ => by simp only [scrubForest, settleForest]
  | node :: rest, h => by
    rw [ForestScrubbed] at h
    rw [scrubForest, settleForest, scrubBottomUp_of_scrubbed node h.1, scrubForest_of_scrubbed rest h.2,
      List.singleton_append]

end

mutual

theorem scrubbed_settleNode : (node : Node) → NodeScrubbed list node → NodeScrubbed list (settleNode special node)
  | .text _, h => by rwa [settleNode]
  | .comment _, h => by rwa [settleNode]
  | .doctype _, h => by rwa [settleNode]
  | .element ns localName attrs children, h => by
    rw [NodeScrubbed] at h
    rw [settleNode, NodeScrubbed]
    exact ⟨h.1, h.2.1.settle, scrubbed_settleForest children h.2.2⟩

theorem scrubbed_settleForest :
    (forest : List Node) → ForestScrubbed list forest → ForestScrubbed list (settleForest special forest)
  | [], h => by rwa [settleForest]
  | node :: rest, h => by
    rw [ForestScrubbed] at h
    rw [settleForest, ForestScrubbed]
    exact ⟨scrubbed_settleNode node h.1, scrubbed_settleForest rest h.2⟩

end

mutual

theorem settleNode_settleNode : (node : Node) → settleNode special (settleNode special node) = settleNode special node
  | .text _ => by rw [settleNode, settleNode]
  | .comment _ => by rw [settleNode, settleNode]
  | .doctype _ => by rw [settleNode, settleNode]
  | .element ns localName attrs children => by
    rw [settleNode, settleNode, settle_settle, settleForest_settleForest children]

theorem settleForest_settleForest :
    (forest : List Node) → settleForest special (settleForest special forest) = settleForest special forest
  | [] => by rw [settleForest, settleForest]
  | node :: rest => by
    rw [settleForest, settleForest, settleNode_settleNode node, settleForest_settleForest rest]

end

/-- **A scrubbed forest is sound; a second scrub settles its URLs, and a third changes nothing.** -/
theorem sound_rescrub (special : Lowering) (list : SafeList) (forest : List Node)
    (hsvg : list.allowsTag "svg" = false) (hmath : list.allowsTag "math" = false) (hnested : ForestNested forest) :
    (∀ kept ∈ forestNodes (scrubForest special list forest), Sound list (forestNodes forest) kept) ∧
    scrubForest special list (scrubForest special list forest) =
      settleForest special (scrubForest special list forest) ∧
    scrubForest special list (scrubForest special list (scrubForest special list forest)) =
      scrubForest special list (scrubForest special list forest) := by
  have hscrubbed := scrubbed_scrubForest special list forest
  have hsecond : scrubForest special list (scrubForest special list forest) =
      settleForest special (scrubForest special list forest) := scrubForest_of_scrubbed _ hscrubbed
  refine ⟨fun kept hkept => sound_scrubForest hsvg hmath forest hnested hkept, hsecond, ?_⟩
  have hthird : scrubForest special list (settleForest special (scrubForest special list forest)) =
      settleForest special (settleForest special (scrubForest special list forest)) :=
    scrubForest_of_scrubbed _ (scrubbed_settleForest _ hscrubbed)
  rw [hsecond, hthird, settleForest_settleForest]

end Forests

/-! ## 5. A link that a second scrub takes away -/

/-- Links and their addresses. -/
def linkList : SafeList where
  tags := ["a"]
  attributes := ["href"]

/-- The elements whose text is not escaped when they are written out, or not read as markup. -/
def rawTextElements : List String :=
  ["script", "style", "xmp", "iframe", "noembed", "noframes", "plaintext", "noscript", "textarea", "title"]

def imageAttrs : Attrs := ⟨[("href", "data:image/png ;base64,eA==".toList)], by simp⟩

def imageLink (attrs : Attrs) : Node := .element .html "a" attrs [.text "photo".toList]

theorem scrubForest_imageLink (special : Lowering) (attrs : Attrs) :
    scrubForest special linkList [imageLink attrs] = [imageLink (scrubElement special linkList "a" attrs)] := by
  have htag : linkList.allowsTag "a" = true := by decide
  simp only [imageLink, scrubForest, scrubBottomUp, if_pos htag, List.append_nil]

theorem imageLink_nested (attrs : Attrs) : ForestNested [imageLink attrs] := by
  simp [imageLink, ForestNested, Node.Nested]

/-- What lowers the characters outside ASCII has nothing to do here. -/
def asciiOnly : Lowering := fun _ c _ => [c]

/-- The space in a media type is ignored by the check and escaped later: the next check reads another type. -/
theorem distinct_rescrub : ¬ ∀ (special : Lowering) (list : SafeList) (forest : List Node),
    list.allowsTag "svg" = false → list.allowsTag "math" = false →
    (∀ tag ∈ rawTextElements, list.allowsTag tag = false) → ForestNested forest →
    scrubForest special list (scrubForest special list forest) = scrubForest special list forest := by
  intro h
  have hsame := h asciiOnly linkList [imageLink imageAttrs] (by decide) (by decide) (by decide) (imageLink_nested _)
  rw [scrubForest_imageLink, scrubForest_imageLink, List.cons.injEq, imageLink, imageLink, Node.element.injEq] at hsame
  have hattrs := congrArg (·.get "href") hsame.1.2.2.1
  have honce : (scrubElement asciiOnly linkList "a" imageAttrs).get "href" =
      some "data:image/png%20;base64,eA==".toList := by decide +kernel
  have htwice : (scrubElement asciiOnly linkList "a" (scrubElement asciiOnly linkList "a" imageAttrs)).get "href" =
      none := by decide +kernel
  simp only [honce, htwice] at hattrs
  cases hattrs

/-- The link comes through the first scrub, re-escaped. -/
theorem sound_rescrub_imageLink :
    (∀ kept ∈ forestNodes (scrubForest asciiOnly linkList [imageLink imageAttrs]),
      Sound linkList (forestNodes [imageLink imageAttrs]) kept) ∧
    scrubForest asciiOnly linkList (scrubForest asciiOnly linkList [imageLink imageAttrs]) =
      settleForest asciiOnly (scrubForest asciiOnly linkList [imageLink imageAttrs]) ∧
    scrubForest asciiOnly linkList
        (scrubForest asciiOnly linkList (scrubForest asciiOnly linkList [imageLink imageAttrs])) =
      scrubForest asciiOnly linkList (scrubForest asciiOnly linkList [imageLink imageAttrs]) :=
  sound_rescrub asciiOnly linkList [imageLink imageAttrs] (by decide) (by decide) (imageLink_nested _)

end Smartfire
