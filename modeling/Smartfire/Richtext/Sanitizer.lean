/-
  File:      Smartfire/Richtext/Sanitizer.lean
  Subject:   Scrubbing a forest (crates/richtext/src/sanitizer.rs).

  A node is a tree; scrubbing one gives the nodes that take its place. An element has each attribute once.

  * `Attrs`, `Node` -- the DOM as the scrubber reads and writes it;
  * `scrubAttributes`, `scrubStyle`, `canonicalizeSpoiler`, `scrubElement` -- an element's attributes;
  * `scrubBottomUp`, `scrubForest` -- pruning and unwrapping;
  * `AttrsSound`, `attrsSound_scrubElement` -- what is left of an element's attributes;
  * **`sound_scrubForest`** -- what is left of a forest.
-/
import Mathlib.Data.List.DropRight
import Mathlib.Data.List.Nodup
import Smartfire.Lib.Split
import Smartfire.Richtext.Uri

namespace Smartfire

/-! ## 1. The DOM -/

/-- Attributes in their order, each name once. -/
@[ext] structure Attrs where
  list : List (String × Text)
  nodup : (list.map (·.1)).Nodup

namespace Attrs

variable (attrs : Attrs) (name : String)

def names : List String := attrs.list.map (·.1)

def get : Option Text := (attrs.list.find? (·.1 = name)).map (·.2)

def has : Bool := (attrs.get name).isSome

/-- The attributes a test keeps. -/
def filter (p : String × Text → Bool) : Attrs where
  list := attrs.list.filter p
  nodup := (List.filter_sublist.map _).nodup attrs.nodup

def remove : Attrs := attrs.filter (·.1 ≠ name)

/-- Each value changed by its name. -/
def mapValues (f : String → Text → Text) : Attrs where
  list := attrs.list.map fun (n, v) => (n, f n v)
  nodup := by simpa [Function.comp_def] using attrs.nodup

/-- `node[name] = value`: in place, or behind the others. -/
def set (value : Text) : Attrs :=
  if h : name ∈ attrs.names then attrs.mapValues fun n v => if n = name then value else v
  else
    { list := attrs.list ++ [(name, value)]
      nodup := by
        rw [List.map_append, List.nodup_append]
        refine ⟨attrs.nodup, by simp, fun a ha b hb => ?_⟩
        rw [List.mem_singleton.mp hb]
        rintro rfl
        exact h ha }

end Attrs

inductive Namespace where
  | html
  | svg
  | mathml
deriving DecidableEq

inductive Node where
  | text (text : Text)
  | comment (text : Text)
  | doctype (name : Text)
  | element (ns : Namespace) (localName : String) (attrs : Attrs) (children : List Node)

/-- A tag and attribute allowlist. -/
structure SafeList where
  tags : List String
  attributes : List String

namespace SafeList

def allowsTag (list : SafeList) (name : String) : Bool := list.tags.contains name

def allowsAttribute (list : SafeList) (name : String) : Bool := list.attributes.contains name

end SafeList

/-! ## 2. Text -/

/-- `char::is_whitespace` -/
def isCharWhitespace (c : Char) : Bool :=
  let n := c.toNat
  (9 ≤ n && n ≤ 13) || n = 0x20 || n = 0x85 || n = 0xA0 || n = 0x1680 || (0x2000 ≤ n && n ≤ 0x200A) ||
    n = 0x2028 || n = 0x2029 || n = 0x202F || n = 0x205F || n = 0x3000

def skipWhitespace (s : Text) : Text := s.dropWhile isCharWhitespace

/-- `str::trim` -/
def trimText (s : Text) : Text := (skipWhitespace s).rdropWhile isCharWhitespace

def splitWhitespace (s : Text) : List Text := (s.splitOnP isCharWhitespace).filter (! ·.isEmpty)

/-! ## 3. Attributes -/

def attrValIsUri : List String :=
  ["action", "cite", "href", "longdesc", "poster", "preload", "src", "xlink:href", "xml:base"]

/-- The attributes re-escaping writes back. -/
def escapes (isA : Bool) (name : String) : Bool :=
  name = "href" || name = "action" || name = "src" || (name = "name" && isA)

def forceCorrectAttributeEscaping (isA : Bool) (attrs : Attrs) : Attrs :=
  attrs.mapValues fun name value => if escapes isA name then escapeValue value else value

/-- One attribute visited, as it stands by then. -/
def scrubAttribute (special : Lowering) (list : SafeList) (isA : Bool) (attrs : Attrs) (name : String) : Attrs :=
  match attrs.get name with
  | none => attrs
  | some value =>
    if !list.allowsAttribute name || (name = "name" && !isA) then attrs.remove name
    else if attrValIsUri.contains name && !allowedUri special value then attrs.remove name
    else
      let attrs := if name = "src" && value.all isCharWhitespace then attrs.remove name else attrs
      forceCorrectAttributeEscaping isA attrs

/-- A letter without its case, with the two outside ASCII that fold to one in it. -/
def foldCase (c : Char) : Char := if c = '\u017f' then 's' else if c = '\u212a' then 'k' else c.toLower

example : [Char.ofNat 0x212a, 'K', Char.ofNat 0x17f, 'S'].map foldCase = "kkss".toList := by decide

def isHexFolded (c : Char) : Bool := isAsciiDigit c || ('a' ≤ c && c ≤ 'f')

/-- `var(--name)` -/
def isCustomProperty (s : Text) : Bool :=
  let inside := skipWhitespace (s.drop 4)
  let name := (inside.drop 2).takeWhile fun c => isAsciiAlpha c || isAsciiDigit c || c = '_' || c = '-'
  "var(".toList.isPrefixOf s && "--".toList.isPrefixOf inside && !name.isEmpty &&
    skipWhitespace (inside.drop (2 + name.length)) = [')']

/-- `rgb(…)` and its like. -/
def isColorFunction (s : Text) : Bool :=
  let inside := (s.dropWhile (· ≠ '(')).drop 1
  ["rgb(", "rgba(", "hsl(", "hsla("].any (·.toList.isPrefixOf s) && inside.getLast? = some ')' &&
    inside.dropLast.all fun c =>
      isAsciiDigit c || isAsciiAlpha c || c = '.' || c = ',' || c = '%' || isCharWhitespace c || c = '/' ||
        c = '+' || c = '-'

/-- Nothing that can load a URL, escape, or run an expression. -/
def isPlainColor (value : Text) : Bool :=
  let s := value.map foldCase
  (!s.isEmpty && s.all isAsciiAlpha) ||
  (s.head? = some '#' && 4 ≤ s.length && s.length ≤ 9 && (s.drop 1).all isHexFolded) ||
  isCustomProperty s || isColorFunction s

def allowedStyleProperties : List String := ["color", "background-color"]

abbrev Declaration := Text × Text

def parseDeclaration (declaration : Text) : Declaration :=
  let property := declaration.takeWhile (· ≠ ':')
  ((trimText property).map Char.toLower, trimText (declaration.drop (property.length + 1)))

def declarations (style : Text) : List Declaration :=
  ((style.splitOn ';').filter fun declaration => !(trimText declaration).isEmpty).map parseDeclaration

def allowedDeclaration (d : Declaration) : Bool :=
  (allowedStyleProperties.map String.toList).contains d.1 && isPlainColor d.2

def writeDeclaration (d : Declaration) : Text := d.1 ++ ": ".toList ++ d.2 ++ [';']

/-- What is left of a style. -/
def scrubStyleValue (style : Text) : Option Text :=
  let all := declarations style
  if all.all allowedDeclaration && !all.isEmpty then some style
  else
    let scrubbed := (all.filter allowedDeclaration).flatMap writeDeclaration
    if scrubbed.isEmpty then none else some scrubbed

def scrubStyle (attrs : Attrs) : Attrs :=
  match attrs.get "style" with
  | none => attrs
  | some style =>
    match scrubStyleValue style with
    | none => attrs.remove "style"
    | some scrubbed => attrs.set "style" scrubbed

/-- Attributes are visited in order; each allowed one re-escapes all. -/
def scrubAttributes (special : Lowering) (list : SafeList) (isA : Bool) (attrs : Attrs) : Attrs :=
  scrubStyle (attrs.names.foldl (scrubAttribute special list isA) attrs)

def spoilerClass : Text := "spoiler".toList

def hasSpoilerClass (attrs : Attrs) : Bool :=
  (attrs.get "class").any fun classes => (splitWhitespace classes).contains spoilerClass

def isSpoilerSpan (localName : String) (attrs : Attrs) : Bool :=
  localName = "span" && (attrs.has "data-spoiler" || hasSpoilerClass attrs)

/-- The class of a spoiler that had none. -/
def spoilerClasses (attrs : Attrs) : Text :=
  match attrs.get "class" with
  | none => spoilerClass
  | some classes =>
    if (trimText classes).isEmpty then spoilerClass else trimText classes ++ ' ' :: spoilerClass

def withoutSpoiler (classes : Text) : List Text := (splitWhitespace classes).filter (· ≠ spoilerClass)

def canonicalizeSpoiler (attrs : Attrs) (spoiler : Bool) : Attrs :=
  if spoiler then
    let attrs := attrs.set "data-spoiler" []
    if hasSpoilerClass attrs then attrs else attrs.set "class" (spoilerClasses attrs)
  else
    let attrs := attrs.remove "data-spoiler"
    if hasSpoilerClass attrs then
      let rest := withoutSpoiler ((attrs.get "class").getD [])
      if rest.isEmpty then attrs.remove "class" else attrs.set "class" ([' '].intercalate rest)
    else attrs

/-- An element that is kept. -/
def scrubElement (special : Lowering) (list : SafeList) (localName : String) (attrs : Attrs) : Attrs :=
  let spoiler := isSpoilerSpan localName attrs
  canonicalizeSpoiler (scrubAttributes special list (localName = "a") attrs)
    (spoiler && list.allowsAttribute "data-spoiler")

/-! ## 4. Trees -/

mutual

/-- The nodes that take a node's place: its children first, then the node itself. -/
def scrubBottomUp (special : Lowering) (list : SafeList) : Node → List Node
  | .text text => [.text text]
  | .comment _ => []
  | .doctype _ => []
  | .element ns localName attrs children =>
    let children := scrubForest special list children
    if list.allowsTag localName then [.element ns localName (scrubElement special list localName attrs) children]
    -- an HTML element is unwrapped, a foreign one dropped with its contents
    else if ns = .html then children
    else []

def scrubForest (special : Lowering) (list : SafeList) : List Node → List Node
  | [] => []
  | node :: rest => scrubBottomUp special list node ++ scrubForest special list rest

end

/-! ## 5. What the attribute operations do -/

namespace Attrs

variable {attrs : Attrs} {name n : String} {value v : Text}

theorem eq_of_mem {v' : Text} (h : (n, v) ∈ attrs.list) (h' : (n, v') ∈ attrs.list) : v = v' :=
  congrArg Prod.snd (List.inj_on_of_nodup_map attrs.nodup h h' rfl)

theorem get_eq_some : attrs.get name = some value ↔ (name, value) ∈ attrs.list := by
  unfold get
  constructor
  · intro h
    obtain ⟨⟨n, v⟩, hfind, rfl⟩ := Option.map_eq_some_iff.mp h
    have hn : n = name := by simpa using List.find?_some hfind
    subst hn
    exact List.mem_of_find?_eq_some hfind
  · intro h
    cases hfind : attrs.list.find? (·.1 = name) with
    | none => exact absurd (List.find?_eq_none.mp hfind _ h) (by simp)
    | some pair =>
      obtain ⟨n, v⟩ := pair
      have hn : n = name := by simpa using List.find?_some hfind
      subst hn
      rw [Option.map_some, eq_of_mem (List.mem_of_find?_eq_some hfind) h]

theorem get_eq_none : attrs.get name = none ↔ ∀ v, (name, v) ∉ attrs.list := by
  constructor
  · intro h v hmem
    rw [get_eq_some.mpr hmem] at h
    cases h
  · intro h
    cases hget : attrs.get name with
    | none => rfl
    | some v => exact absurd (get_eq_some.mp hget) (h v)

theorem mem_names : name ∈ attrs.names ↔ ∃ v, (name, v) ∈ attrs.list := by
  simp [names]

theorem mem_filter {p : String × Text → Bool} :
    (n, v) ∈ (attrs.filter p).list ↔ (n, v) ∈ attrs.list ∧ p (n, v) = true := List.mem_filter

theorem mem_remove : (n, v) ∈ (attrs.remove name).list ↔ (n, v) ∈ attrs.list ∧ n ≠ name := by
  simp [remove, mem_filter]

theorem mem_mapValues {f : String → Text → Text} :
    (n, v) ∈ (attrs.mapValues f).list ↔ ∃ v', (n, v') ∈ attrs.list ∧ f n v' = v := by
  simp only [mapValues, List.mem_map, Prod.mk.injEq, Prod.exists]
  constructor
  · rintro ⟨a, b, hmem, rfl, rfl⟩
    exact ⟨b, hmem, rfl⟩
  · rintro ⟨b, hmem, rfl⟩
    exact ⟨n, b, hmem, rfl, rfl⟩

theorem mem_set : (n, v) ∈ (attrs.set name value).list ↔
    (n = name ∧ v = value) ∨ (n ≠ name ∧ (n, v) ∈ attrs.list) := by
  unfold set
  split
  · next hname =>
    rw [mem_mapValues]
    constructor
    · rintro ⟨v', hmem, rfl⟩
      by_cases hn : n = name
      · exact .inl ⟨hn, if_pos hn⟩
      · exact .inr ⟨hn, by rwa [if_neg hn]⟩
    · rintro (⟨rfl, rfl⟩ | ⟨hn, hmem⟩)
      · obtain ⟨v', hv'⟩ := mem_names.mp hname
        exact ⟨v', hv', if_pos rfl⟩
      · exact ⟨v, hmem, if_neg hn⟩
  · next hname =>
    simp only [List.mem_append, List.mem_singleton, Prod.mk.injEq]
    have hne : (n, v) ∈ attrs.list → n ≠ name := fun hmem heq => hname (mem_names.mpr ⟨v, heq ▸ hmem⟩)
    tauto

theorem get_set : (attrs.set name value).get n = if n = name then some value else attrs.get n := by
  split
  · next hn => exact get_eq_some.mpr (mem_set.mpr (.inl ⟨hn, rfl⟩))
  · next hn =>
    cases hget : attrs.get n with
    | none =>
      refine get_eq_none.mpr fun v hmem => ?_
      rcases mem_set.mp hmem with ⟨heq, -⟩ | ⟨-, hmem⟩
      · exact hn heq
      · exact get_eq_none.mp hget v hmem
    | some v => exact get_eq_some.mpr (mem_set.mpr (.inr ⟨hn, get_eq_some.mp hget⟩))

theorem get_remove : (attrs.remove name).get n = if n = name then none else attrs.get n := by
  split
  · next hn => exact get_eq_none.mpr fun v hmem => (mem_remove.mp hmem).2 hn
  · next hn =>
    cases hget : attrs.get n with
    | none => exact get_eq_none.mpr fun v hmem => get_eq_none.mp hget v (mem_remove.mp hmem).1
    | some v => exact get_eq_some.mpr (mem_remove.mpr ⟨get_eq_some.mp hget, hn⟩)

end Attrs

/-! ## 6. Splitting -/

section Splitting

variable {p : Char → Bool} {s t : Text} {ts : List Text}

theorem word_of_mem_splitWhitespace (h : t ∈ splitWhitespace s) : t ≠ [] ∧ ∀ c ∈ t, isCharWhitespace c = false := by
  obtain ⟨hsplit, hne⟩ := List.mem_filter.mp h
  exact ⟨by simpa using hne, Lib.not_of_mem_splitOnP hsplit⟩

theorem splitWhitespace_cons_word (hne : t ≠ []) (ht : ∀ c ∈ t, isCharWhitespace c = false) :
    splitWhitespace (t ++ ' ' :: s) = t :: splitWhitespace s := by
  have hspace : isCharWhitespace ' ' = true := by decide
  have hnot : t.isEmpty = false := by simpa using hne
  rw [splitWhitespace, List.splitOnP_append_cons_of_forall_mem ht ' ' hspace,
    List.filter_cons_of_pos (by simp [hnot])]
  rfl

theorem splitWhitespace_word (hne : t ≠ []) (ht : ∀ c ∈ t, isCharWhitespace c = false) :
    splitWhitespace t = [t] := by
  simp [splitWhitespace, List.splitOnP_eq_singleton ht, hne]

/-- Words joined by blanks are these words. -/
theorem splitWhitespace_join (h : ∀ t ∈ ts, t ≠ [] ∧ ∀ c ∈ t, isCharWhitespace c = false) :
    splitWhitespace ([' '].intercalate ts) = ts := by
  induction ts with
  | nil => simp [splitWhitespace]
  | cons t ts ih =>
    obtain ⟨hne, ht⟩ := h t List.mem_cons_self
    have hrest := ih fun u hu => h u (List.mem_cons_of_mem _ hu)
    cases ts with
    | nil => rw [List.intercalate_singleton, splitWhitespace_word hne ht]
    | cons u ts =>
      rw [List.intercalate_cons_cons, List.append_assoc, List.singleton_append, splitWhitespace_cons_word hne ht,
        hrest]

theorem spoiler_mem_splitWhitespace (s : Text) : spoilerClass ∈ splitWhitespace (s ++ ' ' :: spoilerClass) := by
  have hspace : isCharWhitespace ' ' = true := by decide
  have hword : spoilerClass.splitOnP isCharWhitespace = [spoilerClass] := by decide
  simp only [splitWhitespace, List.splitOnP_append_cons s spoilerClass hspace, List.filter_append, hword]
  exact List.mem_append_right _ (by decide)

end Splitting

/-! ## 7. What a visit leaves -/

theorem escapeChar_self {c d : Char} (h : d ∈ escapeChar c) : escapeChar d = [d] := by
  unfold escapeChar at h
  split at h
  · rcases (by simpa using h : d = '%' ∨ d = '2' ∨ d = '0') with rfl | rfl | rfl <;> decide
  split at h
  · rcases (by simpa using h : d = '%' ∨ d = '2' ∨ d = '2') with rfl | rfl | rfl <;> decide
  split at h
  · next hspace hquote htab =>
    rw [List.mem_singleton.mp h]
    simp only [escapeChar, if_neg hspace, if_neg hquote, if_pos htab]
  split at h
  · exact absurd h List.not_mem_nil
  · next hspace hquote htab hlt =>
    rw [List.mem_singleton.mp h]
    simp only [escapeChar, if_neg hspace, if_neg hquote, if_neg htab, if_neg hlt]

/-- Escaped once, escaped for good. -/
theorem escapeValue_escapeValue (value : Text) : escapeValue (escapeValue value) = escapeValue value := by
  have hself : ∀ s : Text, (∀ d ∈ s, escapeChar d = [d]) → escapeValue s = s := by
    intro s
    induction s with
    | nil => exact fun _ => rfl
    | cons d s ih =>
      intro h
      have hrest := ih fun e he => h e (List.mem_cons_of_mem _ he)
      rw [escapeValue, List.flatMap_cons, h d List.mem_cons_self, ← escapeValue, hrest]
      rfl
  refine hself _ fun d hd => ?_
  obtain ⟨c, -, hc⟩ := List.mem_flatMap.mp hd
  exact escapeChar_self hc

section Visits

variable {special : Lowering} {list : SafeList} {isA : Bool} {attrs : Attrs} {name n : String} {v : Text}

/-- A value that passed the protocol check, as it was or re-escaped since. -/
def Checked (special : Lowering) (value : Text) : Prop :=
  ∃ uri, allowedUri special uri = true ∧ (value = uri ∨ value = escapeValue uri)

/-- An attribute the list lets stay. -/
structure Fit (special : Lowering) (list : SafeList) (isA : Bool) (name : String) (value : Text) : Prop where
  allowed : list.allowsAttribute name = true
  named : name = "name" → isA = true
  checked : name ∈ attrValIsUri → Checked special value
  escaped : escapes isA name = true → escapeValue value = value

/-- Of the attributes visited those that are left fit. -/
def Visited (special : Lowering) (list : SafeList) (isA : Bool) (done : List String) (attrs : Attrs) : Prop :=
  ∀ n v, (n, v) ∈ attrs.list → n ∈ done → Fit special list isA n v

theorem checked_escapeValue (h : Checked special v) : Checked special (escapeValue v) := by
  obtain ⟨uri, huri, rfl | rfl⟩ := h
  · exact ⟨v, huri, .inr rfl⟩
  · exact ⟨uri, huri, .inr (escapeValue_escapeValue uri)⟩

theorem mem_forceCorrectAttributeEscaping : (n, v) ∈ (forceCorrectAttributeEscaping isA attrs).list ↔
    ∃ v', (n, v') ∈ attrs.list ∧ (if escapes isA n then escapeValue v' else v') = v := Attrs.mem_mapValues

/-- Re-escaping keeps what fits, and makes what is checked fit. -/
theorem fit_escaped (hallowed : list.allowsAttribute n = true) (hnamed : n = "name" → isA = true)
    (hchecked : n ∈ attrValIsUri → Checked special v) :
    Fit special list isA n (if escapes isA n then escapeValue v else v) := by
  refine ⟨hallowed, hnamed, fun huri => ?_, fun hescapes => ?_⟩
  · split
    · exact checked_escapeValue (hchecked huri)
    · exact hchecked huri
  · rw [if_pos hescapes, escapeValue_escapeValue]

theorem visited_scrubAttribute {done : List String} (h : Visited special list isA done attrs) :
    Visited special list isA (name :: done) (scrubAttribute special list isA attrs name) := by
  have hremoved : Visited special list isA (name :: done) (attrs.remove name) := by
    intro n v hmem hdone
    obtain ⟨hmem, hne⟩ := Attrs.mem_remove.mp hmem
    exact h n v hmem ((List.mem_cons.mp hdone).resolve_left hne)
  unfold scrubAttribute
  split
  · next hnone =>
    intro n v hmem hdone
    rcases List.mem_cons.mp hdone with rfl | hdone
    · exact absurd hmem (Attrs.get_eq_none.mp hnone v)
    · exact h n v hmem hdone
  · next value hget =>
    split
    · exact hremoved
    split
    · exact hremoved
    · next hallowed hchecked =>
      simp only [Bool.or_eq_true, Bool.not_eq_true', Bool.and_eq_true, decide_eq_true_eq, not_or, not_and] at hallowed
      intro n v hmem hdone
      obtain ⟨v', hmem', rfl⟩ := mem_forceCorrectAttributeEscaping.mp hmem
      have hold : (n, v') ∈ attrs.list := by
        split at hmem'
        · exact (Attrs.mem_remove.mp hmem').1
        · exact hmem'
      rcases List.mem_cons.mp hdone with rfl | hdone
      · obtain rfl : v' = value := Attrs.eq_of_mem hold (Attrs.get_eq_some.mp hget)
        refine fit_escaped (by simpa using hallowed.1) (fun hname => by simpa using hallowed.2 hname) fun huri => ?_
        simp only [Bool.and_eq_true, List.contains_iff_mem, Bool.not_eq_true', not_and] at hchecked
        exact ⟨v', by simpa using hchecked huri, .inl rfl⟩
      · obtain ⟨hallowed, hnamed, hchecked, -⟩ := h n v' hold hdone
        exact fit_escaped hallowed hnamed hchecked

theorem names_scrubAttribute (h : (n, v) ∈ (scrubAttribute special list isA attrs name).list) : n ∈ attrs.names := by
  have hremove : ∀ v, (n, v) ∈ (attrs.remove name).list → n ∈ attrs.names := fun v hmem =>
    Attrs.mem_names.mpr ⟨v, (Attrs.mem_remove.mp hmem).1⟩
  unfold scrubAttribute at h
  split at h
  · exact Attrs.mem_names.mpr ⟨v, h⟩
  split at h
  · exact hremove v h
  split at h
  · exact hremove v h
  · obtain ⟨v', hmem, -⟩ := mem_forceCorrectAttributeEscaping.mp h
    split at hmem
    · exact hremove v' hmem
    · exact Attrs.mem_names.mpr ⟨v', hmem⟩

/-- **All attributes that are left fit.** -/
theorem fit_visits (h : (n, v) ∈ (attrs.names.foldl (scrubAttribute special list isA) attrs).list) :
    Fit special list isA n v := by
  suffices hall : ∀ (names done : List String) (a : Attrs), Visited special list isA done a →
      (∀ n v, (n, v) ∈ a.list → n ∈ attrs.names) → Visited special list isA (names.reverse ++ done)
        (names.foldl (scrubAttribute special list isA) a) ∧
        ∀ n v, (n, v) ∈ (names.foldl (scrubAttribute special list isA) a).list → n ∈ attrs.names by
    obtain ⟨hvisited, hnames⟩ := hall attrs.names [] attrs (fun _ _ _ hdone => absurd hdone List.not_mem_nil)
      (fun n v hmem => Attrs.mem_names.mpr ⟨v, hmem⟩)
    exact hvisited n v h (by simpa using hnames n v h)
  intro names
  induction names with
  | nil => exact fun done a hvisited hnames => ⟨by simpa using hvisited, hnames⟩
  | cons name names ih =>
    intro done a hvisited hnames
    obtain ⟨hvisited', hnames'⟩ := ih (name :: done) (scrubAttribute special list isA a name)
      (visited_scrubAttribute hvisited) fun n v hmem =>
        have hmem' := names_scrubAttribute hmem
        (Attrs.mem_names.mp hmem').elim fun v' hv' => hnames n v' hv'
    exact ⟨by simpa using hvisited', hnames'⟩

theorem fit_scrubStyle (hfit : ∀ n v, (n, v) ∈ attrs.list → Fit special list isA n v)
    (h : (n, v) ∈ (scrubStyle attrs).list) : Fit special list isA n v := by
  unfold scrubStyle at h
  split at h
  · exact hfit n v h
  · next style hstyle =>
    split at h
    · exact hfit n v (Attrs.mem_remove.mp h).1
    · rcases Attrs.mem_set.mp h with ⟨rfl, rfl⟩ | ⟨-, hmem⟩
      · -- a style is no URL, and never re-escaped
        have hallowed := (hfit "style" style (Attrs.get_eq_some.mp hstyle)).allowed
        refine ⟨hallowed, fun hname => absurd hname (by decide), fun huri => absurd huri (by decide),
          fun hescapes => ?_⟩
        revert hescapes
        simp [escapes]
      · exact hfit n v hmem

theorem fit_scrubAttributes (h : (n, v) ∈ (scrubAttributes special list isA attrs).list) :
    Fit special list isA n v := fit_scrubStyle (fun _ _ => fit_visits) h

end Visits

/-! ## 8. An element's attributes -/

section Elements

variable {special : Lowering} {list : SafeList} {localName n : String} {original attrs : Attrs} {v : Text}

/-- What is left of the attributes of an element that had `original`. -/
structure AttrsSound (list : SafeList) (localName : String) (original attrs : Attrs) : Prop where
  allowed : ∀ n v, (n, v) ∈ attrs.list →
    (list.allowsAttribute n = true ∧ (n = "name" → localName = "a")) ∨ (n = "class" ∧ v = spoilerClass)
  spoiler : attrs.has "data-spoiler" = true ∨ hasSpoilerClass attrs = true →
    isSpoilerSpan localName original = true ∧ attrs.get "data-spoiler" = some [] ∧ hasSpoilerClass attrs = true
  uri : ∀ n v scheme, (n, v) ∈ attrs.list → n ∈ attrValIsUri → whatwgScheme v = some scheme →
    scheme ∈ allowedProtocols.map String.toList

theorem hasSpoilerClass_eq {attrs' : Attrs} (h : attrs.get "class" = attrs'.get "class") :
    hasSpoilerClass attrs = hasSpoilerClass attrs' := by
  rw [hasSpoilerClass, hasSpoilerClass, h]

theorem hasSpoilerClass_set (classes : Text) :
    hasSpoilerClass (attrs.set "class" classes) = (splitWhitespace classes).contains spoilerClass := by
  rw [hasSpoilerClass, Attrs.get_set, if_pos rfl, Option.any_some]

theorem spoiler_mem_spoilerClasses (attrs : Attrs) : spoilerClass ∈ splitWhitespace (spoilerClasses attrs) := by
  have hself : spoilerClass ∈ splitWhitespace spoilerClass := by decide
  unfold spoilerClasses
  split
  · exact hself
  · split
    · exact hself
    · exact spoiler_mem_splitWhitespace _

theorem hasSpoilerClass_withoutSpoiler (classes : Text) :
    (splitWhitespace ([' '].intercalate (withoutSpoiler classes))).contains spoilerClass = false := by
  have hwords : ∀ t ∈ withoutSpoiler classes, t ≠ [] ∧ ∀ c ∈ t, isCharWhitespace c = false := fun t ht =>
    word_of_mem_splitWhitespace (List.mem_filter.mp ht).1
  rw [splitWhitespace_join hwords]
  simp [withoutSpoiler]

/-- A spoiler is left in its one form. -/
theorem canonicalizeSpoiler_true (attrs : Attrs) :
    (canonicalizeSpoiler attrs true).get "data-spoiler" = some [] ∧
    hasSpoilerClass (canonicalizeSpoiler attrs true) = true := by
  have hdata : (attrs.set "data-spoiler" []).get "data-spoiler" = some [] := by
    rw [Attrs.get_set, if_pos rfl]
  have hne : "data-spoiler" ≠ "class" := by decide
  simp only [canonicalizeSpoiler, if_true]
  split
  · next hclass => exact ⟨hdata, hclass⟩
  · refine ⟨by rw [Attrs.get_set, if_neg hne, hdata], ?_⟩
    rw [hasSpoilerClass_set, List.contains_iff_mem]
    exact spoiler_mem_spoilerClasses _

/-- Anything else is left with neither mark. -/
theorem canonicalizeSpoiler_false (attrs : Attrs) :
    (canonicalizeSpoiler attrs false).get "data-spoiler" = none ∧
    hasSpoilerClass (canonicalizeSpoiler attrs false) = false := by
  have hdata : (attrs.remove "data-spoiler").get "data-spoiler" = none := by
    rw [Attrs.get_remove, if_pos rfl]
  have hne : "data-spoiler" ≠ "class" := by decide
  simp only [canonicalizeSpoiler, Bool.false_eq_true, if_false]
  split
  · split
    · refine ⟨by rw [Attrs.get_remove, if_neg hne, hdata], ?_⟩
      rw [hasSpoilerClass, Attrs.get_remove, if_pos rfl, Option.any_none]
    · refine ⟨by rw [Attrs.get_set, if_neg hne, hdata], ?_⟩
      rw [hasSpoilerClass_set, hasSpoilerClass_withoutSpoiler]
  · next hclass => exact ⟨hdata, Bool.eq_false_iff.mpr hclass⟩

/-- The attributes other than the two marks are as they were. -/
theorem get_canonicalizeSpoiler {spoiler : Bool} (hdata : n ≠ "data-spoiler") (hclass : n ≠ "class") :
    (canonicalizeSpoiler attrs spoiler).get n = attrs.get n := by
  unfold canonicalizeSpoiler
  dsimp only
  split_ifs <;> simp [Attrs.get_set, Attrs.get_remove, hdata, hclass]

/-- A class is one that was there, or was written without the mark or with it. -/
theorem class_canonicalizeSpoiler {spoiler : Bool} (h : (canonicalizeSpoiler attrs spoiler).get "class" = some v) :
    (∃ classes, attrs.get "class" = some classes) ∨ (spoiler = true ∧ v = spoilerClass) := by
  have hne : "class" ≠ "data-spoiler" := by decide
  cases hget : attrs.get "class" with
  | some classes => exact .inl ⟨classes, rfl⟩
  | none =>
    refine .inr ?_
    have hnone : ∀ a : Attrs, a.get "class" = none → hasSpoilerClass a = false := fun a ha => by
      rw [hasSpoilerClass, ha, Option.any_none]
    cases spoiler with
    | true =>
      have hset : (attrs.set "data-spoiler" []).get "class" = none := by rw [Attrs.get_set, if_neg hne, hget]
      simp only [canonicalizeSpoiler, if_true, hnone _ hset, Bool.false_eq_true, if_false, Attrs.get_set] at h
      refine ⟨rfl, ?_⟩
      simpa [spoilerClasses, hset] using h.symm
    | false =>
      have hremove : (attrs.remove "data-spoiler").get "class" = none := by
        rw [Attrs.get_remove, if_neg hne, hget]
      simp only [canonicalizeSpoiler, Bool.false_eq_true, if_false, hnone _ hremove, hremove] at h
      cases h

/-- **What is left of an element's attributes is sound.** -/
theorem attrsSound_scrubElement (special : Lowering) (list : SafeList) (localName : String) (original : Attrs) :
    AttrsSound list localName original (scrubElement special list localName original) := by
  unfold scrubElement
  dsimp only
  generalize hattrs : scrubAttributes special list (localName = "a") original = attrs
  have hfit : ∀ n v, (n, v) ∈ attrs.list → Fit special list (localName = "a") n v := by
    rw [← hattrs]
    exact fun _ _ => fit_scrubAttributes
  generalize hspoiler : (isSpoilerSpan localName original && list.allowsAttribute "data-spoiler") = spoiler
  refine ⟨fun n v hmem => ?_, fun hmarks => ?_, fun n v scheme hmem huri hscheme => ?_⟩
  · rw [← Attrs.get_eq_some] at hmem
    have hkept : ∀ w, attrs.get n = some w →
        list.allowsAttribute n = true ∧ (n = "name" → localName = "a") := fun w hw => by
      have hfits := hfit n w (Attrs.get_eq_some.mp hw)
      exact ⟨hfits.allowed, fun hname => of_decide_eq_true (hfits.named hname)⟩
    by_cases hdata : n = "data-spoiler"
    · subst hdata
      cases spoiler with
      | true => exact .inl ⟨((Bool.and_eq_true _ _).mp hspoiler).2, fun hname => absurd hname (by decide)⟩
      | false => rw [(canonicalizeSpoiler_false attrs).1] at hmem; cases hmem
    by_cases hclass : n = "class"
    · subst hclass
      rcases class_canonicalizeSpoiler hmem with ⟨classes, hclasses⟩ | ⟨-, rfl⟩
      · exact .inl (hkept classes hclasses)
      · exact .inr ⟨rfl, rfl⟩
    · rw [get_canonicalizeSpoiler hdata hclass] at hmem
      exact .inl (hkept v hmem)
  · cases spoiler with
    | true => exact ⟨((Bool.and_eq_true _ _).mp hspoiler).1, canonicalizeSpoiler_true attrs⟩
    | false =>
      obtain ⟨hdata, hclass⟩ := canonicalizeSpoiler_false attrs
      rw [Attrs.has, hdata, hclass] at hmarks
      simp at hmarks
  · have hdata : n ≠ "data-spoiler" := by rintro rfl; revert huri; decide
    have hclass : n ≠ "class" := by rintro rfl; revert huri; decide
    rw [← Attrs.get_eq_some, get_canonicalizeSpoiler hdata hclass, Attrs.get_eq_some] at hmem
    obtain ⟨uri, hchecked, hvalue⟩ := (hfit n v hmem).checked huri
    exact whatwgScheme_allowed hchecked hvalue hscheme

end Elements

/-! ## 9. A forest -/

mutual

/-- A node and all below it. -/
def Node.nodes : Node → List Node
  | .text text => [.text text]
  | .comment text => [.comment text]
  | .doctype name => [.doctype name]
  | .element ns localName attrs children => .element ns localName attrs children :: forestNodes children

def forestNodes : List Node → List Node
  | [] => []
  | node :: rest => node.nodes ++ forestNodes rest

end

/-- The root of foreign content. -/
def isForeignRoot (ns : Namespace) (localName : String) : Bool :=
  ns ≠ .html && (localName = "svg" || localName = "math")

mutual

/-- Foreign elements occur only as a foreign root or under one. -/
def Node.Nested : Node → Prop
  | .text _ => True
  | .comment _ => True
  | .doctype _ => True
  | .element ns localName _ children =>
    isForeignRoot ns localName = true ∨ (ns = .html ∧ ForestNested children)

def ForestNested : List Node → Prop
  | [] => True
  | node :: rest => node.Nested ∧ ForestNested rest

end

/-- A node of a scrubbed forest whose nodes were `given`. -/
def Sound (list : SafeList) (given : List Node) : Node → Prop
  | .text text => .text text ∈ given
  | .comment _ => False
  | .doctype _ => False
  | .element ns localName attrs _ => ns = .html ∧ list.allowsTag localName = true ∧
      ∃ original children, .element .html localName original children ∈ given ∧
        AttrsSound list localName original attrs

section Forests

variable {special : Lowering} {list : SafeList} {given : List Node} {kept : Node}

@[simp] theorem forestNodes_append (first second : List Node) :
    forestNodes (first ++ second) = forestNodes first ++ forestNodes second := by
  induction first with
  | nil => rfl
  | cons node rest ih => simp only [List.cons_append, forestNodes, ih, List.append_assoc]

theorem Sound.mono {given' : List Node} (hsub : ∀ node ∈ given, node ∈ given') (h : Sound list given kept) :
    Sound list given' kept := by
  cases kept with
  | text text => exact hsub _ h
  | comment text => exact h
  | doctype name => exact h
  | element ns localName attrs children =>
    obtain ⟨hns, htag, original, before, hmem, hattrs⟩ := h
    exact ⟨hns, htag, original, before, hsub _ hmem, hattrs⟩

mutual

theorem sound_scrubBottomUp (hsvg : list.allowsTag "svg" = false) (hmath : list.allowsTag "math" = false) :
    (node : Node) → node.Nested → kept ∈ forestNodes (scrubBottomUp special list node) → Sound list node.nodes kept
  | .text text, _, h => by
    simp only [scrubBottomUp, forestNodes, Node.nodes, List.append_nil, List.mem_singleton] at h
    rw [h]
    exact List.mem_singleton.mpr rfl
  | .comment _, _, h => by simp [scrubBottomUp, forestNodes] at h
  | .doctype _, _, h => by simp [scrubBottomUp, forestNodes] at h
  | .element ns localName attrs children, hnested, h => by
    have hbelow : ∀ node ∈ forestNodes children, node ∈ (Node.element ns localName attrs children).nodes :=
      fun node hnode => by rw [Node.nodes]; exact List.mem_cons_of_mem _ hnode
    rw [Node.Nested] at hnested
    simp only [scrubBottomUp] at h
    split at h
    · next htag =>
      rcases hnested with hroot | ⟨rfl, hchildren⟩
      · -- neither root is allowed
        simp only [isForeignRoot, Bool.and_eq_true, Bool.or_eq_true, decide_eq_true_eq] at hroot
        rcases hroot.2 with rfl | rfl
        · rw [hsvg] at htag; cases htag
        · rw [hmath] at htag; cases htag
      · simp only [forestNodes, Node.nodes, List.append_nil, List.mem_cons] at h
        rcases h with rfl | h
        · exact ⟨rfl, htag, attrs, children, by rw [Node.nodes]; exact List.mem_cons_self,
            attrsSound_scrubElement special list localName attrs⟩
        · exact (sound_scrubForest hsvg hmath children hchildren h).mono hbelow
    · split at h
      · next hns =>
        rcases hnested with hroot | ⟨-, hchildren⟩
        · simp [isForeignRoot, hns] at hroot
        · -- promoted, the children have been scrubbed
          exact (sound_scrubForest hsvg hmath children hchildren h).mono hbelow
      · simp [forestNodes] at h

theorem sound_scrubForest (hsvg : list.allowsTag "svg" = false) (hmath : list.allowsTag "math" = false) :
    (forest : List Node) → ForestNested forest → kept ∈ forestNodes (scrubForest special list forest) →
    Sound list (forestNodes forest) kept
  | [], _, h => by simp [scrubForest, forestNodes] at h
  | node :: rest, hnested, h => by
    rw [ForestNested] at hnested
    rw [scrubForest, forestNodes_append, List.mem_append] at h
    rw [forestNodes]
    rcases h with h | h
    · exact (sound_scrubBottomUp hsvg hmath node hnested.1 h).mono fun _ => List.mem_append_left _
    · exact (sound_scrubForest hsvg hmath rest hnested.2 h).mono fun _ => List.mem_append_right _

end

end Forests

end Smartfire
