/-
  File:      Smartfire/Richtext/PlainText.lean
  Subject:   Stored HTML as plain text (crates/richtext/src/{plain_text,markdown}.rs).

  Both converters fold a tree into text and write the word "spoiler" for a spoiler span. The one of
  plain_text.rs goes by a node's name, the lists above it and its place among its siblings.

  * `plainNode` -- the Markdown converter;
  * `plainTextFor`, `nodeToPlainText` -- the bottom-up reduction;
  * `redact` -- a tree without what its spoiler spans hold;
  * `plainNode_redact` -- the first converter reads nothing a spoiler holds;
  * **`nodeToPlainText_iff`** -- nor does the second, just where no element named "text" holds a spoiler.
-/
import Smartfire.Richtext.Sanitizer

namespace Smartfire

namespace Richtext

/-! ## 1. Text -/

mutual

/-- The text nodes of a tree, in order. -/
def textOf : Node → Text
  | .text text => text
  | .comment _ => []
  | .doctype _ => []
  | .element _ _ _ children => textOfForest children

def textOfForest : List Node → Text
  | [] => []
  | node :: rest => textOf node ++ textOfForest rest

end

/-- Of a text from its end. -/
def chompReversed : Text → Text
  | '\n' :: '\r' :: rest => chompReversed rest
  | '\n' :: rest => chompReversed rest
  | rest => rest

/-- Removes every trailing line break, but no lone carriage return. -/
def chompNewlines (s : Text) : Text := (chompReversed s.reverse).reverse

def isBlank (s : Text) : Bool := s.all isCharWhitespace

/-- `presence` -/
def present (s : Option Text) : Option Text := s.filter (! isBlank ·)

/-! ## 2. The Markdown converter -/

def blockTags : List String :=
  ["blockquote", "h1", "h2", "h3", "h4", "h5", "h6", "li", "ol", "p", "pre", "table", "tr", "ul"]

/-- `^:([a-z0-9_]+):$` -/
def iconName (alt : Text) : Option Text :=
  match alt with
  | ':' :: rest =>
    let name := rest.dropLast
    if rest.getLast? = some ':' && !name.isEmpty &&
        name.all fun c => ('a' ≤ c && c ≤ 'z') || isAsciiDigit c || c = '_' then
      some name
    else none
  | _ => none

/-- An image that stands for its alternative text: `known` are the names of brand and custom icons. -/
def isIcon (known : Text → Bool) (attrs : Attrs) : Bool :=
  (iconName ((attrs.get "alt").getD [])).any known ||
    (splitWhitespace ((attrs.get "class").getD [])).any fun c =>
      c = "icon--brand".toList || c = "icon--custom".toList

mutual

def plainNode (known : Text → Bool) : Node → Text
  | .text text => text
  | .comment _ => []
  | .doctype _ => []
  | .element _ localName attrs children =>
    if localName = "br" then ['\n']
    else if isSpoilerSpan localName attrs then "spoiler".toList
    else if localName = "img" && isIcon known attrs then (attrs.get "alt").getD []
    else
      let text := plainNodes known children
      if localName = "td" || localName = "th" then text ++ ['\t']
      else if blockTags.contains localName then text ++ ['\n', '\n']
      else text

/-- `plain_node` over a root: its children's texts. -/
def plainNodes (known : Text → Bool) : List Node → Text
  | [] => []
  | node :: rest => plainNode known node ++ plainNodes known rest

end

/-! ## 3. The bottom-up reduction -/

def isSpace (c : Char) : Bool :=
  c = ' ' || c = '\t' || c = '\n' || c = '\x0b' || c = '\x0c' || c = '\r'

/-- `text.insert(text.rindex(/\S/) + 1, c)` -/
def insertAfterLast (c : Char) (s : Text) : Text :=
  if s.all isSpace then s else s.rdropWhile isSpace ++ c :: s.rtakeWhile isSpace

/-- `text.insert(text.index(/\S/), c)` -/
def insertBeforeFirst (c : Char) (s : Text) : Text :=
  if s.all isSpace then s else s.takeWhile isSpace ++ c :: s.dropWhile isSpace

def plainTextForBlock (values : Text) : Text := chompNewlines values ++ ['\n', '\n']

def isList (name : String) : Bool := name = "ul" || name = "ol"

/-- The lists above a node, its nearest first: is it an ordered one. -/
abbrev Lists := List Bool

def Lists.below (lists : Lists) (name : String) : Lists :=
  if isList name then (name = "ol" : Bool) :: lists else lists

/-- `index` counts the elements among a node's siblings before it. -/
def bulletForLi (lists : Lists) (index : Nat) : Text :=
  if lists.head? = some true then (toString (index + 1)).toList ++ ['.'] else ['•']

/-- A node's text by its name, from its children's and, for "text", from its content. -/
def reduceNode (name : String) (spoiler : Bool) (lists : Lists) (index : Nat) (values content : Text) : Text :=
  match name with
  | "script" | "style" | "unsupported" => []
  | "h1" | "p" => plainTextForBlock values
  | "ul" | "ol" => if lists.isEmpty then plainTextForBlock values else '\n' :: plainTextForBlock values
  | "br" => ['\n']
  | "text" => chompNewlines content
  | "div" => chompNewlines values ++ ['\n']
  | "figcaption" => '[' :: chompNewlines values ++ [']']
  | "blockquote" =>
    let text := plainTextForBlock values
    if isBlank text then ['“', '”'] else insertBeforeFirst '“' (insertAfterLast '”' text)
  | "li" =>
    (List.replicate (lists.length - 1) "  ".toList).flatten ++ bulletForLi lists index ++
      ' ' :: chompNewlines values ++ ['\n']
  | _ => if spoiler then "spoiler".toList else values

/-- Only elements count. -/
def nextIndex (index : Nat) : Node → Nat
  | .element _ _ _ _ => index + 1
  | _ => index

mutual

def plainTextFor (lists : Lists) (index : Nat) : Node → Text
  | .text text => chompNewlines text
  | .comment _ => []
  | .doctype name => reduceNode (String.ofList name) false lists index [] []
  | .element _ localName attrs children =>
    reduceNode localName (isSpoilerSpan localName attrs) lists index
      (plainTextsFor (lists.below localName) 0 children) (textOfForest children)

def plainTextsFor (lists : Lists) (index : Nat) : List Node → Text
  | [] => []
  | node :: rest => plainTextFor lists index node ++ plainTextsFor lists (nextIndex index node) rest

end

def nodeToPlainText (root : List Node) : Text := chompNewlines (plainTextsFor [] 0 root)

/-! ## 4. What a spoiler holds -/

mutual

/-- A tree whose spoiler spans are empty. -/
def redact : Node → Node
  | .text text => .text text
  | .comment text => .comment text
  | .doctype name => .doctype name
  | .element ns localName attrs children =>
    .element ns localName attrs (if isSpoilerSpan localName attrs then [] else redactForest children)

def redactForest : List Node → List Node
  | [] => []
  | node :: rest => redact node :: redactForest rest

end

mutual

/-- A spoiler span stands in the tree. -/
def holdsSpoiler : Node → Bool
  | .text _ => false
  | .comment _ => false
  | .doctype _ => false
  | .element _ localName attrs children => isSpoilerSpan localName attrs || forestHoldsSpoiler children

def forestHoldsSpoiler : List Node → Bool
  | [] => false
  | node :: rest => holdsSpoiler node || forestHoldsSpoiler rest

end

/-- Elements whose text is not their content's. -/
def silentNames : List String := ["script", "style", "unsupported", "br"]

mutual

/-- An element named "text" whose text is shown holds a spoiler span. -/
def revealsSpoiler : Node → Bool
  | .text _ => false
  | .comment _ => false
  | .doctype _ => false
  | .element _ localName attrs children =>
    if silentNames.contains localName || isSpoilerSpan localName attrs then false
    else if localName = "text" then forestHoldsSpoiler children
    else forestRevealsSpoiler children

def forestRevealsSpoiler : List Node → Bool
  | [] => false
  | node :: rest => revealsSpoiler node || forestRevealsSpoiler rest

end

/-! ## 5. The Markdown converter hides spoilers -/

mutual

/-- **The Markdown converter reads nothing a spoiler holds.** -/
theorem plainNode_redact (known : Text → Bool) : (node : Node) → plainNode known (redact node) = plainNode known node
  | .text _ => rfl
  | .comment _ => rfl
  | .doctype _ => rfl
  | .element _ localName attrs children => by
    rw [redact, plainNode, plainNode]
    by_cases hs : isSpoilerSpan localName attrs = true
    · simp only [hs, if_true]
    · simp only [if_neg hs, plainNodes_redact known children]

theorem plainNodes_redact (known : Text → Bool) :
    (forest : List Node) → plainNodes known (redactForest forest) = plainNodes known forest
  | [] => rfl
  | node :: rest => by
    rw [redactForest, plainNodes, plainNodes, plainNode_redact known node, plainNodes_redact known rest]

end

/-! ## 6. The reduction hides spoilers, but under "text" -/

theorem reduceNode_silent {name : String} (h : silentNames.contains name = true) (spoiler : Bool) (lists : Lists)
    (index : Nat) (values content values' content' : Text) :
    reduceNode name spoiler lists index values content = reduceNode name spoiler lists index values' content' := by
  rw [List.contains_iff_mem] at h
  simp only [silentNames, List.mem_cons, List.not_mem_nil, or_false] at h
  rcases h with rfl | rfl | rfl | rfl <;> rfl

theorem reduceNode_spoiler {name : String} {attrs : Attrs} (h : isSpoilerSpan name attrs = true) (lists : Lists)
    (index : Nat) (values content : Text) :
    reduceNode name true lists index values content = "spoiler".toList := by
  obtain rfl : name = "span" := of_decide_eq_true ((Bool.and_eq_true _ _).mp h).1
  rfl

/-- Only "text" goes by the content. -/
theorem reduceNode_content {name : String} (h : name ≠ "text") (spoiler : Bool) (lists : Lists) (index : Nat)
    (values content content' : Text) :
    reduceNode name spoiler lists index values content = reduceNode name spoiler lists index values content' := by
  unfold reduceNode
  split <;> first | rfl | exact absurd rfl h

mutual

theorem redact_of_not_holds : (node : Node) → holdsSpoiler node = false → redact node = node
  | .text _, _ => rfl
  | .comment _, _ => rfl
  | .doctype _, _ => rfl
  | .element _ localName attrs children, h => by
    rw [holdsSpoiler, Bool.or_eq_false_iff] at h
    rw [redact, if_neg (Bool.eq_false_iff.mp h.1), redactForest_of_not_holds children h.2]

theorem redactForest_of_not_holds :
    (forest : List Node) → forestHoldsSpoiler forest = false → redactForest forest = forest
  | [], _ => rfl
  | node :: rest, h => by
    rw [forestHoldsSpoiler, Bool.or_eq_false_iff] at h
    rw [redactForest, redact_of_not_holds node h.1, redactForest_of_not_holds rest h.2]

end

mutual

theorem holdsSpoiler_redact : (node : Node) → holdsSpoiler (redact node) = holdsSpoiler node
  | .text _ => rfl
  | .comment _ => rfl
  | .doctype _ => rfl
  | .element _ localName attrs children => by
    rw [redact, holdsSpoiler, holdsSpoiler]
    cases hs : isSpoilerSpan localName attrs with
    | true => rfl
    | false => rw [if_neg Bool.false_ne_true, forestHoldsSpoiler_redact children]

theorem forestHoldsSpoiler_redact : (forest : List Node) →
    forestHoldsSpoiler (redactForest forest) = forestHoldsSpoiler forest
  | [] => rfl
  | node :: rest => by
    rw [redactForest, forestHoldsSpoiler, forestHoldsSpoiler, holdsSpoiler_redact node,
      forestHoldsSpoiler_redact rest]

end

mutual

theorem revealsSpoiler_redact : (node : Node) → revealsSpoiler (redact node) = revealsSpoiler node
  | .text _ => rfl
  | .comment _ => rfl
  | .doctype _ => rfl
  | .element _ localName attrs children => by
    rw [redact, revealsSpoiler, revealsSpoiler]
    cases hs : isSpoilerSpan localName attrs with
    | true => rw [Bool.or_true, if_pos rfl, if_pos rfl]
    | false =>
      rw [if_neg Bool.false_ne_true, forestHoldsSpoiler_redact children, forestRevealsSpoiler_redact children]

theorem forestRevealsSpoiler_redact : (forest : List Node) →
    forestRevealsSpoiler (redactForest forest) = forestRevealsSpoiler forest
  | [] => rfl
  | node :: rest => by
    rw [redactForest, forestRevealsSpoiler, forestRevealsSpoiler, revealsSpoiler_redact node,
      forestRevealsSpoiler_redact rest]

end

theorem nextIndex_redact (index : Nat) (node : Node) : nextIndex index (redact node) = nextIndex index node := by
  cases node <;> rfl

mutual

theorem plainTextFor_redact : (node : Node) → revealsSpoiler node = false → ∀ lists index,
    plainTextFor lists index (redact node) = plainTextFor lists index node
  | .text _, _, _, _ => rfl
  | .comment _, _, _, _ => rfl
  | .doctype _, _, _, _ => rfl
  | .element _ localName attrs children, h, lists, index => by
    rw [redact, plainTextFor, plainTextFor]
    rw [revealsSpoiler] at h
    by_cases hsilent : silentNames.contains localName = true
    · exact reduceNode_silent hsilent ..
    · by_cases hs : isSpoilerSpan localName attrs = true
      · rw [hs, reduceNode_spoiler hs, reduceNode_spoiler hs]
      · rw [if_neg (by simp only [Bool.or_eq_true, not_or]; exact ⟨hsilent, hs⟩)] at h
        rw [if_neg hs]
        by_cases ht : localName = "text"
        · rw [if_pos ht] at h
          rw [redactForest_of_not_holds children h]
        · rw [if_neg ht] at h
          rw [plainTextsFor_redact children h, reduceNode_content ht]

theorem plainTextsFor_redact : (forest : List Node) → forestRevealsSpoiler forest = false → ∀ lists index,
    plainTextsFor lists index (redactForest forest) = plainTextsFor lists index forest
  | [], _, _, _ => rfl
  | node :: rest, h, lists, index => by
    rw [forestRevealsSpoiler, Bool.or_eq_false_iff] at h
    rw [redactForest, plainTextsFor, plainTextsFor, plainTextFor_redact node h.1, nextIndex_redact,
      plainTextsFor_redact rest h.2]

end

/-! ## 7. Under "text" it reveals them -/

mutual

/-- A tree whose spoiler spans hold `n` times the letter x. -/
def fill (n : Nat) : Node → Node
  | .text text => .text text
  | .comment text => .comment text
  | .doctype name => .doctype name
  | .element ns localName attrs children =>
    .element ns localName attrs
      (if isSpoilerSpan localName attrs then [.text (List.replicate n 'x')] else fillForest n children)

def fillForest (n : Nat) : List Node → List Node
  | [] => []
  | node :: rest => fill n node :: fillForest n rest

end

mutual

theorem redact_fill (n : Nat) : (node : Node) → redact (fill n node) = redact node
  | .text _ => rfl
  | .comment _ => rfl
  | .doctype _ => rfl
  | .element _ localName attrs children => by
    rw [fill, redact, redact]
    by_cases hs : isSpoilerSpan localName attrs = true
    · rw [if_pos hs, if_pos hs]
    · rw [if_neg hs, if_neg hs, if_neg hs, redactForest_fill n children]

theorem redactForest_fill (n : Nat) : (forest : List Node) → redactForest (fillForest n forest) = redactForest forest
  | [] => rfl
  | node :: rest => by
    rw [fillForest, redactForest, redactForest, redact_fill n node, redactForest_fill n rest]

end

theorem count_chompReversed (s : Text) : (chompReversed s).count 'x' = s.count 'x' := by
  fun_induction chompReversed s with
  | case1 rest ih => simpa using ih
  | case2 rest _ ih => simpa using ih
  | case3 => rfl

theorem count_chompNewlines (s : Text) : (chompNewlines s).count 'x' = s.count 'x' := by
  rw [chompNewlines, List.count_reverse, count_chompReversed, List.count_reverse]

theorem count_insertAfterLast {c : Char} (hc : c ≠ 'x') (s : Text) :
    (insertAfterLast c s).count 'x' = s.count 'x' := by
  unfold insertAfterLast
  split
  next => rfl
  next =>
    have happ : s.rdropWhile isSpace ++ s.rtakeWhile isSpace = s := by
      rw [List.rdropWhile, List.rtakeWhile, ← List.reverse_append, List.takeWhile_append_dropWhile,
        List.reverse_reverse]
    rw [List.count_append, List.count_cons_of_ne hc, ← List.count_append, happ]

theorem count_insertBeforeFirst {c : Char} (hc : c ≠ 'x') (s : Text) :
    (insertBeforeFirst c s).count 'x' = s.count 'x' := by
  unfold insertBeforeFirst
  split
  next => rfl
  next => rw [List.count_append, List.count_cons_of_ne hc, ← List.count_append, List.takeWhile_append_dropWhile]

theorem count_of_isBlank {s : Text} (h : isBlank s = true) : s.count 'x' = 0 := by
  rw [List.count_eq_zero]
  intro hx
  exact absurd (List.all_eq_true.mp h 'x' hx) (by decide)

theorem count_plainTextForBlock (values : Text) : (plainTextForBlock values).count 'x' = values.count 'x' := by
  rw [plainTextForBlock, List.count_append, count_chompNewlines]
  rfl

/-- A node's text keeps its children's letters. -/
theorem le_count_reduceNode {name : String} {n : Nat} {values : Text} (_ : 0 < n)
    (hsilent : silentNames.contains name ≠ true) (ht : name ≠ "text") (hv : n ≤ values.count 'x') (lists : Lists)
    (index : Nat) (content : Text) : n ≤ (reduceNode name false lists index values content).count 'x' := by
  unfold reduceNode
  split
  case h_1 | h_2 | h_3 | h_8 => exact absurd (by decide) hsilent
  case h_4 | h_5 => rwa [count_plainTextForBlock]
  case h_6 | h_7 =>
    split
    · rwa [count_plainTextForBlock]
    · rwa [List.count_cons_of_ne (by decide), count_plainTextForBlock]
  case h_9 => exact absurd rfl ht
  case h_10 => rwa [List.count_append, count_chompNewlines]
  case h_11 => rwa [List.cons_append, List.count_cons_of_ne (by decide), List.count_append, count_chompNewlines]
  case h_12 =>
    dsimp only
    split
    next hblank =>
      have hzero := count_of_isBlank hblank
      rw [count_plainTextForBlock] at hzero
      omega
    next =>
      rwa [count_insertBeforeFirst (by decide), count_insertAfterLast (by decide), count_plainTextForBlock]
  case h_13 =>
    rw [List.count_append, List.count_append, List.count_cons_of_ne (by decide), count_chompNewlines]
    omega
  case h_14 => exact hv

mutual

theorem le_count_textOf {n : Nat} : (node : Node) → holdsSpoiler node = true → n ≤ (textOf (fill n node)).count 'x'
  | .text _, h => by cases h
  | .comment _, h => by cases h
  | .doctype _, h => by cases h
  | .element _ localName attrs children, h => by
    rw [holdsSpoiler, Bool.or_eq_true] at h
    rw [fill, textOf]
    by_cases hs : isSpoilerSpan localName attrs = true
    · rw [if_pos hs, textOfForest, textOfForest, textOf, List.append_nil, List.count_replicate_self]
    · rw [if_neg hs]
      exact le_count_textOfForest children (h.resolve_left hs)

theorem le_count_textOfForest {n : Nat} :
    (forest : List Node) → forestHoldsSpoiler forest = true → n ≤ (textOfForest (fillForest n forest)).count 'x'
  | [], h => by cases h
  | node :: rest, h => by
    rw [forestHoldsSpoiler, Bool.or_eq_true] at h
    rw [fillForest, textOfForest, List.count_append]
    rcases h with h | h
    · have := @le_count_textOf n node h
      omega
    · have := @le_count_textOfForest n rest h
      omega

end

mutual

theorem le_count_plainTextFor {n : Nat} (hn : 0 < n) : (node : Node) → revealsSpoiler node = true →
    ∀ lists index, n ≤ (plainTextFor lists index (fill n node)).count 'x'
  | .text _, h, _, _ => by cases h
  | .comment _, h, _, _ => by cases h
  | .doctype _, h, _, _ => by cases h
  | .element _ localName attrs children, h, lists, index => by
    rw [revealsSpoiler] at h
    split at h
    next => cases h
    next hnot =>
      simp only [Bool.or_eq_true, not_or] at hnot
      obtain ⟨hsilent, hs⟩ := hnot
      rw [fill, plainTextFor, if_neg hs, Bool.eq_false_iff.mpr hs]
      by_cases ht : localName = "text"
      · subst ht
        show n ≤ (chompNewlines _).count 'x'
        rw [count_chompNewlines]
        exact le_count_textOfForest children h
      · rw [if_neg ht] at h
        exact le_count_reduceNode hn hsilent ht (le_count_plainTextsFor hn children h _ _) ..

theorem le_count_plainTextsFor {n : Nat} (hn : 0 < n) : (forest : List Node) → forestRevealsSpoiler forest = true →
    ∀ lists index, n ≤ (plainTextsFor lists index (fillForest n forest)).count 'x'
  | [], h, _, _ => by cases h
  | node :: rest, h, lists, index => by
    rw [forestRevealsSpoiler, Bool.or_eq_true] at h
    rw [fillForest, plainTextsFor, List.count_append]
    rcases h with h | h
    · have := le_count_plainTextFor hn node h lists index
      omega
    · have := le_count_plainTextsFor hn rest h lists (nextIndex index (fill n node))
      omega

end

/-- **The reduction reads nothing a spoiler holds, just where no shown element named "text" holds a
    spoiler span.** -/
theorem nodeToPlainText_iff (root : List Node) :
    (∀ root', redactForest root' = redactForest root → nodeToPlainText root' = nodeToPlainText root) ↔
      forestRevealsSpoiler root = false := by
  constructor
  · intro hall
    rw [Bool.eq_false_iff]
    intro hreveals
    -- more letters behind the spoilers than the text has
    have hcount := le_count_plainTextsFor (n := (nodeToPlainText root).count 'x' + 1) (Nat.succ_pos _) root hreveals [] 0
    have hsame := congrArg (List.count 'x')
      (hall (fillForest ((nodeToPlainText root).count 'x' + 1) root) (redactForest_fill _ root))
    rw [nodeToPlainText, count_chompNewlines] at hsame
    omega
  · intro hreveals root' hsame
    have hreveals' : forestRevealsSpoiler root' = false := by
      rw [← forestRevealsSpoiler_redact, hsame, forestRevealsSpoiler_redact]
      exact hreveals
    rw [nodeToPlainText, nodeToPlainText, ← plainTextsFor_redact root' hreveals', hsame,
      plainTextsFor_redact root hreveals]

end Richtext

end Smartfire
