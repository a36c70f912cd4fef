/-
  File:      Smartfire/Richtext/Spoilers.lean
  Subject:   Derived text never reveals a spoiler, and where it does.

  The inline renderer writes delimiters around a spoiler span. The block renderer doesn't test for one,
  and code, and a body that renders blank, are written by their text content.

  * `walk` -- how deep in spoilers a reader is at the end of some Markdown, or none where text under a
    spoiler shows outside;
  * `Bares` -- what the renderer's pieces have in common: they leave the depth, and show such text or not;
  * `blocksExpose` -- a body's text under a spoiler that is written without delimiters;
  * **`hides_of_unexposed`** -- derived text reveals nothing but what is exposed so.
-/
import Smartfire.Richtext.LegacyMarkdown

namespace Smartfire

namespace Richtext

/-! ## 1. Depth -/

/-- The depth behind some Markdown read from depth `d`; none where a character that counts, from under a
    spoiler, stands outside. -/
def walk (p : Char → Bool) : Nat → Markdown → Option Nat
  | d, [] => some d
  | d, .text hidden c :: m => if hidden && p c && d = 0 then none else walk p d m
  | d, .opens :: m => walk p (d + 1) m
  | 0, .closes :: _ => none
  | d + 1, .closes :: m => walk p d m
  | d, .written _ :: m => walk p d m

/-- Markdown that leaves the depth, and at depth 0 shows text that counts just if `b`. -/
def Bares (p : Char → Bool) (b : Bool) (m : Markdown) : Prop :=
  ∀ d, walk p d m = if b && d = 0 then none else some d

section Pieces

variable {p : Char → Bool} {b b' : Bool} {m m' : Markdown} {d e : Nat}

theorem walk_append (d : Nat) (m m' : Markdown) : walk p d (m ++ m') = (walk p d m).bind (walk p · m') := by
  fun_induction walk p d m with
  | case1 => rfl
  | case2 d hidden c m h => rw [List.cons_append, walk, if_pos h]; rfl
  | case3 d hidden c m h ih => rw [List.cons_append, walk, if_neg h, ih]
  | case4 d m ih => exact ih
  | case5 => rfl
  | case6 d m ih => exact ih
  | case7 d c m ih => rw [List.cons_append, walk, ih]

theorem bares_nil : Bares p false [] := fun _ => rfl

theorem bares_append (h : Bares p b m) (h' : Bares p b' m') : Bares p (b || b') (m ++ m') := by
  intro d
  rw [walk_append, h d]
  by_cases hb : (b && (d = 0 : Bool)) = true
  · have hd := (Bool.and_eq_true _ _).mp hb
    rw [if_pos hb, if_pos (by rw [hd.1]; exact hd.2)]
    rfl
  · rw [if_neg hb, Option.bind_some, h' d]
    cases b with
    | false => rfl
    | true =>
      have hd : (d = 0 : Bool) = false := by simpa using hb
      rw [hd, Bool.and_false, Bool.and_false]

theorem walk_lit (s : Text) (d : Nat) : walk p d (lit s) = some d := by
  induction s with
  | nil => rfl
  | cons c s ih => exact ih

theorem bares_lit (s : Text) : Bares p false (lit s) := walk_lit s

theorem bares_text (hidden : Bool) (c : Char) : Bares p (hidden && p c) [.text hidden c] := fun _ => rfl

theorem bares_shown (hidden : Bool) (s : Text) : Bares p (hidden && s.any p) (shown hidden s) := by
  induction s with
  | nil => rw [List.any_nil, Bool.and_false]; exact bares_nil
  | cons c s ih =>
    rw [List.any_cons, Bool.and_or_distrib_left]
    exact bares_append (bares_text hidden c) ih

theorem bares_escapedText (hidden : Bool) (s : Text) : Bares p (hidden && s.any p) (escapedText hidden s) := by
  induction s with
  | nil => rw [List.any_nil, Bool.and_false]; exact bares_nil
  | cons c s ih =>
    rw [List.any_cons, Bool.and_or_distrib_left]
    refine bares_append ?_ ih
    dsimp only
    split
    · exact bares_text hidden c
    · exact bares_text hidden c

/-! ## 2. What the string operations keep -/

/-- Characters that no trimming takes away. -/
def Solid (p : Char → Bool) : Prop := ∀ c, p c = true → isCharWhitespace c = false ∧ c ≠ '\x00'

theorem isCharWhitespace_of_isSpace {c : Char} (h : isSpace c = true) : isCharWhitespace c = true := by
  simp only [isSpace, Bool.or_eq_true, decide_eq_true_eq] at h
  rcases h with ((((rfl | rfl) | rfl) | rfl) | rfl) | rfl <;> decide

theorem not_of_isSpace (hp : Solid p) {c : Char} (h : isSpace c = true) : p c = false := by
  rw [Bool.eq_false_iff]
  intro hc
  have hwhite := isCharWhitespace_of_isSpace h
  rw [(hp c hc).1] at hwhite
  cases hwhite

theorem not_of_isStripWhitespace (hp : Solid p) {c : Char} (h : isStripWhitespace c = true) : p c = false := by
  rw [Bool.eq_false_iff]
  intro hc
  rcases (Bool.or_eq_true _ _).mp h with h | h
  · exact (hp c hc).2 (of_decide_eq_true h)
  · rw [not_of_isSpace hp h] at hc
    cases hc

/-- What is trimmed holds no delimiter. -/
theorem walk_trimmed {q : Char → Bool} (hbar : q '|' = false) (hm : ∀ mark ∈ m, q mark.char = true) (d : Nat) :
    walk p d m = some d ∨ walk p d m = none ∧ ∃ c, q c = true ∧ p c = true := by
  induction m with
  | nil => exact .inl rfl
  | cons mark m ih =>
    have hmark := hm mark List.mem_cons_self
    have ih := ih fun mark hmem => hm mark (List.mem_cons_of_mem _ hmem)
    cases mark with
    | text hidden c =>
      rw [walk]
      split
      next hc => exact .inr ⟨rfl, c, hmark, by simp at hc; exact hc.1.2⟩
      next => exact ih
    | opens => exact absurd (hbar.symm.trans hmark) Bool.false_ne_true
    | closes => exact absurd (hbar.symm.trans hmark) Bool.false_ne_true
    | written c => exact ih

/-- Trimming keeps what is bare, where no character that counts is trimmed. -/
theorem bares_of_trim {q : Char → Bool} {first last : Markdown} (hbar : q '|' = false)
    (hfirst : ∀ mark ∈ first, q mark.char = true) (hlast : ∀ mark ∈ last, q mark.char = true)
    (hq : b = true → ∀ c, q c = true → p c = false) (h : Bares p b (first ++ (m ++ last))) : Bares p b m := by
  intro d
  have hd := h d
  rw [walk_append] at hd
  cases b with
  | false =>
    rcases @walk_trimmed p first q hbar hfirst d with hf | ⟨hf, _⟩
    · rw [hf, Option.bind_some, walk_append] at hd
      obtain ⟨e, he, hl⟩ := Option.bind_eq_some_iff.mp hd
      rcases @walk_trimmed p last q hbar hlast e with hl' | ⟨hl', _⟩
      · rw [he, ← hl', hl]
        rfl
      · rw [hl'] at hl
        cases hl
    · rw [hf] at hd
      cases hd
  | true =>
    have hpass : ∀ {l : Markdown}, (∀ mark ∈ l, q mark.char = true) → ∀ e, walk p e l = some e := by
      intro l hl e
      rcases @walk_trimmed p l q hbar hl e with hs | ⟨_, c, hqc, hpc⟩
      · exact hs
      · rw [hq rfl c hqc] at hpc
        cases hpc
    rw [hpass hfirst, Option.bind_some, walk_append] at hd
    rw [← hd]
    cases walk p d m with
    | none => rfl
    | some e => exact (hpass hlast e).symm

theorem bares_rdropWhile {q : Char → Bool} (hbar : q '|' = false) (hq : b = true → ∀ c, q c = true → p c = false)
    (h : Bares p b m) : Bares p b (m.rdropWhile fun mark => q mark.char) := by
  have happ : m.rdropWhile (fun mark => q mark.char) ++ m.rtakeWhile (fun mark => q mark.char) = m := by
    rw [List.rdropWhile, List.rtakeWhile, ← List.reverse_append, List.takeWhile_append_dropWhile,
      List.reverse_reverse]
  refine @bares_of_trim p b _ q [] (m.rtakeWhile fun mark => q mark.char) hbar nofun
    (fun _ hmem => List.mem_rtakeWhile_imp (p := fun mark : Mark => q mark.char) hmem) hq ?_
  rw [List.nil_append, happ]
  exact h

theorem bares_dropWhile {q : Char → Bool} (hbar : q '|' = false) (hq : b = true → ∀ c, q c = true → p c = false)
    (h : Bares p b m) : Bares p b (m.dropWhile fun mark => q mark.char) := by
  refine @bares_of_trim p b _ q (m.takeWhile fun mark => q mark.char) [] hbar
    (fun _ hmem => List.mem_takeWhile_imp (p := fun mark : Mark => q mark.char) hmem) nofun hq ?_
  rw [List.append_nil, List.takeWhile_append_dropWhile]
  exact h

theorem bares_strip (hp : b = true → Solid p) (h : Bares p b m) : Bares p b (strip m) := by
  have hq : b = true → ∀ c, isStripWhitespace c = true → p c = false :=
    fun hb _ hc => not_of_isStripWhitespace (hp hb) hc
  exact bares_rdropWhile (by decide) hq (bares_dropWhile (by decide) hq h)

/-- Blank Markdown bares nothing solid. -/
theorem bares_blank (hp : b = true → Solid p) (hblank : blank m = true) (h : Bares p b m) : b = false := by
  cases b with
  | false => rfl
  | true =>
    rcases @walk_trimmed p m isCharWhitespace (by decide) (List.all_eq_true.mp hblank) 0 with hs | ⟨_, c, hc, hpc⟩
    · have := (h 0).symm.trans hs
      cases this
    · rw [(hp rfl c hpc).1] at hc
      cases hc

/-- Several pieces, and whether one of them bares. -/
inductive BaresAll (p : Char → Bool) : Bool → List Markdown → Prop
  | nil : BaresAll p false []
  | cons {b b' : Bool} {m : Markdown} {ms : List Markdown} (h : Bares p b m) (hs : BaresAll p b' ms) :
      BaresAll p (b || b') (m :: ms)

variable {ms : List Markdown}

theorem bares_join (sep : Text) (h : BaresAll p b ms) : Bares p b (join sep ms) := by
  unfold join
  induction h with
  | nil => exact bares_nil
  | @cons b b' m ms h hs ih =>
    cases hs with
    | nil =>
      rw [List.intercalate_singleton, Bool.or_false]
      exact h
    | cons h' hs' =>
      rw [List.intercalate_cons_cons]
      have hrest := bares_append (bares_lit sep) ih
      rw [Bool.false_or] at hrest
      rw [List.append_assoc]
      exact bares_append h hrest

theorem baresAll_filter (hp : b = true → Solid p) (h : BaresAll p b ms) : BaresAll p b (ms.filter (! blank ·)) := by
  induction h with
  | nil => exact .nil
  | @cons b b' m ms h hs ih =>
    have ih := ih fun hb' => hp (by rw [hb', Bool.or_true])
    cases hblank : blank m with
    | true =>
      have hb := bares_blank (fun hb => hp (by rw [hb, Bool.true_or])) hblank h
      rw [List.filter_cons_of_neg (by simp [hblank]), hb, Bool.false_or]
      exact ih
    | false =>
      rw [List.filter_cons_of_pos (by simp [hblank])]
      exact .cons h ih

theorem flatten_splitInclusive (m : Markdown) : (splitInclusive m).flatten = m := by
  induction m with
  | nil => rfl
  | cons mark m ih =>
    rw [splitInclusive]
    split
    next => rw [List.flatten_cons, ih]; rfl
    next =>
      split
      next hs =>
        rw [hs] at ih
        rw [← ih]
        rfl
      next line lines hs =>
        rw [hs] at ih
        rw [← ih]
        rfl

theorem walk_lines (start : Text) (lines : List Markdown) (d : Nat) :
    walk p d (lines.flatMap fun line => lit start ++ line) = walk p d lines.flatten := by
  induction lines generalizing d with
  | nil => rfl
  | cons line lines ih =>
    rw [List.flatMap_cons, List.flatten_cons, List.append_assoc, walk_append, walk_lit, Option.bind_some,
      walk_append, walk_append]
    exact congrArg _ (funext fun e => ih e)

theorem bares_prefixLines (start : Text) (h : Bares p b m) : Bares p b (prefixLines start m) := by
  intro d
  rw [prefixLines, walk_lines, flatten_splitInclusive]
  exact h d

theorem bares_joinBlocks (hp : b = true → Solid p) (h : BaresAll p b ms) : Bares p b (joinBlocks ms) :=
  bares_strip hp (bares_join _ (baresAll_filter hp h))

theorem bares_lit_append (s : Text) (h : Bares p b m) : Bares p b (lit s ++ m) := by
  have := bares_append (bares_lit s) h
  rwa [Bool.false_or] at this

theorem bares_append_lit (s : Text) (h : Bares p b m) : Bares p b (m ++ lit s) := by
  have := bares_append h (bares_lit s)
  rwa [Bool.or_false] at this

end Pieces

/-! ## 3. What a body exposes -/

mutual

/-- A character that counts stands in a text node under a spoiler. -/
def contentExposes (p : Char → Bool) (hidden : Bool) : Node → Bool
  | .text text => hidden && text.any p
  | .comment _ => false
  | .doctype _ => false
  | .element _ localName attrs children => contentsExpose p (hiddenBelow hidden localName attrs) children

def contentsExpose (p : Char → Bool) (hidden : Bool) : List Node → Bool
  | [] => false
  | node :: rest => contentExposes p hidden node || contentsExpose p hidden rest

end

def codeExposes (p : Char → Bool) (hidden : Bool) (attrs : Attrs) (children : List Node) : Bool :=
  let code := (findCodes hidden children).getD ⟨hidden, attrs, children⟩
  contentsExpose p code.hidden code.children

mutual

/-- Written inline, a node shows such a character without delimiters: only in code. -/
def inlineExposes (p : Char → Bool) (hidden : Bool) : Node → Bool
  | .text text => hidden && text.any p
  | .comment _ => false
  | .doctype _ => false
  | .element _ localName attrs children =>
    if isSpoilerSpan localName attrs then false
    else if localName = "code" then contentsExpose p hidden children
    else if localName = "br" then false
    else if localName = attachmentTag then false
    else if isList localName then itemsExpose p hidden children
    else if localName = "pre" then codeExposes p hidden attrs children
    else inlinesExpose p hidden children

def inlinesExpose (p : Char → Bool) (hidden : Bool) : List Node → Bool
  | [] => false
  | node :: rest => inlineExposes p hidden node || inlinesExpose p hidden rest

def itemsExpose (p : Char → Bool) (hidden : Bool) : List Node → Bool
  | [] => false
  | .element _ localName _ children :: rest =>
    (localName = "li" && inlinesExpose p hidden children) || itemsExpose p hidden rest
  | _ :: rest => itemsExpose p hidden rest

end

mutual

/-- Written as a block. A spoiler that is a block itself has no delimiters. -/
def blockExposes (p : Char → Bool) : Node → Bool
  | .text _ => false
  | .comment _ => false
  | .doctype _ => false
  | .element _ localName attrs children =>
    if localName = "blockquote" then blocksExpose p children
    else if isList localName then itemsExpose p false children
    else if localName = "pre" then codeExposes p false attrs children
    else if localName = "hr" then false
    else if localName = "br" then false
    else if localName = attachmentTag then false
    else inlinesExpose p (isSpoilerSpan localName attrs) children

def blocksExpose (p : Char → Bool) : List Node → Bool
  | [] => false
  | node :: rest => blockExposes p node || blocksExpose p rest

end

/-! ## 4. The renderer bares what is exposed -/

section Renderer

variable {p : Char → Bool} (resolve : Attrs → Attached)

mutual

theorem bares_contentOf (hidden : Bool) : (node : Node) → Bares p (contentExposes p hidden node) (contentOf hidden node)
  | .text text => bares_shown hidden text
  | .comment _ => bares_nil
  | .doctype _ => bares_nil
  | .element _ localName attrs children => bares_contentsOf (hiddenBelow hidden localName attrs) children

theorem bares_contentsOf (hidden : Bool) :
    (forest : List Node) → Bares p (contentsExpose p hidden forest) (contentsOf hidden forest)
  | [] => bares_nil
  | node :: rest => bares_append (bares_contentOf hidden node) (bares_contentsOf hidden rest)

end

theorem bares_codeBlock {hidden : Bool} {attrs : Attrs} {children : List Node}
    (hp : codeExposes p hidden attrs children = true → Solid p) :
    Bares p (codeExposes p hidden attrs children) (codeBlock hidden attrs children) := by
  unfold codeBlock
  unfold codeExposes at hp ⊢
  dsimp only at hp ⊢
  generalize (findCodes hidden children).getD ⟨hidden, attrs, children⟩ = code at hp ⊢
  have htext := bares_rdropWhile (q := isSpace) (by decide) (fun hb _ hc => not_of_isSpace (hp hb) hc)
    (bares_contentsOf code.hidden code.children)
  rw [codeDelimiter]
  refine bares_append_lit _ (bares_append_lit _ ?_)
  rw [List.append_assoc, List.append_assoc]
  exact bares_lit_append _ (bares_lit_append _ (bares_lit_append _ htext))

theorem bares_inlineMark (localName : String) (attrs : Attrs) {b : Bool} {content : Markdown} (h : Bares p b content) :
    Bares p b (inlineMark localName attrs content) := by
  have hwrap : ∀ first last : Text, Bares p b (lit first ++ content ++ lit last) :=
    fun first last => bares_append_lit last (bares_lit_append first h)
  unfold inlineMark
  split
  case h_8 =>
    split
    · exact hwrap _ _
    · exact h
  case h_9 => exact h
  all_goals exact hwrap _ _

theorem baresAll_prefixLines (start : Text) {b : Bool} {ms : List Markdown} (h : BaresAll p b ms) :
    BaresAll p b (ms.map (prefixLines start)) := by
  induction h with
  | nil => exact .nil
  | cons hm _ ih => exact .cons (bares_prefixLines start hm) ih

theorem bares_listItem (ordered : Bool) (index : Nat) {b b' : Bool} {text : Markdown} {nested : List Markdown}
    (hp : (b || b') = true → Solid p) (h : Bares p b text) (hn : BaresAll p b' nested) :
    Bares p (b || b') (listItem ordered index text nested) := by
  have hstrip := bares_strip (fun hb => hp (by rw [hb, Bool.true_or])) h
  exact bares_join _ (baresAll_filter hp (.cons (bares_lit_append _ hstrip) (baresAll_prefixLines _ hn)))

theorem inlineExposes_list {ns : Namespace} {localName : String} (hlist : isList localName = true) (hidden : Bool)
    (attrs : Attrs) (children : List Node) :
    inlineExposes p hidden (.element ns localName attrs children) = itemsExpose p hidden children := by
  rw [inlineExposes]
  rcases (Bool.or_eq_true _ _).mp hlist with hname | hname <;> cases of_decide_eq_true hname <;> rfl

/-- Where an `or` of two is a reason, so is each. -/
theorem of_or {a b : Bool} {P : Prop} (h : (a || b) = true → P) : (a = true → P) ∧ (b = true → P) :=
  ⟨fun ha => h (by rw [ha, Bool.true_or]), fun hb => h (by rw [hb, Bool.or_true])⟩

/-- No character that counts, nothing exposed. -/
def nothing (_ : Char) : Bool := false

theorem any_nothing (s : Text) : s.any nothing = false := List.any_eq_false.mpr fun _ _ => Bool.false_ne_true

mutual

theorem contentExposes_nothing (hidden : Bool) : (node : Node) → contentExposes nothing hidden node = false
  | .text text => by
    rw [contentExposes, any_nothing, Bool.and_false]
  | .comment _ => rfl
  | .doctype _ => rfl
  | .element _ localName attrs children => contentsExpose_nothing (hiddenBelow hidden localName attrs) children

theorem contentsExpose_nothing (hidden : Bool) : (forest : List Node) → contentsExpose nothing hidden forest = false
  | [] => rfl
  | node :: rest => by
    rw [contentsExpose, contentExposes_nothing hidden node, contentsExpose_nothing hidden rest]
    rfl

end

mutual

theorem inlineExposes_nothing (hidden : Bool) : (node : Node) → inlineExposes nothing hidden node = false
  | .text text => by
    rw [inlineExposes, any_nothing, Bool.and_false]
  | .comment _ => rfl
  | .doctype _ => rfl
  | .element _ localName attrs children => by
    rw [inlineExposes, contentsExpose_nothing, itemsExpose_nothing hidden children, codeExposes,
      contentsExpose_nothing, inlinesExpose_nothing hidden children]
    simp only [ite_self]

theorem inlinesExpose_nothing (hidden : Bool) : (forest : List Node) → inlinesExpose nothing hidden forest = false
  | [] => rfl
  | node :: rest => by
    rw [inlinesExpose, inlineExposes_nothing hidden node, inlinesExpose_nothing hidden rest]
    rfl

theorem itemsExpose_nothing (hidden : Bool) : (forest : List Node) → itemsExpose nothing hidden forest = false
  | [] => rfl
  | .text _ :: rest => itemsExpose_nothing hidden rest
  | .comment _ :: rest => itemsExpose_nothing hidden rest
  | .doctype _ :: rest => itemsExpose_nothing hidden rest
  | .element _ _ _ children :: rest => by
    rw [itemsExpose, inlinesExpose_nothing hidden children, itemsExpose_nothing hidden rest, Bool.and_false]
    rfl

end

/-- One level down, nothing shows outside. -/
theorem walk_deeper {m : Markdown} {d e : Nat} (h : walk nothing d m = some e) : walk p (d + 1) m = some (e + 1) := by
  fun_induction walk nothing d m generalizing e with
  | case1 => cases h; rfl
  | case2 => cases h
  | case3 d hidden c m _ ih =>
    rw [walk, if_neg (by simp)]
    exact ih h
  | case4 d m ih => exact ih h
  | case5 => cases h
  | case6 d m ih => exact ih h
  | case7 d c m ih => exact ih h

/-- **Between its delimiters a spoiler shows nothing outside.** -/
theorem bares_spoilerMarks {m : Markdown} (h : Bares nothing false m) : Bares p false (spoilerMarks m) := by
  intro d
  show walk p (d + 1) (m ++ [.closes, .written '|']) = some d
  rw [walk_append, walk_deeper (h d)]
  rfl

theorem solid_nothing : Solid nothing := fun _ h => Bool.noConfusion h

mutual

theorem bares_inlineNode (p : Char → Bool) (hidden : Bool) : (node : Node) → (inlineExposes p hidden node = true → Solid p) →
    Bares p (inlineExposes p hidden node) (inlineNode resolve hidden node)
  | .text text, _ => bares_escapedText hidden text
  | .comment _, _ => bares_nil
  | .doctype _, _ => bares_nil
  | .element _ localName attrs children, hp => by
    rw [inlineExposes] at hp ⊢
    rw [inlineNode]
    split
    next hs =>
      have hbelow := bares_inlineNodes nothing true children fun _ => solid_nothing
      rw [inlinesExpose_nothing] at hbelow
      exact bares_spoilerMarks hbelow
    next hs =>
      rw [if_neg hs] at hp
      split
      next hc =>
        dsimp only
        rw [codeDelimiter]
        exact bares_append_lit _ (bares_lit_append _ (bares_contentsOf hidden children))
      next hc =>
        rw [if_neg hc] at hp
        split
        next => exact bares_lit _
        next hb =>
          rw [if_neg hb] at hp
          split
          next => exact bares_lit _
          next ha =>
            rw [if_neg ha] at hp
            split
            next hl =>
              rw [if_pos hl] at hp
              exact bares_append_lit _ (bares_lit_append _ (bares_join _ (bares_listItems p hidden _ 0 children hp)))
            next hl =>
              rw [if_neg hl] at hp
              split
              next hpre =>
                rw [if_pos hpre] at hp
                exact bares_append_lit _ (bares_lit_append _ (bares_codeBlock hp))
              next hpre =>
                rw [if_neg hpre] at hp
                exact bares_inlineMark localName attrs (bares_inlineNodes p hidden children hp)

theorem bares_inlineNodes (p : Char → Bool) (hidden : Bool) : (forest : List Node) → (inlinesExpose p hidden forest = true → Solid p) →
    Bares p (inlinesExpose p hidden forest) (inlineNodes resolve hidden forest)
  | [], _ => bares_nil
  | node :: rest, hp =>
    bares_append (bares_inlineNode p hidden node (of_or hp).1) (bares_inlineNodes p hidden rest (of_or hp).2)

theorem bares_listItems (p : Char → Bool) (hidden ordered : Bool) (index : Nat) :
    (forest : List Node) → (itemsExpose p hidden forest = true → Solid p) →
    BaresAll p (itemsExpose p hidden forest) (listItems resolve hidden ordered index forest)
  | [], _ => .nil
  | .text _ :: rest, hp => bares_listItems p hidden ordered index rest hp
  | .comment _ :: rest, hp => bares_listItems p hidden ordered index rest hp
  | .doctype _ :: rest, hp => bares_listItems p hidden ordered index rest hp
  | .element _ localName _ children :: rest, hp => by
    rw [itemsExpose] at hp ⊢
    rw [listItems]
    split
    next hli =>
      rw [hli] at hp ⊢
      obtain ⟨b, b', hb, htext, hnested⟩ := bares_item p hidden children (of_or hp).1
      have hitem := bares_listItem ordered index (fun h => (of_or hp).1 (hb ▸ h)) htext hnested
      rw [hb] at hitem
      exact .cons hitem (bares_listItems p hidden ordered (index + 1) rest (of_or hp).2)
    next hli =>
      have hno : (localName = "li" : Bool) = false := decide_eq_false hli
      rw [hno, Bool.false_and, Bool.false_or] at hp ⊢
      exact bares_listItems p hidden ordered index rest hp

/-- An item's own text and the lists in it bare together what its children expose. -/
theorem bares_item (p : Char → Bool) (hidden : Bool) : (forest : List Node) → (inlinesExpose p hidden forest = true → Solid p) →
    ∃ b b', (b || b') = inlinesExpose p hidden forest ∧ Bares p b (itemNodes resolve hidden forest) ∧
      BaresAll p b' (nestedLists resolve hidden forest)
  | [], _ => ⟨false, false, rfl, bares_nil, .nil⟩
  | .text text :: rest, hp => by
    obtain ⟨b, b', hb, htext, hnested⟩ := bares_item p hidden rest (of_or hp).2
    refine ⟨_, b', ?_, bares_append (bares_inlineNode p hidden (.text text) (of_or hp).1) htext, hnested⟩
    rw [Bool.or_assoc, hb]
    rfl
  | .comment _ :: rest, hp => bares_item p hidden rest (of_or hp).2
  | .doctype _ :: rest, hp => bares_item p hidden rest (of_or hp).2
  | .element ns localName attrs children :: rest, hp => by
    obtain ⟨b, b', hb, htext, hnested⟩ := bares_item p hidden rest (of_or hp).2
    rw [itemNodes, nestedLists]
    by_cases hlist : isList localName = true
    · have hlists := bares_listItems p hidden (localName = "ol") 0 children fun h =>
        (of_or hp).1 ((inlineExposes_list hlist hidden attrs children).trans h)
      refine ⟨b, itemsExpose p hidden children || b', ?_, ?_, ?_⟩
      · rw [Bool.or_left_comm, hb, inlinesExpose, inlineExposes_list hlist]
      · rw [isListNode, if_pos hlist]
        exact htext
      · rw [if_pos hlist]
        exact .cons (bares_join _ hlists) hnested
    · refine ⟨inlineExposes p hidden (.element ns localName attrs children) || b, b', ?_, bares_append ?_ htext, ?_⟩
      · rw [Bool.or_assoc, hb, inlinesExpose]
      · rw [isListNode, if_neg hlist]
        exact bares_inlineNode p hidden (.element ns localName attrs children) (of_or hp).1
      · rw [if_neg hlist]
        exact hnested

end

mutual

theorem bares_block (p : Char → Bool) : (node : Node) → (blockExposes p node = true → Solid p) →
    Bares p (blockExposes p node) (block resolve node)
  | .text text, _ => bares_escapedText false text
  | .comment _, _ => bares_nil
  | .doctype _, _ => bares_nil
  | .element _ localName attrs children, hp => by
    rw [blockExposes] at hp ⊢
    rw [block]
    split
    next hq =>
      rw [if_pos hq] at hp
      exact bares_prefixLines _ (bares_joinBlocks hp (bares_blockTexts p children hp))
    next hq =>
      rw [if_neg hq] at hp
      split
      next hl =>
        rw [if_pos hl] at hp
        exact bares_join _ (bares_listItems resolve p false _ 0 children hp)
      next hl =>
        rw [if_neg hl] at hp
        split
        next hpre =>
          rw [if_pos hpre] at hp
          exact bares_codeBlock hp
        next hpre =>
          rw [if_neg hpre] at hp
          split
          next => exact bares_lit _
          next hhr =>
            rw [if_neg hhr] at hp
            split
            next => exact bares_lit _
            next hbr =>
              rw [if_neg hbr] at hp
              split
              next => exact bares_lit _
              next ha =>
                rw [if_neg ha] at hp
                exact bares_lit_append _ (bares_strip hp (bares_inlineNodes resolve p _ children hp))

theorem bares_blockTexts (p : Char → Bool) : (forest : List Node) → (blocksExpose p forest = true → Solid p) →
    BaresAll p (blocksExpose p forest) (blockTexts resolve forest)
  | [], _ => .nil
  | node :: rest, hp => .cons (bares_block p node (of_or hp).1) (bares_blockTexts p rest (of_or hp).2)

end

/-- What a whole body exposes: in its blocks, or where these come out blank, in its text content. -/
def bodyExposes (p : Char → Bool) (root : List Node) : Bool :=
  if blank (blocks resolve root) then contentsExpose p false root else blocksExpose p root

theorem bares_renderMarkdown (p : Char → Bool) (root : List Node) (hp : bodyExposes resolve p root = true → Solid p) :
    Bares p (bodyExposes resolve p root) (renderMarkdown resolve root) := by
  unfold bodyExposes at hp ⊢
  unfold renderMarkdown
  dsimp only
  split
  next hb =>
    rw [if_pos hb] at hp
    exact bares_strip hp (bares_contentsOf false root)
  next hb =>
    rw [if_neg hb] at hp
    exact bares_joinBlocks hp (bares_blockTexts resolve p root hp)

end Renderer

/-! ## 5. Derived text -/

section Derived

variable {p : Char → Bool} {m : Markdown} {d e : Nat}

/-- The depth counts the delimiters. -/
theorem walk_count (h : walk p d m = some e) : d + m.count .opens = e + m.count .closes := by
  fun_induction walk p d m generalizing e with
  | case1 => cases h; rfl
  | case2 => cases h
  | case3 d hidden c m _ ih => simpa using ih h
  | case4 d m ih =>
    have := ih h
    rw [List.count_cons_self, List.count_cons_of_ne (by decide)]
    omega
  | case5 => cases h
  | case6 d m ih =>
    have := ih h
    rw [List.count_cons_self, List.count_cons_of_ne (by decide)]
    omega
  | case7 d c m ih => simpa using ih h

def anyChar (_ : Char) : Bool := true

theorem concealed_of_walk (h : walk anyChar 0 m = some 0) : Concealed m := by
  rintro before c after rfl
  rw [walk_append] at h
  obtain ⟨d, hbefore, hafter⟩ := Option.bind_eq_some_iff.mp h
  rw [walk] at hafter
  split at hafter
  next => cases hafter
  next hd =>
    have hd : d ≠ 0 := fun h => hd (by rw [h]; rfl)
    have hb := walk_count hbefore
    have ha := walk_count hafter
    omega

/-- Where text shows outside, there is such a character at depth 0. -/
theorem exists_bare (h : walk p d m = none) (hdepth : walk nothing d m = some e) :
    ∃ before c after, m = before ++ .text true c :: after ∧ walk nothing d before = some 0 := by
  fun_induction walk p d m generalizing e with
  | case1 => cases h
  | case2 d hidden c m hc =>
    obtain ⟨⟨rfl, _⟩, hd⟩ : (hidden = true ∧ p c = true) ∧ d = 0 := by simpa using hc
    exact ⟨[], c, m, rfl, congrArg some hd⟩
  | case3 d hidden c m _ ih =>
    obtain ⟨before, c', after, rfl, hb⟩ := ih h (by simpa [walk, nothing] using hdepth)
    exact ⟨.text hidden c :: before, c', after, rfl, by simpa [walk, nothing] using hb⟩
  | case4 d m ih =>
    obtain ⟨before, c, after, rfl, hb⟩ := ih h hdepth
    exact ⟨.opens :: before, c, after, rfl, hb⟩
  | case5 => cases hdepth
  | case6 d m ih =>
    obtain ⟨before, c, after, rfl, hb⟩ := ih h hdepth
    exact ⟨.closes :: before, c, after, rfl, hb⟩
  | case7 d c m ih =>
    obtain ⟨before, c', after, rfl, hb⟩ := ih h hdepth
    exact ⟨.written c :: before, c', after, rfl, hb⟩

theorem not_concealed (h : walk p 0 m = none) (hdepth : walk nothing 0 m = some e) : ¬ Concealed m := by
  intro hc
  obtain ⟨before, c, after, rfl, hb⟩ := exists_bare h hdepth
  have hcount := walk_count hb
  have := (hc before c after rfl).1
  omega

end Derived

mutual

theorem blockExposes_nothing : (node : Node) → blockExposes nothing node = false
  | .text _ => rfl
  | .comment _ => rfl
  | .doctype _ => rfl
  | .element _ localName attrs children => by
    rw [blockExposes, blocksExpose_nothing children, itemsExpose_nothing, codeExposes, contentsExpose_nothing,
      inlinesExpose_nothing]
    simp only [ite_self]

theorem blocksExpose_nothing : (forest : List Node) → blocksExpose nothing forest = false
  | [] => rfl
  | node :: rest => by
    rw [blocksExpose, blockExposes_nothing node, blocksExpose_nothing rest]
    rfl

end

/-- What derived text owes a body: nothing its spoilers hold shows in the plain texts, and the Markdown
    has it between delimiters. -/
structure Hides (known : Text → Bool) (resolve : Attrs → Attached) (root : List Node) : Prop where
  plainNode : ∀ root', redactForest root' = redactForest root → plainNodes known root' = plainNodes known root
  plainText : ∀ root', redactForest root' = redactForest root → nodeToPlainText root' = nodeToPlainText root
  markdown : Concealed (renderMarkdown resolve root)

/-- No shown element named "text" holds a spoiler, and no character that counts, of a text under a
    spoiler, is written without delimiters. -/
def Unexposed (p : Char → Bool) (resolve : Attrs → Attached) (root : List Node) : Prop :=
  forestRevealsSpoiler root = false ∧ bodyExposes resolve p root = false

def isSolid (c : Char) : Bool := !isCharWhitespace c && c ≠ '\x00'

theorem solid_isSolid : Solid isSolid := by
  intro c h
  simpa [isSolid] using h

/-- **Derived text reveals nothing of a body that exposes nothing; of one that exposes more than blanks
    it reveals something.** -/
theorem hides_of_unexposed (known : Text → Bool) (resolve : Attrs → Attached) (root : List Node) :
    (Unexposed anyChar resolve root → Hides known resolve root) ∧
      (Hides known resolve root → Unexposed isSolid resolve root) := by
  constructor
  · rintro ⟨hreveals, hexposes⟩
    refine ⟨fun root' hsame => ?_, (nodeToPlainText_iff root).mpr hreveals, concealed_of_walk ?_⟩
    · rw [← plainNodes_redact known root', hsame, plainNodes_redact]
    · rw [bares_renderMarkdown resolve anyChar root (fun h => absurd (hexposes.symm.trans h) Bool.false_ne_true) 0,
        hexposes]
      rfl
  · intro hides
    refine ⟨(nodeToPlainText_iff root).mp hides.plainText, ?_⟩
    rw [Bool.eq_false_iff]
    intro hexposes
    have hnothing : bodyExposes resolve nothing root = false := by
      rw [bodyExposes, contentsExpose_nothing, blocksExpose_nothing, ite_self]
    have hdepth := bares_renderMarkdown resolve nothing root (fun _ => solid_nothing) 0
    have hbare := bares_renderMarkdown resolve isSolid root (fun _ => solid_isSolid) 0
    rw [hnothing] at hdepth
    rw [hexposes] at hbare
    exact not_concealed hbare hdepth hides.markdown

def spoilerAttrs : Attrs := ⟨[("data-spoiler", [])], by decide⟩

/-- A paragraph with a spoiler in it. -/
def spoilerInline : List Node :=
  [.element .html "p" ⟨[], .nil⟩ [.text "see ".toList, .element .html "span" spoilerAttrs [.text "SECRET".toList]]]

theorem hides_of_unexposed_sample : Unexposed anyChar (fun _ => .unresolved) spoilerInline ∧
    (renderMarkdown (fun _ => .unresolved) spoilerInline).text = "see ||SECRET||".toList ∧
      Hides (fun _ => false) (fun _ => .unresolved) spoilerInline := by
  have h : Unexposed anyChar (fun _ => .unresolved) spoilerInline := by
    unfold Unexposed
    decide +kernel
  exact ⟨h, by decide +kernel, (hides_of_unexposed _ _ _).1 h⟩

/-- A body that is a spoiler itself. -/
def spoilerBlock : List Node := [.element .html "span" spoilerAttrs [.text "SECRET".toList]]

/-- **A spoiler outside a paragraph goes to the editor in the clear.** -/
theorem spoiler_revealed : ¬ ∀ known resolve root, Hides known resolve root := by
  intro hall
  have hmarkdown := (hall (fun _ => false) (fun _ => .unresolved) spoilerBlock).markdown
  have hshown : renderMarkdown (fun _ => .unresolved) spoilerBlock = shown true "SECRET".toList := by decide +kernel
  exact absurd (hmarkdown [] 'S' (shown true "ECRET".toList) hshown).1 (by decide)

end Richtext

end Smartfire
