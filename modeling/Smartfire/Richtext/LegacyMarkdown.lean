/-
  File:      Smartfire/Richtext/LegacyMarkdown.lean
  Subject:   Stored HTML as Markdown to edit (crates/richtext/src/legacy_markdown.rs).

  The Markdown is written with where each character comes from: a text node, under a spoiler span or
  not, a delimiter of a spoiler, or the renderer. Where nodes are filtered first, the filter stands in
  the function that goes through them.

  A fragment holds no doctype.

  * `Mark`, `Markdown` -- characters with their source;
  * `blocks`, `block`, `inlineNode`, `list`, `codeBlock`, `renderMarkdown` -- the renderer;
  * `Concealed` -- what comes from under a spoiler stands between delimiters.
-/
import Smartfire.Richtext.PlainText

namespace Smartfire

namespace Richtext

/-! ## 1. Characters and where they come from -/

inductive Mark where
  /-- Of a text node; `hidden` under a spoiler span. -/
  | text (hidden : Bool) (c : Char)
  /-- The bar that opens a spoiler, its second. -/
  | opens
  /-- The bar that closes one, its first. -/
  | closes
  | written (c : Char)
deriving DecidableEq

def Mark.char : Mark → Char
  | .text _ c => c
  | .opens => '|'
  | .closes => '|'
  | .written c => c

abbrev Markdown := List Mark

/-- The text for the textarea. -/
def Markdown.text (m : Markdown) : Text := m.map Mark.char

def lit (s : Text) : Markdown := s.map .written

def shown (hidden : Bool) (s : Text) : Markdown := s.map (.text hidden)

def spoilerMarks (content : Markdown) : Markdown := .written '|' :: .opens :: content ++ [.closes, .written '|']

/-! ## 2. Strings -/

def isStripWhitespace (c : Char) : Bool := c = '\x00' || isSpace c

def strip (m : Markdown) : Markdown :=
  (m.dropWhile fun mark => isStripWhitespace mark.char).rdropWhile fun mark => isStripWhitespace mark.char

def blank (m : Markdown) : Bool := m.all fun mark => isCharWhitespace mark.char

def join (sep : Text) (parts : List Markdown) : Markdown := (lit sep).intercalate parts

/-- `split_inclusive('\n')` -/
def splitInclusive : Markdown → List Markdown
  | [] => []
  | mark :: rest =>
    if mark.char = '\n' then [mark] :: splitInclusive rest
    else
      match splitInclusive rest with
      | [] => [[mark]]
      | line :: lines => (mark :: line) :: lines

/-- Each line behind a prefix. -/
def prefixLines (start : Text) (m : Markdown) : Markdown :=
  (splitInclusive m).flatMap fun line => lit start ++ line

def escapedText (hidden : Bool) (s : Text) : Markdown :=
  s.flatMap fun c =>
    if c = '\\' || c = '\x60' || c = '*' || c = '_' || c = '[' || c = ']' then [.written '\\', .text hidden c]
    else [.text hidden c]

/-- The longest run of backticks, and one more. -/
def codeDelimiter (m : Markdown) : Markdown :=
  lit (List.replicate (((m.text.splitOnP (· ≠ '\x60')).map List.length).foldl max 0 + 1) '\x60')

/-! ## 3. The renderer -/

/-- What an attachment's attributes resolve to. -/
inductive Attached where
  | user (name : Text)
  | plain (text : Text)
  | content (text : Text)
  | unresolved

def attachmentTag : String := "action-text-attachment"

def attachment (resolve : Attrs → Attached) (attrs : Attrs) : Text :=
  let address := (present (attrs.get "href")).or (present (attrs.get "url"))
  let fallback := (present (attrs.get "filename")).getD "[attachment]".toList
  match resolve attrs with
  | .user name => '@' :: '[' :: name ++ [']']
  | .content text => address.getD text
  | .plain text => address.getD (if isBlank text then fallback else text)
  | .unresolved => address.getD fallback

/-- Under a spoiler span, or in one. -/
def hiddenBelow (hidden : Bool) (localName : String) (attrs : Attrs) : Bool :=
  hidden || isSpoilerSpan localName attrs

mutual

/-- `text_content` -/
def contentOf (hidden : Bool) : Node → Markdown
  | .text text => shown hidden text
  | .comment _ => []
  | .doctype _ => []
  | .element _ localName attrs children => contentsOf (hiddenBelow hidden localName attrs) children

def contentsOf (hidden : Bool) : List Node → Markdown
  | [] => []
  | node :: rest => contentOf hidden node ++ contentsOf hidden rest

end

/-- A code element below a node: is it under a spoiler, its class, its content. -/
structure Code where
  hidden : Bool
  attrs : Attrs
  children : List Node

mutual

/-- The first element named "code", the node itself being the first. -/
def findCode (hidden : Bool) : Node → Option Code
  | .text _ => none
  | .comment _ => none
  | .doctype _ => none
  | .element _ localName attrs children =>
    if localName = "code" then some ⟨hidden, attrs, children⟩
    else findCodes (hiddenBelow hidden localName attrs) children

def findCodes (hidden : Bool) : List Node → Option Code
  | [] => none
  | node :: rest => (findCode hidden node).or (findCodes hidden rest)

end

def language (attrs : Attrs) : Text :=
  ((splitWhitespace ((attrs.get "class").getD [])).findSome? fun c =>
    if "language-".toList.isPrefixOf c then some (c.drop 9) else none).getD []

/-- A "pre" of these attributes and children. -/
def codeBlock (hidden : Bool) (attrs : Attrs) (children : List Node) : Markdown :=
  let code := (findCodes hidden children).getD ⟨hidden, attrs, children⟩
  let text := contentsOf code.hidden code.children
  let delimiter := codeDelimiter text
  delimiter ++ lit (language code.attrs) ++ lit ['\n'] ++ (text.rdropWhile fun mark => isSpace mark.char) ++
    lit ['\n'] ++ delimiter

/-- What stands before a block's own text. -/
def heading (localName : String) : Text :=
  match localName with
  | "h1" => ['#', ' ']
  | "h2" => ['#', '#', ' ']
  | "h3" => ['#', '#', '#', ' ']
  | "h4" => ['#', '#', '#', '#', ' ']
  | "h5" => ['#', '#', '#', '#', '#', ' ']
  | "h6" => ['#', '#', '#', '#', '#', '#', ' ']
  | _ => []

def escapeHref (href : Text) : Text :=
  href.flatMap fun c => if c = '<' || c = '>' then ['\\', c] else [c]

/-- An inline element's Markdown around its content. -/
def inlineMark (localName : String) (attrs : Attrs) (content : Markdown) : Markdown :=
  match localName with
  | "strong" | "b" => lit ['*', '*'] ++ content ++ lit ['*', '*']
  | "em" | "i" => lit ['*'] ++ content ++ lit ['*']
  | "del" | "s" | "strike" => lit ['~', '~'] ++ content ++ lit ['~', '~']
  | "a" =>
    match present (attrs.get "href") with
    | some href => lit ['['] ++ content ++ lit (']' :: '(' :: '<' :: escapeHref href ++ ['>', ')'])
    | none => content
  | _ => content

def itemPrefix (ordered : Bool) (index : Nat) : Text :=
  if ordered then (toString (index + 1)).toList ++ ['.'] else ['-']

/-- A list item from its own text and the lists nested in it. -/
def listItem (ordered : Bool) (index : Nat) (text : Markdown) (nested : List Markdown) : Markdown :=
  join ['\n'] ((((lit (itemPrefix ordered index ++ [' ']) ++ strip text) ::
    nested.map (prefixLines [' ', ' '])).filter (! blank ·)))

def isListNode : Node → Bool
  | .element _ localName _ _ => isList localName
  | _ => false

mutual

def inlineNode (resolve : Attrs → Attached) (hidden : Bool) : Node → Markdown
  | .text text => escapedText hidden text
  | .comment _ => []
  | .doctype _ => []
  | .element _ localName attrs children =>
    if isSpoilerSpan localName attrs then spoilerMarks (inlineNodes resolve true children)
    else if localName = "code" then
      let text := contentsOf hidden children
      codeDelimiter text ++ text ++ codeDelimiter text
    else if localName = "br" then lit ['\n']
    else if localName = attachmentTag then lit (attachment resolve attrs)
    else if isList localName then
      lit ['\n'] ++ join ['\n'] (listItems resolve hidden (localName = "ol") 0 children) ++ lit ['\n']
    else if localName = "pre" then lit ['\n'] ++ codeBlock hidden attrs children ++ lit ['\n']
    else inlineMark localName attrs (inlineNodes resolve hidden children)

/-- `inline_children` -/
def inlineNodes (resolve : Attrs → Attached) (hidden : Bool) : List Node → Markdown
  | [] => []
  | node :: rest => inlineNode resolve hidden node ++ inlineNodes resolve hidden rest

/-- The items of a list: its children named "li". -/
def listItems (resolve : Attrs → Attached) (hidden ordered : Bool) (index : Nat) : List Node → List Markdown
  | [] => []
  | .element _ localName _ children :: rest =>
    if localName = "li" then
      listItem ordered index (itemNodes resolve hidden children) (nestedLists resolve hidden children) ::
        listItems resolve hidden ordered (index + 1) rest
    else listItems resolve hidden ordered index rest
  | _ :: rest => listItems resolve hidden ordered index rest

/-- An item's children that are no lists. -/
def itemNodes (resolve : Attrs → Attached) (hidden : Bool) : List Node → Markdown
  | [] => []
  | node :: rest =>
    (if isListNode node then [] else inlineNode resolve hidden node) ++ itemNodes resolve hidden rest

def nestedLists (resolve : Attrs → Attached) (hidden : Bool) : List Node → List Markdown
  | [] => []
  | .element _ localName _ children :: rest =>
    if isList localName then
      join ['\n'] (listItems resolve hidden (localName = "ol") 0 children) :: nestedLists resolve hidden rest
    else nestedLists resolve hidden rest
  | _ :: rest => nestedLists resolve hidden rest

end

/-- `list` -/
def list (resolve : Attrs → Attached) (hidden : Bool) (localName : String) (children : List Node) : Markdown :=
  join ['\n'] (listItems resolve hidden (localName = "ol") 0 children)

/-- Blank blocks are left out. -/
def joinBlocks (parts : List Markdown) : Markdown := strip (join ['\n', '\n'] (parts.filter (! blank ·)))

mutual

/-- Blocks stand in the root and in block quotes: under no spoiler. -/
def block (resolve : Attrs → Attached) : Node → Markdown
  | .text text => escapedText false text
  | .comment _ => []
  | .doctype _ => []
  | .element _ localName attrs children =>
    if localName = "blockquote" then prefixLines ['>', ' '] (joinBlocks (blockTexts resolve children))
    else if isList localName then list resolve false localName children
    else if localName = "pre" then codeBlock false attrs children
    else if localName = "hr" then lit ['-', '-', '-']
    else if localName = "br" then lit ['\n']
    else if localName = attachmentTag then lit (attachment resolve attrs)
    else lit (heading localName) ++ strip (inlineNodes resolve (isSpoilerSpan localName attrs) children)

def blockTexts (resolve : Attrs → Attached) : List Node → List Markdown
  | [] => []
  | node :: rest => block resolve node :: blockTexts resolve rest

end

def blocks (resolve : Attrs → Attached) (root : List Node) : Markdown := joinBlocks (blockTexts resolve root)

/-- `render` -/
def renderMarkdown (resolve : Attrs → Attached) (root : List Node) : Markdown :=
  let markdown := blocks resolve root
  if blank markdown then strip (contentsOf false root) else markdown

/-- What comes from under a spoiler stands between the delimiters of one: more are opened than closed
    before it, and more closed than opened behind it. -/
def Concealed (m : Markdown) : Prop :=
  ∀ before c after, m = before ++ .text true c :: after →
    before.count .closes < before.count .opens ∧ after.count .opens < after.count .closes

end Richtext

end Smartfire
