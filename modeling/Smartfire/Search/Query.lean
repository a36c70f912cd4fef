/-
  File:      Smartfire/Search/Query.lean
  Subject:   The grammar of a search query (crates/db/src/models/search_query.rs).

  Operator tokens are found by a pattern, each with its place, and are then taken out of the text by their
  first occurrence.

  * `capturesIter` -- what the pattern finds, from left to right;
  * `clean` -- the value of an operator, if it has one;
  * `SearchQuery`, `parseWithOperators` -- the query with its chips;
  * `removedText`, `deleteSpans` -- the text without the tokens, each where it was found.

  A text is its characters.
-/
import Mathlib.Algebra.Order.Ring.Int
import Mathlib.Data.List.DropRight
import Smartfire.Cable.Ring
import Smartfire.Lib.Digits
import Smartfire.Lib.Words

namespace Smartfire.Search

open Lib

abbrev Text := List Char

/-! ## 1. Operators -/

inductive Operator where
  | fromId
  | inId
  | mentions
  | sort
  | «from»
  | «in»
  | has
  | before
  | after
  | on
  | is
deriving DecidableEq, Repr

def Operator.name : Operator → String
  | .fromId => "from_id"
  | .inId => "in_id"
  | .mentions => "mentions"
  | .sort => "sort"
  | .from => "from"
  | .in => "in"
  | .has => "has"
  | .before => "before"
  | .after => "after"
  | .on => "on"
  | .is => "is"

/-- In the order in which the pattern tries them. -/
def operators : List Operator := [.fromId, .inId, .mentions, .sort, .from, .in, .has, .before, .after, .on, .is]

/-- Literal text in the legacy grammar. -/
def Operator.extendedOnly (operator : Operator) : Bool :=
  [Operator.fromId, .inId, .mentions, .sort].contains operator

/-- The six spaces of the pattern, all ASCII. -/
def isSpace (c : Char) : Bool :=
  let n := c.toNat
  (9 ≤ n && n ≤ 13) || n == 32

/-- A match, without the space before it. -/
structure Capture where
  start : Nat
  operator : Operator
  value : Text
deriving DecidableEq, Repr

def Capture.token (capture : Capture) : Text := capture.operator.name.toList ++ ':' :: capture.value

/-- The pattern's group at the head of a text: an operator, a colon, and what is not a space. -/
def matchOperator (s : Text) : Option (Operator × Text) :=
  operators.findSome? fun operator =>
    let head := operator.name.toList ++ [':']
    if head <+: s then
      let value := (s.drop head.length).takeWhile fun c => !isSpace c
      if value = [] then none else some (operator, value)
    else none

/-- Scans from left to right. A match starts the text or follows a space (`boundary`); its characters
    (`skip`) are not scanned again. -/
def scan (skip : Nat) (boundary : Bool) (position : Nat) : Text → List Capture
  | [] => []
  | c :: s =>
    match skip with
    | skip + 1 => scan skip (isSpace c) (position + 1) s
    | 0 =>
      match if boundary then matchOperator (c :: s) else none with
      | some (operator, value) =>
        ⟨position, operator, value⟩ :: scan (operator.name.length + value.length) (isSpace c) (position + 1) s
      | none => scan 0 (isSpace c) (position + 1) s

/-- `OPERATORS.captures_iter`. -/
def capturesIter (raw : Text) : List Capture := scan 0 true 0 raw

/-! ## 2. Values -/

/-- `to_lowercase`, as far as it makes ASCII letters: beside their capitals, the Kelvin sign does. -/
def toLowercase (s : Text) : Text := s.map fun c => if c.toNat = 0x212A then 'k' else c.toLower

def eqIgnoreAsciiCase (s : Text) (other : String) : Bool := s.map Char.toLower == other.toList

/-- `parse::<i64>`. -/
def parseI64 (s : Text) : Option Int :=
  let (negative, digits) := match s with
    | '-' :: digits => (true, digits)
    | '+' :: digits => (false, digits)
    | digits => (false, digits)
  if digits ≠ [] ∧ digits.all Char.isDigit then
    let value : Int := if negative then -(digitsValue digits : Int) else digitsValue digits
    if -2 ^ 63 ≤ value ∧ value < 2 ^ 63 then some value else none
  else none

structure Date where
  year : Nat
  month : Nat
  day : Nat
deriving DecidableEq, Repr

def isLeap (year : Nat) : Bool := year % 4 == 0 && (year % 100 != 0 || year % 400 == 0)

def daysIn (year month : Nat) : Nat :=
  match month with
  | 2 => if isLeap year then 29 else 28
  | 4 | 6 | 9 | 11 => 30
  | _ => 31

/-- Four digits, two and two (`DATE`), that are a day of the calendar. -/
def parseDate (s : Text) : Option Date :=
  match s with
  | [y₁, y₂, y₃, y₄, '-', m₁, m₂, '-', d₁, d₂] =>
    if [y₁, y₂, y₃, y₄, m₁, m₂, d₁, d₂].all Char.isDigit then
      let date : Date := ⟨digitsValue [y₁, y₂, y₃, y₄], digitsValue [m₁, m₂], digitsValue [d₁, d₂]⟩
      if 1 ≤ date.month ∧ date.month ≤ 12 ∧ 1 ≤ date.day ∧ date.day ≤ daysIn date.year date.month then some date
      else none
    else none
  | _ => none

def stripPrefix (c : Char) : Text → Text
  | d :: s => if d = c then s else d :: s
  | [] => []

def trailing : List Char := [',', '.', '!', '?', ';', ':', ')']

/-- An operator's value as the query takes it. Without one the token is literal text. -/
def clean (extended : Bool) (operator : Operator) (value : Text) : Option Text :=
  match operator with
  | .from | .in =>
    let value := (stripPrefix (if operator = .from then '@' else '#') value).rdropWhile trailing.contains
    if value.all isWhitespace then none else some value
  | .fromId | .inId =>
    match parseI64 value with
    | some id => if 1 ≤ id ∧ id ≤ 9007199254740991 then some (Nat.toDigits 10 id.toNat) else none
    | none => none
  | .mentions => if eqIgnoreAsciiCase value "me" then some "me".toList else none
  | .sort =>
    let value := toLowercase value
    if ["newest".toList, "oldest".toList, "relevance".toList].contains value then some value else none
  | .has =>
    let value := toLowercase value
    if ["link".toList, "file".toList, "image".toList, "pin".toList].contains value ||
        extended && ["mention".toList, "audio".toList, "video".toList].contains value then some value else none
  | .is => if eqIgnoreAsciiCase value "thread" then some "true".toList else none
  | .before | .after | .on => if (parseDate value).isSome then some value else none

/-! ## 3. Queries -/

inductive SearchSort where
  | newest
  | oldest
  | relevance
deriving DecidableEq, Repr

structure Chip where
  token : Text
  label : Text
  removeQuery : Text
deriving DecidableEq, Repr

structure SearchQuery where
  raw : Text
  text : Text
  fromNames : List Text
  inRooms : List Text
  authorIds : List Nat
  channelIds : List Nat
  mentionsMe : Bool
  sort : SearchSort
  hasValues : List Text
  beforeDate : Option Date
  afterDate : Option Date
  onDate : Option Date
  threadOnly : Bool
  chips : List Chip
deriving DecidableEq, Repr

/-- `Default`, with the raw query. -/
def SearchQuery.new (raw : Text) : SearchQuery :=
  ⟨raw, [], [], [], [], [], false, .newest, [], none, none, none, false, []⟩

/-- Every run of spaces becomes one: `SPACE.replace_all(s, " ")`. -/
def replaceSpaces (inRun : Bool) : Text → Text
  | [] => []
  | c :: s =>
    if isWhitespace c then if inRun then replaceSpaces true s else ' ' :: replaceSpaces true s
    else c :: replaceSpaces false s

def trim (s : Text) : Text := (s.dropWhile isWhitespace).rdropWhile isWhitespace

def squish (s : Text) : Text := trim (replaceSpaces false s)

/-- The filter an operator sets or adds. -/
def SearchQuery.applyOperator (q : SearchQuery) (operator : Operator) (cleaned : Text) : SearchQuery :=
  match operator with
  | .from => { q with fromNames := q.fromNames ++ [cleaned] }
  | .in => { q with inRooms := q.inRooms ++ [cleaned] }
  | .fromId => { q with authorIds := q.authorIds ++ [digitsValue cleaned] }
  | .inId => { q with channelIds := q.channelIds ++ [digitsValue cleaned] }
  | .mentions => { q with mentionsMe := true }
  | .sort =>
    let sort := if cleaned = "oldest".toList then .oldest else if cleaned = "relevance".toList then .relevance
      else .newest
    { q with sort := sort }
  | .has => if q.hasValues.contains cleaned then q else { q with hasValues := q.hasValues ++ [cleaned] }
  | .before => { q with beforeDate := parseDate cleaned }
  | .after => { q with afterDate := parseDate cleaned }
  | .on => { q with onDate := parseDate cleaned }
  | .is => { q with threadOnly := true }

/-- What a match is taken for: nothing, where the grammar has no such operator or the value is none. -/
def recognize (extended : Bool) (capture : Capture) : Option Text :=
  if !extended && capture.operator.extendedOnly then none else clean extended capture.operator capture.value

def label (operator : Operator) (cleaned : Text) : Text := operator.name.toList ++ ": ".toList ++ cleaned

/-- One match: the query so far, and what remains of the text. -/
def parseCapture (raw : Text) (extended : Bool) (state : SearchQuery × Text) (capture : Capture) :
    SearchQuery × Text :=
  match recognize extended capture with
  | none => state
  | some cleaned =>
    let (q, remaining) := state
    let q := q.applyOperator capture.operator cleaned
    let chip := ⟨capture.token, label capture.operator cleaned, squish (removeFirst capture.token raw)⟩
    ({ q with chips := q.chips ++ [chip] }, removeFirst capture.token remaining)

def parseWithOperators (raw : Text) (extended : Bool) : SearchQuery :=
  let (q, remaining) := (capturesIter raw).foldl (parseCapture raw extended) (.new raw, raw)
  { q with text := squish remaining }

/-! ## 4. The tokens deleted where they were found -/

/-- A place inside the match. -/
def Capture.covers (capture : Capture) (i : Nat) : Bool :=
  capture.start ≤ i && i < capture.start + capture.token.length

def deleteSpans (spans : List Capture) (position : Nat) : Text → Text
  | [] => []
  | c :: s =>
    if spans.any (·.covers position) then deleteSpans spans (position + 1) s
    else c :: deleteSpans spans (position + 1) s

/-- The recognised matches. -/
def recognized (extended : Bool) (raw : Text) : List Capture :=
  (capturesIter raw).filter fun capture => (recognize extended capture).isSome

/-- The text without exactly the spans of the recognised tokens. -/
def removedText (extended : Bool) (raw : Text) : Text := deleteSpans (recognized extended raw) 0 raw

end Smartfire.Search
