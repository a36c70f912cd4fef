/-
  File:      Smartfire/Richtext/SgidJson.lean
  Subject:   The JSON parser for the payloads of signed global ids (crates/richtext/src/sgid_json.rs).

  It follows the parser of Ruby's JSON byte for byte: its order of errors, their fragments and positions, its
  comments, and what it does with surrogates. A cursor is what is left of the text. An error is told by its
  format and cursor, and written at the end (`Fault.error`).

  * `whitespace`, `number`, `string` -- the parts of a value;
  * `value` -- a value, with the containers around it counted;
  * `parse` -- the parser; `Value.field` -- a field of an object.
-/
import Mathlib.Data.List.TakeWhile
import Smartfire.Lib.Bytes

namespace Smartfire.SgidJson

open Lib

/-! ## 1. Values and errors -/

inductive Value where
  | null
  | false
  | other
  | string (bytes : Bytes)
  | object (fields : List (Bytes × Value))

/-- The last field of the name. -/
def Value.field (key : Bytes) : Value → Option Value
  | .object fields => (fields.reverse.find? fun field => field.1 = key).map (·.2)
  | _ => none

def Value.truthy : Value → Bool
  | .null | .false => Bool.false
  | _ => Bool.true

structure ParseError where
  errorClass : String
  message : Bytes
deriving DecidableEq

/-- What is left of the text. -/
abbrev Cursor := Bytes

/-- What goes wrong, and where; a loop that runs on for ever would be `spent`. -/
inductive Fault where
  | at (format : String) (cursor : Cursor)
  | nesting (depth : Nat)
  | spent
deriving DecidableEq

/-- The bytes of a number. -/
def digitsOf (n : Nat) : Bytes := text (toString n)

/-- The trimming of a cut character: its continuation bytes, and the byte they continue. -/
def trimCut (word : Bytes) : Bytes :=
  let trimmed := word.reverse.dropWhile fun b => 0x80 ≤ b && b < 0xC0
  match trimmed with
  | b :: more => if 0xC0 ≤ b then more.reverse else trimmed.reverse
  | [] => []

/-- The word at a cursor, as an error shows it. -/
def fragment (cursor : Cursor) : Bytes :=
  if cursor.isEmpty then text "EOF"
  else
    let stops (b : UInt8) : Bool := b ∈ [0, byte '\n', byte ' ', byte '\t', byte '\r']
    let word := (cursor.take 32).takeWhile fun b => !stops b
    if word.isEmpty then cursor.takeWhile (· ≠ 0)
    else byte '\'' :: trimCut word ++ [byte '\'']

/-- The line and the column of a cursor. -/
def position (bytes : Bytes) (cursor : Cursor) : Nat × Nat :=
  let at_ := bytes.length - cursor.length
  let before := bytes.take (at_ + 1)
  let newline := byte '\n'
  (before.count newline + 1,
    if newline ∈ before then at_ - (before.length - 1 - before.reverse.idxOf newline) else at_ + 1)

/-- The parts of a format before and behind its `%s`. -/
def splitMark : Bytes → Option (Bytes × Bytes)
  | [] => none
  | b :: rest =>
    if b = byte '%' ∧ rest.head? = some (byte 's') then some ([], rest.tail)
    else (splitMark rest).map fun (before, after) => (b :: before, after)

/-- `Parser::error` -/
def errorAt (bytes : Bytes) (format : String) (cursor : Cursor) : ParseError :=
  let (line, column) := position bytes cursor
  let said := match splitMark (text format) with
    | some (before, after) => before ++ fragment cursor ++ after
    | none => text format
  ⟨"JSON::ParserError", said ++ text " at line " ++ digitsOf line ++ text " column " ++ digitsOf column⟩

def Fault.error (bytes : Bytes) : Fault → ParseError
  | .at format cursor => errorAt bytes format cursor
  | .nesting depth => ⟨"JSON::NestingError", text "nesting of " ++ digitsOf depth ++ text " is too deep"⟩
  | .spent => ⟨"", []⟩

def ParseError.unloggable (e : ParseError) : Bool := !validUtf8 e.message

/-! ## 2. Cursors -/

def peek (c : Cursor) : UInt8 := c.headD 0

def isSpace (b : UInt8) : Bool := b ∈ [byte ' ', byte '\n', byte '\r', byte '\t']

def isDigit (b : UInt8) : Bool := byte '0' ≤ b && b ≤ byte '9'

/-- Behind a line comment: the text behind the next newline, or its end. -/
def afterLine (c : Cursor) : Cursor := (c.dropWhile (· ≠ byte '\n')).tail

/-- Behind a block comment: the text behind the next `*/`. -/
def afterBlock : Cursor → Option Cursor
  | [] => none
  | b :: rest => if b = byte '*' ∧ rest.head? = some (byte '/') then some rest.tail else afterBlock rest

theorem length_afterLine (c : Cursor) : (afterLine c).length ≤ c.length := by
  have hle := (List.dropWhile_sublist (· ≠ byte '\n') (l := c)).length_le
  rw [afterLine, List.length_tail]
  omega

theorem length_afterBlock {c after : Cursor} (h : afterBlock c = some after) : after.length < c.length := by
  induction c with
  | nil => cases h
  | cons b rest ih =>
    rw [afterBlock] at h
    split at h
    · obtain rfl := Option.some.inj h
      rw [List.length_tail, List.length_cons]
      omega
    · have hlt := ih h
      rw [List.length_cons]
      omega

def whitespace (c : Cursor) : Except Fault Cursor :=
  match c with
  | [] => .ok []
  | b :: rest =>
    if isSpace b then whitespace rest
    else if b = byte '/' then
      if peek rest = byte '/' then whitespace (afterLine rest)
      else if peek rest = byte '*' then
        match _hblock : afterBlock rest.tail with
        | some after => whitespace after
        | none => .error (.at "unterminated comment, expected closing '*/'" c)
      else .error (.at "unexpected token %s" c)
    else .ok c
termination_by c.length
decreasing_by
  · simp
  · have hle := length_afterLine rest
    rw [List.length_cons]
    omega
  · have hlt := length_afterBlock _hblock
    rw [List.length_tail] at hlt
    rw [List.length_cons]
    omega

/-- `keyword` -/
def keyword (word : String) (c : Cursor) : Except Fault Cursor :=
  if (text word).isPrefixOf c then .ok (c.drop word.length) else .error (.at "unexpected token %s" c)

/-- How many digits there are, and the cursor behind them. -/
def digits (c : Cursor) : Nat × Cursor := ((c.takeWhile isDigit).length, c.dropWhile isDigit)

/-! ## 3. Numbers -/

/-- The part of a number behind its point, if there is one. -/
def fraction (start c : Cursor) : Except Fault Cursor :=
  if peek c = byte '.' then
    let (count, c) := digits c.tail
    if count = 0 then .error (.at "invalid number: %s" start) else .ok c
  else .ok c

def exponent (start c : Cursor) : Except Fault Cursor :=
  if peek c = byte 'e' ∨ peek c = byte 'E' then
    let c := c.tail
    let c := if peek c = byte '-' ∨ peek c = byte '+' then c.tail else c
    let (count, c) := digits c
    if count = 0 then .error (.at "invalid number: %s" start) else .ok c
  else .ok c

/-- `number` -/
def number (start : Cursor) : Except Fault Cursor :=
  let negative := peek start = byte '-'
  let c := if negative then start.tail else start
  let first := peek c
  let (count, c) := digits c
  if (first = byte '0' ∧ 1 < count) ∨ (negative ∧ count = 0) then .error (.at "invalid number: %s" start)
  else do
    let c ← fraction start c
    exponent start c

/-! ## 4. Strings -/

/-- `bytes[start..end]` -/
def upTo (start stop : Cursor) : Bytes := start.take (start.length - stop.length)

/-- The scan of a string: the cursor at its closing quote, and those at its backslashes. -/
def scan (c : Cursor) : Except Fault (Cursor × List Cursor) :=
  match c with
  | [] => .error (.at "unexpected end of input, expected closing \"" [])
  | b :: rest =>
    if b = byte '"' then .ok (c, [])
    else if b = byte '\\' then (scan rest.tail).map fun (stop, escapes) => (stop, c :: escapes)
    else if b ≤ 0x1F then .error (.at "invalid ASCII control character in string: %s" c)
    else scan rest
termination_by c.length
decreasing_by
  · rw [List.length_tail, List.length_cons]
    omega
  · simp

/-- The number four hex digits write. -/
def hexCode (four : Bytes) : Option Nat :=
  (four.mapM hexValue).map fun digits => digits.foldl (fun result digit => result * 16 + digit.toNat) 0

/-- `hex4`, behind a backslash and an `u`. -/
def hex4 (slash stop : Cursor) : Except Fault Nat :=
  let start := slash.drop 2
  if stop.length + 4 ≤ start.length then
    match hexCode (start.take 4) with
    | some codepoint => .ok codepoint
    | none => .error (.at "incomplete unicode character escape sequence at %s" slash)
  else .error (.at "incomplete unicode character escape sequence at %s" slash)

def isHigh (codepoint : Nat) : Bool := codepoint &&& 0xFC00 = 0xD800

def isLow (codepoint : Nat) : Bool := codepoint &&& 0xFC00 = 0xDC00

def combine (high low : Nat) : Nat := 0x10000 + ((high &&& 0x3FF) <<< 10) + (low &&& 0x3FF)

/-- The bytes of a code point; a lone low surrogate is written as if it were one. -/
def encode (codepoint : Nat) : Bytes :=
  if codepoint ≤ 0x7F then [UInt8.ofNat codepoint]
  else if codepoint ≤ 0x7FF then
    [UInt8.ofNat (0xC0 ||| codepoint >>> 6), UInt8.ofNat (0x80 ||| codepoint &&& 63)]
  else if codepoint ≤ 0xFFFF then
    [UInt8.ofNat (0xE0 ||| codepoint >>> 12), UInt8.ofNat (0x80 ||| codepoint >>> 6 &&& 63),
      UInt8.ofNat (0x80 ||| codepoint &&& 63)]
  else
    [UInt8.ofNat (0xF0 ||| codepoint >>> 18), UInt8.ofNat (0x80 ||| codepoint >>> 12 &&& 63),
      UInt8.ofNat (0x80 ||| codepoint >>> 6 &&& 63), UInt8.ofNat (0x80 ||| codepoint &&& 63)]

/-- The byte of a short escape. -/
def shortEscape (b : UInt8) : Option UInt8 :=
  if b = byte '\\' then some b
  else if b = byte 'n' then some 10
  else if b = byte 'r' then some 13
  else if b = byte 't' then some 9
  else if b = byte 'b' then some 8
  else if b = byte 'f' then some 12
  else none

/-- An `u` escape: what it writes, and the cursor behind it. -/
def unicodeEscape (chunk slash stop : Cursor) : Except Fault (Bytes × Cursor) := do
  let codepoint ← hex4 slash stop
  let next := slash.drop 6
  if isHigh codepoint then
    if next.length < stop.length + 6 ∨ next.take 2 ≠ [byte '\\', byte 'u'] then
      .error (.at "incomplete surrogate pair at %s" chunk)
    else do
      let low ← hex4 next stop
      if isLow low then .ok (encode (combine codepoint low), next.drop 6)
      else .error (.at "invalid surrogate pair at %s" chunk)
  else .ok (encode codepoint, next)

/-- One escape: what it writes, and where the next chunk starts. -/
def escape (chunk slash stop : Cursor) : Except Fault (Bytes × Cursor) :=
  let escaped := slash.tail
  let b := peek escaped
  if b = byte '"' ∨ b = byte '/' then .ok ([], escaped)
  else
    match shortEscape b with
    | some written => .ok ([written], escaped.tail)
    | none =>
      if b = byte 'u' then unicodeEscape chunk slash stop
      else if b = 0 then .error (.at "unexpected end of input, expected closing \"" stop.tail)
      else if b = byte '\n' then .error (.at "Invalid unescaped newline character (\\n) in string: %s" slash)
      else if b ≤ 0x1F then .error (.at "invalid ASCII control character in string: %s" slash)
      else .error (.at "invalid escape character in string: %s" slash)

/-- `unescape` -/
def unescape (stop chunk : Cursor) : List Cursor → Except Fault Bytes
  | [] => .ok (upTo chunk stop)
  | slash :: escapes =>
    -- the second half of a surrogate pair was read with the first
    if chunk.length < slash.length then unescape stop chunk escapes
    else do
      let (written, next) ← escape chunk slash stop
      let more ← unescape stop next escapes
      .ok (upTo chunk slash ++ written ++ more)

/-- `string` -/
def string (c : Cursor) : Except Fault (Bytes × Cursor) := do
  let start := c.tail
  let (stop, escapes) ← scan start
  let out ← unescape stop start escapes
  .ok (out, stop.tail)

/-! ## 5. Values -/

def opening (object : Bool) : UInt8 := if object then byte '{' else byte '['

def closing (object : Bool) : UInt8 := if object then byte '}' else byte ']'

/-- What a container is: an array's values are not kept. -/
def collected (object : Bool) (fields : List (Bytes × Value)) : Value := if object then .object fields else .other

/-- A field of an object, or an element of an array, with the fields so far. -/
def member (object : Bool) (inner : Cursor → Except Fault (Value × Cursor)) (fields : List (Bytes × Value))
    (c : Cursor) : Except Fault (List (Bytes × Value) × Cursor) :=
  if object then do
    let c ← whitespace c
    if peek c ≠ byte '"' then
      .error (.at (if fields.isEmpty then "expected object key, got %s" else "expected object key, got: %s") c)
    else do
      let (name, c) ← string c
      let c ← whitespace c
      if peek c ≠ byte ':' then
        .error (.at (if fields.isEmpty then "expected ':' after object key"
          else "expected ':' after object key, got: %s") c)
      else do
        let (value, c) ← inner c.tail
        .ok (fields ++ [(name, value)], c)
  else do
    let (_, c) ← inner c
    .ok (fields, c)

/-- The loop of a container that is not empty. -/
def members (object : Bool) (inner : Cursor → Except Fault (Value × Cursor)) :
    Nat → List (Bytes × Value) → Cursor → Except Fault (Value × Cursor)
  | 0, _, _ => .error .spent
  | fuel + 1, fields, c => do
    let (fields, c) ← member object inner fields c
    let c ← whitespace c
    if peek c = closing object then .ok (collected object fields, c.tail)
    else if peek c ≠ byte ',' then
      .error (.at (if object then "expected ',' or '\x7d' after object value, got: %s"
        else "expected ',' or ']' after array value") c)
    else members object inner fuel fields c.tail

/-- The nesting that is refused starts here. -/
def maxNesting : Nat := 100

/-- `value`, and `container` in it. -/
def value (nesting : Nat) (c : Cursor) : Except Fault (Value × Cursor) := do
  let c ← whitespace c
  let b := peek c
  if b = byte 'n' then (keyword "null" c).map fun c => (.null, c)
  else if b = byte 't' then (keyword "true" c).map fun c => (.other, c)
  else if b = byte 'f' then (keyword "false" c).map fun c => (.false, c)
  else if b = byte 'N' ∨ b = byte 'I' then .error (.at "unexpected token %s" c)
  else if b = byte '-' ∨ isDigit b then (number c).map fun c => (.other, c)
  else if b = byte '"' then (string c).map fun (out, c) => (.string out, c)
  else if b = opening false ∨ b = opening true then do
    let object : Bool := b = opening true
    let c ← whitespace c.tail
    -- an empty container is not counted
    if peek c = closing object then .ok (collected object [], c.tail)
    else if h : maxNesting < nesting + 1 then .error (.nesting (nesting + 1))
    else members object (fun c => value (nesting + 1) c) (c.length + 1) [] c
  else if b = 0 then
    if c.isEmpty then .error (.at "unexpected end of input" c) else .error (.at "unexpected NULL byte: %s" c)
  else .error (.at "unexpected character: %s" c)
termination_by maxNesting - nesting
decreasing_by omega

/-- The parser, with its errors as they are found. -/
def read (bytes : Bytes) : Except Fault Value := do
  let (value, c) ← value 0 bytes
  let c ← whitespace c
  if c.isEmpty then .ok value else .error (.at "unexpected token at end of stream %s" c)

/-- `parse` -/
def parse (bytes : Bytes) : Except ParseError Value := (read bytes).mapError (Fault.error bytes)

end Smartfire.SgidJson
