/-
  File:      Smartfire/Storage/FileServer.lean
  Subject:   Serving a stored file, whole or in ranges (crates/storage/src/file_server.rs).

  Text is its UTF-8 bytes. Every slice of a text, every sum and difference of fixed width and every loop has the
  outcome `none` where it would panic, overflow or not end. The file's size and the text of its time of change are
  what the file system says.

  * `rubySplit`, `rubyToI` -- `String#split` and `String#to_i`;
  * `byteRanges` -- the ranges a `Range` header asks for;
  * `serving`, `serveFile` -- the response.
-/
import Mathlib.Algebra.Order.Ring.Int
import Mathlib.Data.List.DropRight
import Smartfire.Lib.Find
import Smartfire.Lib.Utf8

namespace Smartfire.FileServer

open Lib

/-! ## 1. Ruby's reading of texts -/

/-- A number of type `i128`. -/
def i128 (x : Int) : Option Int := if -2 ^ 127 ≤ x ∧ x < 2 ^ 127 then some x else none

/-- The nearest number of type `i128`. -/
def saturated (x : Int) : Int := max (-2 ^ 127) (min (2 ^ 127 - 1) x)

/-- A number of type `u64`. -/
def u64 (n : Nat) : Option Nat := if n < 2 ^ 64 then some n else none

/-- `/,[ \t]*/` -/
def splitComma (s : Bytes) : Option (Option (Nat × Nat)) :=
  match s.findIdx? (· = byte ',') with
  | none => some none
  | some i => do
    let rest ← Lib.slice s (i + 1) s.length
    let skipped := rest.length - (rest.dropWhile fun b => b = byte ' ' || b = byte '\t').length
    return some (i, i + 1 + skipped)

def splitDash (s : Bytes) : Option (Option (Nat × Nat)) :=
  some ((s.findIdx? (· = byte '-')).map fun i => (i, i + 1))

/-- The fields in front of each separator, and the last. -/
def rubyFields (find : Bytes → Option (Option (Nat × Nat))) : Nat → Bytes → Option (List Bytes)
  | 0, _ => none
  | fuel + 1, rest => do
    match ← find rest with
    | none => return [rest]
    | some (start, stop) =>
      let field ← Lib.slice rest 0 start
      let rest ← Lib.slice rest stop rest.length
      return field :: (← rubyFields find fuel rest)

/-- `String#split` with a separator finder: trailing empty fields are dropped. -/
def rubySplit (find : Bytes → Option (Option (Nat × Nat))) (s : Bytes) : Option (List Bytes) := do
  return (← rubyFields find (s.length + 1) s).rdropWhile (·.isEmpty)

def rubySpace (b : UInt8) : Bool := b ∈ [byte ' ', byte '\t', byte '\n', 0x0B, 0x0C, byte '\r']

/-- The digits up to what is no digit, single underscores between them left out. -/
def digitsLoop : Nat → Int → Bool → Bytes → Int
  | _, value, _, [] => value
  | i, value, previousUnderscore, c :: rest =>
    if byte '0' ≤ c ∧ c ≤ byte '9' then
      digitsLoop (i + 1) (saturated (saturated (value * 10) + (c.toNat - (byte '0').toNat : Nat))) false rest
    else if c = byte '_' ∧ 0 < i ∧ previousUnderscore = false then digitsLoop (i + 1) value true rest
    else value

/-- `String#to_i`: leading whitespace, an optional sign, then digits (underscores between them). -/
def rubyToI (s : Bytes) : Option Int := do
  let s := s.dropWhile rubySpace
  let (negative, digits) ← (match s.head? with
    | some c =>
      if c = byte '-' then do return (true, ← Lib.slice s 1 s.length)
      else if c = byte '+' then do return (false, ← Lib.slice s 1 s.length)
      else some (false, s)
    | none => some (false, s) : Option (Bool × Bytes))
  let value := digitsLoop 0 0 false digits
  if negative then i128 (-value) else return value

/-! ## 2. Ranges -/

/-- One range of the header; the inner `none` gives the header up. -/
def oneRange (size : Int) (rangeSpec : Bytes) : Option (Option (Int × Int)) := do
  if byte '-' ∉ rangeSpec then return none
  let parts ← rubySplit splitDash rangeSpec
  match parts[0]? with
  | none | some [] =>
    match parts[1]? with
    | none => return none
    | some r1 => return some (max (← i128 (size - (← rubyToI r1))) 0, ← i128 (size - 1))
  | some r0 =>
    let r0 ← rubyToI r0
    match parts[1]? with
    | none => return some (r0, ← i128 (size - 1))
    | some r1 =>
      let r1 ← rubyToI r1
      if r1 < r0 then return none
      return some (r0, min r1 (← i128 (size - 1)))

/-- The ranges with a byte, until one gives the header up. -/
def rangesLoop (size : Int) : List Bytes → List (Int × Int) → Option (Option (List (Int × Int)))
  | [], ranges => some (some ranges)
  | rangeSpec :: rest, ranges => do
    match ← oneRange size rangeSpec with
    | none => return none
    | some (r0, r1) => rangesLoop size rest (if r0 ≤ r1 then ranges ++ [(r0, r1)] else ranges)

/-- The bytes of the ranges, one sum after the other. -/
def sumLengths : Int → List (Int × Int) → Option Int
  | total, [] => some total
  | total, (a, b) :: rest => do sumLengths (← i128 (total + (← i128 ((← i128 (b - a)) + 1)))) rest

/-- The part of the header that lists the ranges. -/
def rangesText (header : Bytes) : Option (Option Bytes) :=
  match findText (text "bytes=") header with
  | none => some none
  | some i => do
    let spec ← Lib.slice header (i + 6) header.length
    let spec ← Lib.slice spec 0 ((spec.findIdx? (· = byte ';')).getD spec.length)
    return if spec.isEmpty ∨ 100 ≤ spec.count (byte ',') then none else some spec

/-- `as u64`. -/
def toU64 (x : Int) : Nat := (x % 2 ^ 64).toNat

/-- `Rack::Utils.get_byte_ranges`: the inner `none` means "serve everything", an empty list means 416. -/
def byteRanges (header : Option Str) (size : UInt64) : Option (Option (List (Nat × Nat))) := do
  if size = 0 then return none
  match header with
  | none => return none
  | some header =>
    match ← rangesText header.bytes with
    | none => return none
    | some spec =>
      let size : Int := size.toNat
      match ← rangesLoop size (← rubySplit splitComma spec) [] with
      | none => return none
      | some ranges =>
        if (← sumLengths 0 ranges) > size then return some []
        return some (ranges.map fun (a, b) => (toU64 a, toU64 b))

/-! ## 3. The response -/

def multipartBoundary : Bytes := text "AaB03x"

inductive BodyPart where
  | bytes (bytes : Bytes)
  /-- Both ends belong to it. -/
  | file (path : Bytes) (start stop : Nat)
deriving DecidableEq

structure Served where
  status : Nat
  headers : List (Bytes × Bytes)
  body : List BodyPart
deriving DecidableEq

structure Request where
  method : Bytes
  range : Option Str
  ifModifiedSince : Option Bytes

def lowerAscii (b : UInt8) : UInt8 := if byte 'A' ≤ b ∧ b ≤ byte 'Z' then b + 32 else b

/-- The value is replaced where the header stands, else put at the end. -/
def setHeader (headers : List (Bytes × Bytes)) (name value : Bytes) : List (Bytes × Bytes) :=
  match headers with
  | [] => [(name, value)]
  | (n, v) :: rest =>
    if n.map lowerAscii = name.map lowerAscii then (n, value) :: rest else (n, v) :: setHeader rest name value

def number (n : Nat) : Bytes := text (toString n)

/-- `start-end/size` behind `bytes `. -/
def contentRange (range : Nat × Nat) (size : Nat) : Bytes :=
  text "bytes " ++ number range.1 ++ text "-" ++ number range.2 ++ text "/" ++ number size

def crlf : Bytes := [13, 10]

def mimeType : Bytes := text "text/plain"

/-- What stands before a part. -/
def heading (range : Nat × Nat) (size : Nat) : Bytes :=
  crlf ++ text "--" ++ multipartBoundary ++ crlf ++ text "content-type: " ++ mimeType ++ crlf ++
    text "content-range: " ++ contentRange range size ++ crlf ++ crlf

def closing : Bytes := crlf ++ text "--" ++ multipartBoundary ++ text "--" ++ crlf

/-- The bytes of a part. -/
def partLength : BodyPart → Option Nat
  | .bytes bytes => u64 bytes.length
  | .file _ start stop => do
    let span ← if start ≤ stop then some (stop - start) else none
    u64 (span + 1)

def sumParts : Nat → List BodyPart → Option Nat
  | total, [] => some total
  | total, part :: rest => do sumParts (← u64 (total + (← partLength part))) rest

def unsatisfiable : Bytes := text "Byte range unsatisfiable" ++ [10]

/-- The headers and the body of a partial response. -/
def partial206 (headers : List (Bytes × Bytes)) (path : Bytes) (ranges : List (Nat × Nat)) (size : Nat) :
    List (Bytes × Bytes) × List BodyPart :=
  match ranges with
  | [(start, stop)] =>
    (headers ++ [(text "content-range", contentRange (start, stop) size)], [.file path start stop])
  | ranges =>
    (setHeader headers (text "content-type") (text "multipart/byteranges; boundary=" ++ multipartBoundary),
      (ranges.flatMap fun range => [.bytes (heading range size), .file path range.1 range.2]) ++ [.bytes closing])

def serving (request : Request) (path lastModified : Bytes) (size : UInt64) : Option Served :=
  if request.method = text "OPTIONS" then
    some ⟨200, [(text "allow", text "GET, HEAD, OPTIONS"), (text "content-length", text "0")], []⟩
  else if request.ifModifiedSince = some lastModified then some ⟨304, [], []⟩
  else do
    let headers := [(text "last-modified", lastModified), (text "content-type", mimeType)]
    let respond (status : Nat) (headers : List (Bytes × Bytes)) (body : List BodyPart) (length : Nat) : Served :=
      ⟨status, headers ++ [(text "content-length", number length)],
        if request.method = text "HEAD" ∨ size = 0 then [] else body⟩
    match ← byteRanges request.range size with
    | none => return respond 200 headers [.file path 0 (size.toNat - 1)] size.toNat
    | some [] =>
      return ⟨416, [(text "content-type", text "text/plain"), (text "content-length", number unsatisfiable.length),
        (text "x-cascade", text "pass"), (text "content-range", text "bytes */" ++ number size.toNat)],
        [.bytes unsatisfiable]⟩
    | some ranges =>
      let (headers, parts) := partial206 headers path ranges size.toNat
      return respond 206 headers parts (← sumParts 0 parts)

/-- `serve_file(path, content_type:, disposition:)` as `DiskController#show` calls it. -/
def serveFile (request : Request) (path lastModified : Bytes) (size : UInt64) (contentType disposition : Option Bytes) :
    Option Served := do
  let served ← serving request path lastModified size
  let headers := if served.status = 416 then
      served.headers.filter fun e => ¬ e.1.map lowerAscii = text "x-cascade"
    else served.headers
  let headers := setHeader headers (text "content-type") (contentType.getD (text "application/octet-stream"))
  let headers := setHeader headers (text "content-disposition") (disposition.getD (text "attachment"))
  return { served with headers }

example : byteRanges (some ⟨text "bytes=-3", by decide⟩) 10 = some (some [(7, 9)]) := by decide +kernel

end Smartfire.FileServer
