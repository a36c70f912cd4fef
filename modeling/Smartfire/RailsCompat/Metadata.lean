/-
  File:      Smartfire/RailsCompat/Metadata.lean
  Subject:   A value with its purpose and expiry, as bytes
             (crates/rails_compat/src/metadata.rs, json.rs, marshal.rs).

  * `Serializer` -- a string as it is, JSON, or JSON with marshaled strings;
  * `serializeWithMetadata` -- the value alone without purpose and expiry, else an envelope: the
    value inside (`data`), or its bytes in Base64 (`message`) where the serializer has none;
  * `deserializeWithMetadata` -- the envelope is known by its first bytes or by its `_rails`;
  * `iso8601Millis` -- an expiry's text, in milliseconds.

  Instants are nanoseconds since 1970. What jiff writes and reads is a parameter.
-/
import Mathlib.Algebra.Order.Ring.Int
import Smartfire.Lib.Bytes
import Smartfire.Lib.Base64
import Smartfire.Lib.Json

namespace Smartfire.RailsCompat

open Lib (Bytes Json Members)

/-- `Error` -/
inductive MessageError where
  | invalidSignature
  | invalidMessage
  | expired
  | purposeMismatch
deriving DecidableEq, Repr

def MessageError.rotates (error : MessageError) : Bool := error = .invalidSignature || error = .invalidMessage

/-- `Option::ok_or` -/
def okOr {α : Type} (o : Option α) (error : MessageError) : Except MessageError α :=
  match o with
  | some a => .ok a
  | none => .error error

/-! ## 1. Text and JSON -/

def utf8 (text : List Char) : Bytes := text.flatMap String.utf8EncodeChar

/-- `String::from_utf8` -/
def fromUtf8 (bytes : Bytes) : Option (List Char) := (String.fromUTF8? ⟨bytes.toArray⟩).map String.toList

/-- `String::from_utf8_lossy`, as bytes. -/
def fromUtf8Lossy (bytes : Bytes) : Bytes :=
  match fromUtf8 bytes with
  | some _ => bytes
  | none => Lib.lossy bytes

/-- `json::generate` -/
def generate (value : Json) : List Char := value.print Json.plain

/-- `json::escape` of a character. -/
def escapeChar (c : Char) : List Char :=
  if c = '<' then "\\u003c".toList
  else if c = '>' then "\\u003e".toList
  else if c = '&' then "\\u0026".toList
  else [c]

def escape (json : List Char) : List Char := json.flatMap escapeChar

/-- `json::encode` -/
def encode (value : Json) : List Char := escape (generate value)

/-- How deep serde_json reads. -/
def recursionLimit : Nat := 127

/-- `json::parse` -/
def parse (bytes : Bytes) : Option Json := (fromUtf8 bytes).bind (Json.parse recursionLimit)

/-! ## 2. Marshaled strings -/

/-- `marshal::SIGNATURE` -/
def signature : Bytes := [4, 8]

/-- Little-endian bytes. -/
def leValue (digits : Bytes) : Int := digits.foldr (fun b n => b.toNat + 256 * n) 0

def readFixnum : Bytes → Option (Int × Bytes)
  | [] => none
  | b :: rest =>
    let first : Int := if b.toNat < 128 then b.toNat else (b.toNat : Int) - 256
    if first = 0 then some (0, rest)
    else if 1 ≤ first ∧ first ≤ 4 then
      let n := first.toNat
      if n ≤ rest.length then some (leValue (rest.take n), rest.drop n) else none
    else if -4 ≤ first ∧ first ≤ -1 then
      let n := (-first).toNat
      if n ≤ rest.length then some (leValue (rest.take n) - 256 ^ n, rest.drop n) else none
    else if 5 ≤ first then some (first - 5, rest)
    else some (first + 5, rest)

def stripPrefix (pre bytes : Bytes) : Option Bytes := if pre.isPrefixOf bytes then some (bytes.drop pre.length) else none

/-- `marshal::load_string` -/
def loadString (dumped : Bytes) : Option Bytes := do
  let rest ← stripPrefix signature dumped
  let rest := (stripPrefix (Lib.text "I") rest).getD rest
  let rest ← stripPrefix (Lib.text "\"") rest
  let (len, rest) ← readFixnum rest
  if 0 ≤ len ∧ len ≤ rest.length then some (rest.take len.toNat) else none

/-! ## 3. Serializers -/

inductive Serializer where
  | null
  | json
  | jsonWithFallback (allowMarshal : Bool)
deriving DecidableEq, Repr

namespace Serializer

/-- The bytes of a value; the null serializer panics unless it is a string. -/
def dump : Serializer → Json → Option Bytes
  | .null, .string text => some (utf8 text)
  | .null, _ => none
  | .json, value => some (utf8 (generate value))
  | .jsonWithFallback _, value => some (utf8 (encode value))

def load : Serializer → Bytes → Except MessageError Json
  | .null, bytes => (okOr (fromUtf8 bytes) .invalidMessage).map .string
  | .json, bytes => if bytes = [] then .ok .null else okOr (parse bytes) .invalidMessage
  | .jsonWithFallback allowMarshal, bytes =>
    if signature.isPrefixOf bytes then
      if allowMarshal then
        (okOr (loadString bytes) .invalidMessage).map fun string =>
          .string ((fromUtf8 (fromUtf8Lossy string)).getD [])
      else .error .invalidMessage
    else okOr (parse bytes) .invalidMessage

def encodeJson : Serializer → Json → List Char
  | .json, value => generate value
  | _, value => encode value

def usesEnvelope (serializer : Serializer) : Bool := serializer ≠ .null

end Serializer

/-! ## 4. Instants -/

/-- jiff's `Timestamp`: the text of a whole second to the second, and an instant from a text. -/
structure Clock where
  strftime : Int → List Char
  parseTimestamp : List Char → Option Int

/-- `as_second` and `subsec_nanosecond` have the instant's sign. -/
def asSecond (time : Int) : Int := time.tdiv 1000000000

def subsecNanosecond (time : Int) : Int := time.tmod 1000000000

/-- The format `03`: the sign counts. -/
def pad3 (n : Int) : List Char :=
  if 0 ≤ n then (Nat.toDigits 10 n.toNat).leftpad 3 '0'
  else '-' :: (Nat.toDigits 10 (-n).toNat).leftpad 2 '0'

def iso8601Millis (clock : Clock) (time : Int) : List Char :=
  clock.strftime (asSecond time) ++ '.' :: (pad3 (subsecNanosecond time / 1000000) ++ ['Z'])

/-! ## 5. The envelope -/

section Envelope

variable (clock : Clock)

/-- `serialize_dumped_with_metadata` -/
def serializeDumpedWithMetadata (serializer : Serializer) (dumped : Bytes) (purpose : Option (List Char))
    (expiresAt : Option Int) : Bytes :=
  if purpose = none ∧ expiresAt = none then dumped
  else
    let expiry := expiresAt.map fun time => Json.string (iso8601Millis clock time)
    let purpose := purpose.map Json.string
    if serializer.usesEnvelope then
      let exp := match expiry with
        | some expiry => utf8 (",\"exp\":".toList ++ serializer.encodeJson expiry)
        | none => []
      let pur := match purpose with
        | some purpose => utf8 (",\"pur\":".toList ++ serializer.encodeJson purpose)
        | none => []
      utf8 "\x7b\"_rails\":\x7b\"data\":".toList ++ (fromUtf8Lossy dumped ++ (exp ++ (pur ++ utf8 "\x7d\x7d".toList)))
    else
      utf8 ("\x7b\"_rails\":\x7b\"message\":".toList ++ (encode (.string (Lib.Base64.encode dumped)) ++
        (",\"exp\":".toList ++ (encode (expiry.getD .null) ++
          (",\"pur\":".toList ++ (encode (purpose.getD .null) ++ "\x7d\x7d".toList))))))

/-- `serialize_with_metadata`; none where dumping panics. -/
def serializeWithMetadata (serializer : Serializer) (value : Json) (purpose : Option (List Char))
    (expiresAt : Option Int) : Option Bytes :=
  (serializer.dump value).map fun dumped => serializeDumpedWithMetadata clock serializer dumped purpose expiresAt

/-- `ruby_to_s` -/
def rubyToS : Option Json → List Char
  | none | some .null => []
  | some (.string text) => text
  | some (.number text) => text
  | some (.bool b) => if b then "true".toList else "false".toList
  | some other => Char.ofNat 0 :: generate other

/-- `extract`: the members of `_rails`, unless they are expired or for another purpose. -/
def extract (envelope : Json) (purpose : Option (List Char)) (now : Int) : Except MessageError Members :=
  match envelope.get "_rails".toList with
  | some (.object rails) =>
    let expiry : Except MessageError Unit := match Members.get rails "exp".toList with
      | none | some .null => .ok ()
      | some (.string exp) =>
        match clock.parseTimestamp exp with
        | none => .error .invalidMessage
        | some exp => if exp ≤ now then .error .expired else .ok ()
      | some _ => .error .invalidMessage
    match expiry with
    | .error error => .error error
    | .ok () =>
      if rubyToS (Members.get rails "pur".toList) = purpose.getD [] then .ok rails else .error .purposeMismatch
  | _ => .error .invalidMessage

/-- How a legacy envelope starts. -/
def legacyStart : List Char := "\x7b\"_rails\":\x7b\"message\":".toList

/-- `deserialize_with_metadata` -/
def deserializeWithMetadata (serializer : Serializer) (bytes : Bytes) (purpose : Option (List Char)) (now : Int)
    (decodeLegacyMessage : List Char → Option Bytes) : Except MessageError Json :=
  if (utf8 legacyStart).isPrefixOf bytes then do
    let envelope ← okOr (parse bytes) .invalidSignature
    let rails ← extract clock envelope purpose now
    let message ← match Members.get rails "message".toList with
      | some (.string message) => .ok message
      | _ => .error .invalidSignature
    let dumped ← okOr (decodeLegacyMessage message) .invalidSignature
    serializer.load dumped
  else do
    let value ← serializer.load bytes
    if (value.get "_rails".toList).isSome then
      let rails ← extract clock value purpose now
      .ok ((Members.get rails "data".toList).getD .null)
    else if purpose = none then .ok value
    else .error .purposeMismatch

end Envelope

end Smartfire.RailsCompat
