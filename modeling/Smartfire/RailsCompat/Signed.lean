/-
  File:      Smartfire/RailsCompat/Signed.lean
  Subject:   Signed and encrypted messages
             (crates/rails_compat/src/message_verifier.rs, message_encryptor.rs, encoding.rs).

  * `MessageVerifier` -- Base64, two dashes, the hex of its MAC; rotations stand in for errors of the
    format;
  * `MessageEncryptor` -- ciphertext, IV and tag in Base64, with two dashes between.

  The MAC and the cipher are parameters with their documented laws. Text is its characters; lengths
  and indices count bytes.
-/
import Smartfire.RailsCompat.Metadata

namespace Smartfire.RailsCompat

open Lib (Bytes Json)

/-! ## 1. Encodings -/

/-- A character of the URL-safe alphabet for the standard one's, and back. -/
def urlChar (c : Char) : Char := if c = '+' then '-' else if c = '/' then '_' else c

def standardChar (c : Char) : Char := if c = '-' then '+' else if c = '_' then '/' else c

/-- `urlsafe_encode_padded` -/
def urlsafeEncodePadded (data : Bytes) : List Char := (Lib.Base64.encode data).map urlChar

/-- `urlsafe_encode_unpadded` -/
def urlsafeEncodeUnpadded (data : Bytes) : List Char := (urlsafeEncodePadded data).filter (· ≠ '=')

def byteLength (text : List Char) : Nat := (text.map Char.utf8Size).sum

/-- `urlsafe_decode` -/
def urlsafeDecode (encoded : List Char) : Option Bytes :=
  let translated := encoded.map standardChar
  if encoded.getLast? ≠ some '=' ∧ byteLength encoded % 4 ≠ 0 then
    Lib.Base64.decode (translated ++ List.replicate (4 - byteLength encoded % 4) '=')
  else Lib.Base64.decode translated

/-- A text split at a byte, if a character starts there. -/
def splitBytes : Nat → List Char → Option (List Char × List Char)
  | 0, text => some ([], text)
  | _ + 1, [] => none
  | n + 1, c :: rest =>
    if c.utf8Size ≤ n + 1 then (splitBytes (n + 1 - c.utf8Size) rest).map fun (left, right) => (c :: left, right)
    else none

/-- `char::is_whitespace` -/
def isWhitespace (c : Char) : Bool :=
  let n := c.toNat
  (9 ≤ n && n ≤ 13) || n = 0x20 || n = 0x85 || n = 0xA0 || n = 0x1680 || (0x2000 ≤ n && n ≤ 0x200A) ||
    n = 0x2028 || n = 0x2029 || n = 0x202F || n = 0x205F || n = 0x3000

def isBlank (text : List Char) : Bool := text.all isWhitespace

def hexEncode (bytes : Bytes) : List Char :=
  bytes.flatMap fun b => [Json.hexDigit (b.toNat / 16), Json.hexDigit (b.toNat % 16)]

/-! ## 2. The primitives -/

inductive Digest where
  | sha1
  | sha256
deriving DecidableEq, Repr

def Digest.size : Digest → Nat
  | .sha1 => 20
  | .sha256 => 32

/-- `IV_LENGTH` and `AUTH_TAG_LENGTH` -/
def ivLength : Nat := 12

def authTagLength : Nat := 16

def Key := { secret : Bytes // secret.length = 32 }

def Iv := { iv : Bytes // iv.length = ivLength }

/-- HMAC and AES-256-GCM: sealed bytes end with the tag, and only they are opened. -/
structure Primitives where
  hmac : Digest → Bytes → Bytes → Bytes
  hmac_length : ∀ digest secret data, (hmac digest secret data).length = digest.size
  encrypt : Key → Iv → Bytes → Bytes
  decrypt : Key → Iv → Bytes → Option Bytes
  encrypt_length : ∀ key iv message, (encrypt key iv message).length = message.length + authTagLength
  decrypt_encrypt : ∀ key iv message, decrypt key iv (encrypt key iv message) = some message

/-! ## 3. The verifier -/

/-- How the payload is encoded. -/
inductive Encoding where
  | strict
  | urlSafe
  | urlSafePadded
deriving DecidableEq, Repr

def Encoding.encode : Encoding → Bytes → List Char
  | .strict => Lib.Base64.encode
  | .urlSafe => urlsafeEncodeUnpadded
  | .urlSafePadded => urlsafeEncodePadded

inductive MessageVerifier where
  | mk (secret : Bytes) (digest : Digest) (encoding : Encoding) (serializer : Serializer)
      (rotations : List MessageVerifier)

namespace MessageVerifier

def secret : MessageVerifier → Bytes
  | mk secret _ _ _ _ => secret

def digest : MessageVerifier → Digest
  | mk _ digest _ _ _ => digest

def encoding : MessageVerifier → Encoding
  | mk _ _ encoding _ _ => encoding

def serializer : MessageVerifier → Serializer
  | mk _ _ _ serializer _ => serializer

def rotations : MessageVerifier → List MessageVerifier
  | mk _ _ _ _ rotations => rotations

variable (P : Primitives) (clock : Clock) (self : MessageVerifier)

def hexLength : Nat := 2 * self.digest.size

def hexDigest (data : List Char) : List Char := hexEncode (P.hmac self.digest self.secret (utf8 data))

def sign (serialized : Bytes) : List Char :=
  let encoded := self.encoding.encode serialized
  encoded ++ ("--".toList ++ self.hexDigest P encoded)

/-- `generate`; none where the serializer panics. -/
def generate (value : Json) (purpose : Option (List Char)) (expiresAt : Option Int) : Option (List Char) :=
  (serializeWithMetadata clock self.serializer value purpose expiresAt).map (self.sign P)

/-- `extract_encoded` -/
def extractEncoded (signed : List Char) : Option (List Char) :=
  if byteLength signed < self.hexLength + 2 then none
  else
    match splitBytes (byteLength signed - (self.hexLength + 2)) signed with
    | none => none
    | some (encoded, rest) =>
      if rest.take 2 ≠ "--".toList then none
      else if isBlank encoded ∨ isBlank (rest.drop 2) then none
      else if rest.drop 2 = self.hexDigest P encoded then some encoded
      else none

def readMessage (message : List Char) (purpose : Option (List Char)) (now : Int) : Except MessageError Json := do
  let encoded ← okOr (self.extractEncoded P message) .invalidSignature
  let decoded ← okOr (urlsafeDecode encoded) .invalidSignature
  deserializeWithMetadata clock self.serializer decoded purpose now urlsafeDecode

/-- The first rotation that reads the message or fails otherwise than by its format. -/
def rotate (message : List Char) (purpose : Option (List Char)) (now : Int) (error : MessageError) :
    List MessageVerifier → Except MessageError Json
  | [] => .error error
  | rotation :: rest =>
    match rotation.readMessage P clock message purpose now with
    | .error e => if e.rotates then rotate message purpose now error rest else .error e
    | .ok value => .ok value

def verify (message : List Char) (purpose : Option (List Char)) (now : Int) : Except MessageError Json :=
  match self.readMessage P clock message purpose now with
  | .error error => if error.rotates then rotate P clock message purpose now error self.rotations else .error error
  | .ok value => .ok value

end MessageVerifier

/-! ## 4. The encryptor -/

/-- `ENCODED_IV_LENGTH` and `ENCODED_AUTH_TAG_LENGTH` -/
def encodedIvLength : Nat := 16

def encodedAuthTagLength : Nat := 24

structure MessageEncryptor where
  key : Key
  serializer : Serializer

/-- `extract_parts` -/
def extractParts (message : List Char) : Option (List Char × List Char × List Char) :=
  if byteLength message < encodedAuthTagLength + (2 + encodedIvLength) + 2 then none
  else do
    let (ciphertext, rest) ← splitBytes (byteLength message - (encodedAuthTagLength + (2 + encodedIvLength) + 2)) message
    let (dashes, rest) ← splitBytes 2 rest
    let (iv, rest) ← splitBytes encodedIvLength rest
    let (dashes', tag) ← splitBytes 2 rest
    if dashes = "--".toList ∧ dashes' = "--".toList then some (ciphertext, iv, tag) else none

namespace MessageEncryptor

variable (P : Primitives) (clock : Clock) (self : MessageEncryptor)

def encryptWithIv (plaintext : Bytes) (iv : Iv) : List Char :=
  let sealed := P.encrypt self.key iv plaintext
  let n := sealed.length - authTagLength
  Lib.Base64.encode (sealed.take n) ++ ("--".toList ++
    (Lib.Base64.encode iv.1 ++ ("--".toList ++ Lib.Base64.encode (sealed.drop n))))

/-- `encrypt_and_sign`, of the IV drawn for it. -/
def encryptAndSign (iv : Iv) (value : Json) (purpose : Option (List Char)) (expiresAt : Option Int) :
    Option (List Char) :=
  (serializeWithMetadata clock self.serializer value purpose expiresAt).map fun plaintext =>
    self.encryptWithIv P plaintext iv

def decrypt (message : List Char) : Option Bytes := do
  let (ciphertext, iv, tag) ← extractParts message
  let ciphertext ← Lib.Base64.decode ciphertext
  let iv ← Lib.Base64.decode iv
  let tag ← Lib.Base64.decode tag
  if h : iv.length = ivLength then
    if tag.length = authTagLength then P.decrypt self.key ⟨iv, h⟩ (ciphertext ++ tag) else none
  else none

def decryptAndVerify (message : List Char) (purpose : Option (List Char)) (now : Int) : Except MessageError Json := do
  let plaintext ← okOr (self.decrypt P message) .invalidSignature
  deserializeWithMetadata clock self.serializer plaintext purpose now Lib.Base64.decode

end MessageEncryptor

end Smartfire.RailsCompat
