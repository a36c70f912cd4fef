/-
  File:      Smartfire/Kit/Cookies.lean
  Subject:   The cookie jar of a request (crates/kit/src/cookies.rs), and the escaping of its values
             (crates/rails_compat/src/cookies.rs).

  Text is its UTF-8 bytes. Signing, encryption and dates are parameters; a time is taken as the clock gave it.

  * `escape`, `parseCookieHeader` -- a value on the wire and back;
  * `CookieJar`, `set`, `setSigned`, `setEncrypted`, `deleteWith` -- the jar;
  * `setCookieHeader`, `deleteCookieHeader`, `setCookieHeaders` -- what the response says.
-/
import Smartfire.Lib.Assoc
import Smartfire.Kit.QueryString

namespace Smartfire.Cookies

open Lib

/-! ## 1. Values on the wire -/

def standsForItself (b : UInt8) : Bool :=
  (byte 'a' ≤ b && b ≤ byte 'z') || (byte 'A' ≤ b && b ≤ byte 'Z') || (byte '0' ≤ b && b ≤ byte '9') ||
    b ∈ text "*-._"

def escape (raw : Bytes) : Bytes :=
  raw.flatMap fun b =>
    if standsForItself b then [b]
    else if b = byte ' ' then [byte '+']
    else [byte '%', upperHex (b / 16), upperHex (b % 16)]

/-- The parts between semicolons, the spaces in front of all but the first left out, and no empty one. -/
def cookieParts (header : Bytes) : List Bytes :=
  ((header.splitOn (byte ';')).mapIdx fun i part =>
    if i = 0 then part else part.dropWhile (· = byte ' ')).filter (! ·.isEmpty)

/-- Name and value, the value as it stands. -/
def cookiePair (part : Bytes) : Bytes × Bytes := (splitOnce (byte '=') part).getD (part, [])

/-- A value that cannot be decoded is taken as it stands. -/
def decodedValue (value : Bytes) : Bytes :=
  match decodeComponent value with
  | some bytes => if validUtf8 bytes then bytes else value
  | none => value

def parseCookieHeader (header : Bytes) : List (Bytes × Bytes) :=
  (Assoc.firstWins [] ((cookieParts header).map cookiePair)).map fun e => (e.1, decodedValue e.2)

/-! ## 2. The jar -/

inductive SameSite where
  | lax
  | strict
  | none
deriving DecidableEq

structure Cookie (T : Type) where
  value : Str
  path : Bytes
  domain : Option Bytes
  expires : Option T
  permanent : Bool
  secure : Bool
  httponly : Bool
  sameSite : Option SameSite
  partitioned : Bool

structure DeleteOptions where
  path : Bytes
  domain : Option Bytes
  sameSite : Option SameSite

/-- `Cookie::new`. -/
def Cookie.new {T : Type} (value : Str) : Cookie T :=
  ⟨value, text "/", none, none, false, false, false, some .lax, false⟩

/-- `DeleteOptions::default`. -/
def DeleteOptions.default : DeleteOptions := ⟨text "/", none, some .lax⟩

/-- What the jar is given: the crypto, and the dates of the clock's crate. -/
structure Setting (T V : Type) where
  signCookie : Bytes → Bytes → Option T → Str
  encryptCookie : Bytes → V → Option T → Str
  yearsFrom : T → Nat → T
  httpdate : T → Bytes
  unixEpoch : T

structure CookieJar (T : Type) where
  cookies : List (Bytes × Bytes)
  setCookies : List (Bytes × Cookie T)
  deleteCookies : List (Bytes × DeleteOptions)

def maxCookieSize : Nat := 4096

def permanentYears : Nat := 20

/-- The names seen in one header stay seen in the next. -/
def fromHeaders {T : Type} (headers : List Bytes) : CookieJar T :=
  ⟨Assoc.firstWins [] (headers.flatMap parseCookieHeader), [], []⟩

/-- An error's text. -/
def checkForOverflow (name value : Bytes) : Except Bytes Unit :=
  let total := name.length + value.length
  if total > maxCookieSize then
    .error (name ++ text " cookie overflowed with size " ++ text (toString total) ++ text " bytes")
  else .ok ()

namespace CookieJar

variable {T V : Type}

def get (jar : CookieJar T) (name : Bytes) : Option Bytes := Assoc.get jar.cookies name

def resolveExpiry (env : Setting T V) (now : T) (cookie : Cookie T) : Cookie T :=
  if cookie.permanent then { cookie with expires := some (env.yearsFrom now permanentYears) } else cookie

def writeValue (jar : CookieJar T) (name : Bytes) (cookie : Cookie T) : CookieJar T :=
  if jar.get name ≠ some cookie.value.bytes ∨ cookie.expires.isSome then
    { cookies := Assoc.upsert jar.cookies name cookie.value.bytes
      setCookies := Assoc.upsert jar.setCookies name cookie
      deleteCookies := jar.deleteCookies.filter (·.1 ≠ name) }
  else jar

def set (env : Setting T V) (now : T) (jar : CookieJar T) (name : Bytes) (cookie : Cookie T) : CookieJar T :=
  jar.writeValue name (resolveExpiry env now cookie)

/-- The jar is as it was where the value is too long. -/
def writeChecked (jar : CookieJar T) (name : Bytes) (cookie : Cookie T) : Except Bytes Unit × CookieJar T :=
  match checkForOverflow name cookie.value.bytes with
  | .error e => (.error e, jar)
  | .ok () => (.ok (), jar.writeValue name cookie)

theorem writeChecked_cases (jar : CookieJar T) (name : Bytes) (cookie : Cookie T) :
    (∃ e, jar.writeChecked name cookie = (.error e, jar)) ∨
      jar.writeChecked name cookie = (.ok (), jar.writeValue name cookie) := by
  unfold writeChecked
  rcases checkForOverflow name cookie.value.bytes with e | ⟨⟩
  · exact .inl ⟨e, rfl⟩
  · exact .inr rfl

def setSigned (env : Setting T V) (now : T) (jar : CookieJar T) (name : Bytes) (cookie : Cookie T) :
    Except Bytes Unit × CookieJar T :=
  let cookie := resolveExpiry env now cookie
  jar.writeChecked name { cookie with value := env.signCookie name cookie.value.bytes cookie.expires }

def setEncrypted (env : Setting T V) (now : T) (jar : CookieJar T) (name : Bytes) (value : V)
    (cookie : Cookie T) : Except Bytes Unit × CookieJar T :=
  let cookie := resolveExpiry env now cookie
  jar.writeChecked name { cookie with value := env.encryptCookie name value cookie.expires }

def deleteWith (jar : CookieJar T) (name : Bytes) (options : DeleteOptions) : CookieJar T :=
  if (jar.cookies.find? (·.1 = name)).isSome then
    { jar with
      cookies := jar.cookies.eraseP (·.1 = name)
      deleteCookies := Assoc.upsert jar.deleteCookies name options }
  else jar

end CookieJar

/-! ## 3. What the response says -/

def sameSiteAttribute : Option SameSite → Bytes
  | none => []
  | some .lax => text "; samesite=lax"
  | some .strict => text "; samesite=strict"
  | some .none => text "; samesite=none"

section Headers

variable {T V : Type} (env : Setting T V)

def setCookieHeader (name : Bytes) (cookie : Cookie T) : Bytes :=
  name ++ text "=" ++ escape cookie.value.bytes ++
    (match cookie.domain with
      | some domain => text "; domain=" ++ domain
      | none => []) ++
    text "; path=" ++ cookie.path ++
    (match cookie.expires with
      | some expires => text "; expires=" ++ env.httpdate expires
      | none => []) ++
    (if cookie.secure then text "; secure" else []) ++
    (if cookie.httponly then text "; httponly" else []) ++
    sameSiteAttribute cookie.sameSite ++
    (if cookie.partitioned then text "; partitioned" else [])

def deleteCookieHeader (name : Bytes) (options : DeleteOptions) : Bytes :=
  name ++ text "=" ++
    (match options.domain with
      | some domain => text "; domain=" ++ domain
      | none => []) ++
    text "; path=" ++ options.path ++ text "; max-age=0; expires=" ++ env.httpdate env.unixEpoch ++
    sameSiteAttribute options.sameSite

/-- Over plain HTTP a secure cookie is not told, but to an onion service. -/
def CookieJar.setCookieHeaders (jar : CookieJar T) (ssl : Bool) (host : Bytes) : List Bytes :=
  ((jar.setCookies.filter fun e => ssl || !e.2.secure || (text ".onion").isSuffixOf host).map fun e =>
      setCookieHeader env e.1 e.2) ++
    jar.deleteCookies.map fun e => deleteCookieHeader env e.1 e.2

end Headers

/-! ## 4. A value comes back -/

theorem escapes_escape (s : Bytes) : Escapes s (escape s) := by
  have hbyte : ∀ n : Fin 256, (standsForItself (UInt8.ofNat n) = true → UInt8.ofNat n ∉ reserved) ∧
      hexValue (upperHex (UInt8.ofNat n / 16)) = some (UInt8.ofNat n / 16) ∧
      hexValue (upperHex (UInt8.ofNat n % 16)) = some (UInt8.ofNat n % 16) ∧
      UInt8.ofNat n / 16 * 16 + UInt8.ofNat n % 16 = UInt8.ofNat n := by decide +kernel
  induction s with
  | nil => exact .nil
  | cons b s ih =>
    obtain ⟨hplain, hhigh, hlow, hsum⟩ : _ ∧ _ ∧ _ ∧ _ := by
      simpa only [UInt8.ofNat_toNat] using hbyte ⟨b.toNat, b.toNat_lt⟩
    rw [escape, List.flatMap_cons]
    split
    · next hb => exact .raw (hplain hb) ih
    split
    · next hb =>
      subst hb
      exact .plus ih
    · have hescape := Escapes.hex hhigh hlow ih
      rwa [hsum] at hescape

/-- **What is escaped is read back.** -/
theorem decodedValue_escape (s : Str) : decodedValue (escape s.bytes) = s.bytes := by
  rw [decodedValue, decodeComponent_escapes (escapes_escape s.bytes)]
  simp [s.utf8]

/-- An escaped value holds no semicolon. -/
theorem semicolon_not_mem_escape (s : Bytes) : byte ';' ∉ escape s := by
  have hbyte : ∀ n : Fin 256, byte ';' ∉ (if standsForItself (UInt8.ofNat n) then [UInt8.ofNat n]
      else if UInt8.ofNat n = byte ' ' then [byte '+']
      else [byte '%', upperHex (UInt8.ofNat n / 16), upperHex (UInt8.ofNat n % 16)]) := by decide +kernel
  rw [escape, List.mem_flatMap]
  rintro ⟨b, -, hb⟩
  have hno := hbyte ⟨b.toNat, b.toNat_lt⟩
  simp only [UInt8.ofNat_toNat] at hno
  exact hno hb

example : escape (text "a b+c/=") = text "a+b%2Bc%2F%3D" := by decide +kernel

/-- What stands in a header under a name, before the value is decoded. -/
theorem get_flatMap_parseCookieHeader (headers : List Bytes) (name : Bytes) :
    Assoc.get (headers.flatMap parseCookieHeader) name =
      (Assoc.get (headers.flatMap fun header => (cookieParts header).map cookiePair) name).map decodedValue := by
  induction headers with
  | nil => rfl
  | cons header rest ih =>
    have hone : Assoc.get (parseCookieHeader header) name =
        (Assoc.get ((cookieParts header).map cookiePair) name).map decodedValue := by
      rw [parseCookieHeader, Assoc.get_map fun _ => decodedValue, Assoc.get_firstWins]
      simp
    rw [List.flatMap_cons, List.flatMap_cons, Assoc.get_append, Assoc.get_append, ih, hone, Option.map_or]

/-- **The jar of a request has the first value under each name, decoded.** -/
theorem get_fromHeaders {T : Type} (headers : List Bytes) (name : Bytes) :
    (fromHeaders headers : CookieJar T).get name =
      (Assoc.get (headers.flatMap fun header => (cookieParts header).map cookiePair) name).map decodedValue := by
  rw [CookieJar.get, fromHeaders, Assoc.get_firstWins]
  simpa using get_flatMap_parseCookieHeader headers name

end Smartfire.Cookies
