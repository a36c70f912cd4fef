/-
  File:      Smartfire/Net/Uri.lean
  Subject:   Parsing and printing a URL (crates/richtext/src/uri.rs).

  A text is its characters; `parse` refuses what is not ASCII before anything else. A scan that gives an
  offset gives here what it passed and what is left. Whether a bracketed address is an IPv6 address is the
  standard library's to say, and a parameter.

  * `takeWhileClass` -- escapes and characters of a class, as many as there are;
  * `splitAbsolute`, `parseAuthority`, `splitRelative`, `escapeQuery`, `parse` -- the parser;
  * `Uri.toS` -- the printer;
  * `Escaped`, `takeWhileClass_append` -- texts of a class, which the scan passes whole.
-/
import Mathlib.Algebra.Order.Ring.Int
import Smartfire.Lib.Digits

namespace Smartfire

namespace Net

open Lib

/-! ## 1. Characters -/

def within (lo hi c : Char) : Bool := lo.toNat ≤ c.toNat && c.toNat ≤ hi.toNat

def isHexDigit (c : Char) : Bool := c.isDigit || within 'a' 'f' c || within 'A' 'F' c

def isAlphabetic (c : Char) : Bool := within 'a' 'z' c || within 'A' 'Z' c

def isUnreservedOrSub (c : Char) : Bool :=
  c = '!' || c = '$' || within '&' '.' c || within '0' '9' c || c = ';' || c = '=' || within 'A' 'Z' c || c = '_' ||
    within 'a' 'z' c || c = '~'

def segChar (c : Char) : Bool := isUnreservedOrSub c || c = ':' || c = '@' || c = '/'

def segNcChar (c : Char) : Bool := isUnreservedOrSub c || c = '@'

def fragmentChar (c : Char) : Bool := isUnreservedOrSub c || c = ':' || c = '@' || c = '/' || c = '?'

def userinfoChar (c : Char) : Bool := isUnreservedOrSub c || c = ':'

/-- Escapes and characters of a class, as many as there are, and what is left. -/
def takeWhileClass (cls : Char → Bool) : List Char → List Char × List Char
  | [] => ([], [])
  | [c] => if cls c then ([c], []) else ([], [c])
  | [c, a] => if cls c then ((c :: (takeWhileClass cls [a]).1), (takeWhileClass cls [a]).2) else ([], [c, a])
  | c :: a :: b :: rest =>
    if c = '%' && isHexDigit a && isHexDigit b then
      (c :: a :: b :: (takeWhileClass cls rest).1, (takeWhileClass cls rest).2)
    else if cls c then (c :: (takeWhileClass cls (a :: b :: rest)).1, (takeWhileClass cls (a :: b :: rest)).2)
    else ([], c :: a :: b :: rest)

/-! ## 2. A URL -/

inductive UriError where
  | invalidUri
  | invalidComponent
deriving DecidableEq

structure Uri where
  scheme : Option (List Char)
  userinfo : Option (List Char)
  host : Option (List Char)
  port : Option Nat
  path : Option (List Char)
  opaquePart : Option (List Char)
  query : Option (List Char)
  fragment : Option (List Char)
deriving DecidableEq

def toLower (c : Char) : Char := if within 'A' 'Z' c then Char.ofNat (c.toNat + 32) else c

/-- Two schemes but for case. -/
def sameScheme (scheme : List Char) (name : String) : Bool := scheme.map toLower = name.toList

namespace Uri

def hasScheme (uri : Uri) (name : String) : Bool := uri.scheme.any fun s => sameScheme s name

def isHttp (uri : Uri) : Bool := uri.hasScheme "http" || uri.hasScheme "https"

def defaultPort (uri : Uri) : Option Nat :=
  if uri.hasScheme "http" || uri.hasScheme "ws" then some 80
  else if uri.hasScheme "https" || uri.hasScheme "wss" then some 443
  else if uri.hasScheme "ftp" then some 21
  else if uri.hasScheme "ldap" then some 389
  else if uri.hasScheme "ldaps" then some 636
  else none

/-- A part behind its mark, if there is one. -/
def withMark (mark : Char) (part : Option (List Char)) : List Char := (part.map (mark :: ·)).getD []

def portText (uri : Uri) : List Char :=
  match uri.port with
  | some port => if some port ≠ uri.defaultPort then ':' :: Nat.toDigits 10 port else []
  | none => []

/-- What stands behind the scheme's colon, but for the fragment. -/
def body (uri : Uri) : List Char :=
  match uri.opaquePart with
  | some text => text
  | none =>
    (if uri.host.isSome ∨ uri.scheme = some "file".toList ∨ uri.scheme = some "postgres".toList then ['/', '/']
      else []) ++
      ((uri.userinfo.map (· ++ ['@'])).getD [] ++ (uri.host.getD [] ++ (uri.portText ++
        (uri.path.getD [] ++ withMark '?' uri.query))))

/-- `to_s` -/
def toS (uri : Uri) : List Char :=
  (uri.scheme.map (· ++ [':'])).getD [] ++ (uri.body ++ withMark '#' uri.fragment)

end Uri

/-! ## 3. The parser -/

/-- What stands in front of a query or a fragment, and these two. -/
structure Tail where
  hier : List Char
  query : Option (List Char)
  fragment : Option (List Char)

def splitFragment (text : List Char) : Option (Option (List Char)) :=
  match text with
  | [] => some none
  | _ :: rest => if (takeWhileClass fragmentChar rest).2 = [] then some (some rest) else none

/-- `parse_query_fragment_positions` -/
def parseQueryFragment (s : List Char) : Option Tail :=
  let hier := s.takeWhile fun c => c ≠ '?' && c ≠ '#'
  match s.dropWhile fun c => c ≠ '?' && c ≠ '#' with
  | '?' :: rest =>
    (splitFragment (rest.dropWhile (· ≠ '#'))).map fun fragment => ⟨hier, some (rest.takeWhile (· ≠ '#')), fragment⟩
  | rest => (splitFragment rest).map fun fragment => ⟨hier, none, fragment⟩

section Parser

variable (isIpv6 : List Char → Bool)

/-- What stands in the brackets of a bracketed address. -/
def validLiteral (inner : List Char) : Bool :=
  match inner with
  | 'v' :: future | 'V' :: future =>
    let hex := future.takeWhile (· ≠ '.')
    match future.dropWhile (· ≠ '.') with
    | _ :: rest =>
      hex ≠ [] && hex.all isHexDigit && rest ≠ [] && rest.all fun c => isUnreservedOrSub c || c = ':'
    | [] => false
  | _ => isIpv6 inner && !inner.contains '%'

/-- A bracketed address, and what is behind it. -/
def ipLiteral : List Char → Option (List Char × List Char)
  | '[' :: rest =>
    match rest.dropWhile (· ≠ ']') with
    | _ :: behind =>
      if validLiteral isIpv6 (rest.takeWhile (· ≠ ']')) then some ('[' :: (rest.takeWhile (· ≠ ']') ++ [']']), behind)
      else none
    | [] => none
  | _ => none

structure Authority where
  userinfo : Option (List Char)
  host : List Char
  port : Option Nat
  /-- What is behind it. -/
  path : List Char

/-- A port's digits: a number that is too large is the largest. -/
def parsePort (digits : List Char) : Option Nat :=
  if digits = [] then none else some (min (digitsValue digits) (2 ^ 64 - 1))

/-- A port behind its colon, if there is one, and what is left. -/
def splitPort : List Char → Option Nat × List Char
  | ':' :: rest => (parsePort (rest.takeWhile Char.isDigit), rest.dropWhile Char.isDigit)
  | rest => (none, rest)

def splitUserinfo (s : List Char) : Option (List Char) × List Char :=
  match (takeWhileClass userinfoChar s).2 with
  | '@' :: rest => (some (takeWhileClass userinfoChar s).1, rest)
  | _ => (none, s)

def splitHost (s : List Char) : List Char × List Char := (ipLiteral isIpv6 s).getD (takeWhileClass isUnreservedOrSub s)

def parseAuthority (s : List Char) : Option Authority :=
  let (userinfo, rest) := splitUserinfo s
  let (host, rest) := splitHost isIpv6 rest
  let (port, rest) := splitPort rest
  if rest = [] ∨ rest.head? = some '/' then some ⟨userinfo, host, port, rest⟩ else none

def isSchemeChar (c : Char) : Bool := isAlphabetic c || c.isDigit || c = '+' || c = '-' || c = '.'

/-- The part of a URL behind its scheme's colon. -/
def splitHier (scheme : List Char) (tail : Tail) : Option Uri :=
  let uri : Uri := ⟨some scheme, none, none, none, none, none, tail.query, tail.fragment⟩
  match tail.hier with
  | '/' :: '/' :: rest => do
    let authority ← parseAuthority isIpv6 rest
    if authority.path ≠ [] ∧
        (authority.path.head? ≠ some '/' ∨ (takeWhileClass segChar authority.path).2 ≠ []) then none
    else some { uri with
      userinfo := authority.userinfo
      host := some authority.host
      port := authority.port
      path := some authority.path }
  | [] => some { uri with path := some [] }
  | '/' :: rest =>
    if (takeWhileClass segChar ('/' :: rest)).2 ≠ [] then none else some { uri with path := some ('/' :: rest) }
  | hier =>
    if (takeWhileClass segChar hier).2 ≠ [] then none
    else some { uri with query := none, opaquePart := some (hier ++ Uri.withMark '?' tail.query) }

def splitAbsolute (value : List Char) : Option Uri :=
  match value with
  | [] => none
  | c :: _ =>
    if !isAlphabetic c then none
    else match value.dropWhile isSchemeChar with
      | ':' :: rest => do
        let tail ← parseQueryFragment rest
        splitHier isIpv6 (value.takeWhile isSchemeChar) tail
      | _ => none

def validRelative (hier : List Char) : Bool :=
  match hier with
  | '/' :: '/' :: rest =>
    match parseAuthority isIpv6 rest with
    | some authority => (takeWhileClass segChar authority.path).2 = []
    | none => false
  | [] => true
  | '/' :: rest => (takeWhileClass segChar ('/' :: rest)).2 = []
  | hier =>
    let (first, rest) := takeWhileClass segNcChar hier
    first ≠ [] && (rest = [] || (rest.head? = some '/' && (takeWhileClass segChar rest).2 = []))

def splitRelative (value : List Char) : Option Uri := do
  let tail ← parseQueryFragment value
  if validRelative isIpv6 tail.hier then
    some ⟨none, none, none, none, some tail.hier, none, tail.query, tail.fragment⟩
  else none

/-- Whether a `%` is followed by two characters that are no digits. -/
def badEscape : List Char → Bool
  | '%' :: a :: b :: rest => (!isHexDigit a && !isHexDigit b) || badEscape (a :: b :: rest)
  | _ :: rest => badEscape rest
  | [] => false

def queryChar (c : Char) : Bool :=
  c = '!' || within '$' '&' c || within '(' ';' c || c = '=' || within '?' '_' c || within 'a' '~' c

def upperHex (n : Nat) : Char := "0123456789ABCDEF".toList.getD n '0'

def percentEncode (c : Char) : List Char := ['%', upperHex (c.toNat / 16), upperHex (c.toNat % 16)]

/-- `query=`. That a character starts an escape changes nothing: `%` stays as it is. -/
def escapeQuery (query : List Char) : Except UriError (List Char) :=
  let cleaned := query.filter fun c => c ≠ '\t' && c ≠ '\r' && c ≠ '\n'
  if badEscape cleaned then .error .invalidUri
  else .ok (cleaned.flatMap fun c => if queryChar c then [c] else percentEncode c)

/-- `/\A(?:[^@,;]+@[^@,;]+(?:\z|[,;]))*\z/` -/
def mailtoToValid : Nat → List Char → Bool
  | _, [] => true
  | 0, _ :: _ => false
  | fuel + 1, text =>
    let special := fun c => c = '@' || c = ',' || c = ';'
    match text.dropWhile (!special ·) with
    | '@' :: rest =>
      text.takeWhile (!special ·) ≠ [] && rest.takeWhile (!special ·) ≠ [] &&
        match rest.dropWhile (!special ·) with
        | [] => true
        | c :: rest => c ≠ '@' && mailtoToValid fuel rest
    | _ => false

/-- The initializers of the scheme classes that can raise. -/
def checkSchemeClass (uri : Uri) : Except UriError Unit :=
  if uri.hasScheme "mailto" then
    match uri.opaquePart <|> uri.query.map ('?' :: ·) with
    | none => .error .invalidComponent
    | some text =>
      let receivers := text.takeWhile (· ≠ '?')
      if mailtoToValid receivers.length receivers then .ok () else .error .invalidComponent
  else if uri.hasScheme "ldap" || uri.hasScheme "ldaps" then
    if uri.fragment.isSome || uri.path.isNone then .error .invalidUri else .ok ()
  else if uri.hasScheme "ftp" then
    if uri.path.isNone then .error .invalidUri else .ok ()
  else .ok ()

def isAscii (value : List Char) : Bool := value.all fun c => c.toNat < 128

/-- What is done with the parts that are split off: `query=`, the default port, the scheme class. -/
def assign (uri : Uri) : Except UriError Uri := do
  let query ← match uri.query with
    | some query => (escapeQuery query).map some
    | none => .ok none
  let uri := { uri with query := query }
  let uri := { uri with port := uri.port <|> uri.defaultPort }
  checkSchemeClass uri
  .ok uri

/-- `URI.parse(value)` -/
def parse (value : List Char) : Except UriError Uri :=
  if !isAscii value then .error .invalidUri
  else match splitAbsolute isIpv6 value <|> splitRelative isIpv6 value with
    | none => .error .invalidUri
    | some uri => assign uri

end Parser

/-! ## 4. Texts of a class -/

/-- Escapes and characters of a class. -/
inductive Escaped (cls : Char → Bool) : List Char → Prop where
  | nil : Escaped cls []
  | pct {a b : Char} {rest : List Char} (ha : isHexDigit a = true) (hb : isHexDigit b = true) (h : Escaped cls rest) :
      Escaped cls ('%' :: a :: b :: rest)
  | char {c : Char} {rest : List Char} (hc : cls c = true) (h : Escaped cls rest) : Escaped cls (c :: rest)

/-- What a scan of a class doesn't go on with. -/
def Stops (cls : Char → Bool) (rest : List Char) : Prop := ∀ c ∈ rest.head?, cls c = false ∧ c ≠ '%'

section Classes

variable {cls cls' : Char → Bool} {s t rest : List Char} {c a b : Char}

theorem stops_nil : Stops cls [] := by
  intro c hc
  cases hc

theorem stops_cons (hc : cls c = false) (hp : c ≠ '%') : Stops cls (c :: rest) := by
  intro d hd
  cases hd
  exact ⟨hc, hp⟩

theorem takeWhileClass_pct (ha : isHexDigit a = true) (hb : isHexDigit b = true) :
    takeWhileClass cls ('%' :: a :: b :: rest) =
      ('%' :: a :: b :: (takeWhileClass cls rest).1, (takeWhileClass cls rest).2) := by
  rw [takeWhileClass, if_pos (by simp [ha, hb])]

theorem takeWhileClass_char (hc : cls c = true) (hp : c ≠ '%') :
    takeWhileClass cls (c :: rest) = (c :: (takeWhileClass cls rest).1, (takeWhileClass cls rest).2) := by
  match rest with
  | [] => simp [takeWhileClass, hc]
  | [a] => simp [takeWhileClass, hc]
  | a :: b :: rest => rw [takeWhileClass, if_neg (by simp [hp]), if_pos hc]

theorem takeWhileClass_stop (h : Stops cls rest) : takeWhileClass cls rest = ([], rest) := by
  match rest with
  | [] => rfl
  | [c] => rw [takeWhileClass, if_neg (by simp [(h c rfl).1])]
  | [c, a] => rw [takeWhileClass, if_neg (by simp [(h c rfl).1])]
  | c :: a :: b :: rest => rw [takeWhileClass, if_neg (by simp [(h c rfl).2]), if_neg (by simp [(h c rfl).1])]

/-- **A text of the class is passed whole, up to what stops the scan.** -/
theorem takeWhileClass_append (hcls : cls '%' = false) (h : Escaped cls s) (hstop : Stops cls rest) :
    takeWhileClass cls (s ++ rest) = (s, rest) := by
  induction h with
  | nil => exact takeWhileClass_stop hstop
  | pct ha hb _ ih => rw [List.cons_append, List.cons_append, List.cons_append, takeWhileClass_pct ha hb, ih]
  | @char c s hc _ ih =>
    have hp : c ≠ '%' := by
      rintro rfl
      rw [hcls] at hc
      cases hc
    rw [List.cons_append, takeWhileClass_char hc hp, ih]

/-- What is passed is of the class, and nothing is lost. -/
theorem takeWhileClass_spec (cls : Char → Bool) (s : List Char) :
    Escaped cls (takeWhileClass cls s).1 ∧ (takeWhileClass cls s).1 ++ (takeWhileClass cls s).2 = s := by
  induction s using takeWhileClass.induct cls with
  | case1 => exact ⟨.nil, rfl⟩
  | case2 c hc => rw [takeWhileClass, if_pos hc]; exact ⟨.char hc .nil, rfl⟩
  | case3 c hc => rw [takeWhileClass, if_neg hc]; exact ⟨.nil, rfl⟩
  | case4 c a hc ih => rw [takeWhileClass, if_pos hc]; exact ⟨.char hc ih.1, by rw [List.cons_append, ih.2]⟩
  | case5 c a hc => rw [takeWhileClass, if_neg hc]; exact ⟨.nil, rfl⟩
  | case6 c a b rest hpct ih =>
    rw [takeWhileClass, if_pos hpct]
    simp only [Bool.and_eq_true, decide_eq_true_eq] at hpct
    obtain ⟨⟨rfl, ha⟩, hb⟩ := hpct
    exact ⟨.pct ha hb ih.1, by rw [List.cons_append, List.cons_append, List.cons_append, ih.2]⟩
  | case7 c a b rest hpct hc ih =>
    rw [takeWhileClass, if_neg hpct, if_pos hc]
    exact ⟨.char hc ih.1, by rw [List.cons_append, ih.2]⟩
  | case8 c a b rest hpct hc => rw [takeWhileClass, if_neg hpct, if_neg hc]; exact ⟨.nil, rfl⟩

theorem escaped_of_whole (h : (takeWhileClass cls s).2 = []) : Escaped cls s := by
  obtain ⟨hescaped, heq⟩ := takeWhileClass_spec cls s
  rw [h, List.append_nil] at heq
  rwa [heq] at hescaped

theorem Escaped.whole (hcls : cls '%' = false) (h : Escaped cls s) : (takeWhileClass cls s).2 = [] := by
  have hstop : Stops cls [] := stops_nil
  have hscan := takeWhileClass_append hcls h hstop
  rw [List.append_nil] at hscan
  rw [hscan]

theorem Escaped.append (h : Escaped cls s) (h' : Escaped cls t) : Escaped cls (s ++ t) := by
  induction h with
  | nil => exact h'
  | pct ha hb _ ih => exact .pct ha hb ih
  | char hc _ ih => exact .char hc ih

theorem Escaped.mono (hsub : ∀ c, cls c = true → cls' c = true) (h : Escaped cls s) : Escaped cls' s := by
  induction h with
  | nil => exact .nil
  | pct ha hb _ ih => exact .pct ha hb ih
  | char hc _ ih => exact .char (hsub _ hc) ih

/-- At a character that is in no escape a text of the class is cut into two. -/
theorem Escaped.of_append_cons (hc : isHexDigit c = false) (hp : c ≠ '%') (h : Escaped cls (s ++ c :: t)) :
    Escaped cls s ∧ Escaped cls t := by
  generalize heq : s ++ c :: t = text at h
  induction h generalizing s with
  | nil => simp at heq
  | @pct a b rest ha hb hrest ih =>
    match s with
    | [] => exact absurd (List.cons.inj heq).1 hp
    | [d] =>
      obtain ⟨-, heq⟩ := List.cons.inj heq
      rw [← (List.cons.inj heq).1, hc] at ha
      cases ha
    | [d, e] =>
      obtain ⟨-, heq⟩ := List.cons.inj heq
      obtain ⟨-, heq⟩ := List.cons.inj heq
      rw [← (List.cons.inj heq).1, hc] at hb
      cases hb
    | d :: e :: f :: s =>
      obtain ⟨hd, heq⟩ := List.cons.inj heq
      obtain ⟨he, heq⟩ := List.cons.inj heq
      obtain ⟨hf, heq⟩ := List.cons.inj heq
      obtain ⟨hs, ht⟩ := ih heq
      rw [hd, he, hf]
      exact ⟨.pct ha hb hs, ht⟩
  | @char d rest hd hrest ih =>
    match s with
    | [] =>
      obtain ⟨-, rfl⟩ := List.cons.inj heq
      exact ⟨.nil, hrest⟩
    | e :: s =>
      obtain ⟨he, heq⟩ := List.cons.inj heq
      obtain ⟨hs, ht⟩ := ih heq
      rw [he]
      exact ⟨.char hd hs, ht⟩

/-- A character that is neither of the class nor of an escape is not in a text of the class. -/
theorem Escaped.notMem (h : Escaped cls s) (hc : cls c = false) (hhex : isHexDigit c = false) (hp : c ≠ '%') :
    c ∉ s := by
  induction h with
  | nil => exact List.not_mem_nil
  | pct ha hb _ ih =>
    simp only [List.mem_cons, not_or]
    refine ⟨hp, ?_, ?_, ih⟩ <;> rintro rfl
    · rw [hhex] at ha; cases ha
    · rw [hhex] at hb; cases hb
  | char hd _ ih =>
    rw [List.mem_cons, not_or]
    refine ⟨?_, ih⟩
    rintro rfl
    rw [hc] at hd
    cases hd

theorem isHexDigit_ascii (h : isHexDigit c = true) : c.toNat < 128 := by
  simp only [isHexDigit, within, Bool.or_eq_true, Bool.and_eq_true, decide_eq_true_eq, Char.isDigit] at h
  obtain (⟨-, h⟩ | ⟨-, h⟩) | ⟨-, h⟩ := h
  · exact Nat.lt_of_le_of_lt (show c.toNat ≤ 57 from h) (by decide)
  · exact Nat.lt_of_le_of_lt h (by decide)
  · exact Nat.lt_of_le_of_lt h (by decide)

theorem isUnreservedOrSub_ascii (h : isUnreservedOrSub c = true) : c.toNat < 128 := by
  simp only [isUnreservedOrSub, within, Bool.or_eq_true, Bool.and_eq_true, decide_eq_true_eq] at h
  have hle : c.toNat ≤ '~'.toNat := by
    obtain (((((((((rfl | rfl) | h) | h) | rfl) | rfl) | h) | rfl) | h) | rfl) := h
    all_goals first | decide | exact Nat.le_trans h.2 (by decide)
  exact Nat.lt_of_le_of_lt hle (by decide)

theorem Escaped.ascii (hcls : ∀ c, cls c = true → c.toNat < 128) (h : Escaped cls s) : isAscii s = true := by
  rw [isAscii, List.all_eq_true]
  induction h with
  | nil => exact fun c hc => absurd hc List.not_mem_nil
  | pct ha hb _ ih =>
    simp only [List.mem_cons, forall_eq_or_imp, decide_eq_true_eq] at ih ⊢
    exact ⟨by decide, isHexDigit_ascii ha, isHexDigit_ascii hb, ih⟩
  | char hc _ ih =>
    simp only [List.mem_cons, forall_eq_or_imp, decide_eq_true_eq] at ih ⊢
    exact ⟨hcls _ hc, ih⟩

end Classes

end Net

end Smartfire
