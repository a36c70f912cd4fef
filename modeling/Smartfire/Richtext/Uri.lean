/-
  File:      Smartfire/Richtext/Uri.lean
  Subject:   The protocol check of a URL attribute (crates/richtext/src/sanitizer.rs `allowed_uri`).

  Text is its characters. What a character outside ASCII lowers to, where it stands, is a parameter.

  * `rewrite` -- a text rewritten from left to right; `cgiUnescapeHtml`,
    `decodeNumericCharacterReferences`, `replaceAll` are its cases;
  * `allowedUri` -- the check;
  * `escapeValue` -- a URL attribute re-escaped;
  * `whatwgScheme` -- the scheme a URL parser reads, which decodes nothing;
  * **`whatwgScheme_allowed`** -- of a value that passed the check, as it was or re-escaped since, a URL
    parser reads no scheme but an allowed one.
-/
import Mathlib.Algebra.Order.Ring.Int
import Mathlib.Data.List.TakeWhile
import Mathlib.Tactic.Common

namespace Smartfire

abbrev Text := List Char

/-! ## 1. Characters -/

/-- /[`\u0000- \u007f\u0080-ā]/ -/
def isControlCharacter (c : Char) : Bool :=
  c = '\x60' || c.toNat ≤ 0x20 || c.toNat = 0x7F || (0x80 ≤ c.toNat && c.toNat ≤ 0x101)

def isAsciiAlpha (c : Char) : Bool := ('a' ≤ c && c ≤ 'z') || ('A' ≤ c && c ≤ 'Z')

def isAsciiDigit (c : Char) : Bool := '0' ≤ c && c ≤ '9'

def isAsciiHexDigit (c : Char) : Bool := isAsciiDigit c || ('a' ≤ c && c ≤ 'f') || ('A' ≤ c && c ≤ 'F')

/-- A character of a scheme. -/
def isSchemeChar (c : Char) : Bool := isAsciiAlpha c || isAsciiDigit c || c = '+' || c = '-' || c = '.'

def digitValue (c : Char) : Nat :=
  if isAsciiDigit c then c.toNat - '0'.toNat
  else if 'a' ≤ c then c.toNat - 'a'.toNat + 10
  else c.toNat - 'A'.toNat + 10

def radixValue (radix : Nat) (digits : Text) : Nat := digits.foldl (fun n c => n * radix + digitValue c) 0

/-- `char::from_u32` of what fits a `u32`. -/
def charFromU32 (n : Nat) : Option Char :=
  if n < 0xD800 || (0xDFFF < n && n < 0x110000) then some (Char.ofNat n) else none

/-- What lowers a character outside ASCII, between what is before and behind it. -/
abbrev Lowering := Text → Char → Text → Text

def lowerFrom (special : Lowering) : Text → Text → Text
  | _, [] => []
  | before, c :: rest =>
    (if c.toNat < 128 then [c.toLower] else special before c rest) ++ lowerFrom special (before ++ [c]) rest

/-- `str::to_lowercase` -/
def toLowercase (special : Lowering) (s : Text) : Text := lowerFrom special [] s

/-! ## 2. Rewriting -/

/-- What stands at the start of a text is replaced where `f` says so, else its first character is kept. -/
def rewriteFuel (f : Text → Option (Text × Nat)) : Nat → Text → Text
  | 0, _ => []
  | _ + 1, [] => []
  | fuel + 1, c :: rest =>
    match f (c :: rest) with
    | some (replacement, consumed) => replacement ++ rewriteFuel f fuel ((c :: rest).drop consumed)
    | none => c :: rewriteFuel f fuel rest

def rewrite (f : Text → Option (Text × Nat)) (s : Text) : Text := rewriteFuel f s.length s

/-- `str::replace` -/
def replaceAll (pattern replacement : Text) (s : Text) : Text :=
  rewrite (fun s => if pattern.isPrefixOf s then some (replacement, pattern.length) else none) s

def namedEntities : List (String × Char) :=
  [("&apos;", '\''), ("&amp;", '&'), ("&quot;", '"'), ("&gt;", '>'), ("&lt;", '<')]

/-- The code point a terminated numeric reference's body names. -/
def referenceCode : Text → Option Nat
  | '#' :: 'x' :: hex | '#' :: 'X' :: hex =>
    if !hex.isEmpty && hex.length ≤ 8 && hex.all isAsciiHexDigit then some (radixValue 16 hex) else none
  | '#' :: dec =>
    if !dec.isEmpty && dec.length ≤ 10 && dec.all isAsciiDigit && radixValue 10 dec < 2 ^ 32 then
      some (radixValue 10 dec)
    else none
  | _ => none

/-- `unescape_one`, at a `&`. -/
def unescapeOne (s : Text) : Option (Text × Nat) :=
  if s.head? ≠ some '&' then none
  else
    match namedEntities.find? fun (name, _) => name.toList.isPrefixOf s with
    | some (name, value) => some ([value], name.length)
    | none =>
      let body := (s.drop 1).takeWhile (· ≠ ';')
      if body.length + 1 < s.length then
        match (referenceCode body).bind charFromU32 with
        | some c => some ([c], body.length + 2)
        | none => none
      else none

def cgiUnescapeHtml (s : Text) : Text := rewrite unescapeOne s

/-- `&#(x[0-9a-f]+|[0-9]+);?`, which stays as it is where it names no character. -/
def numericReference : Text → Option (Text × Nat)
  | '&' :: '#' :: start =>
    let hex := start.head? = some 'x' || start.head? = some 'X'
    let behind := if hex then start.drop 1 else start
    let digits := behind.takeWhile fun c => if hex then isAsciiHexDigit c else isAsciiDigit c
    if digits.isEmpty then none
    else
      let terminated := (behind.drop digits.length).head? = some ';'
      let length := 2 + (if hex then 1 else 0) + digits.length + (if terminated then 1 else 0)
      let significant := digits.dropWhile (· = '0')
      let limit := if hex then 6 else 7
      let decoded :=
        if significant.length ≤ limit then charFromU32 (radixValue (if hex then 16 else 10) significant) else none
      match decoded with
      | some c => some ([c], length)
      | none => some (('&' :: '#' :: start).take length, length)
  | _ => none

def decodeNumericCharacterReferences (s : Text) : Text := rewrite numericReference s

/-! ## 3. The check -/

def allowedProtocols : List String :=
  ["afs", "aim", "callto", "data", "ed2k", "fax", "ftp", "gopher", "http", "https", "irc", "line",
    "mailto", "modem", "news", "nntp", "rsync", "rtsp", "sftp", "sms", "ssh", "tag", "tel",
    "telnet", "urn", "webcal", "xmpp"]

def allowedUriDataMediatypes : List String :=
  ["image/gif", "image/jpeg", "image/png", "text/css", "text/plain"]

def trimZeros (s : Text) : Text := s.dropWhile (· = '0')

/-- A separator stands here: `/:|(&#0*58)|(&#x0*3a)|(%|&#37;)3A/i` -/
def hasSeparator (s : Text) : Bool :=
  let lower := s.map Char.toLower
  ":".toList.isPrefixOf lower ||
  ("&#x".toList.isPrefixOf lower && "3a".toList.isPrefixOf (trimZeros (lower.drop 3))) ||
  ("&#".toList.isPrefixOf lower && "58".toList.isPrefixOf (trimZeros (lower.drop 2))) ||
  "%3a".toList.isPrefixOf lower ||
  "&#37;3a".toList.isPrefixOf lower

def isProtocolChar (c : Char) : Bool :=
  ('a' ≤ c && c ≤ 'z') || isAsciiDigit c || c = '+' || c = '-' || c = '.'

/-- `\A[a-z][a-z0-9+\-.]*` in front of a separator. -/
def protocolBeforeSeparator : Text → Option Text
  | [] => none
  | first :: rest =>
    if 'a' ≤ first && first ≤ 'z' && hasSeparator (rest.dropWhile isProtocolChar) then
      some (first :: rest.takeWhile isProtocolChar)
    else none

def isTchar (c : Char) : Bool :=
  isAsciiAlpha c || isAsciiDigit c || "!#$%&'*+-.^_\x60|~".toList.contains c

def isMediatypePadding (c : Char) : Bool :=
  c = ' ' || c = '\t' || c = '\n' || c = '\x0b' || c = '\x0c' || c = '\r' || c = '\x00'

def trimPadding (s : Text) : Text :=
  ((s.dropWhile isMediatypePadding).reverse.dropWhile isMediatypePadding).reverse

/-- `data_uri_mediatype` -/
def dataUriMediatype (s : Text) : Option Text :=
  let rest := if "data:".toList.isPrefixOf s then s.drop 5 else s
  let metadata := rest.takeWhile (· ≠ ',')
  if metadata.length = rest.length then none
  else
    let metadata := if ";base64".toList.isSuffixOf metadata then metadata.take (metadata.length - 7) else metadata
    let mediatype := trimPadding (metadata.takeWhile (· ≠ ';'))
    let type_ := mediatype.takeWhile (· ≠ '/')
    let sub := mediatype.drop (type_.length + 1)
    let valid := type_.length < mediatype.length && !type_.isEmpty && !sub.isEmpty && type_.all isTchar &&
      sub.all isTchar
    some (if valid then mediatype else "text/plain".toList)

/-- The text the check looks for a protocol in. -/
def normalizedUri (special : Lowering) (uri : Text) : Text :=
  let withoutControls := uri.filter (! isControlCharacter ·)
  let decoded := decodeNumericCharacterReferences (cgiUnescapeHtml withoutControls)
  let s := decoded.filter (! isControlCharacter ·)
  let s := replaceAll "&NewLine;".toList [] (replaceAll "&Tab;".toList [] s)
  let s := replaceAll "&colon;".toList [':'] s
  toLowercase special s

/-- `Loofah::HTML5::Scrub.allowed_uri?` -/
def allowedUri (special : Lowering) (uri : Text) : Bool :=
  let s := normalizedUri special uri
  match protocolBeforeSeparator s with
  | none => true
  | some protocol =>
    if !(allowedProtocols.map String.toList).contains protocol then false
    else if protocol = "data".toList then
      (dataUriMediatype s).any fun mediatype => (allowedUriDataMediatypes.map String.toList).contains mediatype
    else true

/-! ## 4. Re-escaping -/

/-- Spaces and double quotes are escaped, and the controls XML 1.0 does not allow dropped. -/
def escapeChar (c : Char) : Text :=
  if c = ' ' then "%20".toList
  else if c = '"' then "%22".toList
  else if c = '\t' || c = '\n' || c = '\r' then [c]
  else if c < ' ' then []
  else [c]

def escapeValue (value : Text) : Text := value.flatMap escapeChar

/-! ## 5. What a URL parser reads -/

def isC0OrSpace (c : Char) : Bool := c.toNat ≤ 0x20

def isTabOrNewline (c : Char) : Bool := c = '\t' || c = '\n' || c = '\r'

/-- Leading controls and spaces stripped, tabs and line breaks removed anywhere, nothing decoded. -/
def whatwgInput (uri : Text) : Text := (uri.dropWhile isC0OrSpace).filter (! isTabOrNewline ·)

/-- The scheme, lower case. -/
def whatwgScheme (uri : Text) : Option Text :=
  match whatwgInput uri with
  | [] => none
  | first :: rest =>
    if isAsciiAlpha first && (rest.dropWhile isSchemeChar).head? = some ':' then
      some ((first :: rest.takeWhile isSchemeChar).map Char.toLower)
    else none

/-! ## 6. Characters of a scheme -/

/-- A character a scheme and its separator are made of. -/
def isFrontChar (c : Char) : Bool := isSchemeChar c || c = ':'

section FrontChar

variable {c : Char}

theorem charLe_iff {a b : Char} : a ≤ b ↔ a.toNat ≤ b.toNat := Iff.rfl

theorem toNat_lt_of_front (h : isFrontChar c = true) : c.toNat < 128 := by
  simp only [isFrontChar, isSchemeChar, isAsciiAlpha, isAsciiDigit, Bool.or_eq_true, Bool.and_eq_true,
    decide_eq_true_eq, charLe_iff] at h
  have hz : 'z'.toNat = 122 := rfl
  have hZ : 'Z'.toNat = 90 := rfl
  have h9 : '9'.toNat = 57 := rfl
  rcases h with (((((h | h) | h) | h) | h) | h) | h
  · omega
  · omega
  · omega
  all_goals subst h; decide

/-- What an ASCII character is checked for, one by one. -/
theorem front_facts : ∀ n : Fin 128, isFrontChar (Char.ofNat n) = true →
    isControlCharacter (Char.ofNat n) = false ∧ Char.ofNat n ≠ '&' ∧ Char.ofNat n ≠ '%' ∧
    isTabOrNewline (Char.ofNat n) = false ∧
    (isSchemeChar (Char.ofNat n) = true → isProtocolChar (Char.ofNat n).toLower = true) ∧
    (isAsciiAlpha (Char.ofNat n) = true → 'a' ≤ (Char.ofNat n).toLower ∧ (Char.ofNat n).toLower ≤ 'z') := by
  decide +kernel

theorem facts_of_front (h : isFrontChar c = true) :
    isControlCharacter c = false ∧ c ≠ '&' ∧ c ≠ '%' ∧ isTabOrNewline c = false ∧
    (isSchemeChar c = true → isProtocolChar c.toLower = true) ∧
    (isAsciiAlpha c = true → 'a' ≤ c.toLower ∧ c.toLower ≤ 'z') := by
  have hfacts := front_facts ⟨c.toNat, toNat_lt_of_front h⟩
  rw [Char.ofNat_toNat] at hfacts
  exact hfacts h

theorem front_of_scheme (h : isSchemeChar c = true) : isFrontChar c = true := by
  simp [isFrontChar, h]

end FrontChar

/-! ## 7. A prefix that holds no `&` -/

section Prefix

variable {front rest : Text} {f : Text → Option (Text × Nat)}

/-- Where only a `&` starts what is rewritten, a text with none is left alone. -/
theorem rewrite_append (hf : ∀ c rest, c ≠ '&' → f (c :: rest) = none) (hfront : '&' ∉ front) :
    rewrite f (front ++ rest) = front ++ rewrite f rest := by
  induction front with
  | nil => rfl
  | cons c front ih =>
    have hc : c ≠ '&' := fun h => hfront (h ▸ List.mem_cons_self)
    have hrest : '&' ∉ front := fun h => hfront (List.mem_cons_of_mem _ h)
    have hstep : rewrite f (c :: (front ++ rest)) = c :: rewrite f (front ++ rest) := by
      simp only [rewrite, List.length_cons, rewriteFuel, hf c _ hc]
    rw [List.cons_append, hstep, ih hrest, List.cons_append]

theorem unescapeOne_of_ne {c : Char} (rest : Text) (h : c ≠ '&') : unescapeOne (c :: rest) = none := by
  simp [unescapeOne, h]

theorem numericReference_of_ne {c : Char} (rest : Text) (h : c ≠ '&') : numericReference (c :: rest) = none := by
  unfold numericReference
  split
  · next heq => exact absurd (List.cons.inj heq).1 h
  · rfl

theorem replaceAll_append {pattern replacement : Text} (hfront : '&' ∉ front) :
    replaceAll ('&' :: pattern) replacement (front ++ rest) = front ++ replaceAll ('&' :: pattern) replacement rest := by
  refine rewrite_append (fun c rest hc => ?_) hfront
  have hne : ('&' == c) = false := by simpa using fun h : '&' = c => hc h.symm
  simp [List.isPrefixOf, hne]

theorem lowerFrom_append {special : Lowering} (before : Text) (hfront : ∀ c ∈ front, c.toNat < 128) :
    lowerFrom special before (front ++ rest) =
      front.map Char.toLower ++ lowerFrom special (before ++ front) rest := by
  induction front generalizing before with
  | nil => simp
  | cons c front ih =>
    have hc := hfront c List.mem_cons_self
    have hrest : ∀ d ∈ front, d.toNat < 128 := fun d hd => hfront d (List.mem_cons_of_mem _ hd)
    simp [lowerFrom, hc, ih (before ++ [c]) hrest]

/-- **A scheme and its separator come through the check's rewriting.** -/
theorem normalizedUri_front (special : Lowering) {uri : Text} (hfront : ∀ c ∈ front, isFrontChar c = true)
    (h : uri.filter (! isControlCharacter ·) = front ++ rest) :
    ∃ behind, normalizedUri special uri = front.map Char.toLower ++ behind := by
  have hamp : '&' ∉ front := fun hmem => (facts_of_front (hfront _ hmem)).2.1 rfl
  have hcontrol : front.filter (! isControlCharacter ·) = front :=
    List.filter_eq_self.mpr fun c hc => by simp [(facts_of_front (hfront c hc)).1]
  have hascii : ∀ c ∈ front, c.toNat < 128 := fun c hc => toNat_lt_of_front (hfront c hc)
  have hcgi : ∀ rest, rewrite unescapeOne (front ++ rest) = front ++ rewrite unescapeOne rest :=
    fun _ => rewrite_append (fun _ => unescapeOne_of_ne) hamp
  have hnumeric : ∀ rest, rewrite numericReference (front ++ rest) = front ++ rewrite numericReference rest :=
    fun _ => rewrite_append (fun _ => numericReference_of_ne) hamp
  have htab : "&Tab;".toList = '&' :: "Tab;".toList := by decide
  have hnewline : "&NewLine;".toList = '&' :: "NewLine;".toList := by decide
  have hcolon : "&colon;".toList = '&' :: "colon;".toList := by decide
  simp only [normalizedUri, h, cgiUnescapeHtml, decodeNumericCharacterReferences, hcgi, hnumeric,
    List.filter_append, hcontrol, htab, hnewline, hcolon, replaceAll_append hamp, toLowercase,
    lowerFrom_append [] hascii]
  exact ⟨_, rfl⟩

end Prefix

/-! ## 8. The scheme a URL parser reads -/

section Scheme

variable {uri scheme : Text}

/-- What a URL parser reads a scheme off. -/
theorem front_of_whatwgScheme (h : whatwgScheme uri = some scheme) :
    ∃ first more tail, whatwgInput uri = (first :: more ++ [':']) ++ tail ∧ isAsciiAlpha first = true ∧
      (∀ c ∈ more, isSchemeChar c = true) ∧ scheme = (first :: more).map Char.toLower := by
  unfold whatwgScheme at h
  split at h
  · cases h
  · next first rest hinput =>
    split at h
    · next hread =>
      obtain ⟨halpha, hcolon⟩ := (Bool.and_eq_true _ _).mp hread
      have hsplit : rest = rest.takeWhile isSchemeChar ++ rest.dropWhile isSchemeChar :=
        List.takeWhile_append_dropWhile.symm
      obtain ⟨tail, htail⟩ : ∃ tail, rest.dropWhile isSchemeChar = ':' :: tail := by
        cases hdrop : rest.dropWhile isSchemeChar with
        | nil => rw [hdrop] at hcolon; simp at hcolon
        | cons c tail => rw [hdrop] at hcolon; exact ⟨tail, by simpa using hcolon⟩
      refine ⟨first, rest.takeWhile isSchemeChar, tail, ?_, halpha,
        fun c hc => List.mem_takeWhile_imp hc, (Option.some.inj h).symm⟩
      rw [htail] at hsplit
      rw [hinput, List.append_assoc, List.cons_append, List.singleton_append, ← hsplit]
    · cases h

theorem filter_dropWhile {p q : Char → Bool} {s : Text} (h : ∀ c ∈ s, p c = true → q c = false) :
    (s.dropWhile p).filter q = s.filter q := by
  induction s with
  | nil => rfl
  | cons c s ih =>
    have hrest := ih fun d hd => h d (List.mem_cons_of_mem _ hd)
    by_cases hp : p c = true
    · rw [List.dropWhile_cons_of_pos hp, hrest, List.filter_cons_of_neg]
      simp [h c List.mem_cons_self hp]
    · rw [List.dropWhile_cons_of_neg hp]

/-- What the parser leaves out, the check leaves out too. -/
theorem filter_whatwgInput (uri : Text) :
    (whatwgInput uri).filter (! isControlCharacter ·) = uri.filter (! isControlCharacter ·) := by
  have htabs : ∀ s : Text, (s.filter (! isTabOrNewline ·)).filter (! isControlCharacter ·) =
      s.filter (! isControlCharacter ·) := by
    intro s
    rw [List.filter_filter]
    refine List.filter_congr fun c _ => ?_
    have htab : isTabOrNewline c = true → isControlCharacter c = true := by
      simp only [isTabOrNewline, Bool.or_eq_true, decide_eq_true_eq]
      rintro ((rfl | rfl) | rfl) <;> decide
    cases hc : isTabOrNewline c <;> simp_all
  rw [whatwgInput, htabs]
  refine filter_dropWhile fun c _ hc => ?_
  have hle : c.toNat ≤ 0x20 := of_decide_eq_true hc
  simp [isControlCharacter, hle]

/-- Escaped, a text has no control but tabs and line breaks, which the parser removes anywhere. -/
theorem whatwgInput_escapeValue (uri : Text) :
    whatwgInput (escapeValue uri) = (escapeValue uri).filter (! isTabOrNewline ·) := by
  refine filter_dropWhile fun c hc hcontrol => ?_
  obtain ⟨d, -, hd⟩ := List.mem_flatMap.mp hc
  have hle : c.toNat ≤ 0x20 := of_decide_eq_true hcontrol
  have hspace : ' '.toNat = 32 := rfl
  unfold escapeChar at hd
  split at hd
  · rcases (by simpa using hd : c = '%' ∨ c = '2' ∨ c = '0') with rfl | rfl | rfl <;> simp at hle
  split at hd
  · rcases (by simpa using hd : c = '%' ∨ c = '2' ∨ c = '2') with rfl | rfl | rfl <;> simp at hle
  split at hd
  · next htab =>
    rw [List.mem_singleton.mp hd]
    simp only [isTabOrNewline, htab, Bool.not_true]
  split at hd
  · exact absurd hd List.not_mem_nil
  · next hne _ _ hnlt =>
    rw [List.mem_singleton.mp hd] at hle
    have hge : 32 ≤ d.toNat := by simpa [Char.lt_def, UInt32.lt_iff_toNat_lt] using hnlt
    refine absurd (Char.toNat_inj.mp ?_) hne
    omega

/-- What precedes a separator in the escaped text, but its tabs and line breaks, precedes it in the text, but
its controls. -/
theorem filter_of_escaped {front tail : Text} (hfront : ∀ c ∈ front, isFrontChar c = true)
    (h : (escapeValue uri).filter (! isTabOrNewline ·) = front ++ tail) :
    ∃ behind, uri.filter (! isControlCharacter ·) = front ++ behind := by
  induction uri generalizing front with
  | nil =>
    have hnil : front = [] := (List.append_eq_nil_iff.mp h.symm).1
    exact ⟨[], by simp [hnil]⟩
  | cons c uri ih =>
    cases front with
    | nil => exact ⟨_, rfl⟩
    | cons f front =>
      have hf := hfront f List.mem_cons_self
      have hne : f ≠ '%' := (facts_of_front hf).2.2.1
      have hcons : (escapeChar c).filter (! isTabOrNewline ·) ++ (escapeValue uri).filter (! isTabOrNewline ·) =
          f :: front ++ tail := by
        rw [← List.filter_append, ← h]
        rfl
      unfold escapeChar at hcons
      split at hcons
      · -- an escape never starts a scheme, nor stands inside one
        exact absurd (List.cons.inj hcons).1.symm hne
      split at hcons
      · exact absurd (List.cons.inj hcons).1.symm hne
      split at hcons
      · next htab =>
        have hcontrol : isControlCharacter c = true := by
          simp only [Bool.or_eq_true, decide_eq_true_eq] at htab
          rcases htab with (rfl | rfl) | rfl <;> decide
        have hdropped : ([c] : Text).filter (! isTabOrNewline ·) = [] := by
          rw [List.filter_cons_of_neg, List.filter_nil]
          simp only [isTabOrNewline, htab, Bool.not_true, Bool.false_eq_true, not_false_eq_true]
        rw [hdropped, List.nil_append] at hcons
        rw [List.filter_cons_of_neg (by simp [hcontrol])]
        exact ih hfront hcons
      split at hcons
      · next hlt =>
        have hcontrol : isControlCharacter c = true := by
          have hlt' : c.toNat < 32 := hlt
          have hle : c.toNat ≤ 0x20 := by omega
          simp [isControlCharacter, hle]
        rw [List.filter_cons_of_neg (by simp [hcontrol])]
        exact ih hfront hcons
      · next htab _ =>
        have hkept : ([c] : Text).filter (! isTabOrNewline ·) = [c] := by
          have hnot : isTabOrNewline c = false := by
            simpa [isTabOrNewline] using htab
          simp [hnot]
        rw [hkept] at hcons
        obtain ⟨rfl, hrest⟩ := List.cons.inj hcons
        obtain ⟨behind, hbehind⟩ := ih (fun d hd => hfront d (List.mem_cons_of_mem _ hd)) hrest
        refine ⟨behind, ?_⟩
        rw [List.filter_cons_of_pos (by simp [(facts_of_front hf).1]), hbehind, List.cons_append]

/-- The protocol the check finds behind such a front. -/
theorem protocol_of_front (special : Lowering) {first : Char} {more rest : Text}
    (halpha : isAsciiAlpha first = true) (hmore : ∀ c ∈ more, isSchemeChar c = true)
    (h : uri.filter (! isControlCharacter ·) = (first :: more ++ [':']) ++ rest) :
    protocolBeforeSeparator (normalizedUri special uri) = some ((first :: more).map Char.toLower) := by
  have hfirst : isSchemeChar first = true := by simp [isSchemeChar, halpha]
  have hfront : ∀ c ∈ first :: more ++ [':'], isFrontChar c = true := by
    intro c hc
    rcases List.mem_append.mp hc with hc | hc
    · rcases List.mem_cons.mp hc with rfl | hc
      · exact front_of_scheme hfirst
      · exact front_of_scheme (hmore c hc)
    · rw [List.mem_singleton.mp hc]; decide
  obtain ⟨behind, hbehind⟩ := normalizedUri_front special hfront h
  have hlower := (facts_of_front (front_of_scheme hfirst)).2.2.2.2.2 halpha
  have hrun : ∀ c ∈ more.map Char.toLower, isProtocolChar c = true := by
    intro c hc
    obtain ⟨d, hd, rfl⟩ := List.mem_map.mp hc
    exact (facts_of_front (front_of_scheme (hmore d hd))).2.2.2.2.1 (hmore d hd)
  have hstop : isProtocolChar ':' = false := by decide
  have htake : (more.map Char.toLower ++ ':' :: behind).takeWhile isProtocolChar = more.map Char.toLower := by
    rw [List.takeWhile_append_of_pos hrun, List.takeWhile_cons_of_neg (by simp [hstop]), List.append_nil]
  have hdrop : (more.map Char.toLower ++ ':' :: behind).dropWhile isProtocolChar = ':' :: behind := by
    rw [List.dropWhile_append_of_pos hrun, List.dropWhile_cons_of_neg (by simp [hstop])]
  have hcolon : ':'.toLower = ':' := by decide
  have hshape : normalizedUri special uri = first.toLower :: (more.map Char.toLower ++ ':' :: behind) := by
    simpa [hcolon] using hbehind
  have hseparator : hasSeparator (':' :: behind) = true := by
    have hprefix : ":".toList.isPrefixOf ((':' :: behind).map Char.toLower) = true := by
      simp [hcolon]
    simp only [hasSeparator, hprefix, Bool.true_or]
  simp [hshape, protocolBeforeSeparator, htake, hdrop, hseparator, hlower]

/-- **A URL parser reads no scheme but an allowed one** off a value that passed the check, as it was or
re-escaped since. -/
theorem whatwgScheme_allowed {special : Lowering} {value : Text} (hchecked : allowedUri special uri = true)
    (hvalue : value = uri ∨ value = escapeValue uri) (h : whatwgScheme value = some scheme) :
    scheme ∈ allowedProtocols.map String.toList := by
  obtain ⟨first, more, tail, hinput, halpha, hmore, rfl⟩ := front_of_whatwgScheme h
  have hfront : ∀ c ∈ first :: more ++ [':'], isFrontChar c = true := by
    intro c hc
    simp only [List.cons_append, List.mem_cons, List.mem_append, List.not_mem_nil, or_false] at hc
    rcases hc with rfl | hc | rfl
    · exact front_of_scheme (by simp [isSchemeChar, halpha])
    · exact front_of_scheme (hmore c hc)
    · decide
  have hfilter : ∃ rest, uri.filter (! isControlCharacter ·) = (first :: more ++ [':']) ++ rest := by
    rcases hvalue with rfl | rfl
    · refine ⟨tail.filter (! isControlCharacter ·), ?_⟩
      rw [← filter_whatwgInput, hinput, List.filter_append, List.filter_eq_self.mpr]
      exact fun c hc => by simp [(facts_of_front (hfront c hc)).1]
    · rw [whatwgInput_escapeValue] at hinput
      exact filter_of_escaped hfront hinput
  obtain ⟨rest, hrest⟩ := hfilter
  have hprotocol := protocol_of_front special halpha hmore hrest
  simp only [allowedUri, hprotocol] at hchecked
  by_contra hnot
  rw [if_pos (by simpa using hnot)] at hchecked
  cases hchecked

end Scheme

end Smartfire
