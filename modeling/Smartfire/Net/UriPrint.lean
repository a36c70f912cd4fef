/-
  File:      Smartfire/Net/UriPrint.lean
  Subject:   What is printed of a URL is read as it was.

  `Sound` lists the URLs the parser makes of an HTTP location: with an authority, with a rooted or an
  empty path, or with an opaque part. One lemma for each part says that its text is read as that part,
  with the next part's mark behind it.

  * `parseQueryFragment_append` -- query and fragment;
  * `parseAuthority_append` -- user, host, port and path;
  * `escapeQuery_queryText` -- an escaped query is escaped already;
  * **`parse_toS`** -- a sound URL is read from its text;
  * `sound_of_parse` -- what is read of an HTTP location is sound; **`toS_canonical`** -- so it is read again
    from its text, and no other location has that text.
-/
import Mathlib.Data.List.TakeWhile
import Smartfire.Net.Uri

namespace Smartfire

namespace Net

open Lib

/-! ## 1. Texts of the parts -/

/-- A text that no query and no fragment starts in. -/
def Plain (s : List Char) : Prop := ∀ c ∈ s, c ≠ '?' ∧ c ≠ '#' ∧ c.toNat < 128

/-- What follows a path: nothing, a query or a fragment. -/
def Behind (rest : List Char) : Prop := ∀ c ∈ rest.head?, c = '?' ∨ c = '#'

/-- A query that `query=` leaves as it is. -/
structure QueryText (q : List Char) : Prop where
  kept : ∀ c ∈ q, queryChar c = true
  escapes : badEscape q = false

/-- A scheme, of HTTP or HTTPS. -/
structure SchemeText (s : List Char) : Prop where
  head : ∃ c rest, s = c :: rest ∧ isAlphabetic c = true
  chars : ∀ c ∈ s, isSchemeChar c = true
  http : sameScheme s "http" = true ∨ sameScheme s "https" = true

section Host

variable (isIpv6 : List Char → Bool)

/-- A host's text: a bracketed address, or characters of a name. -/
def HostText (host : List Char) : Prop :=
  Escaped isUnreservedOrSub host ∨
    ∃ inner, host = '[' :: (inner ++ [']']) ∧ ']' ∉ inner ∧ validLiteral isIpv6 inner = true ∧ Plain inner

end Host

section Scans

variable {s t rest : List Char} {c : Char} {p : Char → Bool}

theorem takeWhile_stop (hs : ∀ c ∈ s, p c = true) (hr : ∀ c ∈ rest.head?, p c = false) :
    (s ++ rest).takeWhile p = s := by
  rw [List.takeWhile_append_of_pos hs]
  cases rest with
  | nil => rw [List.takeWhile_nil, List.append_nil]
  | cons c rest => rw [List.takeWhile_cons_of_neg (by simp [hr c rfl]), List.append_nil]

theorem dropWhile_stop (hs : ∀ c ∈ s, p c = true) (hr : ∀ c ∈ rest.head?, p c = false) :
    (s ++ rest).dropWhile p = rest := by
  rw [List.dropWhile_append_of_pos hs]
  cases rest with
  | nil => rfl
  | cons c rest => rw [List.dropWhile_cons_of_neg (by simp [hr c rfl])]

theorem head?_dropWhile_false (p : Char → Bool) (s : List Char) : ∀ c ∈ (s.dropWhile p).head?, p c = false := by
  intro c hc
  have h := List.head?_dropWhile_not p s
  rw [Option.mem_def] at hc
  rw [hc] at h
  simpa using h

theorem plain_append : Plain (s ++ t) ↔ Plain s ∧ Plain t := by
  simp only [Plain, List.mem_append]
  constructor
  · exact fun h => ⟨fun c hc => h c (.inl hc), fun c hc => h c (.inr hc)⟩
  · rintro ⟨hs, ht⟩ c (hc | hc)
    · exact hs c hc
    · exact ht c hc

theorem plain_nil : Plain [] := fun _ hc => absurd hc List.not_mem_nil

theorem plain_cons (hc : c ≠ '?' ∧ c ≠ '#' ∧ c.toNat < 128) (h : Plain s) : Plain (c :: s) := by
  intro d hd
  obtain rfl | hd := List.mem_cons.mp hd
  · exact hc
  · exact h d hd

theorem isAscii_append : isAscii (s ++ t) = true ↔ isAscii s = true ∧ isAscii t = true := by
  simp only [isAscii, List.all_append, Bool.and_eq_true]

theorem Plain.ascii (h : Plain s) : isAscii s = true := by
  rw [isAscii, List.all_eq_true]
  exact fun c hc => decide_eq_true (h c hc).2.2

end Scans

/-! ## 2. Query and fragment -/

section Tails

variable {hier s : List Char} {query fragment : Option (List Char)}

theorem splitFragment_withMark (hf : ∀ f ∈ fragment, Escaped fragmentChar f) :
    splitFragment (Uri.withMark '#' fragment) = some fragment := by
  cases fragment with
  | none => rfl
  | some f =>
    have hwhole := (hf f rfl).whole (by decide)
    simp [Uri.withMark, splitFragment, hwhole]

theorem withMark_head (mark : Char) (part : Option (List Char)) : ∀ c ∈ (Uri.withMark mark part).head?, c = mark := by
  intro c hc
  cases part with
  | none => cases hc
  | some text => cases hc; rfl

theorem behind_marks (query fragment : Option (List Char)) :
    Behind (Uri.withMark '?' query ++ Uri.withMark '#' fragment) := by
  intro c hc
  cases query with
  | none => exact .inr (withMark_head '#' fragment c hc)
  | some q => cases hc; exact .inl rfl

/-- What is printed behind a path is split off as it was printed. -/
theorem parseQueryFragment_append (hh : Plain hier) (hq : ∀ q ∈ query, '#' ∉ q)
    (hf : ∀ f ∈ fragment, Escaped fragmentChar f) :
    parseQueryFragment (hier ++ (Uri.withMark '?' query ++ Uri.withMark '#' fragment)) =
      some ⟨hier, query, fragment⟩ := by
  have hpass : ∀ c ∈ hier, (c ≠ '?' && c ≠ '#') = true := by
    intro c hc
    simp [(hh c hc).1, (hh c hc).2.1]
  have hstop : ∀ c ∈ (Uri.withMark '?' query ++ Uri.withMark '#' fragment).head?, (c ≠ '?' && c ≠ '#') = false := by
    intro c hc
    obtain rfl | rfl := behind_marks query fragment c hc <;> rfl
  rw [parseQueryFragment, takeWhile_stop hpass hstop, dropWhile_stop hpass hstop]
  cases query with
  | none =>
    have hnone : Uri.withMark '?' none ++ Uri.withMark '#' fragment = Uri.withMark '#' fragment := rfl
    have hsplit := splitFragment_withMark hf
    rw [hnone]
    cases fragment with
    | none => rfl
    | some f =>
      have hmark : Uri.withMark '#' (some f) = '#' :: f := rfl
      rw [hmark] at hsplit ⊢
      exact congrArg (Option.map fun fragment => Tail.mk hier none fragment) hsplit
  | some q =>
    have hqpass : ∀ c ∈ q, (decide (c ≠ '#')) = true := fun c hc => decide_eq_true fun h => hq q rfl (h ▸ hc)
    have hqstop : ∀ c ∈ (Uri.withMark '#' fragment).head?, (decide (c ≠ '#')) = false := by
      intro c hc
      rw [withMark_head '#' fragment c hc]
      rfl
    have hmark : Uri.withMark '?' (some q) ++ Uri.withMark '#' fragment = '?' :: (q ++ Uri.withMark '#' fragment) := rfl
    simp only [hmark, takeWhile_stop hqpass hqstop, dropWhile_stop hqpass hqstop, splitFragment_withMark hf,
      Option.map_some]

theorem splitFragment_eq_some (h : splitFragment s = some fragment) (hs : ∀ c ∈ s.head?, c = '#') :
    s = Uri.withMark '#' fragment ∧ ∀ f ∈ fragment, Escaped fragmentChar f := by
  match s with
  | [] =>
    obtain rfl : none = fragment := Option.some.inj h
    exact ⟨rfl, fun f hf => absurd hf (by simp)⟩
  | c :: rest =>
    obtain rfl := hs c rfl
    rw [splitFragment] at h
    split at h
    · next hwhole =>
      obtain rfl := Option.some.inj h
      refine ⟨rfl, fun f hf => ?_⟩
      obtain rfl := Option.some.inj hf
      exact escaped_of_whole hwhole
    · cases h

/-- What is split off a text: the text is what is printed of it. -/
theorem parseQueryFragment_eq_some {tail : Tail} (h : parseQueryFragment s = some tail) :
    s = tail.hier ++ (Uri.withMark '?' tail.query ++ Uri.withMark '#' tail.fragment) ∧
      (∀ c ∈ tail.hier, c ≠ '?' ∧ c ≠ '#') ∧ (∀ q ∈ tail.query, '#' ∉ q) ∧
      ∀ f ∈ tail.fragment, Escaped fragmentChar f := by
  have hcut := List.takeWhile_append_dropWhile (p := fun c : Char => c ≠ '?' && c ≠ '#') (l := s)
  have hpass : ∀ c ∈ s.takeWhile (fun c => c ≠ '?' && c ≠ '#'), c ≠ '?' ∧ c ≠ '#' := by
    intro c hc
    simpa using List.mem_takeWhile_imp hc
  have hhead := head?_dropWhile_false (fun c : Char => c ≠ '?' && c ≠ '#') s
  rw [parseQueryFragment] at h
  split at h
  · next rest heq =>
    obtain ⟨fragment, hfragment, rfl⟩ := Option.map_eq_some_iff.mp h
    have hqcut := List.takeWhile_append_dropWhile (p := fun c : Char => decide (c ≠ '#')) (l := rest)
    obtain ⟨htext, hf⟩ := splitFragment_eq_some hfragment fun c hc => by
      simpa using head?_dropWhile_false (fun c : Char => decide (c ≠ '#')) rest c hc
    refine ⟨?_, hpass, ?_, hf⟩
    · rw [heq, ← hqcut, htext] at hcut
      exact hcut.symm
    · intro q hq
      obtain rfl := Option.some.inj hq
      intro hmem
      simpa using List.mem_takeWhile_imp hmem
  · next hrest =>
    obtain ⟨fragment, hfragment, rfl⟩ := Option.map_eq_some_iff.mp h
    have hmark : ∀ c ∈ (s.dropWhile fun c => c ≠ '?' && c ≠ '#').head?, c = '#' := by
      intro c hc
      obtain ⟨rest, heq⟩ : ∃ rest, (s.dropWhile fun c => c ≠ '?' && c ≠ '#') = c :: rest := by
        rw [Option.mem_def, List.head?_eq_some_iff] at hc
        exact hc
      have hc' := hhead c hc
      simp only [ne_eq, decide_not, Bool.and_eq_false_iff, Bool.not_eq_false', decide_eq_true_eq] at hc'
      obtain rfl | rfl := hc'
      · exact absurd heq (hrest rest)
      · rfl
    obtain ⟨htext, hf⟩ := splitFragment_eq_some hfragment hmark
    refine ⟨?_, hpass, fun q hq => absurd hq (by simp), hf⟩
    rw [htext] at hcut
    exact hcut.symm

end Tails

/-! ## 3. The authority -/

section Authorities

variable {isIpv6 : List Char → Bool} {host path rest s t : List Char} {userinfo : Option (List Char)} {port : Nat}

theorem isDigit_unreserved {c : Char} (h : c.isDigit = true) : isUnreservedOrSub c = true := by
  have hdigit : within '0' '9' c = true := h
  simp [isUnreservedOrSub, hdigit]

theorem userinfoChar_of_unreserved {c : Char} (h : isUnreservedOrSub c = true) : userinfoChar c = true := by
  simp [userinfoChar, h]

/-- What a port is printed as, a default port not at all. -/
def printedPort (port : Option Nat) : List Char :=
  match port with
  | some port => ':' :: Nat.toDigits 10 port
  | none => []

theorem toDigits_isDigit (n : Nat) : ∀ c ∈ Nat.toDigits 10 n, c.isDigit = true :=
  fun _ hc => Nat.isDigit_of_mem_toDigits (by decide) (by decide) hc

/-- A path behind an authority. -/
def Rooted (path : List Char) : Prop := path = [] ∨ path.head? = some '/'

theorem Rooted.head_eq (h : Rooted path) : ∀ c ∈ path.head?, c = '/' := by
  intro c hc
  obtain rfl | h := h
  · cases hc
  · rw [Option.mem_def, h] at hc
    exact (Option.some.inj hc).symm

theorem splitPort_append (port : Option Nat) (hport : ∀ p ∈ port, p < 2 ^ 64) (hpath : Rooted path) :
    splitPort (printedPort port ++ path) = (port, path) := by
  have hstop : ∀ c ∈ path.head?, c.isDigit = false := by
    intro c hc
    rw [hpath.head_eq c hc]
    rfl
  cases port with
  | none =>
    match path, hpath with
    | [], _ => rfl
    | c :: path, hpath =>
      obtain rfl := hpath.head_eq c rfl
      rfl
  | some p =>
    have hpass := toDigits_isDigit p
    have hp := hport p rfl
    have hne : Nat.toDigits 10 p ≠ [] := Nat.toDigits_ne_nil
    simp only [printedPort, List.cons_append, splitPort, takeWhile_stop hpass hstop, dropWhile_stop hpass hstop,
      parsePort, if_neg hne, digitsValue_toDigits]
    rw [Nat.min_eq_left (by omega)]

theorem printedPort_escaped (port : Option Nat) : Escaped userinfoChar (printedPort port) := by
  cases port with
  | none => exact .nil
  | some p =>
    refine .char rfl ?_
    have hdigits := toDigits_isDigit p
    generalize Nat.toDigits 10 p = digits at hdigits
    induction digits with
    | nil => exact .nil
    | cons c digits ih =>
      exact .char (userinfoChar_of_unreserved (isDigit_unreserved (hdigits c List.mem_cons_self)))
        (ih fun d hd => hdigits d (List.mem_cons_of_mem _ hd))

theorem printedPort_head (port : Option Nat) (hpath : Rooted path) :
    ∀ c ∈ (printedPort port ++ path).head?, c = ':' ∨ c = '/' := by
  intro c hc
  cases port with
  | none => exact .inr (hpath.head_eq c hc)
  | some p => cases hc; exact .inl rfl

theorem ipLiteral_none (hs : s.head? ≠ some '[') : ipLiteral isIpv6 s = none := by
  match s with
  | [] => rfl
  | c :: s =>
    rw [ipLiteral]
    intro rest heq
    exact hs (by rw [heq]; rfl)

theorem ipLiteral_append (hinner : ']' ∉ s) (hvalid : validLiteral isIpv6 s = true) (rest : List Char) :
    ipLiteral isIpv6 ('[' :: (s ++ ']' :: rest)) = some ('[' :: (s ++ [']']), rest) := by
  have hpass : ∀ c ∈ s, (decide (c ≠ ']')) = true := fun c hc => decide_eq_true fun h => hinner (h ▸ hc)
  have hstop : ∀ c ∈ (']' :: rest).head?, (decide (c ≠ ']')) = false := by
    intro c hc
    cases hc
    rfl
  simp only [ipLiteral, dropWhile_stop hpass hstop, takeWhile_stop hpass hstop, hvalid, if_true]

/-- The host in front of a port and a path is split off as it was printed. -/
theorem splitHost_append (hh : HostText isIpv6 host) (hrest : ∀ c ∈ rest.head?, c = ':' ∨ c = '/') :
    splitHost isIpv6 (host ++ rest) = (host, rest) := by
  obtain hname | ⟨inner, rfl, hinner, hvalid, -⟩ := hh
  · have hnone : ipLiteral isIpv6 (host ++ rest) = none := by
      refine ipLiteral_none fun hhead => ?_
      cases hname with
      | nil =>
        obtain h | h := hrest '[' hhead <;> cases h
      | pct => cases hhead
      | char hc =>
        cases hhead
        cases hc
    rw [splitHost, hnone]
    refine takeWhileClass_append (by decide) hname fun c hc => ?_
    obtain rfl | rfl := hrest c hc <;> exact ⟨rfl, by decide⟩
  · rw [splitHost]
    have hlit := ipLiteral_append hinner hvalid rest
    simp only [List.cons_append, List.append_assoc, List.nil_append, hlit, Option.getD_some]

theorem splitUserinfo_append (hu : ∀ t ∈ userinfo, Escaped userinfoChar t) (hh : HostText isIpv6 host)
    (port : Option Nat) (hpath : Rooted path) :
    splitUserinfo ((userinfo.map (· ++ ['@'])).getD [] ++ (host ++ (printedPort port ++ path))) =
      (userinfo, host ++ (printedPort port ++ path)) := by
  cases userinfo with
  | some t =>
    have hstop : Stops userinfoChar ('@' :: (host ++ (printedPort port ++ path))) := stops_cons rfl (by decide)
    have hscan := takeWhileClass_append (by decide) (hu t rfl) hstop
    simp only [Option.map_some, Option.getD_some, List.append_assoc, List.cons_append, List.nil_append, splitUserinfo,
      hscan]
  | none =>
    simp only [Option.map_none, Option.getD_none, List.nil_append]
    obtain hname | ⟨inner, rfl, -, -, -⟩ := hh
    · have htext : Escaped userinfoChar (host ++ printedPort port) :=
        (hname.mono fun _ => userinfoChar_of_unreserved).append (printedPort_escaped port)
      have hstop : Stops userinfoChar path := by
        intro c hc
        rw [hpath.head_eq c hc]
        exact ⟨rfl, by decide⟩
      have hscan := takeWhileClass_append (by decide) htext hstop
      rw [List.append_assoc] at hscan
      rw [splitUserinfo, hscan]
      split
      · next rest heq =>
        have hslash := hpath.head_eq '@' (by simp only at heq; rw [heq]; rfl)
        cases hslash
      · rfl
    · rw [splitUserinfo, List.cons_append, takeWhileClass_stop (stops_cons rfl (by decide))]
      rfl

/-- **An authority and the path behind it are read as they were printed.** -/
theorem parseAuthority_append (hu : ∀ t ∈ userinfo, Escaped userinfoChar t) (hh : HostText isIpv6 host)
    (port : Option Nat) (hport : ∀ p ∈ port, p < 2 ^ 64) (hpath : Rooted path) :
    parseAuthority isIpv6 ((userinfo.map (· ++ ['@'])).getD [] ++ (host ++ (printedPort port ++ path))) =
      some ⟨userinfo, host, port, path⟩ := by
  simp only [parseAuthority, splitUserinfo_append hu hh port hpath, splitHost_append hh (printedPort_head port hpath),
    splitPort_append port hport hpath]
  exact if_pos hpath

end Authorities

/-! ## 4. The query -/

section Queries

variable {q : List Char} {c : Char}

theorem upperHex_query (n : Nat) : queryChar (upperHex n) = true ∧ isHexDigit (upperHex n) = true := by
  by_cases hn : n < 16
  · have hall : ∀ n : Fin 16, queryChar (upperHex n) = true ∧ isHexDigit (upperHex n) = true := by decide
    exact hall ⟨n, hn⟩
  · have hzero : upperHex n = '0' := by
      rw [upperHex, List.getD_eq_getElem?_getD, List.getElem?_eq_none (by simpa using hn)]
      rfl
    rw [hzero]
    decide

/-- What `query=` writes of a character. -/
def escapeChar (c : Char) : List Char := if queryChar c then [c] else percentEncode c

theorem escapeChar_kept (c : Char) : ∀ d ∈ escapeChar c, queryChar d = true := by
  intro d hd
  rw [escapeChar] at hd
  split at hd
  · next hc =>
    obtain rfl := List.mem_singleton.mp hd
    exact hc
  · simp only [percentEncode, List.mem_cons, List.not_mem_nil, or_false] at hd
    obtain rfl | rfl | rfl := hd
    · rfl
    · exact (upperHex_query _).1
    · exact (upperHex_query _).1

theorem badEscape_cons (hc : c ≠ '%') (rest : List Char) : badEscape (c :: rest) = badEscape rest := by
  match rest with
  | [] => simp [badEscape]
  | [a] => simp [badEscape]
  | a :: b :: rest =>
    rw [badEscape]
    rintro a' b' rest' rfl
    exact absurd rfl hc

/-- The two characters behind a `%` are looked at, then what is behind it. -/
theorem badEscape_pct (s : List Char) :
    badEscape ('%' :: s) = false ↔
      badEscape s = false ∧ ∀ a b rest, s = a :: b :: rest → isHexDigit a = true ∨ isHexDigit b = true := by
  match s with
  | [] => simp [badEscape]
  | [a] => simp [badEscape]
  | a :: b :: rest =>
    rw [badEscape, Bool.or_eq_false_iff, and_comm]
    refine and_congr Iff.rfl ⟨?_, fun h => ?_⟩
    · rintro h a' b' rest' ⟨⟩
      simpa [or_iff_not_imp_left] using h
    · simpa [or_iff_not_imp_left] using h a b rest rfl

theorem queryChar_of_hex (h : isHexDigit c = true) : queryChar c = true := by
  simp only [isHexDigit, Char.isDigit, within, queryChar, Bool.or_eq_true, Bool.and_eq_true, decide_eq_true_eq] at h ⊢
  obtain (h | h) | h := h
  · exact .inl (.inl (.inl (.inr ⟨Nat.le_trans (by decide) (show 48 ≤ c.toNat from h.1),
      Nat.le_trans (show c.toNat ≤ 57 from h.2) (by decide)⟩)))
  · exact .inr ⟨h.1, Nat.le_trans h.2 (by decide)⟩
  · exact .inl (.inr ⟨Nat.le_trans (by decide) h.1, Nat.le_trans h.2 (by decide)⟩)

theorem hex_ne_pct (h : isHexDigit c = true) : c ≠ '%' := by
  rintro rfl
  cases h

theorem badEscape_tail {rest : List Char} (h : badEscape (c :: rest) = false) : badEscape rest = false := by
  by_cases hc : c = '%'
  · rw [hc] at h
    exact ((badEscape_pct rest).mp h).1
  · rwa [badEscape_cons hc] at h

/-- Escaping makes no bad escape. -/
theorem badEscape_flatMap (h : badEscape q = false) : badEscape (q.flatMap escapeChar) = false := by
  induction q with
  | nil => rfl
  | cons c q ih =>
    have ih := ih (badEscape_tail h)
    rw [List.flatMap_cons, escapeChar]
    split
    · next hc =>
      rw [List.singleton_append]
      by_cases hpct : c = '%'
      · rw [hpct] at h ⊢
        refine (badEscape_pct _).mpr ⟨ih, ?_⟩
        intro a b rest heq
        match q with
        | [] => cases heq
        | a' :: q =>
          rw [List.flatMap_cons, escapeChar] at heq
          split at heq
          · rw [List.singleton_append] at heq
            obtain ⟨ha, heq⟩ := List.cons.inj heq
            match q with
            | [] => cases heq
            | b' :: q =>
              have hhex := ((badEscape_pct _).mp h).2 a' b' q rfl
              rw [List.flatMap_cons, escapeChar] at heq
              split at heq
              · rw [← ha, ← (List.cons.inj heq).1]
                exact hhex
              · next hb =>
                refine .inl (ha ▸ hhex.resolve_right fun h => hb (queryChar_of_hex h))
          · obtain ⟨-, heq⟩ := List.cons.inj heq
            exact .inr ((List.cons.inj heq).1 ▸ (upperHex_query _).2)
      · rwa [badEscape_cons hpct]
    · have hx := (upperHex_query (c.toNat / 16)).2
      rw [percentEncode, List.cons_append, List.cons_append, List.cons_append, List.nil_append]
      refine (badEscape_pct _).mpr ⟨?_, ?_⟩
      · rwa [badEscape_cons (hex_ne_pct hx), badEscape_cons (hex_ne_pct (upperHex_query _).2)]
      · intro a b rest heq
        exact .inl ((List.cons.inj heq).1 ▸ hx)

/-- An escaped query is escaped already. -/
theorem escapeQuery_queryText (h : QueryText q) : escapeQuery q = .ok q := by
  have hclean : q.filter (fun c => c ≠ '\t' && c ≠ '\r' && c ≠ '\n') = q := by
    refine List.filter_eq_self.mpr fun c hc => ?_
    have hkept := h.kept c hc
    simp only [Bool.and_eq_true, decide_eq_true_eq]
    refine ⟨⟨?_, ?_⟩, ?_⟩ <;> rintro rfl <;> cases hkept
  have hsame : q.flatMap (fun c => if queryChar c then [c] else percentEncode c) = q := by
    have hkept := h.kept
    clear hclean h
    induction q with
    | nil => rfl
    | cons c q ih =>
      rw [List.flatMap_cons, if_pos (hkept c List.mem_cons_self), ih fun d hd => hkept d (List.mem_cons_of_mem _ hd)]
      rfl
  rw [escapeQuery, hclean, if_neg (by simp [h.escapes]), hsame]

theorem queryText_of_escapeQuery {raw : List Char} (h : escapeQuery raw = .ok q) : QueryText q := by
  rw [escapeQuery] at h
  split at h
  · cases h
  · next hbad =>
    cases h
    refine ⟨fun c hc => ?_, badEscape_flatMap (by simpa using hbad)⟩
    obtain ⟨d, -, hd⟩ := List.mem_flatMap.mp hc
    exact escapeChar_kept d c hd

theorem QueryText.no_hash (h : QueryText q) : '#' ∉ q := fun hmem => by cases h.kept '#' hmem

theorem QueryText.ascii (h : QueryText q) : isAscii q = true := by
  rw [isAscii, List.all_eq_true]
  intro c hc
  have hkept := h.kept c hc
  simp only [queryChar, within, Bool.or_eq_true, Bool.and_eq_true, decide_eq_true_eq] at hkept
  have hle : c.toNat ≤ '~'.toNat := by
    obtain ((((rfl | h) | h) | rfl) | h) | h := hkept
    all_goals first | decide | exact Nat.le_trans h.2 (by decide)
  exact decide_eq_true (Nat.lt_of_le_of_lt hle (by decide))

end Queries

/-! ## 5. Reading what is printed -/

/-- The port of a scheme. -/
def schemePort (scheme : List Char) : Option Nat :=
  Uri.defaultPort ⟨some scheme, none, none, none, none, none, none, none⟩

section Printed

variable (isIpv6 : List Char → Bool)

/-- **What the parser makes of an HTTP location.** -/
inductive Sound : Uri → Prop where
  | authority {scheme host path : List Char} {userinfo query fragment : Option (List Char)} {port : Nat}
      (hs : SchemeText scheme) (hu : ∀ t ∈ userinfo, Escaped userinfoChar t) (hh : HostText isIpv6 host)
      (hp : port < 2 ^ 64) (hpath : Escaped segChar path) (hroot : Rooted path) (hq : ∀ t ∈ query, QueryText t)
      (hf : ∀ t ∈ fragment, Escaped fragmentChar t) :
      Sound ⟨some scheme, userinfo, some host, some port, some path, none, query, fragment⟩
  | rooted {scheme path : List Char} {query fragment : Option (List Char)} (hs : SchemeText scheme)
      (hpath : Escaped segChar path) (hroot : Rooted path) (hslash : ∀ rest, path ≠ '/' :: '/' :: rest)
      (hq : ∀ t ∈ query, QueryText t) (hf : ∀ t ∈ fragment, Escaped fragmentChar t) :
      Sound ⟨some scheme, none, none, schemePort scheme, some path, none, query, fragment⟩
  | rootless {scheme hier : List Char} {query fragment : Option (List Char)} (hs : SchemeText scheme)
      (hhier : Escaped segChar hier) (hne : hier ≠ []) (hhead : hier.head? ≠ some '/')
      (hq : ∀ t ∈ query, '#' ∉ t ∧ isAscii t = true) (hf : ∀ t ∈ fragment, Escaped fragmentChar t) :
      Sound ⟨some scheme, none, none, schemePort scheme, none, some (hier ++ Uri.withMark '?' query), none, fragment⟩

variable {isIpv6} {scheme hier host path s text : List Char} {userinfo query fragment : Option (List Char)}
  {cls : Char → Bool} {uri : Uri} {tail : Tail}

theorem Escaped.plain (hquery : cls '?' = false) (hhash : cls '#' = false) (hcls : ∀ c, cls c = true → c.toNat < 128)
    (h : Escaped cls s) : Plain s := by
  intro c hc
  have hascii := List.all_eq_true.mp (h.ascii hcls) c hc
  refine ⟨?_, ?_, by simpa using hascii⟩
  · rintro rfl
    exact h.notMem hquery (by decide) (by decide) hc
  · rintro rfl
    exact h.notMem hhash (by decide) (by decide) hc

theorem segChar_ascii {c : Char} (h : segChar c = true) : c.toNat < 128 := by
  simp only [segChar, Bool.or_eq_true, decide_eq_true_eq] at h
  obtain ((h | rfl) | rfl) | rfl := h
  · exact isUnreservedOrSub_ascii h
  all_goals decide

theorem fragmentChar_ascii {c : Char} (h : fragmentChar c = true) : c.toNat < 128 := by
  simp only [fragmentChar, Bool.or_eq_true, decide_eq_true_eq] at h
  obtain (((h | rfl) | rfl) | rfl) | rfl := h
  · exact isUnreservedOrSub_ascii h
  all_goals decide

theorem userinfoChar_ascii {c : Char} (h : userinfoChar c = true) : c.toNat < 128 := by
  simp only [userinfoChar, Bool.or_eq_true, decide_eq_true_eq] at h
  obtain h | rfl := h
  · exact isUnreservedOrSub_ascii h
  · decide

theorem HostText.plain (h : HostText isIpv6 host) : Plain host := by
  obtain hname | ⟨inner, rfl, -, -, hplain⟩ := h
  · exact hname.plain rfl rfl fun _ => isUnreservedOrSub_ascii
  · exact plain_cons (by decide) (plain_append.mpr ⟨hplain, plain_cons (by decide) plain_nil⟩)

theorem isAscii_withMark {mark : Char} {part : Option (List Char)} (hmark : mark.toNat < 128)
    (h : ∀ t ∈ part, isAscii t = true) : isAscii (Uri.withMark mark part) = true := by
  cases part with
  | none => rfl
  | some t =>
    have ht := h t rfl
    rw [isAscii, List.all_eq_true] at ht ⊢
    intro c hc
    obtain rfl | hc := List.mem_cons.mp hc
    · exact decide_eq_true hmark
    · exact ht c hc

theorem isAscii_query (hq : ∀ t ∈ query, isAscii t = true) : isAscii (Uri.withMark '?' query) = true :=
  isAscii_withMark (by decide) hq

theorem isAscii_fragment (hf : ∀ t ∈ fragment, Escaped fragmentChar t) :
    isAscii (Uri.withMark '#' fragment) = true :=
  isAscii_withMark (by decide) fun t ht => (hf t ht).ascii fun _ => fragmentChar_ascii

theorem isSchemeChar_ascii {c : Char} (h : isSchemeChar c = true) : c.toNat < 128 := by
  simp only [isSchemeChar, isAlphabetic, within, Bool.or_eq_true, Bool.and_eq_true, decide_eq_true_eq,
    Char.isDigit] at h
  have hle : c.toNat ≤ 'z'.toNat := by
    obtain ((((h | h) | h) | rfl) | rfl) | rfl := h
    · exact h.2
    · exact Nat.le_trans h.2 (by decide)
    · exact Nat.le_trans (show c.toNat ≤ 57 from h.2) (by decide)
    all_goals decide
  exact Nat.lt_of_le_of_lt hle (by decide)

theorem SchemeText.ascii (h : SchemeText scheme) : isAscii (scheme ++ [':']) = true := by
  rw [isAscii_append]
  refine ⟨?_, rfl⟩
  rw [isAscii, List.all_eq_true]
  exact fun c hc => decide_eq_true (isSchemeChar_ascii (h.chars c hc))

theorem isAlphabetic_schemeChar {c : Char} (h : isAlphabetic c = true) : isSchemeChar c = true := by
  simp [isSchemeChar, h]

/-- A scheme in front of its colon is split off. -/
theorem splitAbsolute_append (hs : SchemeText scheme) (htail : parseQueryFragment text = some tail) :
    splitAbsolute isIpv6 (scheme ++ [':'] ++ text) = splitHier isIpv6 scheme tail := by
  have hstop : ∀ c ∈ (':' :: text).head?, isSchemeChar c = false := by
    intro c hc
    cases hc
    rfl
  have htake := takeWhile_stop hs.chars hstop
  have hdrop := dropWhile_stop hs.chars hstop
  obtain ⟨c, rest, rfl, hc⟩ := hs.head
  rw [List.append_assoc, List.singleton_append]
  rw [List.cons_append] at htake hdrop ⊢
  rw [splitAbsolute, hc]
  simp only [Bool.not_true, Bool.false_eq_true, if_false, htake, hdrop, htail, Option.bind_eq_bind, Option.bind_some]

theorem checkSchemeClass_http (hscheme : uri.scheme = some scheme) (hs : SchemeText scheme) :
    checkSchemeClass uri = .ok () := by
  have hname : scheme.map toLower = "http".toList ∨ scheme.map toLower = "https".toList := by
    simpa only [sameScheme, decide_eq_true_eq] using hs.http
  have hother : ∀ name : String, name.toList ≠ "http".toList → name.toList ≠ "https".toList →
      uri.hasScheme name = false := by
    intro name h1 h2
    rw [Uri.hasScheme, hscheme, Option.any_some, sameScheme, decide_eq_false_iff_not]
    intro heq
    obtain h | h := hname
    · exact h1 (heq.symm.trans h)
    · exact h2 (heq.symm.trans h)
  rw [checkSchemeClass, hother "mailto" (by decide) (by decide), hother "ldap" (by decide) (by decide),
    hother "ldaps" (by decide) (by decide), hother "ftp" (by decide) (by decide)]
  rfl

/-- What is split off is kept, but for the port that is missing. -/
theorem assign_eq (hs : SchemeText scheme) (userinfo host path o fragment : Option (List Char)) (port : Option Nat)
    (hq : ∀ q ∈ query, QueryText q) :
    assign ⟨some scheme, userinfo, host, port, path, o, query, fragment⟩ =
      .ok ⟨some scheme, userinfo, host, port <|> schemePort scheme, path, o, query, fragment⟩ := by
  have hcheck : checkSchemeClass ⟨some scheme, userinfo, host, port <|> schemePort scheme, path, o, query, fragment⟩ =
      .ok () := checkSchemeClass_http rfl hs
  rw [assign]
  cases query with
  | none => exact (congrArg (· >>= fun _ => _) hcheck).trans rfl
  | some q =>
    simp only [escapeQuery_queryText (hq q rfl)]
    exact (congrArg (· >>= fun _ => _) hcheck).trans rfl

theorem parse_printed {uri' : Uri} (hs : SchemeText scheme) (hascii : isAscii text = true)
    (htail : parseQueryFragment text = some tail) (hhier : splitHier isIpv6 scheme tail = some uri)
    (hassign : assign uri = .ok uri') : parse isIpv6 (scheme ++ [':'] ++ text) = .ok uri' := by
  have hall : isAscii (scheme ++ [':'] ++ text) = true := isAscii_append.mpr ⟨hs.ascii, hascii⟩
  rw [parse, hall]
  simp only [Bool.not_true, Bool.false_eq_true, if_false, splitAbsolute_append hs htail, hhier]
  exact hassign

theorem schemePort_http (hs : SchemeText scheme) : ∃ port, schemePort scheme = some port ∧ port < 2 ^ 64 := by
  obtain h | h := hs.http
  · exact ⟨80, by simp [schemePort, Uri.defaultPort, Uri.hasScheme, h], by decide⟩
  · rw [schemePort, Uri.defaultPort]
    split
    · exact ⟨80, rfl, by decide⟩
    · exact ⟨443, by simp [Uri.hasScheme, h], by decide⟩

theorem portText_some (scheme : List Char) (userinfo host path o query fragment : Option (List Char)) (port : Nat) :
    Uri.portText ⟨some scheme, userinfo, host, some port, path, o, query, fragment⟩ =
      printedPort (if some port ≠ schemePort scheme then some port else none) := by
  rw [Uri.portText]
  have hport : Uri.defaultPort ⟨some scheme, userinfo, host, some port, path, o, query, fragment⟩ =
      schemePort scheme := rfl
  simp only [hport]
  split <;> rfl

theorem scheme_not_file (hs : SchemeText scheme) :
    scheme ≠ ['f', 'i', 'l', 'e'] ∧ scheme ≠ ['p', 'o', 's', 't', 'g', 'r', 'e', 's'] := by
  constructor <;> rintro rfl <;> obtain h | h := hs.http <;> cases h

theorem splitHier_rooted (hpath : Escaped segChar path) (hroot : Rooted path)
    (hslash : ∀ rest, path ≠ '/' :: '/' :: rest) (query fragment : Option (List Char)) :
    splitHier isIpv6 scheme ⟨path, query, fragment⟩ =
      some ⟨some scheme, none, none, none, some path, none, query, fragment⟩ := by
  match path with
  | [] => rfl
  | ['/'] =>
    have hwhole := hpath.whole (by decide)
    simp [splitHier, hwhole]
  | c :: d :: rest =>
    obtain rfl : c = '/' := hroot.head_eq c rfl
    have hwhole := hpath.whole (by decide)
    have hd : d ≠ '/' := fun h => hslash rest (by rw [h])
    simp [splitHier, hwhole, hd]
  | [c] =>
    obtain rfl : c = '/' := hroot.head_eq c rfl
    have hwhole := hpath.whole (by decide)
    simp [splitHier, hwhole]

theorem splitHier_rootless (hhier : Escaped segChar hier) (hne : hier ≠ []) (hhead : hier.head? ≠ some '/')
    (query fragment : Option (List Char)) :
    splitHier isIpv6 scheme ⟨hier, query, fragment⟩ =
      some ⟨some scheme, none, none, none, none, some (hier ++ Uri.withMark '?' query), none, fragment⟩ := by
  match hier with
  | [] => exact absurd rfl hne
  | c :: rest =>
    have hwhole := hhier.whole (by decide)
    have hc : c ≠ '/' := fun h => hhead (by rw [h]; rfl)
    simp [splitHier, hwhole, hc]

theorem splitHier_authority (hu : ∀ t ∈ userinfo, Escaped userinfoChar t) (hh : HostText isIpv6 host)
    (port : Option Nat) (hport : ∀ p ∈ port, p < 2 ^ 64) (hpath : Escaped segChar path) (hroot : Rooted path)
    (query fragment : Option (List Char)) :
    splitHier isIpv6 scheme
        ⟨'/' :: '/' :: ((userinfo.map (· ++ ['@'])).getD [] ++ (host ++ (printedPort port ++ path))), query, fragment⟩ =
      some ⟨some scheme, userinfo, some host, port, some path, none, query, fragment⟩ := by
  have hwhole := hpath.whole (by decide)
  have hhead : path ≠ [] → path.head? = some '/' := hroot.resolve_left
  simp only [splitHier, parseAuthority_append hu hh port hport hroot, Option.bind_eq_bind, Option.bind_some]
  rw [if_neg]
  rintro ⟨hne, h | h⟩
  · exact h (hhead hne)
  · exact h hwhole

theorem toS_hostless (hs : SchemeText scheme) (path : List Char) (query fragment : Option (List Char)) :
    Uri.toS ⟨some scheme, none, none, schemePort scheme, some path, none, query, fragment⟩ =
      scheme ++ [':'] ++ (path ++ (Uri.withMark '?' query ++ Uri.withMark '#' fragment)) := by
  obtain ⟨port, hport, -⟩ := schemePort_http hs
  have htext : Uri.portText ⟨some scheme, none, none, some port, some path, none, query, fragment⟩ = [] := by
    rw [portText_some, if_neg (by simp [hport])]
    rfl
  rw [hport]
  simp [Uri.toS, Uri.body, htext, scheme_not_file hs]

theorem toS_host (scheme host path : List Char) (userinfo query fragment : Option (List Char)) (port : Nat) :
    Uri.toS ⟨some scheme, userinfo, some host, some port, some path, none, query, fragment⟩ =
      scheme ++ [':'] ++ ('/' :: '/' :: ((userinfo.map (· ++ ['@'])).getD [] ++
        (host ++ (printedPort (if some port ≠ schemePort scheme then some port else none) ++ path))) ++
          (Uri.withMark '?' query ++ Uri.withMark '#' fragment)) := by
  rw [← portText_some scheme userinfo (some host) (some path) none query fragment port]
  simp [Uri.toS, Uri.body]

theorem plain_authority (hu : ∀ t ∈ userinfo, Escaped userinfoChar t) (hh : HostText isIpv6 host) (port : Option Nat)
    (hpath : Escaped segChar path) :
    Plain ('/' :: '/' :: ((userinfo.map (· ++ ['@'])).getD [] ++ (host ++ (printedPort port ++ path)))) := by
  refine plain_cons (by decide) (plain_cons (by decide) (plain_append.mpr ⟨?_, plain_append.mpr ⟨hh.plain,
    plain_append.mpr ⟨?_, hpath.plain rfl rfl fun _ => segChar_ascii⟩⟩⟩))
  · cases userinfo with
    | none => exact plain_nil
    | some t =>
      exact plain_append.mpr ⟨(hu t rfl).plain rfl rfl fun _ => userinfoChar_ascii, plain_cons (by decide) plain_nil⟩
  · exact (printedPort_escaped port).plain rfl rfl fun _ => userinfoChar_ascii

/-- **A sound URL is read from its text as it is.** -/
theorem parse_toS (h : Sound isIpv6 uri) : parse isIpv6 uri.toS = .ok uri := by
  cases h with
  | @authority scheme host path userinfo query fragment port hs hu hh hp hpath hroot hq hf =>
    rw [toS_host]
    generalize hshown : (if some port ≠ schemePort scheme then some port else none) = shown
    have hport : (shown <|> schemePort scheme) = some port := by
      rw [← hshown]
      split
      · rfl
      · next h => exact (not_not.mp h).symm
    have hlt : ∀ p ∈ shown, p < 2 ^ 64 := by
      rintro p rfl
      split at hshown <;> cases hshown
      exact hp
    have hplain := plain_authority hu hh shown hpath
    have hascii := isAscii_append.mpr ⟨hplain.ascii, isAscii_append.mpr
      ⟨isAscii_query fun t ht => (hq t ht).ascii, isAscii_fragment hf⟩⟩
    have htail := parseQueryFragment_append hplain (fun q hq' => (hq q hq').no_hash) hf
    refine parse_printed hs hascii htail (splitHier_authority hu hh shown hlt hpath hroot query fragment) ?_
    rw [assign_eq hs _ _ _ _ _ _ hq, hport]
  | @rooted scheme path query fragment hs hpath hroot hslash hq hf =>
    rw [toS_hostless hs]
    have hplain := hpath.plain rfl rfl fun _ => segChar_ascii
    have hascii := isAscii_append.mpr ⟨hplain.ascii, isAscii_append.mpr
      ⟨isAscii_query fun t ht => (hq t ht).ascii, isAscii_fragment hf⟩⟩
    have htail := parseQueryFragment_append hplain (fun q hq' => (hq q hq').no_hash) hf
    exact parse_printed hs hascii htail (splitHier_rooted hpath hroot hslash query fragment)
      (assign_eq hs _ _ _ _ _ _ hq)
  | @rootless scheme hier query fragment hs hhier hne hhead hq hf =>
    have hprint : Uri.toS ⟨some scheme, none, none, schemePort scheme, none,
        some (hier ++ Uri.withMark '?' query), none, fragment⟩ =
        scheme ++ [':'] ++ (hier ++ (Uri.withMark '?' query ++ Uri.withMark '#' fragment)) := by
      simp [Uri.toS, Uri.body]
    rw [hprint]
    have hplain := hhier.plain rfl rfl fun _ => segChar_ascii
    have hascii := isAscii_append.mpr ⟨hplain.ascii, isAscii_append.mpr
      ⟨isAscii_query fun t ht => (hq t ht).2, isAscii_fragment hf⟩⟩
    have htail := parseQueryFragment_append hplain (fun q hq' => (hq q hq').1) hf
    exact parse_printed hs hascii htail (splitHier_rootless hhier hne hhead query fragment)
      (assign_eq hs _ _ _ _ _ _ fun q hq => by cases hq)

end Printed

/-! ## 6. What is read -/

section Readings

variable {isIpv6 : List Char → Bool} {scheme value s rest : List Char} {uri uri' : Uri} {tail : Tail}

/-- What `assign` changes: the query, and a port that is missing. -/
theorem assign_eq_ok (h : assign uri = .ok uri') :
    ∃ query, uri' = { uri with query := query, port := uri.port <|> uri.defaultPort } ∧
      (∀ q ∈ query, QueryText q) ∧ (uri.query = none → query = none) := by
  obtain ⟨sch, ui, host, port, path, o, query, fragment⟩ := uri
  rw [assign] at h
  cases query with
  | none =>
    refine ⟨none, ?_, fun q hq => absurd hq (by simp), fun _ => rfl⟩
    simp only [bind, Except.bind] at h
    split at h
    · cases h
    · exact (Except.ok.inj h).symm
  | some raw =>
    simp only at h
    cases hq : escapeQuery raw with
    | error e =>
      rw [hq] at h
      cases h
    | ok q =>
      rw [hq] at h
      refine ⟨some q, ?_, fun q' hq' => ?_, fun h => by cases h⟩
      · simp only [Except.map, bind, Except.bind] at h
        split at h
        · cases h
        · exact (Except.ok.inj h).symm
      · obtain rfl := Option.some.inj hq'
        exact queryText_of_escapeQuery hq

theorem splitUserinfo_spec (s : List Char) :
    (∀ t ∈ (splitUserinfo s).1, Escaped userinfoChar t) ∧ ∃ front, s = front ++ (splitUserinfo s).2 := by
  obtain ⟨hescaped, hcut⟩ := takeWhileClass_spec userinfoChar s
  rw [splitUserinfo]
  split
  · next rest heq =>
    refine ⟨fun t ht => ?_, (takeWhileClass userinfoChar s).1 ++ ['@'], ?_⟩
    · obtain rfl := Option.some.inj ht
      exact hescaped
    · rw [List.append_assoc, List.singleton_append, ← heq, hcut]
  · exact ⟨fun t ht => absurd ht (by simp), [], rfl⟩

theorem splitHost_text (hs : Plain s) : HostText isIpv6 (splitHost isIpv6 s).1 := by
  rw [splitHost]
  cases hlit : ipLiteral isIpv6 s with
  | none => exact .inl (takeWhileClass_spec _ s).1
  | some pair =>
    refine .inr ?_
    match s with
    | [] => cases hlit
    | c :: rest =>
      rw [ipLiteral.eq_def] at hlit
      split at hlit
      · next rest' heq =>
        obtain ⟨rfl, rfl⟩ := List.cons.inj heq
        split at hlit
        · next d behind hbehind =>
          split at hlit
          · next hvalid =>
            obtain rfl := Option.some.inj hlit
            refine ⟨_, rfl, fun hmem => by simpa using List.mem_takeWhile_imp hmem, hvalid, fun c hc => ?_⟩
            exact hs c (List.mem_cons_of_mem _ ((List.takeWhile_prefix _).subset hc))
          · cases hlit
        · cases hlit
      · cases hlit

theorem splitPort_lt (s : List Char) : ∀ p ∈ (splitPort s).1, p < 2 ^ 64 := by
  intro p hp
  rw [splitPort.eq_def] at hp
  split at hp
  · rw [parsePort] at hp
    split at hp
    · cases hp
    · obtain rfl := Option.some.inj hp
      omega
  · cases hp

/-- The parts of an authority that is read, each of its kind. -/
theorem parseAuthority_eq_some {authority : Authority} (h : parseAuthority isIpv6 s = some authority) (hs : Plain s) :
    (∀ t ∈ authority.userinfo, Escaped userinfoChar t) ∧ HostText isIpv6 authority.host ∧
      (∀ p ∈ authority.port, p < 2 ^ 64) ∧ Rooted authority.path := by
  rw [parseAuthority] at h
  simp only at h
  split at h
  · next hpath =>
    obtain rfl := Option.some.inj h
    obtain ⟨huser, front, hcut⟩ := splitUserinfo_spec s
    have hrest : Plain (splitUserinfo s).2 := by
      rw [hcut] at hs
      exact (plain_append.mp hs).2
    exact ⟨huser, splitHost_text hrest, splitPort_lt _, hpath⟩
  · cases h

theorem isAscii_mem {c : Char} (h : isAscii s = true) (hc : c ∈ s) : c.toNat < 128 := by
  simpa using List.all_eq_true.mp h c hc

/-- The tail of an ASCII text, each part of its kind. -/
theorem tail_parts (h : parseQueryFragment s = some tail) (hs : isAscii s = true) :
    Plain tail.hier ∧ (∀ q ∈ tail.query, '#' ∉ q ∧ isAscii q = true) ∧
      ∀ f ∈ tail.fragment, Escaped fragmentChar f := by
  obtain ⟨heq, hhier, hq, hf⟩ := parseQueryFragment_eq_some h
  rw [heq, isAscii_append, isAscii_append] at hs
  refine ⟨fun c hc => ⟨(hhier c hc).1, (hhier c hc).2, isAscii_mem hs.1 hc⟩, fun q hmem => ⟨hq q hmem, ?_⟩, hf⟩
  have hquery := hs.2.1
  obtain ⟨_, query, _⟩ := tail
  obtain rfl : query = some q := hmem
  exact (isAscii_append (s := ['?'])).mp hquery |>.2

theorem splitAbsolute_eq_some (h : splitAbsolute isIpv6 value = some uri) :
    ∃ scheme text tail, value = scheme ++ ':' :: text ∧ (∃ c rest, scheme = c :: rest ∧ isAlphabetic c = true) ∧
      (∀ c ∈ scheme, isSchemeChar c = true) ∧ parseQueryFragment text = some tail ∧
      splitHier isIpv6 scheme tail = some uri := by
  match value with
  | [] => cases h
  | c :: rest =>
    rw [splitAbsolute] at h
    split at h
    · cases h
    · next hc =>
      have halpha : isAlphabetic c = true := by simpa using hc
      split at h
      · next text heq =>
        obtain ⟨tail, htail, hhier⟩ := Option.bind_eq_some_iff.mp h
        have hcut := List.takeWhile_append_dropWhile (p := isSchemeChar) (l := c :: rest)
        rw [heq] at hcut
        refine ⟨_, text, tail, hcut.symm, ⟨c, rest.takeWhile isSchemeChar, ?_, halpha⟩,
          fun d hd => List.mem_takeWhile_imp hd, htail, hhier⟩
        rw [List.takeWhile_cons_of_pos (isAlphabetic_schemeChar halpha)]
      · cases h

theorem schemeText_of_http (hscheme : uri.scheme = some scheme) (hhttp : uri.isHttp = true)
    (hhead : ∃ c rest, scheme = c :: rest ∧ isAlphabetic c = true) (hchars : ∀ c ∈ scheme, isSchemeChar c = true) :
    SchemeText scheme := by
  refine ⟨hhead, hchars, ?_⟩
  simpa [Uri.isHttp, Uri.hasScheme, hscheme] using hhttp

/-- What is split off behind an HTTP scheme, once it is assigned. -/
theorem sound_of_split (h : splitHier isIpv6 scheme tail = some uri) (hassign : assign uri = .ok uri')
    (hs : SchemeText scheme) (hplain : Plain tail.hier) (hq : ∀ q ∈ tail.query, '#' ∉ q ∧ isAscii q = true)
    (hf : ∀ f ∈ tail.fragment, Escaped fragmentChar f) : Sound isIpv6 uri' := by
  obtain ⟨query, rfl, hquery, hnone⟩ := assign_eq_ok hassign
  rw [splitHier.eq_def] at h
  simp only at h
  split at h
  · next rest heq =>
    obtain ⟨authority, hauthority, h⟩ := Option.bind_eq_some_iff.mp h
    rw [heq] at hplain
    have hplain' : Plain rest := fun c hc => hplain c (List.mem_cons_of_mem _ (List.mem_cons_of_mem _ hc))
    obtain ⟨hu, hh, hport, hroot⟩ := parseAuthority_eq_some hauthority hplain'
    split at h
    · cases h
    · next hpath =>
      obtain rfl := Option.some.inj h
      have hescaped : Escaped segChar authority.path := by
        by_cases hne : authority.path = []
        · rw [hne]
          exact .nil
        · refine escaped_of_whole (by_contra fun hwhole => hpath ⟨hne, .inr hwhole⟩)
      obtain ⟨default, hdefault, hlt⟩ := schemePort_http hs
      obtain ⟨port, hsome, hbound⟩ : ∃ port, (authority.port <|> schemePort scheme) = some port ∧ port < 2 ^ 64 := by
        cases hp : authority.port with
        | none => exact ⟨default, hdefault, hlt⟩
        | some port => exact ⟨port, rfl, hport port hp⟩
      have hsound := Sound.authority hs hu hh hbound hescaped hroot hquery hf
      rw [← hsome] at hsound
      exact hsound
  · obtain rfl := Option.some.inj h
    exact .rooted hs .nil (.inl rfl) (by simp) hquery hf
  · next rest hslash heq =>
    split at h
    · cases h
    · next hwhole =>
      obtain rfl := Option.some.inj h
      exact .rooted hs (escaped_of_whole (not_not.mp hwhole)) (.inr rfl)
        (fun rest' heq' => hslash rest' (List.cons.inj heq').2) hquery hf
  · next hslash2 hne hslash =>
    split at h
    · cases h
    · next hwhole =>
      obtain rfl := Option.some.inj h
      obtain rfl := hnone rfl
      refine .rootless hs (escaped_of_whole (not_not.mp hwhole)) hne (fun hhead => ?_) hq hf
      obtain ⟨rest, heq⟩ := List.head?_eq_some_iff.mp hhead
      exact hslash rest heq

theorem splitHier_scheme (h : splitHier isIpv6 scheme tail = some uri) : uri.scheme = some scheme := by
  rw [splitHier.eq_def] at h
  simp only at h
  split at h
  · obtain ⟨authority, -, h⟩ := Option.bind_eq_some_iff.mp h
    split at h
    · cases h
    · obtain rfl := Option.some.inj h
      rfl
  · obtain rfl := Option.some.inj h
    rfl
  · split at h
    · cases h
    · obtain rfl := Option.some.inj h
      rfl
  · split at h
    · cases h
    · obtain rfl := Option.some.inj h
      rfl

/-- A text that is read is split, absolutely or relatively. -/
theorem parse_eq_ok (h : parse isIpv6 value = .ok uri) :
    isAscii value = true ∧ ∃ parts, assign parts = .ok uri ∧
      (splitAbsolute isIpv6 value = some parts ∨
        splitAbsolute isIpv6 value = none ∧ splitRelative isIpv6 value = some parts) := by
  rw [parse] at h
  split at h
  · cases h
  · next hascii =>
    refine ⟨by simpa using hascii, ?_⟩
    split at h
    · cases h
    · next parts heq =>
      refine ⟨parts, h, ?_⟩
      cases habsolute : splitAbsolute isIpv6 value with
      | some parts' =>
        rw [habsolute] at heq
        exact .inl heq
      | none =>
        rw [habsolute] at heq
        exact .inr ⟨rfl, heq⟩

theorem splitRelative_eq_some (h : splitRelative isIpv6 value = some uri) :
    ∃ tail, parseQueryFragment value = some tail ∧ validRelative isIpv6 tail.hier = true ∧
      uri = ⟨none, none, none, none, some tail.hier, none, tail.query, tail.fragment⟩ := by
  obtain ⟨tail, htail, h⟩ := Option.bind_eq_some_iff.mp h
  split at h
  · next hvalid => exact ⟨tail, htail, hvalid, (Option.some.inj h).symm⟩
  · cases h

/-- **What is read of an HTTP location is sound.** -/
theorem sound_of_parse (h : parse isIpv6 value = .ok uri) (hhttp : uri.isHttp = true) : Sound isIpv6 uri := by
  obtain ⟨hascii, parts, hassign, habsolute | ⟨-, hrelative⟩⟩ := parse_eq_ok h
  · obtain ⟨scheme, text, tail, rfl, hhead, hchars, htail, hhier⟩ := splitAbsolute_eq_some habsolute
    have htext : isAscii text = true := ((isAscii_append (s := [':'])).mp (isAscii_append.mp hascii).2).2
    obtain ⟨hplain, hq, hf⟩ := tail_parts htail htext
    have hscheme : uri.scheme = some scheme := by
      obtain ⟨query, rfl, -, -⟩ := assign_eq_ok hassign
      have hparts := splitHier_scheme hhier
      exact hparts
    exact sound_of_split hhier hassign (schemeText_of_http hscheme hhttp hhead hchars) hplain hq hf
  · obtain ⟨tail, -, -, rfl⟩ := splitRelative_eq_some hrelative
    obtain ⟨query, rfl, -, -⟩ := assign_eq_ok hassign
    cases hhttp

theorem escaped_of_relative {hier : List Char} (h : validRelative isIpv6 hier = true)
    (hslash : ∀ rest, hier ≠ '/' :: '/' :: rest) : Escaped segChar hier := by
  rw [validRelative.eq_def] at h
  split at h
  · next rest => exact absurd rfl (hslash rest)
  · exact .nil
  · exact escaped_of_whole (by simpa using h)
  · obtain ⟨hfirst, hcut⟩ := takeWhileClass_spec segNcChar hier
    have hseg : Escaped segChar (takeWhileClass segNcChar hier).1 := hfirst.mono fun c hc => by
      simp only [segNcChar, segChar, Bool.or_eq_true] at hc ⊢
      obtain hc | hc := hc
      · exact .inl (.inl (.inl hc))
      · exact .inl (.inr hc)
    simp only [Bool.and_eq_true, Bool.or_eq_true, decide_eq_true_eq] at h
    rw [← hcut]
    obtain ⟨-, hend | ⟨-, hwhole⟩⟩ := h
    · rw [hend, List.append_nil]
      exact hseg
    · exact hseg.append (escaped_of_whole hwhole)

/-- What is read of a location without a scheme and an authority. -/
theorem relative_of_parse (h : parse isIpv6 value = .ok uri) (hscheme : uri.scheme = none)
    (hslash : ∀ rest, value ≠ '/' :: '/' :: rest) :
    ∃ path, uri.path = some path ∧ Escaped segChar path ∧ (∀ q ∈ uri.query, QueryText q) ∧
      ∀ f ∈ uri.fragment, Escaped fragmentChar f := by
  obtain ⟨hascii, parts, hassign, habsolute | ⟨-, hrelative⟩⟩ := parse_eq_ok h
  · obtain ⟨scheme, text, tail, rfl, -, -, -, hhier⟩ := splitAbsolute_eq_some habsolute
    obtain ⟨query, rfl, -, -⟩ := assign_eq_ok hassign
    have hparts := splitHier_scheme hhier
    cases hparts.symm.trans hscheme
  · obtain ⟨tail, htail, hvalid, rfl⟩ := splitRelative_eq_some hrelative
    obtain ⟨-, -, hf⟩ := tail_parts htail hascii
    obtain ⟨query, rfl, hq, -⟩ := assign_eq_ok hassign
    refine ⟨tail.hier, rfl, escaped_of_relative hvalid fun rest heq => ?_, hq, hf⟩
    have hvalue := (parseQueryFragment_eq_some htail).1
    rw [heq] at hvalue
    exact hslash _ hvalue

/-- **Printing an HTTP location loses nothing**: its text is read as the same location, and two locations that
    were read print the same only if they are the same. -/
theorem toS_canonical (h : parse isIpv6 value = .ok uri) (hhttp : uri.isHttp = true) :
    parse isIpv6 uri.toS = .ok uri ∧
      ∀ value' uri', parse isIpv6 value' = .ok uri' → uri'.isHttp = true → uri.toS = uri'.toS → uri = uri' := by
  have hread := parse_toS (sound_of_parse h hhttp)
  refine ⟨hread, fun value' uri' h' hhttp' htext => ?_⟩
  have hread' := parse_toS (sound_of_parse h' hhttp')
  rw [htext, hread'] at hread
  exact (Except.ok.inj hread).symm

end Readings

/-- A default port is not printed, and is read again. -/
theorem toS_canonical_sample :
    ∃ uri, parse (fun _ => false) "HTTP://ab.c:80/d%41?e#f".toList = .ok uri ∧
      parse (fun _ => false) uri.toS = .ok uri := by
  refine ⟨_, rfl, ?_⟩
  exact (@toS_canonical _ "HTTP://ab.c:80/d%41?e#f".toList _ rfl rfl).1

end Net

end Smartfire
