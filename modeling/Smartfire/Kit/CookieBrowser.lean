/-
  File:      Smartfire/Kit/CookieBrowser.lean
  Subject:   What the cookie jar tells the browser is what it tells the application.

  * `Store`, `receive`, `request` -- a browser's cookies, a `Set-Cookie` header, and the next `Cookie` header;
  * `Sendable` -- a store whose cookies are told apart again in the header it sends;
  * `Call`, `CookieJar.calls` -- what an application asks of the jar;
  * `told_calls` -- what waits in the jar is how it differs from the request;
  * `nextRequest_get` -- the next request has every cookie as the jar had it at the end.
-/
import Smartfire.Kit.Cookies
import Smartfire.Lib.Split

namespace Smartfire.Cookies

open Lib

/-! ## 1. A browser -/

/-- A cookie as the browser holds it: the value as it goes over the wire. -/
structure Held where
  wire : Bytes
  secure : Bool
deriving DecidableEq

abbrev Store := List (Bytes × Held)

/-- The cookies a request came with. Whether one is secure plays no part over HTTPS, and one sent over HTTP is
    not. -/
def held (headers : List Bytes) : Store :=
  (Assoc.firstWins [] (headers.flatMap fun header => (cookieParts header).map cookiePair)).map fun e =>
    (e.1, ⟨e.2, false⟩)

/-- A name and a value, or a name alone. -/
def attributeOf (part : Bytes) : Bytes × Bytes := cookiePair (part.dropWhile (· = byte ' '))

/-- Whether a cookie is of age 0, or else of a date that `past` finds to be over. -/
def isOver (past : Bytes → Bool) (attributes : List (Bytes × Bytes)) : Bool :=
  match Assoc.get attributes (text "max-age") with
  | some age => age == text "0"
  | none => (Assoc.get attributes (text "expires")).any past

/-- A `Set-Cookie` header: a cookie that is over is dropped, and any other is held in the place of the one with its
    name. -/
def receive (past : Bytes → Bool) (store : Store) (header : Bytes) : Store :=
  match header.splitOn (byte ';') with
  | [] => store
  | pair :: parts =>
    let (name, wire) := cookiePair pair
    let attributes := parts.map attributeOf
    if isOver past attributes then store.filter (·.1 ≠ name)
    else Assoc.upsert store name ⟨wire, (Assoc.get attributes (text "secure")).isSome⟩

/-- The `Cookie` header of the next request. -/
def request (ssl : Bool) (store : Store) : Bytes :=
  (text "; ").intercalate ((store.filter fun e => ssl || !e.2.secure).map fun e => e.1 ++ text "=" ++ e.2.wire)

example : receive (fun _ => false) [(text "a", ⟨text "1", false⟩), (text "b", ⟨text "2", false⟩)]
    (text "a=x+y; path=/; secure; samesite=lax") = [(text "a", ⟨text "x+y", true⟩), (text "b", ⟨text "2", false⟩)] :=
  by decide +kernel

/-! ## 2. Texts with semicolons -/

/-- Parts joined by `; ` come apart again, a space in front of all but the first. -/
theorem splitOn_joined {first : Bytes} {rest : List Bytes} (hfirst : byte ';' ∉ first)
    (hrest : ∀ part ∈ rest, byte ';' ∉ part) :
    (first ++ rest.flatMap (text "; " ++ ·)).splitOn (byte ';') = first :: rest.map (byte ' ' :: ·) := by
  induction rest generalizing first with
  | nil => simpa using List.splitOn_eq_singleton hfirst
  | cons part rest ih =>
    have hspace : byte ';' ∉ byte ' ' :: part := by
      have hne : byte ';' ≠ byte ' ' := by decide
      simpa [hne] using hrest part List.mem_cons_self
    have hjoin : first ++ (part :: rest).flatMap (text "; " ++ ·) =
        first ++ byte ';' :: ((byte ' ' :: part) ++ rest.flatMap (text "; " ++ ·)) := by
      simp [List.flatMap_cons, text]
    rw [hjoin, List.splitOn_append_cons_self_of_not_mem hfirst,
      ih hspace fun p hp => hrest p (List.mem_cons_of_mem _ hp)]
    rfl

/-- The first part stands as it is, the others without the spaces in front. -/
theorem cookieParts_of_splitOn {header first : Bytes} {rest : List Bytes}
    (h : header.splitOn (byte ';') = first :: rest) :
    cookieParts header = (first :: rest.map fun part => part.dropWhile (· = byte ' ')).filter (! ·.isEmpty) := by
  have hrest : (rest.mapIdx fun _ part => part.dropWhile (· = byte ' ')) =
      rest.map fun part => part.dropWhile (· = byte ' ') := by
    have hfst := congrArg (List.map fun part : Bytes => part.dropWhile (· = byte ' ')) (List.zipIdx_map_fst 0 rest)
    rw [List.map_map] at hfst
    rw [List.mapIdx_eq_zipIdx_map]
    exact hfst
  rw [cookieParts, h, List.mapIdx_cons]
  simp only [if_true, Nat.add_eq_zero_iff, Nat.one_ne_zero, and_false, if_false, hrest]

/-- The parts of a joined text, where no part but the first starts with a space and none is empty. -/
theorem cookieParts_intercalate {parts : List Bytes} (hplain : ∀ part ∈ parts, byte ';' ∉ part ∧ part ≠ [])
    (hspace : ∀ part ∈ parts.tail, part.head? ≠ some (byte ' ')) :
    cookieParts ((text "; ").intercalate parts) = parts := by
  cases parts with
  | nil => rfl
  | cons first rest =>
    have htrim : ∀ part ∈ rest, (byte ' ' :: part).dropWhile (· = byte ' ') = part := by
      intro part hpart
      have hhead := hspace part hpart
      cases part with
      | nil => simp
      | cons b part =>
        have hb : b ≠ byte ' ' := by simpa using hhead
        simp [hb]
    have hmap : (rest.map (byte ' ' :: ·)).map (fun part => part.dropWhile (· = byte ' ')) = rest := by
      rw [List.map_map]
      exact (List.map_congr_left htrim).trans (List.map_id rest)
    have hsplit : ((text "; ").intercalate (first :: rest)).splitOn (byte ';') =
        first :: rest.map (byte ' ' :: ·) := by
      rw [intercalate_eq_flatMap]
      exact splitOn_joined (hplain first List.mem_cons_self).1
        fun part hp => (hplain part (List.mem_cons_of_mem _ hp)).1
    rw [cookieParts_of_splitOn hsplit, hmap]
    exact List.filter_eq_self.mpr fun part hp => by simpa using (hplain part hp).2

/-! ## 3. One header received -/

/-- A name that stands in a header as it is. -/
structure PlainName (name : Bytes) : Prop where
  noEquals : byte '=' ∉ name
  noSemicolon : byte ';' ∉ name
  noSpace : byte ' ' ∉ name

/-- An attribute where it has a value. -/
def piece (name : Bytes) (value : Option Bytes) : List (Bytes × Bytes) := value.toList.map (name, ·)

theorem get_piece_append (name : Bytes) (value : Option Bytes) (rest : List (Bytes × Bytes)) (k : Bytes) :
    Assoc.get (piece name value ++ rest) k =
      if name = k then value.or (Assoc.get rest k) else Assoc.get rest k := by
  rw [Assoc.get_append]
  cases value with
  | none => simp [piece]
  | some v =>
    rw [show piece name (some v) = [(name, v)] from rfl, Assoc.get_cons]
    by_cases h : name = k
    · simp [h]
    · simp [h]

/-- What the browser reads out of the parts behind the first. -/
def partAttributes (parts : List Bytes) : List (Bytes × Bytes) := (parts.map (byte ' ' :: ·)).map attributeOf

theorem receive_joined {past : Bytes → Bool} {store : Store} {name wire : Bytes} {parts : List Bytes}
    (hname : PlainName name) (hwire : byte ';' ∉ wire) (hparts : ∀ part ∈ parts, byte ';' ∉ part) :
    receive past store (name ++ text "=" ++ wire ++ parts.flatMap (text "; " ++ ·)) =
      if isOver past (partAttributes parts) then store.filter (·.1 ≠ name)
      else Assoc.upsert store name ⟨wire, (Assoc.get (partAttributes parts) (text "secure")).isSome⟩ := by
  have hfirst : byte ';' ∉ name ++ text "=" ++ wire := by
    have hne : byte ';' ∉ text "=" := by decide
    simp [hname.noSemicolon, hwire, hne]
  have hpair : cookiePair (name ++ text "=" ++ wire) = (name, wire) := by
    rw [cookiePair, List.append_assoc, show text "=" ++ wire = byte '=' :: wire from rfl,
      splitOnce_append hname.noEquals, Option.getD_some]
  rw [receive, splitOn_joined hfirst hparts]
  simp only [hpair]
  rfl

section Received

variable {T V : Type} {env : Setting T V} {past : Bytes → Bool} {store : Store} {name : Bytes}

def sameSiteParts : Option SameSite → List Bytes
  | none => []
  | some .lax => [text "samesite=lax"]
  | some .strict => [text "samesite=strict"]
  | some .none => [text "samesite=none"]

/-- What follows the value of a cookie that has no domain. -/
def setParts (env : Setting T V) (c : Cookie T) : List Bytes :=
  [text "path=" ++ c.path] ++ (c.expires.toList.map fun t => text "expires=" ++ env.httpdate t) ++
    (if c.secure then [text "secure"] else []) ++ (if c.httponly then [text "httponly"] else []) ++
    sameSiteParts c.sameSite ++ (if c.partitioned then [text "partitioned"] else [])

def deleteParts (env : Setting T V) (options : DeleteOptions) : List Bytes :=
  [text "path=" ++ options.path, text "max-age=0", text "expires=" ++ env.httpdate env.unixEpoch] ++
    sameSiteParts options.sameSite

theorem sameSiteAttribute_eq (s : Option SameSite) :
    sameSiteAttribute s = (sameSiteParts s).flatMap (text "; " ++ ·) := by
  rcases s with _ | _ | _ | _ <;> decide

theorem setCookieHeader_eq {c : Cookie T} (h : c.domain = none) :
    setCookieHeader env name c =
      name ++ text "=" ++ escape c.value.bytes ++ (setParts env c).flatMap (text "; " ++ ·) := by
  have hflag : ∀ (b : Bool) (t : Bytes),
      (if b then [t] else []).flatMap (text "; " ++ ·) = if b then text "; " ++ t else [] := by
    intro b t
    cases b <;> simp
  rcases c with ⟨value, path, domain, _ | t, permanent, secure, httponly, sameSite, partitioned⟩
  all_goals
    obtain rfl : domain = none := h
    simp only [setCookieHeader, setParts, List.flatMap_append, hflag, sameSiteAttribute_eq]
    simp only [Option.toList_none, Option.toList_some, List.map_cons, List.map_nil, List.flatMap_cons,
      List.flatMap_nil, List.append_nil, List.append_assoc]
    rfl

theorem deleteCookieHeader_eq {options : DeleteOptions} (h : options.domain = none) :
    deleteCookieHeader env name options =
      name ++ text "=" ++ [] ++ (deleteParts env options).flatMap (text "; " ++ ·) := by
  simp only [deleteCookieHeader, h, deleteParts, List.flatMap_append, sameSiteAttribute_eq, List.flatMap_cons,
    List.flatMap_nil, List.append_nil, List.append_assoc]
  rfl

theorem partAttributes_append (x y : List Bytes) :
    partAttributes (x ++ y) = partAttributes x ++ partAttributes y := by
  simp [partAttributes]

def flag (b : Bool) : Option Bytes := if b then some [] else none

theorem partAttributes_sameSite (s : Option SameSite) :
    ∃ v, partAttributes (sameSiteParts s) = piece (text "samesite") v := by
  rcases s with _ | _ | _ | _
  · exact ⟨none, rfl⟩
  · exact ⟨some (text "lax"), by decide⟩
  · exact ⟨some (text "strict"), by decide⟩
  · exact ⟨some (text "none"), by decide⟩

theorem partAttributes_set (env : Setting T V) (c : Cookie T) : ∃ v, partAttributes (setParts env c) =
    piece (text "path") (some c.path) ++ (piece (text "expires") (c.expires.map env.httpdate) ++
      (piece (text "secure") (flag c.secure) ++ (piece (text "httponly") (flag c.httponly) ++
        (piece (text "samesite") v ++ (piece (text "partitioned") (flag c.partitioned) ++ []))))) := by
  obtain ⟨v, hv⟩ := partAttributes_sameSite c.sameSite
  have hdate : partAttributes (c.expires.toList.map fun t => text "expires=" ++ env.httpdate t) =
      piece (text "expires") (c.expires.map env.httpdate) := by
    cases c.expires with
    | none => rfl
    | some t => rfl
  have hflag : ∀ (b : Bool) (t : Bytes), attributeOf (byte ' ' :: t) = (t, []) →
      partAttributes (if b then [t] else []) = piece t (flag b) := by
    intro b t ht
    cases b with
    | false => rfl
    | true => simp [partAttributes, ht, piece, flag]
  refine ⟨v, ?_⟩
  simp only [setParts, partAttributes_append, hdate, hv, hflag c.secure (text "secure") (by decide),
    hflag c.httponly (text "httponly") (by decide), hflag c.partitioned (text "partitioned") (by decide),
    List.append_nil, List.append_assoc]
  rfl

theorem partAttributes_delete (env : Setting T V) (options : DeleteOptions) : ∃ v, partAttributes (deleteParts env options) =
    piece (text "path") (some options.path) ++ (piece (text "max-age") (some (text "0")) ++
      (piece (text "expires") (some (env.httpdate env.unixEpoch)) ++ (piece (text "samesite") v ++ []))) := by
  obtain ⟨v, hv⟩ := partAttributes_sameSite options.sameSite
  refine ⟨v, ?_⟩
  rw [deleteParts, partAttributes_append, hv]
  simp only [List.append_nil]
  rfl

theorem semicolon_not_mem_sameSiteParts (s : Option SameSite) : ∀ part ∈ sameSiteParts s, byte ';' ∉ part := by
  rcases s with _ | _ | _ | _ <;> decide

/-- **A cookie set is held**, where it has the default path and a date that is not over. -/
theorem receive_set {c : Cookie T} (hname : PlainName name) (hpath : c.path = text "/") (hdomain : c.domain = none)
    (hplain : ∀ t, byte ';' ∉ env.httpdate t)
    (hdate : ∀ t, c.expires = some t → past (env.httpdate t) = false) :
    receive past store (setCookieHeader env name c) = Assoc.upsert store name ⟨escape c.value.bytes, c.secure⟩ := by
  have hparts : ∀ part ∈ setParts env c, byte ';' ∉ part := by
    have hflag : ∀ (b : Bool) (t : Bytes), byte ';' ∉ t → ∀ part ∈ (if b then [t] else []), byte ';' ∉ part := by
      intro b t ht part hpart
      cases b with
      | false => cases hpart
      | true => exact List.mem_singleton.mp hpart ▸ ht
    intro part hpart
    simp only [setParts, List.mem_append] at hpart
    obtain ((((hpart | hpart) | hpart) | hpart) | hpart) | hpart := hpart
    · rw [List.mem_singleton.mp hpart, hpath]
      decide
    · obtain ⟨t, -, rfl⟩ := List.mem_map.mp hpart
      have hne : byte ';' ∉ text "expires=" := by decide
      simp [hne, hplain t]
    · exact hflag _ _ (by decide) part hpart
    · exact hflag _ _ (by decide) part hpart
    · exact semicolon_not_mem_sameSiteParts _ part hpart
    · exact hflag _ _ (by decide) part hpart
  obtain ⟨v, hv⟩ := partAttributes_set env c
  have hover : isOver past (partAttributes (setParts env c)) = false := by
    rw [hv, isOver]
    simp +decide only [get_piece_append, if_true, if_false, Assoc.get_nil, Option.or_none]
    cases he : c.expires with
    | none => rfl
    | some t => exact hdate t he
  have hsecure : (Assoc.get (partAttributes (setParts env c)) (text "secure")).isSome = c.secure := by
    rw [hv]
    simp +decide only [get_piece_append, if_true, if_false, Assoc.get_nil, Option.or_none]
    cases c.secure <;> rfl
  rw [setCookieHeader_eq hdomain, receive_joined hname (semicolon_not_mem_escape _) hparts, hover, hsecure]
  rfl

/-- **A cookie deleted is dropped.** -/
theorem receive_delete {options : DeleteOptions} (hname : PlainName name) (hpath : options.path = text "/")
    (hdomain : options.domain = none) (hplain : ∀ t, byte ';' ∉ env.httpdate t) :
    receive past store (deleteCookieHeader env name options) = store.filter (·.1 ≠ name) := by
  have hparts : ∀ part ∈ deleteParts env options, byte ';' ∉ part := by
    intro part hpart
    simp only [deleteParts, List.mem_append, List.mem_cons, List.not_mem_nil, or_false] at hpart
    obtain (rfl | rfl | rfl) | hpart := hpart
    · rw [hpath]
      decide
    · decide
    · have hne : byte ';' ∉ text "expires=" := by decide
      simp [hne, hplain]
    · exact semicolon_not_mem_sameSiteParts _ part hpart
  obtain ⟨v, hv⟩ := partAttributes_delete env options
  have hover : isOver past (partAttributes (deleteParts env options)) = true := by
    rw [hv, isOver]
    simp +decide only [get_piece_append, if_true, if_false, Option.some_or]
  rw [deleteCookieHeader_eq hdomain, receive_joined hname (by simp) hparts, hover]
  rfl

end Received

/-! ## 4. A store and the header it sends -/

/-- The cookies of a store are told apart again in its header, and all of them are sent. -/
structure Sendable (ssl : Bool) (store : Store) : Prop where
  names : ∀ e ∈ store, byte '=' ∉ e.1 ∧ byte ';' ∉ e.1
  wires : ∀ e ∈ store, byte ';' ∉ e.2.wire
  /-- only the first part of a header keeps the spaces in front -/
  spaces : ∀ e ∈ store.tail, e.1.head? ≠ some (byte ' ')
  scheme : ∀ e ∈ store, ssl = true ∨ e.2.secure = false

section Sendable

variable {ssl : Bool} {store : Store}

theorem PlainName.head? {name : Bytes} (h : PlainName name) : name.head? ≠ some (byte ' ') :=
  fun hhead => h.noSpace (List.mem_of_mem_head? hhead)

theorem Sendable.upsert (h : Sendable ssl store) {name : Bytes} (hname : PlainName name) {cookie : Held}
    (hwire : byte ';' ∉ cookie.wire) (hscheme : ssl = true ∨ cookie.secure = false) :
    Sendable ssl (Assoc.upsert store name cookie) := by
  refine ⟨fun e he => ?_, fun e he => ?_, fun e he => ?_, fun e he => ?_⟩
  · obtain rfl | he := Assoc.mem_upsert he
    · exact ⟨hname.noEquals, hname.noSemicolon⟩
    · exact h.names e he
  · obtain rfl | he := Assoc.mem_upsert he
    · exact hwire
    · exact h.wires e he
  · cases store with
    | nil => cases he
    | cons first rest =>
      rw [Assoc.upsert] at he
      split at he
      · exact h.spaces e he
      · obtain rfl | he := Assoc.mem_upsert he
        · exact hname.head?
        · exact h.spaces e he
  · obtain rfl | he := Assoc.mem_upsert he
    · exact hscheme
    · exact h.scheme e he

theorem Sendable.filter (h : Sendable ssl store) (p : Bytes × Held → Bool) : Sendable ssl (store.filter p) := by
  refine ⟨fun e he => h.names e (List.mem_of_mem_filter he), fun e he => h.wires e (List.mem_of_mem_filter he),
    fun e he => ?_, fun e he => h.scheme e (List.mem_of_mem_filter he)⟩
  cases store with
  | nil => cases he
  | cons first rest =>
    rw [List.filter_cons] at he
    split at he
    · exact h.spaces e (List.mem_of_mem_filter he)
    · exact h.spaces e (List.mem_of_mem_filter (List.mem_of_mem_tail he))

/-- **The next request has every cookie of the store.** -/
theorem Sendable.get_request {T : Type} (h : Sendable ssl store) (name : Bytes) :
    (fromHeaders [request ssl store] : CookieJar T).get name =
      (Assoc.get store name).map fun cookie => decodedValue cookie.wire := by
  have hall : (store.filter fun e => ssl || !e.2.secure) = store := by
    refine List.filter_eq_self.mpr fun e he => ?_
    obtain hs | hs := h.scheme e he
    · simp [hs]
    · simp [hs]
  have hparts : cookieParts (request ssl store) = store.map fun e => e.1 ++ text "=" ++ e.2.wire := by
    rw [request, hall]
    refine cookieParts_intercalate (fun part hpart => ?_) fun part hpart => ?_
    · obtain ⟨e, he, rfl⟩ := List.mem_map.mp hpart
      have hne : byte ';' ∉ text "=" := by decide
      refine ⟨?_, List.append_ne_nil_of_left_ne_nil (List.append_ne_nil_of_right_ne_nil _ (by decide)) _⟩
      simp [(h.names e he).2, h.wires e he, hne]
    · rw [← List.map_tail] at hpart
      obtain ⟨e, he, rfl⟩ := List.mem_map.mp hpart
      have hhead := h.spaces e he
      cases hname : e.1 with
      | nil => simp [text, byte]
      | cons b rest => simpa [hname] using hhead
  have hpairs : (cookieParts (request ssl store)).map cookiePair = store.map fun e => (e.1, e.2.wire) := by
    rw [hparts, List.map_map]
    refine List.map_congr_left fun e he => ?_
    rw [Function.comp_apply, cookiePair, List.append_assoc, show text "=" ++ e.2.wire = byte '=' :: e.2.wire from rfl,
      splitOnce_append (h.names e he).1, Option.getD_some]
  rw [get_fromHeaders, List.flatMap_cons, List.flatMap_nil, List.append_nil, hpairs,
    Assoc.get_map fun _ (cookie : Held) => cookie.wire, Option.map_map]
  rfl

/-- A part is its name, or its name and value around the first `=`. -/
theorem cookiePair_cases (part : Bytes) :
    (cookiePair part = (part, []) ∧ byte '=' ∉ part) ∨
      ∃ name value, cookiePair part = (name, value) ∧ part = name ++ byte '=' :: value ∧ byte '=' ∉ name := by
  by_cases h : byte '=' ∈ part
  · obtain ⟨name, value, hpart, hname⟩ := List.eq_append_cons_of_mem h
    refine .inr ⟨name, value, ?_, hpart, hname⟩
    rw [cookiePair, hpart, splitOnce_append hname, Option.getD_some]
  · refine .inl ⟨?_, h⟩
    rw [cookiePair, splitOnce_eq_none h, Option.getD_none]

theorem cookiePair_plain {part : Bytes} (h : byte ';' ∉ part) :
    (byte '=' ∉ (cookiePair part).1 ∧ byte ';' ∉ (cookiePair part).1) ∧ byte ';' ∉ (cookiePair part).2 := by
  obtain ⟨hpair, hno⟩ | ⟨name, value, hpair, rfl, hno⟩ := cookiePair_cases part
  · rw [hpair]
    exact ⟨⟨hno, h⟩, List.not_mem_nil⟩
  · rw [hpair]
    simp only [List.mem_append, List.mem_cons, not_or] at h
    exact ⟨⟨hno, h.1⟩, h.2.2⟩

/-- A part's name starts with a space only where the part does. -/
theorem head?_cookiePair {part : Bytes} (h : part.head? ≠ some (byte ' ')) :
    (cookiePair part).1.head? ≠ some (byte ' ') := by
  obtain ⟨hpair, -⟩ | ⟨name, value, hpair, rfl, -⟩ := cookiePair_cases part
  · rwa [hpair]
  · rw [hpair]
    cases name with
    | nil => simp
    | cons b name => simpa using h

theorem head?_trimmed (part : Bytes) : (part.dropWhile (· = byte ' ')).head? ≠ some (byte ' ') := by
  intro h
  have hnot := List.head?_dropWhile_not (fun b => decide (b = byte ' ')) part
  rw [h] at hnot
  simp at hnot

/-- What stands between the semicolons of a header, and in which of it a space can come first. -/
theorem cookieParts_spec (header : Bytes) :
    (∀ part ∈ cookieParts header, byte ';' ∉ part) ∧
      (∀ part ∈ (cookieParts header).tail, part.head? ≠ some (byte ' ')) ∧
      (header.head? ≠ some (byte ' ') → ∀ part ∈ cookieParts header, part.head? ≠ some (byte ' ')) := by
  cases hsplit : header.splitOn (byte ';') with
  | nil => exact absurd hsplit (List.splitOn_ne_nil _ _)
  | cons first rest =>
    have hno : ∀ part ∈ first :: rest, byte ';' ∉ part := fun part hp => not_mem_of_mem_splitOn (hsplit ▸ hp)
    have htrimmed : ∀ part ∈ (rest.map fun part => part.dropWhile (· = byte ' ')).filter (! ·.isEmpty),
        part.head? ≠ some (byte ' ') := by
      intro part hp
      obtain ⟨part, -, rfl⟩ := List.mem_map.mp (List.mem_of_mem_filter hp)
      exact head?_trimmed part
    rw [cookieParts_of_splitOn hsplit]
    refine ⟨fun part hp => ?_, fun part hp => ?_, fun hhead part hp => ?_⟩
    · obtain rfl | hp := List.mem_cons.mp (List.mem_of_mem_filter hp)
      · exact hno part List.mem_cons_self
      · obtain ⟨whole, hwhole, rfl⟩ := List.mem_map.mp hp
        exact fun hmem => hno whole (List.mem_cons_of_mem _ hwhole) ((List.dropWhile_sublist _).subset hmem)
    · rw [List.filter_cons] at hp
      split at hp
      · exact htrimmed part hp
      · exact htrimmed part (List.mem_of_mem_tail hp)
    · rw [List.filter_cons] at hp
      split at hp
      · next hne =>
        obtain rfl | hp := List.mem_cons.mp hp
        · -- The header starts as its first part does.
          have hjoin : [byte ';'].intercalate (header.splitOn (byte ';')) = header := List.intercalate_splitOn _
          rw [hsplit, intercalate_eq_flatMap] at hjoin
          cases part with
          | nil => simp at hne
          | cons b part => simpa [← hjoin] using hhead
        · exact htrimmed part hp
      · exact htrimmed part hp

/-- **A request's own cookies can be sent again**: no header but the first starts with a space. -/
theorem sendable_held {headers : List Bytes} (hheaders : ∀ header ∈ headers.tail, header.head? ≠ some (byte ' ')) :
    Sendable ssl (held headers) := by
  have hplain : ∀ e ∈ headers.flatMap fun header => (cookieParts header).map cookiePair,
      (byte '=' ∉ e.1 ∧ byte ';' ∉ e.1) ∧ byte ';' ∉ e.2 := by
    intro e he
    obtain ⟨header, -, he⟩ := List.mem_flatMap.mp he
    obtain ⟨part, hpart, rfl⟩ := List.mem_map.mp he
    exact cookiePair_plain ((cookieParts_spec header).1 part hpart)
  have hrest : ∀ rest : List Bytes, (∀ header ∈ rest, header.head? ≠ some (byte ' ')) →
      ∀ e ∈ rest.flatMap fun header => (cookieParts header).map cookiePair, e.1.head? ≠ some (byte ' ') := by
    intro rest h e he
    obtain ⟨header, hheader, he⟩ := List.mem_flatMap.mp he
    obtain ⟨part, hpart, rfl⟩ := List.mem_map.mp he
    exact head?_cookiePair ((cookieParts_spec header).2.2 (h header hheader) part hpart)
  have htail : ∀ e ∈ (headers.flatMap fun header => (cookieParts header).map cookiePair).tail,
      e.1.head? ≠ some (byte ' ') := by
    cases headers with
    | nil => simp
    | cons header rest =>
      intro e he
      rw [List.flatMap_cons] at he
      cases hparts : cookieParts header with
      | nil =>
        rw [hparts] at he
        exact hrest rest hheaders e (List.mem_of_mem_tail he)
      | cons first parts =>
        rw [hparts] at he
        obtain he | he := List.mem_append.mp he
        · obtain ⟨part, hpart, rfl⟩ := List.mem_map.mp he
          exact head?_cookiePair ((cookieParts_spec header).2.1 part (by rwa [hparts]))
        · exact hrest rest hheaders e he
  have hmem : ∀ e ∈ held headers, (e.1, e.2.wire) ∈ (headers.flatMap fun header =>
      (cookieParts header).map cookiePair) ∧ e.2.secure = false := by
    intro e he
    obtain ⟨pair, hpair, rfl⟩ := List.mem_map.mp he
    exact ⟨(Assoc.firstWins_sublist _ _).subset hpair, rfl⟩
  refine ⟨fun e he => (hplain _ (hmem e he).1).1, fun e he => (hplain _ (hmem e he).1).2, fun e he => ?_,
    fun e he => .inr (hmem e he).2⟩
  rw [held, ← List.map_tail] at he
  obtain ⟨pair, hpair, rfl⟩ := List.mem_map.mp he
  refine htail pair ?_
  -- The first pair is kept, so what is behind it was behind it.
  cases hpairs : headers.flatMap fun header => (cookieParts header).map cookiePair with
  | nil => simp [hpairs, Assoc.firstWins] at hpair
  | cons first pairs =>
    rw [hpairs, Assoc.firstWins, if_neg List.not_mem_nil] at hpair
    exact (Assoc.firstWins_sublist _ _).subset hpair

end Sendable

/-! ## 5. What an application asks -/

inductive Call (T V : Type) where
  | set (name : Bytes) (cookie : Cookie T)
  | setSigned (name : Bytes) (cookie : Cookie T)
  | setEncrypted (name : Bytes) (value : V) (cookie : Cookie T)
  | delete (name : Bytes) (options : DeleteOptions)

section Calls

variable {T V : Type}

/-- One call, at the time the clock has. -/
def CookieJar.call (env : Setting T V) (now : T) (jar : CookieJar T) : Call T V → Except Bytes Unit × CookieJar T
  | .set name cookie => (.ok (), jar.set env now name cookie)
  | .setSigned name cookie => jar.setSigned env now name cookie
  | .setEncrypted name value cookie => jar.setEncrypted env now name value cookie
  | .delete name options => (.ok (), jar.deleteWith name options)

def CookieJar.calls (env : Setting T V) (jar : CookieJar T) (calls : List (T × Call T V)) : CookieJar T :=
  calls.foldl (fun jar c => (jar.call env c.1 c.2).2) jar

/-- A plain name, the default path and domain, and no date of its own. -/
def Call.Default : Call T V → Prop
  | .set name cookie | .setSigned name cookie | .setEncrypted name _ cookie =>
    PlainName name ∧ cookie.path = text "/" ∧ cookie.domain = none ∧ cookie.expires = none
  | .delete name options => PlainName name ∧ options.path = text "/" ∧ options.domain = none

/-- Whether a secure cookie is written. -/
def Call.secure : Call T V → Bool
  | .set _ cookie | .setSigned _ cookie | .setEncrypted _ _ cookie => cookie.secure
  | .delete _ _ => false

/-- A cookie the browser will take and send again. -/
structure Ready (env : Setting T V) (past : Bytes → Bool) (ssl : Bool) (name : Bytes) (cookie : Cookie T) : Prop where
  name : PlainName name
  path : cookie.path = text "/"
  domain : cookie.domain = none
  date : ∀ t, cookie.expires = some t → past (env.httpdate t) = false
  scheme : ssl = true ∨ cookie.secure = false

variable {env : Setting T V} {past : Bytes → Bool} {ssl : Bool} {now : T} {jar : CookieJar T}

/-- **What a call does to the jar**: nothing, a cookie written, or one deleted. -/
theorem call_cases (jar : CookieJar T) {call : Call T V} (hcall : call.Default) (hscheme : ssl = true ∨ call.secure = false)
    (hdate : past (env.httpdate (env.yearsFrom now permanentYears)) = false) :
    (jar.call env now call).2 = jar ∨
      (∃ name cookie, (jar.call env now call).2 = jar.writeValue name cookie ∧ Ready env past ssl name cookie) ∨
      ∃ name options, (jar.call env now call).2 = jar.deleteWith name options ∧ PlainName name ∧
        options.path = text "/" ∧ options.domain = none := by
  have hready : ∀ (name : Bytes) (cookie : Cookie T) (value : Str),
      PlainName name ∧ cookie.path = text "/" ∧ cookie.domain = none ∧ cookie.expires = none →
      (ssl = true ∨ cookie.secure = false) →
      Ready env past ssl name { CookieJar.resolveExpiry env now cookie with value := value } := by
    rintro name cookie value ⟨hname, hpath, hdomain, hexpires⟩ hscheme
    unfold CookieJar.resolveExpiry
    split
    · exact ⟨hname, hpath, hdomain, fun t ht => Option.some.inj ht ▸ hdate, hscheme⟩
    · exact ⟨hname, hpath, hdomain, fun t ht => by simp [hexpires] at ht, hscheme⟩
  have hchecked : ∀ (name : Bytes) (cookie : Cookie T), (jar.writeChecked name cookie).2 = jar ∨
      (jar.writeChecked name cookie).2 = jar.writeValue name cookie := by
    intro name cookie
    obtain ⟨e, he⟩ | he := jar.writeChecked_cases name cookie
    · exact .inl (by rw [he])
    · exact .inr (by rw [he])
  cases call with
  | set name cookie => exact .inr (.inl ⟨name, _, rfl, hready name cookie _ hcall hscheme⟩)
  | setSigned name cookie =>
    let dated := CookieJar.resolveExpiry env now cookie
    have hsigned := hready name cookie (env.signCookie name dated.value.bytes dated.expires) hcall hscheme
    exact (hchecked name _).imp_right fun h => .inl ⟨name, _, h, hsigned⟩
  | setEncrypted name value cookie =>
    let dated := CookieJar.resolveExpiry env now cookie
    have hencrypted := hready name cookie (env.encryptCookie name value dated.expires) hcall hscheme
    exact (hchecked name _).imp_right fun h => .inl ⟨name, _, h, hencrypted⟩
  | delete name options => exact .inr (.inr ⟨name, options, rfl, hcall⟩)

/-- What waits in the jar is how it differs from `base`, and is fit to be told. -/
structure Noted (env : Setting T V) (past : Bytes → Bool) (ssl : Bool) (base : Bytes → Option Bytes)
    (jar : CookieJar T) : Prop where
  told : Assoc.Told base (fun cookie : Cookie T => cookie.value.bytes) jar.cookies jar.setCookies jar.deleteCookies
  sets : ∀ e ∈ jar.setCookies, Ready env past ssl e.1 e.2
  deletes : ∀ e ∈ jar.deleteCookies, PlainName e.1 ∧ e.2.path = text "/" ∧ e.2.domain = none

variable {base : Bytes → Option Bytes}

theorem Noted.writeValue (h : Noted env past ssl base jar) {name : Bytes} {cookie : Cookie T}
    (hready : Ready env past ssl name cookie) : Noted env past ssl base (jar.writeValue name cookie) := by
  unfold CookieJar.writeValue
  split
  · refine ⟨h.told.write name cookie, fun e he => ?_, fun e he => h.deletes e (List.mem_of_mem_filter he)⟩
    obtain rfl | he := Assoc.mem_upsert he
    · exact hready
    · exact h.sets e he
  · exact h

theorem Noted.deleteWith (h : Noted env past ssl base jar) {name : Bytes} {options : DeleteOptions}
    (hname : PlainName name) (hpath : options.path = text "/") (hdomain : options.domain = none) :
    Noted env past ssl base (jar.deleteWith name options) := by
  unfold CookieJar.deleteWith
  split
  · refine ⟨h.told.drop name options, h.sets, fun e he => ?_⟩
    obtain rfl | he := Assoc.mem_upsert he
    · exact ⟨hname, hpath, hdomain⟩
    · exact h.deletes e he
  · exact h

/-- **After every call, what waits is how the jar differs from the request.** -/
theorem told_calls {calls : List (T × Call T V)} (h : Noted env past ssl base jar)
    (hcalls : ∀ c ∈ calls, c.2.Default) (hscheme : ∀ c ∈ calls, ssl = true ∨ c.2.secure = false)
    (hdate : ∀ c ∈ calls, past (env.httpdate (env.yearsFrom c.1 permanentYears)) = false) :
    Noted env past ssl base (jar.calls env calls) := by
  induction calls generalizing jar with
  | nil => exact h
  | cons c rest ih =>
    refine ih ?_ (fun c hc => hcalls c (List.mem_cons_of_mem _ hc)) (fun c hc => hscheme c (List.mem_cons_of_mem _ hc))
      fun c hc => hdate c (List.mem_cons_of_mem _ hc)
    have hcases := call_cases jar (hcalls c List.mem_cons_self) (hscheme c List.mem_cons_self)
      (hdate c List.mem_cons_self)
    show Noted env past ssl base (jar.call env c.1 c.2).2
    obtain hsame | ⟨name, cookie, hwrite, hready⟩ | ⟨name, options, hdelete, hname, hpath, hdomain⟩ := hcases
    · rwa [hsame]
    · rw [hwrite]
      exact h.writeValue hready
    · rw [hdelete]
      exact h.deleteWith hname hpath hdomain

/-- The headers received one after the other: the writes, and then the removals. -/
theorem Noted.foldl_receive (h : Noted env past ssl base jar) (hplain : ∀ t, byte ';' ∉ env.httpdate t)
    (host : Bytes) (store : Store) :
    (jar.setCookieHeaders env ssl host).foldl (receive past) store =
      jar.deleteCookies.foldl (fun s e => s.filter (·.1 ≠ e.1))
        (jar.setCookies.foldl (fun s e => Assoc.upsert s e.1 ⟨escape e.2.value.bytes, e.2.secure⟩) store) := by
  have hall : (jar.setCookies.filter fun e => ssl || !e.2.secure || (text ".onion").isSuffixOf host) =
      jar.setCookies := by
    refine List.filter_eq_self.mpr fun e he => ?_
    obtain hs | hs := (h.sets e he).scheme
    · simp [hs]
    · simp [hs]
  have hsets : ∀ (store : Store), ∀ e ∈ jar.setCookies, receive past store (setCookieHeader env e.1 e.2) =
      Assoc.upsert store e.1 ⟨escape e.2.value.bytes, e.2.secure⟩ := fun store e he =>
    receive_set (h.sets e he).name (h.sets e he).path (h.sets e he).domain hplain (h.sets e he).date
  have hdeletes : ∀ (store : Store), ∀ e ∈ jar.deleteCookies, receive past store (deleteCookieHeader env e.1 e.2) =
      store.filter (·.1 ≠ e.1) := fun store e he =>
    receive_delete (h.deletes e he).1 (h.deletes e he).2.1 (h.deletes e he).2.2 hplain
  rw [CookieJar.setCookieHeaders, hall, List.foldl_append, List.foldl_map, List.foldl_map,
    List.foldl_ext _ _ _ hsets, List.foldl_ext _ _ _ hdeletes]

/-- The headers leave a store that can be sent. -/
theorem Noted.sendable (h : Noted env past ssl base jar) {store : Store} (hstore : Sendable ssl store) :
    Sendable ssl (jar.deleteCookies.foldl (fun s e => s.filter (·.1 ≠ e.1))
      (jar.setCookies.foldl (fun s e => Assoc.upsert s e.1 ⟨escape e.2.value.bytes, e.2.secure⟩) store)) := by
  have hsets : ∀ (sets : List (Bytes × Cookie T)) (store : Store), (∀ e ∈ sets, Ready env past ssl e.1 e.2) →
      Sendable ssl store →
      Sendable ssl (sets.foldl (fun s e => Assoc.upsert s e.1 ⟨escape e.2.value.bytes, e.2.secure⟩) store) := by
    intro sets
    induction sets with
    | nil => exact fun _ _ hs => hs
    | cons e rest ih =>
      intro store hready hs
      have he := hready e List.mem_cons_self
      exact ih _ (fun e he => hready e (List.mem_cons_of_mem _ he))
        (hs.upsert he.name (semicolon_not_mem_escape _) he.scheme)
  have hdeletes : ∀ (deletes : List (Bytes × DeleteOptions)) (store : Store), Sendable ssl store →
      Sendable ssl (deletes.foldl (fun s e => s.filter (·.1 ≠ e.1)) store) := by
    intro deletes
    induction deletes with
    | nil => exact fun _ hs => hs
    | cons e rest ih => exact fun store hs => ih _ (hs.filter _)
  exact hdeletes _ _ (hsets _ _ h.sets hstore)

/-- **The next request has every cookie as the jar had it at the end**, and a set that fails changes nothing: over
    HTTPS, or over HTTP where no secure cookie is written. -/
theorem nextRequest_get (env : Setting T V) (past : Bytes → Bool) (headers : List Bytes)
    (calls : List (T × Call T V)) (ssl : Bool) (host : Bytes)
    (hheaders : ∀ header ∈ headers.tail, header.head? ≠ some (byte ' '))
    (hcalls : ∀ c ∈ calls, c.2.Default) (hscheme : ssl = true ∨ ∀ c ∈ calls, c.2.secure = false)
    (hplain : ∀ t, byte ';' ∉ env.httpdate t)
    (hdate : ∀ c ∈ calls, past (env.httpdate (env.yearsFrom c.1 permanentYears)) = false) :
    (∀ name, (fromHeaders [request ssl
        ((((fromHeaders headers).calls env calls).setCookieHeaders env ssl host).foldl (receive past) (held headers))]
          : CookieJar T).get name = ((fromHeaders headers).calls env calls).get name) ∧
      ∀ (now : T) (jar : CookieJar T) (call : Call T V) (e : Bytes),
        (jar.call env now call).1 = .error e → (jar.call env now call).2 = jar := by
  constructor
  · intro name
    have hstart : Noted env past ssl (fromHeaders headers : CookieJar T).get (fromHeaders headers) :=
      ⟨Assoc.told_start (Assoc.nodup_firstWins _ _), fun e he => absurd he List.not_mem_nil,
        fun e he => absurd he List.not_mem_nil⟩
    have hend := told_calls hstart hcalls (fun c hc => hscheme.imp_right (· c hc)) hdate
    have hbase : ∀ k, (fromHeaders headers : CookieJar T).get k =
        (Assoc.get (held headers) k).map fun cookie => decodedValue cookie.wire := by
      intro k
      rw [get_fromHeaders, held, Assoc.get_map fun _ wire => (⟨wire, false⟩ : Held), Assoc.get_firstWins,
        if_neg List.not_mem_nil, Option.map_map]
      rfl
    let written (_ : Bytes) (cookie : Cookie T) : Held := ⟨escape cookie.value.bytes, cookie.secure⟩
    have hwritten : ∀ k cookie,
        Assoc.get ((fromHeaders headers : CookieJar T).calls env calls).setCookies k = some cookie →
        decodedValue (written k cookie).wire = cookie.value.bytes := fun _ cookie _ => decodedValue_escape cookie.value
    rw [hend.foldl_receive hplain, (hend.sendable (sendable_held hheaders)).get_request]
    exact hend.told.replay hbase hwritten name
  · intro now jar call e
    have hchecked : ∀ (name : Bytes) (cookie : Cookie T), (jar.writeChecked name cookie).1 = .error e →
        (jar.writeChecked name cookie).2 = jar := by
      intro name cookie h
      obtain ⟨e', he⟩ | he := jar.writeChecked_cases name cookie
      · rw [he]
      · rw [he] at h
        cases h
    cases call with
    | set name cookie => exact fun h => nomatch h
    | setSigned name cookie => exact hchecked _ _
    | setEncrypted name value cookie => exact hchecked _ _
    | delete name options => exact fun h => nomatch h

/-- A signed and permanent cookie over the request's, one deleted and set again, and one only deleted, in 2024. -/
theorem nextRequest_get_sample :
    let env : Setting Nat Unit := ⟨fun _ value _ => if h : validUtf8 value = true then ⟨value, h⟩ else ⟨[], rfl⟩,
      fun _ _ _ => ⟨[], rfl⟩, fun year years => year + years,
      fun year => if year = 1970 then text "Thu, 01 Jan 1970 00:00:00 GMT" else text "Wed, 01 Jun 2044 12:00:00 GMT",
      1970⟩
    let past : Bytes → Bool := fun date => date == text "Thu, 01 Jan 1970 00:00:00 GMT"
    let calls : List (Nat × Call Nat Unit) := [
      (2024, .setSigned (text "a") { Cookie.new ⟨text "x y", by decide⟩ with permanent := true, secure := true }),
      (2024, .delete (text "b") .default), (2024, .set (text "b") (Cookie.new ⟨text "c+d", by decide⟩)),
      (2024, .delete (text "c") .default)]
    let jar := (fromHeaders [text "a=1; b=2;c=3; e"] : CookieJar Nat).calls env calls
    let store := (jar.setCookieHeaders env true (text "h")).foldl (receive past) (held [text "a=1; b=2;c=3; e"])
    (∀ name, (fromHeaders [request true store] : CookieJar Nat).get name = jar.get name) ∧
      request true store = text "a=x+y; b=c%2Bd; e=" := by
  intro env past calls jar store
  have hplain : ∀ name ∈ [text "a", text "b", text "c"], PlainName name := by
    have hall : ∀ name ∈ [text "a", text "b", text "c"], byte '=' ∉ name ∧ byte ';' ∉ name ∧ byte ' ' ∉ name := by
      decide
    exact fun name hname => ⟨(hall name hname).1, (hall name hname).2.1, (hall name hname).2.2⟩
  have hcalls : ∀ c ∈ calls, c.2.Default := by
    intro c hc
    simp only [calls, List.mem_cons, List.not_mem_nil, or_false] at hc
    obtain rfl | rfl | rfl | rfl := hc
    · exact ⟨hplain _ (by simp), rfl, rfl, rfl⟩
    · exact ⟨hplain _ (by simp), rfl, rfl⟩
    · exact ⟨hplain _ (by simp), rfl, rfl, rfl⟩
    · exact ⟨hplain _ (by simp), rfl, rfl⟩
  have hdates : ∀ year, byte ';' ∉ env.httpdate year := by
    intro year
    simp only [env]
    split
    · decide
    · decide
  have hfuture : ∀ c ∈ calls, past (env.httpdate (env.yearsFrom c.1 permanentYears)) = false := by
    intro c hc
    simp only [calls, List.mem_cons, List.not_mem_nil, or_false] at hc
    obtain rfl | rfl | rfl | rfl := hc <;> decide
  exact ⟨(nextRequest_get env past [text "a=1; b=2;c=3; e"] calls true (text "h") (by simp) hcalls (.inl rfl) hdates
    hfuture).1, by decide +kernel⟩

end Calls

end Smartfire.Cookies
