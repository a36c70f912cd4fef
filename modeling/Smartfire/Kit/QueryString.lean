/-
  File:      Smartfire/Kit/QueryString.lean
  Subject:   A tree of parameters written as a query string is read back.

  * `Escapes`, `Encodes` -- percent-escapes, each byte in any of its forms, and pairs joined by `&`;
  * `queryPairs_encodes` -- splitting and decoding give the pairs back;
  * `fromQueryString_tree` -- the tree comes back, or is too deep; and nothing panics.
-/
import Smartfire.Kit.Nested
import Smartfire.Kit.Panics
import Smartfire.Lib.Split

namespace Smartfire

open Lib

/-! ## 1. Escapes -/

/-- Bytes that do not stand for themselves. -/
def reserved : Bytes := text "&=+% "

/-- A text written with escapes: a byte as itself, a space as `+`, any byte as two hex digits. -/
inductive Escapes : Bytes → Bytes → Prop
  | nil : Escapes [] []
  | raw {b : UInt8} {s e : Bytes} (hb : b ∉ reserved) (h : Escapes s e) : Escapes (b :: s) (b :: e)
  | plus {s e : Bytes} (h : Escapes s e) : Escapes (byte ' ' :: s) (byte '+' :: e)
  | hex {high low x y : UInt8} {s e : Bytes} (hhigh : hexValue high = some x) (hlow : hexValue low = some y)
      (h : Escapes s e) : Escapes ((x * 16 + y) :: s) (byte '%' :: high :: low :: e)

theorem decodeComponent_cons {b : UInt8} {rest : Bytes} (h₁ : b ≠ byte '+') (h₂ : b ≠ byte '%') :
    decodeComponent (b :: rest) = (decodeComponent rest).map (b :: ·) := by
  rw [decodeComponent.eq_def]
  simp [h₁, h₂]

/-- **Decoding undoes every way of escaping.** -/
theorem decodeComponent_escapes {s e : Bytes} (h : Escapes s e) : decodeComponent e = some s := by
  induction h with
  | nil => rfl
  | @raw b s e hb _ ih =>
    have h₁ : b ≠ byte '+' := by
      rintro rfl
      exact hb (by decide)
    have h₂ : b ≠ byte '%' := by
      rintro rfl
      exact hb (by decide)
    rw [decodeComponent_cons h₁ h₂, ih]
    rfl
  | plus _ ih =>
    rw [decodeComponent.eq_def]
    simp [ih]
  | hex hhigh hlow _ ih =>
    have hne : byte '%' ≠ byte '+' := by decide
    simp [decodeComponent, hne, hhigh, hlow, ih]

theorem hexValue_plain {b x : UInt8} (h : hexValue b = some x) : b ≠ byte '&' ∧ b ≠ byte '=' ∧ b ≠ byte ' ' := by
  refine ⟨?_, ?_, ?_⟩ <;>
    · rintro rfl
      cases h

/-- What is escaped holds no separator. -/
theorem Escapes.plain {s e : Bytes} (h : Escapes s e) :
    ∀ b ∈ e, b ≠ byte '&' ∧ b ≠ byte '=' ∧ b ≠ byte ' ' := by
  induction h with
  | nil => simp
  | @raw b s e hb _ ih =>
    intro c hc
    obtain rfl | hc := List.mem_cons.mp hc
    · refine ⟨?_, ?_, ?_⟩ <;>
        · rintro rfl
          exact hb (by decide)
    · exact ih c hc
  | plus _ ih =>
    intro c hc
    obtain rfl | hc := List.mem_cons.mp hc
    · decide
    · exact ih c hc
  | hex hhigh hlow _ ih =>
    intro c hc
    obtain rfl | rfl | rfl | hc := by simpa using hc
    · decide
    · exact hexValue_plain hhigh
    · exact hexValue_plain hlow
    · exact ih c hc

theorem Escapes.ne_nil {s e : Bytes} (h : Escapes s e) (hs : s ≠ []) : e ≠ [] := by
  cases h with
  | nil => exact absurd rfl hs
  | raw => exact List.cons_ne_nil _ _
  | plus => exact List.cons_ne_nil _ _
  | hex => exact List.cons_ne_nil _ _

/-! ## 2. Pairs -/

/-- A pair as `name=value`, or a nil's name alone. -/
inductive EncodesPair : RawPair → Bytes → Prop
  | bare {key name : Bytes} (hname : Escapes key name) : EncodesPair ⟨key, none⟩ name
  | value {key name v value : Bytes} (hname : Escapes key name) (hvalue : Escapes v value) :
      EncodesPair ⟨key, some v⟩ (name ++ byte '=' :: value)

/-- Pair by pair, joined by `&`. -/
def Encodes (pairs : List RawPair) (qs : Bytes) : Prop :=
  ∃ parts, List.Forall₂ EncodesPair pairs parts ∧ qs = [byte '&'].intercalate parts

theorem decodePair_encodes {pair : RawPair} {part : Bytes} (h : EncodesPair pair part) :
    decodePair part = .ok pair := by
  cases h with
  | bare hname =>
    have hno : byte '=' ∉ part := fun h => (hname.plain _ h).2.1 rfl
    simp only [decodePair, splitOnce_eq_none hno, decodeWwwFormComponent, decodeComponent_escapes hname]
    rfl
  | @value key name v value hname hvalue =>
    have hno : byte '=' ∉ name := fun h => (hname.plain _ h).2.1 rfl
    simp only [decodePair, splitOnce_append hno, decodeWwwFormComponent, decodeComponent_escapes hname,
      decodeComponent_escapes hvalue]
    rfl

theorem EncodesPair.plain {pair : RawPair} {part : Bytes} (h : EncodesPair pair part) :
    byte '&' ∉ part ∧ byte ' ' ∉ part := by
  cases h with
  | bare hname => exact ⟨fun h => (hname.plain _ h).1 rfl, fun h => (hname.plain _ h).2.2 rfl⟩
  | @value key name v value hname hvalue =>
    constructor <;>
      · intro hmem
        obtain hmem | hmem | hmem := by simpa using hmem
        · first | exact (hname.plain _ hmem).1 rfl | exact (hname.plain _ hmem).2.2 rfl
        · exact absurd hmem (by decide)
        · first | exact (hvalue.plain _ hmem).1 rfl | exact (hvalue.plain _ hmem).2.2 rfl

theorem EncodesPair.ne_nil {pair : RawPair} {part : Bytes} (h : EncodesPair pair part) (hk : pair.key ≠ []) :
    part ≠ [] := by
  cases h with
  | bare hname => exact hname.ne_nil hk
  | value => simp

/-- **Splitting gives the parts back.** -/
theorem splitPairs_intercalate {parts : List Bytes} (hplain : ∀ part ∈ parts, byte '&' ∉ part ∧ byte ' ' ∉ part)
    (hne : ∀ part ∈ parts, part ≠ []) : splitPairs ([byte '&'].intercalate parts) = parts := by
  by_cases hparts : parts = []
  · subst hparts
    rfl
  · have hsplit : ([byte '&'].intercalate parts).splitOn (byte '&') = parts :=
      List.splitOn_intercalate _ (fun part hp => (hplain part hp).1) hparts
    have htrim : (parts.zipIdx.map fun (part, i) =>
        if i = 0 then part else part.dropWhile (· = byte ' ')) = parts := by
      have hid : ∀ p ∈ parts.zipIdx, (if p.2 = 0 then p.1 else p.1.dropWhile (· = byte ' ')) = p.1 := by
        rintro ⟨part, i⟩ hp
        have hmem : part ∈ parts := List.fst_mem_of_mem_zipIdx hp
        have hdrop : part.dropWhile (· = byte ' ') = part := by
          cases part with
          | nil => rfl
          | cons b rest =>
            have hb : b ≠ byte ' ' := fun h => (hplain _ hmem).2 (h ▸ List.mem_cons_self)
            exact List.dropWhile_cons_of_neg (by simpa using hb)
        dsimp only
        rw [hdrop, ite_self]
      rw [List.map_congr_left hid]
      exact List.zipIdx_map_fst 0 parts
    simp only [splitPairs, hsplit, htrim]
    exact List.filter_eq_self.mpr fun part hp => by simpa using hne part hp

theorem mapM_decodePair {pairs : List RawPair} {parts : List Bytes} (h : List.Forall₂ EncodesPair pairs parts) :
    parts.mapM decodePair = .ok pairs := by
  induction h with
  | nil => rfl
  | cons hpair _ ih =>
    rw [List.mapM_cons, decodePair_encodes hpair, ih]
    rfl

/-- **The pairs of an encoding are read back.** -/
theorem queryPairs_encodes {pairs : List RawPair} {qs : Bytes} (h : Encodes pairs qs)
    (hkeys : ∀ pair ∈ pairs, pair.key ≠ []) : queryPairs qs = .ok pairs := by
  obtain ⟨parts, hparts, rfl⟩ := h
  have hside : ∀ part ∈ parts, (byte '&' ∉ part ∧ byte ' ' ∉ part) ∧ part ≠ [] := by
    intro part hpart
    obtain ⟨i, hi, rfl⟩ := List.getElem_of_mem hpart
    have hi' : i < pairs.length := hparts.length_eq ▸ hi
    have hone := List.Forall₂.get hparts hi' hi
    exact ⟨hone.plain, hone.ne_nil (hkeys _ (List.getElem_mem hi'))⟩
  rw [queryPairs, splitPairs_intercalate (fun part hp => (hside part hp).1) fun part hp => (hside part hp).2]
  exact mapM_decodePair hparts

/-- An upper-case hex digit. -/
def upperHex (n : UInt8) : UInt8 := if n < 10 then byte '0' + n else byte 'A' + (n - 10)

def isUnreserved (b : UInt8) : Bool :=
  (byte 'a' ≤ b && b ≤ byte 'z') || (byte 'A' ≤ b && b ≤ byte 'Z') || (byte '0' ≤ b && b ≤ byte '9') ||
    b ∈ text "-._~"

/-- One way of escaping: all but the unreserved bytes as hex digits. -/
def percentEncode (s : Bytes) : Bytes :=
  s.flatMap fun b => if isUnreserved b then [b] else [byte '%', upperHex (b / 16), upperHex (b % 16)]

def encodePair (pair : RawPair) : Bytes :=
  match pair.value with
  | none => percentEncode pair.key
  | some value => percentEncode pair.key ++ byte '=' :: percentEncode value

def encodePairs (pairs : List RawPair) : Bytes := [byte '&'].intercalate (pairs.map encodePair)

theorem escapes_percentEncode (s : Bytes) : Escapes s (percentEncode s) := by
  have hbyte : ∀ n : Fin 256, (isUnreserved (UInt8.ofNat n) = true → UInt8.ofNat n ∉ reserved) ∧
      hexValue (upperHex (UInt8.ofNat n / 16)) = some (UInt8.ofNat n / 16) ∧
      hexValue (upperHex (UInt8.ofNat n % 16)) = some (UInt8.ofNat n % 16) ∧
      UInt8.ofNat n / 16 * 16 + UInt8.ofNat n % 16 = UInt8.ofNat n := by decide +kernel
  induction s with
  | nil => exact .nil
  | cons b s ih =>
    obtain ⟨hplain, hhigh, hlow, hsum⟩ : _ ∧ _ ∧ _ ∧ _ := by
      simpa only [UInt8.ofNat_toNat] using hbyte ⟨b.toNat, b.toNat_lt⟩
    rw [percentEncode, List.flatMap_cons]
    split
    · next hb => exact .raw (hplain hb) ih
    · have hescape := Escapes.hex hhigh hlow ih
      rwa [hsum] at hescape

/-- **Every list of pairs has an encoding.** -/
theorem encodes_encodePairs (pairs : List RawPair) : Encodes pairs (encodePairs pairs) := by
  refine ⟨pairs.map encodePair, ?_, rfl⟩
  induction pairs with
  | nil => exact .nil
  | cons pair pairs ih =>
    refine .cons ?_ ih
    obtain ⟨key, _ | value⟩ := pair
    · exact .bare (escapes_percentEncode key)
    · exact .value (escapes_percentEncode key) (escapes_percentEncode value)

/-! ## 3. The pairs of a tree -/

/-- The pair is text throughout. -/
def RawPair.IsText (pair : RawPair) : Prop := Utf8 pair.key ∧ ∀ v ∈ pair.value, Utf8 v

theorem isText_under {k : Bytes} {pair : RawPair} (hk : Utf8 k) (h : pair.IsText) : (pair.under k).IsText :=
  ⟨hk.append h.1, h.2⟩

theorem utf8_bracketed {k : Bytes} (hk : Utf8 k) : Utf8 (bracketed k) := by
  have hopen : Utf8 [byte '['] := .ascii (forall_mem_of_all (by decide))
  have hclose : Utf8 [byte ']'] := .ascii (forall_mem_of_all (by decide))
  have happend := (hopen.append hk).append hclose
  rwa [List.append_assoc] at happend

theorem isText_entries {entries : ParamMap} (hkeys : ∀ e ∈ entries, IsKey e.1)
    (hvalues : ∀ e ∈ entries, ∀ pair ∈ e.2.pairs, pair.IsText) : ∀ pair ∈ entryPairs entries, pair.IsText := by
  intro pair hp
  rw [entryPairs_eq, List.mem_flatMap] at hp
  obtain ⟨e, he, hp⟩ := hp
  obtain ⟨inner, hinner, rfl⟩ := List.mem_map.mp hp
  exact isText_under (utf8_bracketed (validUtf8_iff.mp (hkeys e he).utf8)) (hvalues e he inner hinner)

theorem isText_items {items : List Param} (h : ∀ item ∈ items, ∀ pair ∈ item.pairs, pair.IsText) :
    ∀ pair ∈ itemPairs items, pair.IsText := by
  intro pair hp
  rw [itemPairs_eq, List.mem_flatMap] at hp
  obtain ⟨item, hitem, hp⟩ := hp
  obtain ⟨inner, hinner, rfl⟩ := List.mem_map.mp hp
  exact isText_under (.ascii (forall_mem_of_all (by decide))) (h item hitem inner hinner)

theorem isText_str {s : Bytes} (hs : validUtf8 s = true) : ∀ pair ∈ (Param.str s).pairs, pair.IsText := by
  intro pair hp
  obtain rfl := List.mem_singleton.mp hp
  exact ⟨.nil, fun v hv => by cases hv; exact validUtf8_iff.mp hs⟩

theorem Writable.isText {value : Param} (h : Writable value) : ∀ pair ∈ value.pairs, pair.IsText := by
  induction h with
  | null =>
    intro pair hp
    obtain rfl := List.mem_singleton.mp hp
    exact ⟨.nil, fun v hv => by cases hv⟩
  | str hs => exact isText_str hs
  | strings _ hutf8 =>
    refine isText_items fun item hitem => ?_
    obtain ⟨s, hs, rfl⟩ := List.mem_map.mp hitem
    exact isText_str (hutf8 s hs)
  | hashes _ hflat _ =>
    refine isText_items fun item hitem => ?_
    obtain ⟨hash, hhash, rfl⟩ := List.mem_map.mp hitem
    refine isText_entries (hflat hash hhash).keys fun e he => ?_
    obtain ⟨s, hs, hvalid⟩ := (hflat hash hhash).strings e he
    exact hs ▸ isText_str hvalid
  | hash _ hkeys _ _ ih => exact isText_entries hkeys ih

/-- A pair of a tree is a text under one of the tree's keys. -/
structure RawPair.Named (pair : RawPair) : Prop where
  text : pair.IsText
  key : ∃ k s, IsKey k ∧ Closed (byte '[') s ∧ pair.key = k ++ s

theorem ParamTree.named (tree : ParamTree) : ∀ pair ∈ tree.entries.pairs, pair.Named := by
  intro pair hp
  obtain ⟨e, he, hp⟩ := List.mem_flatMap.mp hp
  obtain ⟨inner, hinner, rfl⟩ := List.mem_map.mp hp
  have hk := tree.keys e he
  exact ⟨isText_under (validUtf8_iff.mp hk.utf8) ((tree.values e he).isText inner hinner),
    e.1, inner.key, hk, pairs_closed e.2 inner hinner, rfl⟩

theorem RawPair.Named.ne_nil {pair : RawPair} (h : pair.Named) : pair.key ≠ [] := by
  obtain ⟨k, s, hk, -, hkey⟩ := h.key
  rw [hkey]
  exact List.append_ne_nil_of_left_ne_nil hk.nonempty s

/-- The checks before a pair is stored let it through. -/
theorem storePair_named {pair : RawPair} (h : pair.Named) (params : ParamMap) :
    storePair params pair = storeOne depthLimit 0 params pair := by
  obtain ⟨k, s, hk, hs, hkey⟩ := h.key
  have htop : topLevelKey pair.key = k := by
    have hsplit : splitTopLevel (k ++ s) = (k, s) := splitName_segment hk hs 0
    rw [topLevelKey, hkey, hsplit]
  have hutf8 : validUtf8 pair.key = true := validUtf8_iff.mpr h.text.1
  simp only [storePair, hutf8, htop, List.isEmpty_iff, hk.nonempty, Bool.not_true, Bool.false_eq_true, if_false,
    storeOne]
  cases hv : pair.value with
  | none => rfl
  | some v =>
    have hvalid : validUtf8 v = true := validUtf8_iff.mpr (h.text.2 v hv)
    simp only [hvalid, if_true, paramOf]

/-- **Storing a tree's pairs builds the tree, or runs out of levels.** -/
theorem fromPairs_tree (tree : ParamTree) : fromPairs tree.entries.pairs =
    if tree.depth ≤ depthLimit then .ok tree.entries else .error .tooDeep := by
  have hfold : ∀ (pairs : List RawPair), (∀ pair ∈ pairs, pair.Named) → ∀ params,
      pairs.foldlM storePair params = storeAll depthLimit 0 params pairs := by
    intro pairs
    induction pairs with
    | nil => exact fun _ _ => rfl
    | cons pair pairs ih =>
      intro hnamed params
      rw [List.foldlM_cons, storePair_named (hnamed pair List.mem_cons_self), storeAll_cons]
      cases storeOne depthLimit 0 params pair with
      | error e => rfl
      | ok params => exact ih (fun p hp => hnamed p (List.mem_cons_of_mem _ hp)) params
  have hentries := storeAll_entries depthLimit 0 tree.entries [] tree.distinct fun e he =>
    (tree.values e he).stores (tree.keys e he)
  rw [fromPairs, hfold _ tree.named]
  exact hentries

/-! ## 4. The query string -/

/-- **A tree within the depth limit is read back whole and in order; a deeper one is too deep; and whatever
the bytes, reading them panics nowhere.** -/
theorem fromQueryString_tree :
    (∀ (tree : ParamTree) (qs : Bytes), Encodes tree.entries.pairs qs →
      (tree.depth ≤ depthLimit → fromQueryString qs = .ok tree.entries) ∧
      (depthLimit < tree.depth → fromQueryString qs = .error .tooDeep)) ∧
    ∀ qs : Bytes, Panicking.fromQueryString qs = some (fromQueryString qs) := by
  refine ⟨fun tree qs h => ?_, Panicking.fromQueryString_eq⟩
  have hread : fromQueryString qs = fromPairs tree.entries.pairs := by
    rw [fromQueryString, queryPairs_encodes h fun pair hp => (tree.named pair hp).ne_nil]
    rfl
  rw [hread, fromPairs_tree]
  exact ⟨fun hle => if_pos hle, fun hlt => if_neg (by omega)⟩

def sampleTree : ParamTree where
  entries :=
    [(text "user", .hash [(text "name", .str (text "A&B")), (text "nick", .null)]),
     (text "tags", .array ([text "x", text ""].map .str)),
     (text "rows", .array ([[(text "id", .str (text "1")), (text "n", .str (text "2"))],
       [(text "id", .str (text "3"))]].map .hash))]
  keys := by decide +kernel
  distinct := by decide
  values := by
    rintro e (_ | ⟨_, _ | ⟨_, _ | ⟨_, ⟨⟩⟩⟩⟩)
    · refine .hash (List.cons_ne_nil _ _) (by decide +kernel) (by decide) ?_
      rintro e (_ | ⟨_, _ | ⟨_, ⟨⟩⟩⟩)
      · exact .str (by decide +kernel)
      · exact .null
    · exact .strings (List.cons_ne_nil _ _) (by decide +kernel)
    · refine .hashes (List.cons_ne_nil _ _) ?_ (.cons_cons ⟨_, rfl, by decide⟩ (.singleton _))
      rintro hash (_ | ⟨_, _ | ⟨_, ⟨⟩⟩⟩)
      · refine ⟨List.cons_ne_nil _ _, by decide +kernel, by decide, ?_⟩
        rintro e (_ | ⟨_, _ | ⟨_, ⟨⟩⟩⟩) <;> exact ⟨_, rfl, by decide +kernel⟩
      · refine ⟨List.cons_ne_nil _ _, by decide +kernel, by decide, ?_⟩
        rintro e (_ | ⟨_, ⟨⟩⟩)
        exact ⟨_, rfl, by decide +kernel⟩

def sampleQuery : Bytes :=
  text "user%5Bname%5D=A%26B&user%5Bnick%5D&tags%5B%5D=x&tags%5B%5D=&" ++
    text "rows%5B%5D%5Bid%5D=1&rows%5B%5D%5Bn%5D=2&rows%5B%5D%5Bid%5D=3"

theorem fromQueryString_tree_sample : fromQueryString sampleQuery = .ok sampleTree.entries := by
  have hencodes := encodes_encodePairs sampleTree.entries.pairs
  have hencode : encodePairs sampleTree.entries.pairs = sampleQuery := by decide +kernel
  rw [hencode] at hencodes
  exact (fromQueryString_tree.1 sampleTree sampleQuery hencodes).1 (by decide +kernel)

end Smartfire
