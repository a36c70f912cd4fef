/-
  File:      Smartfire/Kit/Nested.lean
  Subject:   A tree of parameters, and the pairs it is written as.

  * `Writable`, `ParamTree` -- the trees a query string can write, keys distinct and free of brackets;
  * `Param.pairs`, `ParamMap.pairs` -- their pairs: `k[sub]=v`, `k[]=v`, `k[][key]=v`, in order;
  * `Param.levels` -- how many calls of `store_nested_param` deep a value is stored;
  * `storeAll_entry`, `storeAll_entries` -- storing the pairs builds the tree, or runs out of levels.
-/
import Smartfire.Kit.Params
import Smartfire.Lib.Utf8
import Mathlib.Data.List.Infix

namespace Smartfire

open Lib

/-! ## 1. Trees -/

/-- A key that brackets can be put around. -/
structure IsKey (k : Bytes) : Prop where
  nonempty : k ≠ []
  noOpen : byte '[' ∉ k
  noClose : byte ']' ∉ k
  utf8 : validUtf8 k = true

instance : DecidablePred IsKey := fun k =>
  decidable_of_iff (k ≠ [] ∧ byte '[' ∉ k ∧ byte ']' ∉ k ∧ validUtf8 k = true)
    ⟨fun ⟨h₁, h₂, h₃, h₄⟩ => ⟨h₁, h₂, h₃, h₄⟩, fun ⟨h₁, h₂, h₃, h₄⟩ => ⟨h₁, h₂, h₃, h₄⟩⟩

def ParamMap.keys (params : ParamMap) : List Bytes := params.map (·.1)

/-- A non-empty hash of strings alone. -/
structure IsFlat (hash : ParamMap) : Prop where
  nonempty : hash ≠ []
  keys : ∀ e ∈ hash, IsKey e.1
  distinct : hash.keys.Nodup
  strings : ∀ e ∈ hash, ∃ s, e.2 = .str s ∧ validUtf8 s = true

/-- The next hash begins with a key the previous one has. -/
def Restarts (prev next : ParamMap) : Prop := ∃ e ∈ next.head?, e.1 ∈ prev.keys

/-- What a query string can write below a key. -/
inductive Writable : Param → Prop
  | null : Writable .null
  | str {s : Bytes} (hs : validUtf8 s = true) : Writable (.str s)
  | strings {texts : List Bytes} (nonempty : texts ≠ []) (utf8 : ∀ s ∈ texts, validUtf8 s = true) :
      Writable (.array (texts.map .str))
  | hashes {hashes : List ParamMap} (nonempty : hashes ≠ []) (flat : ∀ hash ∈ hashes, IsFlat hash)
      (restarts : hashes.IsChain Restarts) : Writable (.array (hashes.map .hash))
  | hash {entries : ParamMap} (nonempty : entries ≠ []) (keys : ∀ e ∈ entries, IsKey e.1)
      (distinct : entries.keys.Nodup) (values : ∀ e ∈ entries, Writable e.2) :
      Writable (.hash entries)

/-- A tree of parameters; one without an entry is the empty query's. -/
structure ParamTree where
  entries : ParamMap
  keys : ∀ e ∈ entries, IsKey e.1
  distinct : entries.keys.Nodup
  values : ∀ e ∈ entries, Writable e.2

/-! ## 2. Its pairs -/

/-- A key in brackets. -/
def bracketed (k : Bytes) : Bytes := byte '[' :: k ++ [byte ']']

def RawPair.under (k : Bytes) (pair : RawPair) : RawPair := { pair with key := k ++ pair.key }

mutual

/-- The pairs of a value, their names from behind the key it stands under; a nil has no `=`. -/
def Param.pairs : Param → List RawPair
  | .null => [⟨[], none⟩]
  | .str s => [⟨[], some s⟩]
  | .array items => itemPairs items
  | .hash entries => entryPairs entries

def itemPairs : List Param → List RawPair
  | [] => []
  | item :: rest => item.pairs.map (RawPair.under (text "[]")) ++ itemPairs rest

def entryPairs : List (Bytes × Param) → List RawPair
  | [] => []
  | (k, value) :: rest => value.pairs.map (RawPair.under (bracketed k)) ++ entryPairs rest

end

/-- The pairs of a whole tree: at the top the key stands without brackets. -/
def ParamMap.pairs (params : ParamMap) : List RawPair :=
  params.flatMap fun e => e.2.pairs.map (RawPair.under e.1)

mutual

/-- How many levels storing a value takes: its own, and one more for each hash around what it holds. -/
def Param.levels : Param → Nat
  | .null => 1
  | .str _ => 1
  | .array items => itemLevels items
  | .hash entries => entryLevels entries + 1

def itemLevels : List Param → Nat
  | [] => 0
  | item :: rest => max item.levels (itemLevels rest)

def entryLevels : List (Bytes × Param) → Nat
  | [] => 0
  | (_, value) :: rest => max value.levels (entryLevels rest)

end

/-- How many hashes deep the tree is, its own among them. -/
def ParamTree.depth (tree : ParamTree) : Nat := entryLevels tree.entries

theorem entryPairs_eq (entries : ParamMap) :
    entryPairs entries = entries.flatMap fun e => e.2.pairs.map (RawPair.under (bracketed e.1)) := by
  induction entries with
  | nil => rfl
  | cons e rest ih => rw [entryPairs, ih, List.flatMap_cons]

theorem itemPairs_eq (items : List Param) :
    itemPairs items = items.flatMap fun item => item.pairs.map (RawPair.under (text "[]")) := by
  induction items with
  | nil => rfl
  | cons item rest ih => rw [itemPairs, ih, List.flatMap_cons]

/-! ## 3. Names -/

/-- How a key stands in a name: in brackets below the top. -/
def segment (depth : Nat) (k : Bytes) : Bytes := if depth = 0 then k else bracketed k

theorem dropWhile_line {sep : UInt8} {x s : Bytes} (hx : sep ∉ x) (hs : Closed sep s) :
    (x ++ s).dropWhile (· ≠ sep) = s := by
  have hsplit := List.takeWhile_append_dropWhile (p := (· ≠ sep)) (l := x ++ s)
  rw [takeWhile_line hx hs] at hsplit
  exact List.append_cancel_left hsplit

theorem IsKey.ne_brackets {k : Bytes} (h : IsKey k) : k ≠ text "[]" := by
  rintro rfl
  exact h.noOpen (by decide)

/-- **A name falls apart into the key it was written with and what was behind it.** -/
theorem splitName_segment {k s : Bytes} (hk : IsKey k) (hs : Closed (byte '[') s) (depth : Nat) :
    splitName depth (segment depth k ++ s) = (k, s) := by
  obtain ⟨b, k, rfl⟩ := List.exists_cons_of_ne_nil hk.nonempty
  by_cases hd : depth = 0
  · have hk' : byte '[' ∉ k := fun h => hk.noOpen (List.mem_cons_of_mem b h)
    simp only [splitName, segment, hd, if_true, List.cons_append, splitTopLevel]
    rw [takeWhile_line hk' hs, dropWhile_line hk' hs]
  · have hb : b ≠ byte ']' := fun h => hk.noClose (h ▸ List.mem_cons_self)
    have hname : segment depth (b :: k) ++ s = byte '[' :: ((b :: k) ++ byte ']' :: s) := by
      simp [segment, hd, bracketed]
    have hclosed : Closed (byte ']') (byte ']' :: s) := closed_cons _ s
    unfold splitName
    rw [if_neg hd, hname, if_neg]
    · simp only [dropWhile_line hk.noClose hclosed, takeWhile_line hk.noClose hclosed, if_true]
    · simpa [text, byte] using fun h => hb h.symm

/-! ## 4. Storing one pair -/

section Get

variable {params : ParamMap} {k : Bytes} {value value' : Param}

theorem get_eq_none (h : k ∉ params.keys) : params.get k = none := by
  rw [ParamMap.get, Option.map_eq_none_iff, List.find?_eq_none]
  intro e he hek
  exact h (List.mem_map.mpr ⟨e, he, by simpa using hek⟩)

theorem insert_fresh (h : k ∉ params.keys) : params.insert k value = params ++ [(k, value)] := by
  induction params with
  | nil => rfl
  | cons e rest ih =>
    have hne : e.1 ≠ k := fun he => h (he ▸ List.mem_cons_self)
    have hrest : k ∉ ParamMap.keys rest := fun hm => h (List.mem_cons_of_mem e.1 hm)
    simp only [ParamMap.insert, hne, if_false, ih hrest, List.cons_append]

theorem get_last (h : k ∉ params.keys) : ParamMap.get (params ++ [(k, value)]) k = some value := by
  have hnone : params.find? (·.1 = k) = none := by simpa [ParamMap.get] using get_eq_none h
  simp [ParamMap.get, List.find?_append, hnone]

theorem insert_last (h : k ∉ params.keys) :
    ParamMap.insert (params ++ [(k, value)]) k value' = params ++ [(k, value')] := by
  induction params with
  | nil => simp [ParamMap.insert]
  | cons e rest ih =>
    have hne : e.1 ≠ k := fun he => h (he ▸ List.mem_cons_self)
    have hrest : k ∉ ParamMap.keys rest := fun hm => h (List.mem_cons_of_mem e.1 hm)
    simp only [List.cons_append, ParamMap.insert, hne, if_false, ih hrest]

end Get

/-- What a pair stores. -/
def paramOf : Option Bytes → Param
  | none => .null
  | some value => .str value

/-- Storing one pair, without what `store_nested_param` returns. -/
def storeOne (left depth : Nat) (params : ParamMap) (pair : RawPair) : Except ParamError ParamMap :=
  (storeNestedParam left params pair.key (paramOf pair.value) depth).map (·.2)

def storeAll (left depth : Nat) (params : ParamMap) (pairs : List RawPair) : Except ParamError ParamMap :=
  pairs.foldlM (storeOne left depth) params

@[simp] theorem storeAll_nil (left depth : Nat) (params : ParamMap) :
    storeAll left depth params [] = .ok params := rfl

theorem storeAll_cons (left depth : Nat) (params : ParamMap) (pair : RawPair) (pairs : List RawPair) :
    storeAll left depth params (pair :: pairs) =
      (storeOne left depth params pair).bind fun params => storeAll left depth params pairs := by
  simp only [storeAll, List.foldlM_cons]
  rfl

theorem storeAll_append (left depth : Nat) (params : ParamMap) (xs ys : List RawPair) :
    storeAll left depth params (xs ++ ys) =
      (storeAll left depth params xs).bind fun params => storeAll left depth params ys := by
  simp only [storeAll, List.foldlM_append]
  rfl

/-- With no level left any pair is too deep. -/
theorem storeAll_zero (depth : Nat) (params : ParamMap) {pairs : List RawPair} (h : pairs ≠ []) :
    storeAll 0 depth params pairs = .error .tooDeep := by
  obtain ⟨pair, pairs, rfl⟩ := List.exists_cons_of_ne_nil h
  rfl

section Step

variable {left depth : Nat} {params : ParamMap} {k : Bytes} {value : Param}

theorem storeNested_leaf (hk : IsKey k) :
    storeNestedParam (left + 1) params (segment depth k) value depth = .ok (.params, params.insert k value) := by
  have hsplit := splitName_segment hk (closed_nil _) depth
  rw [List.append_nil] at hsplit
  simp [storeNestedParam, hsplit, hk.nonempty, hk.ne_brackets]

theorem storeNested_array (hk : IsKey k) {items : List Param} (hslot : arraySlot params k = .ok items)
    (hv : value.isNull = false) :
    storeNestedParam (left + 1) params (segment depth k ++ text "[]") value depth =
      .ok (.params, params.insert k (.array (items ++ [value]))) := by
  have hsplit := splitName_segment hk (closed_cons (byte '[') [byte ']']) depth
  have hbr : text "[]" = [byte '[', byte ']'] := rfl
  rw [← hbr] at hsplit
  have h₁ : text "[]" ≠ [] := by decide
  have h₂ : text "[]" ≠ text "[" := by decide
  simp [storeNestedParam, hsplit, hk.nonempty, h₁, h₂, hslot, hv]

/-- A bare key below the top is the whole name. -/
theorem storeNested_bare (hk : IsKey k) :
    storeNestedParam (left + 1) params k value (depth + 1) = .ok (.params, params.insert k value) := by
  have hsplit : splitName (depth + 1) k = (k, []) := by
    obtain ⟨b, rest, rfl⟩ := List.exists_cons_of_ne_nil hk.nonempty
    have hb : b ≠ byte '[' := fun h => hk.noOpen (h ▸ List.mem_cons_self)
    have hpre : (text "[]").isPrefixOf (b :: rest) = false := by
      have hb' : (byte '[' == b) = false := beq_false_of_ne fun h => hb h.symm
      have hbr : text "[]" = [byte '[', byte ']'] := rfl
      rw [hbr, List.isPrefixOf_cons_cons, hb', Bool.false_and]
    simp only [splitName, Nat.succ_ne_zero, if_false, hpre, Bool.false_eq_true, hb]
    split <;> rfl
  simp [storeNestedParam, hsplit, hk.nonempty, hk.ne_brackets]

theorem arrayChildKey_bracketed (hk : IsKey k) : arrayChildKey (bracketed k) = k := by
  have hinner : ((bracketed k).drop 1).dropLast = k := by simp [bracketed]
  have hhead : (bracketed k).head? = some (byte '[') := rfl
  have hlast : (bracketed k).getLast? = some (byte ']') := List.getLast?_concat
  have hlen : (bracketed k).length > 1 := by simp [bracketed]
  simp only [arrayChildKey, hinner, hhead, hlast, hlen]
  simp [hk.nonempty, hk.noOpen, hk.noClose]

/-- **The element rule sees the one key.** -/
theorem paramsHashHasKey_eq {last : ParamMap} (hk : IsKey k) :
    paramsHashHasKey last k = decide (k ∈ last.keys) := by
  have htails : k.tails.any (text "[]").isPrefixOf = false := by
    rw [List.any_eq_false]
    intro t ht hpre
    obtain ⟨rest, hrest⟩ := List.isPrefixOf_iff_prefix.mp hpre
    have hmem : byte '[' ∈ t := hrest ▸ by simp [text]
    exact hk.noOpen (((List.mem_tails t k).mp ht).mem hmem)
  have hparts : (k.splitOnP fun b => b = byte '[' || b = byte ']') = [k] := by
    apply List.splitOnP_eq_singleton
    intro b hb
    have h₁ : b ≠ byte '[' := fun h => hk.noOpen (h ▸ hb)
    have h₂ : b ≠ byte ']' := fun h => hk.noClose (h ▸ hb)
    simp [h₁, h₂]
  have hfilter : [k].filter (! ·.isEmpty) = [k] := by simp [hk.nonempty]
  simp only [paramsHashHasKey, htails, Bool.false_eq_true, if_false, hparts, hfilter, hasPath]
  by_cases hmem : k ∈ last.keys
  · obtain ⟨e, he, hek⟩ := List.mem_map.mp hmem
    have hfind : (last.get k).isSome = true := by
      rw [ParamMap.get, Option.isSome_map, List.find?_isSome]
      exact ⟨e, he, by simpa using hek⟩
    obtain ⟨v, hv⟩ := Option.isSome_iff_exists.mp hfind
    simp [hv, hmem]
  · simp [get_eq_none hmem, hmem]

/-! `x[][y]`: the name's parts, whatever the level. -/

section Element

variable {x : Bytes} {items init : List Param} {last : ParamMap}

theorem element_split (hk : IsKey k) :
    splitName depth (segment depth k ++ (text "[]" ++ bracketed x)) = (k, text "[]" ++ bracketed x) :=
  splitName_segment hk (closed_cons (byte '[') _) depth

theorem element_ne : text "[]" ++ bracketed x ≠ [] ∧ text "[]" ++ bracketed x ≠ text "[" ∧
    text "[]" ++ bracketed x ≠ text "[]" := by
  refine ⟨List.cons_ne_nil _ _, fun h => ?_, fun h => ?_⟩ <;>
    · have hlen := congrArg List.length h
      simp [text, bracketed] at hlen

/-- The levels run out inside the element. -/
theorem storeNested_element_deep (hk : IsKey k) (hslot : arraySlot params k = .ok items) :
    storeNestedParam 1 params (segment depth k ++ (text "[]" ++ bracketed x)) value depth = .error .tooDeep := by
  obtain ⟨h₁, h₂, h₃⟩ := element_ne (x := x)
  have hpre : (text "[]").isPrefixOf (text "[]" ++ bracketed x) = true :=
    List.isPrefixOf_iff_prefix.mpr (List.prefix_append _ _)
  simp only [storeNestedParam, element_split hk, List.isEmpty_iff, hk.nonempty, h₁, h₂, h₃, hpre, hslot,
    if_true, if_false]
  split
  · next last _ => split <;> rfl
  · rfl

/-- A key the last hash has, or no last hash: a new element. -/
theorem storeNested_element_new (hk : IsKey k) (hx : IsKey x) (hslot : arraySlot params k = .ok items)
    (hlast : ∀ last : ParamMap, items.getLast? = some (.hash last) → x ∈ last.keys) :
    storeNestedParam (left + 2) params (segment depth k ++ (text "[]" ++ bracketed x)) value depth =
      .ok (.params, params.insert k (.array (items ++ [Param.hash [(x, value)]]))) := by
  obtain ⟨h₁, h₂, h₃⟩ := element_ne (x := x)
  have hpre : (text "[]").isPrefixOf (text "[]" ++ bracketed x) = true :=
    List.isPrefixOf_iff_prefix.mpr (List.prefix_append _ _)
  have hdrop : (text "[]" ++ bracketed x).drop 2 = bracketed x := rfl
  rw [storeNestedParam]
  simp only [element_split hk, List.isEmpty_iff, hk.nonempty, h₁, h₂, h₃, hpre, hslot, hdrop,
    arrayChildKey_bracketed hx, storeNested_bare hx, if_true, if_false, Stored.intoParam, ParamMap.insert]
  split
  · next last hl => rw [paramsHashHasKey_eq hx, if_pos (by simpa using hlast last hl)]
  · rfl

/-- A key the last hash lacks: onto that hash. -/
theorem storeNested_element_onto (hk : IsKey k) (hx : IsKey x)
    (hslot : arraySlot params k = .ok (init ++ [Param.hash last])) (hlast : x ∉ last.keys) :
    storeNestedParam (left + 2) params (segment depth k ++ (text "[]" ++ bracketed x)) value depth =
      .ok (.params, params.insert k (.array (init ++ [Param.hash (last ++ [(x, value)])]))) := by
  obtain ⟨h₁, h₂, h₃⟩ := element_ne (x := x)
  have hpre : (text "[]").isPrefixOf (text "[]" ++ bracketed x) = true :=
    List.isPrefixOf_iff_prefix.mpr (List.prefix_append _ _)
  have hdrop : (text "[]" ++ bracketed x).drop 2 = bracketed x := rfl
  rw [storeNestedParam]
  simp only [element_split hk, List.isEmpty_iff, hk.nonempty, h₁, h₂, h₃, hpre, hslot, hdrop,
    arrayChildKey_bracketed hx, storeNested_bare hx, if_true, if_false, List.getLast?_concat,
    List.dropLast_concat, paramsHashHasKey_eq hx, hlast, decide_false, Bool.false_eq_true,
    insert_fresh hlast]

end Element

/-! `x[y]…`: one level down, then back under the key. -/

section Nested

variable {x s : Bytes} {existing : ParamMap}

theorem storeNested_params {stored : Stored} {child : ParamMap} (hx : IsKey x)
    (hs : Closed (byte '[') s)
    (h : storeNestedParam left params (bracketed x ++ s) value (depth + 1) = .ok (stored, child)) :
    stored = .params := by
  cases left with
  | zero => cases h
  | succ left =>
    have hsplit : splitName (depth + 1) (bracketed x ++ s) = (x, s) := splitName_segment hx hs (depth + 1)
    simp only [storeNestedParam, hsplit, List.isEmpty_iff, hx.nonempty, hx.ne_brackets, if_false,
      Bool.false_eq_true, decide_false, Bool.false_and] at h
    -- every branch behind a non-empty key that is not `[]` keeps the hash it was given
    split_ifs at h <;> repeat' split at h
    all_goals first
      | exact (congrArg Prod.fst (Except.ok.inj h)).symm
      | cases h

/-- **Storing under a key is storing in the hash there.** -/
theorem storeOne_nested (hk : IsKey k) (hx : IsKey x) (hs : Closed (byte '[') s) {v : Option Bytes}
    (hget : params.get k = none ∧ existing = [] ∨ params.get k = some (.hash existing)) :
    storeOne (left + 1) depth params ⟨segment depth k ++ (bracketed x ++ s), v⟩ =
      (storeOne left (depth + 1) existing ⟨bracketed x ++ s, v⟩).map fun child => params.insert k (.hash child) := by
  have hsplit : splitName depth (segment depth k ++ (bracketed x ++ s)) = (k, bracketed x ++ s) :=
    splitName_segment hk (closed_cons (byte '[') _) depth
  obtain ⟨b, t, rfl⟩ := List.exists_cons_of_ne_nil hx.nonempty
  have hb : b ≠ byte ']' := fun h => hx.noClose (h ▸ List.mem_cons_self)
  have h₁ : bracketed (b :: t) ++ s ≠ [] := List.cons_ne_nil _ _
  have h₂ : bracketed (b :: t) ++ s ≠ text "[" := fun h => by
    have hlen := congrArg List.length h
    simp [text, bracketed] at hlen
  have hpre : (text "[]").isPrefixOf (bracketed (b :: t) ++ s) = false := by
    have hb' : (byte ']' == b) = false := beq_false_of_ne fun h => hb h.symm
    have hbr : text "[]" = [byte '[', byte ']'] := rfl
    simp only [hbr, bracketed, List.cons_append, List.isPrefixOf_cons_cons, hb', Bool.false_and, Bool.and_false]
  have h₃ : bracketed (b :: t) ++ s ≠ text "[]" := fun h => by
    rw [h] at hpre
    exact absurd hpre (by decide)
  simp only [storeOne, storeNestedParam, hsplit, List.isEmpty_iff, hk.nonempty, h₁, h₂, h₃, hpre, if_false,
    Bool.false_eq_true]
  have hstored : ∀ {p r}, storeNestedParam left existing (bracketed (b :: t) ++ s) p (depth + 1) = .ok r →
      r.1 = .params := storeNested_params hx hs
  obtain ⟨hnone, rfl⟩ | hsome := hget
  · simp only [hnone]
    split <;> rename_i hr <;> rw [hr]
    · rfl
    · have hparams := hstored hr
      simp only at hparams
      rw [hparams]
      rfl
  · simp only [hsome]
    split <;> rename_i hr <;> rw [hr]
    · rfl
    · have hparams := hstored hr
      simp only at hparams
      rw [hparams]
      rfl

end Nested

end Step

/-! ## 5. Storing the pairs of a value -/

/-- The map has a key's first value, or not yet the key. -/
def Opened (params : ParamMap) (k : Bytes) (start value : Param) (state : ParamMap) : Prop :=
  state = params ∧ value = start ∨ state = params ++ [(k, value)]

section Opened

variable {params state : ParamMap} {k : Bytes} {start value value' : Param}

theorem opened_start (params : ParamMap) (k : Bytes) (start : Param) : Opened params k start start params :=
  .inl ⟨rfl, rfl⟩

theorem opened_last (params : ParamMap) (k : Bytes) (start value : Param) :
    Opened params k start value (params ++ [(k, value)]) := .inr rfl

theorem Opened.insert (h : Opened params k start value state) (hfresh : k ∉ params.keys) :
    state.insert k value' = params ++ [(k, value')] := by
  obtain ⟨rfl, -⟩ | rfl := h
  · exact insert_fresh hfresh
  · exact insert_last hfresh

theorem Opened.slot {items : List Param} (h : Opened params k (.array []) (.array items) state)
    (hfresh : k ∉ params.keys) : arraySlot state k = .ok items := by
  obtain ⟨rfl, hv⟩ | rfl := h
  · cases hv
    rw [arraySlot, get_eq_none hfresh]
  · rw [arraySlot, get_last hfresh]

theorem Opened.existing {hash : ParamMap} (h : Opened params k (.hash []) (.hash hash) state)
    (hfresh : k ∉ params.keys) : state.get k = none ∧ hash = [] ∨ state.get k = some (.hash hash) := by
  obtain ⟨rfl, hv⟩ | rfl := h
  · cases hv
    exact .inl ⟨get_eq_none hfresh, rfl⟩
  · exact .inr (get_last hfresh)

end Opened

section Store

variable {left depth : Nat} {params state : ParamMap} {k : Bytes}

/-- `k[]=v`, one string after another. -/
theorem storeAll_strings (hk : IsKey k) (hfresh : k ∉ params.keys) (texts : List Bytes) (items : List Param) :
    storeAll (left + 1) depth (params ++ [(k, Param.array items)])
        (texts.map fun s => ⟨segment depth k ++ text "[]", some s⟩) =
      .ok (params ++ [(k, Param.array (items ++ texts.map .str))]) := by
  induction texts generalizing items with
  | nil => simp
  | cons s texts ih =>
    have hopen := opened_last params k (.array []) (.array items)
    rw [List.map_cons, storeAll_cons, storeOne, storeNested_array hk (hopen.slot hfresh) rfl,
      hopen.insert hfresh]
    simp only [Except.map, Except.bind, paramOf, ih, List.append_assoc, List.map_cons, List.singleton_append]

theorem entryPairs_str (x s : Bytes) (rest : ParamMap) :
    entryPairs ((x, .str s) :: rest) = ⟨bracketed x, some s⟩ :: entryPairs rest := by
  simp [entryPairs, Param.pairs, RawPair.under]

/-- A pair of an array's element, under the array's key. -/
def RawPair.element (depth : Nat) (k : Bytes) (pair : RawPair) : RawPair :=
  (pair.under (text "[]")).under (segment depth k)

/-- The rest of a hash goes onto the last element. -/
theorem storeAll_onto (hk : IsKey k) (hfresh : k ∉ params.keys) (items : List Param) (rest done : ParamMap)
    (hkeys : ∀ e ∈ rest, IsKey e.1) (hdistinct : (ParamMap.keys (done ++ rest)).Nodup)
    (hstrings : ∀ e ∈ rest, ∃ s, e.2 = .str s ∧ validUtf8 s = true) :
    storeAll (left + 2) depth (params ++ [(k, Param.array (items ++ [Param.hash done]))])
        ((entryPairs rest).map (RawPair.element depth k)) =
      .ok (params ++ [(k, Param.array (items ++ [Param.hash (done ++ rest)]))]) := by
  induction rest generalizing done with
  | nil => simp [entryPairs]
  | cons e rest ih =>
    obtain ⟨x, value⟩ := e
    obtain ⟨s, rfl, -⟩ := hstrings _ List.mem_cons_self
    have hx : IsKey x := hkeys _ List.mem_cons_self
    have hlast : x ∉ done.keys := by
      intro hmem
      simp only [ParamMap.keys, List.map_append, List.map_cons] at hdistinct
      exact (List.nodup_append.mp hdistinct).2.2 x hmem x List.mem_cons_self rfl
    have hopen := opened_last params k (.array []) (.array (items ++ [Param.hash done]))
    rw [entryPairs_str, List.map_cons, storeAll_cons, storeOne]
    simp only [RawPair.element, RawPair.under]
    rw [storeNested_element_onto hk hx (hopen.slot hfresh) hlast, hopen.insert hfresh]
    have hnext := ih (done ++ [(x, .str s)]) (fun e he => hkeys e (List.mem_cons_of_mem _ he))
      (by simpa using hdistinct) (fun e he => hstrings e (List.mem_cons_of_mem _ he))
    simp only [List.append_assoc, List.singleton_append] at hnext
    exact hnext

/-- **A hash whose first key the last element has becomes the next element.** -/
theorem storeAll_flat (hk : IsKey k) (hfresh : k ∉ params.keys) {items : List Param} {hash : ParamMap}
    (hflat : IsFlat hash) (hopen : Opened params k (.array []) (.array items) state)
    (hlast : ∀ last : ParamMap, items.getLast? = some (.hash last) → Restarts last hash) :
    storeAll (left + 2) depth state ((entryPairs hash).map (RawPair.element depth k)) =
      .ok (params ++ [(k, Param.array (items ++ [Param.hash hash]))]) := by
  obtain ⟨e, rest, rfl⟩ := List.exists_cons_of_ne_nil hflat.nonempty
  obtain ⟨x, value⟩ := e
  obtain ⟨s, rfl, -⟩ := hflat.strings _ List.mem_cons_self
  have hx : IsKey x := hflat.keys _ List.mem_cons_self
  have hhas : ∀ last : ParamMap, items.getLast? = some (.hash last) → x ∈ last.keys := by
    intro last hl
    obtain ⟨e, he, hmem⟩ := hlast last hl
    cases he
    exact hmem
  rw [entryPairs_str, List.map_cons, storeAll_cons, storeOne]
  simp only [RawPair.element, RawPair.under]
  rw [storeNested_element_new hk hx (hopen.slot hfresh) hhas, hopen.insert hfresh]
  exact storeAll_onto hk hfresh items rest [(x, .str s)] (fun e he => hflat.keys e (List.mem_cons_of_mem _ he))
    hflat.distinct (fun e he => hflat.strings e (List.mem_cons_of_mem _ he))

theorem itemPairs_hashes (hashes : List ParamMap) :
    itemPairs (hashes.map .hash) = hashes.flatMap fun hash => (entryPairs hash).map (RawPair.under (text "[]")) := by
  rw [itemPairs_eq, List.flatMap_map]
  rfl

/-- One hash after another, each a new element. -/
theorem storeAll_hashes (hk : IsKey k) (hfresh : k ∉ params.keys) (hashes : List ParamMap) (prev : ParamMap)
    (items : List Param) (hflat : ∀ hash ∈ hashes, IsFlat hash) (hchain : (prev :: hashes).IsChain Restarts) :
    storeAll (left + 2) depth (params ++ [(k, Param.array (items ++ [Param.hash prev]))])
        ((itemPairs (hashes.map .hash)).map (RawPair.under (segment depth k))) =
      .ok (params ++ [(k, Param.array (items ++ [Param.hash prev] ++ hashes.map .hash))]) := by
  induction hashes generalizing prev items with
  | nil => simp [itemPairs]
  | cons hash hashes ih =>
    obtain ⟨hrestart, hchain⟩ := List.isChain_cons_cons.mp hchain
    have hopen := opened_last params k (.array []) (.array (items ++ [Param.hash prev]))
    have hlast : ∀ last : ParamMap, (items ++ [Param.hash prev]).getLast? = some (.hash last) → Restarts last hash := by
      intro last hl
      rw [List.getLast?_concat] at hl
      cases hl
      exact hrestart
    have hone : storeAll (left + 2) depth _ ((entryPairs hash).map (RawPair.element depth k)) = _ :=
      storeAll_flat hk hfresh (hflat hash List.mem_cons_self) hopen hlast
    have hpair : RawPair.under (segment depth k) ∘ RawPair.under (text "[]") = RawPair.element depth k := rfl
    rw [itemPairs_hashes, List.flatMap_cons, List.map_append, List.map_map, storeAll_append, hpair, hone]
    have hnext := ih hash (items ++ [Param.hash prev]) (fun h hh => hflat h (List.mem_cons_of_mem _ hh)) hchain
    rw [itemPairs_hashes] at hnext
    simp only [Except.bind]
    rw [hnext, List.map_cons, List.append_assoc _ _ (hashes.map _), List.singleton_append]

/-- With one level left there is none for the elements. -/
theorem storeAll_hashes_deep (hk : IsKey k) (hfresh : k ∉ params.keys) {hash : ParamMap} (hflat : IsFlat hash)
    (hashes : List ParamMap) :
    storeAll 1 depth params ((itemPairs ((hash :: hashes).map .hash)).map (RawPair.under (segment depth k))) =
      .error .tooDeep := by
  obtain ⟨e, rest, rfl⟩ := List.exists_cons_of_ne_nil hflat.nonempty
  obtain ⟨x, value⟩ := e
  obtain ⟨s, rfl, -⟩ := hflat.strings _ List.mem_cons_self
  rw [itemPairs_hashes, List.flatMap_cons, entryPairs_str, List.map_cons, List.cons_append, List.map_cons,
    storeAll_cons, storeOne]
  simp only [RawPair.under]
  rw [storeNested_element_deep hk ((opened_start _ _ _).slot hfresh)]
  rfl

end Store

/-! ## 6. Storing a tree -/

theorem itemLevels_strings {texts : List Bytes} (h : texts ≠ []) : itemLevels (texts.map .str) = 1 := by
  induction texts with
  | nil => exact absurd rfl h
  | cons s rest ih =>
    cases rest with
    | nil => rfl
    | cons s' rest =>
      have hrest := ih (List.cons_ne_nil _ _)
      rw [List.map_cons, itemLevels, hrest]
      rfl

theorem entryLevels_strings {hash : ParamMap} (h : hash ≠ []) (hs : ∀ e ∈ hash, ∃ s, e.2 = .str s) :
    entryLevels hash = 1 := by
  induction hash with
  | nil => exact absurd rfl h
  | cons e rest ih =>
    obtain ⟨x, value⟩ := e
    obtain ⟨s, rfl⟩ := hs _ List.mem_cons_self
    cases rest with
    | nil => rfl
    | cons e' rest =>
      have hrest := ih (List.cons_ne_nil _ _) fun e he => hs e (List.mem_cons_of_mem _ he)
      rw [entryLevels, hrest]
      rfl

theorem itemLevels_hashes {hashes : List ParamMap} (h : hashes ≠ []) (hflat : ∀ hash ∈ hashes, IsFlat hash) :
    itemLevels (hashes.map .hash) = 2 := by
  have hone : ∀ hash ∈ hashes, (Param.hash hash).levels = 2 := fun hash hm => by
    have hf := hflat hash hm
    rw [Param.levels, entryLevels_strings hf.nonempty fun e he => (hf.strings e he).imp fun _ h => h.1]
  induction hashes with
  | nil => exact absurd rfl h
  | cons hash rest ih =>
    have hhash := hone hash List.mem_cons_self
    cases rest with
    | nil => rw [List.map_cons, itemLevels, hhash]; rfl
    | cons hash' rest =>
      have hrest := ih (List.cons_ne_nil _ _) (fun h hm => hflat h (List.mem_cons_of_mem _ hm))
        fun h hm => hone h (List.mem_cons_of_mem _ hm)
      rw [List.map_cons, itemLevels, hhash, hrest]
      rfl

/-- What is behind a key in a name is nothing or starts with a bracket. -/
theorem pairs_closed (value : Param) : ∀ pair ∈ value.pairs, Closed (byte '[') pair.key := by
  intro pair hp
  cases value with
  | null =>
    obtain rfl := List.mem_singleton.mp hp
    exact closed_nil _
  | str s =>
    obtain rfl := List.mem_singleton.mp hp
    exact closed_nil _
  | array items =>
    rw [Param.pairs, itemPairs_eq, List.mem_flatMap] at hp
    obtain ⟨item, -, hp⟩ := hp
    obtain ⟨inner, -, rfl⟩ := List.mem_map.mp hp
    exact closed_cons _ _
  | hash entries =>
    rw [Param.pairs, entryPairs_eq, List.mem_flatMap] at hp
    obtain ⟨e, -, hp⟩ := hp
    obtain ⟨inner, -, rfl⟩ := List.mem_map.mp hp
    exact closed_cons _ _

/-- Every value writes a pair. -/
theorem Writable.pairs_ne_nil {value : Param} (h : Writable value) : value.pairs ≠ [] := by
  induction h with
  | null => exact List.cons_ne_nil _ _
  | str => exact List.cons_ne_nil _ _
  | @strings texts hne _ =>
    obtain ⟨s, rest, rfl⟩ := List.exists_cons_of_ne_nil hne
    exact List.cons_ne_nil _ _
  | @hashes hashes hne hflat _ =>
    obtain ⟨hash, rest, rfl⟩ := List.exists_cons_of_ne_nil hne
    obtain ⟨e, tail, rfl⟩ := List.exists_cons_of_ne_nil (hflat _ List.mem_cons_self).nonempty
    obtain ⟨s, hs, -⟩ := (hflat _ List.mem_cons_self).strings _ List.mem_cons_self
    obtain ⟨x, value⟩ := e
    obtain rfl : value = .str s := hs
    rw [Param.pairs, itemPairs_hashes, List.flatMap_cons, entryPairs_str]
    exact List.cons_ne_nil _ _
  | @hash entries hne _ _ _ ih =>
    obtain ⟨e, rest, rfl⟩ := List.exists_cons_of_ne_nil hne
    have he := ih e List.mem_cons_self
    rw [Param.pairs, entryPairs_eq, List.flatMap_cons]
    simpa using fun h => absurd h he

/-- The pairs of a value under a fresh key build it there, or run out of levels. -/
def BuildsUnder (k : Bytes) (value : Param) : Prop :=
  ∀ (left depth : Nat) (params : ParamMap), k ∉ params.keys →
    storeAll left depth params (value.pairs.map (RawPair.under (segment depth k))) =
      if value.levels ≤ left then .ok (params ++ [(k, value)]) else .error .tooDeep

theorem storeAll_entries (left depth : Nat) (entries : ParamMap) (params : ParamMap)
    (hdistinct : (ParamMap.keys (params ++ entries)).Nodup) (hstores : ∀ e ∈ entries, BuildsUnder e.1 e.2) :
    storeAll left depth params (entries.flatMap fun e => e.2.pairs.map (RawPair.under (segment depth e.1))) =
      if entryLevels entries ≤ left then .ok (params ++ entries) else .error .tooDeep := by
  induction entries generalizing params with
  | nil => simp [entryLevels]
  | cons e rest ih =>
    obtain ⟨k, value⟩ := e
    have hfresh : k ∉ params.keys := by
      intro hmem
      simp only [ParamMap.keys, List.map_append, List.map_cons] at hdistinct
      exact (List.nodup_append.mp hdistinct).2.2 k hmem k List.mem_cons_self rfl
    have hfirst := hstores _ List.mem_cons_self left depth params hfresh
    have hrest := ih (params ++ [(k, value)]) (by simpa using hdistinct)
      fun e he => hstores e (List.mem_cons_of_mem _ he)
    rw [List.flatMap_cons, storeAll_append, hfirst, entryLevels]
    by_cases hv : value.levels ≤ left
    · simp only [hv, if_true, Except.bind, hrest, Nat.max_le, true_and, List.append_assoc, List.singleton_append]
    · simp only [hv, if_false, Except.bind, Nat.max_le, false_and]

/-- The pairs of a hash's entries, one level down. -/
theorem storeAll_under {left depth : Nat} {params : ParamMap} {k : Bytes} (hk : IsKey k)
    (hfresh : k ∉ params.keys) (pairs : List RawPair)
    (hpairs : ∀ pair ∈ pairs, ∃ x s, IsKey x ∧ Closed (byte '[') s ∧ pair.key = bracketed x ++ s)
    (existing state : ParamMap) (hopen : Opened params k (.hash []) (.hash existing) state) :
    pairs ≠ [] →
    storeAll (left + 1) depth state (pairs.map (RawPair.under (segment depth k))) =
      (storeAll left (depth + 1) existing pairs).map fun child => params ++ [(k, Param.hash child)] := by
  induction pairs generalizing existing state with
  | nil => exact fun h => absurd rfl h
  | cons pair rest ih =>
    intro _
    obtain ⟨x, s, hx, hs, hkey⟩ := hpairs pair List.mem_cons_self
    obtain ⟨key, v⟩ := pair
    obtain rfl : key = bracketed x ++ s := hkey
    rw [List.map_cons, storeAll_cons, storeAll_cons]
    simp only [RawPair.under]
    rw [storeOne_nested hk hx hs (hopen.existing hfresh)]
    cases storeOne left (depth + 1) existing ⟨bracketed x ++ s, v⟩ with
    | error e => rfl
    | ok child =>
      simp only [Except.map, Except.bind, hopen.insert hfresh]
      by_cases hrest : rest = []
      · subst hrest
        rfl
      · exact ih (fun p hp => hpairs p (List.mem_cons_of_mem _ hp)) child _ (opened_last _ _ _ _) hrest

theorem stores_leaf {k : Bytes} {value : Param} {v : Option Bytes} (hk : IsKey k) (hv : paramOf v = value)
    (hpairs : value.pairs = [⟨[], v⟩]) (hlevels : value.levels = 1) : BuildsUnder k value := by
  intro left depth params hfresh
  rw [hpairs, hlevels]
  cases left with
  | zero => rfl
  | succ left =>
    simp only [List.map_cons, List.map_nil, RawPair.under, List.append_nil, storeAll_cons, storeOne,
      storeNested_leaf hk, insert_fresh hfresh, hv]
    rw [if_pos (by omega)]
    rfl

theorem stores_strings {k : Bytes} {texts : List Bytes} (hk : IsKey k) (hne : texts ≠ []) :
    BuildsUnder k (.array (texts.map .str)) := by
  intro left depth params hfresh
  have hpairs : (Param.array (texts.map .str)).pairs.map (RawPair.under (segment depth k)) =
      texts.map fun s => ⟨segment depth k ++ text "[]", some s⟩ := by
    rw [Param.pairs, itemPairs_eq, List.flatMap_map, List.map_flatMap, List.map_eq_flatMap]
    rfl
  obtain ⟨s, rest, rfl⟩ := List.exists_cons_of_ne_nil hne
  rw [hpairs, Param.levels, itemLevels_strings hne]
  cases left with
  | zero => rfl
  | succ left =>
    have hopen := opened_start params k (.array [])
    rw [if_pos (by omega), List.map_cons, storeAll_cons, storeOne,
      storeNested_array hk (hopen.slot hfresh) rfl, hopen.insert hfresh]
    exact storeAll_strings hk hfresh rest [.str s]

theorem stores_hashes {k : Bytes} {hashes : List ParamMap} (hk : IsKey k) (hne : hashes ≠ [])
    (hflat : ∀ hash ∈ hashes, IsFlat hash) (hchain : hashes.IsChain Restarts) :
    BuildsUnder k (.array (hashes.map .hash)) := by
  intro left depth params hfresh
  obtain ⟨hash, rest, rfl⟩ := List.exists_cons_of_ne_nil hne
  have hfirst := hflat hash List.mem_cons_self
  rw [Param.levels, itemLevels_hashes hne hflat, Param.pairs]
  match left with
  | 0 =>
    have hpairs := (Writable.hashes hne hflat hchain).pairs_ne_nil
    exact storeAll_zero depth params (by simpa [Param.pairs] using hpairs)
  | 1 => exact storeAll_hashes_deep hk hfresh hfirst rest
  | left + 2 =>
    have hopen := opened_start params k (.array [])
    have hone : storeAll (left + 2) depth params ((entryPairs hash).map (RawPair.element depth k)) = _ :=
      storeAll_flat hk hfresh hfirst hopen (by simp)
    have hpair : RawPair.under (segment depth k) ∘ RawPair.under (text "[]") = RawPair.element depth k := rfl
    have hmore : storeAll (left + 2) depth _ _ = _ := storeAll_hashes hk hfresh rest hash []
      (fun h hm => hflat h (List.mem_cons_of_mem _ hm)) hchain
    rw [if_pos (by omega), itemPairs_hashes, List.flatMap_cons, List.map_append, List.map_map, storeAll_append,
      hpair, hone, ← itemPairs_hashes]
    exact hmore

theorem stores_hash {k : Bytes} {entries : ParamMap} (hk : IsKey k) (hne : entries ≠ [])
    (hkeys : ∀ e ∈ entries, IsKey e.1) (hdistinct : entries.keys.Nodup)
    (hvalues : ∀ e ∈ entries, Writable e.2) (hstores : ∀ e ∈ entries, BuildsUnder e.1 e.2) :
    BuildsUnder k (.hash entries) := by
  intro left depth params hfresh
  have hpairs : (Param.hash entries).pairs ≠ [] := (Writable.hash hne hkeys hdistinct hvalues).pairs_ne_nil
  rw [Param.levels]
  cases left with
  | zero => exact storeAll_zero depth params (by simpa using hpairs)
  | succ left =>
    have hform : ∀ pair ∈ (Param.hash entries).pairs,
        ∃ x s, IsKey x ∧ Closed (byte '[') s ∧ pair.key = bracketed x ++ s := by
      intro pair hp
      rw [Param.pairs, entryPairs_eq, List.mem_flatMap] at hp
      obtain ⟨e, he, hp⟩ := hp
      obtain ⟨inner, hinner, rfl⟩ := List.mem_map.mp hp
      exact ⟨e.1, inner.key, hkeys e he, pairs_closed e.2 inner hinner, rfl⟩
    rw [storeAll_under hk hfresh _ hform [] params (opened_start _ _ _) hpairs, Param.pairs, entryPairs_eq]
    -- below the top a key stands in brackets
    have hsegment : ∀ x : Bytes, segment (depth + 1) x = bracketed x := fun x => rfl
    have hentries := storeAll_entries left (depth + 1) entries [] hdistinct hstores
    simp only [hsegment, List.nil_append] at hentries
    rw [hentries]
    by_cases hl : entryLevels entries ≤ left
    · rw [if_pos hl, if_pos (by omega)]
      rfl
    · rw [if_neg hl, if_neg (by omega)]
      rfl

/-- **Every value a query string can write is built again.** -/
theorem Writable.stores {value : Param} (h : Writable value) : ∀ {k : Bytes}, IsKey k → BuildsUnder k value := by
  induction h with
  | null => exact fun hk => stores_leaf hk (v := none) rfl rfl rfl
  | @str s _ => exact fun hk => stores_leaf hk (v := some s) rfl rfl rfl
  | strings hne _ => exact fun hk => stores_strings hk hne
  | hashes hne hflat hchain => exact fun hk => stores_hashes hk hne hflat hchain
  | hash hne hkeys hdistinct hvalues ih =>
    exact fun hk => stores_hash hk hne hkeys hdistinct hvalues fun e he => ih e he (hkeys e he)

end Smartfire
