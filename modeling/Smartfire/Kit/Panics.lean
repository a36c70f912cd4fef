/-
  File:      Smartfire/Kit/Panics.lean
  Subject:   Where reading a query string could panic (crates/kit/src/params.rs).

  The functions of `Params` once more with each `unwrap`, each slice of a text and the
  `unreachable!` as the source has them; `none` is a panic.

  * `findByte`, `splitName`, `arraySlot`, `storeNestedParam` -- the slices, and the array that must be there;
  * `decodeComponent` -- the two unwraps of an escape's digits;
  * `fromQueryString_eq` -- none of them is ever reached, on any bytes.
-/
import Smartfire.Kit.Params
import Smartfire.Lib.Utf8
import Mathlib.Data.List.Infix
import Mathlib.Data.List.TakeWhile

namespace Smartfire.Panicking

open Lib

/-! ## 1. Escapes -/

/-- The digits of `u8::from_str_radix(_, 16)`; more than a byte holds is refused. -/
def hexDigits (acc : Nat) : Bytes → Option UInt8
  | [] => some (UInt8.ofNat acc)
  | b :: rest =>
    match hexValue b with
    | some digit => if acc * 16 + digit.toNat < 256 then hexDigits (acc * 16 + digit.toNat) rest else none
    | none => none

/-- `u8::from_str_radix(_, 16)`. -/
def fromStrRadix16 (s : Bytes) : Option UInt8 :=
  match s with
  | [] => none
  | b :: rest => if b = byte '+' then (if rest.isEmpty then none else hexDigits 0 rest) else hexDigits 0 s

def isHexDigit (b : UInt8) : Bool := (hexValue b).isSome

/-- `std::str::from_utf8(..).unwrap()`. -/
def unwrapUtf8 (s : Bytes) : Option Bytes := if validUtf8 s then some s else none

/-- The inner option is the refused escape. -/
def decodeComponent : Bytes → Option (Option Bytes)
  | [] => some (some [])
  | b :: rest =>
    if b = byte '+' then do return (← decodeComponent rest).map (byte ' ' :: ·)
    else if b = byte '%' then
      match rest with
      | high :: low :: rest =>
        if isHexDigit high && isHexDigit low then do
          let hex ← unwrapUtf8 [high, low]
          let b ← fromStrRadix16 hex
          return (← decodeComponent rest).map (b :: ·)
        else some none
      | _ => some none
    else do return (← decodeComponent rest).map (b :: ·)

def decodeWwwFormComponent (s : Bytes) : Option (Except ParamError Bytes) := do
  match ← decodeComponent s with
  | some out => return .ok out
  | none => return .error (.invalid (text "invalid %-encoding (" ++ s ++ text ")"))

def decodePair (part : Bytes) : Option (Except ParamError RawPair) := do
  let (k, v) := match splitOnce (byte '=') part with
    | some (k, v) => (k, some v)
    | none => (part, none)
  match ← decodeWwwFormComponent k with
  | .error error => return .error error
  | .ok key =>
    match v with
    | none => return .ok ⟨key, none⟩
    | some v =>
      match ← decodeWwwFormComponent v with
      | .error error => return .error error
      | .ok value => return .ok ⟨key, some value⟩

def decodePairs : List Bytes → Option (Except ParamError (List RawPair))
  | [] => some (.ok [])
  | part :: parts => do
    match ← decodePair part with
    | .error error => return .error error
    | .ok pair => return (← decodePairs parts).map (pair :: ·)

/-! ## 2. Names -/

def findByte (s : Bytes) (b : UInt8) (start : Nat) : Option Nat :=
  ((s.drop start).findIdx? (· = b)).map (· + start)

def splitTopLevel (name : Bytes) : Option (Bytes × Bytes) :=
  match findByte name (byte '[') 1 with
  | some start => do return (← Lib.slice name 0 start, ← Lib.slice name start name.length)
  | none => some (name, [])

def topLevelKey (name : Bytes) : Option Bytes :=
  match findByte name (byte '[') 1 with
  | some start => Lib.slice name 0 start
  | none => some name

def splitName (depth : Nat) (name : Bytes) : Option (Bytes × Bytes) :=
  if depth = 0 then splitTopLevel name
  else if (text "[]").isPrefixOf name then some (text "[]", name.drop 2)
  else
    match if name.head? = some (byte '[') then findByte name (byte ']') 1 else none with
    | some start => do return (← Lib.slice name 1 start, ← Lib.slice name (start + 1) name.length)
    | none => some (name, [])

def arraySlot (params : ParamMap) (k : Bytes) : Option (Except ParamError (List Param)) :=
  let params := if (params.get k).all Param.isNull then params.insert k (.array []) else params
  match params.get k with
  | some (.array items) => some (.ok items)
  | some other =>
    some (.error (.type
      (text "expected Array (got " ++ other.rubyClass ++ text ") for param \x60" ++ k ++ text "'")))
  -- `unreachable!()`
  | none => none

def storeNestedParam : Nat → ParamMap → Bytes → Param → Nat → Option (Except ParamError (Stored × ParamMap))
  | 0, _, _, _, _ => some (.error .tooDeep)
  | left + 1, params, name, v, depth => do
    let (k, after) ← splitName depth name
    if k.isEmpty then return .ok (.nil, params)
    else if after.isEmpty then
      if k = text "[]" && depth ≠ 0 then return .ok (.array (if v.isNull then [] else [v]), params)
      else return .ok (.params, params.insert k v)
    else if after = text "[" then return .ok (.params, params.insert name v)
    else if after = text "[]" then
      match ← arraySlot params k with
      | .error error => return .error error
      | .ok items => return .ok (.params, params.insert k (.array (if v.isNull then items else items ++ [v])))
    else if (text "[]").isPrefixOf after then
      let childKey := arrayChildKey (after.drop 2)
      match ← arraySlot params k with
      | .error error => return .error error
      | .ok items =>
        let appended : Option (Except ParamError (Stored × ParamMap)) := do
          match ← storeNestedParam left [] childKey v (depth + 1) with
          | .error error => return .error error
          | .ok (stored, child) => return .ok (.params, params.insert k (.array (items ++ [stored.intoParam child])))
        match items.getLast? with
        | some (.hash last) =>
          if paramsHashHasKey last childKey then appended
          else
            match ← storeNestedParam left last childKey v (depth + 1) with
            | .error error => return .error error
            | .ok (_, last) => return .ok (.params, params.insert k (.array (items.dropLast ++ [.hash last])))
        | _ => appended
    else
      let nested (existing : ParamMap) : Option (Except ParamError (Stored × ParamMap)) := do
        match ← storeNestedParam left existing after v (depth + 1) with
        | .error error => return .error error
        | .ok (stored, child) => return .ok (.params, params.insert k (stored.intoParam child))
      match params.get k with
      | none => nested []
      | some .null => nested []
      | some (.hash existing) => nested existing
      | some other =>
        return .error (.type
          (text "expected Hash (got " ++ other.rubyClass ++ text ") for param \x60" ++ k ++ text "'"))

def storePair (params : ParamMap) (pair : RawPair) : Option (Except ParamError ParamMap) := do
  if !validUtf8 pair.key then
    if (← topLevelKey (lossy pair.key)).isEmpty then return .ok params
    else return .error (.invalid (text "Invalid encoding for parameter"))
  else if (← topLevelKey pair.key).isEmpty then return .ok params
  else
    match pair.value with
    | none => return (← storeNestedParam depthLimit params pair.key .null 0).map (·.2)
    | some value =>
      if validUtf8 value then return (← storeNestedParam depthLimit params pair.key (.str value) 0).map (·.2)
      else return .error (.invalid (text "Invalid encoding for parameter: " ++ lossy value))

def fromPairs (params : ParamMap) : List RawPair → Option (Except ParamError ParamMap)
  | [] => some (.ok params)
  | pair :: pairs => do
    match ← storePair params pair with
    | .error error => return .error error
    | .ok params => fromPairs params pairs

def fromQueryString (qs : Bytes) : Option (Except ParamError ParamMap) := do
  match ← decodePairs (splitPairs qs) with
  | .error error => return .error error
  | .ok pairs => fromPairs [] pairs

/-! ## 3. No escape panics -/

/-- What a hex digit is: ASCII, no sign, and less than sixteen. -/
theorem hexValue_digit {b x : UInt8} (h : hexValue b = some x) :
    b < 0x80 ∧ b ≠ byte '+' ∧ x.toNat < 16 := by
  have hall : ∀ n : Fin 256, (hexValue (UInt8.ofNat n)).all fun x =>
      decide (UInt8.ofNat n < 0x80 ∧ UInt8.ofNat n ≠ byte '+' ∧ x.toNat < 16) := by decide +kernel
  have hb := hall ⟨b.toNat, b.toNat_lt⟩
  simp only [UInt8.ofNat_toNat] at hb
  rw [h] at hb
  exact of_decide_eq_true hb

theorem fromStrRadix16_pair {high low x y : UInt8} (hhigh : hexValue high = some x)
    (hlow : hexValue low = some y) : fromStrRadix16 [high, low] = some (x * 16 + y) := by
  obtain ⟨-, hsign, hx⟩ := hexValue_digit hhigh
  obtain ⟨-, -, hy⟩ := hexValue_digit hlow
  have hx' : x.toNat < 256 := by omega
  have hsum : x.toNat * 16 + y.toNat < 256 := by omega
  have hvalue : UInt8.ofNat (x.toNat * 16 + y.toNat) = x * 16 + y := by simp
  simp [fromStrRadix16, hsign, hexDigits, hhigh, hlow, hx', hsum, hvalue]

theorem decodeComponent_eq (s : Bytes) : decodeComponent s = some (Smartfire.decodeComponent s) := by
  have hne : byte '%' ≠ byte '+' := by decide
  induction s using Smartfire.decodeComponent.induct with
  | case1 => rfl
  | case2 rest ih =>
    rw [decodeComponent.eq_def, Smartfire.decodeComponent.eq_def]
    simp [ih]
  | case3 high low rest x y hlow hhigh _ ih =>
    have hutf8 : unwrapUtf8 [high, low] = some [high, low] := by
      have hascii : ∀ b ∈ [high, low], b < 0x80 := by
        simp [(hexValue_digit hhigh).1, (hexValue_digit hlow).1]
      exact if_pos (validUtf8_iff.mpr (Utf8.ascii hascii))
    simp [decodeComponent, Smartfire.decodeComponent, hne, isHexDigit, hhigh, hlow, hutf8,
      fromStrRadix16_pair hhigh hlow, ih]
  | case4 high low rest hdigits _ =>
    have hno : ¬ ((hexValue high).isSome = true ∧ (hexValue low).isSome = true) := by
      rintro ⟨h₁, h₂⟩
      obtain ⟨x, hx⟩ := Option.isSome_iff_exists.mp h₁
      obtain ⟨y, hy⟩ := Option.isSome_iff_exists.mp h₂
      exact hdigits x y hx hy
    simp only [decodeComponent, Smartfire.decodeComponent, hne, isHexDigit, if_false, if_true,
      Bool.and_eq_true, hno]
  | case5 rest hshort _ =>
    obtain _ | ⟨high, _ | ⟨low, rest⟩⟩ := rest
    · simp [decodeComponent, Smartfire.decodeComponent, hne]
    · simp [decodeComponent, Smartfire.decodeComponent, hne]
    · exact (hshort high low rest rfl).elim
  | case6 b rest hplus hpercent ih =>
    rw [decodeComponent.eq_def, Smartfire.decodeComponent.eq_def]
    simp [hplus, hpercent, ih]

theorem decodeWwwFormComponent_eq (s : Bytes) :
    decodeWwwFormComponent s = some (Smartfire.decodeWwwFormComponent s) := by
  rw [decodeWwwFormComponent, decodeComponent_eq, Smartfire.decodeWwwFormComponent]
  cases Smartfire.decodeComponent s <;> rfl

theorem decodePair_eq (part : Bytes) : decodePair part = some (Smartfire.decodePair part) := by
  simp only [decodePair, Smartfire.decodePair, decodeWwwFormComponent_eq]
  rcases splitOnce (byte '=') part with _ | ⟨k, v⟩
  · cases Smartfire.decodeWwwFormComponent part <;> rfl
  · dsimp only
    cases Smartfire.decodeWwwFormComponent k with
    | error e => rfl
    | ok key => cases Smartfire.decodeWwwFormComponent v <;> rfl

theorem decodePairs_eq (parts : List Bytes) : decodePairs parts = some (parts.mapM Smartfire.decodePair) := by
  induction parts with
  | nil => rfl
  | cons part parts ih =>
    rw [List.mapM_cons, decodePairs, decodePair_eq, ih]
    cases Smartfire.decodePair part with
    | error e => rfl
    | ok pair => cases parts.mapM Smartfire.decodePair <;> rfl

/-! ## 4. No slice panics -/

/-- What `find_byte` finds splits the text there. -/
theorem findIdx?_split (b : UInt8) (s : Bytes) :
    (s.findIdx? (· = b) = none ∧ b ∉ s) ∨
      ∃ i, s.findIdx? (· = b) = some i ∧ s[i]? = some b ∧ s.takeWhile (· ≠ b) = s.take i ∧
        s.dropWhile (· ≠ b) = s.drop i := by
  induction s with
  | nil => exact .inl ⟨rfl, List.not_mem_nil⟩
  | cons c rest ih =>
    by_cases hc : c = b
    · exact .inr ⟨0, by simp [List.findIdx?_cons, hc], by simp [hc], by simp [hc], by simp [hc]⟩
    · obtain ⟨hnone, hmem⟩ | ⟨i, hfind, hat, htake, hdrop⟩ := ih
      · refine .inl ⟨by simp [List.findIdx?_cons, hc, hnone], ?_⟩
        rintro (_ | ⟨_, hm⟩)
        · exact hc rfl
        · exact hmem hm
      · refine .inr ⟨i + 1, by simp [List.findIdx?_cons, hc, hfind], by simpa using hat, ?_, ?_⟩
        · rw [List.takeWhile_cons_of_pos (by simpa using hc), htake, List.take_succ_cons]
        · rw [List.dropWhile_cons_of_pos (by simpa using hc), hdrop, List.drop_succ_cons]

/-- The bracket that ends the top-level key starts a character. -/
theorem splitTopLevel_eq (name : Bytes) : splitTopLevel name = some (Smartfire.splitTopLevel name) := by
  cases name with
  | nil => rfl
  | cons b rest =>
    rw [splitTopLevel, findByte, List.drop_one, List.tail_cons, Smartfire.splitTopLevel]
    obtain ⟨hnone, hmem⟩ | ⟨i, hfind, hat, htake, hdrop⟩ := findIdx?_split (byte '[') rest
    · have hall : ∀ x ∈ rest, decide (x ≠ byte '[') = true := fun x hx => by
        simpa using fun h : x = byte '[' => hmem (h ▸ hx)
      simp only [hnone, Option.map_none, List.takeWhile_eq_self_iff.mpr hall,
        List.dropWhile_eq_nil_iff.mpr hall]
    · obtain ⟨hi, -⟩ := List.getElem?_eq_some_iff.mp hat
      have hname : (b :: rest)[i + 1]? = some (byte '[') := by simpa using hat
      have hle : i + 1 ≤ (b :: rest).length := by simpa using hi.le
      have hboundary := charBoundary_ascii hname (by decide)
      simp only [hfind, Option.map_some, slice_to hle hboundary, slice_from hle hboundary, htake, hdrop]
      simp

theorem topLevelKey_eq (name : Bytes) : topLevelKey name = some (Smartfire.topLevelKey name) := by
  have hsplit := splitTopLevel_eq name
  rw [splitTopLevel] at hsplit
  rw [topLevelKey, Smartfire.topLevelKey]
  cases hfind : findByte name (byte '[') 1 with
  | none =>
    rw [hfind] at hsplit
    exact congrArg (Option.map Prod.fst) hsplit
  | some i =>
    rw [hfind] at hsplit
    cases hs : Lib.slice name 0 i with
    | none => simp [hs] at hsplit
    | some key =>
      cases ha : Lib.slice name i name.length with
      | none => simp [hs, ha] at hsplit
      | some after =>
        simp only [hs, ha] at hsplit ⊢
        exact congrArg (Option.map Prod.fst) hsplit

/-- **Both brackets of a key lie at boundaries, in a text where a character starts behind each ASCII byte.** -/
theorem splitName_eq {name : Bytes} (hs : Steady name) (depth : Nat) :
    splitName depth name = some (Smartfire.splitName depth name) := by
  unfold splitName Smartfire.splitName
  by_cases hd : depth = 0
  · rw [if_pos hd, if_pos hd, splitTopLevel_eq]
  · rw [if_neg hd, if_neg hd]
    split
    · rfl
    · cases name with
      | nil => rfl
      | cons b rest =>
        dsimp only
        obtain ⟨hnone, hmem⟩ | ⟨i, hfind, hat, htake, hdrop⟩ := findIdx?_split (byte ']') rest
        · have hall : ∀ x ∈ rest, decide (x ≠ byte ']') = true := fun x hx => by
            simpa using fun h : x = byte ']' => hmem (h ▸ hx)
          rw [List.dropWhile_eq_nil_iff.mpr hall]
          simp [findByte, hnone]
        · obtain ⟨hi, hib⟩ := List.getElem?_eq_some_iff.mp hat
          have hafter : rest.dropWhile (· ≠ byte ']') = byte ']' :: rest.drop (i + 1) := by
            rw [hdrop, List.drop_eq_getElem_cons hi, hib]
          rw [hafter, htake]
          by_cases hb : b = byte '['
          · subst hb
            have hopen : (byte '[' :: rest)[0]? = some (byte '[') := rfl
            have hclose : (byte '[' :: rest)[i + 1]? = some (byte ']') := by simpa using hat
            have hle : i + 1 ≤ (byte '[' :: rest).length := by simpa using hi.le
            have hle' : i + 1 + 1 ≤ (byte '[' :: rest).length := Nat.succ_le_succ hi
            have hkey : Lib.slice (byte '[' :: rest) 1 (i + 1) = some (rest.take i) := by
              rw [slice_eq (Nat.le_add_left 1 i) hle (hs.boundary_succ hopen (by decide))
                (charBoundary_ascii hclose (by decide))]
              simp
            have hrest : Lib.slice (byte '[' :: rest) (i + 1 + 1) (byte '[' :: rest).length =
                some (rest.drop (i + 1)) :=
              slice_from hle' (hs.boundary_succ hclose (by decide))
            simp only [List.head?_cons, if_true, findByte, List.drop_one, List.tail_cons, hfind,
              Option.map_some, hkey, hrest]
            rfl
          · simp [hb]

/-- The array is there once it was put there. -/
theorem arraySlot_eq (params : ParamMap) (k : Bytes) :
    arraySlot params k = some (Smartfire.arraySlot params k) := by
  unfold arraySlot Smartfire.arraySlot
  cases hget : params.get k with
  | none => simp
  | some value =>
    cases value <;> simp [Param.isNull, hget]

/-! What is left of a name is a part of it. -/

theorem splitName_part (depth : Nat) (name : Bytes) : (Smartfire.splitName depth name).2 <:+: name := by
  have hdrop : ∀ b : UInt8, ∀ rest : Bytes, rest.dropWhile (· ≠ b) <:+: rest := fun b rest =>
    (List.dropWhile_suffix _).isInfix
  unfold Smartfire.splitName
  split
  · cases name with
    | nil => exact List.nil_infix
    | cons b rest => exact (hdrop _ rest).trans (List.suffix_cons b rest).isInfix
  · split
    · exact (List.drop_suffix 2 name).isInfix
    · split
      · exact List.nil_infix
      · next b rest _ =>
        split
        · next c after hafter =>
          split
          · have hcons : c :: after <:+: rest := hafter ▸ hdrop _ rest
            exact ((List.suffix_cons c after).isInfix.trans hcons).trans (List.suffix_cons b rest).isInfix
          · exact List.nil_infix
        · exact List.nil_infix

theorem arrayChildKey_part (nested : Bytes) : arrayChildKey nested <:+: nested := by
  unfold arrayChildKey
  dsimp only
  split
  · exact (List.dropLast_prefix _).isInfix.trans (List.drop_suffix 1 nested).isInfix
  · exact List.infix_rfl

/-- **No call panics, however deep.** -/
theorem storeNestedParam_eq (left : Nat) {name : Bytes} (hs : Steady name) (params : ParamMap) (v : Param)
    (depth : Nat) :
    storeNestedParam left params name v depth = some (Smartfire.storeNestedParam left params name v depth) := by
  induction left generalizing name params depth with
  | zero => rfl
  | succ left ih =>
    have hafter := hs.inside (splitName_part depth name)
    have hchild := hafter.infix ((arrayChildKey_part _).trans
      (List.drop_suffix 2 (Smartfire.splitName depth name).2).isInfix)
    simp only [storeNestedParam, Smartfire.storeNestedParam, splitName_eq hs, arraySlot_eq, Option.bind_eq_bind,
      Option.bind_some]
    generalize Smartfire.splitName depth name = parts at hafter hchild ⊢
    obtain ⟨k, after⟩ := parts
    dsimp only at hafter hchild ⊢
    split_ifs
    -- a leaf, an empty key or an empty last bracket
    any_goals rfl
    -- `k[]`, a null and a value
    · cases Smartfire.arraySlot params k <;> rfl
    · cases Smartfire.arraySlot params k <;> rfl
    -- `k[][x]`
    · cases Smartfire.arraySlot params k with
      | error e => rfl
      | ok items =>
        dsimp only
        rw [ih hchild]
        generalize items.getLast? = item
        rcases item with _ | _ | _ | _ | last
        case some.hash =>
          dsimp only
          rw [ih hchild]
          split_ifs
          · cases Smartfire.storeNestedParam left [] _ v (depth + 1) <;> rfl
          · cases Smartfire.storeNestedParam left last _ v (depth + 1) <;> rfl
        all_goals cases Smartfire.storeNestedParam left [] _ v (depth + 1) <;> rfl
    -- `k[x]`
    · rw [ih hafter]
      generalize params.get k = found
      rcases found with _ | _ | _ | _ | existing
      case some.hash =>
        dsimp only
        rw [ih hafter]
        cases Smartfire.storeNestedParam left existing after v (depth + 1) <;> rfl
      case none | some.null => cases Smartfire.storeNestedParam left [] after v (depth + 1) <;> rfl
      all_goals rfl

/-! ## 5. Nothing panics -/

theorem storePair_eq (params : ParamMap) (pair : RawPair) :
    storePair params pair = some (Smartfire.storePair params pair) := by
  simp only [storePair, Smartfire.storePair, topLevelKey_eq, Option.bind_eq_bind, Option.bind_some]
  by_cases hkey : validUtf8 pair.key = true
  · have hs := (validUtf8_iff.mp hkey).steady
    simp only [hkey, Bool.not_true, Bool.false_eq_true, if_false, storeNestedParam_eq depthLimit hs,
      Option.bind_some]
    split_ifs
    · rfl
    · cases pair.value with
      | none => rfl
      | some value =>
        dsimp only
        split_ifs <;> rfl
  · simp only [hkey, Bool.not_false, if_true]
    split_ifs <;> rfl

theorem fromPairs_eq (params : ParamMap) (pairs : List RawPair) :
    fromPairs params pairs = some (pairs.foldlM Smartfire.storePair params) := by
  induction pairs generalizing params with
  | nil => rfl
  | cons pair pairs ih =>
    rw [List.foldlM_cons, fromPairs, storePair_eq]
    cases Smartfire.storePair params pair with
    | error e => rfl
    | ok params => exact ih params

/-- **Reading a query string never panics.** -/
theorem fromQueryString_eq (qs : Bytes) : fromQueryString qs = some (Smartfire.fromQueryString qs) := by
  rw [fromQueryString, decodePairs_eq, Smartfire.fromQueryString, queryPairs]
  cases (splitPairs qs).mapM Smartfire.decodePair with
  | error e => rfl
  | ok pairs => exact fromPairs_eq [] pairs

end Smartfire.Panicking
