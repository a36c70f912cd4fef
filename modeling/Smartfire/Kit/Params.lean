/-
  File:      Smartfire/Kit/Params.lean
  Subject:   The parameters of a query string (crates/kit/src/params.rs).

  Text is its UTF-8 bytes, as in the source; a key is looked at byte by byte.

  * `Param`, `ParamMap` -- what a params hash holds, keys in insertion order;
  * `queryPairs`, `decodeWwwFormComponent` -- splitting and decoding, with no check of UTF-8 yet;
  * `storeNestedParam`, `fromPairs`, `fromQueryString` -- the nested keys.

  A file, and the numbers and booleans of a JSON body, never come from a query string and are left out.
-/
import Smartfire.Lib.Bytes

namespace Smartfire

open Lib

/-! ## 1. Values -/

inductive Param where
  | null
  | str (s : Bytes)
  | array (items : List Param)
  | hash (entries : List (Bytes × Param))

abbrev ParamMap := List (Bytes × Param)

inductive ParamError where
  | type (message : Bytes)
  | invalid (message : Bytes)
  | tooDeep
deriving DecidableEq

def Param.isNull : Param → Bool
  | .null => true
  | _ => false

def Param.asHash : Param → Option ParamMap
  | .hash entries => some entries
  | _ => none

def Param.rubyClass : Param → Bytes
  | .null => text "NilClass"
  | .str _ => text "String"
  | .array _ => text "Array"
  | .hash _ => text "ActiveSupport::HashWithIndifferentAccess"

namespace ParamMap

def get (params : ParamMap) (key : Bytes) : Option Param := (params.find? (·.1 = key)).map (·.2)

/-- Replaces in place, keeping the original position. -/
def insert (params : ParamMap) (key : Bytes) (value : Param) : ParamMap :=
  match params with
  | [] => [(key, value)]
  | (k, v) :: rest => if k = key then (key, value) :: rest else (k, v) :: insert rest key value

@[simp] theorem get_insert (params : ParamMap) (key : Bytes) (value : Param) :
    (params.insert key value).get key = some value := by
  induction params with
  | nil => simp [insert, get]
  | cons e rest ih =>
    by_cases he : e.1 = key
    · simp [insert, get, he]
    · simpa [insert, get, he] using ih

end ParamMap

/-! ## 2. Pairs -/

structure RawPair where
  key : Bytes
  value : Option Bytes
deriving DecidableEq

def splitPairs (qs : Bytes) : List Bytes :=
  let parts := qs.splitOn (byte '&')
  let trimmed := parts.zipIdx.map fun (part, i) => if i = 0 then part else part.dropWhile (· = byte ' ')
  trimmed.filter (! ·.isEmpty)

/-- `None` at a `%` that two hex digits do not follow. -/
def decodeComponent : Bytes → Option Bytes
  | [] => some []
  | b :: rest =>
    if b = byte '+' then (decodeComponent rest).map (byte ' ' :: ·)
    else if b = byte '%' then
      match rest with
      | high :: low :: rest =>
        match hexValue high, hexValue low with
        | some high, some low => (decodeComponent rest).map ((high * 16 + low) :: ·)
        | _, _ => none
      | _ => none
    else (decodeComponent rest).map (b :: ·)

def decodeWwwFormComponent (s : Bytes) : Except ParamError Bytes :=
  match decodeComponent s with
  | some out => .ok out
  | none => .error (.invalid (text "invalid %-encoding (" ++ s ++ text ")"))

def decodePair (part : Bytes) : Except ParamError RawPair := do
  let (k, v) := match splitOnce (byte '=') part with
    | some (k, v) => (k, some v)
    | none => (part, none)
  let key ← decodeWwwFormComponent k
  let value ← match v with
    | some v => (decodeWwwFormComponent v).map some
    | none => pure none
  pure ⟨key, value⟩

/-- `each_pair`: the first that cannot be decoded fails the whole. -/
def queryPairs (qs : Bytes) : Except ParamError (List RawPair) := (splitPairs qs).mapM decodePair

/-! ## 3. Nested keys -/

def depthLimit : Nat := 100

/-- Up to a `[` past the first byte. -/
def splitTopLevel : Bytes → Bytes × Bytes
  | [] => ([], [])
  | b :: rest => (b :: rest.takeWhile (· ≠ byte '['), rest.dropWhile (· ≠ byte '['))

def topLevelKey (name : Bytes) : Bytes := (splitTopLevel name).1

/-- The key a name starts with and what is left of the name. -/
def splitName (depth : Nat) (name : Bytes) : Bytes × Bytes :=
  -- at the top `[]` and a `[` at the start are not special
  if depth = 0 then splitTopLevel name
  else if (text "[]").isPrefixOf name then (text "[]", name.drop 2)
  else
    match name with
    | [] => ([], [])
    | b :: rest =>
      match rest.dropWhile (· ≠ byte ']') with
      | _ :: after => if b = byte '[' then (rest.takeWhile (· ≠ byte ']'), after) else (name, [])
      -- nested, but not starting with a bracketed key
      | [] => (name, [])

/-- `params[k] ||= []`, then the type check. -/
def arraySlot (params : ParamMap) (k : Bytes) : Except ParamError (List Param) :=
  match params.get k with
  | none => .ok []
  | some .null => .ok []
  | some (.array items) => .ok items
  | some other =>
    .error (.type (text "expected Array (got " ++ other.rubyClass ++ text ") for param \x60" ++ k ++ text "'"))

/-- The key's parts lead through hashes to a value. -/
def hasPath : Option ParamMap → List Bytes → Bool
  | _, [] => true
  | none, _ :: _ => false
  | some hash, part :: rest =>
    match hash.get part with
    | some value => hasPath value.asHash rest
    | none => false

def paramsHashHasKey (hash : ParamMap) (key : Bytes) : Bool :=
  if key.tails.any (text "[]").isPrefixOf then false
  else hasPath (some hash) ((key.splitOnP fun b => b = byte '[' || b = byte ']').filter (! ·.isEmpty))

/-- What follows the `[]`: the one key in brackets, else all of it. -/
def arrayChildKey (nested : Bytes) : Bytes :=
  let inner := (nested.drop 1).dropLast
  if nested.head? = some (byte '[') && nested.length > 1 && nested.getLast? = some (byte ']') &&
      !inner.isEmpty && !inner.contains (byte '[') && !inner.contains (byte ']') then inner
  else nested

inductive Stored where
  | params
  | array (items : List Param)
  | nil

def Stored.intoParam (params : ParamMap) : Stored → Param
  | .params => .hash params
  | .array items => .array items
  | .nil => .null

/-- `store_nested_param`, with the levels left of the depth limit. -/
def storeNestedParam : Nat → ParamMap → Bytes → Param → Nat → Except ParamError (Stored × ParamMap)
  | 0, _, _, _, _ => .error .tooDeep
  | left + 1, params, name, v, depth =>
    let (k, after) := splitName depth name
    if k.isEmpty then .ok (.nil, params)
    else if after.isEmpty then
      if k = text "[]" && depth ≠ 0 then .ok (.array (if v.isNull then [] else [v]), params)
      else .ok (.params, params.insert k v)
    else if after = text "[" then .ok (.params, params.insert name v)
    else if after = text "[]" then
      match arraySlot params k with
      | .error error => .error error
      | .ok items => .ok (.params, params.insert k (.array (if v.isNull then items else items ++ [v])))
    else if (text "[]").isPrefixOf after then
      -- `x[][y]`, a hash inside an array
      let childKey := arrayChildKey (after.drop 2)
      match arraySlot params k with
      | .error error => .error error
      | .ok items =>
        let appended :=
          match storeNestedParam left [] childKey v (depth + 1) with
          | .error error => .error error
          | .ok (stored, child) => .ok (.params, params.insert k (.array (items ++ [stored.intoParam child])))
        match items.getLast? with
        | some (.hash last) =>
          if paramsHashHasKey last childKey then appended
          else
            match storeNestedParam left last childKey v (depth + 1) with
            | .error error => .error error
            | .ok (_, last) => .ok (.params, params.insert k (.array (items.dropLast ++ [.hash last])))
        | _ => appended
    else
      let nested (existing : ParamMap) : Except ParamError (Stored × ParamMap) :=
        match storeNestedParam left existing after v (depth + 1) with
        | .error error => .error error
        | .ok (stored, child) => .ok (.params, params.insert k (stored.intoParam child))
      match params.get k with
      | none => nested []
      | some .null => nested []
      | some (.hash existing) => nested existing
      | some other =>
        .error (.type (text "expected Hash (got " ++ other.rubyClass ++ text ") for param \x60" ++ k ++ text "'"))

/-- One pair; one whose top-level key is empty is skipped without a check. -/
def storePair (params : ParamMap) (pair : RawPair) : Except ParamError ParamMap :=
  if !validUtf8 pair.key then
    if (topLevelKey (lossy pair.key)).isEmpty then .ok params
    else .error (.invalid (text "Invalid encoding for parameter"))
  else if (topLevelKey pair.key).isEmpty then .ok params
  else
    match pair.value with
    | none => (storeNestedParam depthLimit params pair.key .null 0).map (·.2)
    | some value =>
      if validUtf8 value then (storeNestedParam depthLimit params pair.key (.str value) 0).map (·.2)
      else .error (.invalid (text "Invalid encoding for parameter: " ++ lossy value))

def fromPairs (pairs : List RawPair) : Except ParamError ParamMap := pairs.foldlM storePair []

def fromQueryString (qs : Bytes) : Except ParamError ParamMap := do fromPairs (← queryPairs qs)

end Smartfire
