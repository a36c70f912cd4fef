/-
  File:      Smartfire/Lib/Bytes.lean
  Subject:   Text as its UTF-8 bytes.

  * `byte`, `text` -- ASCII written as bytes;
  * `splitOnce` -- the part before a separator's first occurrence, and the part behind it;
  * `utf8Step`, `validUtf8`, `lossy` -- reading UTF-8, with a replacement character for each maximal
    ill-formed part;
  * `Closed`, `line_inj` -- behind a separator no part holds, the parts can be told.
-/
import Mathlib.Tactic.Common

namespace Lib

abbrev Bytes := List UInt8

/-- What a list is checked for holds of each of its members. (Deciding the quantifier itself may go through
    every character there is.) -/
theorem forall_mem_of_all {α : Type*} {P : α → Prop} [DecidablePred P] {l : List α}
    (h : l.all (fun a => decide (P a)) = true) : ∀ a ∈ l, P a :=
  fun a ha => of_decide_eq_true (List.all_eq_true.mp h a ha)

/-- The byte of an ASCII character. -/
def byte (c : Char) : UInt8 := UInt8.ofNat c.toNat

/-- The bytes of an ASCII text. -/
def text (s : String) : Bytes := s.toList.map byte

/-- `str::split_once` at a byte. -/
def splitOnce (sep : UInt8) : Bytes → Option (Bytes × Bytes)
  | [] => none
  | b :: rest => if b = sep then some ([], rest) else (splitOnce sep rest).map fun (x, y) => (b :: x, y)

/-- The value of a hex digit. -/
def hexValue (b : UInt8) : Option UInt8 :=
  if byte '0' ≤ b && b ≤ byte '9' then some (b - byte '0')
  else if byte 'a' ≤ b && b ≤ byte 'f' then some (b - byte 'a' + 10)
  else if byte 'A' ≤ b && b ≤ byte 'F' then some (b - byte 'A' + 10)
  else none

/-! ## 1. UTF-8 -/

def isContinuation (b : UInt8) : Bool := 0x80 ≤ b && b ≤ 0xBF

/-- Which second bytes a first byte of a longer character takes. -/
def secondByte (first second : UInt8) : Bool :=
  if first = 0xE0 then 0xA0 ≤ second && second ≤ 0xBF
  else if first = 0xED then 0x80 ≤ second && second ≤ 0x9F
  else if first = 0xF0 then 0x90 ≤ second && second ≤ 0xBF
  else if first = 0xF4 then 0x80 ≤ second && second ≤ 0x8F
  else isContinuation second

/-- Bytes of the character a first byte starts, or 0. -/
def utf8Width (first : UInt8) : Nat :=
  if first < 0x80 then 1
  else if 0xC2 ≤ first && first ≤ 0xDF then 2
  else if 0xE0 ≤ first && first ≤ 0xEF then 3
  else if 0xF0 ≤ first && first ≤ 0xF4 then 4
  else 0

/-- The bytes behind the first that still fit its character. -/
def utf8Fits (first : UInt8) : Bytes → Nat
  | [] => 0
  | second :: rest =>
    if secondByte first second then 1 + ((rest.take (utf8Width first - 2)).takeWhile isContinuation).length
    else 0

/-- Whether a character comes first, and how long it is, or how long the ill-formed part is. -/
def utf8Step : Bytes → Bool × Nat
  | [] => (false, 0)
  | first :: rest =>
    if utf8Width first ≤ 1 then (utf8Width first = 1, 1)
    else (utf8Fits first rest + 1 = utf8Width first, utf8Fits first rest + 1)

def lossyFuel : Nat → Bytes → Bytes
  | 0, _ => []
  | _ + 1, [] => []
  | fuel + 1, first :: rest =>
    let (fits, n) := utf8Step (first :: rest)
    (if fits then (first :: rest).take n else [0xEF, 0xBF, 0xBD]) ++ lossyFuel fuel ((first :: rest).drop n)

/-- `String::from_utf8_lossy`. -/
def lossy (bytes : Bytes) : Bytes := lossyFuel bytes.length bytes

def validFuel : Nat → Bytes → Bool
  | 0, _ => true
  | _ + 1, [] => true
  | fuel + 1, first :: rest =>
    let (fits, n) := utf8Step (first :: rest)
    fits && validFuel fuel ((first :: rest).drop n)

/-- `String::from_utf8` accepts. -/
def validUtf8 (bytes : Bytes) : Bool := validFuel bytes.length bytes

-- an ill-formed part of two bytes is one replacement character
example : lossy [0x61, 0xC3, 0xA9, 0xE2, 0x82, 0x62] = [0x61, 0xC3, 0xA9, 0xEF, 0xBF, 0xBD, 0x62] := by
  decide +kernel

/-! ## 2. Parts behind a separator -/

/-- Nothing, or a separator and what is behind it. -/
def Closed (sep : UInt8) (s : Bytes) : Prop := s = [] ∨ ∃ t, s = sep :: t

theorem closed_nil (sep : UInt8) : Closed sep [] := .inl rfl

theorem closed_cons (sep : UInt8) (t : Bytes) : Closed sep (sep :: t) := .inr ⟨t, rfl⟩

theorem takeWhile_line {sep : UInt8} {x s : Bytes} (hx : sep ∉ x) (hs : Closed sep s) :
    (x ++ s).takeWhile (· ≠ sep) = x := by
  induction x with
  | nil => rcases hs with rfl | ⟨t, rfl⟩ <;> simp
  | cons b x ih =>
    have hb : b ≠ sep := fun h => hx (h ▸ List.mem_cons_self)
    have hrest : sep ∉ x := fun h => hx (List.mem_cons_of_mem b h)
    rw [List.cons_append, List.takeWhile_cons_of_pos (by simpa using hb), ih hrest]

/-- **The first part and the rest can be told.** -/
theorem line_inj {sep : UInt8} {x x' s s' : Bytes} (hx : sep ∉ x) (hx' : sep ∉ x') (hs : Closed sep s)
    (hs' : Closed sep s') (h : x ++ s = x' ++ s') : x = x' ∧ s = s' := by
  have hparts : x = x' := by
    rw [← takeWhile_line hx hs, h, takeWhile_line hx' hs']
  subst hparts
  exact ⟨rfl, List.append_cancel_left h⟩

end Lib
