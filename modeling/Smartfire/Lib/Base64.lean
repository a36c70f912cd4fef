/-
  File:      Smartfire/Lib/Base64.lean
  Subject:   Base64 with its padding.

  * `encode`, `decode` -- the standard alphabet; what is not canonical is not decoded;
  * `decode_encode` -- what is encoded is decoded;
  * `Encoded`, `encoded_encode` -- the shape of an encoding: characters of the alphabet, then at most
    two of padding, in all a multiple of four;
  * `length_encode` -- its length.
-/
import Mathlib.Tactic.Common

namespace Lib.Base64

/-! ## 1. The alphabet -/

def alphabet : List Char := "ABCDEFGHIJKLMNOPQRSTUVWXYZabcdefghijklmnopqrstuvwxyz0123456789+/".toList

/-- The character of six bits. -/
def symbol (n : Nat) : Char := alphabet.getD n 'A'

def value (c : Char) : Option Nat := alphabet.findIdx? (· = c)

theorem value_symbol : ∀ n : Fin 64, value (symbol n) = some n.val := by decide +kernel

theorem symbol_mem : ∀ n : Fin 64, symbol n ∈ alphabet := by decide +kernel

theorem pad_not_mem : '=' ∉ alphabet := by decide +kernel

/-! ## 2. Encoding and decoding -/

def encode : List UInt8 → List Char
  | [] => []
  | [a] => [symbol (a.toNat / 4), symbol (a.toNat % 4 * 16), '=', '=']
  | [a, b] => [symbol (a.toNat / 4), symbol (a.toNat % 4 * 16 + b.toNat / 16), symbol (b.toNat % 16 * 4), '=']
  | a :: b :: c :: rest =>
    symbol (a.toNat / 4) :: symbol (a.toNat % 4 * 16 + b.toNat / 16) ::
      symbol (b.toNat % 16 * 4 + c.toNat / 64) :: symbol (c.toNat % 64) :: encode rest

/-- The last group with two of padding: its unused bits are zero. -/
def decodeOne (a b : Char) : Option (List UInt8) := do
  let a ← value a
  let b ← value b
  if b % 16 = 0 then some [UInt8.ofNat (a * 4 + b / 16)] else none

def decodeTwo (a b c : Char) : Option (List UInt8) := do
  let a ← value a
  let b ← value b
  let c ← value c
  if c % 4 = 0 then some [UInt8.ofNat (a * 4 + b / 16), UInt8.ofNat (b % 16 * 16 + c / 4)] else none

def decodeThree (a b c d : Char) : Option (List UInt8) := do
  let a ← value a
  let b ← value b
  let c ← value c
  let d ← value d
  some [UInt8.ofNat (a * 4 + b / 16), UInt8.ofNat (b % 16 * 16 + c / 4), UInt8.ofNat (c % 4 * 64 + d)]

def decode : List Char → Option (List UInt8)
  | [] => some []
  | a :: b :: c :: d :: rest =>
    if rest = [] ∧ d = '=' then if c = '=' then decodeOne a b else decodeTwo a b c
    else do
      let group ← decodeThree a b c d
      let rest ← decode rest
      some (group ++ rest)
  | _ => none

example : decode "QQ==".toList = some [65] ∧ decode "QR==".toList = none := by decide +kernel

/-! ## 3. What is encoded is decoded -/

section RoundTrip

variable {n : Nat} {bytes : List UInt8}

theorem value_of_lt (h : n < 64) : value (symbol n) = some n := value_symbol ⟨n, h⟩

theorem mem_of_lt (h : n < 64) : symbol n ∈ alphabet := symbol_mem ⟨n, h⟩

theorem symbol_ne_pad (h : n < 64) : symbol n ≠ '=' := fun heq => pad_not_mem (heq ▸ mem_of_lt h)

theorem byte_ofNat {a : UInt8} (h : n = a.toNat) : UInt8.ofNat n = a := by
  rw [h, UInt8.ofNat_toNat]

theorem decode_encode (bytes : List UInt8) : decode (encode bytes) = some bytes := by
  induction bytes using encode.induct with
  | case1 => rfl
  | case2 a =>
    have ha := a.toNat_lt
    rw [encode, decode, if_pos ⟨rfl, rfl⟩, if_pos rfl, decodeOne, value_of_lt (by omega), value_of_lt (by omega)]
    simp only [Option.bind_eq_bind, Option.bind_some]
    rw [if_pos (by omega), byte_ofNat (a := a) (by omega)]
  | case3 a b =>
    have ha := a.toNat_lt
    have hb := b.toNat_lt
    rw [encode, decode, if_pos ⟨rfl, rfl⟩, if_neg (symbol_ne_pad (by omega)), decodeTwo, value_of_lt (by omega),
      value_of_lt (by omega), value_of_lt (by omega)]
    simp only [Option.bind_eq_bind, Option.bind_some]
    rw [if_pos (by omega), byte_ofNat (a := a) (by omega), byte_ofNat (a := b) (by omega)]
  | case4 a b c rest ih =>
    have ha := a.toNat_lt
    have hb := b.toNat_lt
    have hc := c.toNat_lt
    rw [encode, decode, if_neg fun h => symbol_ne_pad (by omega) h.2, decodeThree, value_of_lt (by omega),
      value_of_lt (by omega), value_of_lt (by omega), value_of_lt (by omega)]
    simp only [Option.bind_eq_bind, Option.bind_some]
    rw [byte_ofNat (a := a) (by omega), byte_ofNat (a := b) (by omega), byte_ofNat (a := c) (by omega), ih]
    rfl

/-- The shape of an encoding. -/
structure Encoded (body : List Char) (padding : Nat) : Prop where
  mem : ∀ c ∈ body, c ∈ alphabet
  small : padding < 3
  length : (body.length + padding) % 4 = 0

theorem encoded_encode (bytes : List UInt8) :
    ∃ body padding, encode bytes = body ++ List.replicate padding '=' ∧ Encoded body padding := by
  induction bytes using encode.induct with
  | case1 => exact ⟨[], 0, rfl, ⟨by simp, by decide, rfl⟩⟩
  | case2 a =>
    have ha := a.toNat_lt
    refine ⟨[symbol (a.toNat / 4), symbol (a.toNat % 4 * 16)], 2, rfl, ⟨?_, by decide, by simp⟩⟩
    simp only [List.mem_cons, List.not_mem_nil, or_false]
    rintro c (rfl | rfl)
    · exact mem_of_lt (by omega)
    · exact mem_of_lt (by omega)
  | case3 a b =>
    have ha := a.toNat_lt
    have hb := b.toNat_lt
    refine ⟨[symbol (a.toNat / 4), symbol (a.toNat % 4 * 16 + b.toNat / 16), symbol (b.toNat % 16 * 4)], 1, rfl,
      ⟨?_, by decide, by simp⟩⟩
    simp only [List.mem_cons, List.not_mem_nil, or_false]
    rintro c (rfl | rfl | rfl)
    · exact mem_of_lt (by omega)
    · exact mem_of_lt (by omega)
    · exact mem_of_lt (by omega)
  | case4 a b c rest ih =>
    have ha := a.toNat_lt
    have hb := b.toNat_lt
    have hc := c.toNat_lt
    obtain ⟨body, padding, heq, henc⟩ := ih
    refine ⟨symbol (a.toNat / 4) :: symbol (a.toNat % 4 * 16 + b.toNat / 16) ::
      symbol (b.toNat % 16 * 4 + c.toNat / 64) :: symbol (c.toNat % 64) :: body, padding, ?_, ⟨?_, henc.small, ?_⟩⟩
    · rw [encode, heq]
      rfl
    · simp only [List.mem_cons]
      rintro d (rfl | rfl | rfl | rfl | hd)
      · exact mem_of_lt (by omega)
      · exact mem_of_lt (by omega)
      · exact mem_of_lt (by omega)
      · exact mem_of_lt (by omega)
      · exact henc.mem d hd
    · have := henc.length
      simp only [List.length_cons]
      omega

theorem length_encode (bytes : List UInt8) : (encode bytes).length = 4 * ((bytes.length + 2) / 3) := by
  induction bytes using encode.induct with
  | case1 => rfl
  | case2 a => simp [encode]
  | case3 a b => simp [encode]
  | case4 a b c rest ih =>
    rw [encode]
    simp only [List.length_cons, ih]
    omega

/-- The characters of an encoding. -/
theorem mem_encode {c : Char} (h : c ∈ encode bytes) : c ∈ alphabet ∨ c = '=' := by
  obtain ⟨body, padding, heq, henc⟩ := encoded_encode bytes
  rw [heq, List.mem_append] at h
  obtain h | h := h
  · exact .inl (henc.mem c h)
  · exact .inr (List.eq_of_mem_replicate h)

end RoundTrip

end Lib.Base64
