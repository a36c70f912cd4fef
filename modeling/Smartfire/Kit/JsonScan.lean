/-
  File:      Smartfire/Kit/JsonScan.lean
  Subject:   The pass over a JSON body before it is parsed: comments, UTF-8, depth and escapes
             (crates/kit/src/body/spooled.rs).

  A failing read of the file is left out, and so is the parse that follows.

  * `JsonState.byte` -- depth and escapes, one byte after the other;
  * `JsonComments.byte`, `JsonComments.read` -- the body with its comments replaced;
  * `prescan` -- the pass.
-/
import Smartfire.Kit.Multipart
import Smartfire.Lib.Utf8Pieces

namespace Smartfire.Spooled

open Lib

/-! ## 1. Depth and escapes -/

inductive StringState where
  | outside
  | inside
  | escape
  | unicode (code digits : Nat) (low : Bool)
  | lowSlash
  | lowU
deriving DecidableEq

structure JsonState where
  depth : Nat
  string : StringState
deriving DecidableEq

def JsonState.init : JsonState := ⟨0, .outside⟩

def highSurrogate (code : Nat) : Bool := 0xD800 ≤ code && code ≤ 0xDBFF

def lowSurrogate (code : Nat) : Bool := 0xDC00 ≤ code && code ≤ 0xDFFF

/-- The next state; `none` is `BodyError::Parse`. -/
def JsonState.byte (s : JsonState) (b : UInt8) : Option JsonState :=
  match s.string with
  | .outside =>
    if b = Lib.byte '"' then some { s with string := .inside }
    else if b = Lib.byte '[' ∨ b = Lib.byte '\x7b' then
      if s.depth + 1 > 100 then none else some { s with depth := s.depth + 1 }
    else if b = Lib.byte ']' ∨ b = Lib.byte '\x7d' then some { s with depth := s.depth - 1 }
    else some s
  | .inside =>
    if b = Lib.byte '"' then some { s with string := .outside }
    else if b = Lib.byte '\\' then some { s with string := .escape }
    else some s
  | .escape =>
    if b = Lib.byte 'u' then some { s with string := .unicode 0 0 false } else some { s with string := .inside }
  | .unicode code digits low => do
    let hex ← hexValue b
    let code := code * 16 + hex.toNat
    if digits < 3 then some { s with string := .unicode code (digits + 1) low }
    else if low then
      if lowSurrogate code then some { s with string := .inside } else none
    else if highSurrogate code then some { s with string := .lowSlash }
    else if lowSurrogate code then none
    else some { s with string := .inside }
  | .lowSlash => if b = Lib.byte '\\' then some { s with string := .lowU } else none
  | .lowU => if b = Lib.byte 'u' then some { s with string := .unicode 0 0 true } else none

/-! ## 2. Comments -/

/-- The size of a `BufReader`'s buffer. -/
def capacity : Nat := 8 * 1024

theorem capacity_pos : 0 < capacity := by decide

theorem pending_of_next {r r' : Buffered} {b : UInt8} (h : r.next capacity = some (b, r')) :
    r.pending = b :: r'.pending := by
  rcases Buffered.next_eq capacity_pos r with ⟨hnone, -⟩ | ⟨c, s, hsome, hpending⟩
  · rw [hnone] at h
    cases h
  · rw [hsome] at h
    obtain ⟨rfl, rfl⟩ := Prod.mk.inj (Option.some.inj h)
    exact hpending

theorem pending_of_next_none {r : Buffered} (h : r.next capacity = none) : r.pending = [] := by
  rcases Buffered.next_eq capacity_pos r with ⟨-, hpending⟩ | ⟨c, s, hsome, -⟩
  · exact hpending
  · rw [hsome] at h
    cases h

/-- Behind the end of the line, or at the end of the input. -/
def skipLine (r : Buffered) : Buffered :=
  match h : r.next capacity with
  | none => r
  | some (b, r') => if b = byte '\n' then r' else skipLine r'
termination_by r.pending.length
decreasing_by
  rw [pending_of_next h]
  exact Nat.lt_succ_self _

/-- Behind the end of the comment; `none` where it has no end. -/
def skipBlock (star : Bool) (r : Buffered) : Option Buffered :=
  match h : r.next capacity with
  | none => none
  | some (b, r') => if star = true ∧ b = byte '/' then some r' else skipBlock (b = byte '*') r'
termination_by r.pending.length
decreasing_by
  rw [pending_of_next h]
  exact Nat.lt_succ_self _

/-- What is behind the end of a line. -/
def afterLine (s : Bytes) : Bytes := (s.dropWhile (· ≠ byte '\n')).drop 1

/-- What is behind the end of a comment. -/
def afterBlock (s : Bytes) : Option Bytes := (findText (text "*/") s).map fun i => s.drop (i + 2)

theorem skipLine_pending (r : Buffered) : (skipLine r).pending = afterLine r.pending := by
  fun_induction skipLine r with
  | case1 r h =>
    rw [pending_of_next_none h]
    rfl
  | case2 r r' h =>
    rw [pending_of_next h, afterLine, List.dropWhile_cons, if_neg (by simp)]
    rfl
  | case3 r b r' h hb ih =>
    rw [ih, pending_of_next h, afterLine, afterLine, List.dropWhile_cons, if_pos (by simpa using hb)]

theorem length_afterLine (s : Bytes) : (afterLine s).length ≤ s.length := by
  have hle := (List.dropWhile_sublist (· ≠ byte '\n') (l := s)).length_le
  rw [afterLine, List.length_drop]
  omega

theorem length_afterBlock {s rest : Bytes} (h : afterBlock s = some rest) : rest.length ≤ s.length := by
  obtain ⟨i, -, rfl⟩ := Option.map_eq_some_iff.mp h
  rw [List.length_drop]
  omega

theorem afterBlock_cons {b : UInt8} {s : Bytes} (h : ¬ (text "*/").isPrefixOf (b :: s) = true) :
    afterBlock (b :: s) = afterBlock s := by
  rw [afterBlock, findText, if_neg h, Option.map_map, afterBlock]
  congr 1

/-- The two bytes of the end are looked for one after the other. -/
theorem skipBlock_pending (star : Bool) (r : Buffered) :
    (skipBlock star r).map Buffered.pending =
      afterBlock (if star then byte '*' :: r.pending else r.pending) := by
  fun_induction skipBlock star r with
  | case1 star r h =>
    rw [pending_of_next_none h]
    cases star <;> rfl
  | case2 star r b r' h hend =>
    obtain ⟨rfl, rfl⟩ := hend
    rw [pending_of_next h]
    rfl
  | case3 star r b r' h hend ih =>
    have hone : afterBlock (b :: r'.pending) =
        afterBlock (if b = byte '*' then byte '*' :: r'.pending else r'.pending) := by
      split
      · next hb => rw [hb]
      · next hb =>
        refine afterBlock_cons fun hprefix => hb ?_
        have hstar : text "*/" = [byte '*', byte '/'] := rfl
        rw [hstar, List.isPrefixOf_cons_cons, Bool.and_eq_true, beq_iff_eq] at hprefix
        exact hprefix.1.symm
    simp only [decide_eq_true_eq] at ih
    rw [ih, pending_of_next h, ← hone]
    cases star with
    | false => rfl
    | true =>
      refine (afterBlock_cons fun hprefix => hend ⟨rfl, ?_⟩).symm
      have hstar : text "*/" = [byte '*', byte '/'] := rfl
      rw [hstar, List.isPrefixOf_cons_cons, List.isPrefixOf_cons_cons] at hprefix
      simp only [Bool.and_eq_true, beq_iff_eq] at hprefix
      exact hprefix.2.1.symm

/-- A body with its comments replaced by a blank each. -/
structure JsonComments where
  input : Buffered
  quoted : Bool
  escaped : Bool

namespace JsonComments

def new (file : Source) : JsonComments := ⟨⟨[], file⟩, false, false⟩

/-- Inside a string: whether it goes on, and whether the next byte is escaped. -/
def quotedFlags (escaped : Bool) (b : UInt8) : Bool × Bool :=
  if escaped then (true, false)
  else if b = byte '\\' then (true, true)
  else if b = byte '"' then (false, false)
  else (true, false)

/-- The next byte, if there is one; `none` is invalid data. -/
def byte (c : JsonComments) : Option (Option (UInt8 × JsonComments)) :=
  match c.input.next capacity with
  | none => some none
  | some (b, input) =>
    if c.quoted then some (some (b, ⟨input, (quotedFlags c.escaped b).1, (quotedFlags c.escaped b).2⟩))
    else if b ≠ Lib.byte '/' then some (some (b, ⟨input, b = Lib.byte '"', c.escaped⟩))
    else
      match input.next capacity with
      | some (b', input) =>
        if b' = Lib.byte '/' then some (some (Lib.byte ' ', ⟨skipLine input, false, c.escaped⟩))
        else if b' = Lib.byte '*' then
          match skipBlock false input with
          | some input => some (some (Lib.byte ' ', ⟨input, false, c.escaped⟩))
          | none => none
        else none
      | none => none

/-- Reading into a buffer of `n` bytes; `none` is invalid data. -/
def read : Nat → JsonComments → Option (Bytes × JsonComments)
  | 0, c => some ([], c)
  | n + 1, c =>
    match c.byte with
    | none => none
    | some none => some ([], c)
    | some (some (b, c')) => (read n c').map fun (part, c'') => (b :: part, c'')

end JsonComments

/-! ## 3. The body without its comments -/

/-- The rest of a body with its comments replaced; `none` where one is broken. -/
def strip (quoted escaped : Bool) (s : Bytes) : Option Bytes :=
  match s with
  | [] => some []
  | b :: s =>
    if quoted then
      (strip (JsonComments.quotedFlags escaped b).1 (JsonComments.quotedFlags escaped b).2 s).map (b :: ·)
    else if b ≠ byte '/' then (strip (b = byte '"') escaped s).map (b :: ·)
    else
      match s with
      | [] => none
      | b' :: s =>
        if b' = byte '/' then (strip false escaped (afterLine s)).map (byte ' ' :: ·)
        else if b' = byte '*' then
          match h : afterBlock s with
          | some rest => (strip false escaped rest).map (byte ' ' :: ·)
          | none => none
        else none
termination_by s.length
decreasing_by
  all_goals simp only [List.length_cons]
  · omega
  · omega
  · have hle := length_afterLine s
    omega
  · have hle := length_afterBlock h
    omega

namespace JsonComments

/-- What is still to be read. -/
def rest (c : JsonComments) : Option Bytes := strip c.quoted c.escaped c.input.pending

variable {c c' : JsonComments} {b : UInt8}

/-- **One byte read is one byte of the body without its comments.** -/
theorem byte_spec (c : JsonComments) :
    (c.byte = none ∧ c.rest = none) ∨ (c.byte = some none ∧ c.input.pending = []) ∨
      ∃ b c', c.byte = some (some (b, c')) ∧ c.rest = c'.rest.map (b :: ·) ∧
        c'.input.pending.length < c.input.pending.length := by
  unfold byte rest
  cases hnext : c.input.next capacity with
  | none => exact .inr (.inl ⟨rfl, pending_of_next_none hnext⟩)
  | some found =>
    obtain ⟨b, input⟩ := found
    rw [pending_of_next hnext, strip.eq_def]
    dsimp only
    split
    · exact .inr (.inr ⟨b, _, rfl, rfl, Nat.lt_succ_self _⟩)
    · split
      · exact .inr (.inr ⟨b, _, rfl, rfl, Nat.lt_succ_self _⟩)
      · cases hsecond : input.next capacity with
        | none =>
          rw [pending_of_next_none hsecond]
          exact .inl ⟨rfl, rfl⟩
        | some found =>
          obtain ⟨b', input'⟩ := found
          rw [pending_of_next hsecond]
          dsimp only
          split
          · refine .inr (.inr ⟨_, _, rfl, by rw [skipLine_pending], ?_⟩)
            have hle := length_afterLine input'.pending
            rw [skipLine_pending, List.length_cons, List.length_cons]
            omega
          · split
            · have hblock := skipBlock_pending false input'
              rw [if_neg (by decide)] at hblock
              cases hskip : skipBlock false input' with
              | none =>
                rw [hskip, Option.map_none] at hblock
                refine .inl ⟨rfl, ?_⟩
                split
                · next hsome => simp [hsome] at hblock
                · rfl
              | some input'' =>
                rw [hskip, Option.map_some] at hblock
                have hle := length_afterBlock hblock.symm
                refine .inr (.inr ⟨_, _, rfl, ?_, by simp only [List.length_cons]; omega⟩)
                split
                · next hsome =>
                  obtain rfl := Option.some.inj (hblock.trans hsome)
                  rfl
                · next hnone => simp [hnone] at hblock
            · exact .inl ⟨rfl, rfl⟩

theorem rest_of_pending (h : c.input.pending = []) : c.rest = some [] := by
  rw [rest, h, strip.eq_def]

/-- **What is read is the body without its comments**, as far as it goes. -/
theorem read_spec (n : Nat) (c : JsonComments) :
    (c.read n = none ∧ c.rest = none) ∨
      ∃ part c', c.read n = some (part, c') ∧ c.rest = c'.rest.map (part ++ ·) ∧
        part.length + c'.input.pending.length ≤ c.input.pending.length ∧ (part = [] → 0 < n → c.rest = some []) := by
  induction n generalizing c with
  | zero => exact .inr ⟨[], c, rfl, by simp, by simp, fun _ h => absurd h (by decide)⟩
  | succ n ih =>
    rw [read]
    rcases c.byte_spec with ⟨hbyte, hrest⟩ | ⟨hbyte, hpending⟩ | ⟨b, c', hbyte, hrest, hless⟩
    · rw [hbyte]
      exact .inl ⟨rfl, hrest⟩
    · rw [hbyte]
      exact .inr ⟨[], c, rfl, by simp, by simp, fun _ _ => rest_of_pending hpending⟩
    · rw [hbyte]
      rcases ih c' with ⟨hread, hrest'⟩ | ⟨part, c'', hread, hrest', hlen, -⟩
      · refine .inl ⟨by simp only [hread, Option.map_none], by rw [hrest, hrest', Option.map_none]⟩
      · refine .inr ⟨b :: part, c'', by simp only [hread, Option.map_some], ?_, ?_, nofun⟩
        · rw [hrest, hrest', Option.map_map]
          rfl
        · rw [List.length_cons]
          omega

theorem rest_of_read_none {n : Nat} (h : c.read n = none) : c.rest = none := by
  rcases c.read_spec n with ⟨-, hrest⟩ | ⟨part, c', hsome, -⟩
  · exact hrest
  · rw [hsome] at h
    cases h

theorem rest_of_read {n : Nat} {part : Bytes} (h : c.read n = some (part, c')) :
    c.rest = c'.rest.map (part ++ ·) ∧ part.length + c'.input.pending.length ≤ c.input.pending.length ∧
      (part = [] → 0 < n → c.rest = some []) := by
  rcases c.read_spec n with ⟨hnone, -⟩ | ⟨part', c'', hsome, hrest⟩
  · rw [hnone] at h
    cases h
  · rw [hsome] at h
    obtain ⟨rfl, rfl⟩ := Prod.mk.inj (Option.some.inj h)
    exact hrest

theorem length_of_read {n : Nat} {part : Bytes} (h : c.read n = some (b :: part, c')) :
    c'.input.pending.length < c.input.pending.length := by
  have hlen := (rest_of_read h).2.1
  rw [List.length_cons] at hlen
  omega

/-- All that is read into buffers of whatever sizes; `none` is invalid data. -/
def readAll (sizes : Nat → Nat) (i : Nat) (c : JsonComments) : Option Bytes :=
  match h : c.read (sizes i + 1) with
  | none => none
  | some ([], _) => some []
  | some (b :: part, c') => (readAll sizes (i + 1) c').map (b :: part ++ ·)
termination_by c.input.pending.length
decreasing_by exact length_of_read h

/-- **All that is read is the body without its comments**, however it is read and written. -/
theorem readAll_eq (sizes : Nat → Nat) (i : Nat) (c : JsonComments) : c.readAll sizes i = c.rest := by
  fun_induction readAll sizes i c with
  | case1 i c h => exact (rest_of_read_none h).symm
  | case2 i c c' h => exact ((rest_of_read h).2.2 rfl (Nat.succ_pos _)).symm
  | case3 i c b part c' h ih => rw [(rest_of_read h).1, ih]

end JsonComments

/-! ## 4. The pass -/

/-- The bytes a buffer takes beside those retained, a broken character being three bytes at most. -/
def jsonBuffer : Nat := 64 * 1024 + 3

/-- The pass from a state on, some bytes being retained. -/
def prescanFrom (input : JsonComments) (state : JsonState) (retained : Bytes) : Except BodyError Unit :=
  match h : input.read (jsonBuffer - retained.length) with
  | none => .error .parse
  | some ([], _) => if retained ≠ [] then .error .parse else .ok ()
  | some (b :: part, input') =>
    match validUpTo (retained ++ b :: part) with
    | none => .error .parse
    | some valid =>
      match ((retained ++ b :: part).take valid).foldlM JsonState.byte state with
      | none => .error .parse
      | some state' => prescanFrom input' state' ((retained ++ b :: part).drop valid)
termination_by input.input.pending.length
decreasing_by exact JsonComments.length_of_read h

/-- The pass of `validate_json`, before it parses. -/
def prescan (file : Source) : Except BodyError Unit := prescanFrom (.new file) .init []

/-- The pass over a whole text without comments. -/
def scanJson (state : JsonState) (s : Bytes) : Except BodyError Unit :=
  if validUtf8 s ∧ (s.foldlM JsonState.byte state).isSome then .ok () else .error .parse

/-- The pass over a whole body. -/
def scanBody (body : Bytes) : Except BodyError Unit :=
  match strip false false body with
  | none => .error .parse
  | some s => scanJson .init s

end Smartfire.Spooled
