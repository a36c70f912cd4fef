/-
  File:      Smartfire/Kit/Multipart.lean
  Subject:   The check of a multipart body before it is parsed, one buffer after the other
             (crates/kit/src/body/spooled.rs).

  A delimiter is never empty. A read of the file gives as much as it will; only a failing read is left out.

  * `findBoundary`, `findInitialBoundary` -- a delimiter and what it says;
  * `Scan`, `step`, `drain` -- the state between two buffers, and one buffer's work;
  * `validateMultipartBuffers` -- the whole check.
-/
import Smartfire.Lib.Find
import Smartfire.Lib.Reads

namespace Smartfire.Spooled

open Lib

def crlf : Bytes := [0x0D, 0x0A]

/-- Two dashes and the boundary, or a line's end in front of them. -/
structure Marker where
  bytes : Bytes
  nonempty : bytes ≠ []

def Marker.length (m : Marker) : Nat := m.bytes.length

theorem Marker.length_pos (m : Marker) : 0 < m.length := List.length_pos_iff.mpr m.nonempty

def firstMarker (boundary : Bytes) : Marker := ⟨text "--" ++ boundary, by simp [text]⟩

def subsequentMarker (boundary : Bytes) : Marker := ⟨crlf ++ text "--" ++ boundary, by simp [text]⟩

inductive BodyError where
  | storage
  | read (message : String)
  | parse
deriving DecidableEq

/-- `multipart_error`. -/
def multipartError : BodyError := .storage

/-- Rack's accepted initial boundary and its final read-ahead position. -/
structure MultipartPosition where
  start : Nat
  consumed : Nat
deriving DecidableEq

/-! ## 1. Delimiters -/

/-- The first delimiter with two dashes or a line's end behind it: where that ends, and whether it closes. -/
def findBoundary (marker : Marker) (bytes : Bytes) : Option (Nat × Bool) :=
  match findText marker.bytes bytes with
  | none => none
  | some index =>
    let stop := index + marker.length
    match h : bytes.drop stop with
    | [] | [_] => none
    | b :: c :: rest =>
      if [b, c] = text "--" then some (stop + 2, true)
      else if [b, c] = crlf then some (stop + 2, false)
      else (findBoundary marker (b :: c :: rest)).map fun (e, closing) => (stop + e, closing)
termination_by bytes.length
decreasing_by
  have hlen := congrArg List.length h
  have hpos := marker.length_pos
  simp only [List.length_drop, List.length_cons] at hlen ⊢
  omega

/-- A delimiter is at least as long as its marker and what is behind it. -/
theorem findBoundary_bounds {marker : Marker} {bytes : Bytes} {e : Nat} {closing : Bool}
    (h : findBoundary marker bytes = some (e, closing)) : marker.length + 2 ≤ e ∧ e ≤ bytes.length := by
  fun_induction findBoundary marker bytes generalizing e closing with
  | case1 | case2 | case3 => cases h
  | case4 bytes index _ stop b c rest hdrop =>
    obtain ⟨rfl, -⟩ := Prod.mk.inj (Option.some.inj h)
    have hlen := congrArg List.length hdrop
    simp only [List.length_drop, List.length_cons] at hlen
    omega
  | case5 bytes index _ stop b c rest hdrop =>
    obtain ⟨rfl, -⟩ := Prod.mk.inj (Option.some.inj h)
    have hlen := congrArg List.length hdrop
    simp only [List.length_drop, List.length_cons] at hlen
    omega
  | case6 bytes index _ stop b c rest hdrop =>
    rename_i ih
    obtain ⟨⟨e', closing'⟩, hrest, hmap⟩ := Option.map_eq_some_iff.mp h
    obtain ⟨rfl, rfl⟩ := Prod.mk.inj hmap
    have hbounds := ih hrest
    have hlen := congrArg List.length hdrop
    simp only [List.length_drop, List.length_cons] at hlen hbounds
    omega

/-- The first delimiter from `offset` on that stands at the cursor or behind a line's end. -/
def initialFrom (marker : Marker) (cursor : Nat) (bytes : Bytes) (offset : Nat) : Option (Nat × Bool) :=
  match h : findBoundary marker (bytes.drop offset) with
  | none => none
  | some (e, closing) =>
    let stop := offset + e
    let start := stop - marker.length - 2
    if start = cursor ∨ 2 ≤ start ∧ (bytes.take start).drop (start - 2) = crlf then some (stop, closing)
    else initialFrom marker cursor bytes (start + marker.length)
termination_by bytes.length - offset
decreasing_by
  have hpos := marker.length_pos
  have hbounds := findBoundary_bounds h
  rw [List.length_drop] at hbounds
  omega

def findInitialBoundary (marker : Marker) (bytes : Bytes) (cursor : Nat) : Option (Nat × Bool) :=
  initialFrom marker cursor bytes cursor

theorem initialFrom_bounds {marker : Marker} {cursor : Nat} {bytes : Bytes} {offset e : Nat} {closing : Bool}
    (h : initialFrom marker cursor bytes offset = some (e, closing)) :
    offset + marker.length + 2 ≤ e ∧ e ≤ bytes.length := by
  fun_induction initialFrom marker cursor bytes offset with
  | case1 => cases h
  | case2 offset e' closing' hfound stop start _ =>
    obtain ⟨rfl, -⟩ := Prod.mk.inj (Option.some.inj h)
    have hbounds := findBoundary_bounds hfound
    rw [List.length_drop] at hbounds
    omega
  | case3 offset e' closing' hfound stop start _ ih =>
    have hbounds := findBoundary_bounds hfound
    have hrest := ih h
    omega

/-! ## 2. One buffer -/

inductive State where
  | preamble
  | headers
  | body
deriving DecidableEq

/-- What is kept from one buffer to the next. -/
structure Scan where
  state : State
  start : Nat
  preambleCursor : Nat
  buffered : Bytes

def Scan.init : Scan := ⟨.preamble, 0, 0, []⟩

/-- The result, or the scan at the next delimiter, or at the end of what is buffered. -/
inductive Next where
  | done (result : Except BodyError MultipartPosition)
  | again (scan : Scan)
  | more (scan : Scan)

def headerLimit : Nat := 64 * 1024

def preambleLimit : Nat := 16 * 1024

variable (boundary : Bytes)

/-- One turn of the inner loop; `position` is the file's. -/
def step (position : Nat) (s : Scan) : Next :=
  match s.state with
  | .headers =>
    match findText (crlf ++ crlf) s.buffered with
    | some e => .again { s with buffered := s.buffered.drop (e + 4), state := .body }
    | none => if s.buffered.length > headerLimit then .done (.error multipartError) else .more s
  | .preamble =>
    match findInitialBoundary (firstMarker boundary) s.buffered s.preambleCursor with
    | some (e, closing) =>
      if closing then
        -- the sole closing-only exception: an exact first buffer and a line's end
        if e = (firstMarker boundary).length + 2 ∧ s.buffered.drop e = crlf then .done (.ok ⟨0, position⟩)
        else .again { s with preambleCursor := e }
      else .again ⟨.headers, e - (firstMarker boundary).length - 2, e, s.buffered.drop e⟩
    | none =>
      if s.buffered.length > preambleLimit then .done (.error multipartError)
      else .more { s with preambleCursor := s.buffered.length }
  | .body =>
    match findBoundary (subsequentMarker boundary) s.buffered with
    | some (e, closing) =>
      if closing then .done (.ok ⟨s.start, position⟩)
      else .again { s with buffered := s.buffered.drop e, state := .headers }
    | none =>
      let retained := min s.buffered.length ((subsequentMarker boundary).length + 1)
      .more { s with buffered := s.buffered.drop (s.buffered.length - retained) }

/-- Bytes and cursor behind: what is left of a buffer. -/
def Scan.left (s : Scan) : Nat := s.buffered.length + (s.buffered.length - s.preambleCursor)

variable {boundary}

theorem left_of_again {position : Nat} {s s' : Scan} (h : step boundary position s = .again s') : s'.left < s.left := by
  unfold step at h
  split at h
  · split at h
    · next e hfound =>
      obtain rfl := Next.again.inj h
      have hle := findText_le hfound
      simp only [List.length_append, crlf, List.length_cons, List.length_nil] at hle
      simp only [Scan.left, List.length_drop]
      omega
    · split at h <;> cases h
  · split at h
    · next e closing hfound =>
      have hbounds := initialFrom_bounds hfound
      split at h
      · split at h
        · cases h
        · obtain rfl := Next.again.inj h
          simp only [Scan.left]
          omega
      · obtain rfl := Next.again.inj h
        simp only [Scan.left, List.length_drop]
        omega
    · split at h <;> cases h
  · split at h
    · next e closing hfound =>
      have hbounds := findBoundary_bounds hfound
      split at h
      · cases h
      · obtain rfl := Next.again.inj h
        simp only [Scan.left, List.length_drop]
        omega
    · cases h

variable (boundary)

/-- The inner loop: a result, or the scan at the end of what is buffered. -/
def drain (position : Nat) (s : Scan) : Except BodyError MultipartPosition ⊕ Scan :=
  match h : step boundary position s with
  | .done result => .inl result
  | .more s' => .inr s'
  | .again s' => drain position s'
termination_by s.left
decreasing_by exact left_of_again h

/-! ## 3. The whole check -/

/-- Rack reads 1 MiB at a time. -/
def bufferSize : Nat := 1024 * 1024

def validateFrom (file : Source) (s : Scan) : Except BodyError MultipartPosition :=
  match h : file.fill bufferSize with
  | ([], file') =>
    match s.state with
    | .preamble => .error (.read "empty multipart content")
    | _ => .ok ⟨s.start, file'.position⟩
  | (b :: chunk, file') =>
    match drain boundary file'.position { s with buffered := s.buffered ++ b :: chunk } with
    | .inl result => result
    | .inr s' => validateFrom file' s'
termination_by file.rest.length
decreasing_by
  obtain ⟨hchunk, hrest, -⟩ := file.fill_eq bufferSize
  rw [h] at hchunk hrest
  have hlen := congrArg List.length hchunk
  simp only [List.length_take, List.length_cons] at hlen
  rw [hrest, List.length_drop]
  omega

/-- `validate_multipart_buffers`. -/
def validateMultipartBuffers (file : Source) : Except BodyError MultipartPosition := validateFrom boundary file .init

end Smartfire.Spooled
