/-
  File:      Smartfire/Storage/Responses.lean
  Subject:   A response about a stored file describes the bytes it sends.

  * `bodyLength`, `sumParts_eq` -- the bytes of a body, and that they are summed up without an overflow;
  * `Labelled` -- the parts sent are those the `content-range` values say;
  * `served_consistent` -- ranges within the file, and a response that agrees with the body of a GET;
  * `serveFile_eq` -- the caller keeps what the response says of the bytes;
  * `notModified_noLength` -- a response that says nothing has changed has no length.
-/
import Mathlib.Data.Nat.Digits.Defs
import Smartfire.Lib.Assoc
import Smartfire.Storage.Ranges

namespace Smartfire.FileServer

open Lib

/-! ## 1. The bytes of a body -/

def BodyPart.size : BodyPart → Nat
  | .bytes b => b.length
  | .file _ start stop => stop - start + 1

/-- What a client receives. -/
def bodyLength (body : List BodyPart) : Nat := (body.map BodyPart.size).sum

/-- A part whose ends are in order. -/
def BodyPart.Ordered : BodyPart → Prop
  | .bytes _ => True
  | .file _ start stop => start ≤ stop

theorem partLength_eq {part : BodyPart} (h : part.Ordered) (hfits : part.size < 2 ^ 64) :
    partLength part = some part.size := by
  cases part with
  | bytes b =>
    have hlen : b.length < 2 ^ 64 := hfits
    exact if_pos hlen
  | file path start stop =>
    have hle : start ≤ stop := h
    have hlen : stop - start + 1 < 2 ^ 64 := hfits
    simp only [partLength, if_pos hle, bind, Option.bind]
    exact if_pos hlen

/-- **The lengths are summed up without an overflow.** -/
theorem sumParts_eq {parts : List BodyPart} (h : ∀ part ∈ parts, part.Ordered) (total : Nat)
    (hfits : total + bodyLength parts < 2 ^ 64) : sumParts total parts = some (total + bodyLength parts) := by
  induction parts generalizing total with
  | nil => rfl
  | cons part rest ih =>
    have hsum : bodyLength (part :: rest) = part.size + bodyLength rest := by
      simp [bodyLength]
    rw [hsum] at hfits ⊢
    have hnext : u64 (total + part.size) = some (total + part.size) := if_pos (by omega)
    simp only [sumParts, partLength_eq (h part List.mem_cons_self) (by omega), hnext, bind, Option.bind]
    rw [ih (fun p hp => h p (List.mem_cons_of_mem _ hp)) _ (by omega), Nat.add_assoc]

theorem length_number {n : Nat} (h : n < 2 ^ 64) : (number n).length ≤ 20 := by
  have hrepr := Nat.repr_length n 20 (by decide) (by omega)
  rwa [number, text, List.length_map, String.length_toList]

/-- What stands before a part is short. -/
theorem length_heading {range : Nat × Nat} {size : Nat} (h₁ : range.1 < 2 ^ 64) (h₂ : range.2 < 2 ^ 64)
    (h₃ : size < 2 ^ 64) : (heading range size).length ≤ 200 := by
  have hstart := length_number h₁
  have hstop := length_number h₂
  have hsize := length_number h₃
  have hfixed : (crlf ++ text "--" ++ multipartBoundary ++ crlf ++ text "content-type: " ++ mimeType ++ crlf ++
      text "content-range: " ++ text "bytes " ++ text "-" ++ text "/" ++ crlf ++ crlf).length ≤ 100 := by
    decide +kernel
  simp only [List.length_append] at hfixed
  simp only [heading, contentRange, List.length_append]
  omega

/-! ## 2. The parts of a partial response -/

/-- The parts between headings. -/
def multipart (path : Bytes) (ranges : List (Nat × Nat)) (size : Nat) : List BodyPart :=
  (ranges.flatMap fun range => [BodyPart.bytes (heading range size), .file path range.1 range.2]) ++ [.bytes closing]

theorem bodyLength_append (x y : List BodyPart) : bodyLength (x ++ y) = bodyLength x + bodyLength y := by
  simp [bodyLength]

theorem bodyLength_multipart (path : Bytes) {ranges : List (Nat × Nat)} {size : Nat}
    (hranges : ∀ r ∈ ranges, r.1 ≤ r.2 ∧ r.2 < size) (hsize : size < 2 ^ 64) :
    bodyLength (multipart path ranges size) ≤
      (ranges.map fun r => r.2 - r.1 + 1).sum + ranges.length * 200 + closing.length := by
  rw [multipart, bodyLength_append]
  have hclosing : bodyLength [.bytes closing] = closing.length := by simp [bodyLength, BodyPart.size]
  rw [hclosing]
  suffices h : bodyLength (ranges.flatMap fun range => [.bytes (heading range size), .file path range.1 range.2]) ≤
      (ranges.map fun r => r.2 - r.1 + 1).sum + ranges.length * 200 by omega
  induction ranges with
  | nil => simp [bodyLength]
  | cons r rest ih =>
    have hr := hranges r List.mem_cons_self
    have hhead := length_heading (hr.1.trans_lt (hr.2.trans hsize)) (hr.2.trans hsize) hsize
    have hrest := ih fun r hr => hranges r (List.mem_cons_of_mem _ hr)
    have hone : bodyLength [.bytes (heading r size), .file path r.1 r.2] =
        (heading r size).length + (r.2 - r.1 + 1) := by
      simp [bodyLength, BodyPart.size]
    rw [List.flatMap_cons, bodyLength_append, hone, List.map_cons, List.sum_cons, List.length_cons]
    omega

/-- The parts sent are those the `content-range` values say: one under the header, or each under its heading. -/
inductive Labelled (path : Bytes) (size : Nat) (headers : List (Bytes × Bytes)) : List BodyPart → Prop
  | one {r : Nat × Nat} (h : Assoc.get headers (text "content-range") = some (contentRange r size)) :
      Labelled path size headers [.file path r.1 r.2]
  | many {ranges : List (Nat × Nat)} (hmany : 1 < ranges.length)
      (h : Assoc.get headers (text "content-range") = none) :
      Labelled path size headers (multipart path ranges size)

/-! ## 3. The responses -/

section Responses

variable {request : Request} {path lastModified : Bytes} {size : UInt64}

/-- The body, or none of it. -/
def sentBody (request : Request) (size : UInt64) (body : List BodyPart) : List BodyPart :=
  if request.method = text "HEAD" ∨ size = 0 then [] else body

theorem serving_whole (hmethod : request.method ≠ text "OPTIONS")
    (hmodified : request.ifModifiedSince ≠ some lastModified)
    (h : byteRanges request.range size = some none) :
    serving request path lastModified size = some ⟨200, [(text "last-modified", lastModified),
      (text "content-type", mimeType), (text "content-length", number size.toNat)],
      sentBody request size [.file path 0 (size.toNat - 1)]⟩ := by
  simp only [serving, if_neg hmethod, if_neg hmodified, h, bind, Option.bind, pure]
  rfl

theorem serving_empty (hmethod : request.method ≠ text "OPTIONS")
    (hmodified : request.ifModifiedSince ≠ some lastModified)
    (h : byteRanges request.range size = some (some [])) :
    serving request path lastModified size = some ⟨416, [(text "content-type", text "text/plain"),
      (text "content-length", number unsatisfiable.length), (text "x-cascade", text "pass"),
      (text "content-range", text "bytes */" ++ number size.toNat)], [.bytes unsatisfiable]⟩ := by
  simp only [serving, if_neg hmethod, if_neg hmodified, h, bind, Option.bind, pure]

theorem serving_one {r : Nat × Nat} (hmethod : request.method ≠ text "OPTIONS")
    (hmodified : request.ifModifiedSince ≠ some lastModified)
    (h : byteRanges request.range size = some (some [r])) (hr : r.1 ≤ r.2 ∧ r.2 < size.toNat) :
    serving request path lastModified size = some ⟨206, [(text "last-modified", lastModified),
      (text "content-type", mimeType), (text "content-range", contentRange r size.toNat),
      (text "content-length", number (r.2 - r.1 + 1))], sentBody request size [.file path r.1 r.2]⟩ := by
  have hsize := size.toNat_lt
  have hordered : ∀ part ∈ [BodyPart.file path r.1 r.2], part.Ordered := fun part hp =>
    List.mem_singleton.mp hp ▸ hr.1
  have hfits : 0 + bodyLength [.file path r.1 r.2] < 2 ^ 64 := by
    simp only [bodyLength, BodyPart.size, List.map_cons, List.map_nil, List.sum_cons, List.sum_nil]
    omega
  have hsum := sumParts_eq hordered 0 hfits
  simp only [serving, if_neg hmethod, if_neg hmodified, h, partial206, hsum, bind, Option.bind, pure]
  simp [bodyLength, BodyPart.size, sentBody]

theorem serving_many {r₁ r₂ : Nat × Nat} {rest : List (Nat × Nat)} (hmethod : request.method ≠ text "OPTIONS")
    (hmodified : request.ifModifiedSince ≠ some lastModified)
    (h : byteRanges request.range size = some (some (r₁ :: r₂ :: rest)))
    (hranges : ∀ r ∈ r₁ :: r₂ :: rest, r.1 ≤ r.2 ∧ r.2 < size.toNat)
    (hfits : bodyLength (multipart path (r₁ :: r₂ :: rest) size.toNat) < 2 ^ 64) :
    serving request path lastModified size = some ⟨206, [(text "last-modified", lastModified),
      (text "content-type", text "multipart/byteranges; boundary=" ++ multipartBoundary),
      (text "content-length", number (bodyLength (multipart path (r₁ :: r₂ :: rest) size.toNat)))],
      sentBody request size (multipart path (r₁ :: r₂ :: rest) size.toNat)⟩ := by
  have hordered : ∀ part ∈ multipart path (r₁ :: r₂ :: rest) size.toNat, part.Ordered := by
    intro part hpart
    obtain hpart | hpart := List.mem_append.mp hpart
    · obtain ⟨r, hr, hpart⟩ := List.mem_flatMap.mp hpart
      obtain rfl | rfl := by simpa using hpart
      · exact trivial
      · exact (hranges r hr).1
    · rw [List.mem_singleton.mp hpart]
      exact trivial
  have hsum := sumParts_eq hordered 0 (by omega)
  rw [Nat.zero_add] at hsum
  simp only [serving, if_neg hmethod, if_neg hmodified, h, partial206, bind, Option.bind, pure]
  rw [← multipart, hsum]
  rfl

/-- What a request's header asks for of a file, and that none of it is there or it is more than the file. -/
def Refused (header : Option Str) (size : Nat) : Prop :=
  ∃ h spec ws, header = some h ∧ rangesText h.bytes = some (some spec) ∧ Asks spec ws ∧
    ((∀ w ∈ ws, ¬ w.Satisfiable size) ∨ size < (ws.map (Wanted.length size)).sum)

/-- **The outcomes of reading a header**, with at most a hundred ranges. -/
theorem byteRanges_cases (header : Option Str) (size : UInt64) :
    byteRanges header size = some none ∨ (byteRanges header size = some (some []) ∧ Refused header size.toNat) ∨
      ∃ r rest, byteRanges header size = some (some (r :: rest)) ∧ (r :: rest).length ≤ 100 ∧
        (∀ r' ∈ r :: rest, r'.1 ≤ r'.2 ∧ r'.2 < size.toNat) ∧
        ((r :: rest).map fun r => r.2 - r.1 + 1).sum ≤ size.toNat := by
  obtain hnone | ⟨hpos, h, spec, ws, hheader, htext, hasks, hfew, hranges⟩ := byteRanges_spec header size
  · exact .inl hnone
  right
  by_cases hmuch : size.toNat < (ws.map (Wanted.length size.toNat)).sum
  · rw [if_pos hmuch] at hranges
    exact .inl ⟨hranges, h, spec, ws, hheader, htext, hasks, .inr hmuch⟩
  · rw [if_neg hmuch] at hranges
    cases hfound : ws.filterMap (Wanted.found size.toNat) with
    | nil =>
      rw [hfound] at hranges
      refine .inl ⟨hranges, h, spec, ws, hheader, htext, hasks, .inl fun w hw hs => ?_⟩
      have hno := List.filterMap_eq_nil_iff.mp hfound w hw
      simp [Wanted.found, hs] at hno
    | cons r rest =>
      have hsum := sum_found size.toNat ws
      have hlen := List.length_filterMap_le (Wanted.found size.toNat) ws
      rw [hfound] at hranges hsum hlen
      refine .inr ⟨r, rest, hranges, hlen.trans hfew, fun r' hr' => ?_, by omega⟩
      obtain ⟨w, -, hw⟩ := List.mem_filterMap.mp (hfound ▸ hr')
      exact ⟨(Wanted.found_spec hw).1, (Wanted.found_spec hw).2.1⟩

/-- **Ranges lie within the file, and a response agrees with the body of a GET**, where it is not to `OPTIONS` and
    the file was changed: the length, the ranges said and the status. No file has as many bytes as a `u64` can say. -/
theorem served_consistent (request : Request) (path lastModified : Bytes) (size : UInt64) (hsize : size.toNat < 2 ^ 63)
    (hmethod : request.method ≠ text "OPTIONS") (hmodified : request.ifModifiedSince ≠ some lastModified) :
    (∀ (header : Option Str) (size : UInt64), ∃ answer, byteRanges header size = some answer ∧
      ∀ ranges, answer = some ranges → (∀ r ∈ ranges, r.1 ≤ r.2 ∧ r.2 < size.toNat) ∧
        (ranges.map fun r => r.2 - r.1 + 1).sum ≤ size.toNat) ∧
    ∃ served sent, serving request path lastModified size = some served ∧
      serving { request with method := text "GET" } path lastModified size = some sent ∧
      served.status = sent.status ∧ served.headers = sent.headers ∧
      Assoc.get served.headers (text "content-length") = some (number (bodyLength sent.body)) ∧
      (served.status = 200 ∧ Assoc.get served.headers (text "content-range") = none ∨
        served.status = 206 ∧ Labelled path size.toNat served.headers sent.body ∨
        served.status = 416 ∧ Assoc.get served.headers (text "content-range") =
          some (text "bytes */" ++ number size.toNat) ∧ Refused request.range size.toNat) := by
  constructor
  · intro header size
    obtain hnone | ⟨hempty, -⟩ | ⟨r, rest, hranges, -, hwithin, hsum⟩ := byteRanges_cases header size
    · exact ⟨none, hnone, fun ranges h => nomatch h⟩
    · refine ⟨some [], hempty, fun ranges h => ?_⟩
      obtain rfl := Option.some.inj h
      exact ⟨by simp, by simp⟩
    · refine ⟨some (r :: rest), hranges, fun ranges h => ?_⟩
      obtain rfl := Option.some.inj h
      exact ⟨hwithin, hsum⟩
  · let get : Request := { request with method := text "GET" }
    have hget : text "GET" ≠ text "OPTIONS" := by decide
    have hbody : ∀ body, sentBody get size body = if size = 0 then [] else body := by
      intro body
      have hhead : ¬ text "GET" = text "HEAD" := by decide
      simp [sentBody, get, hhead]
    obtain hnone | ⟨hempty, hrefused⟩ | ⟨r, rest, hranges, hfew, hwithin, hsum⟩ := byteRanges_cases request.range size
    · have hlength : bodyLength (sentBody get size [.file path 0 (size.toNat - 1)]) = size.toNat := by
        rw [hbody]
        split
        · next hzero => simp [bodyLength, hzero]
        · next hpos =>
          have hne : size.toNat ≠ 0 := fun h => hpos (UInt64.toNat_inj.mp h)
          simp only [bodyLength, BodyPart.size, List.map_cons, List.map_nil, List.sum_cons, List.sum_nil]
          omega
      refine ⟨_, _, serving_whole hmethod hmodified hnone, serving_whole hget hmodified hnone, rfl, rfl, ?_,
        .inl ⟨rfl, rfl⟩⟩
      rw [hlength]
      rfl
    · exact ⟨_, _, serving_empty hmethod hmodified hempty, serving_empty hget hmodified hempty, rfl, rfl, rfl,
        .inr (.inr ⟨rfl, rfl, hrefused⟩)⟩
    have hnonzero : ¬ size = 0 := by
      rintro rfl
      exact absurd (hwithin r List.mem_cons_self).2 (Nat.not_lt_zero _)
    cases rest with
    | nil =>
      have hr := hwithin r List.mem_cons_self
      refine ⟨_, _, serving_one hmethod hmodified hranges hr, serving_one hget hmodified hranges hr, rfl, rfl, ?_,
        .inr (.inl ⟨rfl, ?_⟩)⟩
      · rw [hbody, if_neg hnonzero]
        rfl
      · rw [hbody, if_neg hnonzero]
        exact .one rfl
    | cons r₂ rest =>
      have hfits : bodyLength (multipart path (r :: r₂ :: rest) size.toNat) < 2 ^ 64 := by
        have hbound := bodyLength_multipart path hwithin size.toNat_lt
        have hclosing : closing.length ≤ 100 := by decide
        omega
      refine ⟨_, _, serving_many hmethod hmodified hranges hwithin hfits,
        serving_many hget hmodified hranges hwithin hfits, rfl, rfl, ?_, .inr (.inl ⟨rfl, ?_⟩)⟩
      · rw [hbody, if_neg hnonzero]
        rfl
      · rw [hbody, if_neg hnonzero]
        exact .many (by simp) rfl

/-- Two ranges of a file of ten bytes. -/
theorem served_consistent_sample :
    let request : Request := ⟨text "HEAD", some ⟨text "bytes=0-1, -2", by decide⟩, none⟩
    ∃ served sent, serving request (text "f") (text "Sun, 06 Nov 1994 08:49:37 GMT") 10 = some served ∧
      serving { request with method := text "GET" } (text "f") (text "Sun, 06 Nov 1994 08:49:37 GMT") 10 = some sent ∧
      served.status = sent.status ∧ served.headers = sent.headers ∧
      Assoc.get served.headers (text "content-length") = some (number (bodyLength sent.body)) := by
  intro request
  obtain ⟨-, served, sent, hserved, hsent, hstatus, hheaders, hlength, -⟩ :=
    served_consistent request (text "f") (text "Sun, 06 Nov 1994 08:49:37 GMT") 10 (by decide) (by decide) (by decide)
  exact ⟨served, sent, hserved, hsent, hstatus, hheaders, hlength⟩

/-- The headers that `serveFile` writes itself. -/
def ownHeaders : List Bytes := [text "content-type", text "content-disposition", text "x-cascade"]

theorem get_setHeader (headers : List (Bytes × Bytes)) {header name : Bytes} (value : Bytes)
    (h : name.map lowerAscii ≠ header.map lowerAscii) :
    Assoc.get (setHeader headers header value) name = Assoc.get headers name := by
  induction headers with
  | nil =>
    have hname : header ≠ name := fun he => h (he ▸ rfl)
    rw [setHeader, Assoc.get_cons, if_neg hname]
  | cons e rest ih =>
    rw [setHeader]
    split
    · next heq =>
      have hname : e.1 ≠ name := fun he => h (he ▸ heq)
      rw [Assoc.get_cons, Assoc.get_cons, if_neg hname, if_neg hname]
    · rw [Assoc.get_cons, Assoc.get_cons, ih]

theorem get_filter_header {headers : List (Bytes × Bytes)} {header name : Bytes}
    (h : name.map lowerAscii ≠ header) :
    Assoc.get (headers.filter fun e => ¬ e.1.map lowerAscii = header) name = Assoc.get headers name := by
  induction headers with
  | nil => rfl
  | cons e rest ih =>
    by_cases heq : e.1.map lowerAscii = header
    · have hname : e.1 ≠ name := fun he => h (he ▸ heq)
      rw [List.filter_cons_of_neg (by simpa using heq), ih, Assoc.get_cons, if_neg hname]
    · rw [List.filter_cons_of_pos (by simpa using heq), Assoc.get_cons, Assoc.get_cons, ih]

/-- **A stored file is served as `serving` says**: the status, the body and every header that `serveFile` doesn't
    write itself. -/
theorem serveFile_eq {sent : Served} (h : serving request path lastModified size = some sent)
    (contentType disposition : Option Bytes) :
    ∃ served, serveFile request path lastModified size contentType disposition = some served ∧
      served.status = sent.status ∧ served.body = sent.body ∧
      ∀ name : Bytes, name.map lowerAscii ∉ ownHeaders →
        Assoc.get served.headers name = Assoc.get sent.headers name := by
  unfold serveFile
  rw [h]
  refine ⟨_, rfl, rfl, rfl, fun name hname => ?_⟩
  obtain ⟨htype, hdisposition, hcascade⟩ : name.map lowerAscii ≠ text "content-type" ∧
      name.map lowerAscii ≠ text "content-disposition" ∧ name.map lowerAscii ≠ text "x-cascade" := by
    simpa [ownHeaders] using hname
  have htype' : (text "content-type").map lowerAscii = text "content-type" := by decide
  have hdisposition' : (text "content-disposition").map lowerAscii = text "content-disposition" := by decide
  dsimp only
  rw [get_setHeader _ _ (by rwa [hdisposition']), get_setHeader _ _ (by rwa [htype'])]
  split
  · exact get_filter_header hcascade
  · rfl

/-- Where the file has not changed the response has no length: it has no header at all. -/
theorem notModified_noLength :
    ¬ ∀ (request : Request) (path lastModified : Bytes) (size : UInt64), ∃ served sent,
      serving request path lastModified size = some served ∧
      serving { request with method := text "GET" } path lastModified size = some sent ∧
      Assoc.get served.headers (text "content-length") = some (number (bodyLength sent.body)) := by
  intro h
  obtain ⟨served, sent, hserved, -, hlength⟩ := h ⟨text "GET", none, some (text "Sun, 06 Nov 1994 08:49:37 GMT")⟩
    (text "f") (text "Sun, 06 Nov 1994 08:49:37 GMT") 10
  have hnot : serving ⟨text "GET", none, some (text "Sun, 06 Nov 1994 08:49:37 GMT")⟩ (text "f")
      (text "Sun, 06 Nov 1994 08:49:37 GMT") 10 = some ⟨304, [], []⟩ := by decide +kernel
  obtain rfl := Option.some.inj (hnot.symm.trans hserved)
  cases hlength

end Responses

end Smartfire.FileServer
