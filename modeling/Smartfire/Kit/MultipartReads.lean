/-
  File:      Smartfire/Kit/MultipartReads.lean
  Subject:   The check of a multipart body is the scan of the whole of it, however it is read.

  * `Reading` -- a file of which so many buffers were read;
  * `proceed_headers`, `proceed_body` -- what is kept between two buffers stands for all that was read;
  * `validateMultipartBuffers_eq` -- the check is the scan.
-/
import Smartfire.Kit.MultipartScan

namespace Smartfire.Spooled

open Lib

/-- What a header's text may hold, and so a boundary. -/
def HeaderText (s : Bytes) : Prop := ∀ b ∈ s, b = 0x09 ∨ 0x20 ≤ b ∧ b < 0x7F

instance (s : Bytes) : Decidable (HeaderText s) := inferInstanceAs (Decidable (∀ b ∈ s, _))

theorem subsequent_spec {boundary : Bytes} (h : HeaderText boundary) :
    ∃ rest, (subsequentMarker boundary).bytes = 0x0D :: rest ∧ (0x0D : UInt8) ∉ rest := by
  refine ⟨0x0A :: (text "--" ++ boundary), rfl, ?_⟩
  intro hmem
  rw [List.mem_cons, List.mem_append] at hmem
  rcases hmem with hmem | hmem | hmem
  · exact absurd hmem (by decide)
  · exact absurd hmem (by decide)
  · exact absurd (h _ hmem) (by decide)

variable {boundary body : Bytes} {file : Source} {k p : Nat}

/-! ## 1. Buffer after buffer -/

/-- The bytes of so many buffers. -/
def seen (body : Bytes) (k : Nat) : Nat := min body.length (k * bufferSize)

/-- A file of which so many buffers were read. -/
structure Reading (body : Bytes) (file : Source) (k : Nat) : Prop where
  rest : file.rest = body.drop (seen body k)
  position : file.position = seen body k

theorem bufferSize_pos : 0 < bufferSize := by decide

theorem seen_succ (body : Bytes) (k : Nat) : seen body (k + 1) = min body.length (seen body k + bufferSize) := by
  unfold seen
  rw [Nat.add_mul, Nat.one_mul]
  omega

theorem seen_le (body : Bytes) (k : Nat) : seen body k ≤ body.length := Nat.min_le_left _ _

theorem seen_mono (body : Bytes) (k : Nat) : seen body k ≤ seen body (k + 1) := by
  rw [seen_succ]
  have hle := seen_le body k
  omega

/-- One buffer more. -/
theorem Reading.fill (h : Reading body file k) :
    (file.fill bufferSize).1 = (body.take (seen body (k + 1))).drop (seen body k) ∧
      Reading body (file.fill bufferSize).2 (k + 1) := by
  obtain ⟨hbytes, hrest, hposition⟩ := file.fill_eq bufferSize
  have hle := seen_le body k
  have hstep : (body.drop (seen body k)).take bufferSize = (body.take (seen body (k + 1))).drop (seen body k) := by
    have htake : body.take (seen body (k + 1)) = body.take (seen body k + bufferSize) := by
      rw [List.take_eq_take_iff, seen_succ]
      omega
    rw [List.take_drop, htake]
  refine ⟨by rw [hbytes, h.rest, hstep], ⟨?_, ?_⟩⟩
  · rw [hrest, h.rest, List.drop_drop, seen_succ]
    rcases Nat.le_total body.length (seen body k + bufferSize) with hend | hend
    · rw [Nat.min_eq_left hend, List.drop_length, List.drop_of_length_le hend]
    · rw [Nat.min_eq_right hend]
  · rw [hposition, h.position, h.rest, List.length_take, List.length_drop, seen_succ]
    omega

/-- The buffer that holds a place. -/
theorem bufferEnd_seen (hlo : k * bufferSize < p) (hhi : p ≤ seen body (k + 1)) :
    bufferEnd bufferSize body.length p = seen body (k + 1) := by
  have hpos := bufferSize_pos
  unfold seen at *
  have hdiv : (p - 1) / bufferSize = k := by
    rw [Nat.div_eq_iff hpos]
    rw [Nat.add_mul] at hhi
    omega
  rw [bufferEnd, hdiv, Nat.add_mul, Nat.one_mul]

theorem bufferEnd_next : bufferEnd bufferSize body.length (seen body (k + 1) + 1) = seen body (k + 1 + 1) := by
  have hpos := bufferSize_pos
  rw [bufferEnd, Nat.add_sub_cancel]
  rcases Nat.le_total ((k + 1) * bufferSize) body.length with hwhole | hend
  · have hseen : seen body (k + 1) = (k + 1) * bufferSize := Nat.min_eq_right hwhole
    rw [hseen, Nat.mul_div_cancel _ hpos, seen, ← Nat.succ_mul]
  · have hseen : seen body (k + 1) = body.length := Nat.min_eq_left hend
    have hlast : seen body (k + 1 + 1) = body.length := by
      rw [seen_succ, hseen]
      omega
    have hdiv := @Nat.lt_div_mul_add body.length _ hpos
    rw [hseen, hlast]
    omega

/-! ## 2. What is kept stands for what was read -/

/-- The rest of the check from a scan on. -/
def proceed (boundary : Bytes) (file : Source) (s : Scan) : Except BodyError MultipartPosition :=
  match drain boundary file.position s with
  | .inl result => result
  | .inr s' => validateFrom boundary file s'

theorem proceed_eq (boundary : Bytes) (file : Source) (s : Scan) : proceed boundary file s =
    match step boundary file.position s with
    | .done result => result
    | .more s' => validateFrom boundary file s'
    | .again s' => proceed boundary file s' := by
  rw [proceed, drain]
  cases h : step boundary file.position s <;> simp only [proceed]

/-- The bytes read so far from a place on. -/
def kept (body : Bytes) (k p : Nat) : Bytes := (body.take (seen body k)).drop p

theorem length_kept (body : Bytes) (k p : Nat) : (kept body k p).length = seen body k - p := by
  have hle := seen_le body k
  rw [kept, List.length_drop, List.length_take]
  omega

theorem drop_kept (body : Bytes) (k p n : Nat) : (kept body k p).drop n = kept body k (p + n) := by
  rw [kept, kept, List.drop_drop]

theorem drop_take_append {s : Bytes} {n : Nat} (hp : p ≤ n) (hn : n ≤ s.length) :
    (s.take n).drop p ++ s.drop n = s.drop p := by
  have hlen : p ≤ (s.take n).length := by
    rw [List.length_take]
    omega
  rw [← List.drop_append_of_le_length hlen, List.take_append_drop]

theorem kept_append (hp : p ≤ seen body k) : kept body k p ++ body.drop (seen body k) = body.drop p :=
  drop_take_append hp (seen_le body k)

theorem kept_next (hp : p ≤ seen body k) : kept body k p ++ kept body (k + 1) (seen body k) = kept body (k + 1) p := by
  have hmono := seen_mono body k
  have hle := seen_le body (k + 1)
  have htake : body.take (seen body k) = (body.take (seen body (k + 1))).take (seen body k) := by
    rw [List.take_take, Nat.min_eq_left hmono]
  rw [kept, htake]
  refine drop_take_append hp ?_
  rw [List.length_take]
  omega

/-- One buffer more, or the end of the file. -/
theorem validateFrom_kept (boundary : Bytes) (h : Reading body file k) {s : Scan} (hp : p ≤ seen body k)
    (hs : s.buffered = kept body k p) (hstate : s.state ≠ .preamble) :
    (seen body k = body.length ∧ validateFrom boundary file s = .ok ⟨s.start, body.length⟩) ∨
      seen body k < body.length ∧ ∃ file', Reading body file' (k + 1) ∧
        validateFrom boundary file s = proceed boundary file' { s with buffered := kept body (k + 1) p } := by
  obtain ⟨hbytes, hnext⟩ := h.fill
  have hlen := congrArg List.length hbytes
  have hle := seen_le body k
  have hpos := bufferSize_pos
  have hsucc := seen_succ body k
  rw [List.length_drop, List.length_take] at hlen
  rw [validateFrom]
  split
  · next file' hfill =>
    rw [hfill] at hlen hnext
    rw [List.length_nil] at hlen
    have hend : seen body k = body.length := by omega
    refine .inl ⟨hend, ?_⟩
    have hposition : file'.position = body.length := by
      rw [hnext.position]
      omega
    split
    · next hpreamble => exact absurd hpreamble hstate
    · rw [hposition]
  · next b chunk file' hfill =>
    rw [hfill] at hlen hnext hbytes
    rw [List.length_cons] at hlen
    have hbuffered : s.buffered ++ b :: chunk = kept body (k + 1) p := by
      rw [hs, ← kept_next hp]
      exact congrArg (kept body k p ++ ·) hbytes
    refine .inr ⟨by omega, file', hnext, ?_⟩
    rw [hbuffered]
    rfl

/-! ## 3. From a part on -/

/-- What comes behind a part that ends where a delimiter was found, or nowhere. -/
def behindPart (size : Nat) (boundary body : Bytes) (start q : Nat) :
    Option (Nat × Bool) → Except BodyError MultipartPosition
  | none => .ok ⟨start, body.length⟩
  | some (e, true) => .ok ⟨start, bufferEnd size body.length (q + e)⟩
  | some (e, false) => afterOpening size boundary body start (q + e)

theorem afterOpening_eq (size : Nat) (boundary body : Bytes) (start p : Nat) : afterOpening size boundary body start p =
    match findText (crlf ++ crlf) ((body.take (headersEnd size body.length p)).drop p) with
    | none =>
      if headersEnd size body.length p - p > headerLimit then .error multipartError else .ok ⟨start, body.length⟩
    | some i => behindPart size boundary body start (p + (i + 4))
        (firstBoundary (subsequentMarker boundary).bytes (body.drop (p + (i + 4)))) := by
  rw [afterOpening]
  cases findText (crlf ++ crlf) ((body.take (headersEnd size body.length p)).drop p) with
  | none => rfl
  | some i =>
    dsimp only
    split
    · next hnone => rw [hnone, behindPart]
    · next hclosing => rw [hclosing, behindPart]
    · next hopen => rw [hopen, behindPart]

/-- From a delimiter's headers on, the check is the scan. -/
def HeadersFrom (boundary body : Bytes) (start p : Nat) : Prop :=
  ∀ (file : Source) (k : Nat) (s : Scan), Reading body file (k + 1) → k * bufferSize < p → p ≤ seen body (k + 1) →
    s.state = .headers → s.start = start → s.buffered = kept body (k + 1) p →
    proceed boundary file s = afterOpening bufferSize boundary body start p

/-- Where no delimiter was found, what is let go holds no delimiter's start. -/
theorem kept_of_none {marker : Bytes} {r : Nat} (hr : r ≤ seen body k)
    (h : firstBoundary marker (kept body k r) = none) :
    ∃ j, r + j ≤ seen body k ∧ (kept body k r).drop ((kept body k r).length -
        min (kept body k r).length (marker.length + 1)) = kept body k (r + j) ∧
      firstBoundary marker (body.drop r) = (firstBoundary marker (body.drop (r + j))).map (later j) := by
  have hlen := length_kept body k r
  refine ⟨(kept body k r).length - min (kept body k r).length (marker.length + 1), by omega, drop_kept _ _ _ _, ?_⟩
  rcases Nat.le_total (kept body k r).length (marker.length + 1) with hshort | hlong
  · rw [Nat.min_eq_left hshort, Nat.sub_self]
    exact Option.map_id_apply.symm
  · rw [Nat.min_eq_right hlong]
    have hfits : (kept body k r).length - (marker.length + 1) + marker.length + 1 ≤ (kept body k r).length := by omega
    have hskip := firstBoundary_skip h hfits (body.drop (seen body k))
    rw [drop_kept, kept_append hr, kept_append (by omega)] at hskip
    exact hskip

/-- **In a part, all that could hold a delimiter's start is kept.** -/
theorem proceed_body (hb : HeaderText boundary) {start q r : Nat} {s : Scan} (h : Reading body file (k + 1))
    (hstate : s.state = .body) (hstart : s.start = start) (hq : q ≤ r) (hr : r ≤ seen body (k + 1))
    (hs : s.buffered = kept body (k + 1) r)
    (hpassed : firstBoundary (subsequentMarker boundary).bytes (body.drop q) =
      (firstBoundary (subsequentMarker boundary).bytes (body.drop r)).map (later (r - q)))
    (hnew : ∀ e closing, firstBoundary (subsequentMarker boundary).bytes (body.drop r) = some (e, closing) →
      k * bufferSize < r + e)
    (hheaders : ∀ e, firstBoundary (subsequentMarker boundary).bytes (body.drop q) = some (e, false) →
      HeadersFrom boundary body start (q + e)) :
    proceed boundary file s =
      behindPart bufferSize boundary body start q (firstBoundary (subsequentMarker boundary).bytes (body.drop q)) := by
  obtain ⟨rest, hmarker, hcr⟩ := subsequent_spec hb
  induction hleft : body.length - seen body (k + 1) using Nat.strongRecOn generalizing file k r s with
  | ind left ih =>
    rw [proceed_eq]
    simp only [step, hstate, findBoundary_eq hmarker hcr, hs]
    cases hfound : firstBoundary (subsequentMarker boundary).bytes (kept body (k + 1) r) with
    | some found =>
      obtain ⟨e, closing⟩ := found
      have hbounds := firstBoundary_bounds hfound
      rw [length_kept] at hbounds
      have hwhole := firstBoundary_append hfound (body.drop (seen body (k + 1)))
      rw [kept_append hr] at hwhole
      have hplace : q + (e + (r - q)) = r + e := by omega
      have hlo := hnew e closing hwhole
      rw [hwhole] at hpassed
      cases closing with
      | true =>
        simp only [if_true, hpassed, Option.map_some, later, behindPart, hplace, hstart, h.position]
        rw [bufferEnd_seen hlo (by omega)]
      | false =>
        have hnext := hheaders _ hpassed
        simp only [Bool.false_eq_true, if_false, hpassed, Option.map_some, later, behindPart, hplace] at hnext ⊢
        exact hnext file k _ h hlo (by omega) rfl hstart (drop_kept body (k + 1) r e)
    | none =>
      have hlen := length_kept body (k + 1) r
      -- What is let go holds no delimiter's start.
      obtain ⟨j, hj, hdrop, hskip⟩ := kept_of_none hr hfound
      have hstate' : (Scan.mk .body s.start s.preambleCursor (kept body (k + 1) (r + j))).state ≠ .preamble := by
        rintro ⟨⟩
      have hpassed' : firstBoundary (subsequentMarker boundary).bytes (body.drop q) =
          (firstBoundary (subsequentMarker boundary).bytes (body.drop (r + j))).map (later (r + j - q)) := by
        have hsum : j + (r - q) = r + j - q := by omega
        rw [hpassed, hskip, Option.map_map, later_later, hsum]
      rw [Marker.length, hdrop]
      rcases validateFrom_kept boundary h hj rfl hstate' with ⟨hend, hresult⟩ | ⟨hmore, file', hnext, hresult⟩
      · have hnone : firstBoundary (subsequentMarker boundary).bytes (body.drop r) = none := by
          rw [← kept_append hr, hend, List.drop_length, List.append_nil]
          exact hfound
        rw [hpassed, hnone]
        exact hresult.trans (by rw [hstart]; rfl)
      · have hmono := seen_succ body (k + 1)
        have hpos := bufferSize_pos
        refine hresult.trans (ih _ ?_ hnext rfl hstart (by omega) (by omega) rfl hpassed' ?_ rfl)
        · omega
        · intro e closing hfound'
          by_contra hlo
          -- A delimiter that ends in what was read was found before.
          have hseen : seen body (k + 1) = (k + 1) * bufferSize := by
            unfold seen at hmore ⊢
            omega
          rw [hfound'] at hskip
          have hearlier := firstBoundary_take hskip (show e + j ≤ seen body (k + 1) - r by omega)
          rw [List.take_drop, Nat.add_sub_cancel' hr, ← kept, hfound] at hearlier
          cases hearlier

theorem findText_crlf_le {s : Bytes} {i : Nat} (h : findText (crlf ++ crlf) s = some i) : i + 4 ≤ s.length := by
  have hle := findText_le h
  simpa [crlf] using hle

/-- The part behind headers that end in what was read last. -/
theorem proceed_part (hb : HeaderText boundary) {start i : Nat} {s : Scan} (h : Reading body file (k + 1))
    (hfound : findText (crlf ++ crlf) (kept body (k + 1) p) = some i) (hlo : k * bufferSize < p + (i + 4))
    (hhi : p ≤ seen body (k + 1)) (hstate : s.state = .body) (hstart : s.start = start)
    (hs : s.buffered = (kept body (k + 1) p).drop (i + 4))
    (ih : ∀ p', p < p' → p' ≤ body.length → HeadersFrom boundary body start p') :
    proceed boundary file s = behindPart bufferSize boundary body start (p + (i + 4))
      (firstBoundary (subsequentMarker boundary).bytes (body.drop (p + (i + 4)))) := by
  have hle := findText_crlf_le hfound
  have hseen := seen_le body (k + 1)
  rw [length_kept] at hle
  have hkept := hs.trans (drop_kept body (k + 1) p (i + 4))
  refine proceed_body hb h hstate hstart (Nat.le_refl _) (by omega) hkept ?_ ?_ ?_
  · rw [Nat.sub_self]
    exact Option.map_id_apply.symm
  · intro e closing _
    omega
  · intro e hopen
    have hbounds := firstBoundary_bounds hopen
    rw [List.length_drop] at hbounds
    exact ih _ (by omega) (by omega)

/-- **From every delimiter on, the check is the scan.** -/
theorem proceed_headers (hb : HeaderText boundary) (start p : Nat) (hp : p ≤ body.length) :
    HeadersFrom boundary body start p := by
  induction hleft : body.length - p using Nat.strongRecOn generalizing p with
  | ind left ih =>
    have ih : ∀ p', p < p' → p' ≤ body.length → HeadersFrom boundary body start p' := fun p' hlt hle =>
      ih _ (by omega) p' hle rfl
    intro file k s h hlo hhi hstate hstart hs
    have hlen := length_kept body (k + 1) p
    have hmono := seen_mono body (k + 1)
    rw [proceed_eq, afterOpening_eq, headersEnd, bufferEnd_seen hlo hhi, bufferEnd_next]
    simp only [step, hstate, hs]
    cases hfound : findText (crlf ++ crlf) (kept body (k + 1) p) with
    | some i =>
      have hlater : findText (crlf ++ crlf) ((body.take (if seen body (k + 1) - p > headerLimit then seen body (k + 1)
          else seen body (k + 1 + 1))).drop p) = some i := by
        split
        · exact hfound
        · rw [← kept, ← kept_next hhi]
          exact findText_append hfound _
      rw [hlater]
      exact proceed_part hb h hfound (by omega) hhi rfl hstart rfl ih
    | none =>
      rw [hlen]
      by_cases hlimit : seen body (k + 1) - p > headerLimit
      · simp only [if_pos hlimit]
        rw [← kept, hfound]
      · simp only [if_neg hlimit]
        rw [← kept]
        have hstate' : s.state ≠ .preamble := by
          rw [hstate]
          rintro ⟨⟩
        rcases validateFrom_kept boundary h hhi hs hstate' with ⟨hend, hresult⟩ | ⟨hmore, file', hnext, hresult⟩
        · have hlast : seen body (k + 1 + 1) = seen body (k + 1) := by
            have hle := seen_le body (k + 1 + 1)
            omega
          rw [kept, hlast, ← kept, hfound, if_neg hlimit, ← hstart]
          exact hresult
        · rw [hresult, proceed_eq]
          simp only [step, hstate]
          have hlen' := length_kept body (k + 1 + 1) p
          have hsize : headerLimit < bufferSize := by decide
          have hseen : seen body (k + 1) = (k + 1) * bufferSize := by
            unfold seen at hmore ⊢
            omega
          cases hfound' : findText (crlf ++ crlf) (kept body (k + 1 + 1) p) with
          | some i =>
            have hlo' : (k + 1) * bufferSize < p + (i + 4) := by
              by_contra hin
              have hearlier := findText_take hfound' (show i + (crlf ++ crlf).length ≤ seen body (k + 1) - p by
                simp only [crlf, List.length_append, List.length_cons, List.length_nil]
                omega)
              rw [← kept_next hhi, ← hlen, List.take_left, hfound] at hearlier
              cases hearlier
            exact proceed_part hb hnext hfound' hlo' (by omega) rfl hstart rfl ih
          | none =>
            rw [hlen']
            by_cases hlimit' : seen body (k + 1 + 1) - p > headerLimit
            · simp only [if_pos hlimit']
            · simp only [if_neg hlimit']
              have hstate'' : (Scan.mk .headers s.start s.preambleCursor (kept body (k + 1 + 1) p)).state ≠ .preamble := by
                rintro ⟨⟩
              rcases validateFrom_kept boundary hnext (by omega) rfl hstate'' with ⟨-, hresult'⟩ | ⟨hmore', -⟩
              · rw [← hstart]
                exact hresult'
              · -- a second whole buffer is more than the limit
                have hseen' : seen body (k + 1 + 1) = (k + 1 + 1) * bufferSize := by
                  unfold seen at hmore' ⊢
                  omega
                rw [Nat.succ_mul, ← hseen] at hseen'
                omega

/-! ## 4. The whole check -/

theorem kept_one (body : Bytes) : kept body 1 0 = body.take bufferSize := by
  rw [kept, List.drop_zero, List.take_eq_take_iff, seen]
  omega

theorem opening_eq (size : Nat) (boundary body : Bytes) (cursor : Nat) : opening size boundary body cursor =
    match findInitialBoundary (firstMarker boundary) (body.take size) cursor with
    | none =>
      .error (if (body.take size).length > preambleLimit then multipartError else .read "empty multipart content")
    | some (e, true) =>
      if e = (firstMarker boundary).length + 2 ∧ (body.take size).drop e = crlf then
        .ok ⟨0, (body.take size).length⟩
      else opening size boundary body e
    | some (e, false) => afterOpening size boundary body (e - (firstMarker boundary).length - 2) e := by
  rw [opening]
  split
  · next hnone => rw [hnone]
  · next hclosing => rw [hclosing]
  · next hopen => rw [hopen]

/-- An opening delimiter is found in the first buffer or nowhere. -/
theorem proceed_opening (hb : HeaderText boundary) (h : Reading body file 1) (cursor : Nat) {s : Scan}
    (hstate : s.state = .preamble) (hcursor : s.preambleCursor = cursor) (hs : s.buffered = body.take bufferSize) :
    proceed boundary file s = opening bufferSize boundary body cursor := by
  have hseen : seen body 1 = (body.take bufferSize).length := by
    rw [seen, List.length_take]
    omega
  induction hleft : body.length - cursor using Nat.strongRecOn generalizing cursor s with
  | ind left ih =>
    rw [proceed_eq, opening_eq]
    simp only [step, hstate, hs, hcursor]
    cases hfound : findInitialBoundary (firstMarker boundary) (body.take bufferSize) cursor with
    | none =>
      by_cases hlimit : (body.take bufferSize).length > preambleLimit
      · simp only [if_pos hlimit]
      · -- nothing is left of a body with so short a first buffer
        have hrest : (file.fill bufferSize).1 = [] := by
          have hsize : preambleLimit < bufferSize := by decide
          obtain ⟨hbytes, -⟩ := file.fill_eq bufferSize
          rw [hbytes, h.rest, hseen, List.take_eq_nil_iff, List.drop_eq_nil_iff]
          rw [List.length_take] at hlimit ⊢
          omega
        simp only [if_neg hlimit]
        rw [validateFrom]
        split
        · rfl
        · next hfill =>
          rw [hfill] at hrest
          cases hrest
    | some found =>
      obtain ⟨e, closing⟩ := found
      have hbounds := initialFrom_bounds hfound
      rw [← hseen] at hbounds
      have hle := seen_le body 1
      cases closing with
      | true =>
        simp only [if_true, h.position, hseen]
        by_cases hsole : e = (firstMarker boundary).length + 2 ∧ (body.take bufferSize).drop e = crlf
        · simp only [if_pos hsole]
        · simp only [if_neg hsole]
          exact ih _ (by omega) e rfl rfl rfl rfl
      | false =>
        simp only [Bool.false_eq_true, if_false]
        refine proceed_headers hb _ e (by omega) file 0 _ h (by omega) hbounds.2 rfl rfl ?_
        rw [← kept_one, drop_kept, Nat.zero_add]

/-- **The check is the scan of the whole body**, however its reads are cut. -/
theorem validateMultipartBuffers_eq (hb : HeaderText boundary) (body : Bytes) (cuts : List Cut) :
    validateMultipartBuffers boundary (Source.new body cuts) = scan bufferSize boundary body := by
  have hnew : Reading body (Source.new body cuts) 0 := by
    refine ⟨?_, ?_⟩ <;> simp [Source.new, seen]
  obtain ⟨hbytes, hfirst⟩ := hnew.fill
  have hchunk : ((Source.new body cuts).fill bufferSize).1 = body.take bufferSize := by
    rw [hbytes, ← kept_one, kept]
    simp [seen]
  rw [validateMultipartBuffers, validateFrom, scan]
  split
  · next file' hfill =>
    rw [hfill] at hchunk
    rw [opening_eq, ← hchunk]
    cases hfound : findInitialBoundary (firstMarker boundary) [] 0 with
    | none => rfl
    | some found =>
      have hbounds := initialFrom_bounds hfound
      rw [List.length_nil] at hbounds
      omega
  · next b chunk file' hfill =>
    rw [hfill] at hchunk hfirst
    exact proceed_opening hb hfirst 0 rfl rfl hchunk

end Smartfire.Spooled
