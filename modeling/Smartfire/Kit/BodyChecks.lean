/-
  File:      Smartfire/Kit/BodyChecks.lean
  Subject:   The checks of a body that is read in pieces do not depend on the pieces.

  * `prescan_eq` -- the pass over a JSON body is that over the whole body without its comments;
  * `body_checks` -- that, and the check of a multipart body;
  * `longHeaders` -- headers that a scan in one buffer would take.
-/
import Smartfire.Kit.JsonScan
import Smartfire.Kit.MultipartReads

namespace Smartfire.Spooled

open Lib

/-! ## 1. JSON bodies -/

theorem scanJson_broken {state : JsonState} {s : Bytes} (h : ¬ Utf8 s) : scanJson state s = .error .parse :=
  if_neg fun hs => h (validUtf8_iff.mp hs.1)

/-- The valid front of a text is passed over, and the rest from the state behind it. -/
theorem scanJson_append (state : JsonState) {x : Bytes} (hx : Utf8 x) (y : Bytes) : scanJson state (x ++ y) =
    match x.foldlM JsonState.byte state with
    | none => .error .parse
    | some state' => scanJson state' y := by
  have hvalid : validUtf8 (x ++ y) = validUtf8 y := by
    rw [Bool.eq_iff_iff, validUtf8_iff, validUtf8_iff, hx.append_iff]
  rw [scanJson, hvalid, List.foldlM_append]
  cases x.foldlM JsonState.byte state with
  | none => simp
  | some state' => rfl

/-- **From a state on, what is retained stands for what was not passed over.** -/
theorem prescanFrom_eq (input : JsonComments) (state : JsonState) (retained : Bytes) (hshort : retained.length ≤ 3)
    (hbroken : retained ≠ [] → ¬ Utf8 retained) : prescanFrom input state retained =
      match input.rest with
      | none => .error .parse
      | some s => scanJson state (retained ++ s) := by
  have hroom : ∀ x : Bytes, x.length ≤ 3 → 0 < jsonBuffer - x.length := by
    intro x hx
    unfold jsonBuffer
    omega
  fun_induction prescanFrom input state retained with
  | case1 input state retained h => rw [JsonComments.rest_of_read_none h]
  | case2 input state retained input' h hne =>
    rw [(JsonComments.rest_of_read h).2.2 rfl (hroom retained hshort)]
    exact (scanJson_broken (by rw [List.append_nil]; exact hbroken hne)).symm
  | case3 input state retained input' h hempty =>
    rw [(JsonComments.rest_of_read h).2.2 rfl (hroom retained hshort), not_not.mp hempty]
    rfl
  | case4 input state retained b part input' h hno =>
    rw [(JsonComments.rest_of_read h).1]
    cases input'.rest with
    | none => rfl
    | some s =>
      have hwhole := not_utf8_of_validUpTo hno s
      rw [List.append_assoc] at hwhole
      exact (scanJson_broken hwhole).symm
  | case5 input state retained b part input' h valid hvalid hstate =>
    rw [(JsonComments.rest_of_read h).1]
    cases input'.rest with
    | none => rfl
    | some s =>
      have hfront := scanJson_append state (validUpTo_spec hvalid).1 ((retained ++ b :: part).drop valid ++ s)
      rw [← List.append_assoc, List.take_append_drop, hstate, List.append_assoc] at hfront
      exact hfront.symm
  | case6 input state retained b part input' h valid hvalid state' hstate ih =>
    obtain ⟨hfrontValid, hle, hthree, hrest⟩ := validUpTo_spec hvalid
    rw [(JsonComments.rest_of_read h).1, ih (by rw [List.length_drop]; omega) hrest]
    cases input'.rest with
    | none => rfl
    | some s =>
      have hfront := scanJson_append state hfrontValid ((retained ++ b :: part).drop valid ++ s)
      rw [← List.append_assoc, List.take_append_drop, hstate, List.append_assoc] at hfront
      exact hfront.symm

/-- **The pass is that over the whole body without its comments**, however its reads are cut. -/
theorem prescan_eq (body : Bytes) (cuts : List Cut) : prescan (Source.new body cuts) = scanBody body := by
  rw [prescan, prescanFrom_eq _ _ _ (by decide) (fun h => absurd rfl h), scanBody]
  rfl

/-! ## 2. The checks -/

/-- **However a body is cut into reads**, its check as a multipart body is the scan of the whole of it, and its pass as
a JSON body is that over the whole of it without its comments, which are taken out alike. -/
theorem body_checks {boundary : Bytes} (hb : HeaderText boundary) (body : Bytes) (cuts : List Cut) :
    validateMultipartBuffers boundary (Source.new body cuts) = scan bufferSize boundary body ∧
      prescan (Source.new body cuts) = scanBody body ∧
      ∀ sizes, (JsonComments.new (Source.new body cuts)).readAll sizes 0 = strip false false body :=
  ⟨validateMultipartBuffers_eq hb body cuts, prescan_eq body cuts, fun sizes => JsonComments.readAll_eq sizes 0 _⟩

theorem body_checks_sample :
    validateMultipartBuffers (text "b") (Source.new (text "--b\r\n\r\n\r\n--b--") [.short 3, .interrupted, .short 0]) =
      scan bufferSize (text "b") (text "--b\r\n\r\n\r\n--b--") :=
  (body_checks (forall_mem_of_all (by decide)) _ _).1

/-- A body of one part, of which only the headers hold anything. -/
def onePart (headers : Bytes) : Bytes :=
  byte '-' :: byte '-' :: byte 'b' :: 0x0D :: 0x0A :: (headers ++ (crlf ++ crlf ++ (crlf ++ text "--b--")))

def longHeaders : Bytes := List.replicate bufferSize (byte 'a')

/-- An opening delimiter in front is found, whatever comes. -/
theorem findInitialBoundary_front (rest : Bytes) :
    findInitialBoundary (firstMarker (text "b")) (byte '-' :: byte '-' :: byte 'b' :: 0x0D :: 0x0A :: rest) 0 =
      some (5, false) := by
  have hfind : findText (firstMarker (text "b")).bytes (byte '-' :: byte '-' :: byte 'b' :: 0x0D :: 0x0A :: rest) =
      some 0 := by
    have hprefix : (firstMarker (text "b")).bytes.isPrefixOf
        (byte '-' :: byte '-' :: byte 'b' :: 0x0D :: 0x0A :: rest) = true :=
      List.isPrefixOf_iff_prefix.mpr ⟨0x0D :: 0x0A :: rest, rfl⟩
    rw [findText, if_pos hprefix]
  have hboundary : findBoundary (firstMarker (text "b")) (byte '-' :: byte '-' :: byte 'b' :: 0x0D :: 0x0A :: rest) =
      some (5, false) := by
    rw [findBoundary.eq_def, hfind]
    rfl
  rw [findInitialBoundary, initialFrom.eq_def, List.drop_zero]
  split
  · next hnone =>
    rw [hboundary] at hnone
    cases hnone
  · next hsome =>
    rw [hboundary] at hsome
    obtain ⟨rfl, rfl⟩ := Prod.mk.inj (Option.some.inj hsome)
    rfl

section OnePart

variable {x : Bytes}

theorem length_onePart : (onePart x).length = x.length + 16 := by
  have htail : (crlf ++ crlf ++ (crlf ++ text "--b--")).length = 11 := rfl
  rw [onePart]
  simp only [List.length_cons]
  rw [List.length_append, htail]

/-- Headers that do not end in the first buffer are given up. -/
theorem onePart_given_up (hx : (0x0D : UInt8) ∉ x) (hlen : x.length = bufferSize) :
    scan bufferSize (text "b") (onePart x) = .error multipartError := by
  have hpart : (onePart x).length = x.length + 16 := length_onePart
  have hsize : bufferSize = 1048576 := rfl
  have hlimit : headerLimit = 65536 := rfl
  have hend : headersEnd bufferSize (onePart x).length 5 = bufferSize := by
    have hbuffer : bufferEnd bufferSize (onePart x).length 5 = bufferSize := by
      have hdiv : (5 - 1) / bufferSize = 0 := Nat.div_eq_of_lt (by omega)
      rw [bufferEnd, hdiv]
      omega
    rw [headersEnd, hbuffer, if_pos (by omega)]
  obtain ⟨n, hn, hfits⟩ : ∃ n, bufferSize = n + 5 ∧ n ≤ x.length := ⟨bufferSize - 5, by omega, by omega⟩
  have htake : (onePart x).take bufferSize = byte '-' :: byte '-' :: byte 'b' :: 0x0D :: 0x0A :: x.take n := by
    rw [hn, onePart]
    simp only [List.take_succ_cons]
    rw [List.take_append_of_le_length hfits]
  have hfind : findText (crlf ++ crlf) (x.take n) = none := by
    have hmem : (0x0D : UInt8) ∉ x.take n := fun h => hx ((List.take_sublist n x).subset h)
    have hbehind : findText (0x0D :: [0x0A, 0x0D, 0x0A]) (x.take n ++ []) = none := findText_behind hmem
    rw [List.append_nil] at hbehind
    exact hbehind
  rw [scan, opening_eq, htake, findInitialBoundary_front]
  dsimp only
  rw [afterOpening_eq, hend, htake]
  simp only [List.drop_succ_cons, List.drop_zero]
  rw [hfind, if_pos (by omega)]

/-- In one buffer for the whole body they are taken. -/
theorem onePart_taken (hx : (0x0D : UInt8) ∉ x) :
    scan (onePart x).length (text "b") (onePart x) = .ok ⟨0, (onePart x).length⟩ := by
  have hpart : (onePart x).length = x.length + 16 := length_onePart
  have hbuffer : ∀ p, 1 ≤ p → p ≤ (onePart x).length + 1 →
      bufferEnd (onePart x).length (onePart x).length p = (onePart x).length := by
    intro p h₁ h₂
    rw [bufferEnd]
    omega
  have hend : headersEnd (onePart x).length (onePart x).length 5 = (onePart x).length := by
    rw [headersEnd, hbuffer 5 (by omega) (by omega)]
    split
    · rfl
    · exact hbuffer _ (by omega) (by omega)
  rw [scan, opening_eq, List.take_length, onePart, findInitialBoundary_front]
  dsimp only
  rw [← onePart, afterOpening_eq, hend, List.take_length]
  have hdrop : (onePart x).drop 5 = x ++ (crlf ++ crlf ++ (crlf ++ text "--b--")) := rfl
  have hfind : findText (crlf ++ crlf) ((onePart x).drop 5) = some (0 + x.length) := by
    rw [hdrop]
    exact findText_behind hx
  have hlast : (onePart x).drop (5 + (0 + x.length + 4)) = crlf ++ text "--b--" := by
    have hsum : 5 + (0 + x.length + 4) = 5 + (x.length + 4) := by omega
    rw [hsum, ← List.drop_drop, hdrop, List.drop_append]
    simp [crlf]
  have hclosing : firstBoundary (subsequentMarker (text "b")).bytes (crlf ++ text "--b--") = some (7, true) := by
    decide
  rw [hfind]
  dsimp only
  rw [hlast, hclosing, behindPart, hbuffer _ (by omega) (by omega)]
  rfl

end OnePart

/-- The buffers' ends decide: in one buffer for the whole body these headers would be taken. -/
theorem longHeaders_given_up :
    validateMultipartBuffers (text "b") (Source.new (onePart longHeaders) []) = .error multipartError ∧
      scan (onePart longHeaders).length (text "b") (onePart longHeaders) = .ok ⟨0, (onePart longHeaders).length⟩ := by
  have hmem : (0x0D : UInt8) ∉ longHeaders := fun h => absurd (List.eq_of_mem_replicate h) (by decide)
  constructor
  · rw [validateMultipartBuffers_eq (forall_mem_of_all (by decide)), onePart_given_up hmem List.length_replicate]
  · exact onePart_taken hmem

end Smartfire.Spooled
