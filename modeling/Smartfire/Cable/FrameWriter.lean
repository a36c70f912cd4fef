/-
  File:      Smartfire/Cable/FrameWriter.lean
  Subject:   Writing frames to a socket that takes them in parts (crates/cable/src/socket.rs).

  A write hands the socket a list of slices, and the socket takes as many bytes of them as it likes.
  What it will do with the next writes is a list of offers; where the list ends, it stalls.

  A writer does not know that a write failed: the paths that close a connection send a last frame and
  then a close frame, whatever became of the first. What is behind a write that failed half-way, a
  client cannot tell from the rest of a frame.

  * `header`, `sendFrames`, `control` -- the slices of each kind of write;
  * `advanceSlices`, `writeAllVectored`, `flush` -- giving a socket all of the slices;
  * `Writing`, `Writing.run` -- a connection's writes, each made whatever the last one returned;
  * `clientFrame`, `clientFrames` -- how a client reads the stream back;
  * `clientFrames_run` -- **whatever a socket takes at a time, the client reads the frames before the
    first failure in order, each once and whole**, whatever is written behind it.

  What `flate2` makes of a text is a parameter.
-/
import Smartfire.Cable.Framing

namespace Smartfire.Framing

open Lib (Bytes bigEndian fromBigEndian)

/-! ## 1. Frames as slices -/

/-- `header`, as far as it is used. -/
def header (opcode : UInt8) (compressed : Bool) (len : Nat) : Bytes :=
  (0x80 ||| (if compressed then 0x40 else 0) ||| opcode) ::
    if len < 126 then [UInt8.ofNat len]
    else if len ≤ 65535 then 126 :: bigEndian 2 len
    else 127 :: bigEndian 8 len

/-- `MIN_COMPRESSED` -/
def minCompressed : Nat := 256

/-- `Frame::deflated`, of a text's bytes. -/
def deflated (compress : Bytes → Bytes) (text : Bytes) : Option Bytes :=
  if minCompressed ≤ text.length then some (compress text) else none

/-- A text frame's payload, and whether it is compressed. -/
def payload (deflate : Bool) (compress : Bytes → Bytes) (text : Bytes) : Bool × Bytes :=
  match if deflate then deflated compress text else none with
  | some deflated => (true, deflated)
  | none => (false, text)

/-- `Writer::send_frames`: the slices. -/
def sendFrames (deflate : Bool) (compress : Bytes → Bytes) (frames : List Bytes) : List Bytes :=
  (frames.map (payload deflate compress)).flatMap fun p => [header opText p.1 p.2.length, p.2]

/-- `Writer::control`: the slices. -/
def controlSlices (opcode : UInt8) (payload : Bytes) : List Bytes := [header opcode false payload.length, payload]

/-! ## 2. The socket -/

/-- What the socket does when it is next asked: it takes so many bytes at most, fails, or takes nothing
    for longer than a write may wait. -/
inductive Offer where
  | takes (n : Nat)
  | fails
  | stalls
deriving DecidableEq, Repr

inductive WriteError where
  | failed
  | writeZero
  | timedOut
deriving DecidableEq, Repr

/-- How a write ends: the bytes the socket took, and what it will do next. -/
structure Written where
  result : Except WriteError Unit
  bytes : Bytes
  offers : List Offer

/-- `IoSlice::advance_slices`; it is never asked to go behind the end. -/
def advanceSlices : List Bytes → Nat → List Bytes
  | [], _ => []
  | slice :: slices, n =>
    if slice.length ≤ n then advanceSlices slices (n - slice.length) else slice.drop n :: slices

/-- `write_all_vectored` -/
def writeAllVectored : List Bytes → List Offer → Written
  | [], offers => ⟨.ok (), [], offers⟩
  | _ :: _, [] => ⟨.error .timedOut, [], []⟩
  | _ :: _, .fails :: offers => ⟨.error .failed, [], offers⟩
  | _ :: _, .stalls :: offers => ⟨.error .timedOut, [], offers⟩
  | slice :: slices, .takes n :: offers =>
    let written := min n (slice :: slices).flatten.length
    if written = 0 then ⟨.error .writeZero, [], offers⟩
    else
      let more := writeAllVectored (advanceSlices (slice :: slices) written) offers
      { more with bytes := (slice :: slices).flatten.take written ++ more.bytes }

def flush : List Offer → Written
  | [] => ⟨.error .timedOut, [], []⟩
  | .fails :: offers => ⟨.error .failed, [], offers⟩
  | .stalls :: offers => ⟨.error .timedOut, [], offers⟩
  | .takes _ :: offers => ⟨.ok (), [], offers⟩

/-- What is done behind a write that went well. -/
def Written.andThen (w : Written) (next : List Offer → Written) : Written :=
  match w.result with
  | .error _ => w
  | .ok () => { next w.offers with bytes := w.bytes ++ (next w.offers).bytes }

/-- `Writer::write` -/
def write (slices : List Bytes) (offers : List Offer) : Written := (writeAllVectored slices offers).andThen flush

/-! ## 3. A connection's writes -/

inductive Writing where
  | send (frames : List Bytes)
  | pong (payload : Bytes)
  | close (code : Nat)
  | closeReply (code : Option Nat)

section Run

variable (deflate : Bool) (compress : Bytes → Bytes)

def Writing.slices : Writing → List Bytes
  | .send frames => sendFrames deflate compress frames
  | .pong payload => controlSlices opPong payload
  | .close code => controlSlices opClose (bigEndian 2 code)
  | .closeReply (some code) => controlSlices opClose (bigEndian 2 code)
  | .closeReply none => controlSlices opClose []

/-- A connection's writes one after the other, and how each of them ends. -/
def Writing.run : List Writing → List Offer → List Written
  | [], _ => []
  | w :: ws, offers =>
    let done := write (w.slices deflate compress) offers
    done :: Writing.run ws done.offers

/-- The bytes the socket took. -/
def taken (done : List Written) : Bytes := done.flatMap Written.bytes

/-- No write failed. -/
def Went (done : List Written) : Prop := ∀ d ∈ done, d.result = .ok ()

end Run

/-! ## 4. The client -/

theorem length_of_payloadLength {bits : UInt8} {s rest : Bytes} {len : Nat}
    (h : payloadLength bits s = .ok (len, rest)) : rest.length ≤ s.length := by
  unfold payloadLength at h
  split at h
  · obtain ⟨-, rfl⟩ := readUint_ok.mp h
    simp
  split at h
  · obtain ⟨-, rfl⟩ := readUint_ok.mp h
    simp
  · obtain ⟨-, rfl⟩ := Prod.mk.inj (Except.ok.inj h)
    exact Nat.le_refl _

theorem payloadLength_append {bits : UInt8} {s rest : Bytes} {len : Nat}
    (h : payloadLength bits s = .ok (len, rest)) (t : Bytes) : payloadLength bits (s ++ t) = .ok (len, rest ++ t) := by
  unfold payloadLength at h ⊢
  split at h
  · next hbits =>
    obtain ⟨hlen, rfl⟩ := readUint_ok.mp h
    rw [if_pos hbits, List.append_assoc]
    exact readUint_ok.mpr ⟨hlen, rfl⟩
  next hmedium =>
  split at h
  · next hbits =>
    obtain ⟨hlen, rfl⟩ := readUint_ok.mp h
    rw [if_neg hmedium, if_pos hbits, List.append_assoc]
    exact readUint_ok.mpr ⟨hlen, rfl⟩
  · next hlong =>
    obtain ⟨rfl, rfl⟩ := Prod.mk.inj (Except.ok.inj h)
    rw [if_neg hmedium, if_neg hlong]

/-- A length's bits leave the mask bit alone. -/
theorem clearBit {bits : UInt8} (h : bits < 128) : bits &&& 0x80 = 0 ∧ bits &&& 0x7f = bits := by
  have hall : ∀ n : Fin 128, UInt8.ofNat n &&& 0x80 = 0 ∧ UInt8.ofNat n &&& 0x7f = UInt8.ofNat n := by
    decide +kernel
  have hn : bits = UInt8.ofNat bits.toNat := by simp
  rw [hn]
  exact hall ⟨bits.toNat, h⟩

/-- A server frame: its opcode, whether it is compressed, and its payload. -/
structure ServerMessage where
  opcode : UInt8
  compressed : Bool
  payload : Bytes
deriving DecidableEq, Repr

/-- One frame, as a client reads it: final, unmasked, its length in the form the header names. -/
def clientFrame : Bytes → Option (ServerMessage × Bytes)
  | first :: second :: s =>
    if first &&& 0x80 = 0 ∨ second &&& 0x80 ≠ 0 then none
    else
      match payloadLength (second &&& 0x7f) s with
      | .error _ => none
      | .ok (len, s) =>
        if s.length < len then none
        else some (⟨first &&& 0x0f, first &&& 0x40 != 0, s.take len⟩, s.drop len)
  | _ => none

theorem length_of_clientFrame {m : ServerMessage} {s rest : Bytes} (h : clientFrame s = some (m, rest)) :
    rest.length < s.length := by
  unfold clientFrame at h
  split at h
  · next first second s =>
    split at h
    · cases h
    cases hlength : payloadLength (second &&& 0x7f) s with
    | error e => simp [hlength] at h
    | ok read =>
      have hle := length_of_payloadLength hlength
      simp only [hlength] at h
      split at h
      · cases h
      · obtain ⟨-, rfl⟩ := Prod.mk.inj (Option.some.inj h)
        simp
        omega
  · cases h

/-- The whole frames at the front of a stream. -/
def clientFrames (s : Bytes) : List ServerMessage :=
  match h : clientFrame s with
  | none => []
  | some (m, rest) => m :: clientFrames rest
termination_by s.length
decreasing_by exact length_of_clientFrame h

theorem clientFrames_none {s : Bytes} (h : clientFrame s = none) : clientFrames s = [] := by
  rw [clientFrames]
  split <;> simp_all

theorem clientFrames_some {m : ServerMessage} {s rest : Bytes} (h : clientFrame s = some (m, rest)) :
    clientFrames s = m :: clientFrames rest := by
  rw [clientFrames]
  split <;> simp_all

/-- More of the stream does not change what has been read. -/
theorem clientFrame_append {m : ServerMessage} {s rest : Bytes} (h : clientFrame s = some (m, rest)) (t : Bytes) :
    clientFrame (s ++ t) = some (m, rest ++ t) := by
  unfold clientFrame at h
  split at h
  swap
  · cases h
  next first second s =>
  split at h
  · cases h
  next hbits =>
  cases hlength : payloadLength (second &&& 0x7f) s with
  | error e => simp [hlength] at h
  | ok read =>
    simp only [hlength] at h
    split at h
    · cases h
    next hle =>
    obtain ⟨rfl, rfl⟩ := Prod.mk.inj (Option.some.inj h)
    have hmore : ¬ (read.2 ++ t).length < read.1 := by
      rw [List.length_append]
      omega
    simp only [List.cons_append, clientFrame, hbits, if_false, payloadLength_append hlength t, hmore]
    rw [List.take_append_of_le_length (by omega), List.drop_append_of_le_length (by omega)]

/-! ## 5. What is written is read -/

/-- A frame on the wire. -/
def ServerMessage.wire (m : ServerMessage) : Bytes := header m.opcode m.compressed m.payload.length ++ m.payload

/-- A client reads a frame back, and what is behind it stays. -/
theorem clientFrame_wire {m : ServerMessage} (hopcode : m.opcode < 16) (hlen : m.payload.length < 2 ^ 64)
    (rest : Bytes) : clientFrame (m.wire ++ rest) = some (m, rest) := by
  obtain ⟨hfin, hcompressed, hop, -⟩ := firstByte_bits true m.compressed hopcode
  obtain ⟨form, hform, hheader⟩ : ∃ form : LengthForm, m.payload.length < form.bound ∧
      header m.opcode m.compressed m.payload.length =
        firstByte true m.compressed m.opcode :: form.bits m.payload.length :: form.bytes m.payload.length := by
    by_cases hshort : m.payload.length < 126
    · exact ⟨.short, hshort, by rw [header, if_pos hshort]; rfl⟩
    by_cases hmedium : m.payload.length ≤ 65535
    · exact ⟨.medium, Nat.lt_succ_of_le hmedium, by rw [header, if_neg hshort, if_pos hmedium]; rfl⟩
    · exact ⟨.long, hlen, by rw [header, if_neg hshort, if_neg hmedium]; rfl⟩
  obtain ⟨hmask, hbits⟩ := clearBit (LengthForm.bits_lt hform)
  have hfirst : firstByte true m.compressed m.opcode &&& 0x80 ≠ 0 := by simpa using hfin
  have hread := payloadLength_bytes hform (m.payload ++ rest)
  simp only [ServerMessage.wire, hheader, List.cons_append, List.append_assoc, clientFrame, hfirst, hmask, hbits,
    ne_eq, not_true_eq_false, or_self, if_false, hread, hop, hcompressed]
  simp

/-- **Any part of a stream of frames is read as the first of them**, and the whole stream as all. -/
theorem clientFrames_wire {ms : List ServerMessage} {bytes more : Bytes}
    (hms : ∀ m ∈ ms, m.opcode < 16 ∧ m.payload.length < 2 ^ 64) (h : bytes ++ more = ms.flatMap ServerMessage.wire) :
    clientFrames bytes <+: ms ∧ (more = [] → clientFrames bytes = ms) := by
  induction ms generalizing bytes with
  | nil =>
    obtain ⟨rfl, rfl⟩ := List.append_eq_nil_iff.mp h
    have hnone := clientFrames_none (s := []) rfl
    rw [hnone]
    exact ⟨List.prefix_refl [], fun _ => rfl⟩
  | cons m ms ih =>
    obtain ⟨hm, hrestOk⟩ := List.forall_mem_cons.mp hms
    have hfirst := clientFrame_wire hm.1 hm.2 (ms.flatMap ServerMessage.wire)
    cases hread : clientFrame bytes with
    | none =>
      rw [clientFrames_none hread]
      refine ⟨List.nil_prefix, ?_⟩
      rintro rfl
      rw [List.append_nil] at h
      rw [h, List.flatMap_cons, hfirst] at hread
      cases hread
    | some read =>
      have hwhole := clientFrame_append hread more
      rw [h, List.flatMap_cons, hfirst] at hwhole
      obtain ⟨rfl, hrest⟩ := Prod.mk.inj (Option.some.inj hwhole)
      obtain ⟨hfront, hall⟩ := ih hrestOk hrest.symm
      rw [clientFrames_some hread]
      exact ⟨List.prefix_cons_inj _ |>.mpr hfront, fun hmore => by rw [hall hmore]⟩

/-- **Whole frames at the front of a stream are read**, whatever is behind them. -/
theorem clientFrames_front {ms : List ServerMessage} (hms : ∀ m ∈ ms, m.opcode < 16 ∧ m.payload.length < 2 ^ 64)
    (rest : Bytes) : ms <+: clientFrames (ms.flatMap ServerMessage.wire ++ rest) := by
  induction ms with
  | nil => exact List.nil_prefix
  | cons m ms ih =>
    obtain ⟨hm, hrestOk⟩ := List.forall_mem_cons.mp hms
    have hfirst := clientFrame_wire hm.1 hm.2 (ms.flatMap ServerMessage.wire ++ rest)
    rw [List.flatMap_cons, List.append_assoc, clientFrames_some hfirst]
    exact List.prefix_cons_inj _ |>.mpr (ih hrestOk)

/-! ## 6. What the socket takes -/

theorem flatten_advanceSlices (slices : List Bytes) (n : Nat) :
    (advanceSlices slices n).flatten = slices.flatten.drop n := by
  induction slices generalizing n with
  | nil => simp [advanceSlices]
  | cons slice slices ih =>
    rw [advanceSlices, List.flatten_cons]
    split
    · next hle => rw [ih, List.drop_append, List.drop_eq_nil_of_le hle, List.nil_append]
    · rw [List.flatten_cons, List.drop_append_of_le_length (by omega)]

/-- The first slice has something left to write. -/
def Filled (slices : List Bytes) : Prop := ∀ slice ∈ slices.head?, slice ≠ []

theorem filled_advanceSlices (slices : List Bytes) (n : Nat) : Filled (advanceSlices slices n) := by
  induction slices generalizing n with
  | nil => exact fun _ h => by cases h
  | cons slice slices ih =>
    rw [advanceSlices]
    split
    · exact ih _
    · rintro _ ⟨⟩
      intro hnil
      have := List.drop_eq_nil_iff.mp hnil
      omega

/-- The socket has some of the bytes, from the first on, and all of them after a write that went well. -/
structure Written.Takes (w : Written) (bytes : Bytes) : Prop where
  some : ∃ more, w.bytes ++ more = bytes
  all : w.result = .ok () → w.bytes = bytes

theorem takes_writeAllVectored (slices : List Bytes) (offers : List Offer) :
    (writeAllVectored slices offers).Takes slices.flatten := by
  induction offers generalizing slices with
  | nil =>
    cases slices with
    | nil => exact ⟨⟨[], rfl⟩, fun _ => rfl⟩
    | cons slice slices => exact ⟨⟨_, rfl⟩, fun h => by cases h⟩
  | cons offer offers ih =>
    cases slices with
    | nil => exact ⟨⟨[], rfl⟩, fun _ => rfl⟩
    | cons slice slices =>
      cases offer with
      | fails => exact ⟨⟨_, rfl⟩, fun h => by cases h⟩
      | stalls => exact ⟨⟨_, rfl⟩, fun h => by cases h⟩
      | takes n =>
        rw [writeAllVectored]
        dsimp only
        split
        · exact ⟨⟨_, rfl⟩, fun h => by cases h⟩
        generalize min n (slice :: slices).flatten.length = written
        obtain ⟨⟨more, hmore⟩, hall⟩ := ih (advanceSlices (slice :: slices) written)
        rw [flatten_advanceSlices] at hmore hall
        refine ⟨⟨more, ?_⟩, fun hok => ?_⟩
        · rw [List.append_assoc, hmore, List.take_append_drop]
        · rw [hall hok, List.take_append_drop]

theorem takes_andThen {w : Written} {next : List Offer → Written} {bytes more : Bytes} (h : w.Takes bytes)
    (hnext : ∀ offers, (next offers).Takes more) : (w.andThen next).Takes (bytes ++ more) := by
  unfold Written.andThen
  cases hresult : w.result with
  | error e =>
    obtain ⟨rest, hrest⟩ := h.some
    exact ⟨⟨rest ++ more, by rw [← List.append_assoc, hrest]⟩, fun hok => by rw [hresult] at hok; cases hok⟩
  | ok _ =>
    obtain ⟨⟨rest, hrest⟩, hall⟩ := hnext w.offers
    have hbytes := h.all hresult
    refine ⟨⟨rest, ?_⟩, fun hok => ?_⟩
    · simp only [hbytes, List.append_assoc, hrest]
    · simp only [hbytes, hall hok]

theorem takes_flush (offers : List Offer) : (flush offers).Takes [] := by
  cases offers with
  | nil => exact ⟨⟨[], rfl⟩, fun _ => rfl⟩
  | cons offer offers => cases offer <;> exact ⟨⟨[], rfl⟩, fun _ => rfl⟩

/-- Every write takes at least a byte, and the socket is asked for no more writes than there are bytes. -/
theorem writeAllVectored_ok {slices : List Bytes} {offers : List Offer} (hfilled : Filled slices)
    (hoffers : ∀ offer ∈ offers, ∃ n, offer = .takes (n + 1)) (hlen : slices.flatten.length ≤ offers.length) :
    (writeAllVectored slices offers).result = .ok () ∧
      ∃ used, offers = used ++ (writeAllVectored slices offers).offers ∧ used.length ≤ slices.flatten.length := by
  induction offers generalizing slices with
  | nil =>
    cases slices with
    | nil => exact ⟨rfl, [], rfl, Nat.le_refl _⟩
    | cons slice slices =>
      have hpos := List.length_pos_iff.mpr (hfilled slice rfl)
      rw [List.flatten_cons, List.length_append, List.length_nil] at hlen
      omega
  | cons offer offers ih =>
    cases slices with
    | nil => exact ⟨rfl, [], rfl, Nat.le_refl _⟩
    | cons slice slices =>
      obtain ⟨⟨n, rfl⟩, hmore⟩ := List.forall_mem_cons.mp hoffers
      have hpos := List.length_pos_iff.mpr (hfilled slice rfl)
      have htotal : 0 < (slice :: slices).flatten.length := by
        rw [List.flatten_cons, List.length_append]
        omega
      have hwritten : 0 < min (n + 1) (slice :: slices).flatten.length := by omega
      rw [writeAllVectored]
      simp only [Nat.ne_of_gt hwritten, if_false]
      rw [List.length_cons] at hlen
      generalize hn : min (n + 1) (slice :: slices).flatten.length = written at *
      have hleft : (advanceSlices (slice :: slices) written).flatten.length =
          (slice :: slices).flatten.length - written := by
        rw [flatten_advanceSlices, List.length_drop]
      obtain ⟨hok, used, hused, hle⟩ :=
        ih (filled_advanceSlices (slice :: slices) written) hmore (by omega)
      exact ⟨hok, .takes (n + 1) :: used, by rw [List.cons_append, ← hused], by rw [List.length_cons]; omega⟩

theorem write_ok {slices : List Bytes} {offers : List Offer} (hfilled : Filled slices)
    (hoffers : ∀ offer ∈ offers, ∃ n, offer = .takes (n + 1)) (hlen : slices.flatten.length + 1 ≤ offers.length) :
    (write slices offers).result = .ok () ∧
      ∃ used, offers = used ++ (write slices offers).offers ∧ used.length ≤ slices.flatten.length + 1 := by
  obtain ⟨hok, used, hused, hle⟩ := writeAllVectored_ok hfilled hoffers (by omega)
  cases hrest : (writeAllVectored slices offers).offers with
  | nil =>
    rw [hrest, List.append_nil] at hused
    rw [hused] at hlen
    omega
  | cons offer rest =>
    have hoffer : offer ∈ offers := by
      rw [hused, hrest]
      exact List.mem_append_right _ List.mem_cons_self
    obtain ⟨n, rfl⟩ := hoffers offer hoffer
    have hwrite : write slices offers = ⟨.ok (), (writeAllVectored slices offers).bytes ++ [], rest⟩ := by
      simp only [write, Written.andThen, hok, hrest]
      rfl
    rw [hwrite]
    refine ⟨rfl, used ++ [.takes (n + 1)], ?_, ?_⟩
    · rw [List.append_assoc, List.singleton_append, ← hrest]
      exact hused
    · rw [List.length_append, List.length_singleton]
      omega

/-! ## 7. A connection's writes -/

section Run

variable {deflate : Bool} {compress : Bytes → Bytes}

/-- The frames a write stands for. -/
def Writing.messages (deflate : Bool) (compress : Bytes → Bytes) : Writing → List ServerMessage
  | .send frames => (frames.map (payload deflate compress)).map fun p => ⟨opText, p.1, p.2⟩
  | .pong payload => [⟨opPong, false, payload⟩]
  | .close code => [⟨opClose, false, bigEndian 2 code⟩]
  | .closeReply (some code) => [⟨opClose, false, bigEndian 2 code⟩]
  | .closeReply none => [⟨opClose, false, []⟩]

theorem flatten_controlSlices (opcode : UInt8) (payload : Bytes) :
    (controlSlices opcode payload).flatten = (ServerMessage.mk opcode false payload).wire := by
  simp [controlSlices, ServerMessage.wire]

theorem flatten_slices (w : Writing) :
    (w.slices deflate compress).flatten = (w.messages deflate compress).flatMap ServerMessage.wire := by
  cases w with
  | send frames =>
    simp only [Writing.slices, sendFrames, Writing.messages]
    generalize frames.map (payload deflate compress) = payloads
    induction payloads with
    | nil => rfl
    | cons p payloads ih =>
      rw [List.flatMap_cons, List.flatten_append, ih, List.map_cons, List.flatMap_cons]
      simp [ServerMessage.wire]
  | pong payload => simp [Writing.slices, Writing.messages, flatten_controlSlices]
  | close code => simp [Writing.slices, Writing.messages, flatten_controlSlices]
  | closeReply code => cases code <;> simp [Writing.slices, Writing.messages, flatten_controlSlices]

theorem filled_slices (w : Writing) : Filled (w.slices deflate compress) := by
  have hheader (opcode : UInt8) (compressed : Bool) (len : Nat) : header opcode compressed len ≠ [] :=
    List.cons_ne_nil _ _
  have hcontrol (opcode : UInt8) (payload : Bytes) : Filled (controlSlices opcode payload) := by
    rintro _ ⟨⟩
    exact hheader _ _ _
  cases w with
  | send frames =>
    cases frames with
    | nil => exact fun _ h => by cases h
    | cons text frames =>
      rintro _ ⟨⟩
      exact hheader _ _ _
  | pong payload => exact hcontrol _ _
  | close code => exact hcontrol _ _
  | closeReply code => cases code <;> exact hcontrol _ _

theorem opcode_messages {w : Writing} {m : ServerMessage} (h : m ∈ w.messages deflate compress) :
    m.opcode < 16 := by
  cases w with
  | send frames =>
    obtain ⟨p, -, rfl⟩ := List.mem_map.mp h
    exact (by decide : opText < 16)
  | pong payload => exact List.mem_singleton.mp h ▸ (by decide : opPong < 16)
  | close code => exact List.mem_singleton.mp h ▸ (by decide : opClose < 16)
  | closeReply code => cases code <;> exact List.mem_singleton.mp h ▸ (by decide : opClose < 16)

theorem takes_write (w : Writing) (offers : List Offer) :
    (write (w.slices deflate compress) offers).Takes
      ((w.messages deflate compress).flatMap ServerMessage.wire) := by
  have htakes := takes_andThen (takes_writeAllVectored (w.slices deflate compress) offers) takes_flush
  rwa [flatten_slices, List.append_nil] at htakes

/-- What the writes put on the wire. -/
def wires (deflate : Bool) (compress : Bytes → Bytes) (ws : List Writing) : Bytes :=
  (ws.flatMap (Writing.messages deflate compress)).flatMap ServerMessage.wire

theorem wires_cons (w : Writing) (ws : List Writing) :
    wires deflate compress (w :: ws) =
      (w.messages deflate compress).flatMap ServerMessage.wire ++ wires deflate compress ws := by
  rw [wires, List.flatMap_cons, List.flatMap_append]
  rfl

/-- **Writes that go well leave their frames**, and the next one a part of what is still to come. -/
theorem taken_run (ws : List Writing) (offers : List Offer) (k : Nat)
    (h : Went ((Writing.run deflate compress ws offers).take k)) :
    taken ((Writing.run deflate compress ws offers).take k) = wires deflate compress (ws.take k) ∧
      ∃ more, taken ((Writing.run deflate compress ws offers).take (k + 1)) ++ more = wires deflate compress ws := by
  induction ws generalizing offers k with
  | nil => exact ⟨by rw [Writing.run, List.take_nil, List.take_nil]; rfl, [], rfl⟩
  | cons w ws ih =>
    have htakes := @takes_write deflate compress w offers
    rw [Writing.run] at h ⊢
    rw [wires_cons]
    cases k with
    | zero =>
      obtain ⟨more, hmore⟩ := htakes.some
      refine ⟨rfl, more ++ wires deflate compress ws, ?_⟩
      rw [← hmore]
      simp [taken]
    | succ k =>
      obtain ⟨hfirst, hrest⟩ := List.forall_mem_cons.mp h
      obtain ⟨hwhole, more, hmore⟩ := ih _ k hrest
      have hbytes := htakes.all hfirst
      refine ⟨?_, more, ?_⟩
      · rw [List.take_succ_cons, List.take_succ_cons, wires_cons, ← hwhole, ← hbytes]
        rfl
      · rw [List.take_succ_cons, ← hmore, ← hbytes]
        simp [taken]

theorem run_ok {ws : List Writing} {offers : List Offer} (hoffers : ∀ offer ∈ offers, ∃ n, offer = .takes (n + 1))
    (hlen : (ws.map fun w => (w.slices deflate compress).flatten.length + 1).sum ≤ offers.length) :
    Went (Writing.run deflate compress ws offers) := by
  induction ws generalizing offers with
  | nil => exact fun _ hd => by cases hd
  | cons w ws ih =>
    rw [List.map_cons, List.sum_cons] at hlen
    obtain ⟨hok, used, hused, hle⟩ := write_ok (filled_slices w) hoffers (Nat.le_trans (Nat.le_add_right _ _) hlen)
    have hrest : ∀ offer ∈ (write (w.slices deflate compress) offers).offers, ∃ n, offer = .takes (n + 1) :=
      fun offer hoffer => hoffers offer (hused ▸ List.mem_append_right _ hoffer)
    have hlength := congrArg List.length hused
    rw [List.length_append] at hlength
    exact List.forall_mem_cons.mpr ⟨hok, ih hrest (by omega)⟩

theorem length_run (ws : List Writing) (offers : List Offer) :
    (Writing.run deflate compress ws offers).length = ws.length := by
  induction ws generalizing offers with
  | nil => rfl
  | cons w ws ih => rw [Writing.run, List.length_cons, List.length_cons, ih]

end Run

/-- **Whatever a socket takes at a time, the client reads the frames before the first failure in order,
    each once and whole**, whatever is written behind it. What the socket has when a write has failed
    reads as a first part of the frames, and as all of them when none has. No write fails while the
    socket takes something each time it is asked. -/
theorem clientFrames_run (deflate : Bool) (compress : Bytes → Bytes) (ws : List Writing) (offers : List Offer)
    (hws : ∀ w ∈ ws, ∀ m ∈ w.messages deflate compress, m.payload.length < 2 ^ 64) :
    let done := Writing.run deflate compress ws offers
    let messages := fun ws : List Writing => ws.flatMap (Writing.messages deflate compress)
    (∀ k, Went (done.take k) →
      messages (ws.take k) <+: clientFrames (taken done) ∧
        clientFrames (taken (done.take (k + 1))) <+: messages ws) ∧
      (Went done → clientFrames (taken done) = messages ws) ∧
      ((∀ offer ∈ offers, ∃ n, offer = .takes (n + 1)) →
        (ws.map fun w => (w.slices deflate compress).flatten.length + 1).sum ≤ offers.length → Went done) := by
  intro done messages
  have hmessages : ∀ ws' ⊆ ws, ∀ m ∈ messages ws', m.opcode < 16 ∧ m.payload.length < 2 ^ 64 := by
    intro ws' hsub m hm
    obtain ⟨w, hw, hmw⟩ := List.mem_flatMap.mp hm
    exact ⟨opcode_messages hmw, hws w (hsub hw) m hmw⟩
  have hfront : ∀ k, Went (done.take k) →
      messages (ws.take k) <+: clientFrames (taken done) ∧
        clientFrames (taken (done.take (k + 1))) <+: messages ws := by
    intro k hk
    obtain ⟨hwhole, more, hmore⟩ := taken_run ws offers k hk
    refine ⟨?_, (clientFrames_wire (hmessages ws (List.Subset.refl ws)) hmore).1⟩
    have hsplit : taken done = taken (done.take k) ++ taken (done.drop k) := by
      rw [taken, taken, taken, ← List.flatMap_append, List.take_append_drop]
    rw [hsplit, hwhole]
    exact clientFrames_front (hmessages (ws.take k) (List.take_subset k ws)) _
  refine ⟨hfront, fun hall => ?_, run_ok⟩
  have hlen : done.length = ws.length := length_run ws offers
  have htake : done.take ws.length = done := List.take_of_length_le (Nat.le_of_eq hlen)
  have htake' : done.take (ws.length + 1) = done := List.take_of_length_le (by omega)
  obtain ⟨hle, hge⟩ := hfront ws.length (htake.symm ▸ hall)
  rw [List.take_length] at hle
  rw [htake'] at hge
  exact hge.eq_of_length_le hle.length_le

/-- A ping's answer, a last text that stalls after three of its bytes, and a close frame behind it: the
    client has the answer, and takes the close frame for more of the text. -/
theorem clientFrames_run_sample :
    let done := Writing.run false id [.pong [1, 2], .send [[97, 98, 99, 100, 101, 102]], .close 1000]
      [.takes 3, .takes 1, .takes 9, .takes 3, .stalls, .takes 9, .takes 9]
    done.map Written.result = [.ok (), .error .timedOut, .ok ()] ∧
      [⟨opPong, false, [1, 2]⟩] <+: clientFrames (taken done) ∧
      clientFrames (taken (done.take 2)) <+:
        [⟨opPong, false, [1, 2]⟩, ⟨opText, false, [97, 98, 99, 100, 101, 102]⟩, ⟨opClose, false, [3, 232]⟩] := by
  intro done
  have hws : ∀ w ∈ [Writing.pong [1, 2], .send [[97, 98, 99, 100, 101, 102]], .close 1000],
      ∀ m ∈ w.messages false id, m.payload.length < 2 ^ 64 := by
    refine List.forall_mem_cons.mpr ⟨?_, List.forall_mem_cons.mpr ⟨?_, List.forall_mem_singleton.mpr ?_⟩⟩
    · exact List.forall_mem_singleton.mpr (by decide)
    · exact List.forall_mem_singleton.mpr (by decide)
    · exact List.forall_mem_singleton.mpr (by decide)
  have hwent : Went (done.take 1) := List.forall_mem_singleton.mpr rfl
  exact ⟨rfl, (clientFrames_run false id _ _ hws).1 1 hwent⟩

end Smartfire.Framing
