/-
  File:      Smartfire/Cable/Framing.lean
  Subject:   Reading a client's WebSocket frames (crates/cable/src/socket.rs,
             crates/cable/src/connection.rs).

  The stream is the bytes a client sends until it closes. A read that finds too few of them fails
  with `eof`; every other failure breaks the protocol and says how.

  * `frame` -- one frame, unmasked; `feed` -- what a frame adds to the message so far, and what the
    connection is told; `next`, `deliver` -- the loops over them;
  * `Encodes` -- the encodings of a frame: any mask, any of the three forms of a length that hold it;
  * `frame_encode`, `frame_ok` -- **a frame is read from its encodings and from nothing else**;
  * `Refused`, `frame_protocol_iff` -- the headers that are refused, each under its message.

  What `flate2` makes of compressed data is a parameter.
-/
import Smartfire.Lib.BigEndian
import Smartfire.Lib.Utf8

namespace Smartfire.Framing

open Lib (Bytes bigEndian fromBigEndian)

/-! ## 1. Frames -/

/-- `MAX_MESSAGE` -/
def maxMessage : Nat := 2 ^ 20

def opContinuation : UInt8 := 0x0
def opText : UInt8 := 0x1
def opBinary : UInt8 := 0x2
def opClose : UInt8 := 0x8
def opPing : UInt8 := 0x9
def opPong : UInt8 := 0xA

/-- Why a read fails: the stream ended, or the client broke the protocol. -/
inductive Failure where
  | eof
  | protocol (message : String)
deriving DecidableEq, Repr

/-- FIN, RSV1, opcode and the unmasked payload. -/
structure RawFrame where
  fin : Bool
  rsv1 : Bool
  opcode : UInt8
  payload : Bytes
deriving DecidableEq, Repr

/-- `read_exact`, with what is left of the stream. -/
def readExact (n : Nat) (s : Bytes) : Except Failure (Bytes × Bytes) :=
  if s.length < n then .error .eof else .ok (s.take n, s.drop n)

/-- `read_u16` and `read_u64`. -/
def readUint (k : Nat) (s : Bytes) : Except Failure (Nat × Bytes) :=
  (readExact k s).map fun read => (fromBigEndian read.1, read.2)

/-- The payload's length: in the header's last seven bits, or in the two or eight bytes behind. -/
def payloadLength (bits : UInt8) (s : Bytes) : Except Failure (Nat × Bytes) :=
  if bits = 126 then readUint 2 s
  else if bits = 127 then readUint 8 s
  else .ok (bits.toNat, s)

/-- `*byte ^= mask[i % 4]`; done twice it undoes itself, so the client masks with it too. -/
def unmask (mask payload : Bytes) : Bytes := payload.mapIdx fun i b => b ^^^ mask.getD (i % 4) 0

/-- A length no frame may have, or a control frame that is split or marked as compressed. -/
def badLength (fin rsv1 : Bool) (opcode : UInt8) (len : Nat) : Bool :=
  (0x8 ≤ opcode && (125 < len || !fin || rsv1)) || maxMessage < len

/-- `Reader::frame` -/
def frame : Bytes → Except Failure (RawFrame × Bytes)
  | first :: second :: s =>
    let fin := first &&& 0x80 != 0
    let rsv1 := first &&& 0x40 != 0
    let opcode := first &&& 0x0f
    if first &&& 0x30 ≠ 0 then .error (.protocol "reserved bits set")
    else if second &&& 0x80 = 0 then .error (.protocol "client frames must be masked")
    else do
      let (len, s) ← payloadLength (second &&& 0x7f) s
      if badLength fin rsv1 opcode len then throw (.protocol "bad frame length")
      let (mask, s) ← readExact 4 s
      let (payload, s) ← readExact len s
      return (⟨fin, rsv1, opcode, unmask mask payload⟩, s)
  | _ => .error .eof

/-! ## 2. Messages -/

/-- What a client sent, as the connection is told. A text is its bytes. -/
inductive Incoming where
  | text (data : Bytes)
  | binary
  | ping (payload : Bytes)
  | pong
  | close (code : Option Nat)
  | invalid
deriving DecidableEq, Repr

/-- The connection hears nothing behind a close frame or a broken one. -/
def Incoming.closes : Incoming → Bool
  | .close _ | .invalid => true
  | _ => false

/-- `partial`: the message that has begun, with its opcode. -/
structure Unfinished where
  opcode : UInt8
  compressed : Bool
  data : Bytes
deriving DecidableEq, Repr

/-- The status codes a peer may send. -/
def sendable (code : Nat) : Bool :=
  (1000 ≤ code && code ≤ 1003) || (1007 ≤ code && code ≤ 1014) || (3000 ≤ code && code ≤ 4999)

/-- `close_code` -/
def closeCode : Bytes → Except Failure (Option Nat)
  | [] => .ok none
  | [_] => .error (.protocol "one-byte close payload")
  | high :: low :: reason =>
    let code := fromBigEndian [high, low]
    if !sendable code then .error (.protocol "invalid close code")
    else if Lib.validUtf8 reason then .ok (some code)
    else .error (.protocol "close reason isn't UTF-8")

/-- The message with a data frame added: it begins one, or continues the one that has begun. -/
def gather (kept : Option Unfinished) (f : RawFrame) : Except Failure Unfinished :=
  if (f.opcode = opText ∨ f.opcode = opBinary) ∧ kept.isNone then .ok ⟨f.opcode, f.rsv1, f.payload⟩
  else if f.opcode = opContinuation ∧ f.rsv1 = false then
    match kept with
    | some message =>
      if message.data.length + f.payload.length ≤ maxMessage then
        .ok { message with data := message.data ++ f.payload }
      else .error (.protocol "message too big")
    | none => .error (.protocol "continuation without a message")
  else .error (.protocol "unexpected frame")

section Reader

variable (deflate : Bool) (inflate : Bytes → Except String Bytes)

/-- A message whose last frame has come. -/
def finish (message : Unfinished) : Except Failure Incoming :=
  if message.compressed && !deflate then .error (.protocol "compressed frame without the extension")
  else do
    let data ← if message.compressed then (inflate message.data).mapError .protocol else .ok message.data
    if message.opcode = opText then
      if Lib.validUtf8 data then .ok (.text data) else .error (.protocol "invalid UTF-8")
    else .ok .binary

/-- One round of `Reader::next`: what it returns, if it returns, and the message so far. -/
def feed (kept : Option Unfinished) (f : RawFrame) : Except Failure (Option Incoming × Option Unfinished) :=
  if f.opcode = opClose then (closeCode f.payload).map fun code => (some (.close code), kept)
  else if f.opcode = opPing then .ok (some (.ping f.payload), kept)
  else if f.opcode = opPong then .ok (some .pong, kept)
  else do
    let message ← gather kept f
    if f.fin then (finish deflate inflate message).map fun told => (some told, none)
    else .ok (none, some message)

end Reader

/-! ## 3. What a read takes -/

theorem readExact_ok {n : Nat} {s taken rest : Bytes} :
    readExact n s = .ok (taken, rest) ↔ s = taken ++ rest ∧ taken.length = n := by
  simp only [readExact]
  constructor
  · intro h
    split at h
    · cases h
    · next hlen =>
      obtain ⟨rfl, rfl⟩ := Prod.mk.inj (Except.ok.inj h)
      exact ⟨(List.take_append_drop n s).symm, by simp; omega⟩
  · rintro ⟨rfl, rfl⟩
    simp

theorem readExact_error {n : Nat} {s : Bytes} {e : Failure} (h : readExact n s = .error e) : e = .eof := by
  simp only [readExact] at h
  split at h
  · exact (Except.error.inj h).symm
  · cases h

@[simp] theorem length_unmask (mask payload : Bytes) : (unmask mask payload).length = payload.length := by
  simp [unmask]

/-- A byte with the same mask byte twice is the byte. -/
theorem unmask_unmask (mask payload : Bytes) : unmask mask (unmask mask payload) = payload := by
  apply List.ext_getElem (by simp)
  intro i hi hi'
  simp only [unmask, List.getElem_mapIdx, UInt8.xor_assoc, UInt8.xor_self, UInt8.xor_zero]

/-- The forms of a length. -/
inductive LengthForm where
  | short
  | medium
  | long
deriving DecidableEq, Repr

/-- Which lengths a form holds. -/
def LengthForm.bound : LengthForm → Nat
  | .short => 126
  | .medium => 2 ^ 16
  | .long => 2 ^ 64

/-- The header's seven bits. -/
def LengthForm.bits (len : Nat) : LengthForm → UInt8
  | .short => UInt8.ofNat len
  | .medium => 126
  | .long => 127

/-- The bytes behind the header. -/
def LengthForm.bytes (len : Nat) : LengthForm → Bytes
  | .short => []
  | .medium => bigEndian 2 len
  | .long => bigEndian 8 len

theorem readUint_ok {k n : Nat} {s rest : Bytes} :
    readUint k s = .ok (n, rest) ↔ n < 256 ^ k ∧ s = bigEndian k n ++ rest := by
  constructor
  · intro h
    cases hread : readExact k s with
    | error e => simp [readUint, hread, Except.map] at h
    | ok read =>
      obtain ⟨hs, hlen⟩ := readExact_ok.mp hread
      simp only [readUint, hread, Except.map, Except.ok.injEq, Prod.mk.injEq] at h
      obtain ⟨rfl, rfl⟩ := h
      refine ⟨hlen ▸ Lib.fromBigEndian_lt read.1, ?_⟩
      rw [← hlen, Lib.bigEndian_fromBigEndian]
      exact hs
  · rintro ⟨hn, rfl⟩
    rw [readUint, readExact_ok.mpr ⟨rfl, Lib.length_bigEndian k n⟩]
    simp [Except.map, Lib.fromBigEndian_bigEndian hn]

theorem payloadLength_bytes {form : LengthForm} {len : Nat} (hlen : len < form.bound) (rest : Bytes) :
    payloadLength (form.bits len) (form.bytes len ++ rest) = .ok (len, rest) := by
  cases form with
  | short =>
    simp only [LengthForm.bound] at hlen
    have hnat : (UInt8.ofNat len).toNat = len := by simp; omega
    have h126 : UInt8.ofNat len ≠ 126 := fun h => by simp [h] at hnat; omega
    have h127 : UInt8.ofNat len ≠ 127 := fun h => by simp [h] at hnat; omega
    simp [payloadLength, LengthForm.bits, LengthForm.bytes, h126, h127]
    omega
  | medium => exact (readUint_ok (k := 2)).mpr ⟨by simpa [LengthForm.bound] using hlen, rfl⟩
  | long => exact (readUint_ok (k := 8)).mpr ⟨by simpa [LengthForm.bound] using hlen, rfl⟩

/-- The length that is read stands there in one of its forms. -/
theorem payloadLength_ok {bits : UInt8} {s rest : Bytes} {len : Nat} (hbits : bits < 128)
    (h : payloadLength bits s = .ok (len, rest)) :
    ∃ form : LengthForm, len < form.bound ∧ bits = form.bits len ∧ s = form.bytes len ++ rest := by
  unfold payloadLength at h
  split at h
  · next hb =>
    obtain ⟨hlen, hs⟩ := readUint_ok.mp h
    exact ⟨.medium, by simpa [LengthForm.bound] using hlen, hb, hs⟩
  · split at h
    · next hb =>
      obtain ⟨hlen, hs⟩ := readUint_ok.mp h
      exact ⟨.long, by simpa [LengthForm.bound] using hlen, hb, hs⟩
    · next h126 h127 =>
      obtain ⟨rfl, rfl⟩ := Prod.mk.inj (Except.ok.inj h)
      have hlt : bits.toNat < 128 := hbits
      have h126' : bits.toNat ≠ 126 := fun hb => h126 (UInt8.toNat_inj.mp (by simpa using hb))
      have h127' : bits.toNat ≠ 127 := fun hb => h127 (UInt8.toNat_inj.mp (by simpa using hb))
      exact ⟨.short, by simp only [LengthForm.bound]; omega, by simp [LengthForm.bits], by simp [LengthForm.bytes]⟩

theorem payloadLength_error {bits : UInt8} {s : Bytes} {e : Failure} (h : payloadLength bits s = .error e) :
    e = .eof := by
  have hread (k : Nat) (h : readUint k s = .error e) : e = .eof := by
    cases hread : readExact k s with
    | error e' =>
      simp only [readUint, hread, Except.map, Except.error.injEq] at h
      exact h ▸ readExact_error hread
    | ok read => simp [readUint, hread, Except.map] at h
  unfold payloadLength at h
  split at h
  · exact hread 2 h
  · split at h
    · exact hread 8 h
    · cases h

/-! ## 4. Encodings -/

/-- The header's first byte: FIN, RSV1 and the opcode. -/
def firstByte (fin rsv1 : Bool) (opcode : UInt8) : UInt8 :=
  (if fin then 0x80 else 0) ||| (if rsv1 then 0x40 else 0) ||| opcode

/-- A masked frame with its length in one of the forms. -/
def encode (f : RawFrame) (form : LengthForm) (mask : Bytes) : Bytes :=
  firstByte f.fin f.rsv1 f.opcode :: (0x80 ||| form.bits f.payload.length) ::
    (form.bytes f.payload.length ++ (mask ++ unmask mask f.payload))

/-- A frame a client may send by itself, wherever in a message. -/
structure Admissible (f : RawFrame) : Prop where
  opcode : f.opcode < 16
  length : badLength f.fin f.rsv1 f.opcode f.payload.length = false

/-- The encodings of a frame. -/
def Encodes (f : RawFrame) (bytes : Bytes) : Prop :=
  Admissible f ∧ ∃ (form : LengthForm) (mask : Bytes),
    f.payload.length < form.bound ∧ mask.length = 4 ∧ bytes = encode f form mask

/-- What a header's first byte says. -/
theorem firstByte_bits (fin rsv1 : Bool) {opcode : UInt8} (h : opcode < 16) :
    (firstByte fin rsv1 opcode &&& 0x80 != 0) = fin ∧ (firstByte fin rsv1 opcode &&& 0x40 != 0) = rsv1 ∧
      firstByte fin rsv1 opcode &&& 0x0f = opcode ∧ firstByte fin rsv1 opcode &&& 0x30 = 0 := by
  have hall : ∀ n : Fin 16, ∀ fin rsv1 : Bool,
      (firstByte fin rsv1 (UInt8.ofNat n) &&& 0x80 != 0) = fin ∧
        (firstByte fin rsv1 (UInt8.ofNat n) &&& 0x40 != 0) = rsv1 ∧
        firstByte fin rsv1 (UInt8.ofNat n) &&& 0x0f = UInt8.ofNat n ∧
        firstByte fin rsv1 (UInt8.ofNat n) &&& 0x30 = 0 := by decide +kernel
  have hn : opcode = UInt8.ofNat opcode.toNat := by simp
  rw [hn]
  exact hall ⟨opcode.toNat, h⟩ fin rsv1

/-- Every first byte without the reserved bits is made so. -/
theorem firstByte_eq {first : UInt8} (h : first &&& 0x30 = 0) :
    first = firstByte (first &&& 0x80 != 0) (first &&& 0x40 != 0) (first &&& 0x0f) ∧ first &&& 0x0f < 16 := by
  have hall : ∀ n : Fin 256, UInt8.ofNat n &&& 0x30 = 0 →
      UInt8.ofNat n = firstByte (UInt8.ofNat n &&& 0x80 != 0) (UInt8.ofNat n &&& 0x40 != 0)
        (UInt8.ofNat n &&& 0x0f) ∧ UInt8.ofNat n &&& 0x0f < 16 := by decide +kernel
  have hn : first = UInt8.ofNat first.toNat := by simp
  rw [hn] at h ⊢
  exact hall ⟨first.toNat, first.toNat_lt⟩ h

theorem maskBit_or {bits : UInt8} (h : bits < 128) :
    (0x80 ||| bits) &&& 0x80 ≠ 0 ∧ (0x80 ||| bits) &&& 0x7f = bits := by
  have hall : ∀ n : Fin 128, (0x80 ||| UInt8.ofNat n) &&& 0x80 ≠ 0 ∧
      (0x80 ||| UInt8.ofNat n) &&& 0x7f = UInt8.ofNat n := by decide +kernel
  have hn : bits = UInt8.ofNat bits.toNat := by simp
  rw [hn]
  exact hall ⟨bits.toNat, h⟩

theorem maskBit_eq {second : UInt8} (h : second &&& 0x80 ≠ 0) :
    second = 0x80 ||| (second &&& 0x7f) ∧ second &&& 0x7f < 128 := by
  have hall : ∀ n : Fin 256, UInt8.ofNat n &&& 0x80 ≠ 0 →
      UInt8.ofNat n = 0x80 ||| (UInt8.ofNat n &&& 0x7f) ∧ UInt8.ofNat n &&& 0x7f < 128 := by decide +kernel
  have hn : second = UInt8.ofNat second.toNat := by simp
  rw [hn] at h ⊢
  exact hall ⟨second.toNat, second.toNat_lt⟩ h

theorem LengthForm.bits_lt {form : LengthForm} {len : Nat} (h : len < form.bound) : form.bits len < 128 := by
  cases form with
  | short =>
    simp only [LengthForm.bound] at h
    show (UInt8.ofNat len).toNat < 128
    simp
    omega
  | medium => exact (by decide : (126 : UInt8) < 128)
  | long => exact (by decide : (127 : UInt8) < 128)

/-- A frame's header: the two bytes, and the length behind them. -/
inductive Header (fin rsv1 : Bool) (opcode : UInt8) (len : Nat) : Bytes → Prop
  | mk (form : LengthForm) (hopcode : opcode < 16) (hlen : len < form.bound) :
      Header fin rsv1 opcode len (firstByte fin rsv1 opcode :: (0x80 ||| form.bits len) :: form.bytes len)

/-- What `frame` does behind a header. -/
def behind (fin rsv1 : Bool) (opcode : UInt8) (len : Nat) (s : Bytes) : Except Failure (RawFrame × Bytes) :=
  if badLength fin rsv1 opcode len then .error (.protocol "bad frame length")
  else do
    let (mask, s) ← readExact 4 s
    let (payload, s) ← readExact len s
    return (⟨fin, rsv1, opcode, unmask mask payload⟩, s)

theorem frame_header {fin rsv1 : Bool} {opcode : UInt8} {len : Nat} {header : Bytes}
    (h : Header fin rsv1 opcode len header) (s : Bytes) :
    frame (header ++ s) = behind fin rsv1 opcode len s := by
  cases h with
  | mk form hopcode hlen =>
    obtain ⟨hfin, hrsv1, hop, hreserved⟩ := firstByte_bits fin rsv1 hopcode
    obtain ⟨hmask, hbits⟩ := maskBit_or (LengthForm.bits_lt hlen)
    simp only [List.cons_append, frame, hfin, hrsv1, hop, hreserved, hmask, hbits, ne_eq, not_true_eq_false,
      if_false, payloadLength_bytes hlen]
    rfl

/-- The headers that are refused, each under its message. -/
inductive Refused : Bytes → String → Prop
  | reserved {first second : UInt8} {s : Bytes} (h : first &&& 0x30 ≠ 0) :
      Refused (first :: second :: s) "reserved bits set"
  | unmasked {first second : UInt8} {s : Bytes} (h : first &&& 0x30 = 0) (hmask : second &&& 0x80 = 0) :
      Refused (first :: second :: s) "client frames must be masked"
  | length {fin rsv1 : Bool} {opcode : UInt8} {len : Nat} {header s : Bytes}
      (h : Header fin rsv1 opcode len header) (hlen : badLength fin rsv1 opcode len = true) :
      Refused (header ++ s) "bad frame length"

/-- **What stands first in a stream**: too little, a header that is refused, or one that is not. -/
theorem frame_cases (s : Bytes) :
    frame s = .error .eof ∨ (∃ message, Refused s message ∧ frame s = .error (.protocol message)) ∨
      ∃ fin rsv1 opcode len header s', Header fin rsv1 opcode len header ∧
        badLength fin rsv1 opcode len = false ∧ s = header ++ s' := by
  match s with
  | [] => exact .inl rfl
  | [_] => exact .inl rfl
  | first :: second :: s =>
    by_cases hreserved : first &&& 0x30 = 0
    swap
    · exact .inr (.inl ⟨_, .reserved hreserved, by simp [frame, hreserved]⟩)
    by_cases hmask : second &&& 0x80 = 0
    · exact .inr (.inl ⟨_, .unmasked hreserved hmask, by simp [frame, hreserved, hmask]⟩)
    obtain ⟨hfirst, hopcode⟩ := firstByte_eq hreserved
    obtain ⟨hsecond, hbits⟩ := maskBit_eq hmask
    cases hlength : payloadLength (second &&& 0x7f) s with
    | error e =>
      have he := payloadLength_error hlength
      subst he
      refine .inl ?_
      simp [frame, hreserved, hmask, hlength]
      rfl
    | ok read =>
      obtain ⟨form, hlen, hform, hs⟩ := payloadLength_ok hbits hlength
      have hheader : Header (first &&& 0x80 != 0) (first &&& 0x40 != 0) (first &&& 0x0f) read.1
          (first :: second :: form.bytes read.1) := by
        have hmade : Header (first &&& 0x80 != 0) (first &&& 0x40 != 0) (first &&& 0x0f) read.1 _ :=
          .mk form hopcode hlen
        rwa [← hfirst, ← hform, ← hsecond] at hmade
      have hall : first :: second :: s = (first :: second :: form.bytes read.1) ++ read.2 := by
        rw [hs]
        rfl
      cases hbad : badLength (first &&& 0x80 != 0) (first &&& 0x40 != 0) (first &&& 0x0f) read.1 with
      | false => exact .inr (.inr ⟨_, _, _, _, _, _, hheader, hbad, hall⟩)
      | true =>
        rw [hall]
        refine .inr (.inl ⟨_, .length hheader hbad, ?_⟩)
        rw [frame_header hheader]
        simp [behind, hbad]

theorem behind_ok {fin rsv1 : Bool} {opcode : UInt8} {len : Nat} {s rest : Bytes} {f : RawFrame} :
    behind fin rsv1 opcode len s = .ok (f, rest) ↔ badLength fin rsv1 opcode len = false ∧
      ∃ mask payload, mask.length = 4 ∧ payload.length = len ∧ s = mask ++ (payload ++ rest) ∧
        f = ⟨fin, rsv1, opcode, unmask mask payload⟩ := by
  constructor
  · intro h
    unfold behind at h
    split at h
    · cases h
    next hbad =>
    cases hmask : readExact 4 s with
    | error e => simp [hmask, bind, Except.bind] at h
    | ok first =>
      cases hpayload : readExact len first.2 with
      | error e => simp [hmask, hpayload, bind, Except.bind] at h
      | ok second =>
        simp only [hmask, hpayload, bind, Except.bind, pure, Except.pure, Except.ok.injEq,
          Prod.mk.injEq] at h
        obtain ⟨hs, hfour⟩ := readExact_ok.mp hmask
        obtain ⟨hs', hlen⟩ := readExact_ok.mp hpayload
        refine ⟨by simpa using hbad, first.1, second.1, hfour, hlen, ?_, h.1.symm⟩
        rw [hs, hs', h.2]
  · rintro ⟨hbad, mask, payload, hfour, hlen, rfl, rfl⟩
    have hmask := readExact_ok.mpr (⟨rfl, hfour⟩ : mask ++ (payload ++ rest) = _ ∧ _)
    have hpayload := readExact_ok.mpr (⟨rfl, hlen⟩ : payload ++ rest = _ ∧ _)
    simp [behind, hbad, hmask, hpayload, bind, Except.bind, pure, Except.pure]

theorem behind_error {fin rsv1 : Bool} {opcode : UInt8} {len : Nat} {s : Bytes} {e : Failure}
    (hlen : badLength fin rsv1 opcode len = false) (h : behind fin rsv1 opcode len s = .error e) : e = .eof := by
  simp only [behind, hlen, Bool.false_eq_true, if_false] at h
  cases hmask : readExact 4 s with
  | error e' =>
    simp only [hmask, bind, Except.bind, Except.error.injEq] at h
    exact h ▸ readExact_error hmask
  | ok first =>
    cases hpayload : readExact len first.2 with
    | error e' =>
      simp only [hmask, hpayload, bind, Except.bind, Except.error.injEq] at h
      exact h ▸ readExact_error hpayload
    | ok second => simp [hmask, hpayload, bind, Except.bind, pure, Except.pure] at h

/-! ## 5. A frame is read from its encodings and from nothing else -/

theorem frame_encode {f : RawFrame} {bytes : Bytes} (h : Encodes f bytes) (rest : Bytes) :
    frame (bytes ++ rest) = .ok (f, rest) := by
  obtain ⟨⟨hopcode, hlength⟩, form, mask, hlen, hmask, rfl⟩ := h
  have hsplit : encode f form mask ++ rest =
      (firstByte f.fin f.rsv1 f.opcode :: (0x80 ||| form.bits f.payload.length) ::
        form.bytes f.payload.length) ++ (mask ++ (unmask mask f.payload ++ rest)) := by
    simp [encode]
  rw [hsplit, frame_header (.mk form hopcode hlen), behind_ok]
  exact ⟨hlength, mask, unmask mask f.payload, hmask, by simp, rfl, by rw [unmask_unmask]⟩

theorem frame_ok {f : RawFrame} {s rest : Bytes} (h : frame s = .ok (f, rest)) :
    ∃ bytes, Encodes f bytes ∧ s = bytes ++ rest := by
  obtain heof | ⟨message, -, hmessage⟩ | ⟨fin, rsv1, opcode, len, header, s', hheader, hlength, rfl⟩ := frame_cases s
  · rw [heof] at h
    cases h
  · rw [hmessage] at h
    cases h
  · rw [frame_header hheader, behind_ok] at h
    obtain ⟨-, mask, payload, hmask, rfl, rfl, rfl⟩ := h
    obtain ⟨form, hopcode, hlen⟩ := hheader
    refine ⟨_, ⟨⟨hopcode, by simpa using hlength⟩, form, mask, by simpa using hlen, hmask, rfl⟩, ?_⟩
    simp [encode, unmask_unmask]

/-- Reading a frame takes some of the stream. -/
theorem length_of_frame {f : RawFrame} {s rest : Bytes} (h : frame s = .ok (f, rest)) :
    rest.length < s.length := by
  obtain ⟨bytes, ⟨-, form, mask, -, -, rfl⟩, rfl⟩ := frame_ok h
  simp [encode]
  omega

theorem frame_protocol_iff {s : Bytes} {message : String} :
    frame s = .error (.protocol message) ↔ Refused s message := by
  constructor
  · intro h
    obtain heof | ⟨message', hrefused, hmessage⟩ | ⟨fin, rsv1, opcode, len, header, s', hheader, hlength, rfl⟩ :=
      frame_cases s
    · rw [heof] at h
      cases h
    · rw [hmessage] at h
      cases h
      exact hrefused
    · rw [frame_header hheader] at h
      cases behind_error hlength h
  · intro h
    cases h with
    | reserved h => simp [frame, h]
    | unmasked h hmask => simp [frame, h, hmask]
    | length h hlen =>
      rw [frame_header h]
      simp [behind, hlen]

/-- **The reader takes exactly the encodings**: a frame from the stream's front if an encoding of it
    stands there, and it calls the protocol broken if a refused header does. In every other stream the
    frame has not come whole. -/
theorem frame_reads (s : Bytes) :
    (∀ f rest, frame s = .ok (f, rest) ↔ ∃ bytes, Encodes f bytes ∧ s = bytes ++ rest) ∧
      ∀ message, frame s = .error (.protocol message) ↔ Refused s message := by
  refine ⟨fun f rest => ⟨frame_ok, fun h => ?_⟩, fun message => frame_protocol_iff⟩
  obtain ⟨bytes, hbytes, rfl⟩ := h
  exact frame_encode hbytes rest

/-! ## 6. The loops -/

section Loops

variable (deflate : Bool) (inflate : Bytes → Except String Bytes)

/-- `Reader::next`, with the message so far and what is left of the stream. -/
def next (kept : Option Unfinished) (s : Bytes) : Except Failure (Incoming × Option Unfinished × Bytes) :=
  match h : frame s with
  | .error e => .error e
  | .ok (f, rest) =>
    match feed deflate inflate kept f with
    | .error e => .error e
    | .ok (some told, kept) => .ok (told, kept, rest)
    | .ok (none, kept) => next kept rest
termination_by s.length
decreasing_by exact length_of_frame h

theorem length_of_next {kept kept' : Option Unfinished} {s rest : Bytes} {told : Incoming}
    (h : next deflate inflate kept s = .ok (told, kept', rest)) : rest.length < s.length := by
  fun_induction next deflate inflate kept s with
  | case1 => cases h
  | case2 => cases h
  | case3 kept s f rest' hframe told' kept'' hfeed =>
    cases h
    exact length_of_frame hframe
  | case4 kept s f rest' hframe kept'' hfeed ih =>
    have hlen := length_of_frame hframe
    have hrest := ih h
    omega

/-- `spawn_reader`: what the connection is told until the reader stops. -/
def deliver (kept : Option Unfinished) (s : Bytes) : List Incoming :=
  match h : next deflate inflate kept s with
  | .error .eof => []
  | .error (.protocol _) => [.invalid]
  | .ok (told, kept, rest) => if told.closes then [told] else told :: deliver kept rest
termination_by s.length
decreasing_by exact length_of_next deflate inflate h

end Loops

end Smartfire.Framing
