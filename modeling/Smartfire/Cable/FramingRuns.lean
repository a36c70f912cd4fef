/-
  File:      Smartfire/Cable/FramingRuns.lean
  Subject:   What a connection is told of a client's stream.

  A client's messages have a grammar of their own: a message is one frame, or is split over several
  with control frames between them. Here it is written down from the sender's side, without the
  reader's state.

  * `Control`, `Piece`, `Sent` with `frames`, `told`, `Ok` -- what a client sends;
  * `Unended` -- a message whose last frame has not come;
  * `deliver_sent` -- **whatever the splits, masks and length forms, each message and control frame is
    told once, in the order in which they end**;
  * `Unacceptable`, `feed_error_iff` -- the frames that break the protocol, by the message so far;
  * `deliver_spec` -- **every stream is told as what was sent up to its end or to its first broken
    frame**.
-/
import Smartfire.Cable.Framing

namespace Smartfire.Framing

open Lib (Bytes bigEndian fromBigEndian)

/-! ## 1. One frame -/

/-- Frames one after the other. -/
inductive Encoded : List RawFrame → Bytes → Prop
  | nil : Encoded [] []
  | cons {f : RawFrame} {fs : List RawFrame} {bytes rest : Bytes} (h : Encodes f bytes) (hrest : Encoded fs rest) :
      Encoded (f :: fs) (bytes ++ rest)

/-- What the connection hears: nothing behind what ends it. -/
def hear : List Incoming → List Incoming → List Incoming
  | [], behind => behind
  | told :: more, behind => if told.closes then [told] else told :: hear more behind

theorem hear_append (front back behind : List Incoming) :
    hear (front ++ back) behind = hear front (hear back behind) := by
  induction front with
  | nil => rfl
  | cons told front ih =>
    simp only [List.cons_append, hear]
    split
    · rfl
    · rw [ih]

section Steps

variable {deflate : Bool} {inflate : Bytes → Except String Bytes} {kept kept' : Option Unfinished}

theorem next_error {s : Bytes} {e : Failure} (h : frame s = .error e) :
    next deflate inflate kept s = .error e := by
  rw [next]
  split <;> simp_all

theorem next_frame {f : RawFrame} {s rest : Bytes} (h : frame s = .ok (f, rest)) :
    next deflate inflate kept s = (feed deflate inflate kept f).bind fun fed =>
      fed.1.elim (next deflate inflate fed.2 rest) fun told => .ok (told, fed.2, rest) := by
  rw [next]
  split
  · simp_all
  · next f' rest' hframe =>
    rw [h] at hframe
    cases hframe
    split <;> simp_all [Except.bind]

theorem deliver_error {s : Bytes} {e : Failure} (h : next deflate inflate kept s = .error e) :
    deliver deflate inflate kept s = if e = .eof then [] else [.invalid] := by
  cases e with
  | eof =>
    rw [deliver]
    split <;> simp_all
  | protocol message =>
    rw [deliver]
    split <;> simp_all

theorem deliver_next {s rest : Bytes} {told : Incoming} (h : next deflate inflate kept s = .ok (told, kept', rest)) :
    deliver deflate inflate kept s = hear [told] (deliver deflate inflate kept' rest) := by
  rw [deliver]
  split <;> simp_all [hear]

/-- A message that is not whole yet is read on. -/
theorem deliver_congr {s t : Bytes} (h : next deflate inflate kept s = next deflate inflate kept' t) :
    deliver deflate inflate kept s = deliver deflate inflate kept' t := by
  cases hnext : next deflate inflate kept' t with
  | error e => rw [deliver_error hnext, deliver_error (h.trans hnext)]
  | ok read => rw [deliver_next hnext, deliver_next (h.trans hnext)]

theorem deliver_eof {s : Bytes} (h : frame s = .error .eof) : deliver deflate inflate kept s = [] := by
  rw [deliver_error (next_error h)]
  rfl

theorem deliver_refused {s : Bytes} {message : String} (h : Refused s message) :
    deliver deflate inflate kept s = [.invalid] := by
  rw [deliver_error (next_error (frame_protocol_iff.mpr h))]
  rfl

/-- **A frame's step**: what it tells, and the message so far behind it. -/
theorem deliver_frame {f : RawFrame} {bytes : Bytes} {told : Option Incoming} (h : Encodes f bytes)
    (hfeed : feed deflate inflate kept f = .ok (told, kept')) (rest : Bytes) :
    deliver deflate inflate kept (bytes ++ rest) = hear told.toList (deliver deflate inflate kept' rest) := by
  have hnext := @next_frame deflate inflate kept _ _ _ (frame_encode h rest)
  rw [hfeed] at hnext
  cases told with
  | none => exact deliver_congr hnext
  | some told => exact deliver_next hnext

end Steps

/-! ## 2. What a client sends -/

/-- A control frame. A close frame says nothing, or a status code and a reason. -/
inductive Control where
  | ping (payload : Bytes)
  | pong (payload : Bytes)
  | close (status : Option (Nat × Bytes))

def Control.payload : Control → Bytes
  | .ping payload | .pong payload => payload
  | .close none => []
  | .close (some (code, reason)) => bigEndian 2 code ++ reason

def Control.opcode : Control → UInt8
  | .ping _ => opPing
  | .pong _ => opPong
  | .close _ => opClose

def Control.frame (c : Control) : RawFrame := ⟨true, false, c.opcode, c.payload⟩

def Control.told : Control → Incoming
  | .ping payload => .ping payload
  | .pong _ => .pong
  | .close status => .close (status.map Prod.fst)

structure Control.Ok (c : Control) : Prop where
  length : c.payload.length ≤ 125
  status : ∀ code reason, c = .close (some (code, reason)) → sendable code = true ∧ Lib.validUtf8 reason = true

/-- What may stand between a message's first frame and its last. -/
inductive Piece where
  | control (c : Control)
  | more (data : Bytes)

def Piece.frame : Piece → RawFrame
  | .control c => c.frame
  | .more data => ⟨false, false, opContinuation, data⟩

def Piece.data : Piece → Bytes
  | .control _ => []
  | .more data => data

def Piece.told : Piece → Option Incoming
  | .control c => some c.told
  | .more _ => none

def Piece.Ok : Piece → Prop
  | .control c => c.Ok
  | .more _ => True

/-- What a message is marked as, and the text or binary data it stands for. -/
structure Message where
  isText : Bool
  compressed : Bool
  content : Bytes

def Message.opcode (m : Message) : UInt8 := if m.isText then opText else opBinary

def Message.told (m : Message) : Incoming := if m.isText then .text m.content else .binary

/-- The frames of a message carry this data. -/
structure Message.Carried (deflate : Bool) (inflate : Bytes → Except String Bytes) (m : Message) (data : Bytes) :
    Prop where
  size : data.length ≤ maxMessage
  plain : m.compressed = false → m.content = data
  inflated : m.compressed = true → deflate = true ∧ inflate data = .ok m.content
  utf8 : m.isText = true → Lib.validUtf8 m.content = true

/-- What a client sends between messages: a control frame, or a message in one frame or in several. -/
inductive Sent where
  | control (c : Control)
  | whole (m : Message) (data : Bytes)
  | split (m : Message) (first : Bytes) (middle : List Piece) (last : Bytes)

def Sent.frames : Sent → List RawFrame
  | .control c => [c.frame]
  | .whole m data => [⟨true, m.compressed, m.opcode, data⟩]
  | .split m first middle last =>
    ⟨false, m.compressed, m.opcode, first⟩ :: (middle.map Piece.frame ++ [⟨true, false, opContinuation, last⟩])

/-- A message is told where its last frame stands. -/
def Sent.told : Sent → List Incoming
  | .control c => [c.told]
  | .whole m _ => [m.told]
  | .split m _ middle _ => middle.filterMap Piece.told ++ [m.told]

def Sent.Ok (deflate : Bool) (inflate : Bytes → Except String Bytes) : Sent → Prop
  | .control c => c.Ok
  | .whole m data => m.Carried deflate inflate data
  | .split m first middle last =>
    m.Carried deflate inflate (first ++ (middle.flatMap Piece.data ++ last)) ∧ ∀ piece ∈ middle, piece.Ok

/-- A message without its last frame. Its mark is not looked at yet. -/
structure Unended where
  isText : Bool
  compressed : Bool
  first : Bytes
  middle : List Piece

namespace Unended

def opcode (u : Unended) : UInt8 := if u.isText then opText else opBinary

def data (u : Unended) : Bytes := u.first ++ u.middle.flatMap Piece.data

def frames (u : Unended) : List RawFrame := ⟨false, u.compressed, u.opcode, u.first⟩ :: u.middle.map Piece.frame

def told (u : Unended) : List Incoming := u.middle.filterMap Piece.told

structure Ok (u : Unended) : Prop where
  size : u.data.length ≤ maxMessage
  pieces : ∀ piece ∈ u.middle, piece.Ok

/-- What the reader keeps of it. -/
def kept (u : Unended) : Unfinished := ⟨u.opcode, u.compressed, u.data⟩

def add (u : Unended) (piece : Piece) : Unended := { u with middle := u.middle ++ [piece] }

@[simp] theorem opcode_add (u : Unended) (piece : Piece) : (u.add piece).opcode = u.opcode := rfl

@[simp] theorem frames_add (u : Unended) (piece : Piece) : (u.add piece).frames = u.frames ++ [piece.frame] := by
  simp only [frames, opcode_add]
  simp [add]

@[simp] theorem data_add (u : Unended) (piece : Piece) : (u.add piece).data = u.data ++ piece.data := by
  simp [add, data]

@[simp] theorem kept_add (u : Unended) (piece : Piece) :
    (u.add piece).kept = { u.kept with data := u.data ++ piece.data } := by
  simp only [kept, opcode_add, data_add]
  rfl

theorem Ok.add {u : Unended} {piece : Piece} (h : u.Ok) (hpiece : piece.Ok)
    (hsize : (u.data ++ piece.data).length ≤ maxMessage) : (u.add piece).Ok := by
  refine ⟨by simpa using hsize, fun other hother => ?_⟩
  obtain hother | hlast := List.mem_append.mp hother
  · exact h.pieces other hother
  · exact List.mem_singleton.mp hlast ▸ hpiece

end Unended

/-! ## 3. What is sent is told -/

section Told

variable {deflate : Bool} {inflate : Bytes → Except String Bytes}

theorem sendable_lt {code : Nat} (h : sendable code = true) : code < 2 ^ 16 := by
  simp [sendable] at h
  omega

/-- The close payloads that are taken, and the code they are told with. -/
theorem closeCode_ok {payload : Bytes} {code : Option Nat} :
    closeCode payload = .ok code ↔ ∃ status, payload = (Control.close status).payload ∧
      code = status.map Prod.fst ∧
      ∀ code reason, status = some (code, reason) → sendable code = true ∧ Lib.validUtf8 reason = true := by
  constructor
  · intro h
    unfold closeCode at h
    split at h
    · cases h
      exact ⟨none, rfl, rfl, fun _ _ h => by cases h⟩
    · cases h
    · next high low reason =>
      dsimp only at h
      split at h
      · cases h
      next hsendable =>
      split at h
      swap
      · cases h
      next hreason =>
      cases h
      refine ⟨some (fromBigEndian [high, low], reason), ?_, rfl, ?_⟩
      · simp only [Control.payload]
        rw [show bigEndian 2 (fromBigEndian [high, low]) = [high, low] from Lib.bigEndian_fromBigEndian [high, low]]
        rfl
      · rintro code reason' ⟨⟩
        exact ⟨by simpa using hsendable, hreason⟩
  · rintro ⟨status, rfl, rfl, hstatus⟩
    match status with
    | none => rfl
    | some (code, reason) =>
      obtain ⟨hsendable, hreason⟩ := hstatus code reason rfl
      have hdigits : ∃ high low, bigEndian 2 code = [high, low] ∧ fromBigEndian [high, low] = code := by
        refine ⟨_, _, rfl, ?_⟩
        exact Lib.fromBigEndian_bigEndian (k := 2) (sendable_lt hsendable)
      obtain ⟨high, low, hbytes, hcode⟩ := hdigits
      simp [Control.payload, hbytes, closeCode, hcode, hsendable, hreason]

theorem feed_control {c : Control} (h : c.Ok) (kept : Option Unfinished) :
    feed deflate inflate kept c.frame = .ok (some c.told, kept) := by
  cases c with
  | ping payload => rfl
  | pong payload => rfl
  | close status =>
    have hcode : closeCode (Control.close status).payload = .ok (status.map Prod.fst) :=
      closeCode_ok.mpr ⟨status, rfl, rfl, fun code reason hstatus => h.status code reason (by rw [hstatus])⟩
    simp [feed, Control.frame, Control.opcode, Control.told, hcode, Except.map]

/-- A message whose frames have come is told as what it stands for. -/
theorem finish_carried {m : Message} {data : Bytes} (h : m.Carried deflate inflate data) :
    finish deflate inflate ⟨m.opcode, m.compressed, data⟩ = .ok m.told := by
  have hend : (if m.opcode = opText then
      if Lib.validUtf8 m.content then .ok (.text m.content) else .error (.protocol "invalid UTF-8")
    else .ok .binary : Except Failure Incoming) = .ok m.told := by
    cases ht : m.isText with
    | false => simp [Message.opcode, Message.told, ht, opText, opBinary]
    | true => simp [Message.opcode, Message.told, ht, h.utf8 ht]
  cases hm : m.compressed with
  | false =>
    rw [← hend, h.plain hm]
    simp [finish, bind, Except.bind]
  | true =>
    obtain ⟨hdeflate, hinflate⟩ := h.inflated hm
    rw [← hend]
    simp [finish, hdeflate, hinflate, Except.mapError, bind, Except.bind]

/-- A message begins with a frame of its own opcode. -/
theorem gather_none {opcode : UInt8} (hopcode : opcode = opText ∨ opcode = opBinary) (fin rsv1 : Bool)
    (payload : Bytes) : gather none ⟨fin, rsv1, opcode, payload⟩ = .ok ⟨opcode, rsv1, payload⟩ := by
  simp [gather, hopcode]

theorem gather_some (u : Unfinished) {payload : Bytes} (fin : Bool)
    (hsize : u.data.length + payload.length ≤ maxMessage) :
    gather (some u) ⟨fin, false, opContinuation, payload⟩ = .ok { u with data := u.data ++ payload } := by
  simp [gather, hsize]

/-- A frame that is no control frame is fed through `gather`. -/
theorem feed_data {kept : Option Unfinished} {f : RawFrame} (h : f.opcode < 8) :
    feed deflate inflate kept f = (gather kept f).bind fun message =>
      if f.fin then (finish deflate inflate message).map fun told => (some told, none)
      else .ok (none, some message) := by
  have hlt : f.opcode.toNat < 8 := h
  have hclose : f.opcode ≠ opClose := fun heq => by simp [heq, opClose] at hlt
  have hping : f.opcode ≠ opPing := fun heq => by simp [heq, opPing] at hlt
  have hpong : f.opcode ≠ opPong := fun heq => by simp [heq, opPong] at hlt
  simp only [feed, hclose, hping, hpong, if_false]
  rfl

/-- Feeding frames one after the other. -/
inductive Fed (deflate : Bool) (inflate : Bytes → Except String Bytes) :
    Option Unfinished → List RawFrame → List Incoming → Option Unfinished → Prop
  | nil (kept : Option Unfinished) : Fed deflate inflate kept [] [] kept
  | cons {kept kept' kept'' : Option Unfinished} {f : RawFrame} {fs : List RawFrame} {told : Option Incoming}
      {more : List Incoming} (h : feed deflate inflate kept f = .ok (told, kept'))
      (hrest : Fed deflate inflate kept' fs more kept'') :
      Fed deflate inflate kept (f :: fs) (told.toList ++ more) kept''

namespace Fed

variable {kept kept' kept'' : Option Unfinished} {f : RawFrame} {fs gs : List RawFrame} {told more : List Incoming}

theorem single {told : Option Incoming} (h : feed deflate inflate kept f = .ok (told, kept')) :
    Fed deflate inflate kept [f] told.toList kept' := by
  simpa using Fed.cons h (.nil kept')

theorem append (h : Fed deflate inflate kept fs told kept') (hmore : Fed deflate inflate kept' gs more kept'') :
    Fed deflate inflate kept (fs ++ gs) (told ++ more) kept'' := by
  induction h with
  | nil => exact hmore
  | cons hf _ ih =>
    rw [List.append_assoc]
    exact .cons hf (ih hmore)

/-- The last frame is fed to what the others leave. -/
theorem append_inv (h : Fed deflate inflate kept (fs ++ gs) told kept'') :
    ∃ kept' front back, Fed deflate inflate kept fs front kept' ∧ Fed deflate inflate kept' gs back kept'' := by
  induction fs generalizing kept told with
  | nil => exact ⟨kept, [], told, .nil kept, h⟩
  | cons f fs ih =>
    cases h with
    | cons hf hrest =>
      obtain ⟨kept', front, back, hfront, hback⟩ := ih hrest
      exact ⟨kept', _, back, .cons hf hfront, hback⟩

theorem deliver {bytes : Bytes} (h : Fed deflate inflate kept fs told kept') (hbytes : Encoded fs bytes)
    (rest : Bytes) :
    deliver deflate inflate kept (bytes ++ rest) = hear told (deliver deflate inflate kept' rest) := by
  induction h generalizing bytes with
  | nil =>
    cases hbytes
    rfl
  | cons hf _ ih =>
    cases hbytes with
    | cons hbytes hmore => rw [List.append_assoc, deliver_frame hbytes hf, ih hmore, hear_append]

end Fed

theorem message_opcode (m : Message) : m.opcode = opText ∨ m.opcode = opBinary := by
  cases h : m.isText <;> simp [Message.opcode, h]

theorem unended_opcode (u : Unended) : u.opcode = opText ∨ u.opcode = opBinary := by
  cases h : u.isText <;> simp [Unended.opcode, h]

/-- A data frame's opcode is none of the control frames'. -/
theorem data_lt {opcode : UInt8} (h : opcode = opText ∨ opcode = opBinary) : opcode < 8 := by
  obtain rfl | rfl := h <;> decide

theorem continuation_lt : opContinuation < 8 := by decide

/-- Between its frames a message keeps growing, and the control frames are told. -/
theorem fed_pieces {u : Unfinished} {middle : List Piece} (hok : ∀ piece ∈ middle, piece.Ok)
    (hsize : (u.data ++ middle.flatMap Piece.data).length ≤ maxMessage) :
    Fed deflate inflate (some u) (middle.map Piece.frame) (middle.filterMap Piece.told)
      (some { u with data := u.data ++ middle.flatMap Piece.data }) := by
  induction middle generalizing u with
  | nil => simpa using Fed.nil (some u)
  | cons piece middle ih =>
    obtain ⟨hpiece, hmiddle⟩ := List.forall_mem_cons.mp hok
    cases piece with
    | control c =>
      have hfeed := @feed_control deflate inflate c hpiece (some u)
      simpa [Piece.told, Piece.frame, Piece.data] using Fed.cons hfeed (ih hmiddle (by simpa [Piece.data] using hsize))
    | more data =>
      have hgather := @gather_some u data false (by simp [Piece.data] at hsize; omega)
      have hfeed : feed deflate inflate (some u) (Piece.more data).frame =
          .ok (none, some { u with data := u.data ++ data }) := by
        rw [Piece.frame, feed_data continuation_lt, hgather]
        rfl
      have htold : (Piece.more data :: middle).filterMap Piece.told = middle.filterMap Piece.told := rfl
      rw [htold]
      simpa [Piece.frame, Piece.data] using
        Fed.cons hfeed (ih hmiddle (by simpa [Piece.data, Nat.add_assoc] using hsize))

theorem fed_unended {u : Unended} (h : u.Ok) :
    Fed deflate inflate none u.frames u.told (some u.kept) := by
  have hfeed : feed deflate inflate none ⟨false, u.compressed, u.opcode, u.first⟩ =
      .ok (none, some ⟨u.opcode, u.compressed, u.first⟩) := by
    rw [feed_data (data_lt (unended_opcode u)), gather_none (unended_opcode u)]
    rfl
  exact Fed.cons hfeed (fed_pieces h.pieces h.size)

/-- **What a client sends is told**, and nothing of it is kept. -/
theorem fed_sent {sent : Sent} (h : sent.Ok deflate inflate) :
    Fed deflate inflate none sent.frames sent.told none := by
  cases sent with
  | control c => exact Fed.single (feed_control h none)
  | whole m data =>
    have hfeed : feed deflate inflate none ⟨true, m.compressed, m.opcode, data⟩ = .ok (some m.told, none) := by
      rw [feed_data (data_lt (message_opcode m)), gather_none (message_opcode m)]
      simp [Except.bind, finish_carried h, Except.map]
    exact Fed.single hfeed
  | split m first middle last =>
    obtain ⟨hcarried, hmiddle⟩ := h
    have hsize := hcarried.size
    have hopen : Fed deflate inflate none (⟨false, m.compressed, m.opcode, first⟩ :: middle.map Piece.frame)
        (middle.filterMap Piece.told) (some ⟨m.opcode, m.compressed, first ++ middle.flatMap Piece.data⟩) :=
      fed_unended (u := ⟨m.isText, m.compressed, first, middle⟩)
        ⟨by simp [Unended.data] at hsize ⊢; omega, hmiddle⟩
    have hlast : feed deflate inflate (some ⟨m.opcode, m.compressed, first ++ middle.flatMap Piece.data⟩)
        ⟨true, false, opContinuation, last⟩ = .ok (some m.told, none) := by
      rw [feed_data continuation_lt, gather_some _ true (by simp at hsize ⊢; omega)]
      simp only [List.append_assoc]
      simp [Except.bind, finish_carried hcarried, Except.map]
    exact hopen.append (Fed.single hlast)

theorem fed_script {script : List Sent} (h : ∀ sent ∈ script, sent.Ok deflate inflate) :
    Fed deflate inflate none (script.flatMap Sent.frames) (script.flatMap Sent.told) none := by
  induction script with
  | nil => exact Fed.nil none
  | cons sent script ih =>
    obtain ⟨hsent, hscript⟩ := List.forall_mem_cons.mp h
    exact (fed_sent hsent).append (ih hscript)

end Told

/-- **Whatever the splits, masks and length forms, each message and control frame is told once**, in the
    order in which they end; behind a close frame nothing is. -/
theorem deliver_sent (deflate : Bool) (inflate : Bytes → Except String Bytes) (script : List Sent)
    (h : ∀ sent ∈ script, sent.Ok deflate inflate) (bytes : Bytes)
    (hbytes : Encoded (script.flatMap Sent.frames) bytes) (rest : Bytes) :
    deliver deflate inflate none (bytes ++ rest) =
      hear (script.flatMap Sent.told) (deliver deflate inflate none rest) :=
  (fed_script h).deliver hbytes rest

/-- A text in two frames, one with its length in two bytes, and a ping between them. -/
theorem deliver_sent_sample :
    let bytes := encode ⟨false, false, opText, [104]⟩ .medium [1, 2, 3, 4] ++
      (encode (Control.ping [112]).frame .short [9, 9, 9, 9] ++
        (encode ⟨true, false, opContinuation, [105]⟩ .short [0, 0, 0, 7] ++ []))
    deliver false (fun _ => .error "") none (bytes ++ []) =
      hear [.ping [112], .text [104, 105]] (deliver false (fun _ => .error "") none []) := by
  intro bytes
  let hello : Sent := .split ⟨true, false, [104, 105]⟩ [104] [.control (.ping [112])] [105]
  have hok : ∀ sent ∈ [hello], sent.Ok false fun _ => .error "" := by
    refine List.forall_mem_singleton.mpr ⟨⟨by decide, fun _ => rfl, fun h => (by cases h), fun _ => by decide⟩, ?_⟩
    exact List.forall_mem_singleton.mpr ⟨by decide, fun _ _ h => (by cases h)⟩
  have hencoded : Encoded ([hello].flatMap Sent.frames) bytes :=
    .cons ⟨⟨by decide, by decide⟩, .medium, _, by decide, rfl, rfl⟩
      (.cons ⟨⟨by decide, by decide⟩, .short, _, by decide, rfl, rfl⟩
        (.cons ⟨⟨by decide, by decide⟩, .short, _, by decide, rfl, rfl⟩ .nil))
  exact deliver_sent false _ [hello] hok bytes hencoded []

/-! ## 4. What breaks the protocol -/

section Broken

variable (deflate : Bool) (inflate : Bytes → Except String Bytes)

/-- A message that cannot be told: compressed without the extension, not inflated, or no text. -/
inductive Unreadable (u : Unfinished) : Prop
  | compressed (h : u.compressed = true) (hdeflate : deflate = false)
  | inflate (h : u.compressed = true) {e : String} (he : inflate u.data = .error e)
  | plain (hopcode : u.opcode = opText) (h : u.compressed = false) (hutf8 : Lib.validUtf8 u.data = false)
  | inflated (hopcode : u.opcode = opText) (h : u.compressed = true) {content : Bytes}
      (hcontent : inflate u.data = .ok content) (hutf8 : Lib.validUtf8 content = false)

/-- The message so far with a data frame's payload. -/
def joined (f : RawFrame) : Option Unfinished → Unfinished
  | none => ⟨f.opcode, f.rsv1, f.payload⟩
  | some u => { u with data := u.data ++ f.payload }

/-- The frames a client may not send with this message begun. -/
inductive Unacceptable : Option Unfinished → RawFrame → Prop
  | reserved (kept : Option Unfinished) {f : RawFrame}
      (h : f.opcode ∉ [opContinuation, opText, opBinary, opClose, opPing, opPong]) : Unacceptable kept f
  | unopened {f : RawFrame} (h : f.opcode = opContinuation) : Unacceptable none f
  | marked (kept : Option Unfinished) {f : RawFrame} (h : f.opcode = opContinuation) (hrsv1 : f.rsv1 = true) :
      Unacceptable kept f
  | inside (u : Unfinished) {f : RawFrame} (h : f.opcode = opText ∨ f.opcode = opBinary) : Unacceptable (some u) f
  | tooBig (u : Unfinished) {f : RawFrame} (h : f.opcode = opContinuation)
      (hsize : maxMessage < u.data.length + f.payload.length) : Unacceptable (some u) f
  | unreadable (kept : Option Unfinished) {f : RawFrame} (h : f.opcode < 8) (hfin : f.fin = true)
      (hunreadable : Unreadable deflate inflate (joined f kept)) : Unacceptable kept f
  | closeByte (kept : Option Unfinished) {f : RawFrame} (h : f.opcode = opClose) (hlen : f.payload.length = 1) :
      Unacceptable kept f
  | closeCode (kept : Option Unfinished) {f : RawFrame} {high low : UInt8} {reason : Bytes} (h : f.opcode = opClose)
      (hpayload : f.payload = high :: low :: reason) (hcode : sendable (fromBigEndian [high, low]) = false) :
      Unacceptable kept f
  | closeReason (kept : Option Unfinished) {f : RawFrame} {high low : UInt8} {reason : Bytes} (h : f.opcode = opClose)
      (hpayload : f.payload = high :: low :: reason) (hreason : Lib.validUtf8 reason = false) : Unacceptable kept f

variable {deflate inflate}

theorem finish_error_iff {u : Unfinished} :
    (∃ e, finish deflate inflate u = .error e) ↔ Unreadable deflate inflate u := by
  constructor
  · rintro ⟨e, h⟩
    unfold finish at h
    split at h
    · next hmark =>
      simp at hmark
      exact .compressed hmark.1 hmark.2
    cases hcompressed : u.compressed with
    | false =>
      simp only [hcompressed, Bool.false_eq_true, if_false, bind, Except.bind] at h
      split at h
      · next hopcode =>
        split at h
        · cases h
        · next hutf8 => exact .plain hopcode hcompressed (by simpa using hutf8)
      · cases h
    | true =>
      cases hcontent : inflate u.data with
      | error e => exact .inflate hcompressed hcontent
      | ok content =>
        simp only [hcompressed, if_true, hcontent, Except.mapError, bind, Except.bind] at h
        split at h
        · next hopcode =>
          split at h
          · cases h
          · next hutf8 => exact .inflated hopcode hcompressed hcontent (by simpa using hutf8)
        · cases h
  · intro h
    cases h with
    | compressed h hdeflate => simp [finish, h, hdeflate]
    | inflate h he => cases deflate <;> simp [finish, h, he, Except.mapError, bind, Except.bind]
    | plain hopcode h hutf8 => simp [finish, h, hopcode, hutf8, bind, Except.bind]
    | inflated hopcode h hcontent hutf8 =>
      cases deflate <;> simp [finish, h, hopcode, hcontent, hutf8, Except.mapError, bind, Except.bind]

theorem closeCode_error {payload : Bytes} {e : Failure} (h : closeCode payload = .error e) :
    payload.length = 1 ∨ ∃ high low reason, payload = high :: low :: reason ∧
      (sendable (fromBigEndian [high, low]) = false ∨ Lib.validUtf8 reason = false) := by
  unfold closeCode at h
  split at h
  · cases h
  · exact .inl rfl
  · next high low reason =>
    dsimp only at h
    split at h
    · next hcode => exact .inr ⟨high, low, reason, rfl, .inl (by simpa using hcode)⟩
    split at h
    · cases h
    · next hreason => exact .inr ⟨high, low, reason, rfl, .inr (by simpa using hreason)⟩

/-- What `gather` takes: a message's first frame, or one that goes on. -/
theorem gather_ok {kept : Option Unfinished} {f : RawFrame} {u : Unfinished} (h : gather kept f = .ok u) :
    u = joined f kept ∧ (kept = none ∧ (f.opcode = opText ∨ f.opcode = opBinary) ∨
      ∃ v, kept = some v ∧ f.opcode = opContinuation ∧ f.rsv1 = false ∧
        v.data.length + f.payload.length ≤ maxMessage) := by
  unfold gather at h
  split at h
  · next hopen =>
    obtain rfl := Option.isNone_iff_eq_none.mp hopen.2
    exact ⟨(Except.ok.inj h).symm, .inl ⟨rfl, hopen.1⟩⟩
  · split at h
    · next hmore =>
      cases kept with
      | none => cases h
      | some v =>
        dsimp only at h
        split at h
        · next hsize => exact ⟨(Except.ok.inj h).symm, .inr ⟨v, rfl, hmore.1, hmore.2, hsize⟩⟩
        · cases h
    · cases h

theorem gather_lt {kept : Option Unfinished} {f : RawFrame} {u : Unfinished} (h : gather kept f = .ok u) :
    f.opcode < 8 := by
  obtain ⟨-, ⟨-, hopcode⟩ | ⟨v, -, hopcode, -⟩⟩ := gather_ok h
  · exact data_lt hopcode
  · exact hopcode ▸ continuation_lt

/-- A data frame that is taken goes on with the message, and ends it readably. -/
theorem feed_data_ok {kept kept' : Option Unfinished} {f : RawFrame} {told : Option Incoming}
    (hlt : f.opcode < 8) (h : feed deflate inflate kept f = .ok (told, kept')) :
    gather kept f = .ok (joined f kept) ∧ (f.fin = true → ¬ Unreadable deflate inflate (joined f kept)) ∧
      kept' = if f.fin then none else some (joined f kept) := by
  rw [feed_data hlt] at h
  cases hgather : gather kept f with
  | error e => simp [hgather, Except.bind] at h
  | ok u =>
    obtain ⟨rfl, -⟩ := gather_ok hgather
    rw [hgather] at h
    cases hfin : f.fin with
    | false =>
      simp only [Except.bind, hfin, Bool.false_eq_true, if_false, Except.ok.injEq, Prod.mk.injEq] at h
      exact ⟨rfl, fun hfin => (by cases hfin), h.2.symm⟩
    | true =>
      simp only [Except.bind, hfin, if_true] at h
      cases hfinish : finish deflate inflate (joined f kept) with
      | error e => simp [hfinish, Except.map] at h
      | ok told =>
        simp only [hfinish, Except.map, Except.ok.injEq, Prod.mk.injEq] at h
        refine ⟨rfl, fun _ hunreadable => ?_, h.2.symm⟩
        obtain ⟨e, he⟩ := finish_error_iff.mpr hunreadable
        rw [hfinish] at he
        cases he

/-- A close frame that is taken has a payload that may be. -/
theorem feed_close_ok {kept : Option Unfinished} {f : RawFrame} {fed : Option Incoming × Option Unfinished}
    (hclose : f.opcode = opClose) (h : feed deflate inflate kept f = .ok fed) :
    ∃ code, closeCode f.payload = .ok code := by
  cases hcode : closeCode f.payload with
  | ok code => exact ⟨code, rfl⟩
  | error e => simp [feed, hclose, hcode, Except.map] at h

/-- **A frame is refused exactly where it breaks the protocol.** -/
theorem feed_error_iff {kept : Option Unfinished} {f : RawFrame} :
    (∃ e, feed deflate inflate kept f = .error e) ↔ Unacceptable deflate inflate kept f := by
  constructor
  · rintro ⟨e, h⟩
    unfold feed at h
    split at h
    · next hclose =>
      cases hcode : closeCode f.payload with
      | ok code => simp [hcode, Except.map] at h
      | error e' =>
        obtain hlen | ⟨high, low, reason, hpayload, hbad⟩ := closeCode_error hcode
        · exact .closeByte kept hclose hlen
        · obtain hsendable | hreason := hbad
          · exact .closeCode kept hclose hpayload hsendable
          · exact .closeReason kept hclose hpayload hreason
    split at h
    · cases h
    split at h
    · cases h
    next hclose hping hpong =>
    cases hgather : gather kept f with
    | ok u =>
      have hlt := gather_lt hgather
      obtain ⟨rfl, -⟩ := gather_ok hgather
      simp only [hgather, bind, Except.bind] at h
      split at h
      · next hfin =>
        refine .unreadable kept hlt hfin (finish_error_iff.mp ?_)
        cases hfinish : finish deflate inflate (joined f kept) with
        | error e' => exact ⟨e', rfl⟩
        | ok told => simp [hfinish, Except.map] at h
      · cases h
    | error e' =>
      unfold gather at hgather
      split at hgather
      · cases hgather
      next hopen =>
      split at hgather
      · next hmore =>
        split at hgather
        · next u =>
          split at hgather
          · cases hgather
          · next hsize => exact .tooBig u hmore.1 (by omega)
        · exact .unopened hmore.1
      · next hmore =>
        by_cases hcontinuation : f.opcode = opContinuation
        · exact .marked kept hcontinuation (by simpa [hcontinuation] using hmore)
        by_cases hdata : f.opcode = opText ∨ f.opcode = opBinary
        · cases kept with
          | none => exact absurd ⟨hdata, rfl⟩ hopen
          | some u => exact .inside u hdata
        · exact .reserved kept (by simp_all)
  · intro h
    cases hfeed : feed deflate inflate kept f with
    | error e => exact ⟨e, rfl⟩
    | ok fed =>
      exfalso
      cases h with
      | reserved kept h =>
        simp only [List.mem_cons, List.not_mem_nil, or_false, not_or] at h
        simp [feed, gather, h] at hfeed
        cases hfeed
      | unopened h =>
        obtain ⟨hgather, -⟩ := feed_data_ok (h ▸ continuation_lt) hfeed
        obtain ⟨-, ⟨-, hopen⟩ | ⟨v, hv, -⟩⟩ := gather_ok hgather
        · rw [h] at hopen
          exact absurd hopen (by decide)
        · cases hv
      | marked kept h hrsv1 =>
        obtain ⟨hgather, -⟩ := feed_data_ok (h ▸ continuation_lt) hfeed
        simp [gather, h, hrsv1, opContinuation, opText, opBinary] at hgather
      | inside u h =>
        obtain ⟨hgather, -⟩ := feed_data_ok (data_lt h) hfeed
        obtain ⟨-, ⟨hnone, -⟩ | ⟨v, -, hcontinuation, -⟩⟩ := gather_ok hgather
        · cases hnone
        · rw [hcontinuation] at h
          exact absurd h (by decide)
      | tooBig u h hsize =>
        obtain ⟨hgather, -⟩ := feed_data_ok (h ▸ continuation_lt) hfeed
        obtain ⟨-, ⟨hnone, -⟩ | ⟨v, hv, -, -, hle⟩⟩ := gather_ok hgather
        · cases hnone
        · cases hv
          omega
      | unreadable kept h hfin hunreadable => exact (feed_data_ok h hfeed).2.1 hfin hunreadable
      | closeByte kept h hlen =>
        obtain ⟨code, hcode⟩ := feed_close_ok h hfeed
        obtain ⟨b, hb⟩ := List.length_eq_one_iff.mp hlen
        rw [hb] at hcode
        cases hcode
      | closeCode kept h hpayload hbad =>
        obtain ⟨code, hcode⟩ := feed_close_ok h hfeed
        simp [hpayload, closeCode, hbad] at hcode
      | closeReason kept h hpayload hreason =>
        obtain ⟨code, hcode⟩ := feed_close_ok h hfeed
        simp [hpayload, closeCode, hreason] at hcode
        split at hcode <;> cases hcode

theorem closeCode_ne_eof (payload : Bytes) : closeCode payload ≠ .error .eof := by
  unfold closeCode
  split
  · simp
  · simp
  · dsimp only
    split
    · simp
    · split <;> simp

theorem gather_ne_eof (kept : Option Unfinished) (f : RawFrame) : gather kept f ≠ .error .eof := by
  unfold gather
  split
  · simp
  split
  · cases kept with
    | none => simp
    | some u =>
      dsimp only
      split <;> simp
  · simp

theorem finish_ne_eof (u : Unfinished) : finish deflate inflate u ≠ .error .eof := by
  unfold finish
  split
  · simp
  cases u.compressed <;> cases inflate u.data <;> simp [bind, Except.bind, Except.mapError] <;> split <;>
    first | simp | (split <;> simp)

/-- Feeding never waits for the stream. -/
theorem feed_error {kept : Option Unfinished} {f : RawFrame} {e : Failure}
    (h : feed deflate inflate kept f = .error e) : e ≠ .eof := by
  rintro rfl
  unfold feed at h
  split at h
  · cases hcode : closeCode f.payload with
    | ok code => simp [hcode, Except.map] at h
    | error e => exact closeCode_ne_eof f.payload (by simpa [hcode, Except.map] using h)
  split at h
  · cases h
  split at h
  · cases h
  cases hgather : gather kept f with
  | error e => exact gather_ne_eof kept f (by simpa [hgather, bind, Except.bind] using h)
  | ok u =>
    cases hfinish : finish deflate inflate u with
    | ok told => cases hfin : f.fin <;> simp [hgather, bind, Except.bind, hfin, hfinish, Except.map] at h
    | error e =>
      refine @finish_ne_eof deflate inflate u ?_
      cases hfin : f.fin <;> simp [hgather, bind, Except.bind, hfin, hfinish, Except.map] at h
      rw [hfinish, h]

theorem deliver_broken {kept : Option Unfinished} {f : RawFrame} {bytes : Bytes} (hbytes : Encodes f bytes)
    (h : Unacceptable deflate inflate kept f) (rest : Bytes) :
    deliver deflate inflate kept (bytes ++ rest) = [.invalid] := by
  obtain ⟨e, he⟩ := feed_error_iff.mpr h
  have hnext := @next_frame deflate inflate kept _ _ _ (frame_encode hbytes rest)
  rw [he] at hnext
  rw [deliver_error hnext, if_neg (feed_error he)]

/-! ## 5. Every stream -/

/-- A control frame that is taken, from the sender's side. -/
theorem control_of_feed {kept kept' : Option Unfinished} {f : RawFrame} {told : Option Incoming}
    (hf : Admissible f) (h : feed deflate inflate kept f = .ok (told, kept')) (hcontrol : ¬ f.opcode < 8) :
    ∃ c : Control, c.Ok ∧ f = c.frame := by
  have hopcode : 0x8 ≤ f.opcode := UInt8.not_lt.mp hcontrol
  have hlength := hf.length
  simp only [badLength, hopcode, decide_true, Bool.true_and, Bool.or_eq_false_iff, decide_eq_false_iff_not,
    Bool.not_eq_false'] at hlength
  obtain ⟨⟨⟨hlen, hfin⟩, hrsv1⟩, -⟩ := hlength
  have hframe (c : Control) (hop : f.opcode = c.opcode) (hpayload : f.payload = c.payload) : f = c.frame := by
    obtain ⟨fin, rsv1, opcode, payload⟩ := f
    simp_all [Control.frame]
  by_cases hclose : f.opcode = opClose
  · obtain ⟨code, hcode⟩ := feed_close_ok hclose h
    obtain ⟨status, hpayload, -, hstatus⟩ := closeCode_ok.mp hcode
    refine ⟨.close status, ⟨?_, ?_⟩, hframe _ hclose hpayload⟩
    · rw [← hpayload]
      omega
    · rintro code reason ⟨⟩
      exact hstatus code reason rfl
  by_cases hping : f.opcode = opPing
  · exact ⟨.ping f.payload, ⟨by simpa [Control.payload] using hlen, fun _ _ h => by cases h⟩, hframe _ hping rfl⟩
  by_cases hpong : f.opcode = opPong
  · exact ⟨.pong f.payload, ⟨by simpa [Control.payload] using hlen, fun _ _ h => by cases h⟩, hframe _ hpong rfl⟩
  exfalso
  have hreserved : Unacceptable deflate inflate kept f := by
    refine .reserved kept ?_
    have hno (op : UInt8) (hop : op < 8) : f.opcode ≠ op := fun heq => hcontrol (heq ▸ hop)
    simp [hclose, hping, hpong, hno opContinuation (by decide), hno opText (by decide), hno opBinary (by decide)]
  obtain ⟨e, he⟩ := feed_error_iff.mpr hreserved
  rw [h] at he
  cases he

/-- What a readable message stands for. -/
theorem carried_of_readable {isText compressed : Bool} {opcode : UInt8} {data : Bytes}
    (hopcode : opcode = if isText then opText else opBinary) (hsize : data.length ≤ maxMessage)
    (h : ¬ Unreadable deflate inflate ⟨opcode, compressed, data⟩) :
    ∃ content, (Message.mk isText compressed content).Carried deflate inflate data := by
  have htext (ht : isText = true) : opcode = opText := by rw [hopcode, ht]; rfl
  cases compressed with
  | false =>
    refine ⟨data, hsize, fun _ => rfl, fun hc => (by cases hc), fun ht => ?_⟩
    by_contra hutf8
    exact h (.plain (htext ht) rfl (by simpa using hutf8))
  | true =>
    cases hcontent : inflate data with
    | error e => exact absurd (.inflate rfl hcontent) h
    | ok content =>
      refine ⟨content, hsize, fun hc => (by cases hc), fun _ => ⟨?_, hcontent⟩, fun ht => ?_⟩
      · by_contra hdeflate
        exact h (.compressed rfl (by simpa using hdeflate))
      · by_contra hutf8
        exact h (.inflated (htext ht) rfl hcontent (by simpa using hutf8))

/-- The frames of messages and control frames, and of a message without its last frame. -/
def framesOf (script : List Sent) (tail : Option Unended) : List RawFrame :=
  script.flatMap Sent.frames ++ (tail.map Unended.frames).getD []

def toldOf (script : List Sent) (tail : Option Unended) : List Incoming :=
  script.flatMap Sent.told ++ (tail.map Unended.told).getD []

/-- A client that keeps to the protocol, up to now. -/
structure Valid (deflate : Bool) (inflate : Bytes → Except String Bytes) (script : List Sent)
    (tail : Option Unended) : Prop where
  script : ∀ sent ∈ script, sent.Ok deflate inflate
  tail : ∀ u, tail = some u → u.Ok

theorem fed_valid {script : List Sent} {tail : Option Unended} (h : Valid deflate inflate script tail) :
    Fed deflate inflate none (framesOf script tail) (toldOf script tail) (tail.map Unended.kept) := by
  cases tail with
  | none => simpa [framesOf, toldOf] using fed_script h.script
  | some u => exact (fed_script h.script).append (fed_unended (h.tail u rfl))

theorem Valid.concat {script : List Sent} {sent : Sent} (h : ∀ sent ∈ script, sent.Ok deflate inflate)
    (hsent : sent.Ok deflate inflate) : Valid deflate inflate (script ++ [sent]) none :=
  ⟨fun other hother => (List.mem_append.mp hother).elim (h other) fun hlast => List.mem_singleton.mp hlast ▸ hsent,
    fun u hu => by cases hu⟩

theorem Valid.add {script : List Sent} {u : Unended} {piece : Piece} (h : Valid deflate inflate script (some u))
    (hpiece : piece.Ok) (hsize : (u.data ++ piece.data).length ≤ maxMessage) :
    Valid deflate inflate script (some (u.add piece)) :=
  ⟨h.script, fun _ hu => Option.some.inj hu ▸ (h.tail u rfl).add hpiece hsize⟩

/-- Frames of a client who keeps to the protocol, and what the reader keeps of them. -/
inductive Sending (deflate : Bool) (inflate : Bytes → Except String Bytes) : List RawFrame → Option Unfinished → Prop
  | mk {script : List Sent} {tail : Option Unended} (h : Valid deflate inflate script tail) :
      Sending deflate inflate (framesOf script tail) (tail.map Unended.kept)

theorem framesOf_concat (script : List Sent) (sent : Sent) :
    framesOf (script ++ [sent]) none = framesOf script none ++ sent.frames := by
  simp [framesOf]

theorem framesOf_add (script : List Sent) (u : Unended) (piece : Piece) :
    framesOf script (some (u.add piece)) = framesOf script (some u) ++ [piece.frame] := by
  simp [framesOf]

/-- A control frame leaves the message as it is. -/
theorem Sending.control {fs : List RawFrame} {kept : Option Unfinished} {c : Control}
    (h : Sending deflate inflate fs kept) (hc : c.Ok) : Sending deflate inflate (fs ++ [c.frame]) kept := by
  obtain ⟨hvalid⟩ := h
  next script tail =>
  cases tail with
  | none =>
    have hsent : Sent.Ok deflate inflate (.control c) := hc
    have hmade := Sending.mk (Valid.concat hvalid.script hsent)
    rwa [framesOf_concat] at hmade
  | some u =>
    have hpiece : (Piece.control c).Ok := hc
    have hmade := Sending.mk (hvalid.add hpiece (by simpa [Piece.data] using (hvalid.tail u rfl).size))
    rw [framesOf_add, Option.map_some, Unended.kept_add, Piece.data, List.append_nil] at hmade
    exact hmade

/-- A frame that begins a message, or is one. -/
theorem Sending.first {fs : List RawFrame} {fin rsv1 : Bool} {payload : Bytes} (isText : Bool)
    (h : Sending deflate inflate fs none) (hsize : payload.length ≤ maxMessage)
    (hreadable : fin = true → ¬ Unreadable deflate inflate ⟨if isText then opText else opBinary, rsv1, payload⟩) :
    Sending deflate inflate (fs ++ [⟨fin, rsv1, if isText then opText else opBinary, payload⟩])
      (if fin then none else some ⟨if isText then opText else opBinary, rsv1, payload⟩) := by
  generalize hkept : (none : Option Unfinished) = kept at h
  obtain ⟨hvalid⟩ := h
  next script tail =>
  obtain rfl := Option.map_eq_none_iff.mp hkept.symm
  cases fin with
  | false =>
    have hu : Unended.Ok ⟨isText, rsv1, payload, []⟩ :=
      ⟨by simpa [Unended.data] using hsize, fun _ h => (by cases h)⟩
    have hmade : Sending deflate inflate _ _ := .mk ⟨hvalid.script, fun _ heq => Option.some.inj heq ▸ hu⟩
    simpa [framesOf, Unended.frames, Unended.kept, Unended.opcode, Unended.data] using hmade
  | true =>
    obtain ⟨content, hcontent⟩ := carried_of_readable rfl hsize (hreadable rfl)
    have hsent : Sent.Ok deflate inflate (.whole ⟨isText, rsv1, content⟩ payload) := hcontent
    have hmade := Sending.mk (Valid.concat hvalid.script hsent)
    rw [framesOf_concat] at hmade
    exact hmade

/-- A frame that goes on with a message. -/
theorem Sending.more {fs : List RawFrame} {fin : Bool} {payload : Bytes} {v : Unfinished}
    (h : Sending deflate inflate fs (some v)) (hsize : v.data.length + payload.length ≤ maxMessage)
    (hreadable : fin = true → ¬ Unreadable deflate inflate { v with data := v.data ++ payload }) :
    Sending deflate inflate (fs ++ [⟨fin, false, opContinuation, payload⟩])
      (if fin then none else some { v with data := v.data ++ payload }) := by
  generalize hkept : some v = kept at h
  obtain ⟨hvalid⟩ := h
  next script tail =>
  obtain ⟨u, rfl, rfl⟩ := Option.map_eq_some_iff.mp hkept.symm
  cases fin with
  | false =>
    have hpiece : (Piece.more payload).Ok := trivial
    have hmade := Sending.mk (hvalid.add hpiece (by rw [List.length_append]; exact hsize))
    rw [framesOf_add, Option.map_some, Unended.kept_add] at hmade
    exact hmade
  | true =>
    have hdata : u.kept.data ++ payload = u.first ++ (u.middle.flatMap Piece.data ++ payload) :=
      List.append_assoc _ _ _
    obtain ⟨content, hcontent⟩ := carried_of_readable rfl (by simpa using hsize) (hreadable rfl)
    rw [hdata] at hcontent
    have hsent : Sent.Ok deflate inflate (.split ⟨u.isText, u.compressed, content⟩ u.first u.middle payload) :=
      ⟨hcontent, (hvalid.tail u rfl).pieces⟩
    have hmade := Sending.mk (Valid.concat hvalid.script hsent)
    simpa [framesOf, Sent.frames, Unended.frames, Unended.opcode, Message.opcode] using hmade

/-- **Frames that are taken are a client's who keeps to the protocol.** -/
theorem sending_of_fed {fs : List RawFrame} {told : List Incoming} {kept : Option Unfinished}
    (hfs : ∀ f ∈ fs, Admissible f) (h : Fed deflate inflate none fs told kept) : Sending deflate inflate fs kept := by
  induction fs using List.reverseRecOn generalizing told kept with
  | nil =>
    cases h
    have hvalid : Valid deflate inflate [] none := ⟨fun _ h => (by cases h), fun _ h => (by cases h)⟩
    exact .mk hvalid
  | append_singleton fs f ih =>
    obtain ⟨kept', front, back, hfront, hback⟩ := h.append_inv
    have hsending := ih (fun g hg => hfs g (List.mem_append_left [f] hg)) hfront
    have hf := hfs f (List.mem_append_right _ List.mem_cons_self)
    cases hback with
    | cons hfeed hnil =>
    cases hnil
    by_cases hlt : f.opcode < 8
    swap
    · obtain ⟨c, hc, rfl⟩ := control_of_feed hf hfeed hlt
      rw [feed_control hc] at hfeed
      obtain ⟨-, rfl⟩ := Prod.mk.inj (Except.ok.inj hfeed)
      exact hsending.control hc
    obtain ⟨hgather, hreadable, rfl⟩ := feed_data_ok hlt hfeed
    have hpayload : f.payload.length ≤ maxMessage := by
      have hlength := hf.length
      simp only [badLength, Bool.or_eq_false_iff, decide_eq_false_iff_not] at hlength
      omega
    obtain ⟨fin, rsv1, opcode, payload⟩ := f
    obtain ⟨-, ⟨rfl, hopcode⟩ | ⟨v, rfl, rfl, rfl, hsize⟩⟩ := gather_ok hgather
    · obtain rfl | rfl := hopcode
      · exact Sending.first true hsending hpayload hreadable
      · exact Sending.first false hsending hpayload hreadable
    · exact hsending.more hsize hreadable

/-- What ends the frames of a stream: they stop coming, or one breaks the protocol. -/
inductive Ends (deflate : Bool) (inflate : Bytes → Except String Bytes) (kept : Option Unfinished) :
    Bytes → List Incoming → Prop
  | eof {rest : Bytes} (h : frame rest = .error .eof) : Ends deflate inflate kept rest []
  | refused {rest : Bytes} {message : String} (h : Refused rest message) :
      Ends deflate inflate kept rest [.invalid]
  | broken {f : RawFrame} {bytes rest : Bytes} (hbytes : Encodes f bytes)
      (h : Unacceptable deflate inflate kept f) : Ends deflate inflate kept (bytes ++ rest) [.invalid]

theorem Ends.deliver {kept : Option Unfinished} {rest : Bytes} {told : List Incoming}
    (h : Ends deflate inflate kept rest told) : deliver deflate inflate kept rest = told := by
  cases h with
  | eof h => exact deliver_eof h
  | refused h => exact deliver_refused h
  | broken hbytes h => exact deliver_broken hbytes h _

/-- Every stream is frames that are taken, and what ends them. -/
theorem exists_fed (kept : Option Unfinished) (s : Bytes) :
    ∃ fs bytes rest told kept' ending, s = bytes ++ rest ∧ Encoded fs bytes ∧ (∀ f ∈ fs, Admissible f) ∧
      Fed deflate inflate kept fs told kept' ∧ Ends deflate inflate kept' rest ending := by
  induction hn : s.length using Nat.strong_induction_on generalizing s kept with
  | _ n ih =>
    cases hframe : frame s with
    | error e =>
      refine ⟨[], [], s, [], kept, ?_⟩
      cases e with
      | eof => exact ⟨_, rfl, .nil, fun _ h => (by cases h), .nil kept, .eof hframe⟩
      | protocol message =>
        exact ⟨_, rfl, .nil, fun _ h => (by cases h), .nil kept, .refused (frame_protocol_iff.mp hframe)⟩
    | ok read =>
      obtain ⟨bytes, hbytes, hs⟩ := frame_ok hframe
      cases hfeed : feed deflate inflate kept read.1 with
      | error e =>
        have hends : Ends deflate inflate kept s [.invalid] := by
          rw [hs]
          exact .broken hbytes (feed_error_iff.mp ⟨e, hfeed⟩)
        exact ⟨[], [], s, [], kept, _, rfl, .nil, fun _ h => (by cases h), .nil kept, hends⟩
      | ok fed =>
        obtain ⟨fs, more, rest, told, kept', ending, hmore, hencoded, hadmissible, hfed, hends⟩ :=
          ih _ (hn ▸ length_of_frame hframe) fed.2 read.2 rfl
        refine ⟨read.1 :: fs, bytes ++ more, rest, _, kept', ending, ?_, .cons hbytes hencoded, ?_,
          .cons hfeed hfed, hends⟩
        · rw [hs, hmore, List.append_assoc]
        · exact List.forall_mem_cons.mpr ⟨hbytes.1, hadmissible⟩

end Broken

/-- **Every stream is told as what was sent up to its end or its first broken frame.** The frames before it
    are those of a client who keeps to the protocol, one message perhaps without its last frame; they are
    told, and the broken frame, if there is one, as invalid. -/
theorem deliver_spec (deflate : Bool) (inflate : Bytes → Except String Bytes) (s : Bytes) :
    ∃ script tail bytes rest ending, s = bytes ++ rest ∧ Encoded (framesOf script tail) bytes ∧
      Valid deflate inflate script tail ∧ Ends deflate inflate (tail.map Unended.kept) rest ending ∧
      deliver deflate inflate none s = hear (toldOf script tail) ending := by
  obtain ⟨fs, bytes, rest, told, kept, ending, rfl, hencoded, hadmissible, hfed, hends⟩ :=
    @exists_fed deflate inflate none s
  obtain ⟨hvalid⟩ := sending_of_fed hadmissible hfed
  refine ⟨_, _, bytes, rest, ending, rfl, hencoded, hvalid, hends, ?_⟩
  rw [(fed_valid hvalid).deliver hencoded, hends.deliver]

end Smartfire.Framing
