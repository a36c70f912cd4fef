/-
  File:      Smartfire/Deflater/Splice.lean
  Subject:   A spliced gzip body is the page.

  What is remembered is right of the buffers as they are: an entry is of the fragment at its address, and
  a piece compressed against a fragment is compressed against the one at the address it pins. A buffer
  that an entry, a pin or a page refers to stays, so this holds whatever is allocated and freed. A part's
  key then determines its bytes and its dictionary, where no digests collide.

  * `Deflates` -- what is assumed of deflate: a piece adds its text to what was inflated before it, where
    that ends with its dictionary;
  * `PiecesFit`, `inflate_pieces` -- a chain of pieces inflates to the page;
  * `Splicer.Inv`, `inv_reach` -- what a run keeps;
  * `Spliced`, `spliced_of_reach` -- the property.
-/
import Smartfire.Deflater.Pieces

namespace Smartfire

open Lib

/-! ## 1. Inflating -/

/-- What is assumed of raw deflate. `inflate out stream` goes on from what is out already, up to the end
    of the stream, and answers what is out then with the bytes that follow. -/
structure Deflates (deflate : Bytes → Bytes → Bytes) (inflate : Bytes → Bytes → Option (Bytes × Bytes)) :
    Prop where
  /-- A sync-flushed piece delimits itself, and refers back into its dictionary at most. -/
  piece : ∀ out dictionary text rest, dictionary <:+ out → dictionary.length ≤ window →
    inflate out (deflate dictionary text ++ rest) = inflate (out ++ text) rest
  /-- The empty final block (fixed Huffman). -/
  final : ∀ out rest, inflate out (0x03 :: 0x00 :: rest) = some (out, rest)

/-- What a gzip member decodes to: its header skipped, its checksum and length compared. -/
def gunzip (inflate : Bytes → Bytes → Option (Bytes × Bytes)) (crc32 : Bytes → Nat) : Bytes → Option Bytes
  | 0x1f :: 0x8b :: 8 :: 0 :: _ :: _ :: _ :: _ :: _ :: _ :: stream =>
    match inflate [] stream with
    | some (out, trailer) =>
      if trailer = leBytes 4 (crc32 out) ++ leBytes 4 out.length then some out else none
    | none => none
  | _ => none

/-- **Each part's piece was compressed from the part, with what comes right before it as dictionary.** -/
def PiecesFit (deflate : Bytes → Bytes → Bytes) (body : Bytes) : Option Part → List Part → List Piece → Prop
  | prev, part :: parts, piece :: pieces =>
    piece = compress deflate (beforeOf body prev).2 (part.bytes body) ∧
      PiecesFit deflate body (some part) parts pieces
  | _, parts, pieces => parts = [] ∧ pieces = []

/-- What comes before a place ends with what the part before it shows. -/
def Follows (digest : Bytes → Bytes) (body : Bytes) (prev : Option Part) (position : Nat) : Prop :=
  match prev with
  | none => position = 0
  | some part => part.Sound digest body ∧ part.stop = position

section Inflate

variable {digest : Bytes → Bytes} {deflate : Bytes → Bytes → Bytes}
  {inflate : Bytes → Bytes → Option (Bytes × Bytes)} {crc32 : Bytes → Nat} {body : Bytes}

theorem Follows.suffix {prev : Option Part} {position : Nat} (h : Follows digest body prev position) :
    (beforeOf body prev).2 <:+ body.take position := by
  cases prev with
  | none => exact List.nil_suffix
  | some part =>
    obtain ⟨hs, rfl⟩ := h
    exact hs.asBefore_suffix

/-- **What a part's predecessor shows comes right before it.** -/
theorem follows_of_covers {before after : List Part} {part : Part} {prev : Option Part} {position : Nat}
    (hf : Follows digest body prev position) (hc : Covers digest body position (before ++ part :: after)) :
    Follows digest body (before.getLast?.or prev) part.start := by
  induction before generalizing prev position with
  | nil =>
    rw [hc.2.1]
    exact hf
  | cons first before ih =>
    have hnext := @ih (some first) first.stop ⟨hc.1, rfl⟩ hc.2.2
    rw [List.getLast?_cons]
    cases hlast : before.getLast? with
    | none =>
      rw [hlast] at hnext
      exact hnext
    | some last =>
      rw [hlast] at hnext
      exact hnext

/-- **A chain of pieces inflates to the page**, from any part on. -/
theorem inflate_pieces (hd : Deflates deflate inflate) {prev : Option Part} {position : Nat}
    {parts : List Part} {pieces : List Piece} (hf : Follows digest body prev position)
    (hc : Covers digest body position parts) (hp : PiecesFit deflate body prev parts pieces) (rest : Bytes) :
    inflate (body.take position) (pieces.flatMap (·.deflated) ++ rest) = inflate body rest := by
  induction parts generalizing prev position pieces with
  | nil =>
    have hend : position = body.length := hc
    have hnil : pieces = [] := by
      cases pieces with
      | nil => rfl
      | cons => exact hp.2
    rw [hend, hnil, List.take_length]
    rfl
  | cons part parts ih =>
    cases pieces with
    | nil => cases hp.1
    | cons piece pieces =>
      obtain ⟨rfl, hpieces⟩ := hp
      obtain ⟨hs, rfl, hrest⟩ := hc
      have hdict : ∀ d : Bytes, d.drop (d.length - window) <:+ d := fun d => List.drop_suffix _ d
      have hlen : ∀ d : Bytes, (d.drop (d.length - window)).length ≤ window := fun d => by
        rw [List.length_drop]
        omega
      rw [List.flatMap_cons, List.append_assoc]
      have hpiece := hd.piece (body.take part.start) _ (part.bytes body) (pieces.flatMap (·.deflated) ++ rest)
        ((hdict (beforeOf body prev).2).trans hf.suffix) (hlen _)
      refine hpiece.trans ?_
      have hgrown : body.take part.start ++ part.bytes body = body.take part.stop := take_append_slice hs.le.1
      rw [hgrown]
      exact @ih (some part) part.stop pieces ⟨hs, rfl⟩ hrest hpieces

/-- **The gzip member decodes to exactly the body.** -/
theorem gunzip_gzip (hd : Deflates deflate inflate) {parts : List Part} {pieces : List Piece}
    (hc : Covers digest body 0 parts) (hp : PiecesFit deflate body none parts pieces) (mtime : Nat) :
    gunzip inflate crc32 (gzip body crc32 pieces mtime) = some body := by
  have hstream := @inflate_pieces digest deflate inflate body hd none 0 parts pieces rfl hc hp
    ([0x03, 0x00] ++ leBytes 4 (crc32 body) ++ leBytes 4 body.length)
  have hend := hd.final body (leBytes 4 (crc32 body) ++ leBytes 4 body.length)
  have hall : inflate [] (pieces.flatMap (·.deflated) ++
      ([0x03, 0x00] ++ leBytes 4 (crc32 body) ++ leBytes 4 body.length)) =
      some (body, leBytes 4 (crc32 body) ++ leBytes 4 body.length) := hstream.trans hend
  have hgzip : gzip body crc32 pieces mtime = 0x1f :: 0x8b :: 8 :: 0 :: UInt8.ofNat (mtime % 256) ::
      UInt8.ofNat (mtime / 256 % 256) :: UInt8.ofNat (mtime / 256 / 256 % 256) ::
      UInt8.ofNat (mtime / 256 / 256 / 256 % 256) :: 0 :: 3 :: (pieces.flatMap (·.deflated) ++
      ([0x03, 0x00] ++ leBytes 4 (crc32 body) ++ leBytes 4 body.length)) := by
    simp only [gzip, leBytes, List.append_assoc, List.cons_append, List.nil_append]
  rw [hgzip]
  show (match inflate [] _ with
    | some (out, trailer) => if trailer = leBytes 4 (crc32 out) ++ leBytes 4 out.length then some out else none
    | none => none) = some body
  rw [hall]
  exact if_pos rfl

end Inflate

/-! ## 2. What is right of the buffers -/

section Right

variable (digest : Bytes → Bytes) (deflate : Bytes → Bytes → Bytes) (buffers : Nat → Option Bytes)
  (hashed : List Bytes)

/-- What a piece takes to come before it is its dictionary; a fragment's address is pinned. -/
def BeforeRight (before : Before) (pin : Option Nat) (dictionary : Bytes) : Prop :=
  match before with
  | .nothing => dictionary = []
  | .text sha => sha = digest dictionary ∧ dictionary ∈ hashed
  | .fragment addr => pin = some addr ∧ buffers addr = some dictionary

structure PieceRight (before : Before) (pin : Option Nat) (piece : Piece) : Prop where
  source : piece = compress deflate piece.source.1 piece.source.2
  before : BeforeRight digest buffers hashed before pin piece.source.1

/-- A text piece is of a text of the digest it is kept under. -/
structure TextRight (key : Bytes × Before) (p : TextPiece) : Prop where
  piece : PieceRight digest deflate buffers hashed key.2 p.pin p.piece
  sha : key.1 = digest p.piece.source.2 ∧ p.piece.source.2 ∈ hashed

/-- A fragment's piece is of its glue and the fragment at the address. -/
structure FragmentRight (addr : Nat) (p : FragmentPiece) : Prop where
  piece : PieceRight digest deflate buffers hashed p.before p.pin p.piece
  text : ∃ bytes, buffers addr = some bytes ∧ p.piece.source.2 = p.glue ++ bytes

/-- An entry is of the fragment at the address. -/
structure KnownRight (addr : Nat) (k : KnownFragment) : Prop where
  sha : ∃ bytes, buffers addr = some bytes ∧ k.sha = digest bytes ∧ bytes ∈ hashed
  pieces : ∀ p ∈ k.pieces, FragmentRight digest deflate buffers hashed addr p

/-- A part of a body: what was hashed of it is on record, its fragment is where it says. -/
structure PartRight (body : Bytes) (part : Part) : Prop where
  sound : part.Sound digest body
  hashed : part.hashed body ∈ hashed
  buffer : ∀ f sha glue start stop, part = .fragment f sha glue start stop → buffers f.addr = some f.bytes

/-- Pieces of a page that were looked up, and the new ones. -/
structure Filled.Right (page : SplicedPage) (filled : Filled) : Prop where
  fit : PiecesFit deflate page.body none page.parts filled.pieces
  newTexts : ∀ e ∈ filled.newTexts, TextRight digest deflate buffers hashed e.1 e.2 ∧
    ∀ a, e.2.pin = some a → page.holds a = true
  newFragments : ∀ e ∈ filled.newFragments, FragmentRight digest deflate buffers hashed e.1 e.2 ∧
    page.holds e.1 = true ∧ ∀ a, e.2.pin = some a → page.holds a = true

structure SplicedPage.Right (page : SplicedPage) : Prop where
  covers : Covers digest page.body 0 page.parts
  parts : ∀ part ∈ page.parts, PartRight digest buffers hashed page.body part
  filled : ∀ filled, page.filled = some filled → filled.Right digest deflate buffers hashed page

end Right

/-! ## 3. What stays right -/

/-- Buffers stay, but for one that may have gone. -/
def Stay (gone : Option Nat) (buffers buffers' : Nat → Option Bytes) : Prop :=
  ∀ a b, gone ≠ some a → buffers a = some b → buffers' a = some b

section Stay

variable {digest : Bytes → Bytes} {deflate : Bytes → Bytes → Bytes} {buffers buffers' : Nat → Option Bytes}
  {hashed hashed' : List Bytes} {gone : Option Nat}

theorem PieceRight.stay {before : Before} {pin : Option Nat} {piece : Piece}
    (h : PieceRight digest deflate buffers hashed before pin piece) (hb : Stay gone buffers buffers')
    (hh : hashed ⊆ hashed') (hpin : ∀ a, pin = some a → gone ≠ some a) :
    PieceRight digest deflate buffers' hashed' before pin piece := by
  refine ⟨h.source, ?_⟩
  have hbefore := h.before
  cases before with
  | nothing => exact hbefore
  | text sha => exact ⟨hbefore.1, hh hbefore.2⟩
  | fragment addr => exact ⟨hbefore.1, hb addr _ (hpin addr hbefore.1) hbefore.2⟩

theorem TextRight.stay {key : Bytes × Before} {p : TextPiece}
    (h : TextRight digest deflate buffers hashed key p) (hb : Stay gone buffers buffers')
    (hh : hashed ⊆ hashed') (hpin : ∀ a, p.pin = some a → gone ≠ some a) :
    TextRight digest deflate buffers' hashed' key p :=
  ⟨h.piece.stay hb hh hpin, h.sha.1, hh h.sha.2⟩

theorem FragmentRight.stay {addr : Nat} {p : FragmentPiece}
    (h : FragmentRight digest deflate buffers hashed addr p) (hb : Stay gone buffers buffers')
    (hh : hashed ⊆ hashed') (haddr : gone ≠ some addr) (hpin : ∀ a, p.pin = some a → gone ≠ some a) :
    FragmentRight digest deflate buffers' hashed' addr p := by
  obtain ⟨bytes, hbytes, htext⟩ := h.text
  exact ⟨h.piece.stay hb hh hpin, bytes, hb addr bytes haddr hbytes, htext⟩

theorem KnownRight.stay {addr : Nat} {k : KnownFragment} (h : KnownRight digest deflate buffers hashed addr k)
    (hb : Stay gone buffers buffers') (hh : hashed ⊆ hashed') (haddr : gone ≠ some addr)
    (hpin : ∀ p ∈ k.pieces, ∀ a, p.pin = some a → gone ≠ some a) :
    KnownRight digest deflate buffers' hashed' addr k := by
  obtain ⟨bytes, hbytes, hsha, hin⟩ := h.sha
  exact ⟨⟨bytes, hb addr bytes haddr hbytes, hsha, hh hin⟩, fun p hp =>
    (h.pieces p hp).stay hb hh haddr (hpin p hp)⟩

theorem SplicedPage.holds_of_mem {page : SplicedPage} {f : Fragment} {sha : Bytes} {glue start stop : Nat}
    (h : Part.fragment f sha glue start stop ∈ page.parts) : page.holds f.addr = true :=
  List.any_eq_true.mpr ⟨_, h, decide_eq_true rfl⟩

theorem SplicedPage.Right.stay {page : SplicedPage} (h : page.Right digest deflate buffers hashed)
    (hb : Stay gone buffers buffers') (hh : hashed ⊆ hashed') (hholds : ∀ a, page.holds a = true → gone ≠ some a) :
    page.Right digest deflate buffers' hashed' := by
  refine ⟨h.covers, fun part hp => ?_, fun filled hf => ?_⟩
  · obtain ⟨hs, hin, hbuf⟩ := h.parts part hp
    refine ⟨hs, hh hin, fun f sha glue start stop heq => ?_⟩
    have haddr := hholds f.addr (SplicedPage.holds_of_mem (heq ▸ hp))
    exact hb _ _ haddr (hbuf f sha glue start stop heq)
  · obtain ⟨hfit, htexts, hfragments⟩ := h.filled filled hf
    refine ⟨hfit, fun e he => ?_, fun e he => ?_⟩
    · obtain ⟨hright, hpin⟩ := htexts e he
      exact ⟨hright.stay hb hh fun a ha => hholds a (hpin a ha), hpin⟩
    · obtain ⟨hright, haddr, hpin⟩ := hfragments e he
      exact ⟨hright.stay hb hh (hholds _ haddr) fun a ha => hholds a (hpin a ha), haddr, hpin⟩

end Stay

/-! ## 4. A page's pieces fit -/

/-- The pieces found fit. -/
def FoundFit (deflate : Bytes → Bytes → Bytes) (body : Bytes) :
    Option Part → List Part → List (Option Piece) → Prop
  | prev, part :: parts, found :: founds =>
    (∀ piece, found = some piece → piece = compress deflate (beforeOf body prev).2 (part.bytes body)) ∧
      FoundFit deflate body (some part) parts founds
  | _, parts, founds => parts = [] ∧ founds = []

section Fit

variable {digest : Bytes → Bytes} {deflate : Bytes → Bytes → Bytes} {buffers : Nat → Option Bytes}
  {hashed : List Bytes} {body : Bytes} {prev : Option Part} {part : Part}

/-- The bytes of a fragment's part: its glue, then the fragment. -/
theorem bytes_of_sound {f : Fragment} {sha : Bytes} {glue start stop : Nat}
    (h : (Part.fragment f sha glue start stop).Sound digest body) :
    (Part.fragment f sha glue start stop).bytes body = slice body start (start + glue) ++ f.bytes := by
  obtain ⟨rfl, _, _, hslice, _⟩ := h
  have hsplit := @slice_append_slice body start (start + glue) (start + glue + f.bytes.length)
    (Nat.le_add_right _ _) (Nat.le_add_right _ _)
  rw [hslice] at hsplit
  exact hsplit.symm

/-- What comes before a part is right of what it shows. -/
theorem beforeRight_of_part (hprev : ∀ part, prev = some part → PartRight digest buffers hashed body part) :
    BeforeRight digest buffers hashed (beforeOf body prev).1 (pinOf prev) (beforeOf body prev).2 := by
  cases prev with
  | none => rfl
  | some part =>
    have hp := hprev part rfl
    cases part with
    | text start stop sha => exact ⟨hp.sound.2.2, hp.hashed⟩
    | fragment f sha glue start stop =>
      refine ⟨rfl, ?_⟩
      show buffers f.addr = some (slice body (stop - f.bytes.length) stop)
      rw [hp.sound.asBefore_fragment]
      exact hp.buffer f sha glue start stop rfl

/-- **What comes before determines the dictionary**, where no digests collide. -/
theorem dictionary_of_before (hn : NoCollisions digest hashed) {pin : Option Nat} {dictionary : Bytes}
    (hprev : ∀ part, prev = some part → PartRight digest buffers hashed body part)
    (h : BeforeRight digest buffers hashed (beforeOf body prev).1 pin dictionary) :
    dictionary = (beforeOf body prev).2 := by
  cases prev with
  | none => exact h
  | some part =>
    have hp := hprev part rfl
    cases part with
    | text start stop sha =>
      obtain ⟨hsha, hin⟩ := h
      exact hn.eq hin hp.hashed (hsha.symm.trans hp.sound.2.2)
    | fragment f sha glue start stop =>
      obtain ⟨_, hbuf⟩ := h
      have hbytes : dictionary = f.bytes := Option.some.inj (hbuf.symm.trans (hp.buffer f sha glue start stop rfl))
      exact hbytes.trans hp.sound.asBefore_fragment.symm

/-- A stored piece of such a predecessor and such a text is the part's. -/
theorem PieceRight.fits (hn : NoCollisions digest hashed) {pin : Option Nat} {piece : Piece}
    (hprev : ∀ part, prev = some part → PartRight digest buffers hashed body part)
    (h : PieceRight digest deflate buffers hashed (beforeOf body prev).1 pin piece)
    (htext : piece.source.2 = part.bytes body) :
    piece = compress deflate (beforeOf body prev).2 (part.bytes body) := by
  have hdict := dictionary_of_before hn hprev h.before
  rw [← hdict, ← htext]
  exact h.source

variable {known : FragmentTable}

/-- **What is looked up fits**, and nothing new is kept. -/
theorem foundFit_lookUp (hn : NoCollisions digest hashed)
    (hknown : ∀ addr k, known.lookup addr = some k → KnownRight digest deflate buffers hashed addr k)
    {parts : List Part} {t : TextPieces}
    (htexts : ∀ key p, t.Holds key p → TextRight digest deflate buffers hashed key p)
    (hprev : ∀ part, prev = some part → PartRight digest buffers hashed body part)
    (hparts : ∀ part ∈ parts, PartRight digest buffers hashed body part) :
    FoundFit deflate body prev parts (lookUp body known prev parts t).1 ∧
      ∀ key p, (lookUp body known prev parts t).2.Holds key p → t.Holds key p := by
  induction parts generalizing prev t with
  | nil => exact ⟨⟨rfl, rfl⟩, fun _ _ h => h⟩
  | cons part parts ih =>
    have hpart := hparts part List.mem_cons_self
    have hrest : ∀ p ∈ parts, PartRight digest buffers hashed body p := fun p hp =>
      hparts p (List.mem_cons_of_mem _ hp)
    have hthis : ∀ p, some part = some p → PartRight digest buffers hashed body p := fun p hp =>
      Option.some.inj hp ▸ hpart
    cases part with
    | text start stop sha =>
      obtain ⟨hfound, hkept⟩ := t.holds_get (sha, (beforeOf body prev).1)
      obtain ⟨hfit, hkept'⟩ := @ih (some (.text start stop sha)) (t.get (sha, (beforeOf body prev).1)).2
        (fun key p h => htexts key p (hkept key p h)) hthis hrest
      refine ⟨⟨fun piece hpiece => ?_, hfit⟩, fun key p h => hkept key p (hkept' key p h)⟩
      obtain ⟨p, hp, rfl⟩ := hfound piece hpiece
      have hright := htexts _ p hp
      refine hright.piece.fits hn hprev ?_
      exact hn.eq hright.sha.2 hpart.hashed (hright.sha.1.symm.trans hpart.sound.2.2)
    | fragment f sha glue start stop =>
      obtain ⟨hfit, hkept⟩ := @ih (some (.fragment f sha glue start stop)) t htexts hthis hrest
      refine ⟨⟨fun piece hpiece => ?_, hfit⟩, hkept⟩
      obtain ⟨k, hk, hafter⟩ := Option.bind_eq_some_iff.mp hpiece
      obtain ⟨p, hfind, rfl⟩ := Option.map_eq_some_iff.mp hafter
      obtain ⟨hbefore, hglue⟩ : p.before = (beforeOf body prev).1 ∧ p.glue = slice body start (start + glue) := by
        simpa using List.find?_some hfind
      have hright := (hknown f.addr k hk).pieces p (List.mem_of_find?_eq_some hfind)
      obtain ⟨bytes, hbuf, htext⟩ := hright.text
      have hbytes : bytes = f.bytes := Option.some.inj (hbuf.symm.trans (hpart.buffer f sha glue start stop rfl))
      have hpiece' := hright.piece
      rw [hbefore] at hpiece'
      refine hpiece'.fits hn hprev ?_
      rw [htext, hglue, hbytes]
      exact (bytes_of_sound hpart.sound).symm

/-- **The pieces fit once the others are compressed**, and the new ones are right. -/
theorem fill_right {parts : List Part} {founds : List (Option Piece)} {holds : Nat → Prop}
    (hf : FoundFit deflate body prev parts founds)
    (hprev : ∀ part, prev = some part → PartRight digest buffers hashed body part)
    (hparts : ∀ part ∈ parts, PartRight digest buffers hashed body part)
    (hpin : ∀ a, pinOf prev = some a → holds a)
    (hholds : ∀ part ∈ parts, ∀ a, pinOf (some part) = some a → holds a) :
    PiecesFit deflate body prev parts (fill deflate body prev parts founds).pieces ∧
      (∀ e ∈ (fill deflate body prev parts founds).newTexts,
        TextRight digest deflate buffers hashed e.1 e.2 ∧ ∀ a, e.2.pin = some a → holds a) ∧
      ∀ e ∈ (fill deflate body prev parts founds).newFragments,
        FragmentRight digest deflate buffers hashed e.1 e.2 ∧ holds e.1 ∧ ∀ a, e.2.pin = some a → holds a := by
  induction parts generalizing prev founds with
  | nil =>
    obtain rfl : founds = [] := by
      cases founds with
      | nil => rfl
      | cons => exact hf.2
    exact ⟨⟨rfl, rfl⟩, nofun, nofun⟩
  | cons part parts ih =>
    cases founds with
    | nil => cases hf.1
    | cons found founds =>
      obtain ⟨hfound, hrest⟩ := hf
      have hpart := hparts part List.mem_cons_self
      have hthis : ∀ p, some part = some p → PartRight digest buffers hashed body p := fun p hp =>
        Option.some.inj hp ▸ hpart
      obtain ⟨hfit, htexts, hfragments⟩ := @ih (some part) founds hrest hthis
        (fun p hp => hparts p (List.mem_cons_of_mem _ hp)) (hholds part List.mem_cons_self)
        fun p hp => hholds p (List.mem_cons_of_mem _ hp)
      have hright : PieceRight digest deflate buffers hashed (beforeOf body prev).1 (pinOf prev)
          (compress deflate (beforeOf body prev).2 (part.bytes body)) := ⟨rfl, beforeRight_of_part hprev⟩
      cases found with
      | some piece =>
        rw [hfound piece rfl]
        exact ⟨⟨rfl, hfit⟩, htexts, hfragments⟩
      | none =>
        cases part with
        | text start stop sha =>
          refine ⟨⟨rfl, hfit⟩, fun e he => ?_, hfragments⟩
          rcases List.mem_cons.mp he with rfl | he
          · exact ⟨⟨hright, hpart.sound.2.2, hpart.hashed⟩, hpin⟩
          · exact htexts e he
        | fragment f sha glue start stop =>
          refine ⟨⟨rfl, hfit⟩, htexts, fun e he => ?_⟩
          rcases List.mem_cons.mp he with rfl | he
          · exact ⟨⟨hright, f.bytes, hpart.buffer f sha glue start stop rfl, bytes_of_sound hpart.sound⟩,
              hholds _ List.mem_cons_self f.addr rfl, hpin⟩
          · exact hfragments e he

end Fit

/-! ## 5. What a run keeps -/

namespace Splicer

variable {digest : Bytes → Bytes} {deflate : Bytes → Bytes → Bytes} {crc32 : Bytes → Nat} {s s' : Splicer}

structure Right (digest : Bytes → Bytes) (deflate : Bytes → Bytes → Bytes) (crc32 : Bytes → Nat) (s : Splicer) :
    Prop where
  known : ∀ addr k, s.known.lookup addr = some k → KnownRight digest deflate s.buffers s.hashed addr k
  texts : ∀ key p, s.texts.Holds key p → TextRight digest deflate s.buffers s.hashed key p
  pages : ∀ page ∈ s.pages, page.Right digest deflate s.buffers s.hashed
  etags : ∀ e ∈ s.etags, ∃ parts, Covers digest e.1 0 parts ∧ (∀ part ∈ parts, part.hashed e.1 ∈ s.hashed) ∧
    tagged e.1 parts ∈ s.hashed ∧ e.2 = etag digest e.1 parts
  served : ∀ e ∈ s.served, ∃ parts pieces mtime, Covers digest e.body 0 parts ∧
    PiecesFit deflate e.body none parts pieces ∧ e.gzip = gzip e.body crc32 pieces mtime

theorem right_empty : empty.Right digest deflate crc32 :=
  ⟨nofun, fun _ _ h => (h.elim nofun nofun : False).elim, nofun, nofun, nofun⟩

/-- What nothing refers to. -/
theorem not_weak {addr : Nat} (h : s.weak addr = false) :
    s.known.lookup addr = none ∧
      (∀ a k, s.known.lookup a = some k → ∀ p ∈ k.pieces, p.pin ≠ some addr) ∧
      ∀ key p, s.texts.Holds key p → p.pin ≠ some addr := by
  unfold weak at h
  obtain ⟨h, hold⟩ := (Bool.or_eq_false_iff).mp h
  obtain ⟨h, hyoung⟩ := (Bool.or_eq_false_iff).mp h
  obtain ⟨hentry, hpins⟩ := (Bool.or_eq_false_iff).mp h
  refine ⟨Option.not_isSome_iff_eq_none.mp (by rw [hentry]; decide), fun a k hk p hp hpin => ?_,
    fun key p hp hpin => ?_⟩
  · have hin := List.any_eq_false.mp hpins ⟨a, k⟩ (AList.mem_lookup_iff.mp hk)
    exact hin (List.any_eq_true.mpr ⟨p, hp, decide_eq_true hpin⟩)
  · rcases hp with hp | hp
    · exact List.any_eq_false.mp hyoung ⟨key, p⟩ (AList.mem_lookup_iff.mp hp) (decide_eq_true hpin)
    · exact List.any_eq_false.mp hold ⟨key, p⟩ (AList.mem_lookup_iff.mp hp) (decide_eq_true hpin)

/-- Buffers come, or one goes that nothing refers to. -/
theorem Right.stay (hr : s.Right digest deflate crc32) {buffers : Nat → Option Bytes} {held : List Nat}
    {gone : Option Nat} (hb : Stay gone s.buffers buffers)
    (hgone : ∀ addr, gone = some addr → s.strong addr = false ∧ s.weak addr = false) :
    { s with buffers, held }.Right digest deflate crc32 := by
  refine ⟨fun addr k hk => ?_, fun key p hp => ?_, fun page hp => ?_, hr.etags, hr.served⟩
  · refine (hr.known addr k hk).stay hb (List.Subset.refl _) (fun h => ?_) fun p hp a ha h => ?_
    · have := (not_weak (hgone addr h).2).1
      rw [this] at hk
      cases hk
    · exact (not_weak (hgone a h).2).2.1 addr k hk p hp ha
  · exact (hr.texts key p hp).stay hb (List.Subset.refl _) fun a ha h => (not_weak (hgone a h).2).2.2 key p hp ha
  · refine (hr.pages page hp).stay hb (List.Subset.refl _) fun a ha h => ?_
    have hstrong := (Bool.or_eq_false_iff.mp (hgone a h).1).2
    exact List.any_eq_false.mp hstrong page hp ha

/-- An entry is of its fragment, also after others are forgotten and new ones remembered. -/
theorem known_fragmentShas {alive : Nat → Bool} {known : FragmentTable} {fragments : List Fragment}
    {buffers : Nat → Option Bytes} {hashed : List Bytes}
    (hknown : ∀ addr k, known.lookup addr = some k → KnownRight digest deflate buffers hashed addr k)
    (hf : ∀ f ∈ fragments, buffers f.addr = some f.bytes ∧ f.bytes ∈ hashed) (addr : Nat) (k : KnownFragment)
    (hk : (fragmentShas digest alive known fragments).lookup addr = some k) :
    KnownRight digest deflate buffers hashed addr k := by
  have hfold : ∀ (l : List Fragment) (known : FragmentTable), (∀ f ∈ l, f ∈ fragments) →
      (∀ addr k, known.lookup addr = some k → KnownRight digest deflate buffers hashed addr k) →
      ∀ addr k, (l.foldl (remember digest) known).lookup addr = some k →
        KnownRight digest deflate buffers hashed addr k := by
    intro l
    induction l with
    | nil => exact fun _ _ h => h
    | cons f l ih =>
      intro known hl h
      refine ih _ (fun g hg => hl g (List.mem_cons_of_mem _ hg)) fun addr k hk => ?_
      rcases lookup_remember hk with hk | ⟨rfl, rfl⟩
      · exact h addr k hk
      · obtain ⟨hbuf, hin⟩ := hf f (hl f List.mem_cons_self)
        exact ⟨⟨f.bytes, hbuf, rfl, hin⟩, nofun⟩
  exact hfold fragments _ (fun _ h => h) (fun addr k hk => hknown addr k (lookup_makeRoom hk)) addr k hk

/-- The digest remembered of a fragment is its own. -/
theorem shaOf_fragmentShas {alive : Nat → Bool} {known : FragmentTable} {fragments : List Fragment}
    {buffers : Nat → Option Bytes} {hashed : List Bytes}
    (hknown : ∀ addr k, known.lookup addr = some k → KnownRight digest deflate buffers hashed addr k)
    (hf : ∀ f ∈ fragments, buffers f.addr = some f.bytes ∧ f.bytes ∈ hashed) {f : Fragment}
    (hm : f ∈ fragments) : shaOf (fragmentShas digest alive known fragments) f = digest f.bytes := by
  have hin : f.addr ∈ fragmentShas digest alive known fragments :=
    mem_foldl_remember.mpr (.inl (List.mem_map_of_mem hm))
  obtain ⟨k, hk⟩ := Option.isSome_iff_exists.mp (AList.lookup_isSome.mpr hin)
  obtain ⟨⟨bytes, hbuf, hsha, _⟩, _⟩ := @known_fragmentShas digest deflate alive known fragments buffers hashed
    hknown hf f.addr k hk
  have hbytes : bytes = f.bytes := Option.some.inj (hbuf.symm.trans (hf f hm).1)
  unfold shaOf
  rw [hk, ← hbytes]
  exact hsha

/-- **A page enters right.** -/
theorem Right.enter (hr : s.Right digest deflate crc32) {body : Bytes} {parts : List Part}
    {known : FragmentTable} {hashed : List Bytes} (hc : Covers digest body 0 parts)
    (hparts : ∀ part ∈ parts, part.Sound digest body)
    (hbuffer : ∀ f sha glue start stop, Part.fragment f sha glue start stop ∈ parts →
      s.buffers f.addr = some f.bytes)
    (hknown : ∀ addr k, known.lookup addr = some k →
      KnownRight digest deflate s.buffers (s.enter digest body parts known hashed).hashed addr k) :
    (s.enter digest body parts known hashed).Right digest deflate crc32 := by
  have hsub : s.hashed ⊆ (s.enter digest body parts known hashed).hashed := List.subset_append_left _ _
  have hpart : ∀ part ∈ parts, part.hashed body ∈ (s.enter digest body parts known hashed).hashed := fun part hp =>
    List.mem_append_right _ (List.mem_append_right _ (List.mem_append_left _ (List.mem_map_of_mem hp)))
  have htag : tagged body parts ∈ (s.enter digest body parts known hashed).hashed :=
    List.mem_append_right _ (List.mem_append_right _ (List.mem_append_right _ (List.mem_singleton_self _)))
  have hstay : Stay none s.buffers s.buffers := fun _ _ _ h => h
  refine ⟨hknown, fun key p hp => ?_, fun page hp => ?_, fun e he => ?_, hr.served⟩
  · exact (hr.texts key p hp).stay hstay hsub nofun
  · rcases List.mem_append.mp hp with hp | hp
    · exact (hr.pages page hp).stay hstay hsub fun _ _ => nofun
    · rw [List.mem_singleton.mp hp]
      exact ⟨hc, fun part hm => ⟨hparts part hm, hpart part hm, fun f sha glue start stop heq =>
        hbuffer f sha glue start stop (heq ▸ hm)⟩, nofun⟩
  · rcases List.mem_append.mp he with he | he
    · obtain ⟨parts', hc', hin, htag', heq⟩ := hr.etags e he
      exact ⟨parts', hc', fun part hm => hsub (hin part hm), hsub htag', heq⟩
    · rw [List.mem_singleton.mp he]
      exact ⟨parts, hc, hpart, htag, rfl⟩

/-- A covered body's parts are sound. -/
theorem sound_of_covers {body : Bytes} {position : Nat} {parts : List Part}
    (h : Covers digest body position parts) : ∀ part ∈ parts, part.Sound digest body := by
  induction parts generalizing position with
  | nil => nofun
  | cons part parts ih =>
    intro p hp
    rcases List.mem_cons.mp hp with rfl | hp
    · exact h.1
    · exact ih h.2.2 p hp

theorem Right.splitPage (hr : s.Right digest deflate crc32) {body : Bytes} {fragments : List Fragment}
    (hs : s.splitPage digest body fragments = some s') : s'.Right digest deflate crc32 := by
  unfold Splicer.splitPage at hs
  split at hs
  · next hheld =>
    obtain ⟨parts, hnew, rfl⟩ := Option.map_eq_some_iff.mp hs
    have hbuf : ∀ f ∈ (locate body fragments).map (·.1), s.buffers f.addr = some f.bytes := by
      intro f hf
      obtain ⟨found, hfound, rfl⟩ := List.mem_map.mp hf
      exact (hheld found.1 (mem_locate hfound)).2
    let hashed := ((locate body fragments).map (·.1)).map (·.bytes)
    -- the record with the fragments' bytes
    have hgrown : ∀ addr k, s.known.lookup addr = some k →
        KnownRight digest deflate s.buffers (s.hashed ++ hashed) addr k := fun addr k hk =>
      (hr.known addr k hk).stay (fun _ _ (_ : (none : Option Nat) ≠ _) h => h) (List.subset_append_left _ _) nofun
        fun _ _ _ _ => nofun
    have hf : ∀ f ∈ (locate body fragments).map (·.1), s.buffers f.addr = some f.bytes ∧
        f.bytes ∈ s.hashed ++ hashed := fun f hf =>
      ⟨hbuf f hf, List.mem_append_right _ (List.mem_map_of_mem hf)⟩
    have hc : Covers digest body 0 parts := covers_newParts hnew fun found hfound =>
      @shaOf_fragmentShas digest deflate s.strong s.known _ s.buffers (s.hashed ++ hashed) hgrown hf found.1
        (List.mem_map_of_mem hfound)
    refine hr.enter hc (sound_of_covers hc) (fun f sha glue start stop hm => hbuf f (mem_newParts hnew hm))
      fun addr k hk => ?_
    have hknown := @known_fragmentShas digest deflate s.strong s.known _ s.buffers (s.hashed ++ hashed) hgrown hf
      addr k hk
    refine hknown.stay (fun _ _ (_ : (none : Option Nat) ≠ _) h => h) (fun x hx => ?_) nofun fun _ _ _ _ => nofun
    rcases List.mem_append.mp hx with hx | hx
    · exact List.mem_append_left _ hx
    · exact List.mem_append_right _ (List.mem_append_left _ hx)
  · cases hs

/-- A page changes; the others, and what is remembered, stay right. -/
theorem Right.setPage (hr : s.Right digest deflate crc32) {k : Nat} {page : SplicedPage} {known : FragmentTable}
    {texts : TextPieces}
    (hknown : ∀ addr k, known.lookup addr = some k → KnownRight digest deflate s.buffers s.hashed addr k)
    (htexts : ∀ key p, texts.Holds key p → TextRight digest deflate s.buffers s.hashed key p)
    (hpage : page.Right digest deflate s.buffers s.hashed) :
    { s with known, texts, pages := s.pages.set k page }.Right digest deflate crc32 := by
  refine ⟨hknown, htexts, fun page' hp => ?_, hr.etags, hr.served⟩
  rcases List.mem_or_eq_of_mem_set hp with hp | rfl
  · exact hr.pages page' hp
  · exact hpage

/-- **Looking up the pieces**, and compressing the others. -/
theorem Right.lookUpPage (hr : s.Right digest deflate crc32) (hn : NoCollisions digest s.hashed) {k : Nat}
    {page : SplicedPage} (hk : page ∈ s.pages) : (s.lookUpPage deflate k page).Right digest deflate crc32 := by
  obtain ⟨hc, hparts, _⟩ := hr.pages page hk
  obtain ⟨hfound, hkept⟩ := @foundFit_lookUp digest deflate s.buffers s.hashed page.body none s.known hn hr.known
    page.parts s.texts hr.texts nofun hparts
  obtain ⟨hfit, htexts, hfragments⟩ := @fill_right digest deflate s.buffers s.hashed page.body none page.parts _
    (fun a => page.holds a = true) hfound nofun hparts nofun fun part hm a ha => by
      cases part with
      | text => cases ha
      | fragment f sha glue start stop =>
        cases ha
        exact SplicedPage.holds_of_mem hm
  refine hr.setPage hr.known (fun key p hp => hr.texts key p (hkept key p hp)) ⟨hc, hparts, fun filled hf => ?_⟩
  cases hf
  exact ⟨hfit, htexts, hfragments⟩

theorem holds_foldl_insert {entries : List ((Bytes × Before) × TextPiece)} {t : TextPieces}
    {key : Bytes × Before} {p : TextPiece}
    (h : (entries.foldl (fun t entry => t.insert entry.1 entry.2) t).Holds key p) :
    t.Holds key p ∨ (key, p) ∈ entries := by
  induction entries generalizing t with
  | nil => exact .inl h
  | cons entry entries ih =>
    rcases ih h with h | h
    · rcases TextPieces.holds_insert h with h | ⟨rfl, rfl⟩
      · exact .inl h
      · exact .inr List.mem_cons_self
    · exact .inr (List.mem_cons_of_mem _ h)

theorem Right.storeTextsPage (hr : s.Right digest deflate crc32) {k : Nat} {page : SplicedPage} {filled : Filled}
    (hk : page ∈ s.pages) (hf : page.filled = some filled) :
    (s.storeTextsPage k page filled).Right digest deflate crc32 := by
  obtain ⟨hc, hparts, hfilled⟩ := hr.pages page hk
  obtain ⟨hfit, htexts, hfragments⟩ := hfilled filled hf
  refine hr.setPage hr.known (fun key p hp => ?_) ⟨hc, hparts, fun filled' hf' => ?_⟩
  · rcases holds_foldl_insert hp with hp | hp
    · exact hr.texts key p hp
    · exact (htexts (key, p) hp).1
  · cases hf'
    exact ⟨hfit, nofun, hfragments⟩

/-- A stored piece is the new one, or was stored. -/
theorem mem_store {k : KnownFragment} {piece p : FragmentPiece} (h : p ∈ (k.store piece).pieces) :
    p ∈ k.pieces ∨ p = piece := by
  unfold KnownFragment.store at h
  dsimp only at h
  rcases List.mem_append.mp h with h | h
  · refine .inl ?_
    split at h
    · exact List.mem_of_mem_filter (List.mem_of_mem_tail h)
    · exact List.mem_of_mem_filter h
  · exact .inr (List.mem_singleton.mp h)

theorem known_foldl_storeFragment {entries : List (Nat × FragmentPiece)} {known : FragmentTable}
    {buffers : Nat → Option Bytes} {hashed : List Bytes}
    (hknown : ∀ addr k, known.lookup addr = some k → KnownRight digest deflate buffers hashed addr k)
    (hentries : ∀ e ∈ entries, FragmentRight digest deflate buffers hashed e.1 e.2) :
    ∀ addr k, (entries.foldl storeFragment known).lookup addr = some k →
      KnownRight digest deflate buffers hashed addr k := by
  induction entries generalizing known with
  | nil => exact hknown
  | cons entry entries ih =>
    refine ih (fun addr k hk => ?_) fun e he => hentries e (List.mem_cons_of_mem _ he)
    unfold storeFragment at hk
    split at hk
    · next held hheld =>
      by_cases haddr : addr = entry.1
      · subst haddr
        have hk' := Option.some.inj ((AList.lookup_insert known).symm.trans hk)
        subst hk'
        have hold := hknown entry.1 held hheld
        refine ⟨hold.sha, fun p hp => ?_⟩
        rcases mem_store hp with hp | rfl
        · exact hold.pieces p hp
        · exact hentries entry List.mem_cons_self
      · exact hknown addr k ((AList.lookup_insert_ne haddr).symm.trans hk)
    · exact hknown addr k hk

theorem Right.storeFragmentsPage (hr : s.Right digest deflate crc32) {k : Nat} {page : SplicedPage}
    {filled : Filled} (hk : page ∈ s.pages) (hf : page.filled = some filled) :
    (s.storeFragmentsPage k page filled).Right digest deflate crc32 := by
  obtain ⟨hc, hparts, hfilled⟩ := hr.pages page hk
  obtain ⟨hfit, htexts, hfragments⟩ := hfilled filled hf
  refine hr.setPage ?_ hr.texts ⟨hc, hparts, fun filled' hf' => ?_⟩
  · exact known_foldl_storeFragment hr.known fun e he => (hfragments e he).1
  · cases hf'
    exact ⟨hfit, htexts, nofun⟩

/-- Fewer pages, and less remembered. -/
theorem Right.less (hr : s.Right digest deflate crc32) {known : FragmentTable} {texts : TextPieces}
    {pages : List SplicedPage} (hknown : ∀ addr k, known.lookup addr = some k → s.known.lookup addr = some k)
    (htexts : ∀ key p, texts.Holds key p → s.texts.Holds key p) (hpages : ∀ page ∈ pages, page ∈ s.pages) :
    { s with known, texts, pages }.Right digest deflate crc32 :=
  ⟨fun addr k hk => hr.known addr k (hknown addr k hk), fun key p hp => hr.texts key p (htexts key p hp),
    fun page hp => hr.pages page (hpages page hp), hr.etags, hr.served⟩

theorem lookup_foldl_erase {κ : Type} [DecidableEq κ] {β : Type} {keys : List κ} {table : AList fun _ : κ => β}
    {key : κ} {b : β} (h : (keys.foldl (fun table key => table.erase key) table).lookup key = some b) :
    table.lookup key = some b := by
  induction keys generalizing table with
  | nil => exact h
  | cons gone keys ih =>
    have hrest := ih h
    by_cases hkey : key = gone
    · subst hkey
      rw [AList.lookup_erase] at hrest
      cases hrest
    · rwa [AList.lookup_erase_ne hkey] at hrest

theorem filledPage_cases {k : Nat} {p : SplicedPage × Filled} (h : s.filledPage k = some p) :
    p.1 ∈ s.pages ∧ p.1.filled = some p.2 := by
  obtain ⟨page, hpage, hmap⟩ := Option.bind_eq_some_iff.mp h
  obtain ⟨filled, hfilled, rfl⟩ := Option.map_eq_some_iff.mp hmap
  exact ⟨List.mem_of_getElem? hpage, hfilled⟩

theorem step_hashed {a : SpliceAct} (hs : s.step digest deflate crc32 a = some s') : s.hashed ⊆ s'.hashed := by
  cases a with
  | split body fragments =>
    rw [step, Splicer.splitPage] at hs
    split at hs
    · obtain ⟨parts, _, rfl⟩ := Option.map_eq_some_iff.mp hs
      exact List.subset_append_left _ _
    · cases hs
  | whole body =>
    obtain ⟨parts, _, rfl⟩ := Option.map_eq_some_iff.mp hs
    exact List.subset_append_left _ _
  | alloc | free =>
    rw [step] at hs
    split at hs
    · cases hs <;> exact List.Subset.refl _
    · cases hs <;> exact List.Subset.refl _
  | release | drop | evict =>
    cases hs
    exact List.Subset.refl _
  | lookUp k =>
    obtain ⟨page, _, hs⟩ := Option.bind_eq_some_iff.mp hs
    split at hs
    · cases hs
      exact List.Subset.refl _
    · cases hs
  | storeTexts k =>
    obtain ⟨p, _, rfl⟩ := Option.map_eq_some_iff.mp hs
    exact List.Subset.refl _
  | storeFragments k | finish k =>
    obtain ⟨p, _, hs⟩ := Option.bind_eq_some_iff.mp hs
    split at hs
    · cases hs
      exact List.Subset.refl _
    · cases hs

theorem Right.step (hr : s.Right digest deflate crc32) (hn : NoCollisions digest s.hashed) {a : SpliceAct}
    (hs : s.step digest deflate crc32 a = some s') : s'.Right digest deflate crc32 := by
  cases a with
  | alloc addr bytes =>
    rw [Splicer.step] at hs
    split at hs
    · next hfree =>
      cases hs
      refine @Right.stay digest deflate crc32 s hr _ _ none (fun a b _ hab => ?_) nofun
      have hne : a ≠ addr := by
        rintro rfl
        rw [hfree] at hab
        cases hab
      exact (if_neg hne).trans hab
    · cases hs
  | release addr =>
    cases hs
    exact @Right.stay digest deflate crc32 s hr _ _ none (fun _ _ _ h => h) nofun
  | free addr =>
    rw [Splicer.step] at hs
    split at hs
    · cases hs
    · next hrefs =>
      cases hs
      refine @Right.stay digest deflate crc32 s hr _ _ (some addr) (fun a b hne hab => ?_) fun a ha => ?_
      · exact (if_neg fun heq => hne (congrArg some heq.symm)).trans hab
      · cases ha
        exact Bool.or_eq_false_iff.mp (Bool.not_eq_true _ ▸ hrefs)
  | split body fragments => exact hr.splitPage hs
  | whole body =>
    obtain ⟨parts, hwhole, rfl⟩ := Option.map_eq_some_iff.mp hs
    have hc := covers_wholeParts hwhole
    refine hr.enter hc (sound_of_covers hc) (fun f sha glue start stop hm => ?_) fun addr k hk => ?_
    · unfold wholeParts at hwhole
      split at hwhole
      · cases hwhole
        cases List.mem_singleton.mp hm
      · cases hwhole
    · exact (hr.known addr k hk).stay (fun _ _ (_ : (none : Option Nat) ≠ _) h => h)
        (List.subset_append_left _ _) nofun fun _ _ _ _ => nofun
  | lookUp k =>
    obtain ⟨page, hk, hs⟩ := Option.bind_eq_some_iff.mp hs
    split at hs
    · cases hs
      exact hr.lookUpPage hn (List.mem_of_getElem? hk)
    · cases hs
  | storeTexts k =>
    obtain ⟨p, hp, rfl⟩ := Option.map_eq_some_iff.mp hs
    obtain ⟨hm, hf⟩ := filledPage_cases hp
    exact hr.storeTextsPage hm hf
  | storeFragments k =>
    obtain ⟨p, hp, hs⟩ := Option.bind_eq_some_iff.mp hs
    obtain ⟨hm, hf⟩ := filledPage_cases hp
    split at hs
    · cases hs
      exact hr.storeFragmentsPage hm hf
    · cases hs
  | finish k mtime =>
    obtain ⟨p, hp, hs⟩ := Option.bind_eq_some_iff.mp hs
    obtain ⟨hm, hf⟩ := filledPage_cases hp
    split at hs
    · cases hs
      obtain ⟨hc, _, hfilled⟩ := hr.pages p.1 hm
      refine ⟨hr.known, hr.texts, fun page hp => hr.pages page (List.mem_of_mem_eraseIdx hp), hr.etags,
        fun e he => ?_⟩
      rcases List.mem_append.mp he with he | he
      · exact hr.served e he
      · rw [List.mem_singleton.mp he]
        exact ⟨p.1.parts, p.2.pieces, mtime, hc, (hfilled p.2 hf).fit, rfl⟩
    · cases hs
  | drop k =>
    cases hs
    exact hr.less (fun _ _ h => h) (fun _ _ h => h) fun _ hp => List.mem_of_mem_eraseIdx hp
  | evict fragments texts =>
    cases hs
    exact hr.less (fun _ _ h => lookup_foldl_erase h)
      (fun _ _ h => h.imp lookup_foldl_erase lookup_foldl_erase) fun _ hp => hp

theorem right_reach (h : Reach (spliceSystem digest deflate crc32) s) (hn : NoCollisions digest s.hashed) :
    s.Right digest deflate crc32 := by
  refine h.induct (T := spliceSystem digest deflate crc32)
    (I := fun s => NoCollisions digest s.hashed → s.Right digest deflate crc32) (fun s h0 _ => ?_)
    (fun s a s' _ hi _ hs hn' => ?_) hn
  · obtain rfl : s = empty := h0
    exact right_empty
  · have hn : NoCollisions digest s.hashed := fun x hx y hy =>
      hn' x (step_hashed hs hx) y (step_hashed hs hy)
    exact (hi hn).step hn hs

end Splicer

/-! ## 6. The property -/

/-- **A spliced gzip body is the page.** -/
structure Spliced (digest : Bytes → Bytes) (deflate : Bytes → Bytes → Bytes)
    (inflate : Bytes → Bytes → Option (Bytes × Bytes)) (crc32 : Bytes → Nat) (s : Splicer) : Prop where
  /-- The parts follow each other end to end over the body. -/
  partition : ∀ page ∈ s.pages, Covers digest page.body 0 page.parts
  /-- Each piece, reused or not, was compressed from the part, with what comes right before it. -/
  pieces : ∀ page ∈ s.pages, ∀ filled, page.filled = some filled →
    PiecesFit deflate page.body none page.parts filled.pieces
  /-- What comes right before it, that is. -/
  precedes : ∀ page ∈ s.pages, ∀ before part after, page.parts = before ++ part :: after →
    (beforeOf page.body before.getLast?).2 <:+ page.body.take part.start
  decodes : ∀ e ∈ s.served, gunzip inflate crc32 e.gzip = some e.body
  /-- An ETag shows half a digest. -/
  etags : NoCollisions (fun x => (digest x).take 16) s.hashed →
    ∀ e ∈ s.etags, ∀ e' ∈ s.etags, e.2 = e'.2 → e.1 = e'.1

/-- **Every spliced gzip body decodes to its page, and splice ETags tell bodies apart**, in every run in
    which no digests collide. -/
theorem spliced_of_reach {digest : Bytes → Bytes} {deflate : Bytes → Bytes → Bytes}
    {inflate : Bytes → Bytes → Option (Bytes × Bytes)} {crc32 : Bytes → Nat} {s : Splicer}
    (hlen : ∀ x, (digest x).length = 32) (hd : Deflates deflate inflate)
    (h : Reach (spliceSystem digest deflate crc32) s) (hn : NoCollisions digest s.hashed) :
    Spliced digest deflate inflate crc32 s := by
  have hr := Splicer.right_reach h hn
  refine ⟨fun page hp => (hr.pages page hp).covers, fun page hp filled hf => ((hr.pages page hp).filled filled hf).fit,
    fun page hp before part after heq => ?_, fun e he => ?_, fun hshown e he e' he' heq => ?_⟩
  · have hc := (hr.pages page hp).covers
    rw [heq] at hc
    have hfollows := @follows_of_covers digest page.body before after part none 0 rfl hc
    rw [Option.or_none] at hfollows
    exact hfollows.suffix
  · obtain ⟨parts, pieces, mtime, hc, hfit, hgzip⟩ := hr.served e he
    rw [hgzip]
    exact gunzip_gzip hd hc hfit mtime
  · obtain ⟨parts, hc, hin, htag, hetag⟩ := hr.etags e he
    obtain ⟨parts', hc', hin', htag', hetag'⟩ := hr.etags e' he'
    rw [hetag, hetag'] at heq
    exact body_of_etag hlen hshown hc hc' hin hin' htag htag' heq

/-! ## 7. A run -/

/-- A digest of 32 bytes. -/
def testDigest (text : Bytes) : Bytes :=
  leBytes 32 (text.foldl (fun sum b => (sum * 257 + b.toNat + 1) % 2 ^ 128) 0)

/-- Deflate that stores each byte in a block of its own, and its inflate. -/
def testDeflate (_ text : Bytes) : Bytes := text.flatMap fun b => [0, 1, 0, 254, 255, b]

def testInflate (out : Bytes) : Bytes → Option (Bytes × Bytes)
  | 0 :: 1 :: 0 :: 254 :: 255 :: b :: rest => testInflate (out ++ [b]) rest
  | 3 :: 0 :: rest => some (out, rest)
  | _ => none

theorem length_testDigest (text : Bytes) : (testDigest text).length = 32 := by
  simp [testDigest]

theorem deflates_test : Deflates testDeflate testInflate := by
  have hstored : ∀ (text out rest : Bytes),
      testInflate out (testDeflate [] text ++ rest) = testInflate (out ++ text) rest := by
    intro text
    induction text with
    | nil =>
      intro out rest
      rw [List.append_nil]
      rfl
    | cons b text ih =>
      intro out rest
      have hblock : testInflate out (testDeflate [] (b :: text) ++ rest) =
          testInflate (out ++ [b]) (testDeflate [] text ++ rest) := rfl
      rw [hblock, ih, List.append_assoc, List.singleton_append]
  exact ⟨fun out _ text rest _ _ => hstored text out rest, fun _ _ => rfl⟩

instance instDecidableNoCollisions (digest : Bytes → Bytes) (hashed : List Bytes) :
    Decidable (NoCollisions digest hashed) :=
  inferInstanceAs (Decidable (∀ x ∈ hashed, ∀ y ∈ hashed, _ → x = y))

def testFragments : List Fragment := [⟨1, List.replicate 1024 65⟩, ⟨2, List.replicate 1025 66⟩]

/-- A page of the fragments, in a layout. -/
def testPage (layout : UInt8) : Bytes := layout :: (testFragments.flatMap fun f => 32 :: f.bytes)

/-- Two pages of the same fragments: the second reuses the second fragment's piece. -/
def twoPagesRun : List SpliceAct :=
  testFragments.map (fun f => SpliceAct.alloc f.addr f.bytes) ++
    [.split (testPage 60) testFragments, .lookUp 0, .storeTexts 0, .storeFragments 0, .finish 0 0,
      .split (testPage 61) testFragments, .lookUp 0, .storeTexts 0]

theorem spliced_of_reach_sample : ∃ s, Reach (spliceSystem testDigest testDeflate List.length) s ∧
    s.served.length = 1 ∧ s.etags.length = 2 ∧
      (s.pages.map fun page => page.filled.map fun filled => filled.newFragments.map (·.1)) = [some [1]] ∧
        Spliced testDigest testDeflate testInflate List.length s := by
  obtain ⟨s, hs, hp⟩ := exists_reachWhen_of_replay (T := spliceSystem testDigest testDeflate List.length)
    (G := fun _ _ => True) (s := Splicer.empty) (l := twoPagesRun)
    (p := fun s => s.served.length = 1 ∧ s.etags.length = 2 ∧
      (s.pages.map fun page => page.filled.map fun filled => filled.newFragments.map (·.1)) = [some [1]] ∧
        NoCollisions (fun x => (testDigest x).take 16) s.hashed)
    rfl (by decide +kernel)
  obtain ⟨hserved, hetags, hreused, hn⟩ := of_decide_eq_true hp
  exact ⟨s, hs, hserved, hetags, hreused, spliced_of_reach length_testDigest deflates_test hs hn.of_take⟩

end Smartfire
