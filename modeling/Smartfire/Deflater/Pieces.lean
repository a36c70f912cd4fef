/-
  File:      Smartfire/Deflater/Pieces.lean
  Subject:   Compressed pieces of pages, kept and reused (crates/kit/src/deflater/splice.rs).

  A fragment is known by the address of its buffer, so a piece compressed against a fragment pins that
  buffer: while the piece is kept the address can't come back as another fragment. A buffer goes once
  nothing refers to it, strongly or weakly.

  Serving a page takes several steps, under locks of their own: the split remembers the fragments, a
  look takes the pieces that fit and compresses the rest, and the new pieces are stored after. Anything
  may happen between them.

  * `KnownFragment`, `TextPieces` -- what is remembered;
  * `lookUp`, `fill` -- a page's pieces: stored ones where they fit, the rest compressed;
  * `Splicer`, `SpliceAct`, `spliceSystem` -- the buffers, what is remembered, the pages on their way.
-/
import Mathlib.Data.List.AList
import Smartfire.Deflater.Parts
import Smartfire.Lib.Runs

namespace Smartfire

open Lib

/-! ## 1. What is remembered -/

/-- A part, compressed. -/
structure Piece where
  deflated : Bytes
  /-- The dictionary and the text it was compressed from, for the record. -/
  source : Bytes × Bytes
deriving DecidableEq, Repr

structure FragmentPiece where
  before : Before
  /-- The predecessor fragment whose address the piece keeps from being reused. -/
  pin : Option Nat
  glue : Bytes
  piece : Piece
deriving DecidableEq, Repr

/-- A fragment seen in a page, under its address; the entry keeps the address taken. -/
structure KnownFragment where
  sha : Bytes
  /-- Most recently stored last. -/
  pieces : List FragmentPiece
deriving DecidableEq, Repr

structure TextPiece where
  piece : Piece
  pin : Option Nat
deriving DecidableEq, Repr

abbrev FragmentTable : Type := AList fun _ : Nat => KnownFragment

abbrev TextTable : Type := AList fun _ : Bytes × Before => TextPiece

/-- Text pieces in two generations. -/
structure TextPieces where
  young : TextTable
  old : TextTable
  youngBytes : Nat

def window : Nat := 32 * 1024
def maxFragments : Nat := 8 * 1024
def piecesPerFragment : Nat := 4
def maxTextPieceBytes : Nat := 16 * 2 ^ 20
def maxStoredTextPiece : Nat := maxTextPieceBytes / 64
def textPieceOverhead : Nat := 128

namespace KnownFragment

variable (known : KnownFragment)

def pieceAfter (before : Before) (glue : Bytes) : Option Piece :=
  (known.pieces.find? fun p => p.before = before ∧ p.glue = glue).map (·.piece)

/-- Stores the piece, dropping the oldest when there are already as many as are kept. -/
def store (piece : FragmentPiece) : KnownFragment :=
  let retained := known.pieces.filter fun p => p.before ≠ piece.before ∨ p.glue ≠ piece.glue
  let kept := if retained.length = piecesPerFragment then retained.tail else retained
  { known with pieces := kept ++ [piece] }

end KnownFragment

namespace TextPieces

variable (t : TextPieces)

def insert (key : Bytes × Before) (piece : TextPiece) : TextPieces :=
  if maxStoredTextPiece < piece.piece.deflated.length then t
  else
    let young := t.young.insert key piece
    let youngBytes := t.youngBytes + (piece.piece.deflated.length + textPieceOverhead)
    if maxTextPieceBytes / 2 < youngBytes then ⟨∅, young, 0⟩ else { t with young, youngBytes }

/-- A read moves an old piece to the young ones. -/
def get (key : Bytes × Before) : Option Piece × TextPieces :=
  match t.young.lookup key with
  | some p => (some p.piece, t)
  | none =>
    match t.old.lookup key with
    | none => (none, t)
    | some p => (some p.piece, { t with old := t.old.erase key }.insert key p)

/-- What is kept under a key, in either generation. -/
def Holds (key : Bytes × Before) (p : TextPiece) : Prop := t.young.lookup key = some p ∨ t.old.lookup key = some p

variable {t} {key key' : Bytes × Before} {p p' : TextPiece}

theorem holds_insert (h : (t.insert key p).Holds key' p') : t.Holds key' p' ∨ key' = key ∧ p' = p := by
  have hyoung : ∀ {q}, (t.young.insert key p).lookup key' = some q → t.Holds key' q ∨ key' = key ∧ q = p := by
    intro q hq
    by_cases hk : key' = key
    · subst hk
      rw [AList.lookup_insert] at hq
      exact .inr ⟨rfl, (Option.some.inj hq).symm⟩
    · rw [AList.lookup_insert_ne hk] at hq
      exact .inl (.inl hq)
  unfold insert at h
  dsimp only at h
  split at h
  · exact .inl h
  · split at h
    · rcases h with h | h
      · cases h
      · exact hyoung h
    · rcases h with h | h
      · exact hyoung h
      · exact .inl (.inr h)

/-- A read finds what is kept, and keeps nothing new. -/
theorem holds_get (key : Bytes × Before) :
    (∀ piece, (t.get key).1 = some piece → ∃ p, t.Holds key p ∧ p.piece = piece) ∧
      ∀ key' p', (t.get key).2.Holds key' p' → t.Holds key' p' := by
  unfold get
  cases hy : t.young.lookup key with
  | some p =>
    refine ⟨fun piece h => ⟨p, .inl hy, Option.some.inj h⟩, fun _ _ h => h⟩
  | none =>
    cases ho : t.old.lookup key with
    | none => exact ⟨nofun, fun _ _ h => h⟩
    | some p =>
      refine ⟨fun piece h => ⟨p, .inr ho, Option.some.inj h⟩, fun key' p' h => ?_⟩
      rcases holds_insert h with h | ⟨rfl, rfl⟩
      · rcases h with h | h
        · exact .inl h
        · refine .inr ?_
          by_cases hk : key' = key
          · subst hk
            have hnone := AList.lookup_erase key' t.old
            exact absurd (hnone.symm.trans h) nofun
          · rwa [AList.lookup_erase_ne hk] at h
      · exact .inr ho

end TextPieces

/-! ## 2. A page's pieces -/

section Pages

variable (deflate : Bytes → Bytes → Bytes) (body : Bytes) (known : FragmentTable)

/-- The text, compressed with the dictionary's last bytes preset. -/
def compress (dictionary text : Bytes) : Piece :=
  ⟨deflate (dictionary.drop (dictionary.length - window)) text, (dictionary, text)⟩

/-- The stored pieces that fit. -/
def lookUp (prev : Option Part) : List Part → TextPieces → List (Option Piece) × TextPieces
  | [], t => ([], t)
  | part :: parts, t =>
    let before := (beforeOf body prev).1
    let found := match part with
      | .text _ _ sha => t.get (sha, before)
      | .fragment f _ glue start _ =>
        ((known.lookup f.addr).bind fun k => k.pieceAfter before (slice body start (start + glue)), t)
    let rest := lookUp (some part) parts found.2
    (found.1 :: rest.1, rest.2)

/-- A page's pieces, with the new ones to store. -/
structure Filled where
  pieces : List Piece
  newTexts : List ((Bytes × Before) × TextPiece)
  newFragments : List (Nat × FragmentPiece)

/-- The predecessor to pin. -/
def pinOf : Option Part → Option Nat
  | some (.fragment f ..) => some f.addr
  | _ => none

/-- The pieces found, and the others compressed. -/
def fill (prev : Option Part) : List Part → List (Option Piece) → Filled
  | part :: parts, found :: founds =>
    let rest := fill (some part) parts founds
    match found with
    | some piece => { rest with pieces := piece :: rest.pieces }
    | none =>
      let (before, dictionary) := beforeOf body prev
      let piece := compress deflate dictionary (part.bytes body)
      match part with
      | .text _ _ sha =>
        { rest with
          pieces := piece :: rest.pieces
          newTexts := ((sha, before), ⟨piece, pinOf prev⟩) :: rest.newTexts }
      | .fragment f _ glue start _ =>
        { rest with
          pieces := piece :: rest.pieces
          newFragments := (f.addr, ⟨before, pinOf prev, slice body start (start + glue), piece⟩) ::
            rest.newFragments }
  | _, _ => ⟨[], [], []⟩

/-- The whole gzip member. -/
def gzip (crc32 : Bytes → Nat) (pieces : List Piece) (mtime : Nat) : Bytes :=
  [0x1f, 0x8b, 8, 0] ++ leBytes 4 mtime ++ [0, 3] ++ pieces.flatMap (·.deflated) ++ [0x03, 0x00] ++
    leBytes 4 (crc32 body) ++ leBytes 4 body.length

end Pages

/-! ## 3. What a page remembers -/

section Remember

/-- The entries of fragments `alive`. -/
def retain (alive : Nat → Bool) (known : FragmentTable) : FragmentTable :=
  ⟨known.entries.filter fun e => alive e.1, known.nodupKeys.sublist List.filter_sublist⟩

/-- Forgets entries, of the fragments gone or of all, where the missing ones would be too many. -/
def makeRoom (alive : Nat → Bool) (known : FragmentTable) (missing : Nat) : FragmentTable :=
  if maxFragments < known.keys.length + missing then
    let live := retain alive known
    if maxFragments < live.keys.length + missing then ∅ else live
  else known

/-- Remembers a fragment, unless it is. -/
def remember (digest : Bytes → Bytes) (known : FragmentTable) (f : Fragment) : FragmentTable :=
  match known.lookup f.addr with
  | some _ => known
  | none => known.insert f.addr ⟨digest f.bytes, []⟩

/-- `fragment_shas`: remembers the fragments not seen before. -/
def fragmentShas (digest : Bytes → Bytes) (alive : Nat → Bool) (known : FragmentTable)
    (fragments : List Fragment) : FragmentTable :=
  let missing := fragments.countP fun f => (known.lookup f.addr).isNone
  fragments.foldl (remember digest) (makeRoom alive known missing)

/-- The digest remembered of a fragment. -/
def shaOf (known : FragmentTable) (f : Fragment) : Bytes :=
  match known.lookup f.addr with
  | some k => k.sha
  | none => []

/-- Stores a new piece with its fragment, where that is still remembered. -/
def storeFragment (known : FragmentTable) (entry : Nat × FragmentPiece) : FragmentTable :=
  match known.lookup entry.1 with
  | some k => known.insert entry.1 (k.store entry.2)
  | none => known

section Lookup

variable {digest : Bytes → Bytes} {alive : Nat → Bool} {known : FragmentTable} {f : Fragment} {addr : Nat}
  {k : KnownFragment}

theorem lookup_makeRoom {missing : Nat} (h : (makeRoom alive known missing).lookup addr = some k) :
    known.lookup addr = some k := by
  unfold makeRoom at h
  split at h
  · dsimp only at h
    split at h
    · cases h
    · exact AList.mem_lookup_iff.mpr (List.mem_of_mem_filter (AList.mem_lookup_iff.mp h))
  · exact h

theorem lookup_remember (h : (remember digest known f).lookup addr = some k) :
    known.lookup addr = some k ∨ addr = f.addr ∧ k = ⟨digest f.bytes, []⟩ := by
  unfold remember at h
  split at h
  · exact .inl h
  · by_cases haddr : addr = f.addr
    · subst haddr
      exact .inr ⟨rfl, (Option.some.inj ((AList.lookup_insert known).symm.trans h)).symm⟩
    · exact .inl ((AList.lookup_insert_ne haddr).symm.trans h)

theorem mem_remember : addr ∈ remember digest known f ↔ addr = f.addr ∨ addr ∈ known := by
  unfold remember
  split
  · next k hk =>
    refine (or_iff_right_of_imp ?_).symm
    rintro rfl
    exact AList.lookup_isSome.mp (hk ▸ rfl)
  · exact AList.mem_insert known

theorem mem_foldl_remember {fragments : List Fragment} :
    addr ∈ fragments.foldl (remember digest) known ↔ addr ∈ fragments.map (·.addr) ∨ addr ∈ known := by
  induction fragments generalizing known with
  | nil => simp
  | cons f fragments ih =>
    rw [List.foldl_cons, ih, mem_remember, List.map_cons, List.mem_cons]
    tauto

end Lookup

end Remember

/-! ## 4. Pages on their way -/

/-- A page being served. It holds its fragments. -/
structure SplicedPage where
  body : Bytes
  parts : List Part
  /-- Its pieces, once looked up. -/
  filled : Option Filled

/-- A page served. -/
structure ServedPage where
  body : Bytes
  gzip : Bytes
deriving DecidableEq, Repr

structure Splicer where
  /-- The buffers allocated, by address. -/
  buffers : Nat → Option Bytes
  /-- The buffers the fragment cache and responses hold. -/
  held : List Nat
  known : FragmentTable
  texts : TextPieces
  pages : List SplicedPage
  /-- Every ETag made, with its body. -/
  etags : List (Bytes × String)
  served : List ServedPage
  /-- All that was hashed. -/
  hashed : List Bytes

inductive SpliceAct where
  | alloc (addr : Nat) (bytes : Bytes)
  | release (addr : Nat)
  | free (addr : Nat)
  /-- A page with cached fragments is split. -/
  | split (body : Bytes) (fragments : List Fragment)
  /-- A page without. -/
  | whole (body : Bytes)
  | lookUp (k : Nat)
  | storeTexts (k : Nat)
  | storeFragments (k : Nat)
  | finish (k : Nat) (mtime : Nat)
  /-- The page goes out otherwise. -/
  | drop (k : Nat)
  /-- What is remembered of some fragments and texts is forgotten. -/
  | evict (fragments : List Nat) (texts : List (Bytes × Before))

def Part.at_ (addr : Nat) : Part → Bool
  | .text .. => false
  | .fragment f .. => f.addr = addr

/-- The page holds the fragment at the address. -/
def SplicedPage.holds (addr : Nat) (page : SplicedPage) : Bool := page.parts.any (·.at_ addr)

namespace Splicer

def empty : Splicer := ⟨fun _ => none, [], ∅, ⟨∅, ∅, 0⟩, [], [], [], []⟩

section Steps

variable (digest : Bytes → Bytes) (deflate : Bytes → Bytes → Bytes) (crc32 : Bytes → Nat) (s : Splicer)

/-- A strong reference to the buffer. -/
def strong (addr : Nat) : Bool := s.held.contains addr || s.pages.any (·.holds addr)

/-- A weak one: of an entry, or of a piece that pins it. -/
def weak (addr : Nat) : Bool :=
  (s.known.lookup addr).isSome ||
    s.known.entries.any (fun e => e.2.pieces.any fun p => p.pin = some addr) ||
    s.texts.young.entries.any (fun e => e.2.pin = some addr) ||
    s.texts.old.entries.any (fun e => e.2.pin = some addr)

/-- A page enters, with its ETag. -/
def enter (body : Bytes) (parts : List Part) (known : FragmentTable) (hashed : List Bytes) : Splicer :=
  { s with
    known
    pages := s.pages ++ [⟨body, parts, none⟩]
    etags := s.etags ++ [(body, etag digest body parts)]
    hashed := s.hashed ++ (hashed ++ (parts.map (·.hashed body) ++ [tagged body parts])) }

def splitPage (body : Bytes) (fragments : List Fragment) : Option Splicer :=
  if ∀ f ∈ fragments, s.held.contains f.addr = true ∧ s.buffers f.addr = some f.bytes then
    let located := (locate body fragments).map (·.1)
    let known := fragmentShas digest s.strong s.known located
    (newParts digest (shaOf known) body fragments).map fun parts =>
      s.enter digest body parts known (located.map (·.bytes))
  else none

def lookUpPage (k : Nat) (page : SplicedPage) : Splicer :=
  let found := lookUp page.body s.known none page.parts s.texts
  { s with
    texts := found.2
    pages := s.pages.set k { page with filled := some (fill deflate page.body none page.parts found.1) } }

def storeTextsPage (k : Nat) (page : SplicedPage) (filled : Filled) : Splicer :=
  { s with
    texts := filled.newTexts.foldl (fun t entry => t.insert entry.1 entry.2) s.texts
    pages := s.pages.set k { page with filled := some { filled with newTexts := [] } } }

def storeFragmentsPage (k : Nat) (page : SplicedPage) (filled : Filled) : Splicer :=
  { s with
    known := filled.newFragments.foldl storeFragment s.known
    pages := s.pages.set k { page with filled := some { filled with newFragments := [] } } }

/-- The `k`-th page, with its pieces. -/
def filledPage (k : Nat) : Option (SplicedPage × Filled) :=
  s.pages[k]?.bind fun page => page.filled.map fun filled => (page, filled)

def step : SpliceAct → Option Splicer
  | .alloc addr bytes =>
    if s.buffers addr = none then
      some { s with
        buffers := fun a => if a = addr then some bytes else s.buffers a
        held := addr :: s.held }
    else none
  | .release addr => some { s with held := s.held.erase addr }
  | .free addr =>
    if s.strong addr || s.weak addr then none
    else some { s with buffers := fun a => if a = addr then none else s.buffers a }
  | .split body fragments => s.splitPage digest body fragments
  | .whole body => (wholeParts digest body).map fun parts => s.enter digest body parts s.known []
  | .lookUp k => s.pages[k]?.bind fun page => if page.filled.isNone then some (s.lookUpPage deflate k page) else none
  | .storeTexts k => (s.filledPage k).map fun p => s.storeTextsPage k p.1 p.2
  | .storeFragments k =>
    (s.filledPage k).bind fun p => if p.2.newTexts = [] then some (s.storeFragmentsPage k p.1 p.2) else none
  | .finish k mtime =>
    (s.filledPage k).bind fun p =>
      if p.2.newTexts = [] ∧ p.2.newFragments = [] then
        some { s with
          pages := s.pages.eraseIdx k
          served := s.served ++ [⟨p.1.body, gzip p.1.body crc32 p.2.pieces mtime⟩] }
      else none
  | .drop k => some { s with pages := s.pages.eraseIdx k }
  | .evict fragments texts =>
    some { s with
      known := fragments.foldl (fun known addr => known.erase addr) s.known
      texts := { s.texts with
        young := texts.foldl (fun table key => table.erase key) s.texts.young
        old := texts.foldl (fun table key => table.erase key) s.texts.old } }

end Steps

end Splicer

/-- The pages, under any order of steps. -/
def spliceSystem (digest : Bytes → Bytes) (deflate : Bytes → Bytes → Bytes) (crc32 : Bytes → Nat) :
    System Splicer SpliceAct where
  start s := s = .empty
  step s := s.step digest deflate crc32

end Smartfire
