/-
  File:      Smartfire/Deflater/Parts.lean
  Subject:   A page's body split at its cached fragments (crates/kit/src/deflater/splice.rs
             `PageParts`).

  A fragment's part may start with glue, the few bytes of text since the fragment before it. What a part
  shows to the part after it is a fragment's own bytes, never its glue, or the text.

  The digest is a parameter; nothing here depends on more of SHA-256 than its length.

  * `find`, `locate`, `newParts`, `wholeParts` -- the split;
  * `Covers`, `covers_newParts` -- the parts cover the body end to end;
  * `Part.asBefore`, `asBefore_suffix` -- what a part shows comes right before the next one;
  * `etag`, `body_of_etag` -- bodies of equal splice ETags are equal.
-/
import Mathlib.Algebra.Order.Ring.Int
import Mathlib.Data.List.Basic
import Mathlib.Tactic.Common
import Smartfire.Lib.Bytes

namespace Smartfire

open Lib (Bytes)

/-! ## 1. Bytes -/

/-- `&body[start..stop]`. -/
def slice (body : Bytes) (start stop : Nat) : Bytes := (body.drop start).take (stop - start)

section Slice

variable {body : Bytes} {start middle stop : Nat}

theorem take_append_slice (h : start ≤ stop) : body.take start ++ slice body start stop = body.take stop := by
  unfold slice
  rw [← List.take_add, Nat.add_sub_cancel' h]

theorem slice_append_slice (h : start ≤ middle) (h' : middle ≤ stop) :
    slice body start middle ++ slice body middle stop = slice body start stop := by
  have hleft : body.take start ++ (slice body start middle ++ slice body middle stop) =
      body.take start ++ slice body start stop := by
    rw [← List.append_assoc, take_append_slice h, take_append_slice h', take_append_slice (Nat.le_trans h h')]
  exact List.append_cancel_left hleft

theorem length_slice (h : stop ≤ body.length) : (slice body start stop).length = stop - start := by
  unfold slice
  rw [List.length_take, List.length_drop]
  omega

end Slice

/-! ## 2. Where a fragment is -/

/-- The first place of the needle (`memchr::memmem`). -/
def memmem (needle : Bytes) : Bytes → Option Nat
  | [] => if needle = [] then some 0 else none
  | b :: bs => if needle.isPrefixOf (b :: bs) then some 0 else (memmem needle bs).map (· + 1)

/-- The search from `position`: a short prefix is found first, the rest compared. -/
def findFrom (body needle : Bytes) : Nat → Nat → Option Nat
  | 0, _ => none
  | fuel + 1, position =>
    match memmem (needle.take 64) (body.drop position) with
    | none => none
    | some found =>
      let start := position + found
      if needle.isPrefixOf (body.drop start) then some start else findFrom body needle fuel (start + 1)

/-- The first occurrence of `needle` at or after `from_`. Each round starts later in the body. -/
def find (body : Bytes) (from_ : Nat) (needle : Bytes) : Option Nat :=
  findFrom body needle (body.length + 1) from_

section Find

variable {body needle : Bytes}

theorem findFrom_sound {fuel position start : Nat} (h : findFrom body needle fuel position = some start) :
    position ≤ start ∧ needle <+: body.drop start := by
  induction fuel generalizing position with
  | zero => cases h
  | succ fuel ih =>
    rw [findFrom] at h
    split at h
    · cases h
    · next found _ =>
      dsimp only at h
      split at h
      · next hprefix =>
        cases h
        exact ⟨Nat.le_add_right _ _, List.isPrefixOf_iff_prefix.mp hprefix⟩
      · obtain ⟨hle, hp⟩ := ih h
        exact ⟨by omega, hp⟩

/-- **A fragment found stands in the body as it is.** -/
theorem slice_of_find {from_ start : Nat} (hne : needle ≠ []) (h : find body from_ needle = some start) :
    from_ ≤ start ∧ start + needle.length ≤ body.length ∧
      slice body start (start + needle.length) = needle := by
  obtain ⟨hle, hprefix⟩ := findFrom_sound h
  have hlength := hprefix.length_le
  rw [List.length_drop] at hlength
  have hpos : 0 < needle.length := List.length_pos_of_ne_nil hne
  refine ⟨hle, by omega, ?_⟩
  unfold slice
  rw [Nat.add_sub_cancel_left]
  exact (List.prefix_iff_eq_take.mp hprefix).symm

/-- No place of the needle, none of what it starts with. -/
theorem memmem_le {hay : Bytes} {k : Nat} (hk : k ≤ hay.length) (h : needle <+: hay.drop k) :
    ∃ found, memmem needle hay = some found ∧ found ≤ k := by
  induction hay generalizing k with
  | nil =>
    have hnil : needle = [] := by simpa using h
    exact ⟨0, by simp [memmem, hnil], Nat.zero_le _⟩
  | cons b bs ih =>
    rw [memmem]
    split
    · exact ⟨0, rfl, Nat.zero_le _⟩
    · next hp =>
      cases k with
      | zero => exact absurd (List.isPrefixOf_iff_prefix.mpr h) hp
      | succ k =>
        obtain ⟨found, hfound, hle⟩ := ih (Nat.le_of_succ_le_succ hk) h
        exact ⟨found + 1, by rw [hfound]; rfl, Nat.succ_le_succ hle⟩

/-- **The search misses no occurrence**: it comes to one at or before each there is. -/
theorem find_complete {from_ k : Nat} (hfrom : from_ ≤ k) (hk : k ≤ body.length)
    (h : needle <+: body.drop k) : ∃ start, find body from_ needle = some start ∧ start ≤ k := by
  have hrounds : ∀ fuel position, k < position + fuel → position ≤ k →
      ∃ start, findFrom body needle fuel position = some start ∧ start ≤ k := by
    intro fuel
    induction fuel with
    | zero => intro position h1 h2; omega
    | succ fuel ih =>
      intro position hlt hle
      have hshort : needle.take 64 <+: (body.drop position).drop (k - position) := by
        rw [List.drop_drop, Nat.add_sub_cancel' hle]
        exact (List.take_prefix 64 needle).trans h
      obtain ⟨found, hfound, hfle⟩ := memmem_le (by rw [List.length_drop]; omega) hshort
      rw [findFrom, hfound]
      dsimp only
      split
      · exact ⟨_, rfl, by omega⟩
      · next hp =>
        -- the prefix stood there, the needle not: its place is later
        have hne : position + found ≠ k := by
          rintro rfl
          exact hp (List.isPrefixOf_iff_prefix.mpr h)
        exact ih (position + found + 1) (by omega) (by omega)
  exact hrounds _ from_ (by omega) hfrom

end Find

/-! ## 3. Parts -/

/-- An `Arc<String>` of the fragment cache: where it is, and what it says. -/
structure Fragment where
  addr : Nat
  bytes : Bytes
deriving DecidableEq, Repr

def minFragment : Nat := 1024
def minWholePage : Nat := 1024
def maxGlue : Nat := 256

inductive Part where
  | text (start stop : Nat) (sha : Bytes)
  /-- From the glue to the end of the fragment. -/
  | fragment (fragment : Fragment) (sha : Bytes) (glue : Nat) (start stop : Nat)
deriving DecidableEq, Repr

/-- What comes right before a part, which its piece may refer back into. -/
inductive Before where
  | nothing
  | fragment (addr : Nat)
  | text (sha : Bytes)
deriving DecidableEq, Repr

namespace Part

def start : Part → Nat
  | text start _ _ => start
  | fragment _ _ _ start _ => start

def stop : Part → Nat
  | text _ stop _ => stop
  | fragment _ _ _ _ stop => stop

/-- The bytes of the part. -/
def bytes (body : Bytes) (part : Part) : Bytes := slice body part.start part.stop

def isFragment : Part → Bool
  | text .. => false
  | fragment .. => true

/-- The part as the part after it sees it: its identity, and the bytes it shows. -/
def asBefore (body : Bytes) : Part → Before × Bytes
  | text start stop sha => (.text sha, slice body start stop)
  | fragment f _ _ _ stop => (.fragment f.addr, slice body (stop - f.bytes.length) stop)

end Part

/-- What comes before the part after `prev`. -/
def beforeOf (body : Bytes) (prev : Option Part) : Before × Bytes :=
  match prev with
  | none => (.nothing, [])
  | some part => part.asBefore body

/-- Where each fragment is, searching after the previous one; fragments not found are skipped. -/
def locateFrom (body : Bytes) : Nat → List Fragment → List (Fragment × Nat)
  | _, [] => []
  | position, fragment :: fragments =>
    match find body position fragment.bytes with
    | some start => (fragment, start) :: locateFrom body (start + fragment.bytes.length) fragments
    | none => locateFrom body position fragments

def locate (body : Bytes) (fragments : List Fragment) : List (Fragment × Nat) :=
  locateFrom body 0 (fragments.filter fun f => minFragment ≤ f.bytes.length)

section Split

-- the SHA-256 of the bytes, and what is remembered of a fragment's
variable (digest : Bytes → Bytes) (shaOf : Fragment → Bytes) (body : Bytes)

def textPart (start stop : Nat) : Part := .text start stop (digest (slice body start stop))

/-- The parts of the body from `position` on, after `prev`. -/
def splitFrom (prev : Option Part) (position : Nat) : List (Fragment × Nat) → List Part
  | [] => if position < body.length then [textPart digest body position body.length] else []
  | (fragment, start) :: located =>
    let stop := start + fragment.bytes.length
    if prev.any (·.isFragment) ∧ start - position ≤ maxGlue then
      let part := Part.fragment fragment (shaOf fragment) (start - position) position stop
      part :: splitFrom (some part) stop located
    else
      let part := Part.fragment fragment (shaOf fragment) 0 start stop
      if position < start then textPart digest body position start :: part :: splitFrom (some part) stop located
      else part :: splitFrom (some part) stop located

/-- `PageParts::new`. -/
def newParts (fragments : List Fragment) : Option (List Part) :=
  let located := locate body fragments
  if located = [] then none else some (splitFrom digest shaOf body none 0 located)

/-- `PageParts::whole`. -/
def wholeParts : Option (List Part) :=
  if minWholePage ≤ body.length then some [textPart digest body 0 body.length] else none

end Split

/-! ## 4. The parts cover the body -/

/-- A part says what stands in the body where it is. -/
def Part.Sound (digest : Bytes → Bytes) (body : Bytes) : Part → Prop
  | .text start stop sha => start ≤ stop ∧ stop ≤ body.length ∧ sha = digest (slice body start stop)
  | .fragment f sha glue start stop =>
    stop = start + glue + f.bytes.length ∧ stop ≤ body.length ∧ glue ≤ maxGlue ∧
      slice body (start + glue) stop = f.bytes ∧ sha = digest f.bytes

/-- **The parts are sound and follow each other end to end**, from a position to the body's end. -/
def Covers (digest : Bytes → Bytes) (body : Bytes) : Nat → List Part → Prop
  | position, [] => position = body.length
  | position, part :: parts =>
    part.Sound digest body ∧ part.start = position ∧ Covers digest body part.stop parts

section Covers

variable {digest : Bytes → Bytes} {shaOf : Fragment → Bytes} {body : Bytes}

/-- Fragments found stand in the body one after the other. -/
def Located (body : Bytes) : Nat → List (Fragment × Nat) → Prop
  | position, [] => position ≤ body.length
  | position, (fragment, start) :: located =>
    position ≤ start ∧ start + fragment.bytes.length ≤ body.length ∧
      slice body start (start + fragment.bytes.length) = fragment.bytes ∧
        Located body (start + fragment.bytes.length) located

theorem located_locateFrom {fragments : List Fragment} {position : Nat} (h : position ≤ body.length)
    (hf : ∀ f ∈ fragments, f.bytes ≠ []) : Located body position (locateFrom body position fragments) := by
  induction fragments generalizing position with
  | nil => exact h
  | cons fragment fragments ih =>
    have hrest : ∀ f ∈ fragments, f.bytes ≠ [] := fun f hm => hf f (List.mem_cons_of_mem _ hm)
    rw [locateFrom]
    split
    · next start hfind =>
      obtain ⟨hle, hlen, hslice⟩ := slice_of_find (hf fragment List.mem_cons_self) hfind
      exact ⟨hle, hlen, hslice, ih hlen hrest⟩
    · exact ih h hrest

theorem located_locate (fragments : List Fragment) : Located body 0 (locate body fragments) := by
  refine located_locateFrom (Nat.zero_le _) fun f hf => ?_
  have hlen : minFragment ≤ f.bytes.length := of_decide_eq_true (List.mem_filter.mp hf).2
  intro hnil
  rw [hnil] at hlen
  exact absurd hlen (by decide)

theorem sound_textPart {start stop : Nat} (h : start ≤ stop) (h' : stop ≤ body.length) :
    (textPart digest body start stop).Sound digest body := ⟨h, h', rfl⟩

theorem covers_splitFrom {prev : Option Part} {position : Nat} {located : List (Fragment × Nat)}
    (h : Located body position located) (hsha : ∀ found ∈ located, shaOf found.1 = digest found.1.bytes) :
    Covers digest body position (splitFrom digest shaOf body prev position located) := by
  induction located generalizing prev position with
  | nil =>
    have hle : position ≤ body.length := h
    rw [splitFrom]
    split
    · exact ⟨sound_textPart hle (Nat.le_refl _), rfl, rfl⟩
    · show position = body.length
      omega
  | cons found located ih =>
    obtain ⟨fragment, start⟩ := found
    obtain ⟨hle, hlen, hslice, hrest⟩ := h
    have hthis : shaOf fragment = digest fragment.bytes := hsha (fragment, start) List.mem_cons_self
    have hnext := fun prev => @ih prev _ hrest fun found hf => hsha found (List.mem_cons_of_mem _ hf)
    rw [splitFrom]
    dsimp only
    split
    · next hglue =>
      refine ⟨⟨by omega, hlen, hglue.2, ?_, hthis⟩, rfl, hnext _⟩
      rwa [Nat.add_sub_cancel' hle]
    · have hpart : (Part.fragment fragment (shaOf fragment) 0 start
          (start + fragment.bytes.length)).Sound digest body := ⟨rfl, hlen, Nat.zero_le _, hslice, hthis⟩
      split
      · exact ⟨sound_textPart hle (by omega), rfl, hpart, rfl, hnext _⟩
      · next hlt =>
        have heq : start = position := by omega
        exact ⟨hpart, heq, hnext _⟩

/-- **`PageParts::new` partitions the body.** -/
theorem covers_newParts {fragments : List Fragment} {parts : List Part}
    (h : newParts digest shaOf body fragments = some parts)
    (hsha : ∀ found ∈ locate body fragments, shaOf found.1 = digest found.1.bytes) :
    Covers digest body 0 parts := by
  unfold newParts at h
  dsimp only at h
  split at h
  · cases h
  · cases h
    exact covers_splitFrom (located_locate fragments) hsha

/-- A part is text, or one of the fragments found. -/
theorem mem_splitFrom {prev : Option Part} {position : Nat} {located : List (Fragment × Nat)}
    {f : Fragment} {sha : Bytes} {glue start stop : Nat}
    (h : Part.fragment f sha glue start stop ∈ splitFrom digest shaOf body prev position located) :
    f ∈ located.map (·.1) := by
  induction located generalizing prev position with
  | nil =>
    rw [splitFrom] at h
    split at h
    · cases List.mem_singleton.mp h
    · cases h
  | cons found located ih =>
    obtain ⟨fragment, at_⟩ := found
    rw [splitFrom] at h
    dsimp only at h
    rw [List.map_cons, List.mem_cons]
    split at h
    · rcases List.mem_cons.mp h with heq | h
      · exact .inl (by cases heq; rfl)
      · exact .inr (ih h)
    · split at h
      · rcases List.mem_cons.mp h with heq | h
        · cases heq
        · rcases List.mem_cons.mp h with heq | h
          · exact .inl (by cases heq; rfl)
          · exact .inr (ih h)
      · rcases List.mem_cons.mp h with heq | h
        · exact .inl (by cases heq; rfl)
        · exact .inr (ih h)

theorem mem_newParts {fragments : List Fragment} {parts : List Part}
    (h : newParts digest shaOf body fragments = some parts) {f : Fragment} {sha : Bytes}
    {glue start stop : Nat} (hm : Part.fragment f sha glue start stop ∈ parts) :
    f ∈ (locate body fragments).map (·.1) := by
  unfold newParts at h
  dsimp only at h
  split at h
  · cases h
  · cases h
    exact mem_splitFrom hm

/-- Only fragments listed are found. -/
theorem mem_locate {fragments : List Fragment} {found : Fragment × Nat}
    (h : found ∈ locate body fragments) : found.1 ∈ fragments := by
  have hfrom : ∀ {l : List Fragment} {position : Nat}, found ∈ locateFrom body position l → found.1 ∈ l := by
    intro l
    induction l with
    | nil => intro position hm; cases hm
    | cons fragment l ih =>
      intro position hm
      rw [locateFrom] at hm
      split at hm
      · rcases List.mem_cons.mp hm with rfl | hm
        · exact List.mem_cons_self
        · exact List.mem_cons_of_mem _ (ih hm)
      · exact List.mem_cons_of_mem _ (ih hm)
  exact List.mem_of_mem_filter (hfrom h)

theorem covers_wholeParts {parts : List Part} (h : wholeParts digest body = some parts) :
    Covers digest body 0 parts := by
  unfold wholeParts at h
  split at h
  · cases h
    exact ⟨sound_textPart (Nat.zero_le _) (Nat.le_refl _), rfl, rfl⟩
  · cases h

variable {part : Part}

theorem Part.Sound.le (h : part.Sound digest body) : part.start ≤ part.stop ∧ part.stop ≤ body.length := by
  cases part with
  | text start stop sha => exact ⟨h.1, h.2.1⟩
  | fragment f sha glue start stop =>
    refine ⟨?_, h.2.1⟩
    have hstop : stop = start + glue + f.bytes.length := h.1
    show start ≤ stop
    omega

/-- **What a part shows comes right before what follows it.** -/
theorem Part.Sound.asBefore_suffix (h : part.Sound digest body) :
    (part.asBefore body).2 <:+ body.take part.stop := by
  cases part with
  | text start stop sha => exact ⟨body.take start, take_append_slice h.1⟩
  | fragment f sha glue start stop =>
    exact ⟨body.take (stop - f.bytes.length), take_append_slice (Nat.sub_le _ _)⟩

/-- A fragment shows its own bytes. -/
theorem Part.Sound.asBefore_fragment {f : Fragment} {sha : Bytes} {glue start stop : Nat}
    (h : (Part.fragment f sha glue start stop).Sound digest body) :
    slice body (stop - f.bytes.length) stop = f.bytes := by
  have hstop : stop = start + glue + f.bytes.length := h.1
  have hstart : stop - f.bytes.length = start + glue := by omega
  rw [hstart]
  exact h.2.2.2.1

end Covers

/-! ## 5. ETags -/

/-- `n.to_le_bytes()`, of so many bytes. -/
def leBytes : Nat → Nat → Bytes
  | 0, _ => []
  | k + 1, n => UInt8.ofNat (n % 256) :: leBytes k (n / 256)

def hexDigit (n : Nat) : Char := "0123456789abcdef".toList.getD n '0'

def hexOf (b : UInt8) : List Char := [hexDigit (b.toNat / 16), hexDigit (b.toNat % 16)]

/-- `hex::encode`. -/
def hexEncode (bytes : Bytes) : String := String.ofList (bytes.flatMap hexOf)

@[simp] theorem length_leBytes (k n : Nat) : (leBytes k n).length = k := by
  induction k generalizing n with
  | zero => rfl
  | succ k ih => simp [leBytes, ih]

theorem leBytes_inj {k n m : Nat} (hn : n < 256 ^ k) (hm : m < 256 ^ k) (h : leBytes k n = leBytes k m) :
    n = m := by
  induction k generalizing n m with
  | zero =>
    simp at hn hm
    omega
  | succ k ih =>
    rw [leBytes, leBytes] at h
    obtain ⟨hhead, htail⟩ := List.cons.inj h
    have hlow : n % 256 = m % 256 := by
      have := congrArg UInt8.toNat hhead
      simpa using this
    have hhigh : n / 256 = m / 256 :=
      ih (Nat.div_lt_of_lt_mul (by rwa [← Nat.pow_succ'])) (Nat.div_lt_of_lt_mul (by rwa [← Nat.pow_succ'])) htail
    omega

theorem hexDigit_inj : ∀ i < 16, ∀ j < 16, hexDigit i = hexDigit j → i = j := by decide

theorem hexEncode_inj {a b : Bytes} (h : hexEncode a = hexEncode b) : a = b := by
  have hchars : a.flatMap hexOf = b.flatMap hexOf := by
    have := congrArg String.toList h
    simpa [hexEncode] using this
  clear h
  induction a generalizing b with
  | nil =>
    cases b with
    | nil => rfl
    | cons y b => cases hchars
  | cons x a ih =>
    cases b with
    | nil => cases hchars
    | cons y b =>
      rw [List.flatMap_cons, List.flatMap_cons] at hchars
      obtain ⟨h₁, h⟩ := List.cons.inj hchars
      obtain ⟨h₂, htail⟩ := List.cons.inj h
      have hx : x.toNat < 256 := x.toNat_lt
      have hy : y.toNat < 256 := y.toNat_lt
      have hhigh := hexDigit_inj _ (by omega) _ (by omega) h₁
      have hlow := hexDigit_inj _ (by omega) _ (by omega) h₂
      have hxy : x = y := UInt8.toNat_inj.mp (by omega)
      rw [hxy, ih htail]

/-- What the ETag's hasher is given of the part: a letter, and lengths before what has none. -/
def Part.tagged (body : Bytes) : Part → Bytes
  | .text start stop sha => 84 :: (leBytes 8 (stop - start) ++ sha)
  | .fragment f sha glue start _ =>
    70 :: (leBytes 8 glue ++ (slice body start (start + glue) ++ (leBytes 8 f.bytes.length ++ sha)))

/-- What was hashed for the part. -/
def Part.hashed (body : Bytes) : Part → Bytes
  | .text start stop _ => slice body start stop
  | .fragment f .. => f.bytes

/-- What the ETag hashes. -/
def tagged (body : Bytes) (parts : List Part) : Bytes := parts.flatMap (·.tagged body)

/-- The weak ETag's value: 32 hex digits of a SHA-256 over the parts. -/
def etag (digest : Bytes → Bytes) (body : Bytes) (parts : List Part) : String :=
  hexEncode ((digest (tagged body parts)).take 16)

/-- Of what was hashed, no two have the same digest. -/
def NoCollisions (digest : Bytes → Bytes) (hashed : List Bytes) : Prop :=
  ∀ x ∈ hashed, ∀ y ∈ hashed, digest x = digest y → x = y

section Etag

variable {digest : Bytes → Bytes} {hashed : List Bytes}

theorem NoCollisions.eq (h : NoCollisions digest hashed) {x y : Bytes} (hx : x ∈ hashed) (hy : y ∈ hashed)
    (hxy : digest x = digest y) : x = y := h x hx y hy hxy

/-- Digests that differ at the start differ. -/
theorem NoCollisions.of_take (h : NoCollisions (fun x => (digest x).take 16) hashed) :
    NoCollisions digest hashed := fun x hx y hy hxy => h x hx y hy (congrArg (List.take 16) hxy)

/-- **A tagged part can be told from what follows it**, and tells its bytes. -/
theorem tagged_append_inj (hlen : ∀ x, (digest x).length = 32) (h : NoCollisions digest hashed)
    {body body' rest rest' : Bytes} {part part' : Part} (hs : part.Sound digest body)
    (hs' : part'.Sound digest body') (hin : part.hashed body ∈ hashed) (hin' : part'.hashed body' ∈ hashed)
    (heq : part.tagged body ++ rest = part'.tagged body' ++ rest') :
    part.bytes body = part'.bytes body' ∧ rest = rest' := by
  cases part with
  | text start stop sha =>
    cases part' with
    | fragment => cases heq
    | text start' stop' sha' =>
      obtain ⟨_, _, rfl⟩ := hs
      obtain ⟨_, _, rfl⟩ := hs'
      simp only [Part.tagged, List.cons_append, List.append_assoc, List.cons.injEq, true_and] at heq
      obtain ⟨_, hsha⟩ := List.append_inj heq (by simp)
      obtain ⟨hdigest, hrest⟩ := List.append_inj hsha (by rw [hlen, hlen])
      exact ⟨h.eq hin hin' hdigest, hrest⟩
  | fragment f sha glue start stop =>
    cases part' with
    | text => cases heq
    | fragment f' sha' glue' start' stop' =>
      obtain ⟨rfl, hle, hglue, hslice, rfl⟩ := hs
      obtain ⟨rfl, hle', hglue', hslice', rfl⟩ := hs'
      simp only [Part.tagged, List.cons_append, List.append_assoc, List.cons.injEq, true_and] at heq
      obtain ⟨hcount, hafter⟩ := List.append_inj heq (by simp)
      have hsmall : maxGlue < 256 ^ 8 := by decide
      obtain rfl : glue = glue' :=
        leBytes_inj (Nat.lt_of_le_of_lt hglue hsmall) (Nat.lt_of_le_of_lt hglue' hsmall) hcount
      obtain ⟨htext, hafter'⟩ := List.append_inj hafter (by
        rw [length_slice (by omega), length_slice (by omega)]
        omega)
      obtain ⟨_, hsha⟩ := List.append_inj hafter' (by simp)
      obtain ⟨hdigest, hrest⟩ := List.append_inj hsha (by rw [hlen, hlen])
      have hbytes : f.bytes = f'.bytes := h.eq hin hin' hdigest
      refine ⟨?_, hrest⟩
      show slice body start (start + glue + f.bytes.length) = slice body' start' (start' + glue + f'.bytes.length)
      rw [← slice_append_slice (Nat.le_add_right start glue) (Nat.le_add_right _ f.bytes.length),
        ← slice_append_slice (Nat.le_add_right start' glue) (Nat.le_add_right _ f'.bytes.length),
        htext, hslice, hslice', hbytes]

/-- What the parts tag is what the body says, from a position on. -/
theorem drop_of_tagged (hlen : ∀ x, (digest x).length = 32) (h : NoCollisions digest hashed)
    {body body' : Bytes} {parts parts' : List Part} {position position' : Nat}
    (hc : Covers digest body position parts) (hc' : Covers digest body' position' parts')
    (hin : ∀ part ∈ parts, part.hashed body ∈ hashed) (hin' : ∀ part ∈ parts', part.hashed body' ∈ hashed)
    (heq : tagged body parts = tagged body' parts') : body.drop position = body'.drop position' := by
  induction parts generalizing position position' parts' with
  | nil =>
    cases parts' with
    | nil =>
      have h₁ : position = body.length := hc
      have h₂ : position' = body'.length := hc'
      rw [h₁, h₂, List.drop_length, List.drop_length]
    | cons part' parts' => cases part' <;> cases heq
  | cons part parts ih =>
    cases parts' with
    | nil => cases part <;> cases heq
    | cons part' parts' =>
      obtain ⟨hs, rfl, hrest⟩ := hc
      obtain ⟨hs', rfl, hrest'⟩ := hc'
      obtain ⟨hbytes, htail⟩ := tagged_append_inj hlen h hs hs' (hin part List.mem_cons_self)
        (hin' part' List.mem_cons_self) heq
      have hnext := ih hrest hrest' (fun p hp => hin p (List.mem_cons_of_mem _ hp))
        (fun p hp => hin' p (List.mem_cons_of_mem _ hp)) htail
      have hsplit : ∀ {b : Bytes} {p : Part}, p.Sound digest b → p.bytes b ++ b.drop p.stop = b.drop p.start := by
        intro b p hp
        have hstop : b.drop p.stop = (b.drop p.start).drop (p.stop - p.start) := by
          rw [List.drop_drop, Nat.add_sub_cancel' hp.le.1]
        rw [hstop]
        exact List.take_append_drop _ _
      rw [← hsplit hs, ← hsplit hs', hbytes, hnext]

/-- **Bodies of equal splice ETags are equal**, where no digests collide in the part an ETag shows. -/
theorem body_of_etag (hlen : ∀ x, (digest x).length = 32)
    (h : NoCollisions (fun x => (digest x).take 16) hashed)
    {body body' : Bytes} {parts parts' : List Part} (hc : Covers digest body 0 parts)
    (hc' : Covers digest body' 0 parts') (hin : ∀ part ∈ parts, part.hashed body ∈ hashed)
    (hin' : ∀ part ∈ parts', part.hashed body' ∈ hashed) (htag : tagged body parts ∈ hashed)
    (htag' : tagged body' parts' ∈ hashed) (heq : etag digest body parts = etag digest body' parts') :
    body = body' :=
  drop_of_tagged hlen h.of_take hc hc' hin hin' (h _ htag _ htag' (hexEncode_inj heq))

end Etag

end Smartfire
