/-
  File:      Smartfire/Lib/Reads.lean
  Subject:   A source of bytes that gives them in pieces.

  * `Source`, `Source.read` -- the bytes to come, and how the next reads are cut;
  * `Source.fill`, `fill_eq` -- reading until a buffer is full;
  * `Buffered`, `Buffered.next`, `next_eq` -- one byte after the other, whatever the pieces.
-/
import Smartfire.Lib.Bytes

namespace Lib

/-- What the next read does: it is interrupted, or gives one byte and so many more at most. -/
inductive Cut where
  | interrupted
  | short (more : Nat)

/-- A source's bytes to come, its position, and the cuts of its next reads; the reads after those are not cut. -/
structure Source where
  rest : Bytes
  position : Nat
  cuts : List Cut

namespace Source

/-- The source of a text that will be read in pieces. -/
def new (bytes : Bytes) (cuts : List Cut) : Source := ⟨bytes, 0, cuts⟩

def advance (s : Source) (n : Nat) (cuts : List Cut) : Source :=
  ⟨s.rest.drop n, s.position + (s.rest.take n).length, cuts⟩

/-- One read into a buffer of `n` bytes; `none` where it is interrupted. -/
def read (s : Source) (n : Nat) : Option Bytes × Source :=
  match s.cuts with
  | [] => (some (s.rest.take n), s.advance n [])
  | .interrupted :: cuts => (none, { s with cuts := cuts })
  | .short more :: cuts => (some (s.rest.take (min n (more + 1))), s.advance (min n (more + 1)) cuts)

/-- **A read gives some of the bytes to come**, and none only at their end or for an empty buffer. -/
theorem read_spec {s s' : Source} {n : Nat} {got : Option Bytes} (h : s.read n = (got, s')) :
    (got = none ∧ s'.rest = s.rest ∧ s'.position = s.position ∧ s'.cuts.length < s.cuts.length) ∨
      ∃ k, got = some (s.rest.take k) ∧ k ≤ n ∧ (0 < n → 0 < k) ∧ s'.rest = s.rest.drop k ∧
        s'.position = s.position + (s.rest.take k).length := by
  unfold read at h
  split at h
  · obtain ⟨rfl, rfl⟩ := Prod.mk.inj h
    exact .inr ⟨n, rfl, Nat.le_refl n, id, rfl, rfl⟩
  · next hcuts =>
    obtain ⟨rfl, rfl⟩ := Prod.mk.inj h
    exact .inl ⟨rfl, rfl, rfl, by simp [hcuts]⟩
  · next more _ hcuts =>
    obtain ⟨rfl, rfl⟩ := Prod.mk.inj h
    exact .inr ⟨min n (more + 1), rfl, Nat.min_le_left _ _, by omega, rfl, rfl⟩

/-- Reading until a buffer of `n` bytes is full or nothing comes. -/
def fill (s : Source) (n : Nat) : Bytes × Source :=
  if n = 0 then ([], s)
  else
    match h : s.read n with
    | (none, s') => s'.fill n
    | (some [], s') => ([], s')
    | (some (b :: part), s') => (b :: part ++ (s'.fill (n - (part.length + 1))).1, (s'.fill (n - (part.length + 1))).2)
termination_by (n, s.cuts.length)
decreasing_by
  · rcases read_spec h with ⟨-, -, -, hcuts⟩ | ⟨k, hk, -⟩
    · exact Prod.Lex.right _ hcuts
    · cases hk
  all_goals exact Prod.Lex.left _ _ (by omega)

/-- **A buffer is filled with the next bytes**, however they come. -/
theorem fill_eq (s : Source) (n : Nat) :
    (s.fill n).1 = s.rest.take n ∧ (s.fill n).2.rest = s.rest.drop n ∧
      (s.fill n).2.position = s.position + (s.rest.take n).length := by
  fun_induction fill s n with
  | case1 s => simp
  | case2 s n hn s' h ih =>
    rcases read_spec h with ⟨-, hrest, hposition, -⟩ | ⟨k, hk, -⟩
    · rwa [hrest, hposition] at ih
    · cases hk
  | case3 s n hn s' h =>
    rcases read_spec h with ⟨hno, -⟩ | ⟨k, hk, hle, hpos, hrest, hposition⟩
    · cases hno
    · have hempty : s.rest.take k = [] := (Option.some.inj hk).symm
      have hnil : s.rest = [] := by
        cases hs : s.rest with
        | nil => rfl
        | cons b rest =>
          obtain ⟨j, rfl⟩ : ∃ j, k = j + 1 := ⟨k - 1, by omega⟩
          rw [hs] at hempty
          cases hempty
      rw [hrest, hposition, hnil]
      simp
  | case4 s n hn b part s' h ih =>
    rcases read_spec h with ⟨hno, -⟩ | ⟨k, hk, hle, -, hrest, hposition⟩
    · cases hno
    · have hpart : b :: part = s.rest.take k := Option.some.inj hk
      have hlen : part.length + 1 = (s.rest.take k).length := by rw [← hpart, List.length_cons]
      obtain ⟨hbytes, hbehind, hplace⟩ := ih
      rw [hbytes, hbehind, hplace, hrest, hposition]
      generalize part.length + 1 = j at hlen
      -- As many as were asked for, or all there are.
      obtain ⟨hcut, hleft⟩ : s.rest.take k = s.rest.take j ∧ s.rest.drop k = s.rest.drop j := by
        rw [List.length_take] at hlen
        rcases Nat.le_total k s.rest.length with hk | hk
        · obtain rfl : j = k := by omega
          exact ⟨rfl, rfl⟩
        · obtain rfl : j = s.rest.length := by omega
          exact ⟨by rw [List.take_of_length_le hk, List.take_length],
            by rw [List.drop_of_length_le hk, List.drop_length]⟩
      have hj : j ≤ n := by
        rw [List.length_take] at hlen
        omega
      have hsum : s.rest.take n = s.rest.take j ++ (s.rest.drop j).take (n - j) := by
        rw [← List.take_add, Nat.add_sub_cancel' hj]
      refine ⟨?_, ?_, ?_⟩
      · rw [hsum, hpart, hcut, hleft]
      · rw [hleft, List.drop_drop, Nat.add_sub_cancel' hj]
      · rw [hsum, hcut, hleft, List.length_append]
        omega

end Source

/-! ## 2. Byte after byte -/

/-- A source behind a buffer. -/
structure Buffered where
  buffer : Bytes
  source : Source

namespace Buffered

/-- The bytes to come. -/
def pending (r : Buffered) : Bytes := r.buffer ++ r.source.rest

/-- The buffer is filled by one read that is not interrupted. -/
def refill (size : Nat) (s : Source) : Buffered :=
  match h : s.read size with
  | (none, s') => refill size s'
  | (some part, s') => ⟨part, s'⟩
termination_by s.cuts.length
decreasing_by
  rcases Source.read_spec h with ⟨-, -, -, hcuts⟩ | ⟨k, hk, -⟩
  · exact hcuts
  · cases hk

/-- The next byte; the buffer is filled where it is empty. -/
def next (size : Nat) (r : Buffered) : Option (UInt8 × Buffered) :=
  match r.buffer with
  | b :: rest => some (b, { r with buffer := rest })
  | [] =>
    match (refill size r.source).buffer with
    | b :: rest => some (b, { refill size r.source with buffer := rest })
    | [] => none

theorem refill_spec {size : Nat} (hsize : 0 < size) (s : Source) :
    (refill size s).pending = s.rest ∧ ((refill size s).buffer = [] → s.rest = []) := by
  fun_induction refill size s with
  | case1 s s' h ih =>
    rcases Source.read_spec h with ⟨-, hrest, -⟩ | ⟨k, hk, -⟩
    · rwa [hrest] at ih
    · cases hk
  | case2 s part s' h =>
    rcases Source.read_spec h with ⟨hno, -⟩ | ⟨k, hk, -, hpos, hrest, -⟩
    · cases hno
    · obtain rfl := Option.some.inj hk
      refine ⟨by rw [pending, hrest, List.take_append_drop], fun hempty => ?_⟩
      obtain ⟨j, rfl⟩ : ∃ j, k = j + 1 := ⟨k - 1, by have := hpos hsize; omega⟩
      cases hs : s.rest with
      | nil => rfl
      | cons b rest =>
        rw [hs] at hempty
        cases hempty

/-- **The bytes come one after the other**, however the source is cut. -/
theorem next_eq {size : Nat} (hsize : 0 < size) (r : Buffered) :
    (r.next size = none ∧ r.pending = []) ∨ ∃ b r', r.next size = some (b, r') ∧ r.pending = b :: r'.pending := by
  unfold next pending
  cases hbuffer : r.buffer with
  | cons b rest => exact .inr ⟨b, _, rfl, rfl⟩
  | nil =>
    obtain ⟨hpending, hempty⟩ := refill_spec hsize r.source
    cases hfilled : (refill size r.source).buffer with
    | nil => exact .inl ⟨rfl, by rw [List.nil_append, hempty hfilled]⟩
    | cons b rest =>
      refine .inr ⟨b, { refill size r.source with buffer := rest }, rfl, ?_⟩
      rw [List.nil_append, ← hpending, pending, hfilled]
      rfl

end Buffered

end Lib
