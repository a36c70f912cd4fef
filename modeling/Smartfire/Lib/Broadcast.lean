/-
  File:      Smartfire/Lib/Broadcast.lean
  Subject:   One receiver of a bounded broadcast channel.

  Every message sent is kept for the receiver until it reads it; the channel keeps the last `cap`
  only. A receiver that falls further behind loses the oldest and is told so at its next receive,
  once, before it reads on.

  * `Receiver`, `send`, `recv` -- the channel as one receiver sees it;
  * `poll` -- receives until a wanted message, nothing more, or a bound on the tries.
-/
import Mathlib.Algebra.Order.Ring.Int
import Mathlib.Data.List.Basic
import Mathlib.Tactic.Common

namespace Lib

universe u v

variable {α : Type u} {β : Type v}

/-- What a receiver has not read yet, and whether it has lost messages since its last receive. -/
structure Receiver (α : Type u) where
  unread : List α
  lagged : Bool
deriving Repr

/-- The outcome of a receive that does not wait. -/
inductive Received (α : Type u) where
  | empty
  | lagged
  | message (a : α)
deriving Repr

namespace Receiver

/-- A receiver that has just subscribed. -/
def new : Receiver α := ⟨[], false⟩

/-- A message sent on a channel that keeps the last `cap`. -/
def send (cap : Nat) (a : α) (r : Receiver α) : Receiver α :=
  let l := r.unread ++ [a]
  if cap < l.length then ⟨l.drop (l.length - cap), true⟩ else { r with unread := l }

def recv (r : Receiver α) : Received α × Receiver α :=
  if r.lagged then (.lagged, { r with lagged := false })
  else match r.unread with
    | [] => (.empty, r)
    | a :: l => (.message a, { r with unread := l })

/-- Receives until a message of which `want` makes something, at most `tries` times. -/
def poll (want : α → Option β) : Nat → Receiver α → Option β × Receiver α
  | 0, r => (none, r)
  | tries + 1, r =>
    match r.recv with
    | (.empty, r) => (none, r)
    | (.lagged, r) => poll want tries r
    | (.message a, r) =>
      match want a with
      | some b => (some b, r)
      | none => poll want tries r

end Receiver

/-- The least power of two from `n` on: what a channel made for `n` messages holds. -/
def nextPowerOfTwo (n : Nat) : Nat := if n ≤ 1 then 1 else 2 ^ (Nat.log2 (n - 1) + 1)

theorem nextPowerOfTwo_pos (n : Nat) : 0 < nextPowerOfTwo n := by
  unfold nextPowerOfTwo
  split
  · exact Nat.one_pos
  · exact Nat.two_pow_pos _

namespace Receiver

variable {cap : Nat} {r : Receiver α}

/-- With room left, a message sent is read after those before it. -/
theorem send_of_room {a : α} (h : r.unread.length < cap) :
    r.send cap a = { r with unread := r.unread ++ [a] } := by
  unfold send
  exact if_neg (by rw [List.length_append, List.length_singleton]; omega)

theorem recv_of_unlagged (h : r.lagged = false) :
    r.recv = match r.unread with
      | [] => (.empty, r)
      | a :: l => (.message a, { r with unread := l }) := by
  rw [recv, h]; rfl

/-- A poll of a receiver with nothing to read changes nothing. -/
theorem poll_of_empty {want : α → Option β} {tries : Nat} (hl : r.lagged = false)
    (hu : r.unread = []) : r.poll want tries = (none, r) := by
  cases tries with
  | zero => rfl
  | succ tries => simp only [poll, recv_of_unlagged hl, hu]

/-- A poll finds a wanted message that is the only one. -/
theorem poll_of_single {want : α → Option β} {tries : Nat} {a : α} {b : β} (hl : r.lagged = false)
    (hu : r.unread = [a]) (hw : want a = some b) :
    r.poll want (tries + 1) = (some b, { r with unread := [] }) := by
  simp only [poll, recv_of_unlagged hl, hu, hw]

end Receiver

end Lib
