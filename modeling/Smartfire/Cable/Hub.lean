/-
  File:      Smartfire/Cable/Hub.lean
  Subject:   The hub's publication sequence together with the ring its lock orders.

  `Hub::sequenced` takes the next sequence and runs a publication under the same lock
  (crates/cable/src/pubsub.rs), so the ring is given its entries in sequence order. `Hub` carries
  that as its fields: beside the counter and the ring it keeps the (ghost) log of every entry the
  ring was ever given, with the proof that the ring holds the log's end. An operation of the hub
  therefore never has to be shown well-ordered again.

  * `Hub.publish`, `pushGap`, `skip`, `broadcast` -- what takes a sequence; `read`, `resume`,
    `evict` -- what takes none;
  * `Hub.read_cases`, `Hub.resume_cases` -- the two answers of each;
  * `Hub.Grows` -- what any number of hub operations can do to what a connection has seen.
-/
import Smartfire.Cable.Ring

namespace Smartfire

open Lib

/-- An entry is a publication's or a gap marker. -/
def Entry.Made (e : Entry) : Prop :=
  (∃ now p, e = Entry.ofPublication e.seq now p) ∨ ∃ now user, e = Entry.gapMarker e.seq now user

/-- The publication sequence, the ring, and the (ghost) log of all the ring was given. -/
structure Hub where
  sequence : Nat
  ring : RingState
  log : List Entry
  keeps : ring.Keeps log
  head_le : ring.head ≤ sequence
  made : ∀ e ∈ log, e.Made

namespace Hub

/-! ## 1. Operations -/

/-- Before any publication. -/
def empty : Hub where
  sequence := 0
  ring := .empty
  log := []
  keeps := RingState.keeps_empty
  head_le := Nat.le_refl 0
  made _ h := (List.not_mem_nil h).elim

/-- Takes the next sequence for an entry and appends it to the ring. -/
def append (cfg : SyncConfig) (now : Nat) (e : Entry) (h : Hub) (hseq : e.seq = h.sequence + 1)
    (hmade : e.Made) : Hub where
  sequence := h.sequence + 1
  ring := h.ring.append cfg now e
  log := h.log ++ [e]
  keeps := h.keeps.append (by have := h.head_le; omega)
  head_le := Nat.le_of_eq hseq
  made b hb := (List.mem_append.mp hb).elim (h.made b) fun hb => List.mem_singleton.mp hb ▸ hmade

/-- `Server::sync_publish`: the ring is given the publication at the next sequence. -/
def publish (cfg : SyncConfig) (now : Nat) (p : SyncPublication) (h : Hub) : Hub :=
  h.append cfg now (.ofPublication (h.sequence + 1) now p) rfl (.inl ⟨now, p, rfl⟩)

/-- The second step of `Server::sync_skipped_for`: the marker at the next sequence. -/
def pushGap (cfg : SyncConfig) (now : Nat) (user : Int) (h : Hub) : Hub :=
  h.append cfg now (.gapMarker (h.sequence + 1) now user) rfl (.inr ⟨now, user, rfl⟩)

/-- `Ring::skip` at the next sequence. -/
def skip (h : Hub) : Hub where
  sequence := h.sequence + 1
  ring := h.ring.skip (h.sequence + 1)
  log := h.log
  keeps := h.keeps.skip (Nat.lt_succ_of_le h.head_le)
  head_le := Nat.le_refl _
  made := h.made

/-- `Hub::broadcast` to a broadcasting: it takes a sequence and leaves the ring alone. -/
def broadcast (h : Hub) : Hub where
  sequence := h.sequence + 1
  ring := h.ring
  log := h.log
  keeps := h.keeps
  head_le := Nat.le_succ_of_le h.head_le
  made := h.made

/-- Eviction, which every read, resume and push makes first or last. -/
def evict (cfg : SyncConfig) (now : Nat) (h : Hub) : Hub where
  sequence := h.sequence
  ring := h.ring.evict cfg now
  log := h.log
  keeps := h.keeps.evict
  head_le := h.head_le
  made := h.made

/-- `Ring::read`. -/
def read (cfg : SyncConfig) (now cursor : Nat) (h : Hub) : Read × Hub :=
  ((h.ring.read cfg now cursor).1, h.evict cfg now)

/-- `Ring::resume`. -/
def resume (eng : Engine) (now : Nat) (point : Option (String × Int)) (h : Hub) :
    (Nat × Bool) × Hub :=
  ((h.ring.resume eng.config now eng.epoch point).1,
    { h.evict eng.config now with
      ring := { (h.evict eng.config now).ring with handedOut := true }
      keeps := ⟨h.keeps.increasing, h.keeps.bounded, h.keeps.evict.evicted_le,
        h.keeps.evict.entries, h.keeps.evict.tip⟩ })

section Spec

variable {eng : Engine} {cfg : SyncConfig} {now : Nat} (h : Hub)

/-- The hub's `read` and `resume` leave the ring as `Ring::read` and `Ring::resume` do. -/
theorem read_ring (cursor : Nat) : (h.read cfg now cursor).2.ring = (h.ring.read cfg now cursor).2 := by
  rw [h.keeps.read_eq]; rfl

theorem resume_ring (point : Option (String × Int)) :
    (h.resume eng now point).2.ring = (h.ring.resume eng.config now eng.epoch point).2 := by
  rw [RingState.resume_snd]; rfl

/-! ## 2. The two answers of a read and of a resume -/

theorem evicted_mono : h.ring.evictedThrough ≤ (h.evict cfg now).ring.evictedThrough := by
  obtain ⟨t, hle, _, he⟩ := h.keeps.evict_eq cfg now
  show _ ≤ (h.ring.evict cfg now).evictedThrough
  rw [he]
  exact hle

/-- **A read**: a cursor before the window has lost events; any other gets the log's entries past
    it, and the head. -/
theorem read_cases (cursor : Nat) :
    (h.read cfg now cursor = (.lost h.ring.head, h.evict cfg now) ∧
        cursor < (h.evict cfg now).ring.evictedThrough) ∨
      (h.read cfg now cursor = (.events (past Entry.seq cursor h.log) h.ring.head, h.evict cfg now) ∧
        (h.evict cfg now).ring.evictedThrough ≤ cursor) := by
  rw [read, h.keeps.read_eq]
  by_cases hlt : cursor < (h.evict cfg now).ring.evictedThrough
  · exact .inl ⟨congrArg (·, _) (if_pos hlt), hlt⟩
  · exact .inr ⟨congrArg (·, _) (if_neg hlt), Nat.not_lt.mp hlt⟩

/-- **A resume**: a point of this epoch inside the window continues there; anything else starts at
    the head. -/
theorem resume_cases (eng : Engine) (now : Nat) (h : Hub) (point : Option (String × Int)) :
    (∃ p : Int, point = some (eng.epoch, p) ∧ (h.resume eng now point).1 = (p.toNat, true) ∧
        0 ≤ p ∧ p.toNat ≤ h.ring.head ∧
        (h.evict eng.config now).ring.evictedThrough ≤ p.toNat) ∨
      (h.resume eng now point).1 = (h.ring.head, false) :=
  h.ring.resume_cases eng.epoch point

end Spec

/-! ## 3. What the fields are after each operation -/

section Fields

variable {eng : Engine} {cfg : SyncConfig} {now cursor : Nat} {p : SyncPublication} {user : Int}
  {point : Option (String × Int)} {h : Hub}

@[simp] theorem publish_sequence : (h.publish cfg now p).sequence = h.sequence + 1 := rfl
@[simp] theorem publish_head : (h.publish cfg now p).ring.head = h.sequence + 1 := rfl
@[simp] theorem publish_log :
    (h.publish cfg now p).log = h.log ++ [.ofPublication (h.sequence + 1) now p] := rfl
@[simp] theorem pushGap_sequence : (h.pushGap cfg now user).sequence = h.sequence + 1 := rfl
@[simp] theorem pushGap_head : (h.pushGap cfg now user).ring.head = h.sequence + 1 := rfl
@[simp] theorem pushGap_log :
    (h.pushGap cfg now user).log = h.log ++ [.gapMarker (h.sequence + 1) now user] := rfl
@[simp] theorem skip_sequence : h.skip.sequence = h.sequence + 1 := rfl
@[simp] theorem skip_ring : h.skip.ring = ⟨[], h.sequence + 1, h.sequence + 1, false⟩ := rfl
@[simp] theorem skip_log : h.skip.log = h.log := rfl
@[simp] theorem broadcast_sequence : h.broadcast.sequence = h.sequence + 1 := rfl
@[simp] theorem broadcast_ring : h.broadcast.ring = h.ring := rfl
@[simp] theorem broadcast_log : h.broadcast.log = h.log := rfl
@[simp] theorem evict_sequence : (h.evict cfg now).sequence = h.sequence := rfl
@[simp] theorem evict_head : (h.evict cfg now).ring.head = h.ring.head := rfl
@[simp] theorem evict_handedOut : (h.evict cfg now).ring.handedOut = h.ring.handedOut := rfl
@[simp] theorem evict_log : (h.evict cfg now).log = h.log := rfl
@[simp] theorem read_hub : (h.read cfg now cursor).2 = h.evict cfg now := rfl
@[simp] theorem resume_sequence : (h.resume eng now point).2.sequence = h.sequence := rfl
@[simp] theorem resume_head : (h.resume eng now point).2.ring.head = h.ring.head := rfl
@[simp] theorem resume_handedOut : (h.resume eng now point).2.ring.handedOut = true := rfl
@[simp] theorem resume_evictedThrough : (h.resume eng now point).2.ring.evictedThrough =
    (h.evict eng.config now).ring.evictedThrough := rfl
@[simp] theorem resume_log : (h.resume eng now point).2.log = h.log := rfl

theorem append_evicted {e : Entry} {hseq : e.seq = h.sequence + 1} {hm : e.Made} :
    h.ring.evictedThrough ≤ (h.append cfg now e hseq hm).ring.evictedThrough := by
  have hlt : h.ring.head < e.seq := by have := h.head_le; omega
  obtain ⟨t, hle, _, he⟩ := (h.keeps.push_back hlt).evict_eq cfg now
  show _ ≤ (h.ring.append cfg now e).evictedThrough
  rw [RingState.append, he]
  exact hle

end Fields

/-! ## 4. How a hub grows -/

/-- What any number of hub operations can do: the log is continued past the present sequence, and
    the counters only rise. -/
structure Grows (h h' : Hub) : Prop where
  sequence : h.sequence ≤ h'.sequence
  head : h.ring.head ≤ h'.ring.head
  evicted : h.ring.evictedThrough ≤ h'.ring.evictedThrough
  log : ∃ new, h'.log = h.log ++ new ∧ ∀ e ∈ new, h.sequence < e.seq

theorem Grows.refl (h : Hub) : Grows h h :=
  ⟨Nat.le_refl _, Nat.le_refl _, Nat.le_refl _, [], (List.append_nil _).symm,
    fun _ h => (List.not_mem_nil h).elim⟩

/-- What a publisher, another connection's read or the passing of time does to the hub. -/
inductive Act where
  | publish (now : Nat) (p : SyncPublication)
  | pushGap (now : Nat) (user : Int)
  | skip
  | broadcast
  | evict (now : Nat)

def act (cfg : SyncConfig) (h : Hub) : Act → Hub
  | .publish now p => h.publish cfg now p
  | .pushGap now user => h.pushGap cfg now user
  | .skip => h.skip
  | .broadcast => h.broadcast
  | .evict now => h.evict cfg now

variable {eng : Engine} {cfg : SyncConfig} {now : Nat} {h : Hub}

theorem grows_append (e : Entry) (hseq : e.seq = h.sequence + 1) (hm : e.Made) :
    Grows h (h.append cfg now e hseq hm) := by
  refine ⟨Nat.le_succ _, ?_, append_evicted, [e], rfl, fun b hb => ?_⟩
  · show h.ring.head ≤ e.seq
    have := h.head_le
    omega
  · rw [List.mem_singleton.mp hb]
    omega

theorem grows_skip : Grows h h.skip :=
  ⟨Nat.le_succ _, Nat.le_succ_of_le h.head_le,
    Nat.le_succ_of_le (Nat.le_trans h.keeps.evicted_le h.head_le), [], (List.append_nil _).symm,
    fun _ h => (List.not_mem_nil h).elim⟩

theorem grows_evict : Grows h (h.evict cfg now) :=
  ⟨Nat.le_refl _, Nat.le_refl _, h.evicted_mono, [], (List.append_nil _).symm,
    fun _ h => (List.not_mem_nil h).elim⟩

theorem grows_resume {point : Option (String × Int)} : Grows h (h.resume eng now point).2 :=
  ⟨Nat.le_refl _, Nat.le_refl _, h.evicted_mono, [], (List.append_nil _).symm,
    fun _ h => (List.not_mem_nil h).elim⟩

theorem grows_broadcast : Grows h h.broadcast :=
  ⟨Nat.le_succ _, Nat.le_refl _, Nat.le_refl _, [], (List.append_nil _).symm,
    fun _ h => (List.not_mem_nil h).elim⟩

/-- **Every hub operation makes the hub grow.** -/
theorem grows_act (a : Act) : Grows h (h.act cfg a) := by
  cases a with
  | publish now p => exact grows_append _ rfl (.inl ⟨now, p, rfl⟩)
  | pushGap now user => exact grows_append _ rfl (.inr ⟨now, user, rfl⟩)
  | skip => exact grows_skip
  | broadcast => exact grows_broadcast
  | evict now => exact grows_evict

/-- Nothing leaves the log. -/
theorem Grows.subset {h' : Hub} (hg : Grows h h') {e : Entry} (he : e ∈ h.log) : e ∈ h'.log := by
  obtain ⟨new, hnew, _⟩ := hg.log
  rw [hnew]
  exact List.mem_append_left _ he

/-- What was in the log at or before the present sequence is all there ever is of it. -/
theorem Grows.mem {h' : Hub} (hg : Grows h h') {e : Entry} (he : e ∈ h'.log)
    (hs : e.seq ≤ h.sequence) : e ∈ h.log := by
  obtain ⟨new, hnew, hlt⟩ := hg.log
  rcases List.mem_append.mp (hnew ▸ he) with he | he
  · exact he
  · have := hlt e he; omega

/-- A reading that ends by the present sequence does not change as the hub grows. -/
theorem Grows.upTo_log {h' : Hub} (hg : Grows h h') {d : Nat} (hd : d ≤ h.sequence) :
    upTo Entry.seq d h'.log = upTo Entry.seq d h.log := by
  obtain ⟨new, hnew, hlt⟩ := hg.log
  rw [hnew, upTo, List.filter_append]
  show upTo Entry.seq d h.log ++ upTo Entry.seq d new = _
  rw [upTo_eq_nil fun e he => Nat.lt_of_le_of_lt hd (hlt e he), List.append_nil]

end Hub

end Smartfire
