/-
  File:      Smartfire/Store/Freshness.lean
  Subject:   The history of list membership in the store (frontend/src/store/freshness.ts).

  A page read from the server may be older than what the client learned while it was on its way. The
  client keeps what it learned as deltas, as long as some read of the list is out, and replays the
  later ones on the page that lands. `at` is `stamp` here.

  * `startRead`, `finishRead`, `retireReads`, `membership`, `observeMembership` -- the history;
  * `compactDeltas` -- one delta for each id of a list, the latest;
  * `placeId`, `replay` -- what the page that lands becomes.
-/
import Mathlib.Data.List.Pairwise
import Smartfire.Lib.Digits
import Smartfire.Lib.Insert
import Smartfire.Store.PagedList

namespace Smartfire

open Lib

/-! ## 1. The history -/

/-- An outstanding read; `reload` marks a first-page load, not a next page. -/
structure ListRead where
  list : String
  reload : Bool
deriving DecidableEq, Repr

structure MembershipDelta where
  list : String
  id : Nat
  added : Bool
  stamp : Nat
deriving DecidableEq, Repr

structure Freshness where
  clock : Nat
  /-- Outstanding reads by ticket. -/
  reads : List (Nat × ListRead)
  deltas : List MembershipDelta
deriving DecidableEq, Repr

def emptyFreshness : Freshness := ⟨0, [], []⟩

/-- Keeps the deltas that some read of their list is older than. -/
def pruneHistory (state : Freshness) (reads : List (Nat × ListRead)) : Freshness :=
  { state with
    reads := reads
    deltas := state.deltas.filter fun delta =>
      reads.any fun read => read.2.list == delta.list && decide (read.1 < delta.stamp) }

/-- A view leaving retires its reads. -/
def retireReads (state : Freshness) (list : String) : Freshness :=
  pruneHistory state (state.reads.filter fun read => read.2.list ≠ list)

/-- A reload supersedes any earlier read of the same list; a next page none. -/
def startRead (state : Freshness) (list : String) (reload : Bool) : Freshness × Nat :=
  let ticket := state.clock + 1
  let current := if reload then retireReads state list else state
  ({ current with
      clock := ticket
      reads := current.reads.filter (fun read => read.1 ≠ ticket) ++ [(ticket, ⟨list, reload⟩)] }, ticket)

def finishRead (state : Freshness) (ticket : Nat) : Freshness :=
  pruneHistory state (state.reads.filter fun read => read.1 ≠ ticket)

/-- Whether a read of the list is out. -/
def beingRead (state : Freshness) (list : String) : Bool :=
  state.reads.any fun read => read.2.list == list

/-- The key of a delta in the map of the latest ones. -/
def deltaKey (delta : MembershipDelta) : String := delta.list ++ ":" ++ toString delta.id

/-- `Map.set`: in the place of the entry of that key, or at the end. -/
def setDelta (delta : MembershipDelta) : List MembershipDelta → List MembershipDelta
  | [] => [delta]
  | held :: rest => if deltaKey held = deltaKey delta then delta :: rest else held :: setDelta delta rest

/-- The latest delta of each key, by their stamps. -/
def compactDeltas (held incoming : List MembershipDelta) : List MembershipDelta :=
  let latest := held.foldl (fun map delta => setDelta delta map) []
  (incoming.foldl (fun map delta => setDelta delta map) latest).mergeSort fun left right =>
    left.stamp ≤ right.stamp

/-- What a list gained and lost, stamped. -/
def membershipDeltas (list : String) (before after : List Nat) (stamp : Nat) : List MembershipDelta :=
  (before.filter fun id => id ∉ after).map (fun id => ⟨list, id, false, stamp⟩) ++
    (after.filter fun id => id ∉ before).map fun id => ⟨list, id, true, stamp⟩

/-- Records only real membership changes, and only while a read can need them. -/
def membership (state : Freshness) (list : String) (before after : List Nat) : Freshness :=
  let stamp := state.clock + 1
  let deltas := membershipDeltas list before after stamp
  if deltas = [] then state
  else
    { state with
      clock := stamp
      deltas := if beingRead state list then compactDeltas state.deltas deltas else state.deltas }

/-- Equal observations still establish membership while a page is in flight. -/
def observeMembership (state : Freshness) (list : String) (id : Nat) (added : Bool) : Freshness :=
  if beingRead state list then
    let stamp := state.clock + 1
    { state with clock := stamp, deltas := compactDeltas state.deltas [⟨list, id, added, stamp⟩] }
  else state

/-! ## 2. The page that lands -/

/-- Existing members keep their position, including the last row of a paged window. -/
def placeId (ids : List Nat) (id : Nat) (belongs : Bool) (order : IdOrder) : List Nat :=
  if belongs then
    if id ∈ ids then ids else insertBefore (fun held => order id held < 0) id ids
  else if id ∈ ids then ids.filter (· ≠ id) else ids

/-- The page with the deltas of its list later than the ticket. -/
def replay (state : Freshness) (list : String) (ticket : Nat) (pageIds : List Nat) (order : IdOrder) :
    List Nat :=
  (state.deltas.filter fun delta => delta.list = list ∧ ticket < delta.stamp).foldl
    (fun held delta => placeId held delta.id delta.added order) pageIds

/-! ## 3. One delta for each id -/

/-- A delta of the same list and id. -/
def SameId (a b : MembershipDelta) : Prop := a.list = b.list ∧ a.id = b.id

theorem toList_deltaKey (d : MembershipDelta) :
    (deltaKey d).toList = d.list.toList ++ ':' :: Nat.toDigits 10 d.id := by
  simp [deltaKey, String.toList_append, ToString.toString, Nat.repr]

/-- **The key tells lists and ids apart**, colons in a list's name or not. -/
theorem deltaKey_eq_iff {a b : MembershipDelta} : deltaKey a = deltaKey b ↔ SameId a b := by
  constructor
  · intro h
    have hl := congrArg String.toList h
    rw [toList_deltaKey, toList_deltaKey] at hl
    obtain ⟨hlist, hid⟩ := append_sep_inj hl (colon_notMem_toDigits _) (colon_notMem_toDigits _)
    refine ⟨String.toList_inj.mp hlist, ?_⟩
    rw [← digitsValue_toDigits a.id, hid, digitsValue_toDigits]
  · rintro ⟨hlist, hid⟩
    rw [deltaKey, deltaKey, hlist, hid]

/-- No two deltas of one key. -/
def OneEach (deltas : List MembershipDelta) : Prop := deltas.Pairwise fun a b => ¬ SameId a b

variable {d x : MembershipDelta} {m deltas incoming : List MembershipDelta}

theorem SameId.symm {a b : MembershipDelta} (h : SameId a b) : SameId b a := ⟨h.1.symm, h.2.symm⟩

theorem SameId.trans {a b c : MembershipDelta} (hab : SameId a b) (hbc : SameId b c) : SameId a c :=
  ⟨hab.1.trans hbc.1, hab.2.trans hbc.2⟩

/-- **Setting replaces the delta of the same id.** -/
theorem mem_setDelta (hm : OneEach m) : x ∈ setDelta d m ↔ x = d ∨ x ∈ m ∧ ¬ SameId x d := by
  induction m with
  | nil => simp [setDelta]
  | cons held rest ih =>
    obtain ⟨hheld, hrest⟩ := List.pairwise_cons.mp hm
    unfold setDelta
    split
    · next heq =>
      have hsame : SameId held d := deltaKey_eq_iff.mp heq
      have hothers : ∀ y ∈ rest, ¬ SameId y d := fun y hy hyd => hheld y hy (hsame.trans hyd.symm)
      rw [List.mem_cons, List.mem_cons]
      constructor
      · rintro (rfl | hx)
        · exact .inl rfl
        · exact .inr ⟨.inr hx, hothers x hx⟩
      · rintro (rfl | ⟨rfl | hx, hne⟩)
        · exact .inl rfl
        · exact absurd hsame hne
        · exact .inr hx
    · next hne =>
      have hheldne : ¬ SameId held d := fun h => hne (deltaKey_eq_iff.mpr h)
      rw [List.mem_cons, List.mem_cons, ih hrest]
      constructor
      · rintro (rfl | rfl | ⟨hx, hxd⟩)
        · exact .inr ⟨.inl rfl, hheldne⟩
        · exact .inl rfl
        · exact .inr ⟨.inr hx, hxd⟩
      · rintro (rfl | ⟨rfl | hx, hxd⟩)
        · exact .inr (.inl rfl)
        · exact .inl rfl
        · exact .inr (.inr ⟨hx, hxd⟩)

theorem OneEach.setDelta (hm : OneEach m) : OneEach (setDelta d m) := by
  induction m with
  | nil => exact List.pairwise_singleton _ _
  | cons held rest ih =>
    obtain ⟨hheld, hrest⟩ := List.pairwise_cons.mp hm
    unfold Smartfire.setDelta
    split
    · next heq =>
      have hsame : SameId held d := deltaKey_eq_iff.mp heq
      exact List.pairwise_cons.mpr ⟨fun y hy hdy => hheld y hy (hsame.trans hdy), hrest⟩
    · next hne =>
      refine List.pairwise_cons.mpr ⟨fun y hy hsame => ?_, ih hrest⟩
      rcases (mem_setDelta hrest).mp hy with rfl | ⟨hy, -⟩
      · exact hne (deltaKey_eq_iff.mpr hsame)
      · exact hheld y hy hsame

/-- Deltas of one moment: those of the same id are the same. -/
def Consistent (incoming : List MembershipDelta) : Prop :=
  ∀ a ∈ incoming, ∀ b ∈ incoming, SameId a b → a = b

/-- **Setting many**: the incoming ones, and the held ones of other ids. -/
theorem foldl_setDelta (hm : OneEach m) (hc : Consistent incoming) :
    OneEach (incoming.foldl (fun map delta => setDelta delta map) m) ∧
      ∀ x, x ∈ incoming.foldl (fun map delta => setDelta delta map) m ↔
        x ∈ incoming ∨ x ∈ m ∧ ∀ d ∈ incoming, ¬ SameId x d := by
  induction incoming generalizing m with
  | nil => exact ⟨hm, fun x => by simp⟩
  | cons d rest ih =>
    have hrest : Consistent rest := fun a ha b hb =>
      hc a (List.mem_cons_of_mem _ ha) b (List.mem_cons_of_mem _ hb)
    obtain ⟨hone, hmem⟩ := ih (hm.setDelta (d := d)) hrest
    refine ⟨hone, fun x => ?_⟩
    rw [List.foldl_cons, hmem, mem_setDelta hm, List.mem_cons, List.forall_mem_cons]
    constructor
    · rintro (hx | ⟨rfl | ⟨hx, hxd⟩, hother⟩)
      · exact .inl (.inr hx)
      · exact .inl (.inl rfl)
      · exact .inr ⟨hx, hxd, hother⟩
    · rintro ((rfl | hx) | ⟨hx, hxd, hother⟩)
      · by_cases hin : x ∈ rest
        · exact .inl hin
        · exact .inr ⟨.inl rfl, fun y hy hsame => hin
            (hc x (List.mem_cons_self ..) y (List.mem_cons_of_mem _ hy) hsame ▸ hy)⟩
      · exact .inl hx
      · exact .inr ⟨.inr ⟨hx, hxd⟩, hother⟩

instance : Std.Symm fun a b : MembershipDelta => ¬ SameId a b := ⟨fun _ _ hab hba => hab hba.symm⟩

theorem OneEach.consistent (h : OneEach deltas) : Consistent deltas := by
  intro a ha b hb hsame
  by_contra hne
  exact List.Pairwise.forall (R := fun a b => ¬ SameId a b) h ha hb hne hsame

/-- **Compaction keeps the latest delta of each id.** -/
theorem compactDeltas_spec (hd : OneEach deltas) (hc : Consistent incoming) :
    OneEach (compactDeltas deltas incoming) ∧
      ∀ x, x ∈ compactDeltas deltas incoming ↔
        x ∈ incoming ∨ x ∈ deltas ∧ ∀ d ∈ incoming, ¬ SameId x d := by
  obtain ⟨hone, hmem⟩ := foldl_setDelta (m := []) List.Pairwise.nil hd.consistent
  obtain ⟨hone', hmem'⟩ := foldl_setDelta hone hc
  constructor
  · exact hone'.perm (List.mergeSort_perm ..).symm fun hab hba => hab hba.symm
  · intro x
    rw [compactDeltas, List.mem_mergeSort, hmem', hmem]
    simp

end Smartfire
