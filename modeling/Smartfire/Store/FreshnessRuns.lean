/-
  File:      Smartfire/Store/FreshnessRuns.lean
  Subject:   Replaying the history on a page is exact, for every read still out.

  What a read may need later is every change of its list since it started, and only the latest of
  each id. Pruning keeps a delta as long as some read of its list is older, so it keeps those; and
  compaction replaces a delta by a later one only, which is later than every ticket given out.

  * `Past`, `lastChange` -- what a run has seen of an id since a read started;
  * `FreshnessRun.Inv` -- the deltas say just that, for the reads still out;
  * `foldl_placeId` -- what the deltas make of a page;
  * `replayExact_of_reach` -- the property, of every run.
-/
import Smartfire.Lib.Runs
import Smartfire.Store.Freshness

namespace Smartfire

open Lib

/-! ## 1. The runs -/

inductive FreshnessOp where
  | startRead (list : String) (reload : Bool)
  | finishRead (ticket : Nat)
  | retireReads (list : String)
  | membership (list : String) (before after : List Nat)
  | observeMembership (list : String) (id : Nat) (added : Bool)
deriving DecidableEq, Repr

/-- What happened: a read started, a list's ids became others, or an id's membership was observed. -/
inductive Past where
  | started (ticket : Nat)
  | changed (list : String) (before after : List Nat)
  | observed (list : String) (id : Nat) (added : Bool)
deriving DecidableEq, Repr

/-- The store's history, with the reads still out and what happened, the newest first. -/
structure FreshnessRun where
  state : Freshness
  out : List (Nat × String)
  history : List Past
deriving DecidableEq, Repr

/-- What an entry says of an id: it was added, it was removed, or nothing. -/
def Past.tells (list : String) (id : Nat) : Past → Option Bool
  | .started _ => none
  | .changed l before after =>
    if l = list ∧ id ∈ before ∧ id ∉ after then some false
    else if l = list ∧ id ∉ before ∧ id ∈ after then some true
    else none
  | .observed l i added => if l = list ∧ i = id then some added else none

/-- The latest change or observation of the id since the read with this ticket started. -/
def lastChange (history : List Past) (list : String) (ticket id : Nat) : Option Bool :=
  (history.takeWhile (· ≠ .started ticket)).findSome? (Past.tells list id)

namespace FreshnessRun

def step (s : FreshnessRun) : FreshnessOp → Option FreshnessRun
  | .startRead list reload =>
    let (state, ticket) := startRead s.state list reload
    some ⟨state, (if reload then s.out.filter (·.2 ≠ list) else s.out) ++ [(ticket, list)],
      .started ticket :: s.history⟩
  | .finishRead ticket => some ⟨finishRead s.state ticket, s.out.filter (·.1 ≠ ticket), s.history⟩
  | .retireReads list => some ⟨retireReads s.state list, s.out.filter (·.2 ≠ list), s.history⟩
  | .membership list before after =>
    some ⟨membership s.state list before after, s.out, .changed list before after :: s.history⟩
  | .observeMembership list id added =>
    some ⟨observeMembership s.state list id added, s.out, .observed list id added :: s.history⟩

end FreshnessRun

def freshnessRuns : System FreshnessRun FreshnessOp where
  start s := s = ⟨emptyFreshness, [], []⟩
  step := FreshnessRun.step

/-! ## 2. What is claimed -/

namespace FreshnessRun

/-- **Replaying is exact** for the reads still out, on any page in any order. -/
structure ReplayExact (s : FreshnessRun) : Prop where
  member : ∀ ticket list, (ticket, list) ∈ s.out → ∀ pageIds order id,
    id ∈ replay s.state list ticket pageIds order ↔
      (match lastChange s.history list ticket id with
        | some added => added = true
        | none => id ∈ pageIds)
  order : ∀ ticket list, (ticket, list) ∈ s.out → ∀ pageIds order,
    (replay s.state list ticket pageIds order).filter (fun id => (lastChange s.history list ticket id).isNone) =
      pageIds.filter fun id => (lastChange s.history list ticket id).isNone
  empty : s.out = [] → s.state.deltas = []

end FreshnessRun

/-! ## 3. What the deltas make of a page -/

section Replay

variable {ids deltas : List MembershipDelta} {held : List Nat} {id x : Nat} {belongs : Bool} {order : IdOrder}

theorem mem_placeId : x ∈ placeId held id belongs order ↔ if x = id then belongs = true else x ∈ held := by
  unfold placeId
  cases belongs with
  | true =>
    rw [if_pos rfl]
    by_cases hx : x = id
    · subst hx
      split <;> simp [*]
    · split <;> simp [*]
  | false =>
    rw [if_neg Bool.false_ne_true]
    by_cases hx : x = id
    · subst hx
      split <;> simp [*]
    · split <;> simp [*]

/-- The ids that it isn't about stay in their order. -/
theorem filter_placeId {p : Nat → Bool} (hp : p id = false) :
    (placeId held id belongs order).filter p = held.filter p := by
  unfold placeId
  split
  · split
    · rfl
    · exact filter_insertBefore hp
  · split
    · rw [List.filter_filter]
      refine List.filter_congr fun a _ => ?_
      by_cases ha : a = id
      · simp [ha, hp]
      · simp [ha]
    · rfl

/-- An id that no delta is about stays as it was. -/
theorem mem_foldl_placeId_of_none (h : ∀ d ∈ deltas, d.id ≠ x) :
    x ∈ deltas.foldl (fun held d => placeId held d.id d.added order) held ↔ x ∈ held := by
  induction deltas generalizing held with
  | nil => rfl
  | cons d rest ih =>
    rw [List.foldl_cons, ih fun e he => h e (List.mem_cons_of_mem _ he), mem_placeId,
      if_neg (h d (List.mem_cons_self ..)).symm]

/-- One that a delta is about is there if the delta says so. -/
theorem mem_foldl_placeId_of_mem (hone : deltas.Pairwise fun a b => a.id ≠ b.id) {d : MembershipDelta}
    (hd : d ∈ deltas) :
    d.id ∈ deltas.foldl (fun held d => placeId held d.id d.added order) held ↔ d.added = true := by
  induction deltas generalizing held with
  | nil => cases hd
  | cons e rest ih =>
    obtain ⟨he, hrest⟩ := List.pairwise_cons.mp hone
    rw [List.foldl_cons]
    rcases List.mem_cons.mp hd with rfl | hin
    · rw [mem_foldl_placeId_of_none fun c hc => (he c hc).symm, mem_placeId, if_pos rfl]
    · exact ih hrest hin

/-- The ids that no delta is about stay in their order. -/
theorem filter_foldl_placeId {p : Nat → Bool} (hp : ∀ d ∈ deltas, p d.id = false) :
    (deltas.foldl (fun held d => placeId held d.id d.added order) held).filter p = held.filter p := by
  induction deltas generalizing held with
  | nil => rfl
  | cons d rest ih =>
    rw [List.foldl_cons, ih fun e he => hp e (List.mem_cons_of_mem _ he),
      filter_placeId (hp d (List.mem_cons_self ..))]

end Replay

/-! ## 4. The invariant -/

/-- The deltas say of each id what happened last since each read still out started. -/
structure FreshnessRun.Inv (s : FreshnessRun) : Prop where
  tickets : ∀ r ∈ s.state.reads, r.1 ≤ s.state.clock
  stamps : ∀ d ∈ s.state.deltas, d.stamp ≤ s.state.clock
  one : OneEach s.state.deltas
  needed : ∀ d ∈ s.state.deltas, ∃ r ∈ s.state.reads, r.2.list = d.list ∧ r.1 < d.stamp
  out : s.out = s.state.reads.map fun read => (read.1, read.2.list)
  exact : ∀ r ∈ s.state.reads, ∀ id added, lastChange s.history r.2.list r.1 id = some added ↔
    ∃ d ∈ s.state.deltas, d.list = r.2.list ∧ d.id = id ∧ r.1 < d.stamp ∧ d.added = added

namespace FreshnessRun

variable {s s' : FreshnessRun} {list : String} {ticket id : Nat}

theorem lastChange_started {history : List Past} {t : Nat} (h : ticket ≠ t) :
    lastChange (.started ticket :: history) list t id = lastChange history list t id := by
  unfold lastChange
  rw [List.takeWhile_cons_of_pos (by simpa using h), List.findSome?_cons]
  rfl

theorem lastChange_self (history : List Past) : lastChange (.started ticket :: history) list ticket id = none := by
  unfold lastChange
  rw [List.takeWhile_cons_of_neg (by simp)]
  rfl

/-- An entry that starts no read. -/
theorem lastChange_cons {history : List Past} {e : Past} (h : ∀ t, e ≠ .started t) :
    lastChange (e :: history) list ticket id = (e.tells list id).or (lastChange history list ticket id) := by
  unfold lastChange
  rw [List.takeWhile_cons_of_pos (by simpa using h ticket), List.findSome?_cons]
  cases e.tells list id with
  | none => rfl
  | some added => rfl

/-- The deltas of an entry: they say of each id what it says. -/
def Says (e : Past) (deltas : List MembershipDelta) : Prop :=
  (∀ t, e ≠ .started t) ∧
    ∀ list id added, e.tells list id = some added ↔ ∃ d ∈ deltas, d.list = list ∧ d.id = id ∧ d.added = added

theorem Says.consistent {e : Past} {deltas : List MembershipDelta} {stamp : Nat} (h : Says e deltas)
    (hstamp : ∀ d ∈ deltas, d.stamp = stamp) : Consistent deltas := by
  rintro ⟨l, i, added, t⟩ ha ⟨l', i', added', t'⟩ hb ⟨hlist, hid⟩
  obtain rfl : l = l' := hlist
  obtain rfl : i = i' := hid
  obtain rfl : t = t' := (hstamp _ ha).trans (hstamp _ hb).symm
  have htells := (h.2 l i added).mpr ⟨_, ha, rfl, rfl, rfl⟩
  have htells' := (h.2 l i added').mpr ⟨_, hb, rfl, rfl, rfl⟩
  rw [Option.some.inj (htells.symm.trans htells')]

theorem lastChange_told {history : List Past} {e : Past} {deltas : List MembershipDelta} {added : Bool}
    (h : Says e deltas) :
    lastChange (e :: history) list ticket id = some added ↔
      (∃ d ∈ deltas, d.list = list ∧ d.id = id ∧ d.added = added) ∨
        (∀ d ∈ deltas, ¬ (d.list = list ∧ d.id = id)) ∧ lastChange history list ticket id = some added := by
  rw [lastChange_cons h.1, ← h.2]
  cases htells : e.tells list id with
  | none =>
    have hnone : ∀ d ∈ deltas, ¬ (d.list = list ∧ d.id = id) := by
      rintro d hd ⟨hlist, hid⟩
      have hsome := (h.2 list id d.added).mpr ⟨d, hd, hlist, hid, rfl⟩
      rw [htells] at hsome
      cases hsome
    rw [Option.none_or]
    exact ⟨fun hlast => .inr ⟨hnone, hlast⟩, fun h => h.elim (fun heq => by cases heq) And.right⟩
  | some b =>
    obtain ⟨d, hd, hlist, hid, -⟩ := (h.2 list id b).mp htells
    rw [Option.some_or]
    exact ⟨.inl, fun h => h.elim (fun heq => heq) fun h => absurd ⟨hlist, hid⟩ (h.1 d hd)⟩

theorem inv_empty : Inv ⟨emptyFreshness, [], []⟩ where
  out := rfl
  tickets _ h := (List.not_mem_nil h).elim
  stamps _ h := (List.not_mem_nil h).elim
  one := List.Pairwise.nil
  needed _ h := (List.not_mem_nil h).elim
  exact _ h := (List.not_mem_nil h).elim

/-- **Pruning keeps what the reads still out need.** -/
theorem Inv.prune (h : s.Inv) {reads : List (Nat × ListRead)} (hsub : ∀ r ∈ reads, r ∈ s.state.reads) :
    Inv ⟨pruneHistory s.state reads, reads.map fun read => (read.1, read.2.list), s.history⟩ := by
  have hmem : ∀ d, d ∈ (pruneHistory s.state reads).deltas ↔
      d ∈ s.state.deltas ∧ ∃ r ∈ reads, r.2.list = d.list ∧ r.1 < d.stamp := by
    intro d
    simp [pruneHistory]
  refine ⟨fun r hr => h.tickets r (hsub r hr), fun d hd => h.stamps d ((hmem d).mp hd).1,
    h.one.sublist List.filter_sublist, fun d hd => ((hmem d).mp hd).2, rfl, fun r hr id added => ?_⟩
  refine (h.exact r (hsub r hr) id added).trans (exists_congr fun d => ?_)
  constructor
  · exact fun ⟨hd, hlist, hid, hlt, hadded⟩ => ⟨(hmem d).mpr ⟨hd, r, hr, hlist.symm, hlt⟩, hlist, hid, hlt, hadded⟩
  · exact fun ⟨hd, hrest⟩ => ⟨((hmem d).mp hd).1, hrest⟩

/-- A read that starts needs nothing yet. -/
theorem Inv.start (h : s.Inv) {list : String} {reload : Bool} :
    Inv ⟨{ s.state with
        clock := s.state.clock + 1
        reads := s.state.reads.filter (fun read => read.1 ≠ s.state.clock + 1) ++
          [(s.state.clock + 1, ⟨list, reload⟩)] }, s.out ++ [(s.state.clock + 1, list)],
        .started (s.state.clock + 1) :: s.history⟩ := by
  have hold : ∀ r ∈ s.state.reads, r.1 ≠ s.state.clock + 1 := fun r hr => by
    have := h.tickets r hr
    omega
  have hfilter : s.state.reads.filter (fun read => read.1 ≠ s.state.clock + 1) = s.state.reads :=
    List.filter_eq_self.mpr fun r hr => by simpa using hold r hr
  rw [hfilter]
  refine ⟨fun r hr => ?_, fun d hd => ?_, h.one, fun d hd => ?_, ?_, fun r hr id added => ?_⟩
  · rcases List.mem_append.mp hr with hr | hr
    · exact Nat.le_succ_of_le (h.tickets r hr)
    · rw [List.mem_singleton.mp hr]
  · exact Nat.le_succ_of_le (h.stamps d hd)
  · obtain ⟨r, hr, hd⟩ := h.needed d hd
    exact ⟨r, List.mem_append_left _ hr, hd⟩
  · rw [h.out, List.map_append]
    rfl
  · rcases List.mem_append.mp hr with hr | hr
    · rw [lastChange_started (hold r hr).symm]
      exact h.exact r hr id added
    · rw [List.mem_singleton.mp hr, lastChange_self]
      refine ⟨fun heq => (by cases heq), ?_⟩
      rintro ⟨d, hd, -, -, hlt, -⟩
      have := h.stamps d hd
      omega

/-- **A recorded change replaces what was known of its ids**, and nothing of others. -/
theorem Inv.record (h : s.Inv) {e : Past} {incoming : List MembershipDelta} (htold : Says e incoming)
    (hin : ∀ d ∈ incoming, d.list = list ∧ d.stamp = s.state.clock + 1) (hread : beingRead s.state list = true) :
    Inv ⟨{ s.state with clock := s.state.clock + 1, deltas := compactDeltas s.state.deltas incoming }, s.out,
      e :: s.history⟩ := by
  obtain ⟨hone, hmem⟩ := compactDeltas_spec h.one (htold.consistent fun d hd => (hin d hd).2)
  obtain ⟨read, hr, hlist⟩ := List.any_eq_true.mp hread
  refine ⟨fun r hr => Nat.le_succ_of_le (h.tickets r hr), fun d hd => ?_, hone, fun d hd => ?_, h.out,
    fun r hr id added => ?_⟩
  · rcases (hmem d).mp hd with hd | ⟨hd, -⟩
    · exact Nat.le_of_eq (hin d hd).2
    · exact Nat.le_succ_of_le (h.stamps d hd)
  · rcases (hmem d).mp hd with hd | ⟨hd, -⟩
    · have := h.tickets read hr
      refine ⟨read, hr, (eq_of_beq hlist).trans (hin d hd).1.symm, ?_⟩
      rw [(hin d hd).2]
      omega
    · exact h.needed d hd
  · rw [lastChange_told htold, h.exact r hr id added]
    have hlt := h.tickets r hr
    constructor
    · rintro (⟨d, hd, hlist', hid, hadded⟩ | ⟨hnone, d, hd, hlist', hid, hpast, hadded⟩)
      · refine ⟨d, (hmem d).mpr (.inl hd), hlist', hid, ?_, hadded⟩
        rw [(hin d hd).2]
        omega
      · refine ⟨d, (hmem d).mpr (.inr ⟨hd, fun e he hsame => hnone e he ?_⟩), hlist', hid, hpast, hadded⟩
        exact ⟨hsame.1.symm.trans hlist', hsame.2.symm.trans hid⟩
    · rintro ⟨d, hd, hlist', hid, hpast, hadded⟩
      rcases (hmem d).mp hd with hd | ⟨hd, hother⟩
      · exact .inl ⟨d, hd, hlist', hid, hadded⟩
      · refine .inr ⟨fun e he hsame => hother e he ?_, d, hd, hlist', hid, hpast, hadded⟩
        exact ⟨hlist'.trans hsame.1.symm, hid.trans hsame.2.symm⟩

/-- A change of a list that isn't being read is not recorded, and no read needs it. -/
theorem Inv.unread (h : s.Inv) {e : Past} {incoming : List MembershipDelta} (htold : Says e incoming)
    (hin : ∀ d ∈ incoming, d.list = list) (hread : ¬ beingRead s.state list = true) {clock : Nat}
    (hclock : s.state.clock ≤ clock) :
    Inv ⟨{ s.state with clock := clock }, s.out, e :: s.history⟩ := by
  refine ⟨fun r hr => Nat.le_trans (h.tickets r hr) hclock, fun d hd => Nat.le_trans (h.stamps d hd) hclock, h.one,
    h.needed, h.out, fun r hr id added => ?_⟩
  have hother : ∀ d ∈ incoming, ¬ (d.list = r.2.list ∧ d.id = id) := fun d hd hsame => hread
    (List.any_eq_true.mpr ⟨r, hr, by rw [← hsame.1, hin d hd]; exact beq_self_eq_true _⟩)
  rw [lastChange_told htold]
  refine Iff.trans ⟨?_, fun hlast => .inr ⟨hother, hlast⟩⟩ (h.exact r hr id added)
  rintro (⟨d, hd, hlist, hid, -⟩ | ⟨-, hlast⟩)
  · exact absurd ⟨hlist, hid⟩ (hother d hd)
  · exact hlast

theorem mem_membershipDeltas {before after : List Nat} {stamp : Nat} {d : MembershipDelta} :
    d ∈ membershipDeltas list before after stamp ↔ d.list = list ∧ d.stamp = stamp ∧
      (d.id ∈ before ∧ d.id ∉ after ∧ d.added = false ∨ d.id ∈ after ∧ d.id ∉ before ∧ d.added = true) := by
  obtain ⟨l, i, added, t⟩ := d
  simp only [membershipDeltas, List.mem_append, List.mem_map, List.mem_filter, MembershipDelta.mk.injEq,
    decide_eq_true_eq]
  constructor
  · rintro (⟨i', ⟨hb, ha⟩, rfl, rfl, rfl, rfl⟩ | ⟨i', ⟨ha, hb⟩, rfl, rfl, rfl, rfl⟩)
    · exact ⟨rfl, rfl, .inl ⟨hb, ha, rfl⟩⟩
    · exact ⟨rfl, rfl, .inr ⟨ha, hb, rfl⟩⟩
  · rintro ⟨rfl, rfl, ⟨hb, ha, rfl⟩ | ⟨ha, hb, rfl⟩⟩
    · exact .inl ⟨i, ⟨hb, ha⟩, rfl, rfl, rfl, rfl⟩
    · exact .inr ⟨i, ⟨ha, hb⟩, rfl, rfl, rfl, rfl⟩

/-- The deltas of a change say what was gained and lost. -/
theorem says_membershipDeltas (list : String) (before after : List Nat) (stamp : Nat) :
    Says (.changed list before after) (membershipDeltas list before after stamp) := by
  refine ⟨fun t h => (by cases h), fun l id added => ?_⟩
  have hdeltas : (∃ d ∈ membershipDeltas list before after stamp, d.list = l ∧ d.id = id ∧ d.added = added) ↔
      list = l ∧ (id ∈ before ∧ id ∉ after ∧ added = false ∨ id ∈ after ∧ id ∉ before ∧ added = true) := by
    constructor
    · rintro ⟨d, hd, rfl, rfl, rfl⟩
      obtain ⟨hlist, -, hchange⟩ := mem_membershipDeltas.mp hd
      exact ⟨hlist.symm, hchange⟩
    · rintro ⟨rfl, hchange⟩
      exact ⟨⟨list, id, added, stamp⟩, mem_membershipDeltas.mpr ⟨rfl, rfl, hchange⟩, rfl, rfl, rfl⟩
  rw [hdeltas, Past.tells]
  by_cases hlist : list = l <;> by_cases hb : id ∈ before <;> by_cases ha : id ∈ after <;>
    cases added <;> simp [hlist, hb, ha]

theorem says_observed (list : String) (id : Nat) (added : Bool) (stamp : Nat) :
    Says (.observed list id added) [⟨list, id, added, stamp⟩] := by
  refine ⟨fun t h => (by cases h), fun l i b => ?_⟩
  rw [Past.tells]
  constructor
  · intro h
    split at h
    · next hsame => exact ⟨_, List.mem_singleton_self _, hsame.1, hsame.2, Option.some.inj h⟩
    · cases h
  · rintro ⟨d, hd, rfl, rfl, rfl⟩
    obtain rfl := List.mem_singleton.mp hd
    exact if_pos ⟨rfl, rfl⟩

/-- A change that has no deltas says nothing. -/
theorem Inv.unchanged (h : s.Inv) {e : Past} (htold : Says e []) : Inv ⟨s.state, s.out, e :: s.history⟩ := by
  refine { h with exact := fun r hr id added => ?_ }
  rw [lastChange_told htold]
  refine Iff.trans ⟨?_, fun hlast => .inr ⟨fun d hd => absurd hd List.not_mem_nil, hlast⟩⟩ (h.exact r hr id added)
  rintro (⟨d, hd, -⟩ | ⟨-, hlast⟩)
  · exact absurd hd List.not_mem_nil
  · exact hlast

theorem Inv.out_filter (h : s.Inv) (p : Nat × String → Bool) :
    s.out.filter p = (s.state.reads.filter fun read => p (read.1, read.2.list)).map fun read =>
      (read.1, read.2.list) := by
  rw [h.out, List.filter_map]
  rfl

/-- **The step lemma.** -/
theorem inv_step {op : FreshnessOp} (h : s.Inv) (hs : step s op = some s') : s'.Inv := by
  cases op with
  | startRead list reload =>
    cases hs
    cases reload with
    | true =>
      rw [if_pos rfl, h.out_filter]
      exact (h.prune fun r hr => List.mem_of_mem_filter hr).start
    | false => exact h.start
  | finishRead ticket =>
    cases hs
    rw [h.out_filter]
    exact h.prune fun r hr => List.mem_of_mem_filter hr
  | retireReads list =>
    cases hs
    rw [h.out_filter]
    exact h.prune fun r hr => List.mem_of_mem_filter hr
  | membership list before after =>
    cases hs
    have htold := says_membershipDeltas list before after (s.state.clock + 1)
    unfold membership
    dsimp only
    split
    · next hnil =>
      rw [hnil] at htold
      exact h.unchanged htold
    · split
      · next hread =>
        exact h.record htold (fun d hd => ⟨(mem_membershipDeltas.mp hd).1, (mem_membershipDeltas.mp hd).2.1⟩) hread
      · next hread =>
        exact h.unread htold (fun d hd => (mem_membershipDeltas.mp hd).1) hread (Nat.le_succ _)
  | observeMembership list id added =>
    cases hs
    have htold := says_observed list id added (s.state.clock + 1)
    unfold observeMembership
    split
    · next hread =>
      exact h.record htold (fun d hd => by rw [List.mem_singleton.mp hd]; exact ⟨rfl, rfl⟩) hread
    · next hread =>
      exact h.unread htold (fun d hd => by rw [List.mem_singleton.mp hd]) hread (Nat.le_refl _)

/-- **The run lemma.** -/
theorem inv_of_reach (h : Reach freshnessRuns s) : s.Inv := by
  refine h.induct ?_ fun s₁ op s₂ _ hi _ hs => ?_
  · rintro s rfl
    exact inv_empty
  · have hstep : step s₁ op = some s₂ := hs
    exact inv_step hi hstep

/-! ## 5. The page -/

/-- The deltas of one list are of different ids. -/
theorem Inv.pairwise_ids (h : s.Inv) (list : String) (ticket : Nat) :
    (s.state.deltas.filter fun d => d.list = list ∧ ticket < d.stamp).Pairwise fun a b => a.id ≠ b.id := by
  refine (List.Pairwise.filter _ h.one).imp_of_mem fun ha hb hne hid => hne ⟨?_, hid⟩
  have hla := (of_decide_eq_true (List.mem_filter.mp ha).2).1
  have hlb := (of_decide_eq_true (List.mem_filter.mp hb).2).1
  exact hla.trans hlb.symm

theorem Inv.read_of_out (h : s.Inv) (hout : (ticket, list) ∈ s.out) :
    ∃ r ∈ s.state.reads, r.1 = ticket ∧ r.2.list = list := by
  rw [h.out] at hout
  obtain ⟨r, hr, heq⟩ := List.mem_map.mp hout
  exact ⟨r, hr, (Prod.mk.inj heq).1, (Prod.mk.inj heq).2⟩

/-- **Replaying is exact** in every state of every run. -/
theorem replayExact_of_reach (h : Reach freshnessRuns s) : s.ReplayExact := by
  have hi : s.Inv := inv_of_reach h
  refine ⟨fun ticket list hout pageIds order id => ?_, fun ticket list hout pageIds order => ?_, fun hnone => ?_⟩
  · obtain ⟨r, hr, rfl, rfl⟩ := hi.read_of_out hout
    cases hlast : lastChange s.history r.2.list r.1 id with
    | some added =>
      obtain ⟨d, hd, hlist, hid, hlt, hadded⟩ := (hi.exact _ hr id added).mp hlast
      have hin : d ∈ s.state.deltas.filter fun d => d.list = r.2.list ∧ r.1 < d.stamp :=
        List.mem_filter.mpr ⟨hd, decide_eq_true ⟨hlist, hlt⟩⟩
      rw [← hid, ← hadded]
      exact mem_foldl_placeId_of_mem (hi.pairwise_ids _ _) hin
    | none =>
      refine mem_foldl_placeId_of_none fun d hd heq => ?_
      obtain ⟨hd, hof⟩ := List.mem_filter.mp hd
      obtain ⟨hlist, hlt⟩ := of_decide_eq_true hof
      have := (hi.exact _ hr id d.added).mpr ⟨d, hd, hlist, heq, hlt, rfl⟩
      rw [hlast] at this
      cases this
  · obtain ⟨r, hr, rfl, rfl⟩ := hi.read_of_out hout
    refine filter_foldl_placeId fun d hd => ?_
    obtain ⟨hd, hof⟩ := List.mem_filter.mp hd
    obtain ⟨hlist, hlt⟩ := of_decide_eq_true hof
    rw [(hi.exact _ hr d.id d.added).mpr ⟨d, hd, hlist, rfl, hlt, rfl⟩]
    rfl
  · rw [List.eq_nil_iff_forall_not_mem]
    intro d hd
    obtain ⟨r, hr, -⟩ := hi.needed d hd
    rw [List.map_eq_nil_iff.mp (hi.out.symm.trans hnone)] at hr
    exact List.not_mem_nil hr

/-- Two reads, an addition and a removal while they are out; one of them ends, the other's page is on its way. -/
theorem replayExact_of_reach_sample :
    ∃ s, Reach freshnessRuns s ∧ s.out = [(1, "inbox")] ∧
      lastChange s.history "inbox" 1 4 = some false ∧ lastChange s.history "inbox" 1 5 = some true ∧
      s.ReplayExact := by
  obtain ⟨s, hs, hs'⟩ := exists_reachWhen_of_replay (T := freshnessRuns) (G := fun _ _ => True)
    (s := ⟨emptyFreshness, [], []⟩)
    (l := [.startRead "inbox" true, .startRead "saved" true, .membership "inbox" [4] [4, 5], .finishRead 2,
      .observeMembership "inbox" 4 false])
    (p := fun s => s.out = [(1, "inbox")] ∧ lastChange s.history "inbox" 1 4 = some false ∧
      lastChange s.history "inbox" 1 5 = some true) rfl (by decide)
  obtain ⟨hout, hremoved, hadded⟩ := of_decide_eq_true hs'
  exact ⟨s, hs, hout, hremoved, hadded, replayExact_of_reach hs⟩

end FreshnessRun

end Smartfire
