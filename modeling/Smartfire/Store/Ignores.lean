/-
  File:      Smartfire/Store/Ignores.lean
  Subject:   The viewer's ignore set (frontend/src/store/ignores.ts).

  A person's ignored state reaches the client in two kinds of payload: one person's change, and a
  snapshot of everybody. Both name the revision they are true of, and arrive in any order. The set
  keeps an entry for whoever a change newer than the last snapshot is known of, and for whoever that
  snapshot lists; whoever has none isn't ignored as of the snapshot.

  * `applyBlockChange`, `applyBlockSnapshot`, `invalidateIgnores`, `isIgnored`, `ignoresStale`;
  * `History` -- the server's side: who is ignored at each revision;
  * `IgnoreSet.Knows` -- what the set says of a history: of each person, the state at the greatest
    revision landed for them;
  * `Converges`, `ignores_converge` -- the property, for payloads in any order.
-/
import Mathlib.Order.Bounds.Basic
import Mathlib.Data.Int.Order.Basic
import Mathlib.Data.List.Induction

namespace Smartfire

/-! ## 1. The set and its payloads -/

/-- What the set knows about one person, and as of which revision. -/
structure IgnoreEntry where
  ignored : Bool
  revision : Int
deriving DecidableEq, Repr

structure IgnoreSet where
  /-- Whose set this is, as the server said, or `none` before any payload landed. -/
  userId : Option Int
  /-- The revision of the last snapshot applied. -/
  snapshot : Option Int
  people : Int → Option IgnoreEntry
  /-- Counts the moments a change may have been missed. -/
  invalidatedAt : Nat
  /-- The newest `invalidatedAt` a landed snapshot covers. -/
  coveredThrough : Nat

def emptyIgnores : IgnoreSet := ⟨none, none, fun _ => none, 0, 0⟩

/-- One person's state, of the viewer's list. -/
structure BlockState where
  viewerId : Int
  userId : Int
  ignoredByMe : Bool
  revision : Int
deriving DecidableEq, Repr

/-- A snapshot of the viewer's list: the ids of its `people`. -/
structure BlockList where
  viewerId : Int
  people : List Int
  revision : Int
deriving DecidableEq, Repr

namespace IgnoreSet

variable (s : IgnoreSet)

def ignoresStale : Bool := s.coveredThrough < s.invalidatedAt

/-- The revision the set knows the person as of: their own entry's, else the snapshot's; `none` is
    the source's negative infinity. -/
def knownAt (userId : Int) : Option Int := ((s.people userId).map IgnoreEntry.revision).or s.snapshot

/-- Whether a payload the server answered for `viewerId` is this set's. -/
def ownsIgnores (viewerId : Int) (signedIn : Option Int) : Bool :=
  match s.userId.or signedIn with
  | none => true
  | some owner => owner = viewerId

/-- `change.revision <= knownAt(set, change.userId)`. -/
def knows (userId revision : Int) : Bool :=
  match s.knownAt userId with
  | none => false
  | some r => revision ≤ r

def applyBlockChange (change : BlockState) (signedIn : Option Int) : IgnoreSet :=
  if !s.ownsIgnores change.viewerId signedIn then s
  else if s.knows change.userId change.revision then { s with userId := some change.viewerId }
  else
    { s with
      userId := some change.viewerId
      people := fun id =>
        if id = change.userId then some ⟨change.ignoredByMe, change.revision⟩ else s.people id }

/-- The entries newer than the snapshot. -/
def newer (revision : Int) (id : Int) : Option IgnoreEntry :=
  (s.people id).filter fun entry => revision < entry.revision

/-- `people[person.user.id] ??= …`. -/
def listed (revision : Int) (people : Int → Option IgnoreEntry) (person : Int) :
    Int → Option IgnoreEntry :=
  fun id => if id = person then (people id).or (some ⟨true, revision⟩) else people id

def applyBlockSnapshot (snapshot : BlockList) (coveredAt : Nat) (signedIn : Option Int) :
    IgnoreSet :=
  if !s.ownsIgnores snapshot.viewerId signedIn then s
  else
    let userId := some snapshot.viewerId
    let coveredThrough := max s.coveredThrough coveredAt
    if s.snapshot.any fun held => snapshot.revision < held then { s with userId, coveredThrough }
    else
      { s with
        userId
        snapshot := some snapshot.revision
        people := snapshot.people.foldl (listed snapshot.revision) (s.newer snapshot.revision)
        coveredThrough }

def invalidateIgnores : IgnoreSet := { s with invalidatedAt := s.invalidatedAt + 1 }

/-- Whether the viewer ignores the person: the set's answer once it has one, else `fallback`. -/
def isIgnored (userId : Option Int) (fallback : Option Bool) : Bool :=
  match userId with
  | some id =>
    match s.people id with
    | some held => held.ignored
    | none => if s.snapshot.isSome then false else fallback.getD false
  | none => fallback.getD false

end IgnoreSet

/-! ## 2. Payloads in any order -/

/-- What lands in the set. -/
inductive BlockPayload where
  | change (change : BlockState)
  | snapshot (snapshot : BlockList)
deriving DecidableEq, Repr

/-- A step of the set. -/
inductive IgnoreAct where
  | change (change : BlockState) (signedIn : Option Int)
  /-- The reply to a request started when the set's `invalidatedAt` was `coveredAt`. -/
  | snapshot (snapshot : BlockList) (coveredAt : Nat) (signedIn : Option Int)
  | invalidate
deriving DecidableEq, Repr

namespace IgnoreAct

def apply (s : IgnoreSet) : IgnoreAct → IgnoreSet
  | change c signedIn => s.applyBlockChange c signedIn
  | snapshot b coveredAt signedIn => s.applyBlockSnapshot b coveredAt signedIn
  | invalidate => s.invalidateIgnores

/-- The payload the step lands. -/
def payload : IgnoreAct → Option BlockPayload
  | change c _ => some (.change c)
  | snapshot b _ _ => some (.snapshot b)
  | invalidate => none

end IgnoreAct

/-- The set after the steps. -/
def applyIgnores (acts : List IgnoreAct) : IgnoreSet := acts.foldl IgnoreAct.apply emptyIgnores

/-- The payloads landed by the steps. -/
def landed (acts : List IgnoreAct) : List BlockPayload := acts.filterMap IgnoreAct.payload

/-- One viewer's history: who is ignored at each revision. -/
structure History where
  viewer : Int
  ignored : Int → Int → Bool

/-- The payload is the viewer's and true of the history. -/
def BlockPayload.TrueOf (h : History) : BlockPayload → Prop
  | change c => c.viewerId = h.viewer ∧ c.ignoredByMe = h.ignored c.revision c.userId
  | snapshot b => b.viewerId = h.viewer ∧ ∀ id, id ∈ b.people ↔ h.ignored b.revision id = true

/-- The step's payload is true of the history, and the person signed in, where known, is the viewer. -/
def IgnoreAct.TrueOf (h : History) : IgnoreAct → Prop
  | change c signedIn => (BlockPayload.change c).TrueOf h ∧ ∀ id, signedIn = some id → id = h.viewer
  | snapshot b _ signedIn =>
    (BlockPayload.snapshot b).TrueOf h ∧ ∀ id, signedIn = some id → id = h.viewer
  | invalidate => True

/-- The payload says what the person's state is at the revision. -/
def BlockPayload.Tells (p : BlockPayload) (person revision : Int) : Prop :=
  match p with
  | change c => c.userId = person ∧ c.revision = revision
  | snapshot b => b.revision = revision

/-- The revisions the payloads tell the person's state at. -/
def toldAt (payloads : List BlockPayload) (person : Int) : Set Int :=
  {r | ∃ p ∈ payloads, p.Tells person r}

/-! ## 3. What the set knows -/

/-- What the set says of the history, by the payloads landed so far. -/
structure IgnoreSet.Knows (h : History) (payloads : List BlockPayload) (s : IgnoreSet) : Prop where
  owner : ∀ id, s.userId = some id → id = h.viewer
  /-- The last snapshot applied landed. -/
  snapshot : ∀ r, s.snapshot = some r → ∃ b, .snapshot b ∈ payloads ∧ b.revision = r
  /-- What is known of a person is the newest told of them. -/
  newest : ∀ person r, s.knownAt person = some r → IsGreatest (toldAt payloads person) r
  untold : ∀ person, s.knownAt person = none → toldAt payloads person = ∅
  /-- An entry is the person's state at its revision. -/
  entry : ∀ person e, s.people person = some e → e.ignored = h.ignored e.revision person
  /-- No entry means not ignored, as of the last snapshot. -/
  absent : ∀ person r, s.people person = none → s.snapshot = some r → h.ignored r person = false

theorem toldAt_append (payloads : List BlockPayload) (p : BlockPayload) (person : Int) :
    toldAt (payloads ++ [p]) person = toldAt payloads person ∪ {r | p.Tells person r} := by
  ext r
  simp only [toldAt, List.mem_append, List.mem_singleton, Set.mem_ofPred_eq, Set.mem_union]
  constructor
  · rintro ⟨q, hq | rfl, ht⟩
    · exact .inl ⟨q, hq, ht⟩
    · exact .inr ht
  · rintro (⟨q, hq, ht⟩ | ht)
    · exact ⟨q, .inl hq, ht⟩
    · exact ⟨p, .inr rfl, ht⟩

namespace IgnoreSet

variable {h : History} {payloads : List BlockPayload} {s : IgnoreSet} {r : Int}

theorem knows_empty : emptyIgnores.Knows h [] := by
  refine ⟨nofun, nofun, nofun, fun person _ => ?_, nofun, nofun⟩
  ext r
  simp [toldAt]

theorem ownsIgnores_of_viewer (hk : s.Knows h payloads) {signedIn : Option Int}
    (hs : ∀ id, signedIn = some id → id = h.viewer) : s.ownsIgnores h.viewer signedIn = true := by
  unfold ownsIgnores
  cases hu : s.userId with
  | some id => simp [hk.owner id hu]
  | none =>
    cases hi : signedIn with
    | none => rfl
    | some id => simp [hs id hi]

/-- A person nothing newer is known of: what is told of them stays below. -/
theorem Knows.le_of_told (hk : s.Knows h payloads) {person r : Int}
    (hr : ∀ known, s.knownAt person = some known → known ≤ r) :
    ∀ told ∈ toldAt payloads person, told ≤ r := by
  intro told ht
  cases hkn : s.knownAt person with
  | none => simp [hk.untold person hkn] at ht
  | some known => exact Int.le_trans ((hk.newest person known hkn).2 ht) (hr known hkn)

theorem knownAt_of_entry {person : Int} {e : IgnoreEntry} (he : s.people person = some e) :
    s.knownAt person = some e.revision := by
  simp [knownAt, he]

theorem knownAt_of_absent {person : Int} (he : s.people person = none) :
    s.knownAt person = s.snapshot := by
  simp [knownAt, he]

/-- **What is known of a person is at least as new as the last snapshot.** -/
theorem Knows.snapshot_le (hk : s.Knows h payloads) {person held : Int} (hs : s.snapshot = some held) :
    ∃ known, s.knownAt person = some known ∧ held ≤ known := by
  obtain ⟨b, hb, hr⟩ := hk.snapshot held hs
  have ht : held ∈ toldAt payloads person := ⟨_, hb, hr⟩
  cases hkn : s.knownAt person with
  | none => simp [hk.untold person hkn] at ht
  | some known => exact ⟨known, rfl, (hk.newest person known hkn).2 ht⟩

/-- **The set's answer is the person's state as of what it knows.** -/
theorem Knows.isIgnored (hk : s.Knows h payloads) {person r : Int} (hr : s.knownAt person = some r)
    (fallback : Option Bool) : s.isIgnored (some person) fallback = h.ignored r person := by
  cases he : s.people person with
  | some e =>
    have hrev : e.revision = r := Option.some.inj ((knownAt_of_entry he).symm.trans hr)
    simp [IgnoreSet.isIgnored, he, hk.entry person e he, hrev]
  | none =>
    have hs : s.snapshot = some r := (knownAt_of_absent he).symm.trans hr
    simp [IgnoreSet.isIgnored, he, hs, hk.absent person r he hs]

theorem isIgnored_of_unknown {person : Int} (hr : s.knownAt person = none) (fallback : Option Bool) :
    s.isIgnored (some person) fallback = fallback.getD false := by
  cases he : s.people person with
  | some e => simp [knownAt_of_entry he] at hr
  | none =>
    have hs : s.snapshot = none := (knownAt_of_absent he).symm.trans hr
    simp [IgnoreSet.isIgnored, he, hs]

/-! ### A change -/

/-- A payload that tells nobody anything newer changes nothing of what the set knows. -/
theorem Knows.told (hk : s.Knows h payloads) {p : BlockPayload}
    (hp : ∀ person r, p.Tells person r → ∃ known, s.knownAt person = some known ∧ r ≤ known) :
    s.Knows h (payloads ++ [p]) := by
  refine ⟨hk.owner, fun r hr => ?_, fun person r hr => ?_, fun person hn => ?_, hk.entry, hk.absent⟩
  · obtain ⟨b, hb, hrev⟩ := hk.snapshot r hr
    exact ⟨b, List.mem_append_left _ hb, hrev⟩
  · rw [toldAt_append]
    refine ⟨.inl (hk.newest person r hr).1, ?_⟩
    rintro told (ht | ht)
    · exact (hk.newest person r hr).2 ht
    · obtain ⟨known, hkn, hle⟩ := hp person told ht
      obtain rfl := Option.some.inj (hr.symm.trans hkn)
      exact hle
  · rw [toldAt_append, hk.untold person hn, Set.empty_union]
    ext r
    refine ⟨fun ht => ?_, fun ht => ht.elim⟩
    obtain ⟨known, hkn, _⟩ := hp person r ht
    rw [hn] at hkn
    cases hkn

/-- Whose set it is and what it covers bear on nothing it knows. -/
theorem Knows.congr {s' : IgnoreSet} (hk : s.Knows h payloads)
    (ho : ∀ id, s'.userId = some id → id = h.viewer) (hs : s'.snapshot = s.snapshot)
    (hp : s'.people = s.people) : s'.Knows h payloads := by
  have hkn : ∀ person, s'.knownAt person = s.knownAt person := fun person => by
    rw [knownAt, knownAt, hs, hp]
  refine ⟨ho, fun r hr => hk.snapshot r (hs ▸ hr), fun person r hr => hk.newest person r (hkn person ▸ hr),
    fun person hn => hk.untold person (hkn person ▸ hn), fun person e he => hk.entry person e (hp ▸ he),
    fun person r he hr => hk.absent person r (hp ▸ he) (hs ▸ hr)⟩

/-- **A change keeps what the set knows.** -/
theorem Knows.change (hk : s.Knows h payloads) {c : BlockState} {signedIn : Option Int}
    (hc : (BlockPayload.change c).TrueOf h) (hs : ∀ id, signedIn = some id → id = h.viewer) :
    (s.applyBlockChange c signedIn).Knows h (payloads ++ [.change c]) := by
  obtain ⟨hv, htrue⟩ := hc
  have howns : s.ownsIgnores c.viewerId signedIn = true := hv ▸ ownsIgnores_of_viewer hk hs
  have howner : ∀ id, some c.viewerId = some id → id = h.viewer := fun id hid =>
    (Option.some.inj hid) ▸ hv
  unfold applyBlockChange
  rw [if_neg (by simp [howns])]
  split
  · next hle =>
    refine (hk.told fun person r ht => ?_).congr howner rfl rfl
    obtain ⟨rfl, rfl⟩ := ht
    unfold knows at hle
    split at hle
    · cases hle
    · next known hkn => exact ⟨known, hkn, of_decide_eq_true hle⟩
  · next hgt =>
    -- newer than all told of the person: their entry is the change's
    have hbelow : ∀ known, s.knownAt c.userId = some known → known < c.revision := by
      intro known hkn
      simp only [knows, hkn, decide_eq_true_eq, Int.not_le] at hgt
      exact hgt
    have hother : ∀ person, person ≠ c.userId →
        toldAt (payloads ++ [.change c]) person = toldAt payloads person := by
      intro person hne
      rw [toldAt_append, show {r | (BlockPayload.change c).Tells person r} = ∅ from ?_, Set.union_empty]
      ext r
      exact ⟨fun ht => hne ht.1.symm, fun ht => ht.elim⟩
    refine ⟨howner, fun r hr => ?_, fun person r hr => ?_, fun person hn => ?_, fun person e he => ?_,
      fun person r he hr => ?_⟩
    · obtain ⟨b, hb, hrev⟩ := hk.snapshot r hr
      exact ⟨b, List.mem_append_left _ hb, hrev⟩
    · by_cases hp : person = c.userId
      · subst hp
        obtain rfl : c.revision = r := by simpa [knownAt] using hr
        rw [toldAt_append]
        refine ⟨.inr ⟨rfl, rfl⟩, ?_⟩
        rintro told (ht | ⟨_, rfl⟩)
        · exact hk.le_of_told (fun known hkn => Int.le_of_lt (hbelow known hkn)) told ht
        · exact Int.le_refl _
      · rw [hother person hp]
        exact hk.newest person r (by simpa [knownAt, hp] using hr)
    · by_cases hp : person = c.userId
      · simp [knownAt, hp] at hn
      · rw [hother person hp]
        exact hk.untold person (by simpa [knownAt, hp] using hn)
    · by_cases hp : person = c.userId
      · subst hp
        obtain rfl : (⟨c.ignoredByMe, c.revision⟩ : IgnoreEntry) = e := by simpa using he
        exact htrue
      · exact hk.entry person e (by simpa [hp] using he)
    · by_cases hp : person = c.userId
      · simp [hp] at he
      · exact hk.absent person r (by simpa [hp] using he) hr

/-! ### A snapshot -/

/-- The entries after a snapshot: the newer ones, and one for each person listed who has none. -/
theorem foldl_listed (revision : Int) (ids : List Int) (people : Int → Option IgnoreEntry) (id : Int) :
    ids.foldl (listed revision) people id =
      (people id).or (if id ∈ ids then some ⟨true, revision⟩ else none) := by
  induction ids generalizing people with
  | nil => simp
  | cons person ids ih =>
    rw [List.foldl_cons, ih]
    by_cases hid : id = person
    · cases hp : people id <;> simp [listed, hid, hid ▸ hp]
    · simp [listed, hid]

/-- The entries after a snapshot, person by person: a newer entry stays, else the list answers. -/
theorem people_cases (hbelow : ∀ held, s.snapshot = some held → held ≤ r) (ids : List Int) (person : Int) :
    (∃ e, s.people person = some e ∧ r < e.revision ∧
        ids.foldl (listed r) (s.newer r) person = some e) ∨
      (∀ known, s.knownAt person = some known → known ≤ r) ∧
        ids.foldl (listed r) (s.newer r) person = if person ∈ ids then some ⟨true, r⟩ else none := by
  rw [foldl_listed]
  unfold newer
  cases he : s.people person with
  | none =>
    refine .inr ⟨fun known hkn => hbelow known ?_, by simp⟩
    rw [← knownAt_of_absent he]
    exact hkn
  | some e =>
    by_cases hlt : r < e.revision
    · exact .inl ⟨e, rfl, hlt, by simp [hlt]⟩
    · refine .inr ⟨fun known hkn => ?_, ?_⟩
      · obtain rfl := Option.some.inj ((knownAt_of_entry he).symm.trans hkn)
        omega
      · rw [Option.filter_some_neg (by simpa using hlt), Option.none_or]

/-- **A snapshot keeps what the set knows.** -/
theorem Knows.ofSnapshot (hk : s.Knows h payloads) {b : BlockList} {coveredAt : Nat}
    {signedIn : Option Int} (hb : (BlockPayload.snapshot b).TrueOf h)
    (hs : ∀ id, signedIn = some id → id = h.viewer) :
    (s.applyBlockSnapshot b coveredAt signedIn).Knows h (payloads ++ [.snapshot b]) := by
  obtain ⟨hv, htrue⟩ := hb
  have howns : s.ownsIgnores b.viewerId signedIn = true := hv ▸ ownsIgnores_of_viewer hk hs
  have howner : ∀ id, some b.viewerId = some id → id = h.viewer := fun id hid =>
    (Option.some.inj hid) ▸ hv
  unfold applyBlockSnapshot
  rw [if_neg (by simp [howns])]
  dsimp only
  split
  · next hold =>
    obtain ⟨held, hheld, hlt⟩ : ∃ held, s.snapshot = some held ∧ b.revision < held := by
      simpa [Option.any_eq_true] using hold
    refine (hk.told fun person r ht => ?_).congr howner rfl rfl
    obtain ⟨known, hkn, hle⟩ := @Knows.snapshot_le h payloads s hk person held hheld
    have hr : b.revision = r := ht
    exact ⟨known, hkn, by omega⟩
  · next hnew =>
    have hbelow : ∀ held, s.snapshot = some held → held ≤ b.revision := by
      intro held hheld
      simpa [hheld] using hnew
    have htold : ∀ person, b.revision ∈ toldAt (payloads ++ [.snapshot b]) person := fun person =>
      ⟨_, List.mem_append_right _ (List.mem_singleton.mpr rfl), rfl⟩
    refine ⟨howner, fun r hr => ?_, fun person r hr => ?_, fun person hn => ?_, fun person e he => ?_,
      fun person r he hr => ?_⟩
    · cases hr
      exact ⟨b, List.mem_append_right _ (List.mem_singleton.mpr rfl), rfl⟩
    · rcases people_cases hbelow b.people person with ⟨e, he, hlt, hp⟩ | ⟨hle, hp⟩
      · obtain rfl := Option.some.inj ((knownAt_of_entry hp).symm.trans hr)
        have hnewest := hk.newest person _ (knownAt_of_entry he)
        rw [toldAt_append]
        refine ⟨.inl hnewest.1, ?_⟩
        rintro told (ht | ht)
        · exact hnewest.2 ht
        · have : b.revision = told := ht
          omega
      · have hrev : b.revision = r := by
          by_cases hmem : person ∈ b.people
          · rw [if_pos hmem] at hp
            exact Option.some.inj ((knownAt_of_entry hp).symm.trans hr)
          · rw [if_neg hmem] at hp
            exact Option.some.inj ((knownAt_of_absent hp).symm.trans hr)
        subst hrev
        refine ⟨htold person, ?_⟩
        rw [toldAt_append]
        rintro told (ht | ht)
        · exact hk.le_of_told hle told ht
        · exact Int.le_of_eq (Eq.symm ht)
    · rcases people_cases hbelow b.people person with ⟨e, _, _, hp⟩ | ⟨_, hp⟩
      · rw [knownAt_of_entry hp] at hn
        cases hn
      · by_cases hmem : person ∈ b.people
        · rw [if_pos hmem] at hp
          rw [knownAt_of_entry hp] at hn
          cases hn
        · rw [if_neg hmem] at hp
          rw [knownAt_of_absent hp] at hn
          cases hn
    · rcases people_cases hbelow b.people person with ⟨e', he', _, hp⟩ | ⟨_, hp⟩
      · obtain rfl := Option.some.inj (hp.symm.trans he)
        exact hk.entry person e' he'
      · by_cases hmem : person ∈ b.people
        · rw [if_pos hmem] at hp
          obtain rfl := Option.some.inj (hp.symm.trans he)
          exact ((htrue person).mp hmem).symm
        · rw [if_neg hmem] at hp
          cases hp.symm.trans he
    · cases hr
      rcases people_cases hbelow b.people person with ⟨e', _, _, hp⟩ | ⟨_, hp⟩
      · cases hp.symm.trans he
      · by_cases hmem : person ∈ b.people
        · rw [if_pos hmem] at hp
          cases hp.symm.trans he
        · exact Bool.eq_false_iff.mpr fun hig => hmem ((htrue person).mpr hig)

end IgnoreSet

/-! ## 4. Coverage -/

/-- Where the set is covered through: what some landed snapshot covers, unless nothing was. -/
structure IgnoreSet.Covers (acts : List IgnoreAct) (s : IgnoreSet) : Prop where
  invalidated : s.invalidatedAt = acts.count IgnoreAct.invalidate
  covered : s.coveredThrough = 0 ∨
    ∃ b signedIn, IgnoreAct.snapshot b s.coveredThrough signedIn ∈ acts

theorem IgnoreSet.Covers.step {acts : List IgnoreAct} {s : IgnoreSet} (hc : s.Covers acts)
    (a : IgnoreAct) : (IgnoreAct.apply s a).Covers (acts ++ [a]) := by
  obtain ⟨hinv, hcov⟩ := hc
  have hkeep : s.coveredThrough = 0 ∨
      ∃ b signedIn, IgnoreAct.snapshot b s.coveredThrough signedIn ∈ acts ++ [a] :=
    hcov.imp_right fun ⟨b, signedIn, hb⟩ => ⟨b, signedIn, List.mem_append_left _ hb⟩
  cases a with
  | change c signedIn =>
    have hcount : s.invalidatedAt = (acts ++ [IgnoreAct.change c signedIn]).count IgnoreAct.invalidate := by
      simp [hinv]
    simp only [IgnoreAct.apply, applyBlockChange]
    split
    · exact ⟨hcount, hkeep⟩
    · split
      · exact ⟨hcount, hkeep⟩
      · exact ⟨hcount, hkeep⟩
  | snapshot b coveredAt signedIn =>
    have hcount : s.invalidatedAt =
        (acts ++ [IgnoreAct.snapshot b coveredAt signedIn]).count IgnoreAct.invalidate := by
      simp [hinv]
    have hmax : max s.coveredThrough coveredAt = 0 ∨ ∃ b' signedIn',
        IgnoreAct.snapshot b' (max s.coveredThrough coveredAt) signedIn' ∈
          acts ++ [.snapshot b coveredAt signedIn] := by
      rcases Nat.le_total s.coveredThrough coveredAt with hle | hle
      · rw [Nat.max_eq_right hle]
        exact .inr ⟨b, signedIn, List.mem_append_right _ (List.mem_singleton.mpr rfl)⟩
      · rw [Nat.max_eq_left hle]
        exact hkeep
    simp only [IgnoreAct.apply, applyBlockSnapshot]
    split
    · exact ⟨hcount, hkeep⟩
    · split
      · exact ⟨hcount, hmax⟩
      · exact ⟨hcount, hmax⟩
  | invalidate => exact ⟨by simp [IgnoreAct.apply, invalidateIgnores, hinv], hkeep⟩

/-! ## 5. The property -/

section Property

variable {h : History}

theorem knows_applyIgnores {acts : List IgnoreAct} (ht : ∀ a ∈ acts, a.TrueOf h) :
    (applyIgnores acts).Knows h (landed acts) := by
  induction acts using List.reverseRecOn with
  | nil => exact IgnoreSet.knows_empty
  | append_singleton acts a ih =>
    have hk := ih fun a' ha' => ht a' (List.mem_append_left _ ha')
    have ha : a.TrueOf h := ht a (List.mem_append_right _ (List.mem_singleton.mpr rfl))
    have happly : applyIgnores (acts ++ [a]) = IgnoreAct.apply (applyIgnores acts) a := by
      simp [applyIgnores]
    rw [happly, landed, List.filterMap_append]
    cases a with
    | change c signedIn => exact hk.change ha.1 ha.2
    | snapshot b coveredAt signedIn => exact hk.ofSnapshot ha.1 ha.2
    | invalidate =>
      rw [show List.filterMap IgnoreAct.payload [.invalidate] = [] from rfl, List.append_nil]
      exact hk.congr hk.owner rfl rfl

theorem covers_applyIgnores (acts : List IgnoreAct) : (applyIgnores acts).Covers acts := by
  induction acts using List.reverseRecOn with
  | nil => exact ⟨rfl, .inl rfl⟩
  | append_singleton acts a ih =>
    have happly : applyIgnores (acts ++ [a]) = IgnoreAct.apply (applyIgnores acts) a := by
      simp [applyIgnores]
    rw [happly]
    exact ih.step a

/-- **The ignore set converges whatever the order of arrival.** -/
structure Converges (h : History) (acts : List IgnoreAct) : Prop where
  /-- Once a payload told a person's state, the answer is their state at the greatest revision told. -/
  newest : ∀ person, (toldAt (landed acts) person).Nonempty →
    ∃ r, IsGreatest (toldAt (landed acts) person) r ∧
      ∀ fallback, (applyIgnores acts).isIgnored (some person) fallback = h.ignored r person
  /-- The same payloads in another order, any of them repeated, give the same answers. -/
  orders : ∀ acts', (∀ a ∈ acts', a.TrueOf h) → (∀ p, p ∈ landed acts' ↔ p ∈ landed acts) →
    ∀ userId fallback,
      (applyIgnores acts').isIgnored userId fallback = (applyIgnores acts).isIgnored userId fallback
  /-- The set is not stale only where, for each invalidation, a snapshot landed whose request
      started after it. -/
  covered : (applyIgnores acts).ignoresStale = false → ∀ before after,
    acts = before ++ .invalidate :: after → ∃ b coveredAt signedIn,
      .snapshot b coveredAt signedIn ∈ acts ∧
        (applyIgnores (before ++ [.invalidate])).invalidatedAt ≤ coveredAt

theorem exists_greatest {acts : List IgnoreAct} (ht : ∀ a ∈ acts, a.TrueOf h) {person : Int}
    (hne : (toldAt (landed acts) person).Nonempty) :
    ∃ r, (applyIgnores acts).knownAt person = some r ∧ IsGreatest (toldAt (landed acts) person) r := by
  have hk := knows_applyIgnores ht
  cases hkn : (applyIgnores acts).knownAt person with
  | none => simp [hk.untold person hkn] at hne
  | some r => exact ⟨r, rfl, hk.newest person r hkn⟩

theorem toldAt_congr {payloads payloads' : List BlockPayload} (hp : ∀ p, p ∈ payloads' ↔ p ∈ payloads)
    (person : Int) : toldAt payloads' person = toldAt payloads person := by
  ext r
  simp [toldAt, hp]

theorem ignores_converge {acts : List IgnoreAct} (ht : ∀ a ∈ acts, a.TrueOf h) :
    Converges h acts := by
  have hk := knows_applyIgnores ht
  refine ⟨fun person hne => ?_, fun acts' ht' hp userId fallback => ?_, fun hstale before after heq => ?_⟩
  · obtain ⟨r, hr, hgreatest⟩ := exists_greatest ht hne
    exact ⟨r, hgreatest, fun fallback => hk.isIgnored hr fallback⟩
  · have hk' := knows_applyIgnores ht'
    cases userId with
    | none => rfl
    | some person =>
      have htold := toldAt_congr hp person
      rcases (toldAt (landed acts) person).eq_empty_or_nonempty with hnone | hne
      · have hunknown : ∀ {acts : List IgnoreAct}, (∀ a ∈ acts, a.TrueOf h) →
            toldAt (landed acts) person = ∅ → (applyIgnores acts).knownAt person = none := by
          intro acts ht hnone
          cases hkn : (applyIgnores acts).knownAt person with
          | none => rfl
          | some r =>
            have hmem := ((knows_applyIgnores ht).newest person r hkn).1
            rw [hnone] at hmem
            exact hmem.elim
        rw [IgnoreSet.isIgnored_of_unknown (hunknown ht' (htold.trans hnone)),
          IgnoreSet.isIgnored_of_unknown (hunknown ht hnone)]
      · obtain ⟨r, hr, hgreatest⟩ := exists_greatest ht hne
        obtain ⟨r', hr', hgreatest'⟩ := exists_greatest ht' (htold ▸ hne)
        obtain rfl : r' = r := (htold ▸ hgreatest').unique hgreatest
        rw [hk'.isIgnored hr', hk.isIgnored hr]
  · have hc := covers_applyIgnores acts
    have hle : (applyIgnores acts).invalidatedAt ≤ (applyIgnores acts).coveredThrough := by
      simpa [IgnoreSet.ignoresStale] using hstale
    have hbefore : (applyIgnores (before ++ [.invalidate])).invalidatedAt ≤
        (applyIgnores acts).invalidatedAt := by
      rw [(covers_applyIgnores _).invalidated, hc.invalidated, heq]
      simp
    have hpos : 0 < (applyIgnores (before ++ [.invalidate])).invalidatedAt := by
      simp [(covers_applyIgnores _).invalidated]
    rcases hc.covered with hzero | ⟨b, signedIn, hb⟩
    · omega
    · exact ⟨b, _, signedIn, hb, by omega⟩

end Property

/-- Person 3 is ignored from revision 5 to 7. -/
def testHistory : History := ⟨1, fun revision person => person = 3 && 5 ≤ revision && revision < 8⟩

/-- A change arrives before the older snapshot, and its own older echo after it. -/
def testActs : List IgnoreAct :=
  [.invalidate, .change ⟨1, 3, false, 8⟩ none, .snapshot ⟨1, [3], 6⟩ 1 (some 1),
    .change ⟨1, 3, true, 5⟩ (some 1)]

theorem ignores_converge_sample :
    (applyIgnores testActs).isIgnored (some 3) (some true) = false ∧
      (applyIgnores testActs).ignoresStale = false ∧ Converges testHistory testActs := by
  refine ⟨by decide, by decide, ignores_converge fun a ha => ?_⟩
  simp only [testActs, List.mem_cons, List.not_mem_nil, or_false] at ha
  rcases ha with rfl | rfl | rfl | rfl
  · trivial
  · exact ⟨⟨rfl, rfl⟩, fun _ h => by cases h⟩
  · refine ⟨⟨rfl, fun id => ?_⟩, fun id hid => (Option.some.inj hid).symm⟩
    simp [testHistory]
  · exact ⟨⟨rfl, rfl⟩, fun id hid => (Option.some.inj hid).symm⟩

end Smartfire
