/-
  File:      Smartfire/Store/Badge.lean
  Subject:   The badge settles to the newest count, once no change is on its way.

  The newest count known is the deferred one, else the held one where it belongs to the generation.
  No change is ever taken to be covered at a later revision than that count's, so once every request
  has ended nothing keeps it waiting.

  * `ActivitySlice.top` -- the newest count known; `candidate_spec` -- what a count that comes does to it;
  * `withCounts_spec` -- what `withCounts` keeps;
  * `Badge`, `badge_run` -- the invariant of a generation;
  * `BadgeSettles`, `badge_settles` -- the property.
-/
import Smartfire.Store.Activity
import Mathlib.Data.List.Induction

namespace Smartfire

/-! ## 1. The newest count -/

namespace ActivitySlice

variable (activity : ActivitySlice)

/-- The newest count known in the generation. -/
def top : Option ActivityUnreadCount := activity.deferredUnread.or activity.heldUnread

/-- A deferred count is as new as the held one. -/
def Ordered : Prop :=
  ∀ d h, activity.deferredUnread = some d → activity.heldUnread = some h → h.key ≤ d.key

/-- The two slices hold the same counts, in the same generation. -/
structure SameCounts (a b : ActivitySlice) : Prop where
  server : b.serverUnread = a.serverUnread
  deferred : b.deferredUnread = a.deferredUnread
  generation : b.generation = a.generation
  serverGeneration : b.serverUnreadGeneration = a.serverUnreadGeneration

end ActivitySlice

variable {activity a b : ActivitySlice} {unread : Option ActivityUnreadCount}
  {requestSequence : Option Nat} {u v : ActivityUnreadCount}

theorem ActivitySlice.SameCounts.refl (a : ActivitySlice) : a.SameCounts a := ⟨rfl, rfl, rfl, rfl⟩

theorem ActivitySlice.SameCounts.held (h : a.SameCounts b) : b.heldUnread = a.heldUnread := by
  unfold heldUnread
  rw [h.server, h.generation, h.serverGeneration]

theorem ActivitySlice.SameCounts.candidate (h : a.SameCounts b) :
    b.candidate unread requestSequence = a.candidate unread requestSequence := by
  unfold ActivitySlice.candidate acceptedCount
  rw [h.held, h.deferred]

theorem ActivitySlice.serverUnread_of_held (h : a.heldUnread = some u) : a.serverUnread = some u := by
  unfold heldUnread at h
  split at h
  · exact h
  · cases h

/-- A candidate is taken, or the snapshot stays. -/
theorem takeCount_cases (snapshot : Candidate) (candidate : Option ActivityUnreadCount) (tie : Bool) :
    takeCount snapshot candidate tie = snapshot ∨
      ∃ c, candidate = some c ∧ takeCount snapshot candidate tie = (some c, true) ∧
        ∀ s, snapshot.1 = some s → s.key ≤ c.key := by
  unfold takeCount
  cases candidate with
  | none => exact .inl rfl
  | some c =>
    cases hs : snapshot.1 with
    | none => exact .inr ⟨c, rfl, rfl, nofun⟩
    | some s =>
      dsimp only
      split
      · next hc =>
        refine .inr ⟨c, rfl, rfl, fun s' hs' => ?_⟩
        obtain rfl := Option.some.inj hs'
        simp only [Bool.or_eq_true, Bool.and_eq_true, decide_eq_true_eq] at hc
        rcases hc with hgt | ⟨heq, _⟩
        · exact le_of_lt (compareCounts_gt.mp hgt)
        · exact le_of_eq (compareCounts_eq.mp heq).symm
      · exact .inl rfl

/-- Whatever is settled on is as new as the candidate. -/
theorem le_takeCount (snapshot : Candidate) (c : ActivityUnreadCount) (tie : Bool) :
    ∃ s, (takeCount snapshot (some c) tie).1 = some s ∧ c.key ≤ s.key := by
  unfold takeCount
  cases hs : snapshot.1 with
  | none => exact ⟨c, rfl, le_refl _⟩
  | some s =>
    dsimp only
    split
    · exact ⟨c, rfl, le_refl _⟩
    · next hc =>
      refine ⟨s, hs, not_lt.mp fun hlt => hc ?_⟩
      simp [compareCounts_gt.mpr hlt]

/-- The deferred count is what is known of the newest. -/
theorem takeCount_deferred (ho : activity.Ordered) :
    (takeCount (activity.heldUnread, false) activity.deferredUnread true).1 = activity.top := by
  unfold takeCount ActivitySlice.top
  cases hd : activity.deferredUnread with
  | none => rfl
  | some d =>
    cases hh : activity.heldUnread with
    | none => rfl
    | some h =>
      have hle := ho d h hd hh
      have hge : ¬ compareCounts d h < 0 := fun hlt => absurd (compareCounts_lt.mp hlt) (not_lt.mpr hle)
      have htake : 0 < compareCounts d h ∨ compareCounts d h = 0 := by omega
      simp [htake]

/-- A count that isn't accepted is older than the newest known. -/
theorem lt_top_of_not_accepted (ho : activity.Ordered) (hn : activity.acceptedCount (some u) = none) :
    ∃ t, activity.top = some t ∧ u.key < t.key := by
  unfold ActivitySlice.acceptedCount at hn
  rw [Option.filter_some_eq_none] at hn
  unfold ActivitySlice.top
  cases hd : activity.deferredUnread with
  | none =>
    cases hh : activity.heldUnread with
    | none => simp [hd, hh] at hn
    | some h =>
      have hlt : compareCounts u h < 0 := by simpa [hd, hh] using hn
      exact ⟨h, rfl, compareCounts_lt.mp hlt⟩
  | some d =>
    refine ⟨d, rfl, ?_⟩
    cases hh : activity.heldUnread with
    | none =>
      have hlt : compareCounts u d < 0 := by simpa [hd, hh] using hn
      exact compareCounts_lt.mp hlt
    | some h =>
      have hlt : compareCounts u h < 0 ∨ compareCounts u d < 0 := by
        have hn' : ¬ (0 ≤ compareCounts u h ∧ 0 ≤ compareCounts u d) := by simpa [hd, hh] using hn
        omega
      rcases hlt with hlt | hlt
      · exact lt_of_lt_of_le (compareCounts_lt.mp hlt) (ho d h hd hh)
      · exact compareCounts_lt.mp hlt

/-- What the counts settle on: the newest known, or the count that came, as new as that. -/
structure CandidateSpec (activity : ActivitySlice) (unread : Option ActivityUnreadCount)
    (c : Candidate) : Prop where
  cases : c.1 = activity.top ∨ ∃ u, unread = some u ∧ c.1 = some u ∧
    ∀ t, activity.top = some t → t.key ≤ u.key
  /-- It is as new as the count that came. -/
  came : ∀ u, unread = some u → ∃ t, c.1 = some t ∧ u.key ≤ t.key
  held : c.2 = false → c.1 = activity.heldUnread
  fresh : c.2 = true → c.1.isSome = true

theorem candidate_spec (ho : activity.Ordered) :
    CandidateSpec activity unread (activity.candidate unread requestSequence) := by
  have htop := takeCount_deferred ho
  unfold ActivitySlice.candidate
  have hfirst := takeCount_cases (activity.heldUnread, false) activity.deferredUnread true
  have hsecond := takeCount_cases (takeCount (activity.heldUnread, false) activity.deferredUnread true)
    (activity.acceptedCount unread) requestSequence.isSome
  have haccepted : ∀ u, activity.acceptedCount unread = some u → unread = some u := fun u hu =>
    Option.eq_some_of_filter_eq_some hu
  refine ⟨?_, fun u hu => ?_, fun hf => ?_, fun hf => ?_⟩
  · rcases hsecond with h | ⟨u, hu, h, hle⟩
    · exact .inl (by rw [h, htop])
    · exact .inr ⟨u, haccepted u hu, by rw [h], fun t ht => hle t (htop.trans ht)⟩
  · subst hu
    cases ha : activity.acceptedCount (some u) with
    | some u' =>
      obtain rfl := Option.some.inj (haccepted u' ha)
      exact le_takeCount _ _ _
    | none =>
      obtain ⟨t, ht, hlt⟩ := lt_top_of_not_accepted ho ha
      exact ⟨t, htop.trans ht, le_of_lt hlt⟩
  · rcases hsecond with h | ⟨u, _, h, _⟩
    · rw [h] at hf ⊢
      rcases hfirst with h' | ⟨u, _, h', _⟩
      · rw [h']
      · rw [h'] at hf
        cases hf
    · rw [h] at hf
      cases hf
  · rcases hsecond with h | ⟨u, _, h, _⟩
    · rw [h] at hf ⊢
      rcases hfirst with h' | ⟨u, _, h', _⟩
      · rw [h'] at hf
        cases hf
      · rw [h']
        rfl
    · rw [h]
      rfl

/-- What the counts settle on is as new as the held count. -/
theorem CandidateSpec.forward {c : Candidate} (hs : CandidateSpec activity unread c)
    (ho : activity.Ordered) {h : ActivityUnreadCount} (hh : activity.heldUnread = some h) :
    ∃ t, c.1 = some t ∧ h.key ≤ t.key := by
  obtain ⟨t, ht, hle⟩ : ∃ t, activity.top = some t ∧ h.key ≤ t.key := by
    unfold ActivitySlice.top
    cases hd : activity.deferredUnread with
    | none => exact ⟨h, hh, le_refl _⟩
    | some d => exact ⟨d, rfl, ho d h hd hh⟩
  rcases hs.cases with hc | ⟨u, _, hc, hu⟩
  · exact ⟨t, hc.trans ht, hle⟩
  · exact ⟨u, hc, le_trans hle (hu t ht)⟩

/-! ## 2. What `withCounts` keeps -/

/-- No change is taken to be covered past the snapshot, and one whose request ended is covered. -/
def Pending.Covered (pending : Pending) (snapshot : Option ActivityUnreadCount) : Prop :=
  ∀ p ∈ pending,
    (∀ c, p.2.coveredAtRevision = some c → ∃ u, snapshot = some u ∧ c ≤ u.unreadRevision) ∧
      (p.2.settled = true → p.2.coveredAtRevision.isSome = true)

/-- An adjustment may be dropped; what covers a change, and whether its request ended, stays. -/
def PendingUnread.Alike (p q : Nat × PendingUnread) : Prop :=
  p.1 = q.1 ∧ p.2.coveredAtRevision = q.2.coveredAtRevision ∧ p.2.settled = q.2.settled

theorem mem_absorbedUnread {pending : Pending} {revision : Option Int} {p : Nat × PendingUnread}
    (hp : p ∈ absorbedUnread pending revision) : ∃ q ∈ pending, PendingUnread.Alike p q := by
  obtain ⟨⟨token, change⟩, hq, heq⟩ := List.mem_filterMap.mp hp
  refine ⟨(token, change), hq, ?_⟩
  dsimp only at heq
  split at heq
  · cases heq
    exact ⟨rfl, rfl, rfl⟩
  · split at heq
    · cases heq
    · cases heq
      exact ⟨rfl, rfl, rfl⟩

theorem Pending.Covered.absorbed {pending : Pending} {snapshot : Option ActivityUnreadCount}
    (h : pending.Covered snapshot) (revision : Option Int) :
    Pending.Covered (absorbedUnread pending revision) snapshot := by
  intro p hp
  obtain ⟨q, hq, _, hcovered, hsettled⟩ := mem_absorbedUnread hp
  rw [hcovered, hsettled]
  exact h q hq

/-- **Changes whose requests all ended are covered by the snapshot**: nothing waits for it. -/
theorem not_waiting {pending : Pending} {snapshot : Option ActivityUnreadCount}
    (h : pending.Covered snapshot) (hs : ∀ p ∈ pending, p.2.settled = true) :
    waitingFor pending snapshot = false := by
  unfold waitingFor
  rw [List.any_eq_false]
  rintro ⟨token, change⟩ hp
  obtain ⟨hcovered, hsome⟩ := h _ hp
  obtain ⟨c, hc⟩ : ∃ c, change.coveredAtRevision = some c :=
    Option.isSome_iff_exists.mp (hsome (hs _ hp))
  obtain ⟨u, hu, hle⟩ := hcovered c hc
  have hnot : ¬ u.unreadRevision < c := by omega
  simp [hc, hu, hnot]

/-- None of them is left once the snapshot is installed. -/
theorem absorbedUnread_eq_nil {pending : Pending} {snapshot : Option ActivityUnreadCount}
    (h : pending.Covered snapshot) (hs : ∀ p ∈ pending, p.2.settled = true) :
    absorbedUnread pending (snapshot.map (·.unreadRevision)) = [] := by
  unfold absorbedUnread
  rw [List.filterMap_eq_nil_iff]
  rintro ⟨token, change⟩ hp
  obtain ⟨hcovered, hsome⟩ := h _ hp
  obtain ⟨c, hc⟩ : ∃ c, change.coveredAtRevision = some c :=
    Option.isSome_iff_exists.mp (hsome (hs _ hp))
  obtain ⟨u, hu, hle⟩ := hcovered c hc
  have hset : change.settled = true := hs _ hp
  have hby : change.coveredBy (snapshot.map (·.unreadRevision)) = true := by
    simp [PendingUnread.coveredBy, hc, hu, hle]
  simp [hby, hset]

/-- A change whose request is on its way stays. -/
theorem exists_absorbedUnread {pending : Pending} {p : Nat × PendingUnread} (hp : p ∈ pending)
    (hs : p.2.settled = false) (revision : Option Int) :
    ∃ q ∈ absorbedUnread pending revision, q.2.settled = false := by
  obtain ⟨token, change⟩ := p
  have hset : change.settled = false := hs
  cases hc : change.coveredBy revision with
  | false => exact ⟨_, List.mem_filterMap.mpr ⟨_, hp, by simp [hc]⟩, hs⟩
  | true =>
    refine ⟨(token, { change with delta := 0 }), List.mem_filterMap.mpr ⟨_, hp, ?_⟩, hs⟩
    simp [hc, hset]

theorem shownCount_nonneg {server : Option Nat} {pending : Pending} {n : Int}
    (h : shownCount server pending = some n) : 0 ≤ n := by
  unfold shownCount at h
  obtain ⟨m, _, rfl⟩ := Option.map_eq_some_iff.mp h
  exact le_max_left _ _

theorem shownCount_nil (server : Option Nat) : shownCount server [] = server.map fun n : Nat => (n : Int) := by
  cases server with
  | none => rfl
  | some n => simp [shownCount]

/-- Where only changes whose requests ended are left, none is. -/
theorem rest_of_absorbed {pending : Pending} {snapshot : Option ActivityUnreadCount}
    (h : pending.Covered snapshot) (server : Option ActivityUnreadCount)
    (hs : ∀ p ∈ absorbedUnread pending (snapshot.map (·.unreadRevision)), p.2.settled = true) :
    absorbedUnread pending (snapshot.map (·.unreadRevision)) = [] ∧
      shownCount (server.map (·.unreadCount)) (absorbedUnread pending (snapshot.map (·.unreadRevision))) =
        server.map fun u => (u.unreadCount : Int) := by
  have hnil : absorbedUnread pending (snapshot.map (·.unreadRevision)) = [] := by
    refine absorbedUnread_eq_nil h fun p hp => ?_
    by_contra hne
    obtain ⟨q, hq, hset⟩ := exists_absorbedUnread hp (Bool.eq_false_iff.mpr hne)
      (snapshot.map (·.unreadRevision))
    rw [hs q hq] at hset
    cases hset
  refine ⟨hnil, ?_⟩
  rw [hnil, shownCount_nil, Option.map_map]
  rfl

/-- The held count, once it belongs to the generation, is never replaced by an older one. -/
def ActivitySlice.Forward (a b : ActivitySlice) : Prop :=
  ∀ h, a.heldUnread = some h → ∃ h', b.heldUnread = some h' ∧ h.key ≤ h'.key

theorem ActivitySlice.Forward.refl (a : ActivitySlice) : a.Forward a := fun h hh => ⟨h, hh, le_refl _⟩

theorem ActivitySlice.Forward.trans {a b c : ActivitySlice} (hab : a.Forward b) (hbc : b.Forward c) :
    a.Forward c := by
  intro h hh
  obtain ⟨h', hh', hle⟩ := hab h hh
  obtain ⟨h'', hh'', hle'⟩ := hbc h' hh'
  exact ⟨h'', hh'', le_trans hle hle'⟩

/-- What `withCounts` makes of the counts and of the changes on their way. -/
structure WithCounts (a : ActivitySlice) (snapshot : Option ActivityUnreadCount) (pending : Pending)
    (b : ActivitySlice) : Prop where
  top : b.top = snapshot
  ordered : b.Ordered
  generation : b.generation = a.generation
  pending : ∀ p ∈ b.pendingUnread, ∃ q ∈ pending, PendingUnread.Alike p q
  rest : (∀ p ∈ b.pendingUnread, p.2.settled = true) → b.pendingUnread = [] ∧ b.deferredUnread = none ∧
    b.unreadCount = b.serverUnread.map fun u => (u.unreadCount : Int)
  nonneg : ∀ n, b.unreadCount = some n → 0 ≤ n
  fallback : b.heldUnread = none → a.heldUnread = none ∧ b.serverUnread = a.serverUnread
  forward : a.Forward b

/-- While something waits for the snapshot, the held count stays; else the snapshot is installed. -/
theorem withCounts_eq {pending : Pending} {snapshot : Option ActivityUnreadCount} {fresh : Bool}
    (hc : a.candidate unread requestSequence = (snapshot, fresh)) :
    withCounts a unread pending requestSequence =
      let projected := absorbedUnread pending (a.heldUnread.map (·.unreadRevision))
      if waitingFor projected snapshot = true then
        { a with
          deferredUnread := if fresh = true then snapshot else none
          pendingUnread := projected
          unreadCount := shownCount (a.serverUnread.map (·.unreadCount)) projected }
      else
        let remaining := absorbedUnread projected (snapshot.map (·.unreadRevision))
        { a with
          serverUnread := snapshot.or a.serverUnread
          serverUnreadGeneration :=
            if snapshot.isSome then a.generation else a.serverUnreadGeneration
          deferredUnread := none
          pendingUnread := remaining
          unreadCount := shownCount ((snapshot.or a.serverUnread).map (·.unreadCount)) remaining } := by
  unfold withCounts
  rw [hc]
  dsimp only
  cases waitingFor (absorbedUnread pending (a.heldUnread.map (·.unreadRevision))) snapshot with
  | true => simp
  | false => simp

theorem withCounts_spec (ho : a.Ordered) {pending : Pending}
    (hp : pending.Covered (a.candidate unread requestSequence).1) :
    WithCounts a (a.candidate unread requestSequence).1 pending
      (withCounts a unread pending requestSequence) := by
  have hspec : CandidateSpec a unread (a.candidate unread requestSequence) := candidate_spec ho
  rcases hc : a.candidate unread requestSequence with ⟨snapshot, fresh⟩
  rw [hc] at hspec hp
  rw [withCounts_eq hc]
  dsimp only
  have hprojected := hp.absorbed (a.heldUnread.map (·.unreadRevision))
  split
  · next hw =>
    -- the snapshot waits, in `deferredUnread` unless it is the held one
    have htop : (if fresh = true then snapshot else none).or a.heldUnread = snapshot := by
      cases hf : fresh with
      | true =>
        obtain ⟨u, hu⟩ := Option.isSome_iff_exists.mp (hspec.fresh hf)
        have hu' : snapshot = some u := hu
        simp [hu']
      | false => simpa using (hspec.held hf).symm
    refine ⟨htop, fun d h hd hh => ?_, rfl, fun p hpend => mem_absorbedUnread hpend, fun hs => ?_,
      fun n hn => shownCount_nonneg hn, fun hn => ⟨hn, rfl⟩, fun h hh => ⟨h, hh, le_refl _⟩⟩
    · have hd' : (if fresh = true then snapshot else none) = some d := hd
      have hdtop : snapshot = some d := by
        rw [← htop, hd']
        rfl
      obtain ⟨t, ht, hle⟩ := hspec.forward ho hh
      obtain rfl : t = d := Option.some.inj (ht.symm.trans hdtop)
      exact hle
    · rw [not_waiting hprojected hs] at hw
      cases hw
  · next hw =>
    have hpending : ∀ p ∈ absorbedUnread (absorbedUnread pending (a.heldUnread.map (·.unreadRevision)))
        (snapshot.map (·.unreadRevision)), ∃ q ∈ pending, PendingUnread.Alike p q := by
      intro p hpend
      obtain ⟨q, hq, h1, h2, h3⟩ := mem_absorbedUnread hpend
      obtain ⟨r, hr, h1', h2', h3'⟩ := mem_absorbedUnread hq
      exact ⟨r, hr, h1.trans h1', h2.trans h2', h3.trans h3'⟩
    cases snapshot with
    | none =>
      have hheld : a.heldUnread = none := by
        cases hf : fresh with
        | true => cases hspec.fresh hf
        | false => exact (hspec.held hf).symm
      refine ⟨hheld, nofun, rfl, hpending, fun hs => ?_, fun n hn => shownCount_nonneg hn,
        fun _ => ⟨hheld, rfl⟩, fun h hh => ?_⟩
      · obtain ⟨hnil, hshown⟩ := rest_of_absorbed hprojected a.serverUnread hs
        exact ⟨hnil, rfl, hshown⟩
      · rw [hheld] at hh
        cases hh
    | some u =>
      refine ⟨?_, nofun, rfl, hpending, fun hs => ?_, fun n hn => ?_, fun hn => ?_, fun h hh => ?_⟩
      · simp [ActivitySlice.top, ActivitySlice.heldUnread]
      · obtain ⟨hnil, hshown⟩ := rest_of_absorbed hprojected (some u) hs
        exact ⟨hnil, rfl, hshown⟩
      · dsimp only at hn
        exact shownCount_nonneg hn
      · simp [ActivitySlice.heldUnread] at hn
      · obtain ⟨t, ht, hle⟩ := hspec.forward ho hh
        cases ht
        exact ⟨u, by simp [ActivitySlice.heldUnread], hle⟩

/-! ## 3. What confirms keeps the changes covered -/

theorem Pending.Covered.mono {pending : Pending} {s t : Option ActivityUnreadCount}
    (h : pending.Covered s) (hst : ∀ u, s = some u → ∃ v, t = some v ∧ u.key ≤ v.key) :
    pending.Covered t := by
  intro p hp
  refine ⟨fun c hc => ?_, (h p hp).2⟩
  obtain ⟨u, hu, hle⟩ := (h p hp).1 c hc
  obtain ⟨v, hv, hkey⟩ := hst u hu
  exact ⟨v, hv, Int.le_trans hle (ActivityUnreadCount.revision_le hkey)⟩

/-- What the counts settle on is as new as the newest known. -/
theorem CandidateSpec.mono {c : Candidate} (hs : CandidateSpec activity unread c) :
    ∀ u, activity.top = some u → ∃ v, c.1 = some v ∧ u.key ≤ v.key := by
  intro u hu
  rcases hs.cases with hc | ⟨v, _, hc, hle⟩
  · exact ⟨u, hc.trans hu, le_refl _⟩
  · exact ⟨v, hc, hle u hu⟩

section Confirm

variable {parse : String → Option Int} {items : List ActivityItem} {removedId : Option Int}
  {snapshot : Option ActivityUnreadCount}

/-- A confirmation lowers what covers a change, or sets it to the count's revision. -/
theorem confirmedChange_cases (u : ActivityUnreadCount) (token : Nat) (change : PendingUnread) :
    (confirmedChange parse activity u items removedId token change).settled = change.settled ∧
      ((confirmedChange parse activity u items removedId token change).coveredAtRevision =
          change.coveredAtRevision ∨
        ∃ c, (confirmedChange parse activity u items removedId token change).coveredAtRevision = some c ∧
          c ≤ u.unreadRevision) := by
  unfold confirmedChange
  dsimp only
  split
  · refine ⟨rfl, ?_⟩
    dsimp only
    split
    · refine .inr ⟨_, rfl, ?_⟩
      split
      · exact Int.min_le_right _ _
      · exact Int.le_refl _
    · exact .inl rfl
  · exact ⟨rfl, .inl rfl⟩

/-- **Confirmations keep the changes covered** by what the counts settle on. -/
theorem Pending.Covered.confirmed (h : Pending.Covered activity.pendingUnread snapshot)
    (hu : ∀ u, unread = some u → ∃ t, snapshot = some t ∧ u.key ≤ t.key) :
    Pending.Covered (confirmedUnread parse activity unread items removedId) snapshot := by
  unfold confirmedUnread
  split
  · exact h
  · next u ha =>
    have hun : unread = some u := Option.eq_some_of_filter_eq_some ha
    obtain ⟨t, ht, hle⟩ := hu u hun
    split
    · exact h
    · intro p hp
      obtain ⟨⟨token, change⟩, hq, rfl⟩ := List.mem_map.mp hp
      obtain ⟨hsettled, hcases⟩ :=
        @confirmedChange_cases activity parse items removedId u token change
      obtain ⟨hcovered, hsome⟩ := h _ hq
      refine ⟨fun c hc => ?_, fun hs => ?_⟩
      · rcases hcases with heq | ⟨c', hc', hle'⟩
        · exact hcovered c (heq.symm.trans hc)
        · obtain rfl : c' = c := Option.some.inj (hc'.symm.trans hc)
          exact ⟨t, ht, Int.le_trans hle' (ActivityUnreadCount.revision_le hle)⟩
      · rcases hcases with heq | ⟨c', hc', _⟩
        · exact (congrArg Option.isSome heq).trans (hsome (hsettled.symm.trans hs))
        · exact congrArg Option.isSome hc'

theorem Pending.mem_set {pending : Pending} {token : Nat} {change : PendingUnread}
    {p : Nat × PendingUnread} (hp : p ∈ pending.set token change) : p = (token, change) ∨ p ∈ pending := by
  induction pending with
  | nil => exact .inl (List.mem_singleton.mp hp)
  | cons q pending ih =>
    obtain ⟨token', change'⟩ := q
    rw [Pending.set] at hp
    split at hp
    · exact List.mem_cons.mp hp
    · split at hp
      · exact (List.mem_cons.mp hp).imp_right (List.mem_cons_of_mem _)
      · rcases List.mem_cons.mp hp with rfl | hp
        · exact .inr List.mem_cons_self
        · exact (ih hp).imp_right (List.mem_cons_of_mem _)

theorem mem_of_lookup_pending {pending : Pending} {token : Nat} {change : PendingUnread}
    (h : pending.lookup token = some change) : (token, change) ∈ pending := by
  induction pending with
  | nil => cases h
  | cons q pending ih =>
    obtain ⟨token', change'⟩ := q
    rw [List.lookup_cons] at h
    split at h
    · next heq =>
      obtain rfl : token = token' := by simpa using heq
      cases h
      exact List.mem_cons_self
    · exact List.mem_cons_of_mem _ (ih h)

/-- The changes after a request's end are those of the others, and its own once settled. -/
theorem mem_endedPending {pending : Pending} {e : ActivityChangeEnd} {p : Nat × PendingUnread}
    (hp : p ∈ endedPending parse pending e) :
    p ∈ pending ∧ p.1 ≠ e.token ∨ p.2.settled = true ∧ ∃ q ∈ pending, ∃ c c',
      endCoveredAt (some q.2) e = some c ∧ p.2.coveredAtRevision = some c' ∧ c' ≤ c := by
  unfold endedPending at hp
  dsimp only at hp
  have hothers : ∀ {p : Nat × PendingUnread}, p ∈ pending.filter (·.1 ≠ e.token) →
      p ∈ pending ∧ p.1 ≠ e.token := fun hp => by simpa using List.mem_filter.mp hp
  split at hp
  · next change coveredAt hchange hcovered =>
    split at hp
    · rcases Pending.mem_set hp with rfl | hp
      · obtain ⟨held, hheld, hc⟩ := Option.map_eq_some_iff.mp hchange
        have hrev : change.coveredAtRevision = held.coveredAtRevision := by
          rw [← hc]
          split <;> rfl
        have hend : endCoveredAt (some held) e = some coveredAt := by
          rw [hchange] at hcovered
          simpa [endCoveredAt, hrev] using hcovered
        exact .inr ⟨rfl, _, mem_of_lookup_pending hheld, coveredAt, _, hend, rfl, Int.min_le_right _ _⟩
      · exact .inl (hothers hp)
    · exact .inl (hothers hp)
  · exact .inl (hothers hp)

/-- **A request's end keeps the changes covered.** -/
theorem Pending.Covered.ended {pending : Pending} {e : ActivityChangeEnd} (h : pending.Covered snapshot)
    (hu : ∀ u, e.unread = some u → ∃ t, snapshot = some t ∧ u.key ≤ t.key) :
    Pending.Covered (endedPending parse pending e) snapshot := by
  intro p hp
  rcases mem_endedPending hp with ⟨hp, _⟩ | ⟨_, q, hq, c, c', hc, hc', hle⟩
  · exact h p hp
  · refine ⟨fun r hr => ?_, fun _ => by rw [hc']; rfl⟩
    obtain rfl : c' = r := Option.some.inj (hc'.symm.trans hr)
    cases heu : e.unread with
    | some u =>
      obtain ⟨t, ht, hkey⟩ := hu u heu
      obtain rfl : u.unreadRevision = c := by simpa [endCoveredAt, heu] using hc
      exact ⟨t, ht, Int.le_trans hle (ActivityUnreadCount.revision_le hkey)⟩
    | none =>
      have hqc : q.2.coveredAtRevision = some c := by simpa [endCoveredAt, heu] using hc
      obtain ⟨t, ht, hle'⟩ := (h q hq).1 c hqc
      exact ⟨t, ht, Int.le_trans hle hle'⟩

end Confirm

/-! ## 4. One generation -/

/-- What happens to the badge within a generation; `gone` are the threads removed by then. -/
inductive ActivityAct where
  | show (row : ActivityItem) (token : Nat) (delta : Int)
  | ended (gone : Option Int → Bool) (e : ActivityChangeEnd)
  | item (gone : Option Int → Bool) (row : ActivityItem) (unread : Option ActivityUnreadCount)
  | removed (id : Int) (unread : ActivityUnreadCount)
  | count (unread : ActivityUnreadCount) (generation : Nat) (requestSequence : Option Nat)

namespace ActivityAct

def apply (parse : String → Option Int) (a : ActivitySlice) : ActivityAct → ActivitySlice
  | .show row token delta => showActivityChange a row token delta
  | .ended gone e => endActivityChange parse gone a e
  | .item gone row unread => applyActivityItem parse gone a row unread
  | .removed id unread => removeActivityItem parse a id unread
  | .count unread generation requestSequence => setActivityUnreadCount a unread generation requestSequence

/-- The snapshot received in the generation. -/
def received (generation : Nat) : ActivityAct → List ActivityUnreadCount
  | .show .. => []
  | .ended _ e => if e.generation = generation then e.unread.toList else []
  | .item _ _ unread => unread.toList
  | .removed _ unread => [unread]
  | .count unread generation' _ => if generation' = generation then [unread] else []

/-- The tokens started and not ended in the generation. -/
def tokens (generation : Nat) (started : List Nat) : ActivityAct → List Nat
  | .show _ token _ => token :: started
  | .ended _ e => if e.generation = generation then started.filter (· ≠ e.token) else started
  | _ => started

end ActivityAct

/-- The slice after the acts. -/
def runActivity (parse : String → Option Int) (start : ActivitySlice) (acts : List ActivityAct) :
    ActivitySlice :=
  acts.foldl (ActivityAct.apply parse) start

/-- The snapshots received in the generation. -/
def receivedCounts (generation : Nat) (acts : List ActivityAct) : List ActivityUnreadCount :=
  acts.flatMap (ActivityAct.received generation)

/-- The tokens started in the generation whose requests have not ended. -/
def openTokens (generation : Nat) (acts : List ActivityAct) : List Nat :=
  acts.foldl (ActivityAct.tokens generation) []

/-- A slice as a generation begins. -/
structure ActivitySlice.Begins (start : ActivitySlice) : Prop where
  pending : start.pendingUnread = []
  deferred : start.deferredUnread = none
  count : start.unreadCount = start.serverUnread.map fun u => (u.unreadCount : Int)

theorem begins_empty : emptyActivity.Begins := ⟨rfl, rfl, rfl⟩

theorem begins_beginActivityGeneration (parse : String → Option Int) (a : ActivitySlice)
    (newEpoch : Bool) : (beginActivityGeneration parse a newEpoch).Begins := ⟨rfl, rfl, rfl⟩

/-- A count no count received is newer than. -/
def Newest (counts : List ActivityUnreadCount) (u : ActivityUnreadCount) : Prop :=
  u ∈ counts ∧ ∀ v ∈ counts, compareCounts v u ≤ 0

/-- What is known of the newest of the counts. -/
def Tops (counts : List ActivityUnreadCount) : Option ActivityUnreadCount → Prop
  | none => counts = []
  | some u => Newest counts u

theorem compareCounts_le : compareCounts v u ≤ 0 ↔ v.key ≤ u.key := by
  rw [← not_lt, ← not_lt, compareCounts_gt]

/-- What a generation keeps. -/
structure Badge (start : ActivitySlice) (acts : List ActivityAct) (a : ActivitySlice) : Prop where
  generation : a.generation = start.generation
  ordered : a.Ordered
  tops : Tops (start.heldUnread.toList ++ receivedCounts start.generation acts) a.top
  fallback : a.heldUnread = none → a.serverUnread = start.serverUnread
  covered : a.pendingUnread.Covered a.top
  open_ : ∀ p ∈ a.pendingUnread, p.2.settled = false → p.1 ∈ openTokens start.generation acts
  rest : (∀ p ∈ a.pendingUnread, p.2.settled = true) → a.pendingUnread = [] ∧ a.deferredUnread = none ∧
    a.unreadCount = a.serverUnread.map fun u => (u.unreadCount : Int)
  nonneg : ∀ n, a.unreadCount = some n → 0 ≤ n

section Step

variable {parse : String → Option Int} {start : ActivitySlice} {acts : List ActivityAct}
  {act : ActivityAct} {generation : Nat}

theorem receivedCounts_append :
    receivedCounts generation (acts ++ [act]) =
      receivedCounts generation acts ++ act.received generation := by
  simp [receivedCounts]

theorem openTokens_append :
    openTokens generation (acts ++ [act]) = act.tokens generation (openTokens generation acts) := by
  simp [openTokens]

/-- What is known of the newest takes in the count that came. -/
theorem CandidateSpec.tops {counts : List ActivityUnreadCount} {c : Candidate}
    (hs : CandidateSpec activity unread c) (ht : Tops counts activity.top) :
    Tops (counts ++ unread.toList) c.1 := by
  cases hu : unread with
  | none =>
    rcases hs.cases with h | ⟨u, hun, _⟩
    · simpa [h] using ht
    · rw [hu] at hun
      cases hun
  | some u =>
    obtain ⟨t, hct, hle⟩ := hs.came u hu
    rw [hct]
    have hall : ∀ v ∈ counts, compareCounts v t ≤ 0 := by
      intro v hv
      cases htop : activity.top with
      | none =>
        rw [htop] at ht
        rw [show counts = [] from ht] at hv
        cases hv
      | some w =>
        rw [htop] at ht
        obtain ⟨t', ht', hwt⟩ := hs.mono w htop
        obtain rfl : t' = t := Option.some.inj (ht'.symm.trans hct)
        exact compareCounts_le.mpr (le_trans (compareCounts_le.mp (ht.2 v hv)) hwt)
    refine ⟨?_, fun v hv => ?_⟩
    · rcases hs.cases with h | ⟨u', hun, h, _⟩
      · have htop : activity.top = some t := h.symm.trans hct
        rw [htop] at ht
        exact List.mem_append_left _ ht.1
      · obtain rfl : u' = t := Option.some.inj (h.symm.trans hct)
        rw [hu] at hun
        cases hun
        exact List.mem_append_right _ (List.mem_singleton.mpr rfl)
    · rcases List.mem_append.mp hv with hv | hv
      · exact hall v hv
      · obtain rfl : v = u := List.mem_singleton.mp hv
        exact compareCounts_le.mpr hle

/-- **What `withCounts` makes of a slice keeps the generation's invariant.** -/
theorem Badge.withCounts (hb : Badge start acts a) (hsame : a.SameCounts b) {pending : Pending}
    (hp : pending.Covered (a.candidate unread requestSequence).1)
    (hreceived : act.received start.generation = unread.toList)
    (hopen : ∀ p ∈ pending, p.2.settled = false → p.1 ∈ openTokens start.generation (acts ++ [act])) :
    Badge start (acts ++ [act]) (Smartfire.withCounts b unread pending requestSequence) ∧
      a.Forward (Smartfire.withCounts b unread pending requestSequence) := by
  have hordered : b.Ordered := fun d h hd hh =>
    hb.ordered d h (hsame.deferred.symm.trans hd) (hsame.held.symm.trans hh)
  have hcandidate : b.candidate unread requestSequence = a.candidate unread requestSequence :=
    hsame.candidate
  have hspec : CandidateSpec a unread (a.candidate unread requestSequence) := candidate_spec hb.ordered
  have hw : WithCounts b (b.candidate unread requestSequence).1 pending
      (Smartfire.withCounts b unread pending requestSequence) :=
    withCounts_spec hordered (hcandidate.symm ▸ hp)
  rw [hcandidate] at hw
  refine ⟨⟨hw.generation.trans (hsame.generation.trans hb.generation), hw.ordered, ?_, fun hn => ?_, ?_,
    fun p hmem hs => ?_, hw.rest, hw.nonneg⟩, fun h hh => hw.forward h (hsame.held.trans hh)⟩
  · rw [hw.top, receivedCounts_append, hreceived, ← List.append_assoc]
    exact hspec.tops hb.tops
  · obtain ⟨hheld, hserver⟩ := hw.fallback hn
    rw [hserver, hsame.server, hb.fallback (hsame.held.symm.trans hheld)]
  · rw [hw.top]
    intro p hmem
    obtain ⟨q, hq, _, hcov, hset⟩ := hw.pending p hmem
    rw [hcov, hset]
    exact hp q hq
  · obtain ⟨q, hq, htoken, _, hset⟩ := hw.pending p hmem
    rw [htoken]
    exact hopen q hq (hset.symm.trans hs)

theorem sameCounts_serverCopy (row : ActivityItem) : a.SameCounts (serverCopy parse a row) := by
  unfold serverCopy
  split
  · exact .refl a
  · exact ⟨rfl, rfl, rfl, rfl⟩

theorem sameCounts_settleEnded (gone : Option Int → Bool) (e : ActivityChangeEnd)
    (change : Option PendingUnread) : a.SameCounts (settleEnded parse gone a e change) := by
  unfold settleEnded
  split
  · split
    · exact .refl a
    · split
      · exact ⟨rfl, rfl, rfl, rfl⟩
      · exact sameCounts_serverCopy _
  · exact .refl a

/-- A count accepted once is accepted again. -/
theorem withCounts_accepted (hsame : a.SameCounts b) (pending : Pending) :
    Smartfire.withCounts b (a.acceptedCount unread) pending requestSequence =
      Smartfire.withCounts b unread pending requestSequence := by
  have hidem : b.acceptedCount (a.acceptedCount unread) = b.acceptedCount unread := by
    have heq : ∀ v, b.acceptedCount v = a.acceptedCount v := fun v => by
      unfold ActivitySlice.acceptedCount
      rw [hsame.held, hsame.deferred]
    rw [heq, heq]
    unfold ActivitySlice.acceptedCount
    rw [Option.filter_filter]
    simp only [Bool.and_self]
  have hcandidate : b.candidate (a.acceptedCount unread) requestSequence =
      b.candidate unread requestSequence := by
    unfold ActivitySlice.candidate
    rw [hidem]
  unfold Smartfire.withCounts
  rw [hcandidate]

/-- An act without a count and without an end changes nothing of the invariant. -/
theorem Badge.still (hb : Badge start acts a) (hreceived : act.received start.generation = [])
    (htokens : ∀ started, act.tokens start.generation started = started) :
    Badge start (acts ++ [act]) a ∧ a.Forward a := by
  refine ⟨⟨hb.generation, hb.ordered, ?_, hb.fallback, hb.covered, fun p hp hs => ?_, hb.rest, hb.nonneg⟩,
    .refl a⟩
  · rw [receivedCounts_append, hreceived, List.append_nil]
    exact hb.tops
  · rw [openTokens_append, htokens]
    exact hb.open_ p hp hs

theorem confirmedUnread_tokens {items : List ActivityItem} {removedId : Option Int}
    {p : Nat × PendingUnread} (hp : p ∈ confirmedUnread parse a unread items removedId) :
    ∃ q ∈ a.pendingUnread, p.1 = q.1 ∧ p.2.settled = q.2.settled := by
  unfold confirmedUnread at hp
  split at hp
  · exact ⟨p, hp, rfl, rfl⟩
  · split at hp
    · exact ⟨p, hp, rfl, rfl⟩
    · obtain ⟨⟨token, change⟩, hq, rfl⟩ := List.mem_map.mp hp
      exact ⟨_, hq, rfl, (confirmedChange_cases _ token change).1⟩

theorem Badge.candidateCovered (hb : Badge start acts a) (unread : Option ActivityUnreadCount)
    (requestSequence : Option Nat) : a.pendingUnread.Covered (a.candidate unread requestSequence).1 :=
  hb.covered.mono (candidate_spec hb.ordered).mono

theorem Badge.confirmedOpen (hb : Badge start acts a) {started : List Nat}
    (hst : started = openTokens start.generation acts) {items : List ActivityItem} {removedId : Option Int}
    {unread : Option ActivityUnreadCount} :
    ∀ p ∈ confirmedUnread parse a unread items removedId, p.2.settled = false → p.1 ∈ started := by
  intro p hp hs
  obtain ⟨q, hq, htoken, hset⟩ := confirmedUnread_tokens hp
  rw [hst, htoken]
  exact hb.open_ q hq (hset.symm.trans hs)

/-- The changes a reply's own row confirms. -/
theorem Badge.confirmed (hb : Badge start acts a) {e : ActivityChangeEnd} {pending : Pending}
    (hp : pending = (match a.acceptedCount e.unread, e.settled with
      | some u, some row => confirmedUnread parse a (some u) [row] none
      | _, _ => a.pendingUnread)) :
    pending.Covered (a.candidate e.unread e.requestSequence).1 ∧
      ∀ p ∈ pending, p.2.settled = false → p.1 ∈ openTokens start.generation acts := by
  split at hp
  · next u row hu hrow =>
    have hun : e.unread = some u := Option.eq_some_of_filter_eq_some hu
    refine ⟨?_, fun p hmem hs => ?_⟩
    · rw [hp, ← hun]
      exact (hb.candidateCovered _ _).confirmed (candidate_spec hb.ordered).came
    · rw [hp] at hmem
      exact hb.confirmedOpen rfl p hmem hs
  · rw [hp]
    exact ⟨hb.candidateCovered _ _, hb.open_⟩

/-- **An act keeps the generation's invariant.** -/
theorem Badge.step (hb : Badge start acts a) (act : ActivityAct) :
    Badge start (acts ++ [act]) (act.apply parse a) ∧ a.Forward (act.apply parse a) := by
  have hspec : ∀ (unread : Option ActivityUnreadCount) (requestSequence : Option Nat),
      CandidateSpec a unread (a.candidate unread requestSequence) := fun _ _ => candidate_spec hb.ordered
  cases act with
  | «show» row token delta =>
    have hsame : a.SameCounts (showItem a row) := ⟨rfl, rfl, rfl, rfl⟩
    simp only [ActivityAct.apply, showActivityChange]
    refine hb.withCounts hsame (fun p hp => ?_) ?_ fun p hp hs => ?_
    · rcases Pending.mem_set hp with rfl | hp
      · exact ⟨nofun, nofun⟩
      · exact hb.candidateCovered none none p hp
    · rfl
    · rw [openTokens_append]
      rcases Pending.mem_set hp with rfl | hp
      · exact List.mem_cons_self
      · exact List.mem_cons_of_mem _ (hb.open_ p hp hs)
  | ended gone e =>
    by_cases hg : e.generation = start.generation
    · have hge : ¬ e.generation ≠ a.generation := fun hne => hne (hg.trans hb.generation.symm)
      obtain ⟨hcov, hopen⟩ := hb.confirmed (e := e) rfl
      simp only [ActivityAct.apply, endActivityChange, if_neg hge]
      have hsame : ∀ change, a.SameCounts (settleEnded parse gone a e change) :=
        sameCounts_settleEnded gone e
      rw [withCounts_accepted (hsame _)]
      refine hb.withCounts (hsame _) (hcov.ended (hspec _ _).came) ?_ fun p hp hs => ?_
      · simp [ActivityAct.received, hg]
      · rw [openTokens_append]
        rcases mem_endedPending hp with ⟨hp, hne⟩ | ⟨hset, _⟩
        · simpa [ActivityAct.tokens, hg, hne] using hopen p hp hs
        · rw [hs] at hset
          cases hset
    · have hge : e.generation ≠ a.generation := fun heq => hg (heq.trans hb.generation)
      simp only [ActivityAct.apply, endActivityChange, if_pos hge]
      exact hb.still (by simp [ActivityAct.received, hg]) fun started => by simp [ActivityAct.tokens, hg]
  | item gone row unread =>
    refine hb.withCounts ?_ ?_ rfl ?_
    · split
      · exact .refl a
      · exact sameCounts_serverCopy row
    · exact (hb.candidateCovered unread none).confirmed (hspec unread none).came
    · exact hb.confirmedOpen openTokens_append
  | removed id unread =>
    simp only [ActivityAct.apply, removeActivityItem]
    split
    · refine hb.withCounts (.refl a) ?_ rfl ?_
      · exact (hb.candidateCovered (some unread) none).confirmed (hspec (some unread) none).came
      · exact hb.confirmedOpen openTokens_append
    · have hsame : a.SameCounts
          { a with
            items := Function.update a.items id none
            versions := Function.update a.versions id none } := ⟨rfl, rfl, rfl, rfl⟩
      refine hb.withCounts hsame ?_ rfl ?_
      · exact (hb.candidateCovered (some unread) none).confirmed (hspec (some unread) none).came
      · exact hb.confirmedOpen openTokens_append
  | count unread generation requestSequence =>
    simp only [ActivityAct.apply, setActivityUnreadCount]
    by_cases hg : generation = start.generation
    · have hge : ¬ generation ≠ a.generation := fun hne => hne (hg.trans hb.generation.symm)
      rw [if_neg hge]
      refine hb.withCounts (.refl a) (hb.candidateCovered _ _) ?_ fun p hp hs => ?_
      · simp [ActivityAct.received, hg]
      · rw [openTokens_append]
        exact hb.open_ p hp hs
    · have hge : generation ≠ a.generation := fun heq => hg (heq.trans hb.generation)
      rw [if_pos hge]
      exact hb.still (by simp [ActivityAct.received, hg]) fun _ => rfl

end Step

/-! ## 5. The property -/

section Property

variable {parse : String → Option Int} {start : ActivitySlice}

/-- **The badge settles to the newest count of the generation.** -/
structure BadgeSettles (parse : String → Option Int) (start : ActivitySlice) (acts : List ActivityAct) :
    Prop where
  /-- Once every token started has been ended, nothing is on its way or deferred, and the badge shows
      the newest of the snapshots received and of the held count, where that belongs to the
      generation; with no snapshot received it shows what it did. -/
  settled : openTokens start.generation acts = [] →
    (runActivity parse start acts).pendingUnread = [] ∧
      (runActivity parse start acts).deferredUnread = none ∧
      (receivedCounts start.generation acts = [] →
        (runActivity parse start acts).unreadCount = start.unreadCount) ∧
      (receivedCounts start.generation acts ≠ [] →
        ∃ u, Newest (start.heldUnread.toList ++ receivedCounts start.generation acts) u ∧
          (runActivity parse start acts).unreadCount = some (u.unreadCount : Int))
  nonneg : ∀ n, (runActivity parse start acts).unreadCount = some n → 0 ≤ n
  /-- The held count, once it belongs to the generation, never moves to an older snapshot. -/
  forward : ∀ before after, acts = before ++ after → ∀ held,
    (runActivity parse start before).heldUnread = some held →
      ∃ held', (runActivity parse start acts).heldUnread = some held' ∧ 0 ≤ compareCounts held' held

theorem runActivity_append {acts : List ActivityAct} {act : ActivityAct} :
    runActivity parse start (acts ++ [act]) = act.apply parse (runActivity parse start acts) := by
  simp [runActivity]

theorem badge_begins (h : start.Begins) : Badge start [] start := by
  obtain ⟨hpending, hdeferred, hcount⟩ := h
  have htop : start.top = start.heldUnread := by
    rw [ActivitySlice.top, hdeferred]
    rfl
  refine ⟨rfl, fun d h hd _ => ?_, ?_, fun _ => rfl, ?_, ?_, fun _ => ⟨hpending, hdeferred, hcount⟩,
    fun n hn => ?_⟩
  · rw [hdeferred] at hd
    cases hd
  · rw [htop]
    cases hh : start.heldUnread with
    | none => rfl
    | some u =>
      refine ⟨List.mem_append_left _ (List.mem_singleton.mpr rfl), fun v hv => ?_⟩
      obtain rfl : v = u := by simpa [receivedCounts] using hv
      exact compareCounts_le.mpr (le_refl _)
  · rw [hpending]
    exact fun p hp => absurd hp List.not_mem_nil
  · rw [hpending]
    exact fun p hp => absurd hp List.not_mem_nil
  · rw [hcount] at hn
    obtain ⟨u, _, rfl⟩ := Option.map_eq_some_iff.mp hn
    exact Int.natCast_nonneg _

theorem badge_run (h : start.Begins) (acts : List ActivityAct) :
    Badge start acts (runActivity parse start acts) := by
  induction acts using List.reverseRecOn with
  | nil => exact badge_begins h
  | append_singleton acts act ih =>
    rw [runActivity_append]
    exact (ih.step act).1

theorem forward_run (h : start.Begins) (before after : List ActivityAct) :
    (runActivity parse start before).Forward (runActivity parse start (before ++ after)) := by
  induction after using List.reverseRecOn with
  | nil =>
    rw [List.append_nil]
    exact .refl _
  | append_singleton after act ih =>
    rw [← List.append_assoc, runActivity_append]
    exact ih.trans ((badge_run h _).step act).2

/-- **The badge settles to the newest count**, whatever the order of what happens in a generation. -/
theorem badge_settles (h : start.Begins) (acts : List ActivityAct) : BadgeSettles parse start acts := by
  have hb : Badge start acts (runActivity parse start acts) := badge_run h acts
  refine ⟨fun hopen => ?_, hb.nonneg, fun before after heq held hheld => ?_⟩
  · have hall : ∀ p ∈ (runActivity parse start acts).pendingUnread, p.2.settled = true := by
      intro p hp
      by_contra hne
      have hmem := hb.open_ p hp (Bool.eq_false_iff.mpr hne)
      rw [hopen] at hmem
      cases hmem
    obtain ⟨hpending, hdeferred, hcount⟩ := hb.rest hall
    have htop : (runActivity parse start acts).top = (runActivity parse start acts).heldUnread := by
      rw [ActivitySlice.top, hdeferred]
      rfl
    have htops := hb.tops
    rw [htop] at htops
    refine ⟨hpending, hdeferred, fun hnone => ?_, fun hsome => ?_⟩
    · rw [hcount, h.count]
      cases hheld : (runActivity parse start acts).heldUnread with
      | none => rw [hb.fallback hheld]
      | some u =>
        -- no count but the generation's own
        rw [hheld, hnone, List.append_nil] at htops
        have hstart : start.heldUnread = some u := Option.mem_toList.mp htops.1
        rw [ActivitySlice.serverUnread_of_held hheld, ActivitySlice.serverUnread_of_held hstart]
    · cases hheld : (runActivity parse start acts).heldUnread with
      | none =>
        rw [hheld] at htops
        exact absurd (List.append_eq_nil_iff.mp htops).2 hsome
      | some u =>
        rw [hheld] at htops
        refine ⟨u, htops, ?_⟩
        rw [hcount, ActivitySlice.serverUnread_of_held hheld]
        rfl
  · obtain ⟨held', hheld', hle⟩ := forward_run h before after held hheld
    rw [heq]
    refine ⟨held', hheld', ?_⟩
    rw [← not_lt, compareCounts_lt]
    exact not_lt.mpr hle

end Property

/-- An item optimistically read, confirmed by an event whose count is deferred until the request ends. -/
def testItem : ActivityItem := ⟨7, .unread, "a", none, false, 0⟩

def settlingActs : List ActivityAct :=
  [.count ⟨3, 10, "a"⟩ 0 (some 0), .item (fun _ => false) testItem (some ⟨3, 11, "b"⟩),
    .show { testItem with state := .read, object := 1 } 0 (-1), .removed 8 ⟨4, 12, "c"⟩,
    .ended (fun _ => false) ⟨0, 0, some { testItem with state := .read, object := 1 },
      some { testItem with state := .read, object := 2 }, some ⟨3, 13, "d"⟩, some 1⟩]

theorem badge_settles_sample :
    openTokens 0 settlingActs = [] ∧
      (runActivity (fun _ => none) emptyActivity settlingActs).unreadCount = some 3 ∧
        BadgeSettles (fun _ => none) emptyActivity settlingActs :=
  ⟨by decide, by decide +kernel, badge_settles begins_empty _⟩

/-- The badge settles to the newest of the snapshots received alone, and the held count never moves to
    an older snapshot, whichever generation's it is. -/
def BadgeFollowsReceived (parse : String → Option Int) (start : ActivitySlice) (acts : List ActivityAct) :
    Prop :=
  openTokens start.generation acts = [] → receivedCounts start.generation acts ≠ [] →
    (∃ u, Newest (receivedCounts start.generation acts) u ∧
      (runActivity parse start acts).unreadCount = some (u.unreadCount : Int)) ∧
    ∀ held held', start.serverUnread = some held →
      (runActivity parse start acts).serverUnread = some held' → 0 ≤ compareCounts held' held

/-- A count at revision 10, then a generation of the same epoch. -/
def reconnected : ActivitySlice :=
  beginActivityGeneration (fun _ => none)
    (setActivityUnreadCount emptyActivity ⟨3, 10, "b"⟩ 0 (some 0)) false

/-- **A snapshot older than the held count is not shown**, though it is the only one received. -/
theorem badge_settles_held :
    reconnected.Begins ∧
      ¬ BadgeFollowsReceived (fun _ => none) reconnected [.count ⟨1, 5, "a"⟩ 1 (some 1)] := by
  have hreceived : receivedCounts reconnected.generation [.count ⟨1, 5, "a"⟩ 1 (some 1)] =
      [⟨1, 5, "a"⟩] := by decide
  have hshown : (runActivity (fun _ => none) reconnected [.count ⟨1, 5, "a"⟩ 1 (some 1)]).unreadCount =
      some 3 := by decide +kernel
  refine ⟨begins_beginActivityGeneration _ _ _, fun h => ?_⟩
  obtain ⟨⟨u, ⟨hu, _⟩, hcount⟩, _⟩ := h (by decide) (by decide)
  rw [hreceived] at hu
  obtain rfl := List.mem_singleton.mp hu
  rw [hshown] at hcount
  exact absurd hcount (by decide)

end Smartfire
