/-
  File:      Smartfire/Huddle/Capacity.lean
  Subject:   A huddle never admits past its capacity.

  Only the grants that are not revoked count. An admission adds at most its own user to those who
  hold a slot, a replacement nobody, and everything else only takes slots away; so a check that
  counts before the write bounds what the write leaves.

  * `Evolves` -- what every operation keeps of the grants;
  * `WithinCapacity` -- the property, of a run;
  * `withinCapacity_of_reach` -- it holds of every run.
-/
import Mathlib.Algebra.Order.Group.Int
import Mathlib.Data.Finset.Card
import Smartfire.Huddle.Grants

namespace Smartfire.Huddle

open Lib Smartfire.Huddle.Db

/-! ## 1. What is claimed -/

/-- The user holds a slot of the room. -/
def HoldsSlot (grants : List HuddleGrant) (roomId userId : Nat) (now : Int) : Prop :=
  includes userId (slots grants roomId (now - inCallWindow)) = true

/-- No session has two grants for a membership. -/
def OneLive (grants : List HuddleGrant) : Prop :=
  ((live grants).map fun g => (g.sessionId, g.membershipId)).Nodup

/-- A time that was not renewed. -/
def NotRenewed (before after : Option Int) : Prop := after = before ∨ after = none

/-- What was revoked stays so, and is neither issued nor seen. -/
def StaysRevoked (before after : List HuddleGrant) : Prop :=
  ∀ g ∈ before, g.revoked = true → ∃ g' ∈ after, g'.id = g.id ∧ g'.revokedAt = g.revokedAt ∧
    NotRenewed g.lastIssuedAt g'.lastIssuedAt ∧ NotRenewed g.lastSeenAt g'.lastSeenAt

/-- The room and the user that a checked admission is for. -/
def Op.admits (t : Tables) : Op → Option (Nat × Nat)
  | .issueOnce sessionId membershipId roomId .regular _ =>
    (candidate t sessionId membershipId roomId).map fun c => (c.roomId, c.userId)
  | .recordSeen copy => some (copy.roomId, copy.userId)
  | _ => none

namespace Entry

variable (e : Entry)

/-- An admission of a user who held no slot and isn't exempt leaves at most as many slots taken as
    there are. -/
def Bounded : Prop :=
  ∀ roomId userId room, e.op.admits e.tables = some (roomId, userId) → e.tables.room roomId = some room →
    e.refused = none → ¬ HoldsSlot e.before roomId userId e.readings.check →
    (∀ limit, room.voiceUserLimit = some limit → room.stage = false →
      (e.tables.user userId).all (fun u => !Tables.canAdminister u userId room) = true →
      (distinct (slots e.after roomId (e.readings.write - inCallWindow)) : Int) ≤ limit) ∧
    (room.stage = true → e.tables.stageExempt roomId userId room = false →
      (distinct (e.tables.audience e.after roomId (e.readings.write - inCallWindow)) : Int) ≤
        e.tables.stageAudienceBudget)

/-- Who holds a slot is not refused for want of room. -/
def Readmits : Prop :=
  ∀ roomId userId error, e.op.admits e.tables = some (roomId, userId) → e.refused = some error →
    error.isFull = true → ¬ HoldsSlot e.before roomId userId e.readings.check

/-- A replacement leaves each slot with its user. -/
def Replaces : Prop :=
  ∀ membershipId identities, e.op = .replaceForMembership membershipId identities → e.refused = none →
    ∀ roomId userId, HoldsSlot e.after roomId userId e.readings.scan ↔
      HoldsSlot e.before roomId userId e.readings.scan

end Entry

/-- **No admission goes past the capacity**, in all the transactions of a run. -/
structure WithinCapacity (s : Run) : Prop where
  bounded : ∀ e ∈ s.log, e.Bounded
  readmits : ∀ e ∈ s.log, e.Readmits
  unchanged : ∀ e ∈ s.log, e.refused ≠ none → e.after = e.before
  replaces : ∀ e ∈ s.log, e.Replaces
  single : OneLive s.db.grants ∧ ∀ e ∈ s.log, OneLive e.after
  revoked : s.log.Pairwise fun later earlier => StaysRevoked earlier.after later.after

/-! ## 2. Rows that evolve -/

/-- What no update of a grant changes, and what none brings back. -/
structure Keeps (g g' : HuddleGrant) : Prop where
  id : g'.id = g.id
  session : g'.sessionId = g.sessionId
  membership : g'.membershipId = g.membershipId
  user : g'.userId = g.userId
  room : g'.roomId = g.roomId
  revoked : g.revoked = true → g'.revokedAt = g.revokedAt ∧ NotRenewed g.lastIssuedAt g'.lastIssuedAt ∧
    NotRenewed g.lastSeenAt g'.lastSeenAt

/-- Ids are told apart, and new ones are new. -/
structure Tidy (db : Db) : Prop where
  ids : (db.grants.map HuddleGrant.id).Nodup
  below : ∀ g ∈ db.grants, g.id < db.nextId

/-- What every operation keeps of the grants. -/
structure Evolves (t : Tables) (db db' : Db) : Prop where
  tidy : Tidy db → Tidy db'
  single : OneLive db.grants → OneLive db'.grants
  stays : StaysRevoked db.grants db'.grants
  placed : (∀ g ∈ live db.grants, Placed t g) → ∀ g ∈ live db'.grants, Placed t g

section Rows

variable {t : Tables} {db db' db'' : Db} {g g' : HuddleGrant} {grants : List HuddleGrant} {id : Nat}
  {f : HuddleGrant → HuddleGrant}

theorem mem_live : g ∈ live grants ↔ g ∈ grants ∧ g.revoked = false := by
  simp [live]

theorem NotRenewed.trans {a b c : Option Int} (hab : NotRenewed a b) (hbc : NotRenewed b c) : NotRenewed a c := by
  rcases hbc with rfl | rfl
  · exact hab
  · exact .inr rfl

theorem StaysRevoked.refl (grants : List HuddleGrant) : StaysRevoked grants grants :=
  fun g hg _ => ⟨g, hg, rfl, rfl, .inl rfl, .inl rfl⟩

theorem StaysRevoked.trans {a b c : List HuddleGrant} (hab : StaysRevoked a b) (hbc : StaysRevoked b c) :
    StaysRevoked a c := by
  intro g hg hr
  obtain ⟨g', hg', hid, hrevoked, hissued, hseen⟩ := hab g hg hr
  have hr' : g'.revoked = true := by
    unfold HuddleGrant.revoked at hr ⊢
    rw [hrevoked]
    exact hr
  obtain ⟨g'', hg'', hid', hrevoked', hissued', hseen'⟩ := hbc g' hg' hr'
  exact ⟨g'', hg'', hid'.trans hid, hrevoked'.trans hrevoked, hissued.trans hissued', hseen.trans hseen'⟩

theorem Evolves.refl (t : Tables) (db : Db) : Evolves t db db :=
  ⟨fun h => h, fun h => h, StaysRevoked.refl _, fun h => h⟩

theorem Evolves.trans (h₁ : Evolves t db db') (h₂ : Evolves t db' db'') : Evolves t db db'' :=
  ⟨fun h => h₂.tidy (h₁.tidy h), fun h => h₂.single (h₁.single h), h₁.stays.trans h₂.stays,
    fun h => h₂.placed (h₁.placed h)⟩

theorem Keeps.refl (g : HuddleGrant) : Keeps g g := ⟨rfl, rfl, rfl, rfl, rfl, fun _ => ⟨rfl, .inl rfl, .inl rfl⟩⟩

theorem Keeps.stays_revoked (h : Keeps g g') (hr : g.revoked = true) : g'.revoked = true := by
  unfold HuddleGrant.revoked at hr ⊢
  rw [(h.revoked hr).1]
  exact hr

theorem Placed.keeps (h : Keeps g g') (hp : Placed t g) : Placed t g' := by
  refine ⟨?_, ?_⟩
  · rw [h.membership, h.room, h.user]
    exact hp.member
  · rw [h.user]
    exact hp.human

/-- The keys of the live rows after an update are some of those before. -/
theorem keys_map_sublist (h : ∀ g ∈ grants, Keeps g (f g)) :
    ((live (grants.map f)).map fun g => (g.sessionId, g.membershipId)).Sublist
      ((live grants).map fun g => (g.sessionId, g.membershipId)) := by
  induction grants with
  | nil => exact List.Sublist.refl _
  | cons g grants ih =>
    have hg := h g List.mem_cons_self
    have hrest := ih fun g' hg' => h g' (List.mem_cons_of_mem g hg')
    unfold live at hrest ⊢
    rw [List.map_cons]
    cases hr : g.revoked with
    | true =>
      have hr' := hg.stays_revoked hr
      simpa [hr, hr'] using hrest
    | false =>
      cases hr' : (f g).revoked with
      | true =>
        simp only [List.filter_cons, hr, hr', Bool.not_false, Bool.not_true, if_true, List.map_cons]
        exact hrest.cons _
      | false =>
        simp only [List.filter_cons, hr, hr', Bool.not_false, if_true, List.map_cons, hg.session,
          hg.membership]
        exact hrest.cons_cons _

/-- **An update of rows evolves them.** -/
theorem evolves_map (h : ∀ g ∈ db.grants, Keeps g (f g)) : Evolves t db { db with grants := db.grants.map f } := by
  refine ⟨fun ht => ⟨?_, ?_⟩, fun hs => List.Nodup.sublist (keys_map_sublist h) hs, ?_, ?_⟩
  · have hids : (db.grants.map f).map HuddleGrant.id = db.grants.map HuddleGrant.id := by
      rw [List.map_map]
      exact List.map_congr_left fun g hg => (h g hg).id
    exact hids ▸ ht.ids
  · intro g' hg'
    obtain ⟨g, hg, rfl⟩ := List.mem_map.mp hg'
    rw [(h g hg).id]
    exact ht.below g hg
  · intro g hg hr
    exact ⟨f g, List.mem_map_of_mem hg, (h g hg).id, (h g hg).revoked hr⟩
  · intro hp g' hg'
    obtain ⟨hmem, hr'⟩ := mem_live.mp hg'
    obtain ⟨g, hg, rfl⟩ := List.mem_map.mp hmem
    have hr : g.revoked = false := by
      by_contra hne
      have := (h g hg).stays_revoked (eq_true_of_ne_false hne)
      rw [hr'] at this
      cases this
    exact (hp g (mem_live.mpr ⟨hg, hr⟩)).keeps (h g hg)

theorem evolves_update (h : ∀ g ∈ db.grants, g.id = id → Keeps g (f g)) : Evolves t db (db.update id f) := by
  refine evolves_map fun g hg => ?_
  split
  next hid => exact h g hg hid
  next => exact Keeps.refl g

/-- A row's id tells it. -/
theorem eq_of_id (ht : Tidy db) (hg : g ∈ db.grants) (hg' : g' ∈ db.grants) (h : g.id = g'.id) : g = g' :=
  List.inj_on_of_nodup_map ht.ids hg hg' h

end Rows

/-! ## 3. Release -/

section Release

variable {t : Tables} {db db' : Db} {g g' copy : HuddleGrant} {id : Nat} {ids : List Nat} {now : Int}
  {times : Nat → Int}

theorem find_spec (h : db.find id = some g) : g ∈ db.grants ∧ g.id = id :=
  ⟨List.mem_of_find?_eq_some h, by simpa using List.find?_some h⟩

theorem live_update_revoke :
    live (db.update id fun g => { g with revokedAt := some now, updatedAt := now }).grants =
      (live db.grants).filter (·.id ≠ id) := by
  unfold live Db.update
  induction db.grants with
  | nil => rfl
  | cons g grants ih =>
    rw [List.map_cons, List.filter_cons, List.filter_cons, ih]
    by_cases heq : g.id = id
    · rw [if_pos heq]
      cases hr : g.revoked <;> simp [HuddleGrant.revoked, heq]
    · rw [if_neg heq]
      cases hr : g.revoked <;> simp [heq]

/-- Revoking takes the grant from the live ones. -/
theorem revoke_spec (ht : Tidy db) (h : db.revoke id now = .ok db') :
    Evolves t db db' ∧ live db'.grants = (live db.grants).filter (·.id ≠ id) := by
  have hsame (hnot : ∀ g ∈ live db.grants, g.id ≠ id) :
      live db.grants = (live db.grants).filter (·.id ≠ id) :=
    (List.filter_eq_self.mpr fun g hg => decide_eq_true (hnot g hg)).symm
  unfold Db.revoke at h
  split at h
  next hfind =>
    cases h
    refine ⟨Evolves.refl t db, hsame fun g hg heq => ?_⟩
    have hnone := List.find?_eq_none.mp hfind g (mem_live.mp hg).1
    exact hnone (decide_eq_true heq)
  next g hfind =>
    obtain ⟨hmem, hid⟩ := find_spec hfind
    split at h
    next hr =>
      cases h
      refine ⟨Evolves.refl t db, hsame fun g' hg' heq => ?_⟩
      have hg := eq_of_id ht hmem (mem_live.mp hg').1 (hid.trans heq.symm)
      rw [hg, (mem_live.mp hg').2] at hr
      cases hr
    next hr =>
      split at h
      next => cases h
      next =>
        cases h
        have hlive : ∀ g' ∈ db.grants, g'.id = id → g'.revoked = false := by
          intro g' hg' hid'
          rw [← eq_of_id ht hmem hg' (hid.trans hid'.symm)]
          exact eq_false_of_ne_true hr
        refine ⟨evolves_update fun g' hg' hid' => ?_, live_update_revoke⟩
        exact ⟨rfl, rfl, rfl, rfl, rfl, fun hr' => by rw [hlive g' hg' hid'] at hr'; cases hr'⟩

theorem revokeEach_spec (ht : Tidy db) (h : revokeEach times ids db = .ok db') :
    Evolves t db db' ∧ live db'.grants = (live db.grants).filter (·.id ∉ ids) := by
  induction ids generalizing db db' with
  | nil =>
    cases h
    exact ⟨Evolves.refl t db, by simp⟩
  | cons id ids ih =>
    rw [revokeEach] at h
    split at h
    next => cases h
    next db₁ hrevoke =>
      obtain ⟨he₁, hl₁⟩ := revoke_spec (t := t) ht hrevoke
      obtain ⟨he₂, hl₂⟩ := ih (he₁.tidy ht) h
      refine ⟨he₁.trans he₂, ?_⟩
      rw [hl₂, hl₁, List.filter_filter]
      refine List.filter_congr fun g _ => ?_
      simp [Bool.and_comm]

theorem keeps_releaseIssued (seenAfter : Option Int) (g : HuddleGrant) : Keeps g (releaseIssued t seenAfter g) := by
  unfold releaseIssued
  split
  next => exact ⟨rfl, rfl, rfl, rfl, rfl, fun _ => ⟨rfl, .inr rfl, .inl rfl⟩⟩
  next => exact Keeps.refl g

theorem evolves_markOutOfCall (seenAfter : Option Int) : Evolves t db (db.markOutOfCall t copy seenAfter).2 := by
  unfold Db.markOutOfCall
  split
  next => exact Evolves.refl t db
  next =>
    dsimp only
    have hissued : Evolves t db (db.update copy.id (releaseIssued t seenAfter)) :=
      evolves_update fun g _ _ => keeps_releaseIssued seenAfter g
    split
    next => exact hissued
    next =>
      exact hissued.trans (evolves_update fun g _ _ => ⟨rfl, rfl, rfl, rfl, rfl, fun _ => ⟨rfl, .inl rfl, .inr rfl⟩⟩)

theorem evolves_expire (viewerId : Nat) : Evolves t db (db.expireStageReservations t viewerId now) := by
  unfold Db.expireStageReservations
  dsimp only
  generalize db.grants.filter _ = found
  induction found generalizing db with
  | nil => exact Evolves.refl t db
  | cons g found ih => exact (evolves_markOutOfCall (some (now - inCallWindow))).trans ih

end Release

/-! ## 4. Insertion -/

section Insertion

variable {t : Tables} {db db' : Db} {g g' : HuddleGrant} {gs : List HuddleGrant} {m : MembershipRow}
  {identities : Nat → String} {now : Int}

/-- An insertion adds a live row with the next id. -/
theorem insert_spec (hg : g.revokedAt = none) (h : db.insert g = .ok db') :
    (Placed t g → Evolves t db db') ∧ live db'.grants = live db.grants ++ [{ g with id := db.nextId }] := by
  unfold Db.insert at h
  split at h
  next => cases h
  next hunique =>
    cases h
    have hlive : live (db.grants ++ [{ g with id := db.nextId }]) =
        live db.grants ++ [{ g with id := db.nextId }] := by
      unfold live
      rw [List.filter_append]
      simp [HuddleGrant.revoked, hg]
    refine ⟨fun hp => ⟨fun ht => ⟨?_, ?_⟩, fun hs => ?_, ?_, fun hps g' hg' => ?_⟩, hlive⟩
    · rw [List.map_append]
      refine List.nodup_append'.mpr ⟨ht.ids, List.nodup_singleton _, ?_⟩
      intro id hid hid'
      obtain ⟨g', hg', rfl⟩ := List.mem_map.mp hid
      have hlt := ht.below g' hg'
      have heq : g'.id = db.nextId := by simpa using hid'
      omega
    · intro g' hg'
      rcases List.mem_append.mp hg' with hg' | hg'
      · have := ht.below g' hg'
        dsimp only
        omega
      · cases List.mem_singleton.mp hg'
        exact Nat.lt_succ_self _
    · unfold OneLive at hs ⊢
      rw [hlive, List.map_append]
      refine List.nodup_append'.mpr ⟨hs, List.nodup_singleton _, ?_⟩
      intro key hkey hkey'
      obtain ⟨g', hg', rfl⟩ := List.mem_map.mp hkey
      have heq : (g'.sessionId, g'.membershipId) = (g.sessionId, g.membershipId) := by simpa using hkey'
      rw [Bool.or_eq_true, not_or] at hunique
      exact hunique.2 (List.any_eq_true.mpr ⟨g', hg', by simpa using heq⟩)
    · intro g' hg' _
      exact ⟨g', List.mem_append_left _ hg', rfl, rfl, .inl rfl, .inl rfl⟩
    · rw [hlive] at hg'
      rcases List.mem_append.mp hg' with hg' | hg'
      · exact hps g' hg'
      · cases List.mem_singleton.mp hg'
        exact ⟨hp.member, hp.human⟩

/-- The replacements come after the grants that stay. -/
theorem insertEach_spec (hp : ∀ g ∈ gs, Placed t (replacement m (identities g.id) now g))
    (h : insertEach m identities now gs db = .ok db') : Evolves t db db' ∧
      (∀ g ∈ live db.grants, g ∈ live db'.grants) ∧
      (∀ g ∈ gs, ∃ id, { replacement m (identities g.id) now g with id := id } ∈ live db'.grants) ∧
      ∀ g' ∈ live db'.grants, g' ∈ live db.grants ∨
        ∃ g ∈ gs, ∃ id, g' = { replacement m (identities g.id) now g with id := id } := by
  induction gs generalizing db db' with
  | nil =>
    cases h
    exact ⟨Evolves.refl t db, fun g hg => hg, fun g hg => absurd hg List.not_mem_nil, fun g hg => .inl hg⟩
  | cons g gs ih =>
    rw [insertEach] at h
    split at h
    next => cases h
    next db₁ hinsert =>
      obtain ⟨he₁, hl₁⟩ := insert_spec (t := t) rfl hinsert
      obtain ⟨he₂, hkept, hnew, hall⟩ := ih (fun g' hg' => hp g' (List.mem_cons_of_mem g hg')) h
      refine ⟨(he₁ (hp g List.mem_cons_self)).trans he₂, fun g' hg' => hkept g' ?_, fun g' hg' => ?_,
        fun g' hg' => ?_⟩
      · rw [hl₁]
        exact List.mem_append_left _ hg'
      · rcases List.mem_cons.mp hg' with rfl | hg'
        · refine ⟨db.nextId, hkept _ ?_⟩
          rw [hl₁]
          exact List.mem_append_right _ (List.mem_singleton_self _)
        · exact hnew g' hg'
      · rcases hall g' hg' with hg' | ⟨g₀, hg₀, id, rfl⟩
        · rw [hl₁] at hg'
          rcases List.mem_append.mp hg' with hg' | hg'
          · exact .inl hg'
          · exact .inr ⟨g, List.mem_cons_self, db.nextId, List.mem_singleton.mp hg'⟩
        · exact .inr ⟨g₀, List.mem_cons_of_mem g hg₀, id, rfl⟩

end Insertion

/-! ## 5. Admission -/

section Admission

variable {t : Tables} {db db' : Db} {g g' copy : HuddleGrant} {c : Candidate} {r : Readings}
  {sessionId membershipId roomId userId : Nat} {identity : String} {now : Int} {admission : Admission}

/-- The live grants are those before, or of the user in the room. -/
def Adds (roomId userId : Nat) (before after : List HuddleGrant) : Prop :=
  ∀ g ∈ live after, g ∈ live before ∨ g.roomId = roomId ∧ g.userId = userId

/-- The membership a candidate has. -/
def Db.Candidate.HasMember (c : Candidate) (t : Tables) (membershipId : Nat) : Prop :=
  (∃ m ∈ t.memberships, m.id = membershipId ∧ m.roomId = c.roomId ∧ m.userId = c.userId) ∧
    (t.user c.userId).any (·.role ≠ 2) = true

theorem candidate_spec (h : candidate t sessionId membershipId roomId = some c) : c.HasMember t membershipId := by
  obtain ⟨userId, -, h⟩ := Option.bind_eq_some_iff.mp h
  obtain ⟨user, huser, h⟩ := Option.bind_eq_some_iff.mp h
  obtain ⟨m, hm, h⟩ := Option.bind_eq_some_iff.mp h
  obtain ⟨room, -, h⟩ := Option.bind_eq_some_iff.mp h
  split at h
  next heligible =>
    cases h
    have hfound := List.find?_some hm
    simp only [Bool.and_eq_true, decide_eq_true_eq] at hfound heligible
    refine ⟨⟨m, List.mem_of_find?_eq_some hm, hfound.1.1, rfl, hfound.2⟩, ?_⟩
    rw [huser, Option.any_some]
    exact decide_eq_true heligible.1.2
  next => cases h

theorem Placed.of_candidate (hc : c.HasMember t membershipId) (hm : g.membershipId = membershipId)
    (hroom : g.roomId = c.roomId) (huser : g.userId = c.userId) : Placed t g := by
  subst hm
  exact ⟨by rw [hroom, huser]; exact hc.1, by rw [huser]; exact hc.2⟩

theorem issueNew_spec (hc : c.HasMember t membershipId)
    (h : issueNew t db c sessionId membershipId identity now = .ok db') :
    Evolves t db db' ∧ Adds c.roomId c.userId db.grants db'.grants := by
  unfold issueNew at h
  split at h
  next => cases h
  next roomName =>
    obtain ⟨he, hl⟩ := insert_spec (t := t) rfl h
    refine ⟨he (Placed.of_candidate hc rfl rfl rfl), fun g hg => ?_⟩
    rw [hl] at hg
    rcases List.mem_append.mp hg with hg | hg
    · exact .inl hg
    · cases List.mem_singleton.mp hg
      exact .inr ⟨rfl, rfl⟩

/-- A grant of the candidate's membership is of the candidate. -/
theorem eq_candidate (hids : (t.memberships.map MembershipRow.id).Nodup) (hc : c.HasMember t membershipId)
    (hp : Placed t g) (hm : g.membershipId = membershipId) : g.roomId = c.roomId ∧ g.userId = c.userId := by
  obtain ⟨m, hmem, hid, hroom, huser⟩ := hp.member
  obtain ⟨m', hmem', hid', hroom', huser'⟩ := hc.1
  have heq := List.inj_on_of_nodup_map hids hmem hmem' (hid.trans (hm.trans hid'.symm))
  subst heq
  exact ⟨hroom.symm.trans hroom', huser.symm.trans huser'⟩

/-- The rows of an update whose id is that of a live row. -/
theorem mem_live_update {f : HuddleGrant → HuddleGrant} (ht : Tidy db) (hg : g ∈ live db.grants)
    (hg' : g' ∈ live (db.update g.id f).grants) : g' ∈ live db.grants ∨ g' = f g := by
  obtain ⟨hmem, hr⟩ := mem_live.mp hg'
  obtain ⟨g₀, hg₀, heq⟩ := List.mem_map.mp hmem
  split at heq
  next hid =>
    rw [eq_of_id ht hg₀ (mem_live.mp hg).1 hid] at heq
    exact .inr heq.symm
  next =>
    subst heq
    exact .inl (mem_live.mpr ⟨hg₀, hr⟩)

theorem issueChecked_spec (ht : Tidy db) (hco : Coherent t db.grants) (hc : c.HasMember t membershipId)
    (h : issueChecked t db c sessionId membershipId identity r = .ok db') :
    Evolves t db db' ∧ Adds c.roomId c.userId db.grants db'.grants := by
  unfold issueChecked at h
  split at h
  next => cases h
  next db₁ hrevoke =>
    obtain ⟨he₁, hl₁⟩ := revokeEach_spec (t := t) ht hrevoke
    have ht₁ := he₁.tidy ht
    have hsub : ∀ g ∈ live db₁.grants, g ∈ live db.grants := fun g hg => by
      rw [hl₁] at hg
      exact (List.mem_filter.mp hg).1
    have adds {db₂ : Db} (hsub₂ : ∀ g ∈ live db₂.grants, g ∈ live db.grants)
        (hnew : Adds c.roomId c.userId db₂.grants db'.grants) : Adds c.roomId c.userId db.grants db'.grants :=
      fun g hg => (hnew g hg).imp_left (hsub₂ g)
    split at h
    next =>
      obtain ⟨he₂, hadds⟩ := issueNew_spec hc h
      exact ⟨he₁.trans he₂, adds hsub hadds⟩
    next g hfind =>
      have hg := List.mem_of_find?_eq_some hfind
      have hkey := List.find?_some hfind
      simp only [Bool.and_eq_true, decide_eq_true_eq] at hkey
      split at h
      next =>
        -- the session's grant is issued again
        split at h
        next =>
          cases h
          have hlive : ∀ g' ∈ db₁.grants, g'.id = g.id → g'.revoked = false := by
            intro g' hg' hid
            rw [eq_of_id ht₁ hg' (mem_live.mp hg).1 hid]
            exact (mem_live.mp hg).2
          refine ⟨he₁.trans (evolves_update fun g' hg' hid => ⟨rfl, rfl, rfl, rfl, rfl, fun hr => ?_⟩),
            fun g' hg' => ?_⟩
          · rw [hlive g' hg' hid] at hr
            cases hr
          · rcases mem_live_update ht₁ hg hg' with hg' | rfl
            · exact .inl (hsub g' hg')
            · exact .inr (eq_candidate (g := g) hco.ids hc (hco.placed g (hsub g hg)) hkey.2)
        next => cases h
      next =>
        split at h
        next => cases h
        next db₂ hrevoke₂ =>
          obtain ⟨he₂, hl₂⟩ := revoke_spec (t := t) ht₁ hrevoke₂
          obtain ⟨he₃, hadds⟩ := issueNew_spec hc h
          refine ⟨(he₁.trans he₂).trans he₃, adds (fun g' hg' => hsub g' ?_) hadds⟩
          rw [hl₂] at hg'
          exact (List.mem_filter.mp hg').1

/-- **An issued grant adds at most its user.** -/
theorem issueOnce_spec (ht : Tidy db) (hco : Coherent t db.grants)
    (h : db.issueOnce t sessionId membershipId roomId admission identity r = .ok db') :
    Evolves t db db' ∧ ∃ c, candidate t sessionId membershipId roomId = some c ∧
      (admission = .regular → t.checkCapacity db.grants c.roomId c.userId r.check = .ok ()) ∧
      Adds c.roomId c.userId db.grants db'.grants := by
  unfold Db.issueOnce at h
  split at h
  next => cases h
  next c hcand =>
    split at h
    next => cases h
    next hcheck =>
      obtain ⟨he, hadds⟩ := issueChecked_spec ht hco (candidate_spec hcand) h
      refine ⟨he, c, hcand, fun hregular => ?_, hadds⟩
      rw [if_pos hregular] at hcheck
      exact hcheck

/-- **A sighting adds at most its user.** -/
theorem recordSeen_spec {first : Bool} (ht : Tidy db)
    (hlive : (live db.grants).any fun g => g.id = copy.id && g.roomId = copy.roomId && g.userId = copy.userId)
    (h : db.recordSeen t copy r = .ok (first, db')) : Evolves t db db' ∧
      t.checkCapacity db.grants copy.roomId copy.userId r.check = .ok () ∧
      Adds copy.roomId copy.userId db.grants db'.grants := by
  obtain ⟨g, hg, hsame⟩ := List.any_eq_true.mp hlive
  simp only [Bool.and_eq_true, decide_eq_true_eq] at hsame
  obtain ⟨⟨hid, hroom⟩, huser⟩ := hsame
  unfold Db.recordSeen at h
  split at h
  next => cases h
  next hcheck =>
    split at h
    next =>
      cases h
      exact ⟨Evolves.refl t db, hcheck, fun g hg => .inl hg⟩
    next =>
      cases h
      rw [← hid]
      have hseen : Evolves t db (db.update g.id fun g => { g with lastSeenAt := some r.write }) := by
        refine evolves_update fun g' hg' hid' => ⟨rfl, rfl, rfl, rfl, rfl, fun hr => ?_⟩
        rw [eq_of_id ht hg' (mem_live.mp hg).1 hid', (mem_live.mp hg).2] at hr
        cases hr
      have hadds : Adds copy.roomId copy.userId db.grants
          (db.update g.id fun g => { g with lastSeenAt := some r.write }).grants := by
        intro g' hg'
        rcases mem_live_update ht hg hg' with hg' | rfl
        · exact .inl hg'
        · exact .inr ⟨hroom, huser⟩
      split
      next =>
        unfold Db.recordActivity
        split
        next =>
          rw [← hid]
          refine ⟨hseen.trans (evolves_update fun g _ _ => ⟨rfl, rfl, rfl, rfl, rfl, fun _ => ⟨rfl, .inl rfl, .inl rfl⟩⟩),
            hcheck, fun g' hg' => ?_⟩
          have hrow : { g with lastSeenAt := some r.write } ∈
              live (db.update g.id fun g => { g with lastSeenAt := some r.write }).grants :=
            mem_live.mpr ⟨List.mem_map.mpr ⟨g, (mem_live.mp hg).1, if_pos rfl⟩, (mem_live.mp hg).2⟩
          rcases mem_live_update (hseen.tidy ht) hrow hg' with hg' | rfl
          · exact hadds g' hg'
          · exact .inr ⟨hroom, huser⟩
        next => exact ⟨hseen, hcheck, hadds⟩
      next => exact ⟨hseen, hcheck, hadds⟩

end Admission

/-! ## 6. Counting -/

section Counting

variable {t : Tables} {grants before counted counted' : List HuddleGrant} {g : HuddleGrant}
  {roomId userId : Nat} {room : RoomRow} {now since since' : Int} {error : HuddleError}

theorem distinct_le (h : ∀ g ∈ counted', g ∈ counted ∨ g.userId = userId) :
    distinct counted' ≤ distinct counted + 1 := by
  unfold distinct
  rw [← List.card_toFinset, ← List.card_toFinset]
  refine (Finset.card_le_card ?_).trans (Finset.card_insert_le userId _)
  intro u hu
  obtain ⟨g, hg, rfl⟩ := List.mem_map.mp (List.mem_toFinset.mp hu)
  rcases h g hg with hg | heq
  · exact Finset.mem_insert_of_mem (List.mem_toFinset.mpr (List.mem_map_of_mem hg))
  · exact Finset.mem_insert.mpr (.inl heq)

theorem mem_slots : g ∈ slots grants roomId since ↔ g ∈ live grants ∧ g.roomId = roomId ∧ g.holds since = true := by
  simp [slots]

/-- Who holds a slot since a later time holds one since an earlier. -/
theorem holds_mono (h : since' ≤ since) (hg : g.holds since = true) : g.holds since' = true := by
  have mono {at' : Option Int} (ha : after since at' = true) : after since' at' = true := by
    obtain ⟨t, ht, hlt⟩ := (Option.any_eq_true _ _).mp ha
    exact (Option.any_eq_true _ _).mpr ⟨t, ht, decide_eq_true (lt_of_le_of_lt h (of_decide_eq_true hlt))⟩
  exact (Bool.or_eq_true _ _).mpr (((Bool.or_eq_true _ _).mp hg).imp mono mono)

theorem slots_of_adds (h : Adds roomId userId before grants) (hle : since' ≤ since) :
    ∀ g ∈ slots grants roomId since, g ∈ slots before roomId since' ∨ g.userId = userId := by
  intro g hg
  obtain ⟨hlive, hroom, hholds⟩ := mem_slots.mp hg
  rcases h g hlive with hg | ⟨-, huser⟩
  · exact .inl (mem_slots.mpr ⟨hg, hroom, holds_mono hle hholds⟩)
  · exact .inr huser

theorem audience_of_adds (h : Adds roomId userId before grants) (hle : since' ≤ since) :
    ∀ g ∈ t.audience grants roomId since, g ∈ t.audience before roomId since' ∨ g.userId = userId := by
  intro g hg
  obtain ⟨hslot, hlistener⟩ := List.mem_filter.mp hg
  exact (slots_of_adds h hle g hslot).imp_left fun hg => List.mem_filter.mpr ⟨hg, hlistener⟩

theorem not_includes_audience (h : ¬ HoldsSlot grants roomId userId now) :
    includes userId (t.audience grants roomId (now - inCallWindow)) = false := by
  refine eq_false_of_ne_true fun hin => h ?_
  obtain ⟨g, hg, huser⟩ := List.any_eq_true.mp hin
  exact List.any_eq_true.mpr ⟨g, (List.mem_filter.mp hg).1, huser⟩

/-- A check passed by somebody without a slot: there was one to take. -/
theorem checkCapacity_ok (h : t.checkCapacity grants roomId userId now = .ok ()) (hroom : t.room roomId = some room)
    (hslot : ¬ HoldsSlot grants roomId userId now) :
    (∀ limit, room.voiceUserLimit = some limit → room.stage = false →
      (t.user userId).all (fun u => !Tables.canAdminister u userId room) = true →
      (distinct (slots grants roomId (now - inCallWindow)) : Int) < limit) ∧
    (room.stage = true → t.stageExempt roomId userId room = false →
      (distinct (t.audience grants roomId (now - inCallWindow)) : Int) < t.stageAudienceBudget) := by
  unfold Tables.checkCapacity at h
  rw [hroom] at h
  dsimp only at h
  split at h
  next => cases h
  next hvoice =>
    constructor
    · intro limit hlimit hstage hexempt
      unfold Tables.checkVoice at hvoice
      rw [hlimit] at hvoice
      dsimp only at hvoice
      rw [hstage, if_neg Bool.false_ne_true] at hvoice
      split at hvoice
      next => cases hvoice
      next user huser =>
        rw [huser, Option.all_some, Bool.not_eq_true'] at hexempt
        rw [hexempt, if_neg Bool.false_ne_true, eq_false_of_ne_true hslot] at hvoice
        split at hvoice
        next => cases hvoice
        next hfree => simpa using hfree
    · intro hstage hexempt
      unfold Tables.checkStage Tables.stageAudienceUsage at h
      rw [hstage, hexempt] at h
      dsimp only at h
      rw [not_includes_audience hslot] at h
      split at h
      next =>
        split at h
        next => cases h
        next hfree => simpa using hfree
      next hne => exact absurd rfl hne

/-- Who holds a slot on a stage without being exempt is counted in its audience. -/
theorem includes_audience (hco : Coherent t grants) (hroom : t.room roomId = some room) (hstage : room.stage = true)
    (hexempt : t.stageExempt roomId userId room = false) (hslot : HoldsSlot grants roomId userId now) :
    includes userId (t.audience grants roomId (now - inCallWindow)) = true := by
  obtain ⟨g, hg, huser⟩ := List.any_eq_true.mp hslot
  obtain ⟨hlive, hgroom, -⟩ := mem_slots.mp hg
  have huser := of_decide_eq_true huser
  have hplaced := hco.placed g hlive
  obtain ⟨m, hm, hid, hmroom, hmuser⟩ := hplaced.member
  obtain ⟨u, hu, hhuman⟩ := (Option.any_eq_true _ _).mp hplaced.human
  have hrole : m.stageRole.isSome = true := by
    refine hco.roles m hm ?_ ?_
    · rw [hmroom, hgroom, hroom, Option.any_some]
      exact hstage
    · rw [hmuser, hu, Option.any_some]
      exact hhuman
  have hnot := List.any_eq_false.mp hexempt m hm
  rw [huser] at hu hmuser
  rw [hgroom] at hmroom
  simp only [hmroom, hmuser, hu, decide_true, Bool.true_and, Option.any_some, Bool.or_eq_true,
    decide_eq_true_eq, not_or] at hnot
  obtain ⟨⟨⟨hhost, hspeaker⟩, hadmin⟩, hcreator⟩ := hnot
  have hlistener : m.stageRole = some .listener := by
    cases hr : m.stageRole with
    | none => rw [hr] at hrole; cases hrole
    | some role =>
      cases role with
      | listener => rfl
      | speaker => exact absurd hr hspeaker
      | host => exact absurd hr hhost
  refine List.any_eq_true.mpr ⟨g, List.mem_filter.mpr ⟨hg, ?_⟩, decide_eq_true huser⟩
  unfold Tables.isListener
  rw [Bool.and_eq_true, Bool.and_eq_true]
  refine ⟨⟨List.any_eq_true.mpr ⟨m, hm, ?_⟩, ?_⟩, ?_⟩
  · simp [hid, hmroom, hmuser, hgroom, huser, hlistener]
  · rw [huser, hu, Option.any_some]
    exact decide_eq_true hadmin
  · rw [hgroom, hroom, huser, Option.any_some]
    exact decide_eq_true fun heq => hcreator heq.symm

/-- **Who holds a slot is not refused for want of room.** -/
theorem not_holdsSlot_of_full (hco : Coherent t grants) (h : t.checkCapacity grants roomId userId now = .error error)
    (hfull : error.isFull = true) : ¬ HoldsSlot grants roomId userId now := by
  intro hslot
  unfold Tables.checkCapacity at h
  split at h
  next => cases h; cases hfull
  next room hroom =>
    split at h
    next e hvoice =>
      cases h
      unfold Tables.checkVoice at hvoice
      split at hvoice
      next => cases hvoice
      next =>
        split at hvoice
        next => cases hvoice
        next =>
          split at hvoice
          next => cases hvoice; cases hfull
          next =>
            dsimp only at hvoice
            rw [show includes userId (slots grants roomId (now - inCallWindow)) = true from hslot] at hvoice
            simp at hvoice
    next =>
      unfold Tables.checkStage Tables.stageAudienceUsage at h
      split at h
      next hstage =>
        rw [Bool.and_eq_true, Bool.not_eq_true'] at hstage
        dsimp only at h
        rw [includes_audience hco hroom hstage.1 hstage.2 hslot] at h
        simp at h
      next => cases h

end Counting

/-! ## 7. A change of role -/

section Replacement

variable {t : Tables} {db db' : Db} {r : Readings} {membershipId roomId userId : Nat} {identities : Nat → String}

/-- A replaced slot is taken: it counts as issued now. -/
theorem holds_replacement (m : MembershipRow) (identity : String) (now : Int) (g : HuddleGrant) (id : Nat) :
    HuddleGrant.holds { replacement m identity now g with id := id } (now - inCallWindow) = true := by
  refine (Bool.or_eq_true _ _).mpr (.inr (decide_eq_true ?_))
  unfold inCallWindow
  omega

/-- **A replacement keeps its user's slot and adds no other.** -/
theorem replaceForMembership_spec (ht : Tidy db) (hco : Coherent t db.grants)
    (h : db.replaceForMembership t membershipId identities r = .ok db') : Evolves t db db' ∧
      ∀ roomId userId, HoldsSlot db'.grants roomId userId r.scan ↔ HoldsSlot db.grants roomId userId r.scan := by
  unfold Db.replaceForMembership at h
  split at h
  next => cases h
  next m hm =>
    dsimp only at h
    split at h
    next => cases h
    next db₁ hrevoke =>
      obtain ⟨he₁, hl₁⟩ := revokeEach_spec (t := t) ht hrevoke
      have hmid : m.id = membershipId := by simpa using List.find?_some hm
      have hmem := List.mem_of_find?_eq_some hm
      -- the membership's grants are of its room and its user
      have hof : ∀ g ∈ live db.grants, g.membershipId = membershipId → m.roomId = g.roomId ∧ m.userId = g.userId := by
        intro g hg hgm
        obtain ⟨m', hm', hid', hroom', huser'⟩ := (hco.placed g hg).member
        have heq := List.inj_on_of_nodup_map hco.ids hmem hm' (hmid.trans (hgm.symm.trans hid'.symm))
        subst heq
        exact ⟨hroom', huser'⟩
      have hmine {g : HuddleGrant} (hg : g ∈ ((live db.grants).filter (·.membershipId = membershipId)).filter
          (·.holds (r.scan - inCallWindow))) : g ∈ live db.grants ∧ g.membershipId = membershipId ∧
            g.holds (r.scan - inCallWindow) = true := by
        obtain ⟨hg, hholds⟩ := List.mem_filter.mp hg
        obtain ⟨hg, hgm⟩ := List.mem_filter.mp hg
        exact ⟨hg, of_decide_eq_true hgm, hholds⟩
      obtain ⟨he₂, hkept, hnew, hall⟩ := insertEach_spec (t := t) (fun g hg => by
        obtain ⟨hg, hgm, -⟩ := hmine hg
        exact ⟨⟨m, hmem, rfl, rfl, (hof g hg hgm).2⟩, (hco.placed g hg).human⟩) h
      refine ⟨he₁.trans he₂, fun roomId userId => ⟨fun hslot => ?_, fun hslot => ?_⟩⟩
      · obtain ⟨g', hg', huser⟩ := List.any_eq_true.mp hslot
        obtain ⟨hlive, hroom, hholds⟩ := mem_slots.mp hg'
        rcases hall g' hlive with hg | ⟨g, hg, id, rfl⟩
        · rw [hl₁] at hg
          exact List.any_eq_true.mpr ⟨g', mem_slots.mpr ⟨(List.mem_filter.mp hg).1, hroom, hholds⟩, huser⟩
        · obtain ⟨hg, hgm, hholds⟩ := hmine hg
          exact List.any_eq_true.mpr ⟨g, mem_slots.mpr ⟨hg, (hof g hg hgm).1.symm.trans hroom, hholds⟩, huser⟩
      · obtain ⟨g, hg, huser⟩ := List.any_eq_true.mp hslot
        obtain ⟨hlive, hroom, hholds⟩ := mem_slots.mp hg
        by_cases hgm : g.membershipId = membershipId
        · obtain ⟨id, hid⟩ := hnew g (List.mem_filter.mpr ⟨List.mem_filter.mpr ⟨hlive, decide_eq_true hgm⟩, hholds⟩)
          exact List.any_eq_true.mpr ⟨_, mem_slots.mpr ⟨hid, (hof g hlive hgm).1.trans hroom,
            holds_replacement m _ r.scan g id⟩, huser⟩
        · refine List.any_eq_true.mpr ⟨g, mem_slots.mpr ⟨hkept g ?_, hroom, hholds⟩, huser⟩
          rw [hl₁]
          refine List.mem_filter.mpr ⟨hlive, decide_eq_true fun hin => hgm ?_⟩
          obtain ⟨g₀, hg₀, hid⟩ := List.mem_map.mp hin
          obtain ⟨hlive₀, hgm₀⟩ := List.mem_filter.mp hg₀
          rw [← eq_of_id ht (mem_live.mp hlive₀).1 (mem_live.mp hlive).1 hid]
          exact of_decide_eq_true hgm₀

end Replacement

/-! ## 8. Runs -/

section Runs

variable {s s' : Run} {t : Tables} {db db' : Db} {op : Op} {r : Readings} {error : HuddleError}

/-- What an operation that succeeds keeps, and what it adds if it admits somebody. -/
theorem run_spec (ht : Tidy db) (hco : Coherent t db.grants) (hlive : op.onLive db.grants = true)
    (h : op.run t db r = .ok db') : Evolves t db db' ∧ ∀ roomId userId, op.admits t = some (roomId, userId) →
      t.checkCapacity db.grants roomId userId r.check = .ok () ∧ Adds roomId userId db.grants db'.grants := by
  cases op with
  | issueOnce sessionId membershipId expected admission identity =>
    obtain ⟨he, c, hcand, hcheck, hadds⟩ := issueOnce_spec ht hco h
    refine ⟨he, fun roomId userId hadmits => ?_⟩
    cases admission with
    | regular =>
      rw [Op.admits, hcand] at hadmits
      cases hadmits
      exact ⟨hcheck rfl, hadds⟩
    | afkMove => cases hadmits
  | recordSeen copy =>
    cases hseen : db.recordSeen t copy r with
    | error e => rw [Op.run, hseen] at h; cases h
    | ok out =>
      rw [Op.run, hseen] at h
      cases h
      obtain ⟨he, hcheck, hadds⟩ := recordSeen_spec ht hlive hseen
      refine ⟨he, fun roomId userId hadmits => ?_⟩
      cases hadmits
      exact ⟨hcheck, hadds⟩
  | markOutOfCall copy seenAfter =>
    cases h
    exact ⟨evolves_markOutOfCall seenAfter, fun _ _ hadmits => by cases hadmits⟩
  | revoke id => exact ⟨(revoke_spec ht h).1, fun _ _ hadmits => by cases hadmits⟩
  | revokeScope scope id => exact ⟨(revokeEach_spec ht h).1, fun _ _ hadmits => by cases hadmits⟩
  | replaceForMembership membershipId identities =>
    exact ⟨(replaceForMembership_spec ht hco h).1, fun _ _ hadmits => by cases hadmits⟩
  | expireStageReservations viewerId =>
    cases h
    exact ⟨evolves_expire viewerId, fun _ _ hadmits => by cases hadmits⟩

theorem revoke_error {id : Nat} {now : Int} (h : db.revoke id now = .error error) : error.isFull = false := by
  unfold Db.revoke at h
  split at h
  next => cases h
  next =>
    split at h
    next => cases h
    next =>
      split at h
      next => cases h; rfl
      next => cases h

theorem revokeEach_error {times : Nat → Int} {ids : List Nat} (h : revokeEach times ids db = .error error) :
    error.isFull = false := by
  induction ids generalizing db with
  | nil => cases h
  | cons id ids ih =>
    rw [revokeEach] at h
    split at h
    next hrevoke => cases h; exact revoke_error hrevoke
    next => exact ih h

theorem issueNew_error {c : Candidate} {sessionId membershipId : Nat} {identity : String} {now : Int}
    (h : issueNew t db c sessionId membershipId identity now = .error error) : error.isFull = false := by
  unfold issueNew Db.insert at h
  split at h
  next => cases h; rfl
  next =>
    split at h
    next => cases h; rfl
    next => cases h

theorem issueChecked_error {c : Candidate} {sessionId membershipId : Nat} {identity : String}
    (h : issueChecked t db c sessionId membershipId identity r = .error error) : error.isFull = false := by
  unfold issueChecked at h
  split at h
  next hrevoke => cases h; exact revokeEach_error hrevoke
  next =>
    split at h
    next => exact issueNew_error h
    next =>
      split at h
      next =>
        split at h
        next => cases h
        next => cases h; rfl
      next =>
        split at h
        next hrevoke => cases h; exact revoke_error hrevoke
        next => exact issueNew_error h

/-- A refusal for want of room comes from the check. -/
theorem full_of_error (h : op.run t db r = .error error) (hfull : error.isFull = true) {roomId userId : Nat}
    (hadmits : op.admits t = some (roomId, userId)) : t.checkCapacity db.grants roomId userId r.check = .error error := by
  cases op with
  | issueOnce sessionId membershipId expected admission identity =>
    cases admission with
    | afkMove => cases hadmits
    | regular =>
      obtain ⟨c, hcand, heq⟩ := Option.map_eq_some_iff.mp hadmits
      cases heq
      rw [Op.run, Db.issueOnce, hcand] at h
      dsimp only at h
      rw [if_pos rfl] at h
      split at h
      next hcheck => cases h; exact hcheck
      next => rw [issueChecked_error h] at hfull; cases hfull
  | recordSeen copy =>
    cases hadmits
    rw [Op.run, Db.recordSeen] at h
    cases hcheck : t.checkCapacity db.grants copy.roomId copy.userId r.check with
    | error e => rw [hcheck] at h; cases h; rfl
    | ok _ =>
      rw [hcheck] at h
      dsimp only at h
      split at h <;> cases h
  | _ => cases hadmits

/-- What a run keeps. -/
structure Inv (s : Run) : Prop where
  tidy : Tidy s.db
  coherent : Coherent s.tables s.db.grants
  past : ∀ e ∈ s.log, StaysRevoked e.after s.db.grants
  within : WithinCapacity s

theorem inv_start (h : huddleSystem.start s) : Inv s := by
  obtain ⟨hgrants, hlog, hco⟩ := h
  have hone : OneLive s.db.grants := by
    rw [hgrants]
    exact List.nodup_nil
  refine ⟨⟨?_, ?_⟩, hgrants ▸ hco, ?_, ⟨?_, ?_, ?_, ?_, ⟨hone, ?_⟩, ?_⟩⟩
  · rw [hgrants]
    exact List.nodup_nil
  · rw [hgrants]
    exact fun g hg => absurd hg List.not_mem_nil
  all_goals rw [hlog]
  · exact fun e he => absurd he List.not_mem_nil
  · exact fun e he => absurd he List.not_mem_nil
  · exact fun e he => absurd he List.not_mem_nil
  · exact fun e he => absurd he List.not_mem_nil
  · exact fun e he => absurd he List.not_mem_nil
  · exact fun e he => absurd he List.not_mem_nil
  · exact List.Pairwise.nil

/-- The run after an entry that keeps to the capacity. -/
theorem WithinCapacity.next (h : WithinCapacity s) (db' : Db) {e : Entry} {now : Int} (hpast : ∀ f ∈ s.log, StaysRevoked f.after e.after)
    (hbounded : e.Bounded) (hreadmits : e.Readmits) (hunchanged : e.refused ≠ none → e.after = e.before)
    (hreplaces : e.Replaces) (hone : OneLive e.after) (hdb : db'.grants = e.after) :
    WithinCapacity { s with db := db', now, log := e :: s.log } :=
  ⟨List.forall_mem_cons.mpr ⟨hbounded, h.bounded⟩, List.forall_mem_cons.mpr ⟨hreadmits, h.readmits⟩,
    List.forall_mem_cons.mpr ⟨hunchanged, h.unchanged⟩, List.forall_mem_cons.mpr ⟨hreplaces, h.replaces⟩,
    ⟨hdb ▸ hone, List.forall_mem_cons.mpr ⟨hone, h.single.2⟩⟩, List.pairwise_cons.mpr ⟨hpast, h.revoked⟩⟩

/-- A refused transaction. -/
theorem inv_refused (h : Inv s) (hrun : op.run s.tables s.db r = .error error) :
    Inv { s with now := r.write, log := ⟨s.tables, op, r, s.db.grants, s.db.grants, some error⟩ :: s.log } := by
  refine ⟨h.tidy, h.coherent, List.forall_mem_cons.mpr ⟨StaysRevoked.refl _, h.past⟩,
    h.within.next s.db h.past (fun _ _ _ _ _ hnone => by cases hnone) ?_ (fun _ => rfl)
      (fun _ _ _ hnone => by cases hnone) h.within.single.1 rfl⟩
  intro roomId userId e hadmits he hfull
  cases he
  exact not_holdsSlot_of_full h.coherent (full_of_error hrun hfull hadmits) hfull

/-- A transaction that commits. -/
theorem inv_committed (h : Inv s) (hlive : op.onLive s.db.grants = true) (hle : r.check ≤ r.write)
    (hrun : op.run s.tables s.db r = .ok db') :
    Inv { s with
      db := db'
      now := r.write
      log := ⟨s.tables, op, r, s.db.grants, db'.grants, none⟩ :: s.log } := by
  obtain ⟨he, hadmission⟩ := run_spec h.tidy h.coherent hlive hrun
  have hpast : ∀ f ∈ s.log, StaysRevoked f.after db'.grants := fun f hf => (h.past f hf).trans he.stays
  refine ⟨he.tidy h.tidy, ⟨he.placed h.coherent.placed, h.coherent.ids, h.coherent.pairs, h.coherent.roles⟩,
    List.forall_mem_cons.mpr ⟨StaysRevoked.refl _, hpast⟩,
    h.within.next db' hpast ?_ (fun _ _ _ _ hnone => by cases hnone) (fun hne => absurd rfl hne) ?_
      (he.single h.within.single.1) rfl⟩
  · intro roomId userId room hadmits hroom _ hslot
    obtain ⟨hcheck, hadds⟩ := hadmission roomId userId hadmits
    obtain ⟨hvoice, hstage⟩ := checkCapacity_ok hcheck hroom hslot
    have hsince : r.check - inCallWindow ≤ r.write - inCallWindow := by omega
    refine ⟨fun limit hlimit hkind hexempt => ?_, fun hkind hexempt => ?_⟩
    · have hfree := hvoice limit hlimit hkind hexempt
      have hcount := distinct_le (slots_of_adds hadds hsince)
      dsimp only
      omega
    · have hfree := hstage hkind hexempt
      have hcount := distinct_le (audience_of_adds (t := s.tables) hadds hsince)
      dsimp only
      omega
  · intro membershipId identities hop _
    cases hop
    exact (replaceForMembership_spec h.tidy h.coherent hrun).2

theorem inv_step {a : Label} (h : Inv s) (hs : huddleSystem.step s a = some s') : Inv s' := by
  cases a with
  | transact op r =>
    change Run.step s (.transact op r) = some s' at hs
    rw [Run.step] at hs
    split at hs
    next hg =>
      obtain ⟨-, hscan, hwrite, hlive⟩ := hg
      split at hs
      next hrun => cases hs; exact inv_refused h hrun
      next hrun => cases hs; exact inv_committed h hlive (hscan.trans hwrite) hrun
    next => cases hs
  | elsewhere tables =>
    change Run.step s (.elsewhere tables) = some s' at hs
    rw [Run.step] at hs
    split at hs
    next hco =>
      cases hs
      exact ⟨h.tidy, hco, h.past, ⟨h.within.bounded, h.within.readmits, h.within.unchanged, h.within.replaces,
        h.within.single, h.within.revoked⟩⟩
    next => cases hs

/-- **A huddle never admits past its capacity**, in every run of transactions by any users, sessions and
    devices. -/
theorem withinCapacity_of_reach (h : Reach huddleSystem s) : WithinCapacity s :=
  (h.induct (fun _ => inv_start) fun _ _ _ _ hi _ => inv_step hi).within

end Runs

/-- Two members of a voice room for one. -/
def sampleTables : Tables where
  session := fun id => if id = 1 ∨ id = 2 then some id else none
  user := fun id => if id = 1 ∨ id = 2 then some ⟨0, 0⟩ else none
  memberships := [⟨1, 10, 1, none, false⟩, ⟨2, 10, 2, none, false⟩]
  room := fun id => if id = 10 then some ⟨9, false, false, some 1⟩ else none
  stageAudienceBudget := 100
  afkRoom := true
  roomName := fun _ => some "huddle"

def sampleReadings (now : Int) : Readings := ⟨now, now, fun _ => now, now⟩

/-- The second member is refused, then moved in for being away; the first one's reservation is seen all
    the same, and the second one's role changes. -/
def fullRun : List Label :=
  [.transact (.issueOnce 1 1 10 .regular "a") (sampleReadings 100000000),
    .transact (.issueOnce 2 2 10 .regular "b") (sampleReadings 101000000),
    .transact (.issueOnce 2 2 10 .afkMove "b") (sampleReadings 102000000),
    .transact (.recordSeen { newGrant "a" "huddle" 1 1 1 10 none false 100000000 with id := 1 })
      (sampleReadings 110000000),
    .transact (.replaceForMembership 2 fun _ => "c") (sampleReadings 121000000)]

theorem withinCapacity_of_reach_sample : ∃ s, Reach huddleSystem s ∧
    s.log.map Entry.refused = [none, none, none, some .huddleRoomFull, none] ∧
    (slots s.db.grants 10 (121000000 - inCallWindow)).map HuddleGrant.id = [1, 3] ∧ WithinCapacity s := by
  obtain ⟨s, hs, hp⟩ := exists_reachWhen_of_replay (T := huddleSystem) (G := fun _ _ => True)
    (s := ⟨sampleTables, ⟨[], 1⟩, 0, []⟩) (l := fullRun)
    (p := fun s => s.log.map Entry.refused = [none, none, none, some .huddleRoomFull, none] ∧
      (slots s.db.grants 10 (121000000 - inCallWindow)).map HuddleGrant.id = [1, 3])
    ⟨rfl, rfl, by decide +kernel⟩ (by decide +kernel)
  obtain ⟨hlog, hslots⟩ := of_decide_eq_true hp
  exact ⟨s, hs, hlog, hslots, withinCapacity_of_reach hs⟩

end Smartfire.Huddle
