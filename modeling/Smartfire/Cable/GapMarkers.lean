/-
  File:      Smartfire/Cable/GapMarkers.lean
  Subject:   One gap marker per person suffices: what `gapped` is for.

  `sync_skipped_for` sets the person's bit in `gapped` and, only if it was clear, pushes a marker
  for them. The bit is cleared by whichever of their sockets first opens or makes its client
  refetch, whether or not it read the marker. A skip that finds the bit set pushes no marker: an
  earlier one stands for it.

  While the bit is set, every client of the person is below the marker it was set for, so the
  marker is still ahead of all of them; once it is cleared, the next skip has a marker of its own.

  * `Server.SkipsTold` -- the property, over the journal of a run;
  * `Server.MarkInv`, `markInv_step` -- the invariant;
  * `skipsTold_of_reach` -- it holds in every run in which clients resume from cursors they were
    given.
-/
import Smartfire.Cable.Server
import Smartfire.Cable.Reader

namespace Smartfire

open Lib

/-! ## 1. The property -/

/-- Whether the frame takes its client past a marker at `seq`: a `welcome` that resumes past it, or
    an event published after it. -/
def Frame.passes (seq : Nat) : Frame → Prop
  | .welcome _ _ resumed through _ => resumed = true ∧ seq ≤ through
  | .batch events => ∃ w ∈ events, seq < w.seq
  | _ => False

/-- After `A`, in which a skip for `user` is recorded last, socket `i` is of a client that was told
    nothing: it was open, or it resumes in `B` from a cursor that was given before. -/
def InScope (eng : Engine) (user : Int) (i : Nat) (A B : List Event) : Prop :=
  (∃ point, Event.greeted i user point ∈ A) ∨
    ∃ x ∈ given user A, Event.greeted i user (some (eng.epoch, (x : Int))) ∈ B

/-- Socket `i` was sent a frame that makes its client refetch. -/
def Told (user : Int) (i : Nat) (B : List Event) : Prop :=
  ∃ f, Event.wrote i user f ∈ B ∧ f.refetches = true

/-- **No skip is lost**: a client that was told nothing of a skip is made to refetch before any
    frame takes it past the marker that stands for the skip. -/
def Server.SkipsTold (eng : Engine) (s : Server) : Prop :=
  ∀ A B C user call seq i f, s.journal = A ++ .skipped user call :: (B ++ .wrote i user f :: C) →
    Event.marked call user seq ∈ s.journal → InScope eng user i A B → f.passes seq → Told user i B

/-- A `hello` that names this server's epoch names a cursor its person was given. -/
def HonestHello (eng : Engine) (s : Server) : ServerAct → Prop
  | .socket i (.hello (some (e, p)) _) =>
    e = eng.epoch → ∀ t ∈ s.sockets[i]?, p ∈ (given t.conn.userId s.journal).map Int.ofNat
  | _ => True

instance (eng : Engine) (s : Server) (a : ServerAct) : Decidable (HonestHello eng s a) := by
  unfold HonestHello
  split <;> infer_instance

/-! ## 2. Readers below a marker -/

/-- The markers pushed for a call. -/
def markers (J : List Event) (call : Nat) (user : Int) (m : Nat) : Prop :=
  Event.marked call user m ∈ J

/-- All the task may yet give or read from lies below the markers. -/
structure Task.Held (eng : Engine) (M : Nat → Prop) (t : Task) : Prop where
  outstanding : ∀ x ∈ t.outstanding, Below M x
  position : ∀ x, t.position eng = some x → Below M x

/-- The task is below the markers, or is about to make its client refetch. -/
structure Task.Owed (eng : Engine) (M : Nat → Prop) (t : Task) : Prop where
  outstanding : ∀ x ∈ t.outstanding, Below M x
  position : t.tells = false → ∀ x, t.position eng = some x → Below M x

theorem Frame.exists_reach_of_passes {seq : Nat} {f : Frame} (h : f.passes seq) :
    ∃ x ∈ f.reach, seq ≤ x := by
  cases f with
  | welcome epoch p resumed through viewer =>
    obtain ⟨rfl, hle⟩ := h
    exact ⟨through, List.mem_cons_of_mem _ (List.mem_singleton_self _), hle⟩
  | batch events =>
    obtain ⟨w, hw, hlt⟩ := h
    exact ⟨w.seq, List.mem_map_of_mem hw, Nat.le_of_lt hlt⟩
  | _ => exact h.elim

/-- A frame that makes its client refetch takes it nowhere. -/
theorem Frame.reach_of_refetches {f : Frame} (h : f.refetches = true) : f.reach = [] := by
  cases f with
  | welcome epoch p resumed through viewer =>
    cases resumed with
    | false => rfl
    | true => cases h
  | resync r => rfl
  | _ => cases h

/-- A client in scope of a skip was greeted by now. -/
theorem InScope.greeted {eng : Engine} {J A B : List Event} {user : Int} {call i : Nat}
    (hscope : InScope eng user i A B) (hJ : J = A ++ .skipped user call :: B) :
    ∃ point, Event.greeted i user point ∈ J := by
  rw [hJ]
  rcases hscope with ⟨point, hA⟩ | ⟨x, _, hB⟩
  · exact ⟨point, List.mem_append_left _ hA⟩
  · exact ⟨_, List.mem_append_right _ (List.mem_cons_of_mem _ hB)⟩

namespace Task

variable {eng : Engine} {cap : Nat} {h : Hub} {t t' : Task} {a : TaskAct} {o : Outcome} {M M' : Nat → Prop}

theorem Held.owed (ht : t.Held eng M) : t.Owed eng M := ⟨ht.outstanding, fun _ => ht.position⟩

theorem held_opening (user : Int) : (opening user).Held eng M :=
  ⟨fun _ hx => (List.not_mem_nil hx).elim, nofun⟩

/-- Tasks that agree in phase and connection hold the same. -/
theorem Held.congr (ht : t.Held eng M) (hp : t'.phase = t.phase) (hc : t'.conn = t.conn) :
    t'.Held eng M := by
  obtain ⟨phase', conn', internal'⟩ := t'
  obtain rfl : phase' = t.phase := hp
  obtain rfl : conn' = t.conn := hc
  exact ⟨ht.outstanding, ht.position⟩

theorem Owed.congr (ht : t.Owed eng M) (hp : t'.phase = t.phase) (hc : t'.conn = t.conn) :
    t'.Owed eng M := by
  obtain ⟨phase', conn', internal'⟩ := t'
  obtain rfl : phase' = t.phase := hp
  obtain rfl : conn' = t.conn := hc
  exact ⟨ht.outstanding, ht.position⟩

/-- A task at or before `head` stays below when markers past `head` come. -/
theorem Owed.mono {head : Nat} (ht : t.Owed eng M) (hout : ∀ x ∈ t.outstanding, x ≤ head)
    (hpos : ∀ x, t.position eng = some x → x ≤ head)
    (hM : ∀ x ≤ head, Below M x → Below M' x) : t.Owed eng M' :=
  ⟨fun x hx => hM x (hout x hx) (ht.outstanding x hx),
    fun htell x hx => hM x (hpos x hx) (ht.position htell x hx)⟩

theorem Held.mono {head : Nat} (ht : t.Held eng M) (hout : ∀ x ∈ t.outstanding, x ≤ head)
    (hpos : ∀ x, t.position eng = some x → x ≤ head)
    (hM : ∀ x ≤ head, Below M x → Below M' x) : t.Held eng M' :=
  ⟨fun x hx => hM x (hout x hx) (ht.outstanding x hx),
    fun x hx => hM x (hpos x hx) (ht.position x hx)⟩

/-- **A step keeps a task below the markers**, unless it clears the person's bit. -/
theorem Held.step (ht : t.Held eng M) (hM : Marked t.conn.userId h.log M)
    (hs : Step eng cap h t a o) (hopen : ∀ p, o.effect ≠ .openPerson p) (href : o.effect ≠ .refetched) :
    o.task.Held eng M where
  outstanding := hs.outstanding hM ht.outstanding fun _ => ht.position
  position := (hs.position hM hopen).resolve_left href ht.position

/-- **A step of an owed task makes its client refetch, or leaves it owed.** -/
theorem Owed.step (ht : t.Owed eng M) (hM : Marked t.conn.userId h.log M)
    (hs : Step eng cap h t a o) (hopen : ∀ p, o.effect ≠ .openPerson p) :
    (∃ f, o.effect = .wrote f ∧ f.refetches = true) ∨ o.task.Owed eng M := by
  have hout : ∀ x ∈ o.task.outstanding, Below M x := hs.outstanding hM ht.outstanding ht.position
  cases htell : t.tells with
  | true =>
    rcases hs.tells htell with hnext | hnone | hwrote
    · exact .inr ⟨hout, fun hf => absurd hnext (by rw [hf]; exact Bool.false_ne_true)⟩
    · exact .inr ⟨hout, fun _ x hx => by rw [hnone] at hx; cases hx⟩
    · exact .inl hwrote
  | false =>
    rcases hs.position hM hopen with href | hpos
    · rcases hs.refetched href with hnext | hnone
      · exact .inr ⟨hout, fun hf => absurd hnext (by rw [hf]; exact Bool.false_ne_true)⟩
      · exact .inr ⟨hout, fun _ x hx => by rw [hnone] at hx; cases hx⟩
    · exact .inr ⟨hout, fun _ => hpos (ht.position htell)⟩

theorem Bounded.outstanding {head : Nat} (hb : t.Bounded head) : ∀ x ∈ t.outstanding, x ≤ head := by
  intro x hx
  rcases List.mem_append.mp hx with hx | hx
  · obtain ⟨e, he, rfl⟩ := List.mem_map.mp hx
    exact hb.pending e he
  · refine hb.gives x ?_
    unfold Task.gives
    split at hx
    · next p hp => rw [hp]; exact hx
    · next frames last hp => rw [hp]; exact hx
    · cases hx

/-- No step goes back to waiting for `hello`. -/
theorem Step.not_opened (hs : Step eng cap h t a o) : o.task.phase ≠ .opened := by
  cases hs with
  | written last hp => cases last <;> exact nofun
  | _ => exact nofun

end Task

/-! ## 3. The invariant -/

namespace Server

variable {eng : Engine} {cap : Nat} {s s' : Server}

/-- While `(user, call)` is in `gapped`, the whole of what the person's clients hold is below the
    call's marker (`standing`); what they held before a skip stays below the marker that stands for
    it (`passed`), and a client in scope of the skip that was not told yet is owed (`owed`). -/
structure MarkInv (eng : Engine) (s : Server) : Prop where
  marks : ∀ user call, Marked user s.hub.log (markers s.journal call user)
  calls : ∀ user call m, Event.marked call user m ∈ s.journal → call < s.skips.length
  greeted : ∀ i user point, Event.greeted i user point ∈ s.journal →
    ∃ t, s.sockets[i]? = some t ∧ t.phase ≠ .opened ∧ t.conn.userId = user
  opening : ∀ t ∈ s.sockets, t.phase = .opened → t.conn.pending = []
  points : ∀ t ∈ s.sockets, ∀ p topics, t.phase = .greeted (some (eng.epoch, p)) topics →
    p.toNat ≤ s.hub.ring.head
  reached : ∀ i user f, Event.wrote i user f ∈ s.journal → ∀ x ∈ f.reach, x ≤ s.hub.ring.head
  standing : ∀ user call, (user, call) ∈ s.gapped →
    (∀ t ∈ s.sockets, t.conn.userId = user → t.Held eng (markers s.journal call user)) ∧
      ∀ x ∈ given user s.journal, Below (markers s.journal call user) x
  passed : ∀ A B user call, s.journal = A ++ .skipped user call :: B →
    ∀ x ∈ given user A, Below (markers s.journal call user) x
  owed : ∀ A B user call i, s.journal = A ++ .skipped user call :: B → InScope eng user i A B →
    ¬ Told user i B → ∀ t, s.sockets[i]? = some t → t.Owed eng (markers s.journal call user)
  told : ∀ A B C user call i f,
    s.journal = A ++ .skipped user call :: (B ++ .wrote i user f :: C) → InScope eng user i A B →
    Told user i B ∨ ∀ x ∈ f.reach, Below (markers s.journal call user) x

theorem MarkInv.skipsTold (hi : s.MarkInv eng) : s.SkipsTold eng := by
  intro A B C user call seq i f hJ hm hscope hpass
  refine (hi.told A B C user call i f hJ hscope).resolve_right fun hbelow => ?_
  obtain ⟨x, hx, hle⟩ := Frame.exists_reach_of_passes hpass
  exact Nat.not_lt.mpr hle (hbelow x hx seq hm)

theorem markInv_empty : empty.MarkInv eng where
  marks _ _ _ hm := (List.not_mem_nil hm).elim
  calls _ _ _ hm := (List.not_mem_nil hm).elim
  greeted _ _ _ hm := (List.not_mem_nil hm).elim
  opening _ ht := (List.not_mem_nil ht).elim
  points _ ht := (List.not_mem_nil ht).elim
  reached _ _ _ hm := (List.not_mem_nil hm).elim
  standing _ _ hm := (List.not_mem_nil hm).elim
  passed A B user call hJ := by
    have hnil : [] = A ++ Event.skipped user call :: B := hJ
    simp at hnil
  owed A B user call i hJ := by
    have hnil : [] = A ++ Event.skipped user call :: B := hJ
    simp at hnil
  told A B C user call i f hJ := by
    have hnil : [] = A ++ Event.skipped user call :: (B ++ .wrote i user f :: C) := hJ
    simp at hnil

/-- Where a task reads from lies within the head. -/
theorem MarkInv.position_le (hi : s.MarkInv eng) (hb : s.Basic) {t : Task} (ht : t ∈ s.sockets) :
    ∀ x, t.position eng = some x → x ≤ s.hub.ring.head := by
  intro x hx
  have hcur := (hb.bounded t ht).cursor
  unfold Task.position at hx
  split at hx
  · next e p topics hp =>
    split at hx
    · next he =>
      obtain ⟨rfl, _⟩ := he
      cases hx
      exact hi.points t ht p topics hp
    · cases hx
  all_goals first
    | (cases hx; exact hcur)
    | cases hx

/-! ## 4. Steps that no socket takes -/

/-- A step of the surroundings: what it leaves of the state, for the invariant. -/
structure Quiet (eng : Engine) (s s' : Server) (es : List Event) : Prop where
  journal : s'.journal = s.journal ++ es
  single : es.length ≤ 1
  noWrote : ∀ i user f, Event.wrote i user f ∉ es
  noGreeted : ∀ i user point, Event.greeted i user point ∉ es
  /-- A socket there is one there was, or has just opened. -/
  back : ∀ (i : Nat) (t' : Task), s'.sockets[i]? = some t' →
    (∃ t, s.sockets[i]? = some t ∧ t'.phase = t.phase ∧ t'.conn = t.conn) ∨
      ∃ user, t' = .opening user
  forth : ∀ (i : Nat) (t : Task), s.sockets[i]? = some t →
    ∃ t', s'.sockets[i]? = some t' ∧ t'.phase = t.phase ∧ t'.conn = t.conn
  hub : s.hub.Grows s'.hub
  skips : s.skips.length ≤ s'.skips.length
  /-- A new marker is pushed past the head. -/
  marked : ∀ user call m, Event.marked call user m ∈ es → s.hub.ring.head < m ∧
    (∃ g ∈ s'.hub.log, g.seq = m ∧ Connection.isGap user g = true) ∧ call < s'.skips.length
  /-- A skip is stood for by a marking call that holds the person's bit, or by a new one. -/
  skipped : ∀ user call, Event.skipped user call ∈ es →
    (user, call) ∈ s.gapped ∨ s.skips.length ≤ call
  gapped : ∀ q ∈ s'.gapped, q ∈ s.gapped ∨ s.skips.length ≤ q.2

section Quiet

variable {es : List Event} (hi : s.MarkInv eng) (hb : s.Basic) (hq : Quiet eng s s' es)

include hq in
theorem Quiet.given_eq (user : Int) : Smartfire.given user s'.journal = Smartfire.given user s.journal := by
  rw [hq.journal, given_append]
  have hnil : Smartfire.given user es = [] := by
    refine List.eq_nil_iff_forall_not_mem.mpr fun x hx => ?_
    obtain ⟨i, f, hmem, _⟩ := mem_given.mp hx
    exact hq.noWrote i user f hmem
  rw [hnil, List.append_nil]

include hq in
/-- What lay below the markers, within the head, lies below the new ones too. -/
theorem Quiet.below {user : Int} {call x : Nat} (hx : x ≤ s.hub.ring.head)
    (hbelow : Below (markers s.journal call user) x) :
    Below (markers s'.journal call user) x := by
  intro m hm
  have hm' : Event.marked call user m ∈ s.journal ++ es := hq.journal ▸ hm
  rcases List.mem_append.mp hm' with hm' | hm'
  · exact hbelow m hm'
  · exact Nat.lt_of_le_of_lt hx (hq.marked user call m hm').1

include hi in
/-- A call that has not begun has no marker. -/
theorem MarkInv.below_fresh {user : Int} {call x : Nat} (hc : s.skips.length ≤ call) :
    Below (markers s.journal call user) x :=
  fun m hm => absurd (hi.calls user call m hm) (Nat.not_lt.mpr hc)

include hi hb hq in
theorem Quiet.held {user : Int} {call : Nat} {t' : Task} (ht' : t' ∈ s'.sockets)
    (hold : ∀ t ∈ s.sockets, t.conn.userId = t'.conn.userId →
      t.Held eng (markers s.journal call user)) : t'.Held eng (markers s'.journal call user) := by
  obtain ⟨i, hi'⟩ := List.mem_iff_getElem?.mp ht'
  rcases hq.back i t' hi' with ⟨t, hti, hp, hc⟩ | ⟨u, rfl⟩
  · have ht : t ∈ s.sockets := List.mem_of_getElem? hti
    exact ((hold t ht (hc ▸ rfl)).mono (hb.bounded t ht).outstanding (hi.position_le hb ht)
      fun x hx => hq.below hx).congr hp hc
  · exact Task.held_opening u

include hi hb hq in
/-- What stood below the marker of a skip's call, before a quiet step or from its very recording. -/
theorem Quiet.stands {user : Int} {call : Nat}
    (hc : (user, call) ∈ s.gapped ∨ s.skips.length ≤ call) :
    (∀ t' ∈ s'.sockets, t'.conn.userId = user → t'.Held eng (markers s'.journal call user)) ∧
      ∀ x ∈ Smartfire.given user s.journal, Below (markers s'.journal call user) x := by
  rcases hc with hc | hc
  · obtain ⟨hheld, hgiven⟩ := hi.standing user call hc
    exact ⟨fun t' ht' hu => hq.held hi hb ht' fun t ht htu => hheld t ht (htu.trans hu),
      fun x hx => hq.below (hb.given user x hx) (hgiven x hx)⟩
  · exact ⟨fun t' ht' _ => hq.held hi hb ht' fun _ _ _ =>
        ⟨fun _ _ => hi.below_fresh hc, fun _ _ => hi.below_fresh hc⟩,
      fun x hx => hq.below (hb.given user x hx) (hi.below_fresh hc)⟩

include hi hb hq in
/-- **A step that no socket takes keeps the invariant.** -/
theorem markInv_quiet : s'.MarkInv eng where
  marks user call m hm := by
    have hm' : Event.marked call user m ∈ s.journal ++ es := hq.journal ▸ hm
    rcases List.mem_append.mp hm' with hm' | hm'
    · obtain ⟨g, hg, hgap⟩ := hi.marks user call m hm'
      exact ⟨g, hq.hub.subset hg, hgap⟩
    · exact (hq.marked user call m hm').2.1
  calls user call m hm := by
    rw [hq.journal] at hm
    rcases List.mem_append.mp hm with hm | hm
    · exact Nat.lt_of_lt_of_le (hi.calls user call m hm) hq.skips
    · exact (hq.marked user call m hm).2.2
  greeted i user point hm := by
    rw [hq.journal] at hm
    rcases List.mem_append.mp hm with hm | hm
    · obtain ⟨t, hti, hp, hu⟩ := hi.greeted i user point hm
      obtain ⟨t', hti', hp', hc'⟩ := hq.forth i t hti
      exact ⟨t', hti', hp' ▸ hp, hc' ▸ hu⟩
    · exact (hq.noGreeted i user point hm).elim
  opening t' ht' hp' := by
    obtain ⟨i, hti'⟩ := List.mem_iff_getElem?.mp ht'
    rcases hq.back i t' hti' with ⟨t, hti, hp, hc⟩ | ⟨u, rfl⟩
    · rw [hc]
      exact hi.opening t (List.mem_of_getElem? hti) (hp ▸ hp')
    · rfl
  points t' ht' p topics hp' := by
    obtain ⟨i, hti'⟩ := List.mem_iff_getElem?.mp ht'
    rcases hq.back i t' hti' with ⟨t, hti, hp, _⟩ | ⟨u, rfl⟩
    · exact Nat.le_trans (hi.points t (List.mem_of_getElem? hti) p topics (hp ▸ hp')) hq.hub.head
    · cases hp'
  reached i user f hm x hx := by
    rw [hq.journal] at hm
    rcases List.mem_append.mp hm with hm | hm
    · exact Nat.le_trans (hi.reached i user f hm x hx) hq.hub.head
    · exact (hq.noWrote i user f hm).elim
  standing user call hm := by
    rw [hq.given_eq user]
    exact hq.stands hi hb (hq.gapped _ hm)
  passed A B user call hJ x hx := by
    rw [hq.journal] at hJ
    rcases append_eq_split hJ hq.single with ⟨B₀, hJ₀, _⟩ | ⟨hes, rfl, _⟩
    · refine hq.below (hb.given user x ?_) (hi.passed A B₀ user call hJ₀ x hx)
      rw [hJ₀, given_append]
      exact List.mem_append_left _ hx
    · exact (hq.stands hi hb (hq.skipped user call (hes ▸ List.mem_singleton_self _))).2 x hx
  owed A B user call i hJ hscope htold t' hti' := by
    rw [hq.journal] at hJ
    rcases append_eq_split hJ hq.single with ⟨B₀, hJ₀, rfl⟩ | ⟨hes, rfl, rfl⟩
    · have hscope₀ : InScope eng user i A B₀ := by
        rcases hscope with hA | ⟨x, hx, hB⟩
        · exact .inl hA
        · rcases List.mem_append.mp hB with hB | hB
          · exact .inr ⟨x, hx, hB⟩
          · exact (hq.noGreeted _ _ _ hB).elim
      have htold₀ : ¬ Told user i B₀ := fun ⟨f, hf, hr⟩ =>
        htold ⟨f, List.mem_append_left _ hf, hr⟩
      rcases hq.back i t' hti' with ⟨t, hti, hp, hc⟩ | ⟨u, rfl⟩
      · have ht : t ∈ s.sockets := List.mem_of_getElem? hti
        exact ((hi.owed A B₀ user call i hJ₀ hscope₀ htold₀ t hti).mono
          (hb.bounded t ht).outstanding (hi.position_le hb ht) fun x hx => hq.below hx).congr hp hc
      · exact (Task.held_opening u).owed
    · rcases hscope with ⟨point, hA⟩ | ⟨_, _, hB⟩
      · obtain ⟨t, hti, _, hu⟩ := hi.greeted i user point hA
        obtain ⟨t'', hti'', _, hc⟩ := hq.forth i t hti
        obtain rfl : t'' = t' := Option.some.inj (hti''.symm.trans hti')
        exact ((hq.stands hi hb (hq.skipped user call (hes ▸ List.mem_singleton_self _))).1 t''
          (List.mem_of_getElem? hti') (hc ▸ hu)).owed
      · cases hB
  told A B C user call i f hJ hscope := by
    rw [hq.journal, ← List.cons_append, ← List.append_assoc] at hJ
    rcases append_eq_split hJ hq.single with ⟨C₀, hJ₀, _⟩ | ⟨hes, _, _⟩
    · rw [List.append_assoc, List.cons_append] at hJ₀
      refine (hi.told A B C₀ user call i f hJ₀ hscope).imp_right fun hreach x hx => ?_
      refine hq.below (hi.reached i user f ?_ x hx) (hreach x hx)
      rw [hJ₀]
      simp
    · exact (hq.noWrote i user f (hes ▸ List.mem_singleton_self _)).elim

end Quiet

/-! ## 5. Steps of a socket -/

end Server

/-- The events a task's step records. -/
def Outcome.events (i : Nat) (o : Outcome) : List Event :=
  match o.effect with
  | .wrote f => [.wrote i o.task.conn.userId f]
  | .openPerson point => [.greeted i o.task.conn.userId point]
  | _ => []

theorem Outcome.mem_events {i : Nat} {o : Outcome} {e : Event} (he : e ∈ o.events i) :
    (∃ f, o.effect = .wrote f ∧ e = .wrote i o.task.conn.userId f) ∨
      ∃ point, o.effect = .openPerson point ∧ e = .greeted i o.task.conn.userId point := by
  unfold events at he
  split at he
  · next f hf => exact .inl ⟨f, hf, List.mem_singleton.mp he⟩
  · next point hp => exact .inr ⟨point, hp, List.mem_singleton.mp he⟩
  · cases he

theorem Outcome.events_single (i : Nat) (o : Outcome) : (o.events i).length ≤ 1 := by
  unfold events
  split <;> simp

namespace Server

variable {eng : Engine} {cap : Nat} {s s' : Server}

theorem moved_events (i : Nat) (o : Outcome) :
    (s.moved i o).journal = s.journal ++ o.events i := moved_journal i o

/-- A task's step moves no marker. -/
theorem markers_moved (i : Nat) (o : Outcome) :
    markers (s.moved i o).journal = markers s.journal := by
  funext call user m
  refine propext ⟨fun hm => ?_, fun hm => ?_⟩
  · have hm' : Event.marked call user m ∈ s.journal ++ o.events i := moved_events (s := s) i o ▸ hm
    rcases List.mem_append.mp hm' with hm' | hm'
    · exact hm'
    · rcases Outcome.mem_events hm' with ⟨_, _, h⟩ | ⟨_, _, h⟩ <;> cases h
  · show Event.marked call user m ∈ (s.moved i o).journal
    rw [moved_events]
    exact List.mem_append_left _ hm

/-- A bit that is still set is not one the task's step clears. -/
theorem gapped_moved {i : Nat} {o : Outcome} {q : Int × Nat} (hq : q ∈ (s.moved i o).gapped) :
    q ∈ s.gapped ∧ (o.task.conn.userId = q.1 →
      o.effect ≠ .refetched ∧ ∀ point, o.effect ≠ .openPerson point) := by
  have hungap : ∀ user, q ∈ s.gapped.filter (fun q => q.1 ≠ user) → q ∈ s.gapped ∧ user ≠ q.1 := by
    intro user hq
    obtain ⟨hq, hne⟩ := List.mem_filter.mp hq
    exact ⟨hq, fun h => of_decide_eq_true hne h.symm⟩
  unfold moved effect at hq
  cases he : o.effect with
  | openPerson point =>
    rw [he] at hq
    obtain ⟨hq, hne⟩ := hungap _ hq
    exact ⟨hq, fun h => absurd h hne⟩
  | refetched =>
    rw [he] at hq
    obtain ⟨hq, hne⟩ := hungap _ hq
    exact ⟨hq, fun h => absurd h hne⟩
  | _ => rw [he] at hq; exact ⟨hq, fun _ => ⟨nofun, nofun⟩⟩

/-- The sockets after a step of socket `i`. -/
theorem sockets_moved {i j : Nat} {o : Outcome} {u : Task}
    (hu : (s.moved i o).sockets[j]? = some u) :
    j ≠ i ∧ s.sockets[j]? = some u ∨ j = i ∧ u = o.task := by
  rw [(moved_fields i o).2.1, List.getElem?_set] at hu
  split at hu
  · next hij =>
    split at hu
    · exact .inr ⟨hij.symm, (Option.some.inj hu).symm⟩
    · cases hu
  · next hij => exact .inl ⟨fun h => hij h.symm, hu⟩

section Moved

variable {i : Nat} {t : Task} {a : TaskAct} {o : Outcome} (hi : s.MarkInv eng) (hb : s.Basic)
  (hti : s.sockets[i]? = some t) (hs : Task.Step eng cap s.hub t a o)

include hi hti hs in
/-- A socket greeted before is not greeted again. -/
theorem MarkInv.not_openPerson {user : Int} {point : Option (String × Int)}
    (hg : Event.greeted i user point ∈ s.journal) :
    t.conn.userId = user ∧ ∀ p, o.effect ≠ .openPerson p := by
  obtain ⟨t', hti', hp, hu⟩ := hi.greeted i user point hg
  obtain rfl : t' = t := Option.some.inj (hti'.symm.trans hti)
  refine ⟨hu, fun p he => ?_⟩
  cases hs with
  | hello _ _ hopen => exact hp hopen
  | _ => cases he

include hi hti hs in
/-- **An owed client is owed after the step, or was told.** -/
theorem MarkInv.owed_moved {A B : List Event} {user : Int} {call j : Nat} {u : Task}
    (hJ : s.journal = A ++ .skipped user call :: B)
    (hscope : InScope eng user j A (B ++ o.events i)) (htold : ¬ Told user j (B ++ o.events i))
    (hu : (s.moved i o).sockets[j]? = some u) : u.Owed eng (markers s.journal call user) := by
  have htold₀ : ¬ Told user j B := fun ⟨f, hf, hr⟩ => htold ⟨f, List.mem_append_left _ hf, hr⟩
  -- a `hello` of this very step resumes below the marker
  by_cases hscope₀ : InScope eng user j A B
  · rcases sockets_moved hu with ⟨hji, hju⟩ | ⟨rfl, rfl⟩
    · exact hi.owed A B user call j hJ hscope₀ htold₀ u hju
    · obtain ⟨point, hg⟩ := hscope₀.greeted hJ
      obtain ⟨rfl, hopen⟩ := hi.not_openPerson hti hs hg
      rcases (hi.owed A B _ call j hJ hscope₀ htold₀ t hti).step (hi.marks _ call) hs hopen with
        ⟨f, hf, hr⟩ | howed
      · refine absurd ⟨f, List.mem_append_right _ ?_, hr⟩ htold
        rw [Outcome.events, hf, hs.userId]
        exact List.mem_singleton_self _
      · exact howed
  · rcases hscope with hA | ⟨x, hx, hB⟩
    · exact absurd (.inl hA) hscope₀
    · rcases List.mem_append.mp hB with hB | hB
      · exact absurd (.inr ⟨x, hx, hB⟩) hscope₀
      · rcases Outcome.mem_events hB with ⟨_, _, h⟩ | ⟨point, he, h⟩
        · cases h
        · cases h
          rcases sockets_moved hu with ⟨hji, _⟩ | ⟨_, rfl⟩
          · exact absurd rfl hji
          · have hbelow := hi.passed A B _ call hJ x hx
            cases hs with
            | hello point topics hp =>
              cases he
              refine ⟨fun y hy => ?_, fun _ y hy => ?_⟩
              · have hnil : t.conn.pending = [] := hi.opening t (List.mem_of_getElem? hti) hp
                have hy' : y ∈ t.conn.pending.map Entry.seq ++ [] := hy
                rw [hnil] at hy'
                cases hy'
              · have hy' : (if eng.epoch = eng.epoch ∧ 0 ≤ (x : Int) then some (x : Int).toNat else none) =
                    some y := hy
                rw [if_pos ⟨rfl, Int.natCast_nonneg x⟩, Int.toNat_natCast] at hy'
                cases hy'
                exact hbelow
            | _ => cases he

include hi hti hs in
/-- **While the bit stands, the person's clients stay below the marker.** -/
theorem MarkInv.standing_moved {user : Int} {call : Nat}
    (hm : (user, call) ∈ (s.moved i o).gapped) :
    (∀ u ∈ (s.moved i o).sockets, u.conn.userId = user →
      u.Held eng (markers s.journal call user)) ∧
      ∀ x ∈ Smartfire.given user (s.moved i o).journal, Below (markers s.journal call user) x := by
  obtain ⟨hmem, hclear⟩ := gapped_moved hm
  obtain ⟨hheld, hgiven⟩ := hi.standing user call hmem
  have ht : t ∈ s.sockets := List.mem_of_getElem? hti
  refine ⟨fun u hu huser => ?_, fun x hx => ?_⟩
  · obtain ⟨j, hju⟩ := List.mem_iff_getElem?.mp hu
    rcases sockets_moved hju with ⟨_, hju⟩ | ⟨_, rfl⟩
    · exact hheld u (List.mem_of_getElem? hju) huser
    · obtain ⟨href, hopen⟩ := hclear huser
      have htu : t.conn.userId = user := hs.userId.symm.trans huser
      exact (hheld t ht htu).step (htu ▸ hi.marks user call) hs hopen href
  · rcases given_moved hs hx with hx | ⟨htu, hx⟩
    · exact hgiven x hx
    · have hcases : x ∈ t.outstanding ∨ t.position eng = some x := Task.mem_gives hx
      rcases hcases with hx | hx
      · exact (hheld t ht htu).outstanding x hx
      · exact (hheld t ht htu).position x hx

include hi hb hti hs in
/-- What a step writes reaches no further than the head. -/
theorem MarkInv.reached_moved {f : Frame} (hf : o.effect = .wrote f) :
    ∀ x ∈ f.reach, x ≤ s.hub.ring.head := by
  have ht : t ∈ s.sockets := List.mem_of_getElem? hti
  have hM : ∀ x ≤ s.hub.ring.head, Below (· = s.hub.ring.head + 1) x :=
    fun x hx m hm => by omega
  have hcases := hs.wrote_below hf (hb.bounded t ht).frames
    (fun x hx => hM x ((hb.bounded t ht).outstanding x hx))
    fun _ x hx => hM x (hi.position_le hb ht x hx)
  intro x hx
  rcases hcases with hr | hbelow
  · rw [Frame.reach_of_refetches hr] at hx
    cases hx
  · exact Nat.le_of_lt_succ (hbelow x hx _ rfl)

include hi hti hs in
/-- **What a step writes to an owed client makes it refetch, or stays below the marker.** -/
theorem MarkInv.told_moved {A B : List Event} {user : Int} {call : Nat} {f : Frame} (hb : s.Basic)
    (hJ : s.journal = A ++ .skipped user call :: B) (hf : o.effect = .wrote f)
    (hscope : InScope eng user i A B) (htold : ¬ Told user i B) :
    ∀ x ∈ f.reach, Below (markers s.journal call user) x := by
  have howed := hi.owed A B user call i hJ hscope htold t hti
  rcases hs.wrote_below hf (hb.bounded t (List.mem_of_getElem? hti)).frames howed.outstanding
    howed.position with hr | hbelow
  · rw [Frame.reach_of_refetches hr]
    exact fun _ hx => (List.not_mem_nil hx).elim
  · exact hbelow

include hi hb hti hs in
/-- **A socket's step keeps the invariant.** -/
theorem markInv_moved (hhonest : ∀ p, o.effect = .openPerson (some (eng.epoch, p)) →
    ∃ x ∈ Smartfire.given t.conn.userId s.journal, p = (x : Int)) :
    (s.moved i o).MarkInv eng := by
  obtain ⟨hhub, hsock, _, hskips⟩ := moved_fields (s := s) i o
  obtain ⟨_, _, hhead, hlog, _⟩ := hs.hub
  have hmark := markers_moved (s := s) i o
  have hsingle := o.events_single i
  have ht : t ∈ s.sockets := List.mem_of_getElem? hti
  have hlt : i < s.sockets.length := (List.getElem?_eq_some_iff.mp hti).1
  have hnew : (s.moved i o).sockets[i]? = some o.task := by
    rw [hsock, List.getElem?_set_self hlt]
  have hskipped : ∀ user call, o.events i ≠ [.skipped user call] := by
    intro user call h
    rcases Outcome.mem_events (h ▸ List.mem_singleton_self _) with ⟨_, _, h⟩ | ⟨_, _, h⟩ <;> cases h
  have hsplit : ∀ {A B user call}, (s.moved i o).journal = A ++ .skipped user call :: B →
      ∃ B₀, s.journal = A ++ .skipped user call :: B₀ ∧ B = B₀ ++ o.events i := by
    intro A B user call h
    rw [moved_events] at h
    exact (append_eq_split h hsingle).resolve_right fun h => hskipped user call h.1
  refine ⟨?_, ?_, ?_, ?_, ?_, ?_, ?_, ?_, ?_, ?_⟩
  · intro user call
    rw [hmark, hhub, hlog]
    exact hi.marks user call
  · intro user call m hm
    rw [hskips]
    exact hi.calls user call m (show markers s.journal call user m from hmark ▸ hm)
  · intro j user point hm
    rw [moved_events] at hm
    rcases List.mem_append.mp hm with hm | hm
    · obtain ⟨u, hu, hp, huser⟩ := hi.greeted j user point hm
      by_cases hji : j = i
      · subst hji
        obtain rfl : u = t := Option.some.inj (hu.symm.trans hti)
        exact ⟨o.task, hnew, hs.not_opened, hs.userId.trans huser⟩
      · refine ⟨u, ?_, hp, huser⟩
        rw [hsock, List.getElem?_set_ne (fun h => hji h.symm)]
        exact hu
    · rcases Outcome.mem_events hm with ⟨_, _, h⟩ | ⟨_, _, h⟩
      · cases h
      · cases h
        exact ⟨o.task, hnew, hs.not_opened, rfl⟩
  · intro u hu hp
    rw [hsock] at hu
    rcases List.mem_or_eq_of_mem_set hu with hu | rfl
    · exact hi.opening u hu hp
    · exact absurd hp hs.not_opened
  · intro u hu p topics hp
    rw [hhub, hhead]
    rw [hsock] at hu
    rcases List.mem_or_eq_of_mem_set hu with hu | rfl
    · exact hi.points u hu p topics hp
    · cases hs with
      | hello point topics' hopen =>
        cases hp
        obtain ⟨x, hx, rfl⟩ := hhonest p rfl
        exact hb.given _ x hx
      | followHello point topic topics' rest authorized more conn hgreeted hf =>
        cases hp
        exact hi.points t ht p _ hgreeted
      | written last hw => cases last <;> cases hp
      | _ => cases hp
  · intro j user f hm x hx
    rw [hhub, hhead]
    rw [moved_events] at hm
    rcases List.mem_append.mp hm with hm | hm
    · exact hi.reached j user f hm x hx
    · rcases Outcome.mem_events hm with ⟨g, hg, h⟩ | ⟨_, _, h⟩
      · cases h
        exact hi.reached_moved hb hti hs hg x hx
      · cases h
  · intro user call hm
    rw [hmark]
    exact hi.standing_moved hti hs hm
  · intro A B user call hJ x hx
    rw [hmark]
    obtain ⟨B₀, hJ₀, _⟩ := hsplit hJ
    exact hi.passed A B₀ user call hJ₀ x hx
  · intro A B user call j hJ hscope htold u hu
    rw [hmark]
    obtain ⟨B₀, hJ₀, rfl⟩ := hsplit hJ
    exact hi.owed_moved hti hs hJ₀ hscope htold hu
  · intro A B C user call j f hJ hscope
    rw [hmark]
    rw [moved_events, ← List.cons_append, ← List.append_assoc] at hJ
    rcases append_eq_split hJ hsingle with ⟨C₀, hJ₀, _⟩ | ⟨hes, hJ₀, _⟩
    · rw [List.append_assoc, List.cons_append] at hJ₀
      exact hi.told A B C₀ user call j f hJ₀ hscope
    · rcases Outcome.mem_events (hes ▸ List.mem_singleton_self _) with ⟨g, hg, h⟩ | ⟨_, _, h⟩
      · cases h
        by_cases htold : Told o.task.conn.userId i B
        · exact .inl htold
        · exact .inr (hi.told_moved hti hs hb hJ₀.symm hg hscope htold)
      · cases h

end Moved

/-! ## 6. Every run with honest clients -/

/-- A step that records no more than a change left unbuilt, and leaves sockets and bits alone. -/
theorem quiet_still {es : List Event} (hJ : s'.journal = s.journal ++ es) (hsingle : es.length ≤ 1)
    (hplain : ∀ e ∈ es, ∃ call, e = .committed call ∨ e = .notBuilt call)
    (hsock : s'.sockets = s.sockets) (hgapped : s'.gapped = s.gapped) (hskips : s'.skips = s.skips)
    (hhub : s.hub.Grows s'.hub) : Quiet eng s s' es where
  journal := hJ
  single := hsingle
  noWrote _ _ _ hm := by obtain ⟨_, h | h⟩ := hplain _ hm <;> cases h
  noGreeted _ _ _ hm := by obtain ⟨_, h | h⟩ := hplain _ hm <;> cases h
  back _ t' ht' := .inl ⟨t', hsock ▸ ht', rfl, rfl⟩
  forth _ t ht := ⟨t, hsock ▸ ht, rfl, rfl⟩
  hub := hhub
  skips := Nat.le_of_eq (congrArg List.length hskips.symm)
  marked _ _ _ hm := by obtain ⟨_, h | h⟩ := hplain _ hm <;> cases h
  skipped _ _ hm := by obtain ⟨_, h | h⟩ := hplain _ hm <;> cases h
  gapped q hq := .inl (hgapped ▸ hq)

/-- The bit found in `gapped` is one of its entries. -/
theorem mem_of_lookup {user : Int} {call : Nat} {l : List (Int × Nat)}
    (h : l.lookup user = some call) : (user, call) ∈ l := by
  induction l with
  | nil => cases h
  | cons q l ih =>
    obtain ⟨v, c⟩ := q
    rw [List.lookup_cons] at h
    split at h
    · next hv =>
      cases h
      rw [beq_iff_eq.mp hv]
      exact List.mem_cons_self ..
    · exact List.mem_cons_of_mem _ (ih h)

/-- **Every step with honest clients keeps the invariant.** -/
theorem markInv_step (hi : s.MarkInv eng) (hb : s.Basic) {a : ServerAct}
    (hguard : HonestHello eng s a) (ha : s.step eng cap a = some s') : s'.MarkInv eng := by
  have hrefl : s.hub.Grows s.hub := .refl s.hub
  have hnone : s.journal = s.journal ++ [] := (List.append_nil _).symm
  have hempty : ∀ e ∈ ([] : List Event), ∃ call, e = .committed call ∨ e = .notBuilt call :=
    fun _ h => (List.not_mem_nil h).elim
  have hcommitted : ∀ n, ∀ e ∈ [Event.committed n], ∃ call, e = .committed call ∨ e = .notBuilt call :=
    fun n e he => ⟨n, .inl (List.mem_singleton.mp he)⟩
  have hbuilt : ∀ n, ∀ e ∈ [Event.notBuilt n], ∃ call, e = .committed call ∨ e = .notBuilt call :=
    fun n e he => ⟨n, .inr (List.mem_singleton.mp he)⟩
  have hskip : s.hub.Grows s.hub.skip := Hub.grows_skip
  cases step_cases ha with
  | opens user =>
    have hq : Quiet eng s
        { s with observers := s.observers + 1, sockets := s.sockets ++ [.opening user] } [] := by
      refine ⟨hnone, Nat.zero_le _, nofun, nofun, fun j t' ht' => ?_,
        fun j t ht => ⟨t, ?_, rfl, rfl⟩, hrefl, Nat.le_refl _, nofun, nofun, fun q hq => .inl hq⟩
      · by_cases hlt : j < s.sockets.length
        · rw [List.getElem?_append_left hlt] at ht'
          exact .inl ⟨t', ht', rfl, rfl⟩
        · rw [List.getElem?_append_right (Nat.not_lt.mp hlt)] at ht'
          exact .inr ⟨user, List.mem_singleton.mp (List.mem_of_getElem? ht')⟩
      · exact (List.getElem?_append_left (List.getElem?_eq_some_iff.mp ht).1).trans ht
    exact markInv_quiet hi hb hq
  | socket i b t o hti hs =>
    refine markInv_moved hi hb hti (Task.step_cases hs) fun p hp => ?_
    obtain ⟨topics, rfl⟩ := Task.step_hello hs hp
    obtain ⟨x, hx, rfl⟩ := List.mem_map.mp (hguard rfl t hti)
    exact ⟨x, hx, rfl⟩
  | publish _ now p =>
    exact markInv_quiet hi hb (quiet_still hnone (Nat.zero_le _) hempty rfl rfl rfl
      (Hub.grows_act (.publish now p)))
  | broadcast =>
    exact markInv_quiet hi hb (quiet_still hnone (Nat.zero_le _) hempty rfl rfl rfl
      Hub.grows_broadcast)
  | evict now =>
    exact markInv_quiet hi hb (quiet_still hnone (Nat.zero_le _) hempty rfl rfl rfl Hub.grows_evict)
  | disconnect user reconnect =>
    have hget : ∀ j, (s.sockets.map (s.hear cap user reconnect))[j]? =
        s.sockets[j]?.map (s.hear cap user reconnect) := fun j => List.getElem?_map
    have hq : Quiet eng s
        { s with
          hub := s.hub.broadcast
          sockets := s.sockets.map (s.hear cap user reconnect) } [] := by
      refine ⟨hnone, Nat.zero_le _, nofun, nofun, fun j t' ht' => ?_, fun j t ht => ?_,
        Hub.grows_broadcast, Nat.le_refl _, nofun, nofun, fun q hq => .inl hq⟩
      · obtain ⟨t, ht, rfl⟩ := Option.map_eq_some_iff.mp ((hget j).symm.trans ht')
        exact .inl ⟨t, ht, hear_eq cap s user reconnect t⟩
      · exact ⟨_, (hget j).trans (congrArg (Option.map _) ht), hear_eq cap s user reconnect t⟩
    exact markInv_quiet hi hb hq
  | still => exact hi
  | presenceSkip now p h0 hg =>
    exact markInv_quiet hi hb (quiet_still hnone (Nat.zero_le _) hempty rfl rfl rfl hskip)
  | commit =>
    exact markInv_quiet hi hb (quiet_still rfl (Nat.le_refl _) (hcommitted _) rfl rfl rfl hrefl)
  | observe call next =>
    exact markInv_quiet hi hb (quiet_still hnone (Nat.zero_le _) hempty rfl rfl rfl hrefl)
  | needed call =>
    exact markInv_quiet hi hb (quiet_still hnone (Nat.zero_le _) hempty rfl rfl rfl hrefl)
  | unneeded call hg =>
    exact markInv_quiet hi hb (quiet_still rfl (Nat.le_refl _) (hbuilt _) rfl rfl rfl hrefl)
  | skip call =>
    exact markInv_quiet hi hb (quiet_still rfl (Nat.le_refl _) (hbuilt _) rfl rfl rfl hskip)
  | skipFor user hu =>
    -- a new call: its marker is not pushed yet
    have hq : Quiet eng s
        ({ s with
          gapped := (user, s.skips.length) :: s.gapped
          skips := s.skips ++ [Skip.marking user] }.record (.skipped user s.skips.length))
        [.skipped user s.skips.length] := by
      refine ⟨rfl, Nat.le_refl _, by simp, by simp, fun _ t' ht' => .inl ⟨t', ht', rfl, rfl⟩,
        fun _ t ht => ⟨t, ht, rfl, rfl⟩, hrefl, ?_, by simp, fun u c hm => ?_, fun q hq => ?_⟩
      · show s.skips.length ≤ (s.skips ++ [Skip.marking user]).length
        simp
      · cases List.mem_singleton.mp hm
        exact .inr (Nat.le_refl _)
      · rcases List.mem_cons.mp hq with rfl | hq
        · exact .inr (Nat.le_refl _)
        · exact .inl hq
    exact markInv_quiet hi hb hq
  | covered user call hu =>
    -- the call that set the bit stands for the skip
    have hq : Quiet eng s (s.record (.skipped user call)) [.skipped user call] := by
      refine ⟨rfl, Nat.le_refl _, by simp, by simp, fun _ t' ht' => .inl ⟨t', ht', rfl, rfl⟩,
        fun _ t ht => ⟨t, ht, rfl, rfl⟩, hrefl, Nat.le_refl _, by simp, fun u c hm => ?_,
        fun q hq => .inl hq⟩
      cases List.mem_singleton.mp hm
      exact .inl (mem_of_lookup hu)
    exact markInv_quiet hi hb hq
  | mark call now user hc =>
    have hlt : call < s.skips.length := (List.getElem?_eq_some_iff.mp hc).1
    have hlen : (s.skips.set call .marked).length = s.skips.length := List.length_set
    have hmem : Entry.gapMarker (s.hub.sequence + 1) now user ∈
        s.hub.log ++ [.gapMarker (s.hub.sequence + 1) now user] :=
      List.mem_append_right _ (List.mem_singleton_self _)
    have hq : Quiet eng s
        ({ s with
          hub := s.hub.pushGap eng.config now user
          skips := s.skips.set call .marked }.record (.marked call user (s.hub.sequence + 1)))
        [.marked call user (s.hub.sequence + 1)] := by
      refine ⟨rfl, Nat.le_refl _, by simp, by simp, fun _ t' ht' => .inl ⟨t', ht', rfl, rfl⟩,
        fun _ t ht => ⟨t, ht, rfl, rfl⟩, Hub.grows_act (.pushGap now user), Nat.le_of_eq hlen.symm,
        fun c u m hm => ?_, by simp, fun q hq => .inl hq⟩
      cases List.mem_singleton.mp hm
      exact ⟨Nat.lt_succ_of_le s.hub.head_le, ⟨_, hmem, rfl, Entry.gapMarker_isGap ..⟩, hlen.symm ▸ hlt⟩
    exact markInv_quiet hi hb hq

theorem markInv_reach (h : ReachWhen (serverSystem eng cap) (HonestHello eng) s) : s.MarkInv eng :=
  h.induct (T := serverSystem eng cap) (I := MarkInv eng)
    (fun s h0 => (show s = .empty from h0) ▸ markInv_empty)
    fun _ _ _ hr hi hg hs => markInv_step hi (basic_reach hr) hg hs

/-- **One gap marker stands for every skip until it is acted on**, in every run whose clients resume
    from cursors they were given. -/
theorem skipsTold_of_reach (h : ReachWhen (serverSystem eng cap) (HonestHello eng) s) :
    s.SkipsTold eng :=
  (markInv_reach h).skipsTold

end Server

/-- An event for person 1. -/
def personEvent : SyncPublication := { audience := .user 1, payload := .empty }

/-- A skip sets the person's bit; a second one finds it set before the first's marker is pushed. An
    event follows the marker, and the open client reads on; then another event. -/
def coveredRun : List ServerAct :=
  List.flatten [greetAfresh 0, [.skipFor 1, .skipFor 1, .mark 0 0, .publish 0 personEvent],
    [.socket 0 (.catchUp 0), .socket 0 .refetch, .socket 0 .poll, .socket 0 (.settle 0 .plain),
      .socket 0 .write, .socket 0 .proceed],
    [.publish 0 personEvent, .socket 0 (.catchUp 0), .socket 0 .poll,
      .socket 0 (.settle 50 .plain), .socket 0 .write]]

/-- What that run sends before the last event. -/
def coveredBefore : List Event :=
  [.greeted 0 1 none, .wrote 0 1 (.welcome "e" 0 false 0 1), .skipped 1 0, .skipped 1 0,
    .marked 0 1 1, .wrote 0 1 (.resync ⟨["user"], "skipped"⟩)]

/-- The client is told of the second skip too, before the event past the marker. -/
theorem skipsTold_of_reach_sample :
    ∃ s, ReachWhen (serverSystem testEngine 16) (HonestHello testEngine) s ∧
      s.journal.take 6 = coveredBefore ∧ s.journal.length = 7 ∧ s.SkipsTold testEngine := by
  obtain ⟨s, hs, hp⟩ := exists_reachWhen_of_replay (T := serverSystem testEngine 16)
    (G := HonestHello testEngine) (s := .empty) (l := coveredRun)
    (p := fun s => s.journal.take 6 = coveredBefore ∧ s.journal.length = 7)
    rfl (by decide +kernel)
  obtain ⟨hbefore, hlen⟩ := of_decide_eq_true hp
  exact ⟨s, hs, hbefore, hlen, Server.skipsTold_of_reach hs⟩

end Smartfire
