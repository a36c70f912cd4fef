/-
  File:      Smartfire/Cable/Server.lean
  Subject:   The sync server: the hub, the tasks of its sockets, and the calls of the broadcast
             points (crates/cable/src/server.rs), as one system of atomic steps.

  `sync_wanted` and `sync_skipped_for` are not one step each: between the lock acquisitions of a
  call everything else may move. A call in flight is therefore part of the state, and each of its
  steps is a label; so is each step of a socket's task (Cable/Task.lean), so that every
  interleaving of the two is a run. The journal records what happened in order: it is read by the
  statements only, never by a step.

  * `Server`, `ServerAct`, `Server.step`, `serverSystem`;
  * `Event`, `given` -- the journal, and the cursors it shows as given to a person's clients;
  * `Server.Basic`, `basic_reach` -- the observers are the open sockets, and nothing any task holds
    or has given lies past the ring's head.
-/
import Smartfire.Cable.Task
import Smartfire.Lib.Runs

namespace Smartfire

open Lib

/-! ## 1. The state -/

/-- A call of `Server::sync_wanted` for one change, by what it does next. -/
inductive Wanted where
  /-- The change is committed; `observers` is read next. -/
  | committed
  /-- No observer was seen; `gap_needed` is next. -/
  | unobserved
  /-- A gap is needed; `skip` is next. -/
  | gapNeeded
  /-- The call has returned whether the event is wanted. -/
  | answered (wanted : Bool)
deriving DecidableEq, Repr

/-- A call of `Server::sync_skipped_for` that set the person's bit: its marker is next, or pushed. -/
inductive Skip where
  | marking (user : Int)
  | marked
deriving DecidableEq, Repr

/-- What happened, for the record. -/
inductive Event where
  /-- The change of the `call`-th `sync_wanted` call is committed. -/
  | committed (call : Nat)
  /-- That call was answered `false`: the change's event is not built. -/
  | notBuilt (call : Nat)
  /-- Socket `socket` of `user` had its `hello` with this resume point counted. -/
  | greeted (socket : Nat) (user : Int) (point : Option (String × Int))
  /-- Socket `socket` of `user` was sent `frame`. -/
  | wrote (socket : Nat) (user : Int) (frame : Frame)
  /-- A skip for `user`, for which the marker of the `call`-th marking call stands. -/
  | skipped (user : Int) (call : Nat)
  /-- That call's marker was pushed at `seq`. -/
  | marked (call : Nat) (user : Int) (seq : Nat)
deriving DecidableEq, Repr

/-- The cursors given to clients of `user`. -/
def given (user : Int) (journal : List Event) : List Nat :=
  journal.flatMap fun
    | .wrote _ v f => if v = user then f.cursors else []
    | _ => []

/-- The sync server and its sockets. -/
structure Server where
  hub : Hub
  /-- `PresencePublications::observers`. -/
  observers : Nat
  /-- `People::gapped`: who has a marker nobody has acted on, each with the (ghost) number of the
      call whose marker it is. -/
  gapped : List (Int × Nat)
  sockets : List Task
  wanted : List Wanted
  skips : List Skip
  journal : List Event

/-- The atomic steps of the server and its surroundings. -/
inductive ServerAct where
  /-- A socket of `user` opens (`SyncObserver::new`). -/
  | opens (user : Int)
  | socket (i : Nat) (a : TaskAct)
  | publish (now : Nat) (p : SyncPublication)
  | broadcast
  | evict (now : Nat)
  /-- `Server::disconnect`: the person's internal channel. -/
  | disconnect (user : Int) (reconnect : Bool)
  /-- `Server::sync_presence`, whole under the presence lock, with the publication it makes of a
      change. -/
  | presence (now : Nat) (p : Option SyncPublication)
  /-- A change commits; its `sync_wanted` call begins. -/
  | commit
  /-- The call reads `observers`. -/
  | observe (call : Nat)
  /-- The call reads `gap_needed`. -/
  | needed (call : Nat)
  /-- The call runs `skip`. -/
  | skip (call : Nat)
  /-- `sync_skipped_for` inserts the person into `gapped`. -/
  | skipFor (user : Int)
  /-- The call that did pushes its marker. -/
  | mark (call : Nat) (now : Nat)

namespace Server

/-! ## 2. The steps -/

variable (eng : Engine) (cap : Nat) (s : Server)

/-- A server nobody has used. -/
def empty : Server := ⟨.empty, 0, [], [], [], [], []⟩

def record (e : Event) : Server := { s with journal := s.journal ++ [e] }

/-- `Engine::refetched`, and `OpenPerson::new`'s part of it. -/
def ungap (user : Int) : Server := { s with gapped := s.gapped.filter fun q => q.1 ≠ user }

/-- What a task's step does elsewhere. -/
def effect (i : Nat) (user : Int) : Effect → Server
  | .quiet => s
  | .wrote f => s.record (.wrote i user f)
  | .openPerson point => (s.ungap user).record (.greeted i user point)
  | .refetched => s.ungap user
  | .dropPerson => s
  | .dropObserver => { s with observers := s.observers - 1 }

/-- The step of socket `i`'s task to `o`. -/
def moved (i : Nat) (o : Outcome) : Server :=
  effect { s with hub := o.hub, sockets := s.sockets.set i o.task } i o.task.conn.userId o.effect

/-- `Ring::skip` at the next sequence, if there is a gap to record. -/
def skipIfNeeded : Server := if s.hub.ring.gapNeeded then { s with hub := s.hub.skip } else s

/-- The person's open sockets hear their internal channel. -/
def hear (user : Int) (reconnect : Bool) (t : Task) : Task :=
  if t.conn.userId = user ∧ t.phase ≠ .closed then
    { t with internal := t.internal.send (nextPowerOfTwo cap) ⟨s.hub.sequence + 1, some reconnect⟩ }
  else t

def step : ServerAct → Option Server
  | .opens user =>
    some { s with observers := s.observers + 1, sockets := s.sockets ++ [.opening user] }
  | .socket i a =>
    match s.sockets[i]? with
    | some t =>
      match t.step eng cap s.hub a with
      | some o => some (s.moved i o)
      | none => none
    | none => none
  | .publish now p => some { s with hub := s.hub.publish eng.config now p }
  | .broadcast => some { s with hub := s.hub.broadcast }
  | .evict now => some { s with hub := s.hub.evict eng.config now }
  | .disconnect user reconnect =>
    some { s with hub := s.hub.broadcast, sockets := s.sockets.map (s.hear cap user reconnect) }
  | .presence now p =>
    if s.observers = 0 then some s.skipIfNeeded
    else match p with
      | some p => some { s with hub := s.hub.publish eng.config now p }
      | none => some s
  | .commit => some ({ s with wanted := s.wanted ++ [Wanted.committed] }.record (.committed s.wanted.length))
  | .observe call =>
    match s.wanted[call]? with
    | some .committed =>
      let next := if 0 < s.observers then .answered true else .unobserved
      some { s with wanted := s.wanted.set call next }
    | _ => none
  | .needed call =>
    match s.wanted[call]? with
    | some .unobserved =>
      if s.hub.ring.gapNeeded then some { s with wanted := s.wanted.set call .gapNeeded }
      else some ({ s with wanted := s.wanted.set call (.answered false) }.record (.notBuilt call))
    | _ => none
  | .skip call =>
    match s.wanted[call]? with
    | some .gapNeeded =>
      some ({ s with hub := s.hub.skip, wanted := s.wanted.set call (.answered false) }.record
        (.notBuilt call))
    | _ => none
  | .skipFor user =>
    match s.gapped.lookup user with
    | some call => some (s.record (.skipped user call))
    | none =>
      some ({ s with
        gapped := (user, s.skips.length) :: s.gapped
        skips := s.skips ++ [Skip.marking user] }.record (.skipped user s.skips.length))
  | .mark call now =>
    match s.skips[call]? with
    | some (.marking user) =>
      some ({ s with
        hub := s.hub.pushGap eng.config now user
        skips := s.skips.set call .marked }.record (.marked call user (s.hub.sequence + 1)))
    | _ => none

end Server

/-- The sync server from its start, under any order of steps. -/
def serverSystem (eng : Engine) (cap : Nat) : System Server ServerAct where
  start s := s = .empty
  step := Server.step eng cap

/-! ## 3. All a step can be -/

namespace Server

variable (eng : Engine) (cap : Nat) (s : Server)

/-- The steps of the server, one constructor for each kind. -/
inductive Step : ServerAct → Server → Prop where
  | opens (user : Int) :
      Step (.opens user)
        { s with observers := s.observers + 1, sockets := s.sockets ++ [.opening user] }
  | socket (i : Nat) (a : TaskAct) (t : Task) (o : Outcome) (hi : s.sockets[i]? = some t)
      (hs : t.step eng cap s.hub a = some o) : Step (.socket i a) (s.moved i o)
  | publish (a : ServerAct) (now : Nat) (p : SyncPublication) :
      Step a { s with hub := s.hub.publish eng.config now p }
  | broadcast : Step .broadcast { s with hub := s.hub.broadcast }
  | evict (now : Nat) : Step (.evict now) { s with hub := s.hub.evict eng.config now }
  | disconnect (user : Int) (reconnect : Bool) :
      Step (.disconnect user reconnect)
        { s with hub := s.hub.broadcast, sockets := s.sockets.map (s.hear cap user reconnect) }
  | still (a : ServerAct) : Step a s
  | presenceSkip (now : Nat) (p : Option SyncPublication) (h0 : s.observers = 0)
      (hg : s.hub.ring.gapNeeded = true) : Step (.presence now p) { s with hub := s.hub.skip }
  | commit :
      Step .commit
        ({ s with wanted := s.wanted ++ [Wanted.committed] }.record (.committed s.wanted.length))
  | observe (call : Nat) (next : Wanted) :
      Step (.observe call) { s with wanted := s.wanted.set call next }
  | needed (call : Nat) : Step (.needed call) { s with wanted := s.wanted.set call .gapNeeded }
  | unneeded (call : Nat) (hg : s.hub.ring.gapNeeded = false) :
      Step (.needed call)
        ({ s with wanted := s.wanted.set call (.answered false) }.record (.notBuilt call))
  | skip (call : Nat) :
      Step (.skip call)
        ({ s with hub := s.hub.skip, wanted := s.wanted.set call (.answered false) }.record
          (.notBuilt call))
  | skipFor (user : Int) (hu : s.gapped.lookup user = none) :
      Step (.skipFor user)
        ({ s with
          gapped := (user, s.skips.length) :: s.gapped
          skips := s.skips ++ [Skip.marking user] }.record (.skipped user s.skips.length))
  | covered (user : Int) (call : Nat) (hu : s.gapped.lookup user = some call) :
      Step (.skipFor user) (s.record (.skipped user call))
  | mark (call now : Nat) (user : Int) (hc : s.skips[call]? = some (.marking user)) :
      Step (.mark call now)
        ({ s with
          hub := s.hub.pushGap eng.config now user
          skips := s.skips.set call .marked }.record (.marked call user (s.hub.sequence + 1)))

variable {eng cap s}

/-- **A step is one of its kinds.** -/
theorem step_cases {a : ServerAct} {s' : Server} (hs : s.step eng cap a = some s') :
    Step eng cap s a s' := by
  cases a with
  | opens user => cases hs; exact .opens user
  | socket i a =>
    rw [step] at hs
    split at hs
    · next t hi =>
      split at hs
      · next o ho => cases hs; exact .socket i a t o hi ho
      · cases hs
    · cases hs
  | publish now p => cases hs; exact .publish _ now p
  | broadcast => cases hs; exact .broadcast
  | evict now => cases hs; exact .evict now
  | disconnect user reconnect => cases hs; exact .disconnect user reconnect
  | presence now p =>
    simp only [step] at hs
    split at hs
    · next h0 =>
      cases hs
      unfold skipIfNeeded
      split
      · next hg => exact .presenceSkip now p h0 hg
      · exact .still _
    · split at hs
      · cases hs; exact .publish _ now _
      · cases hs; exact .still _
  | commit => cases hs; exact .commit
  | observe call =>
    simp only [step] at hs
    split at hs
    · cases hs; exact .observe call _
    · cases hs
  | needed call =>
    simp only [step] at hs
    split at hs
    · split at hs
      · cases hs; exact .needed call
      · next hg => cases hs; exact .unneeded call (Bool.eq_false_iff.mpr hg)
    · cases hs
  | skip call =>
    simp only [step] at hs
    split at hs
    · cases hs; exact .skip call
    · cases hs
  | skipFor user =>
    simp only [step] at hs
    split at hs
    · next call hu => cases hs; exact .covered user call hu
    · next hu => cases hs; exact .skipFor user hu
  | mark call now =>
    simp only [step] at hs
    split at hs
    · next user hc => cases hs; exact .mark call now user hc
    · cases hs

end Server

/-! ## 4. What every run keeps -/

section Given

variable {user : Int} {J : List Event}

theorem mem_given {x : Nat} :
    x ∈ given user J ↔ ∃ i f, Event.wrote i user f ∈ J ∧ x ∈ f.cursors := by
  unfold given
  rw [List.mem_flatMap]
  constructor
  · rintro ⟨e, he, hx⟩
    cases e with
    | wrote i v f =>
      by_cases hv : v = user
      · subst hv
        exact ⟨i, f, he, by simpa using hx⟩
      · simp [hv] at hx
    | _ => cases hx
  · rintro ⟨i, f, he, hx⟩
    exact ⟨_, he, by simpa using hx⟩

theorem given_append (J' : List Event) : given user (J ++ J') = given user J ++ given user J' :=
  List.flatMap_append ..

end Given

/-- Whether a socket still counts as an observer. -/
def Task.observes (t : Task) : Bool := t.phase ≠ .closed

/-- The observers are the open sockets; all that is held or was given lies within the head. -/
structure Server.Basic (s : Server) : Prop where
  observers : s.observers = s.sockets.countP Task.observes
  bounded : ∀ t ∈ s.sockets, t.Bounded s.hub.ring.head
  given : ∀ user, ∀ x ∈ given user s.journal, x ≤ s.hub.ring.head

/-- A task that steps is open, and stays so but for dropping its observer. -/
theorem Task.Step.observes {eng : Engine} {cap : Nat} {h : Hub} {t : Task} {a : TaskAct}
    {o : Outcome}
    (hs : Task.Step eng cap h t a o) :
    t.observes = true ∧ o.task.observes = decide (o.effect ≠ .dropObserver) := by
  cases hs with
  | leaves person hp =>
    refine ⟨?_, rfl⟩
    cases hc : t.phase with
    | closed => rw [hc] at hp; cases hp
    | _ => simp [Task.observes, hc]
  | branch bye hp => rcases hp with hp | hp <;> simp [Task.observes, hp]
  | written last hp => cases last <;> simp [Task.observes, hp]
  | _ => simp_all [Task.observes]

namespace Server

variable {eng : Engine} {cap : Nat} {s : Server}

theorem basic_empty : empty.Basic :=
  ⟨rfl, fun _ h => (List.not_mem_nil h).elim, fun _ _ h => (List.not_mem_nil h).elim⟩

/-- With no observer every socket is closed. -/
theorem Basic.closed (hb : s.Basic) (h0 : s.observers = 0) {t : Task} (ht : t ∈ s.sockets) :
    t.phase = .closed := by
  have hnone := List.countP_eq_zero.mp (hb.observers ▸ h0) t ht
  simpa [Task.observes] using hnone

/-- What a task's step does elsewhere touches neither the hub nor the sockets. -/
theorem moved_fields (i : Nat) (o : Outcome) :
    (s.moved i o).hub = o.hub ∧ (s.moved i o).sockets = s.sockets.set i o.task ∧
      (s.moved i o).wanted = s.wanted ∧ (s.moved i o).skips = s.skips := by
  unfold moved effect
  cases o.effect <;> exact ⟨rfl, rfl, rfl, rfl⟩

/-- A task's step records what it writes and a `hello`, and nothing else. -/
theorem moved_journal (i : Nat) (o : Outcome) :
    (s.moved i o).journal = s.journal ++
      match o.effect with
      | .wrote f => [.wrote i o.task.conn.userId f]
      | .openPerson point => [.greeted i o.task.conn.userId point]
      | _ => [] := by
  unfold moved effect
  cases o.effect <;> simp [record, ungap]

theorem given_moved {i : Nat} {t : Task} {a : TaskAct} {o : Outcome} (hs : Task.Step eng cap s.hub t a o)
    {user : Int} {x : Nat} (hx : x ∈ Smartfire.given user (s.moved i o).journal) :
    x ∈ Smartfire.given user s.journal ∨ t.conn.userId = user ∧ x ∈ t.gives := by
  obtain ⟨j, f, hmem, hxf⟩ := mem_given.mp hx
  rw [moved_journal] at hmem
  rcases List.mem_append.mp hmem with hmem | hmem
  · exact .inl (mem_given.mpr ⟨j, f, hmem, hxf⟩)
  · cases he : o.effect with
    | wrote g =>
      rw [he] at hmem
      cases List.mem_singleton.mp hmem
      exact .inr ⟨hs.userId.symm, hs.cursors he x hxf⟩
    | _ => simp [he] at hmem

/-- The count of observers follows a task's step: only dropping the observer closes the socket. -/
theorem observers_moved {i : Nat} {t : Task} {a : TaskAct} {o : Outcome} (hi : s.sockets[i]? = some t)
    (hs : Task.Step eng cap s.hub t a o) (hb : s.Basic) :
    (s.moved i o).observers = (s.moved i o).sockets.countP Task.observes := by
  have hlt : i < s.sockets.length := (List.getElem?_eq_some_iff.mp hi).1
  have hget : s.sockets[i] = t := (List.getElem?_eq_some_iff.mp hi).2
  obtain ⟨hopen, hnext⟩ := hs.observes
  have hpos : 0 < s.sockets.countP Task.observes :=
    List.countP_pos_iff.mpr ⟨t, List.mem_of_getElem? hi, hopen⟩
  rw [(moved_fields i o).2.1, List.countP_set hlt, hget, hopen, hnext, ← hb.observers]
  rw [← hb.observers] at hpos
  unfold moved effect
  cases o.effect with
  | dropObserver => simp
  | _ => simp [record, ungap]; omega

theorem basic_moved {i : Nat} {t : Task} {a : TaskAct} {o : Outcome} (hi : s.sockets[i]? = some t)
    (hs : Task.Step eng cap s.hub t a o) (hb : s.Basic) : (s.moved i o).Basic := by
  have ht : t ∈ s.sockets := List.mem_of_getElem? hi
  obtain ⟨hhub, hsock, _, _⟩ := moved_fields (s := s) i o
  have hhead : (s.moved i o).hub.ring.head = s.hub.ring.head := by rw [hhub]; exact hs.hub.2.2.1
  refine ⟨observers_moved hi hs hb, ?_, ?_⟩
  · rw [hhead, hsock]
    intro u hu
    rcases List.mem_or_eq_of_mem_set hu with hu | rfl
    · exact hb.bounded u hu
    · rw [← hs.hub.2.2.1]
      exact (hb.bounded t ht).step hs
  · rw [hhead]
    intro user x hx
    rcases given_moved hs hx with hx | ⟨_, hx⟩
    · exact hb.given user x hx
    · exact (hb.bounded t ht).gives x hx

/-- A step that leaves the sockets alone and gives no cursor keeps the basic facts as the ring's
    head rises. -/
theorem Basic.of_head (hb : s.Basic) {s' : Server} (hobs : s'.observers = s.observers)
    (hsock : s'.sockets = s.sockets) (hhead : s.hub.ring.head ≤ s'.hub.ring.head)
    (hgiven : ∀ user, Smartfire.given user s'.journal = Smartfire.given user s.journal) :
    s'.Basic where
  observers := by rw [hobs, hsock, hb.observers]
  bounded t ht := (hb.bounded t (hsock ▸ ht)).mono hhead
  given user x hx := Nat.le_trans (hb.given user x (hgiven user ▸ hx)) hhead

/-- Hearing the internal channel changes nothing else of a task. -/
theorem hear_eq (cap : Nat) (s : Server) (user : Int) (reconnect : Bool) (t : Task) :
    (s.hear cap user reconnect t).phase = t.phase ∧ (s.hear cap user reconnect t).conn = t.conn := by
  unfold hear
  split <;> exact ⟨rfl, rfl⟩

theorem basic_disconnect (hb : s.Basic) (user : Int) (reconnect : Bool) :
    ({ s with
      hub := s.hub.broadcast
      sockets := s.sockets.map (s.hear cap user reconnect) } : Server).Basic where
  observers := by
    rw [List.countP_map, hb.observers]
    refine List.countP_congr fun t _ => ?_
    show _ ↔ Task.observes (s.hear cap user reconnect t) = true
    unfold Task.observes
    rw [(hear_eq cap s user reconnect t).1]
  bounded u hu := by
    obtain ⟨t, ht, rfl⟩ := List.mem_map.mp hu
    obtain ⟨hp, hc⟩ := hear_eq cap s user reconnect t
    exact (hb.bounded t ht).congr hp hc
  given := hb.given

/-- **Every step keeps the basic facts.** -/
theorem basic_step (hb : s.Basic) {a : ServerAct} {s' : Server} (hs : Step eng cap s a s') :
    s'.Basic := by
  have hquiet : ∀ e, (∀ i v f, e ≠ Event.wrote i v f) → ∀ user,
      Smartfire.given user (s.journal ++ [e]) = Smartfire.given user s.journal := by
    intro e he user
    rw [given_append]
    cases e with
    | wrote i v f => exact absurd rfl (he i v f)
    | _ => exact List.append_nil _
  have hnext : s.hub.ring.head ≤ s.hub.sequence + 1 := Nat.le_succ_of_le s.hub.head_le
  cases hs with
  | opens user =>
    refine ⟨?_, ?_, hb.given⟩
    · rw [List.countP_append, ← hb.observers]; rfl
    · intro t ht
      rcases List.mem_append.mp ht with ht | ht
      · exact hb.bounded t ht
      · rw [List.mem_singleton.mp ht]
        exact Task.bounded_opening _ user
  | socket i a t o hi hs => exact basic_moved hi (Task.step_cases hs) hb
  | publish a now p => exact hb.of_head rfl rfl hnext fun _ => rfl
  | broadcast => exact hb.of_head rfl rfl (Nat.le_refl _) fun _ => rfl
  | evict now => exact hb.of_head rfl rfl (Nat.le_refl _) fun _ => rfl
  | disconnect user reconnect => exact basic_disconnect hb user reconnect
  | still a => exact hb
  | presenceSkip now p h0 hg => exact hb.of_head rfl rfl hnext fun _ => rfl
  | commit => exact hb.of_head rfl rfl (Nat.le_refl _) (hquiet _ nofun)
  | observe call next => exact hb.of_head rfl rfl (Nat.le_refl _) fun _ => rfl
  | needed call => exact hb.of_head rfl rfl (Nat.le_refl _) fun _ => rfl
  | unneeded call hg => exact hb.of_head rfl rfl (Nat.le_refl _) (hquiet _ nofun)
  | skip call => exact hb.of_head rfl rfl hnext (hquiet _ nofun)
  | skipFor user hu => exact hb.of_head rfl rfl (Nat.le_refl _) (hquiet _ nofun)
  | covered user call hu => exact hb.of_head rfl rfl (Nat.le_refl _) (hquiet _ nofun)
  | mark call now user hc => exact hb.of_head rfl rfl hnext (hquiet _ nofun)

/-- Every state reached meets the basic facts. -/
theorem basic_reach {G : Server → ServerAct → Prop} (h : ReachWhen (serverSystem eng cap) G s) :
    s.Basic :=
  h.induct (T := serverSystem eng cap) (I := Basic)
    (fun s h0 => (show s = .empty from h0) ▸ basic_empty)
    fun _ _ _ _ hb _ hs => basic_step hb (step_cases hs)

end Server

/-! ## 5. Parts of small runs -/

/-- The steps of a new socket `i` of person 1 up to its written `welcome`, which does not resume. -/
def greetAfresh (i : Nat) : List ServerAct :=
  [.opens 1, .socket i (.hello none []), .socket i (.resume 0), .socket i .refetch,
    .socket i .write]

/-- The steps of a socket that goes. -/
def leave (i : Nat) : List ServerAct :=
  [.socket i .gone, .socket i .proceed, .socket i .proceed]

/-- A test engine. -/
def testEngine : Engine := ⟨.default, "e"⟩

end Smartfire
