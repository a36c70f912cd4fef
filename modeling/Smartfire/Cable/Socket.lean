/-
  File:      Smartfire/Cable/Socket.lean
  Subject:   One sync socket in any surroundings.

  A statement about a single connection quantifies over whatever the rest of the server does to the
  hub between two of its steps. Here that is a label of its own, so the other sockets need not be
  modelled with it.

  * `Socket`, `SocketAct`, `Socket.step`, `socketSystem` -- a hub in any state, and a socket that
    opens there;
  * `bounded_reach` -- what every socket's run keeps;
  * `socket_of_server` -- each socket of a server's run is one of these runs.
-/
import Smartfire.Cable.Server

namespace Smartfire

open Lib

/-! ## 1. The system -/

/-- A hub and one socket's task. -/
structure Socket where
  hub : Hub
  task : Task

/-- What surrounds a socket. -/
inductive Around where
  | hub (a : Hub.Act)
  /-- Another socket's `hello` is answered. -/
  | resume (now : Nat) (point : Option (String × Int))
  /-- `Server::disconnect` of this person. -/
  | disconnect (reconnect : Bool)

/-- A step of the socket, or of what surrounds it. -/
inductive SocketAct where
  | around (a : Around)
  | task (a : TaskAct)

namespace Socket

variable (eng : Engine) (cap : Nat) (s : Socket)

/-- The task after the next message on its internal channel, unless it is closed. -/
def hear (reconnect : Bool) : Task :=
  if s.task.phase ≠ .closed then
    { s.task with internal := s.task.internal.send (nextPowerOfTwo cap) ⟨s.hub.sequence + 1, some reconnect⟩ }
  else s.task

def surround : Around → Socket
  | .hub a => { s with hub := s.hub.act eng.config a }
  | .resume now point => { s with hub := (s.hub.resume eng now point).2 }
  | .disconnect reconnect => ⟨s.hub.broadcast, s.hear cap reconnect⟩

def step : SocketAct → Option Socket
  | .around a => some (s.surround eng cap a)
  | .task a =>
    match s.task.step eng cap s.hub a with
    | some o => some ⟨o.hub, o.task⟩
    | none => none

end Socket

/-- A socket that opens on a hub in any state, and its surroundings. -/
def socketSystem (eng : Engine) (cap : Nat) : System Socket SocketAct where
  start s := ∃ user, s.task = .opening user
  step := Socket.step eng cap

/-! ## 2. What every run keeps -/

namespace Socket

variable {eng : Engine} {cap : Nat} {s s' : Socket}

/-- A step of the socket is one of its task. -/
theorem step_task {a : TaskAct} (hs : s.step eng cap (.task a) = some s') :
    ∃ e, s.task.step eng cap s.hub a = some ⟨s'.task, s'.hub, e⟩ := by
  rw [step] at hs
  split at hs
  · next o ho => cases hs; exact ⟨o.effect, ho⟩
  · cases hs

theorem hear_eq (reconnect : Bool) :
    (s.hear cap reconnect).phase = s.task.phase ∧ (s.hear cap reconnect).conn = s.task.conn := by
  unfold hear
  split <;> exact ⟨rfl, rfl⟩

/-- What surrounds the socket leaves its phase and its connection alone, and the hub grows. -/
theorem surround_eq (a : Around) : (s.surround eng cap a).task.phase = s.task.phase ∧
    (s.surround eng cap a).task.conn = s.task.conn ∧ s.hub.Grows (s.surround eng cap a).hub := by
  cases a with
  | hub a => exact ⟨rfl, rfl, Hub.grows_act a⟩
  | resume now point =>
    have hgrow : s.hub.Grows (s.hub.resume eng now point).2 := Hub.grows_resume
    exact ⟨rfl, rfl, hgrow⟩
  | disconnect reconnect =>
    obtain ⟨hp, hc⟩ := s.hear_eq reconnect
    exact ⟨hp, hc, Hub.grows_broadcast⟩

/-- The hub only grows. -/
theorem step_grows {a : SocketAct} (hs : s.step eng cap a = some s') : s.hub.Grows s'.hub := by
  cases a with
  | around a => cases hs; exact (surround_eq a).2.2
  | task b =>
    obtain ⟨e, ho⟩ := step_task hs
    exact (Task.step_cases ho).hub.1

/-- **What a socket holds lies within the head**, in every run. -/
theorem bounded_reach (h : Reach (socketSystem eng cap) s) : s.task.Bounded s.hub.ring.head := by
  refine h.induct (T := socketSystem eng cap) (I := fun s => s.task.Bounded s.hub.ring.head)
    (fun s ⟨user, hu⟩ => ?_) fun s a s' _ hb _ hs => ?_
  · rw [hu]
    exact Task.bounded_opening _ user
  · cases a with
    | around a =>
      cases hs
      obtain ⟨hp, hc, hgrow⟩ := surround_eq (s := s) a
      exact (hb.mono hgrow.head).congr hp hc
    | task b =>
      obtain ⟨e, ho⟩ := step_task hs
      exact hb.step (Task.step_cases ho)

end Socket

/-! ## 3. The sockets of a server -/

namespace Server

variable {eng : Engine} {cap : Nat} {s : Server}

/-- What surrounds a socket takes its run on. -/
theorem around {h : Hub} {t : Task} (hr : Reach (socketSystem eng cap) ⟨h, t⟩) (a : Around) :
    Reach (socketSystem eng cap) (Socket.surround eng cap ⟨h, t⟩ a) :=
  .step _ _ (.around a) hr trivial rfl

/-- **Each socket of a server's run is a socket in surroundings.** -/
theorem socket_of_server {G : Server → ServerAct → Prop}
    (h : ReachWhen (serverSystem eng cap) G s) :
    ∀ t ∈ s.sockets, Reach (socketSystem eng cap) ⟨s.hub, t⟩ := by
  refine h.induct (T := serverSystem eng cap)
    (I := fun s => ∀ t ∈ s.sockets, Reach (socketSystem eng cap) ⟨s.hub, t⟩)
    (fun s h0 => ?_) fun s a s' _ hi _ ha => ?_
  · rw [show s = .empty from h0]
    exact fun _ ht => (List.not_mem_nil ht).elim
  · cases step_cases ha with
    | opens user =>
      intro t ht
      rcases List.mem_append.mp ht with ht | ht
      · exact hi t ht
      · rw [List.mem_singleton.mp ht]
        exact .start _ ⟨user, rfl⟩
    | socket i b t o hti hs =>
      obtain ⟨hhub, hsock, _, _⟩ := moved_fields (s := s) i o
      rw [hhub, hsock]
      intro u hu
      rcases List.mem_or_eq_of_mem_set hu with hu | rfl
      · -- to another socket, the step is one of the hub
        rcases (Task.step_cases hs).hub_cases with h | ⟨now, h⟩ | ⟨now, point, h⟩
        · exact h ▸ hi u hu
        · exact h ▸ around (hi u hu) (.hub (.evict now))
        · exact h ▸ around (hi u hu) (.resume now point)
      · refine .step ⟨s.hub, t⟩ _ (.task b) (hi t (List.mem_of_getElem? hti)) trivial ?_
        show Socket.step eng cap ⟨s.hub, t⟩ (.task b) = _
        simp only [Socket.step, hs]
    | publish _ now p => exact fun t ht => around (hi t ht) (.hub (.publish now p))
    | broadcast => exact fun t ht => around (hi t ht) (.hub .broadcast)
    | evict now => exact fun t ht => around (hi t ht) (.hub (.evict now))
    | disconnect user reconnect =>
      intro u hu
      obtain ⟨t, ht, rfl⟩ := List.mem_map.mp hu
      by_cases hmine : t.conn.userId = user
      · have hheard := around (hi t ht) (.disconnect reconnect)
        have heq : s.hear cap user reconnect t = Socket.hear cap ⟨s.hub, t⟩ reconnect := by
          unfold Server.hear Socket.hear
          simp only [hmine, true_and]
        rw [heq]
        exact hheard
      · have heq : s.hear cap user reconnect t = t := if_neg fun h => hmine h.1
        rw [heq]
        exact around (hi t ht) (.hub .broadcast)
    | presenceSkip => exact fun t ht => around (hi t ht) (.hub .skip)
    | skip => exact fun t ht => around (hi t ht) (.hub .skip)
    | mark call now user => exact fun t ht => around (hi t ht) (.hub (.pushGap now user))
    | still | commit | observe | needed | unneeded | skipFor | covered => exact hi

end Server

end Smartfire
