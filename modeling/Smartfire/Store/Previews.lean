/-
  File:      Smartfire/Store/Previews.lean
  Subject:   The per-viewer previews of cards in the store (frontend/src/store/cards.ts).

  A preview's entry counts the fetches of its key, and an answer lands only while the entry's
  generation is the fetch's own. An invalidation marks a GitHub preview stale and moves its generation
  on; it drops the entries of the other kinds, and with an entry its count.

  * `PreviewTarget` -- what is fetched: the key of its entry and the ref that invalidates it;
  * `previewLoading`, `previewLoaded`, `previewFailed` -- a fetch and its answers;
  * `restaleGithub`, `withoutRefs`, `applyMessageCards`, `invalidateGithub` -- invalidations;
  * `settleAnswer` -- the reply to an event answer becomes the attendance.

  What a preview holds is a parameter, the same one for the four tables. The other messages' fields,
  polls, ballots and GitHub actions are left out: no preview depends on them.
-/
import Mathlib.Data.String.Basic
import Smartfire.Lib.Digits

namespace Smartfire

open Lib

/-! ## 1. What is fetched -/

inductive PreviewKind where
  | github
  | fizzy
  | quotes
  | attendance
deriving DecidableEq, Repr

/-- Where a GitHub card stands: under a message, or in a thread's header. -/
inductive GithubCardScope where
  | message (id : Nat)
  | thread (id : Nat)
deriving DecidableEq, Repr

def githubKey (roomId pullRequestId : Nat) (scope : GithubCardScope) : String :=
  let whereabouts := match scope with
    | .message id => "m" ++ toString id
    | .thread id => "t" ++ toString id
  toString roomId ++ ":" ++ toString pullRequestId ++ ":" ++ whereabouts

def fizzyKey (roomId fizzyCardId messageId : Nat) : String :=
  toString roomId ++ ":" ++ toString fizzyCardId ++ ":m" ++ toString messageId

def quoteKey (roomId referenceId : Nat) : String := toString roomId ++ ":" ++ toString referenceId

def attendanceKey (eventId : Nat) : String := toString eventId

/-- What a preview is fetched for, as the loaders of card-actions.ts name it. -/
inductive PreviewTarget where
  | github (roomId pullRequestId : Nat) (scope : GithubCardScope)
  | fizzy (roomId fizzyCardId messageId : Nat)
  | quote (roomId referenceId : Nat)
  | attendance (eventId : Nat)
deriving DecidableEq, Repr

namespace PreviewTarget

def kind : PreviewTarget → PreviewKind
  | .github .. => .github
  | .fizzy .. => .fizzy
  | .quote .. => .quotes
  | .attendance _ => .attendance

/-- The key of its entry in the table of its kind. -/
def key : PreviewTarget → String
  | .github roomId pullRequestId scope => githubKey roomId pullRequestId scope
  | .fizzy roomId fizzyCardId messageId => fizzyKey roomId fizzyCardId messageId
  | .quote roomId referenceId => quoteKey roomId referenceId
  | .attendance eventId => attendanceKey eventId

/-- What invalidates it: the pull request, Fizzy card, reference or event. -/
def ref : PreviewTarget → Nat
  | .github _ pullRequestId _ => pullRequestId
  | .fizzy _ fizzyCardId _ => fizzyCardId
  | .quote _ referenceId => referenceId
  | .attendance eventId => eventId

end PreviewTarget

/-! ## 2. The tables -/

inductive PreviewStatus where
  | loading
  | ready
  | error
deriving DecidableEq, Repr

/-- One per-viewer fetch: the last good value stays while it reloads. -/
structure Preview (V : Type) where
  status : PreviewStatus
  value : Option V
  error : Option String
  ref : Nat
  /-- When the value arrived; 0 until one has. -/
  fetchedAt : Nat
  generation : Nat
deriving DecidableEq, Repr

/-- Previews of each kind, by key. -/
abbrev PreviewTables (V : Type) := PreviewKind → String → Option (Preview V)

/-- A card under a message: what it previews, if anything. -/
inductive MessageCard where
  | github (pullRequestId : Nat)
  | fizzy (fizzyCardId : Nat)
  | quote (referenceId : Nat)
  | event (eventId : Nat)
  | other
deriving DecidableEq, Repr

/-- The cards a message holds. -/
structure HeldCards where
  cards : List MessageCard
  cardsAsOf : String
deriving DecidableEq, Repr

/-- The `message.cards` event. -/
structure MessageCards where
  messageId : Nat
  cards : List MessageCard
  asOf : String
deriving DecidableEq, Repr

structure PreviewState (V : Type) where
  messages : Nat → Option HeldCards
  previews : PreviewTables V
  /-- Event answers on their way, by event; each is the object it is. -/
  pendingAnswers : Nat → Option Nat

def emptyPreviews (V : Type) : PreviewState V := ⟨fun _ => none, fun _ _ => none, fun _ => none⟩

/-- The card's preview kind and ref, where it has one. -/
def MessageCard.previewRef : MessageCard → Option (PreviewKind × Nat)
  | .github pullRequestId => some (.github, pullRequestId)
  | .fizzy fizzyCardId => some (.fizzy, fizzyCardId)
  | .quote referenceId => some (.quotes, referenceId)
  | .event eventId => some (.attendance, eventId)
  | .other => none

/-- The refs of a kind among the cards. -/
def previewRefs (cards : List MessageCard) (kind : PreviewKind) : List Nat :=
  cards.filterMap fun card => (card.previewRef.filter fun q => q.1 = kind).map Prod.snd

section Reducers

variable {V : Type}

/-- Drops the entries of these refs. -/
def withoutRefs (table : String → Option (Preview V)) (refs : List Nat) : String → Option (Preview V) :=
  fun key => (table key).filter fun preview => preview.ref ∉ refs

/-- Marks the entries of these refs stale: their values stay, and their generations move on. -/
def restaleGithub (table : String → Option (Preview V)) (refs : List Nat) : String → Option (Preview V) :=
  fun key => (table key).map fun preview =>
    if preview.ref ∈ refs then
      { status := .ready
        value := preview.value
        error := none
        ref := preview.ref
        fetchedAt := 0
        generation := preview.generation + 1 }
    else preview

/-- What the tables become when these refs of each kind are invalidated. -/
def invalidate (refs : PreviewKind → List Nat) (previews : PreviewTables V) : PreviewTables V
  | .github => restaleGithub (previews .github) (refs .github)
  | .fizzy => withoutRefs (previews .fizzy) (refs .fizzy)
  | .quotes => withoutRefs (previews .quotes) (refs .quotes)
  | .attendance => withoutRefs (previews .attendance) (refs .attendance)

/-- The message's cards are replaced unless the held ones are newer; the previews its old and new
    cards point at are invalidated. -/
def applyMessageCards (s : PreviewState V) (change : MessageCards) : PreviewState V :=
  match s.messages change.messageId with
  | none => s
  | some held =>
    if change.asOf < held.cardsAsOf then s
    else
      { s with
        messages := fun id => if id = change.messageId then some ⟨change.cards, change.asOf⟩ else s.messages id
        previews := invalidate (previewRefs (held.cards ++ change.cards)) s.previews }

/-- Marks every preview of this pull request stale. -/
def invalidateGithub (s : PreviewState V) (pullRequestId : Nat) : PreviewState V :=
  { s with
    previews := fun kind =>
      match kind with
      | .github => restaleGithub (s.previews .github) [pullRequestId]
      | kind => s.previews kind }

/-- Replaces one preview. -/
def setPreview (s : PreviewState V) (kind : PreviewKind) (key : String) (preview : Preview V) : PreviewState V :=
  { s with previews := fun k x => if k = kind ∧ x = key then some preview else s.previews k x }

/-- A fetch started: this fetch's generation is current. -/
def previewLoading (s : PreviewState V) (kind : PreviewKind) (key : String) (ref : Nat) : PreviewState V :=
  let held := s.previews kind key
  setPreview s kind key
    { status := .loading
      value := held.bind Preview.value
      error := none
      ref := ref
      fetchedAt := (held.map Preview.fetchedAt).getD 0
      generation := (held.map Preview.generation).getD 0 + 1 }

/-- The generation is no longer the preview's. -/
def outdated (held : Option (Preview V)) (generation : Nat) : Bool :=
  held.any fun preview => preview.generation ≠ generation

/-- A fetch answered. -/
def previewLoaded (s : PreviewState V) (kind : PreviewKind) (key : String) (ref : Nat) (value : V)
    (now generation : Nat) : PreviewState V :=
  if outdated (s.previews kind key) generation then s
  else
    setPreview s kind key
      { status := .ready
        value := some value
        error := none
        ref := ref
        fetchedAt := now
        generation := generation }

/-- A fetch failed; a value already shown stays. -/
def previewFailed (s : PreviewState V) (kind : PreviewKind) (key : String) (ref : Nat) (error : String)
    (generation : Nat) : PreviewState V :=
  let held := s.previews kind key
  if outdated held generation then s
  else
    setPreview s kind key
      { status := .error
        value := held.bind Preview.value
        error := some error
        ref := ref
        fetchedAt := (held.map Preview.fetchedAt).getD 0
        generation := generation }

/-- An answer on its way, or none. -/
def setPendingAnswer (s : PreviewState V) (eventId : Nat) (answer : Option Nat) : PreviewState V :=
  { s with pendingAnswers := fun id => if id = eventId then answer else s.pendingAnswers id }

/-- An answer's reply landed, or it was refused: the reply becomes the attendance. -/
def settleAnswer (s : PreviewState V) (eventId answer : Nat) (reply : Option V) (now : Nat) : PreviewState V :=
  let key := attendanceKey eventId
  let landed := match reply with
    | none => s
    | some reply =>
      previewLoaded s .attendance key eventId reply now
        (((s.previews .attendance key).map Preview.generation).getD 0)
  if landed.pendingAnswers eventId = some answer then setPendingAnswer landed eventId none else landed

end Reducers

/-! ## 3. A key names its ref -/

theorem toList_toString (n : Nat) : (toString n).toList = Nat.toDigits 10 n := by
  simp [ToString.toString, Nat.repr]

theorem toDigits_inj {n m : Nat} (h : Nat.toDigits 10 n = Nat.toDigits 10 m) : n = m := by
  rw [← digitsValue_toDigits n, h, digitsValue_toDigits]

/-- The number before the last separator. -/
theorem ref_of_key {room room₂ : List Char} {ref ref₂ : Nat} {tail tail₂ : List Char}
    (h : room ++ ':' :: (Nat.toDigits 10 ref ++ ':' :: tail) = room₂ ++ ':' :: (Nat.toDigits 10 ref₂ ++ ':' :: tail₂))
    (ht : ':' ∉ tail) (ht₂ : ':' ∉ tail₂) : ref = ref₂ := by
  have hsplit : (room ++ ':' :: Nat.toDigits 10 ref) ++ ':' :: tail =
      (room₂ ++ ':' :: Nat.toDigits 10 ref₂) ++ ':' :: tail₂ := by
    simpa using h
  have hhead := (append_sep_inj hsplit ht ht₂).1
  exact toDigits_inj (append_sep_inj hhead (colon_notMem_toDigits _) (colon_notMem_toDigits _)).2

theorem toList_githubKey (room ref : Nat) (scope : GithubCardScope) :
    ∃ tail, ':' ∉ tail ∧ (githubKey room ref scope).toList =
      Nat.toDigits 10 room ++ ':' :: (Nat.toDigits 10 ref ++ ':' :: tail) := by
  cases scope with
  | message id =>
    refine ⟨'m' :: Nat.toDigits 10 id, ?_, ?_⟩
    · simp [colon_notMem_toDigits]
    · simp [githubKey]
  | thread id =>
    refine ⟨'t' :: Nat.toDigits 10 id, ?_, ?_⟩
    · simp [colon_notMem_toDigits]
    · simp [githubKey]

theorem toList_fizzyKey (room ref message : Nat) :
    (fizzyKey room ref message).toList =
      Nat.toDigits 10 room ++ ':' :: (Nat.toDigits 10 ref ++ ':' :: 'm' :: Nat.toDigits 10 message) := by
  simp [fizzyKey]

theorem toList_quoteKey (room ref : Nat) :
    (quoteKey room ref).toList = Nat.toDigits 10 room ++ ':' :: Nat.toDigits 10 ref := by
  simp [quoteKey]

/-- **A key names its ref**: entries of one key are invalidated together. -/
theorem PreviewTarget.ref_eq {a b : PreviewTarget} (hkind : a.kind = b.kind) (hkey : a.key = b.key) :
    a.ref = b.ref := by
  have hlist := congrArg String.toList hkey
  cases a with
  | github room pull scope =>
    cases b with
    | github room' pull' scope' =>
      obtain ⟨tail, ht, heq⟩ := toList_githubKey room pull scope
      obtain ⟨tail', ht', heq'⟩ := toList_githubKey room' pull' scope'
      exact ref_of_key (heq.symm.trans (hlist.trans heq')) ht ht'
    | _ => cases hkind
  | fizzy room card message =>
    cases b with
    | fizzy room' card' message' =>
      refine ref_of_key ((toList_fizzyKey room card message).symm.trans
        (hlist.trans (toList_fizzyKey room' card' message'))) ?_ ?_
      · simp [colon_notMem_toDigits]
      · simp [colon_notMem_toDigits]
    | _ => cases hkind
  | quote room reference =>
    cases b with
    | quote room' reference' =>
      have h := (toList_quoteKey room reference).symm.trans (hlist.trans (toList_quoteKey room' reference'))
      exact toDigits_inj (append_sep_inj h (colon_notMem_toDigits _) (colon_notMem_toDigits _)).2
    | _ => cases hkind
  | attendance event =>
    cases b with
    | attendance event' =>
      refine toDigits_inj ?_
      rw [← toList_toString, ← toList_toString]
      exact hlist
    | _ => cases hkind

end Smartfire
