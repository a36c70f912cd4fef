/-
  File:      Smartfire/Scheduled/Settled.lean
  Subject:   A scheduled message is settled at most once and loses no file.

  A run takes transactions in any order, each committed or rolled back. It keeps what its last committed
  edit asked for, and the claim the row started with.

  * `Asked`, `Run`, `scheduledSystem` -- runs of transactions on a row;
  * `Settled` -- the property;
  * `Inv`, `inv_reach` -- the row, its files and its message, phase by phase;
  * **`settled_of_reach`** -- the property, in every run.
-/
import Smartfire.Lib.Log
import Smartfire.Lib.Runs
import Smartfire.Scheduled.Messages

namespace Smartfire.Scheduled

open Lib

/-! ## 1. Runs -/

/-- What the committed edits so far asked for. -/
structure Asked where
  source : Text
  threadId : Option Nat
  replyTo : Option Nat
  files : List (Nat × Bool)
deriving DecidableEq

structure Run where
  db : Db
  asked : Asked
  /-- The claim the row came with. -/
  foundClaim : Option Int
deriving DecidableEq

inductive Op where
  /-- Scheduled, immediate, or for an id of an old list of candidates. -/
  | dispatch (env : Surroundings) (now : Int) (immediate : Bool)
  | update (env : Surroundings) (source : Text) (sendAt : Int) (replyTo : Option Nat) (blobIds : Option (List Nat))
  | setSpoilers (now : Int) (flags : List Bool)
  /-- The thread goes; its key in the row is cleared. -/
  | dropForThread (threadId : Nat) (now : Int)
  | destroy
  /-- Another message goes; its key in the row and in a message is cleared. -/
  | deleteMessage (id : Nat)
  | postMessage

structure Label where
  op : Op
  commits : Bool

namespace Asked

variable (asked : Asked)

/-- A blob keeps the flag it had. -/
def choose (blobIds : List Nat) : List (Nat × Bool) :=
  blobIds.map fun blobId => (blobId, (asked.files.find? (·.1 = blobId)).any (·.2))

/-- What an edit asks for. -/
def after : Op → Asked
  | .update _ source _ replyTo blobIds =>
    { asked with source, replyTo, files := (blobIds.map asked.choose).getD asked.files }
  | .setSpoilers _ flags => { asked with files := (asked.files.map (·.1)).zip flags }
  | _ => asked

end Asked

namespace Run

variable (s : Run)

def clearThread (db : Db) (threadId : Nat) : Db :=
  { db with
    row := db.row.map fun row =>
      { row with threadId := row.threadId.filter (· ≠ threadId) } }

/-- Edits are of a row that waits; none where the transaction isn't one of those, or fails. -/
def perform : Op → Option Db
  | .dispatch env now immediate => (s.db.dispatch env now immediate).map (·.2)
  | .update env source sendAt replyTo blobIds =>
    (s.db.row.filter (·.pending)).bind fun row => s.db.updateWithAttachments row env source sendAt replyTo blobIds
  | .setSpoilers now flags =>
    (s.db.row.filter (·.pending)).bind fun row => s.db.setAttachmentSpoilers row now flags
  | .dropForThread threadId now => some (clearThread (s.db.dropForThread threadId now) threadId)
  | .destroy => if s.db.row.isSome then s.db.destroy else none
  | .deleteMessage id =>
    some
      { s.db with
        others := s.db.others.filter (· ≠ id)
        row := s.db.row.map fun row => { row with replyToMessageId := row.replyToMessageId.filter (· ≠ id) }
        messages := s.db.messages.map fun m => { m with replyToMessageId := m.replyToMessageId.filter (· ≠ id) } }
  | .postMessage =>
    some { s.db with others := s.db.others ++ [s.db.nextMessageId], nextMessageId := s.db.nextMessageId + 1 }

def step (a : Label) : Option Run :=
  match s.perform a.op with
  | some db => if a.commits then some { s with db := db, asked := s.asked.after a.op } else some s
  | none => some s

end Run

/-- A row that waits, with files each of a blob of its own. -/
structure Begins (s : Run) : Prop where
  row : ∃ row, s.db.row = some row ∧ row.pending = true ∧ row.claimedAt = s.foundClaim ∧
    s.asked = ⟨row.markdownSource, row.threadId, row.replyToMessageId, files .scheduled s.db.attachments⟩ ∧
    ∀ id ∈ row.replyToMessageId, id ∈ s.db.others
  ids : s.db.attachments.Pairwise fun a b => a.id < b.id
  below : ∀ a ∈ s.db.attachments, a.id < s.db.nextAttachmentId
  records : ∀ a ∈ s.db.attachments, a.record = .scheduled
  blobs : ((files .scheduled s.db.attachments).map (·.1)).Nodup
  messages : s.db.messages = []
  others : ∀ id ∈ s.db.others, id < s.db.nextMessageId

def scheduledSystem : System Run Label where
  start := Begins
  step := Run.step

/-! ## 2. The property -/

/-- The message is what was asked for; its reply target may have gone. -/
structure Message.Fits (m : Message) (s : Run) : Prop where
  source : m.markdownSource = (some s.asked.source).filter (! Richtext.isBlank ·)
  thread : m.threadId = s.asked.threadId
  reply : m.replyToMessageId = s.asked.replyTo ∨
    m.replyToMessageId = none ∧ ∀ id ∈ s.asked.replyTo, id ∉ s.db.others
  files : files (.message m.id) s.db.attachments = s.asked.files

/-- **Settled at most once, without loss.** -/
structure Settled (s : Run) : Prop where
  once : s.db.messages.length ≤ 1
  exclusive : ∀ row ∈ s.db.row, row.sentAt.isSome = true → row.droppedAt = none
  /-- Nothing happens to a settled row but its end. -/
  final : ∀ a s' row, s.step a = some s' → s.db.row = some row → row.pending = false →
    s'.db.messages.map (·.id) = s.db.messages.map (·.id) ∧
      ∀ row' ∈ s'.db.row, row'.sentAt = row.sentAt ∧ row'.droppedAt = row.droppedAt
  unclaimed : ∀ row ∈ s.db.row, row.pending = true → row.claimedAt = none ∨ row.claimedAt = s.foundClaim
  /-- A row is sent as just its message. -/
  sent : ∀ row ∈ s.db.row, (row.sentAt.isSome = true ↔ s.db.messages ≠ []) ∧
    ∀ m ∈ s.db.messages, row.sentMessageId = some m.id
  message : ∀ m ∈ s.db.messages, m.Fits s
  waiting : ∀ row ∈ s.db.row, row.sentAt = none → files .scheduled s.db.attachments = s.asked.files
  /-- The row's end asks for no purge of a blob of its message. -/
  spares : ∀ commits s', s.step ⟨.destroy, commits⟩ = some s' → ∀ m ∈ s.db.messages,
    ∀ file ∈ files (.message m.id) s.db.attachments, file.1 ∈ s'.db.purges → file.1 ∈ s.db.purges

/-! ## 3. Attachments -/

section Attachments

variable {record record' : Record} {as : List Attachment} {db db' : Db} {fs : List (Nat × Bool)} {blobIds : List Nat}

theorem mem_slots {a : Attachment} : a ∈ slots record as ↔ a ∈ as ∧ a.record = record := by
  simp [slots]

theorem files_append (as bs : List Attachment) : files record (as ++ bs) = files record as ++ files record bs := by
  simp [files, slots]

theorem slots_filter_of_ne {p : Attachment → Bool} (h : ∀ a ∈ as, a.record = record → p a = true) :
    slots record (as.filter p) = slots record as := by
  unfold slots
  rw [List.filter_filter]
  refine List.filter_congr fun a ha => ?_
  by_cases hr : a.record = record
  · simp [hr, h a ha hr]
  · simp [hr]

/-- Ids in order, below the next. -/
structure Tidy (db : Db) : Prop where
  ids : db.attachments.Pairwise fun a b => a.id < b.id
  below : ∀ a ∈ db.attachments, a.id < db.nextAttachmentId

theorem Tidy.eq_of_id (h : Tidy db) {a b : Attachment} (ha : a ∈ db.attachments) (hb : b ∈ db.attachments)
    (hab : a.id = b.id) : a = b := by
  have hinc : Increasing Attachment.id db.attachments := h.ids
  exact hinc.eq_of_key ha hb hab

/-- What making attachments leaves as it is. -/
structure SameBut (db db' : Db) : Prop where
  row : db'.row = db.row
  messages : db'.messages = db.messages
  others : db'.others = db.others
  nextMessageId : db'.nextMessageId = db.nextMessageId

theorem SameBut.refl (db : Db) : SameBut db db := ⟨rfl, rfl, rfl, rfl⟩

theorem SameBut.trans {db₁ db₂ db₃ : Db} (h : SameBut db₁ db₂) (h' : SameBut db₂ db₃) : SameBut db₁ db₃ :=
  ⟨h'.row.trans h.row, h'.messages.trans h.messages, h'.others.trans h.others,
    h'.nextMessageId.trans h.nextMessageId⟩

theorem createAttachment_some {blobId : Nat} {spoiler : Bool} (h : db.createAttachment record blobId spoiler = some db') :
    blobId ∉ (files record db.attachments).map (·.1) ∧
      db' = { db with
        attachments := db.attachments ++ [⟨db.nextAttachmentId, record, blobId, spoiler⟩]
        nextAttachmentId := db.nextAttachmentId + 1 } := by
  unfold Db.createAttachment at h
  split at h
  next => cases h
  next hnot =>
    cases h
    refine ⟨fun hm => hnot ?_, rfl⟩
    rw [files, List.map_map, List.mem_map] at hm
    obtain ⟨a, ha, rfl⟩ := hm
    exact List.any_eq_true.mpr ⟨a, ha, by simp⟩

/-- What `createAttachments` makes: the files behind those there are. -/
structure Creates (record : Record) (fs : List (Nat × Bool)) (db db' : Db) : Prop where
  same : SameBut db db'
  purges : db'.purges = db.purges
  tidy : Tidy db → Tidy db'
  files : files record db'.attachments = files record db.attachments ++ fs
  others : ∀ record', record' ≠ record → Scheduled.files record' db'.attachments = Scheduled.files record' db.attachments
  records : ∀ a ∈ db'.attachments, a ∈ db.attachments ∨ a.record = record
  nodup : ((Scheduled.files record db.attachments).map (·.1)).Nodup →
    ((Scheduled.files record db'.attachments).map (·.1)).Nodup

theorem creates_of_some (h : Db.createAttachments record fs db = some db') : Creates record fs db db' := by
  induction fs generalizing db with
  | nil =>
    cases h
    exact ⟨.refl _, rfl, id, (List.append_nil _).symm, fun _ _ => rfl, fun _ => .inl, id⟩
  | cons f fs ih =>
    obtain ⟨blobId, spoiler⟩ := f
    rw [Db.createAttachments] at h
    obtain ⟨mid, hmid, hrest⟩ := Option.bind_eq_some_iff.mp h
    obtain ⟨hnew, rfl⟩ := createAttachment_some hmid
    have hc := ih hrest
    have hfiles : files record (db.attachments ++ [⟨db.nextAttachmentId, record, blobId, spoiler⟩]) =
        files record db.attachments ++ [(blobId, spoiler)] := by
      rw [files_append]
      simp [files, slots]
    refine ⟨⟨hc.same.row, hc.same.messages, hc.same.others, hc.same.nextMessageId⟩, hc.purges, fun ht => hc.tidy ?_,
      ?_, fun r hr => ?_, fun a ha => ?_, fun hn => hc.nodup ?_⟩
    · refine ⟨?_, fun a ha => ?_⟩
      · have hinc : Increasing Attachment.id db.attachments := ht.ids
        exact hinc.push fun b hb => ht.below b hb
      · rcases List.mem_append.mp ha with ha | ha
        · exact Nat.lt_succ_of_lt (ht.below a ha)
        · rw [List.mem_singleton.mp ha]
          exact Nat.lt_succ_self _
    · rw [hc.files, hfiles, List.append_assoc]
      rfl
    · rw [hc.others r hr, files_append]
      simp [files, slots, Ne.symm hr]
    · rcases hc.records a ha with ha | ha
      · rcases List.mem_append.mp ha with ha | ha
        · exact .inl ha
        · rw [List.mem_singleton.mp ha]
          exact .inr rfl
      · exact .inr ha
    · show ((files record (db.attachments ++ [_])).map _).Nodup
      rw [hfiles, List.map_append, List.nodup_append]
      refine ⟨hn, List.pairwise_singleton _ _, fun b hb b' hb' heq => hnew ?_⟩
      rw [List.map_singleton, List.mem_singleton] at hb'
      rw [heq.trans hb'] at hb
      exact hb

/-- One attachment goes, with the purge of its blob or without. -/
def deleteOne (blobIds : List Nat) (a : Attachment) (db : Db) : Db :=
  if blobIds.contains a.blobId then db.deleteAttachment a.id
  else { db.deleteAttachment a.id with purges := (db.deleteAttachment a.id).purges ++ [a.blobId] }

theorem deleteOne_eq (blobIds : List Nat) (a : Attachment) (db : Db) : deleteOne blobIds a db =
    { db with
      attachments := db.attachments.filter (·.id ≠ a.id)
      purges := db.purges ++ if blobIds.contains a.blobId then [] else [a.blobId] } := by
  unfold deleteOne
  split
  next => rw [List.append_nil]; rfl
  next => rfl

theorem deleteAttachments_eq (L : List Attachment) (db : Db) : Db.deleteAttachments blobIds L db =
    { db with
      attachments := db.attachments.filter fun a => ∀ b ∈ L, a.id ≠ b.id
      purges := db.purges ++ (L.filter fun a => !blobIds.contains a.blobId).map (·.blobId) } := by
  induction L generalizing db with
  | nil => simp [Db.deleteAttachments]
  | cons a L ih =>
    show Db.deleteAttachments blobIds L (deleteOne blobIds a db) = _
    rw [ih, deleteOne_eq]
    simp only [List.filter_filter, List.append_assoc, Db.mk.injEq, true_and, and_true]
    refine ⟨List.filter_congr fun b _ => ?_, ?_⟩
    · simp [Bool.and_comm]
    · cases hb : blobIds.contains a.blobId with
      | true => simp only [List.filter_cons, hb, Bool.not_true, Bool.false_eq_true, if_false, if_true, List.nil_append]
      | false => simp only [List.filter_cons, hb, Bool.not_false, Bool.false_eq_true, if_false, if_true, List.map_cons,
          List.singleton_append]

/-- All attachments of the row gone, the others stay. -/
theorem deleteSlots_attachments (h : Tidy db) :
    (Db.deleteAttachments blobIds db.attachmentSlots db).attachments =
      db.attachments.filter (·.record ≠ .scheduled) := by
  rw [deleteAttachments_eq]
  refine List.filter_congr fun a ha => ?_
  rw [decide_eq_decide]
  constructor
  · intro hids hrecord
    exact hids a (mem_slots.mpr ⟨ha, hrecord⟩) rfl
  · intro hrecord b hb hid
    obtain ⟨hb, hscheduled⟩ := mem_slots.mp hb
    rw [h.eq_of_id ha hb hid] at hrecord
    exact hrecord hscheduled

theorem files_filter_scheduled (as : List Attachment) : files .scheduled (as.filter (·.record ≠ .scheduled)) = [] := by
  simp [files, slots, List.filter_filter]

theorem files_filter_other {record : Record} (h : record ≠ .scheduled) (as : List Attachment) :
    files record (as.filter (·.record ≠ .scheduled)) = files record as := by
  unfold files
  rw [slots_filter_of_ne]
  rintro a _ rfl
  simpa using h

theorem keptSpoiler_eq (as : List Attachment) (blobId : Nat) :
    Db.keptSpoiler (slots .scheduled as) blobId = ((files .scheduled as).find? (·.1 = blobId)).any (·.2) := by
  rw [Db.keptSpoiler, files, List.find?_map, Option.any_map]
  rfl

/-- What `replaceAttachments` leaves: the row's files replaced, each with the flag it had, and a purge for
    each that doesn't come back. -/
structure Replaces (blobIds : List Nat) (db db' : Db) : Prop where
  same : SameBut db db'
  tidy : Tidy db'
  files : files .scheduled db'.attachments =
    blobIds.map fun b => (b, ((Scheduled.files .scheduled db.attachments).find? (·.1 = b)).any (·.2))
  others : ∀ record, record ≠ .scheduled → Scheduled.files record db'.attachments = Scheduled.files record db.attachments
  records : ∀ a ∈ db'.attachments, a ∈ db.attachments ∨ a.record = .scheduled
  nodup : blobIds.Nodup
  purges : ∀ b ∈ db'.purges, b ∈ db.purges ∨ b ∈ (Scheduled.files .scheduled db.attachments).map (·.1)

theorem replaces_of_some (ht : Tidy db) (h : db.replaceAttachments blobIds = some db') : Replaces blobIds db db' := by
  unfold Db.replaceAttachments at h
  have hc := creates_of_some h
  have hdel := @deleteSlots_attachments db blobIds ht
  have heq := @deleteAttachments_eq blobIds db.attachmentSlots db
  generalize hmid : Db.deleteAttachments blobIds db.attachmentSlots db = mid at hc hdel heq
  have hfiles := hc.files
  rw [hdel, files_filter_scheduled, List.nil_append] at hfiles
  refine ⟨?_, hc.tidy ⟨?_, ?_⟩, ?_, fun r hr => ?_, fun a ha => ?_, ?_, fun b hb => ?_⟩
  · refine SameBut.trans ?_ hc.same
    rw [heq]
    exact ⟨rfl, rfl, rfl, rfl⟩
  · rw [hdel]
    exact ht.ids.sublist List.filter_sublist
  · rw [hdel, heq]
    exact fun a ha => ht.below a (List.mem_of_mem_filter ha)
  · rw [hfiles]
    refine List.map_congr_left fun b _ => ?_
    rw [Db.attachmentSlots, keptSpoiler_eq]
  · rw [hc.others r hr, hdel, files_filter_other hr]
  · rcases hc.records a ha with ha | ha
    · rw [hdel] at ha
      exact .inl (List.mem_of_mem_filter ha)
    · exact .inr ha
  · have hnodup := hc.nodup (by rw [hdel, files_filter_scheduled]; exact .nil)
    rw [hfiles, List.map_map] at hnodup
    simpa [Function.comp_def] using hnodup
  · rw [hc.purges, heq] at hb
    rcases List.mem_append.mp hb with hb | hb
    · exact .inl hb
    · obtain ⟨a, ha, rfl⟩ := List.mem_map.mp hb
      refine .inr ?_
      rw [files, List.map_map]
      exact List.mem_map.mpr ⟨a, List.mem_of_mem_filter ha, rfl⟩

/-- An attachment with the flag its pair gives it. -/
def flagged (pairs : List (Attachment × Bool)) (a : Attachment) : Attachment :=
  match pairs.find? (·.1.id = a.id) with
  | some (_, spoiler) => { a with spoiler }
  | none => a

@[simp] theorem flagged_id (pairs : List (Attachment × Bool)) (a : Attachment) : (flagged pairs a).id = a.id := by
  unfold flagged
  split <;> rfl

@[simp] theorem flagged_record (pairs : List (Attachment × Bool)) (a : Attachment) :
    (flagged pairs a).record = a.record := by
  unfold flagged
  split <;> rfl

@[simp] theorem flagged_blobId (pairs : List (Attachment × Bool)) (a : Attachment) :
    (flagged pairs a).blobId = a.blobId := by
  unfold flagged
  split <;> rfl

theorem flagged_cons_self {x a : Attachment} {spoiler : Bool} {pairs : List (Attachment × Bool)} (h : a.id = x.id) :
    flagged ((x, spoiler) :: pairs) a = { a with spoiler } := by
  rw [flagged, List.find?_cons_of_pos (by simp [h])]

theorem flagged_cons_ne {x a : Attachment} {spoiler : Bool} {pairs : List (Attachment × Bool)} (h : a.id ≠ x.id) :
    flagged ((x, spoiler) :: pairs) a = flagged pairs a := by
  rw [flagged, List.find?_cons_of_neg (by simpa using Ne.symm h), ← flagged]

theorem flagged_of_not_mem {a : Attachment} {pairs : List (Attachment × Bool)} (h : ∀ p ∈ pairs, p.1.id ≠ a.id) :
    flagged pairs a = a := by
  have hnone : pairs.find? (·.1.id = a.id) = none := by
    rw [List.find?_eq_none]
    intro p hp
    simpa using h p hp
  rw [flagged, hnone]

/-- Writing the flags that differ is writing all. -/
theorem writeSpoilers_eq {pairs : List (Attachment × Bool)} (hids : as.Pairwise fun a b => a.id < b.id)
    (hmem : ∀ p ∈ pairs, p.1 ∈ as) (hpairs : (pairs.map (·.1.id)).Nodup) :
    Db.writeSpoilers pairs as = as.map (flagged pairs) := by
  induction pairs generalizing as with
  | nil =>
    rw [Db.writeSpoilers]
    exact (List.map_id as).symm
  | cons pair pairs ih =>
    obtain ⟨x, spoiler⟩ := pair
    rw [List.map_cons, List.nodup_cons] at hpairs
    have hx := hmem (x, spoiler) List.mem_cons_self
    have hinc : Increasing Attachment.id as := hids
    have hset : (if x.spoiler ≠ spoiler then Db.setSpoiler as x.id spoiler else as) =
        as.map fun a => if a.id = x.id then { a with spoiler } else a := by
      split
      next => rfl
      next heq =>
        rw [Decidable.not_not] at heq
        rw [List.map_congr_left (g := id) fun a ha => ?_, List.map_id]
        split
        next hid =>
          rw [hinc.eq_of_key ha hx hid, ← heq]
          rfl
        next => rfl
    rw [Db.writeSpoilers, hset, ih]
    · rw [List.map_map]
      refine List.map_congr_left fun a _ => ?_
      rw [Function.comp_apply]
      by_cases hid : a.id = x.id
      · rw [if_pos hid, flagged_cons_self hid, flagged_of_not_mem]
        intro p hp hpid
        exact hpairs.1 (List.mem_map.mpr ⟨p, hp, hpid.trans hid⟩)
      · rw [if_neg hid, flagged_cons_ne hid]
    · rw [List.pairwise_map]
      refine hids.imp fun {a b} hab => ?_
      split <;> split <;> exact hab
    · intro p hp
      have hne : p.1.id ≠ x.id := fun hid => hpairs.1 (List.mem_map.mpr ⟨p, hp, hid⟩)
      refine List.mem_map.mpr ⟨p.1, hmem p (List.mem_cons_of_mem _ hp), ?_⟩
      rw [if_neg hne]
    · exact hpairs.2

theorem slots_map_flagged (pairs : List (Attachment × Bool)) (as : List Attachment) :
    slots record (as.map (flagged pairs)) = (slots record as).map (flagged pairs) := by
  unfold slots
  rw [List.filter_map]
  congr 1
  refine List.filter_congr fun a _ => ?_
  rw [Function.comp_apply, flagged_record]

/-- A record's attachments flagged one by one. -/
theorem flagged_zip {L : List Attachment} {flags : List Bool} (hids : (L.map (·.id)).Nodup)
    (hlen : flags.length = L.length) :
    (L.map (flagged (L.zip flags))).map (fun a => (a.blobId, a.spoiler)) = (L.map (·.blobId)).zip flags := by
  induction L generalizing flags with
  | nil => rfl
  | cons a L ih =>
    cases flags with
    | nil => cases hlen
    | cons flag flags =>
      rw [List.map_cons, List.nodup_cons] at hids
      have hrest : L.map (flagged ((a, flag) :: L.zip flags)) = L.map (flagged (L.zip flags)) := by
        refine List.map_congr_left fun b hb => flagged_cons_ne fun hid => hids.1 ?_
        exact List.mem_map.mpr ⟨b, hb, hid⟩
      rw [List.zip_cons_cons, List.map_cons, List.map_cons, hrest, ih hids.2 (Nat.succ.inj hlen), flagged_cons_self rfl]
      rfl

/-- What writing the row's flags leaves. -/
theorem files_writeSpoilers (ht : Tidy db) {flags : List Bool} (hlen : flags.length = db.attachmentSlots.length) :
    let as := Db.writeSpoilers (db.attachmentSlots.zip flags) db.attachments
    files .scheduled as = ((files .scheduled db.attachments).map (·.1)).zip flags ∧
      (∀ record, record ≠ .scheduled → files record as = files record db.attachments) ∧
      as.map (·.id) = db.attachments.map (·.id) ∧ as.map (·.record) = db.attachments.map (·.record) := by
  have hslots : ∀ a ∈ db.attachmentSlots, a ∈ db.attachments ∧ a.record = .scheduled := fun a ha => mem_slots.mp ha
  have hids : (db.attachmentSlots.map (·.id)).Nodup := by
    rw [List.Nodup, List.pairwise_map]
    exact (ht.ids.sublist List.filter_sublist).imp Nat.ne_of_lt
  have hzip : ∀ p ∈ db.attachmentSlots.zip flags, p.1 ∈ db.attachmentSlots :=
    fun p hp => (List.of_mem_zip hp).1
  have hzipIds : ((db.attachmentSlots.zip flags).map (·.1.id)).Nodup := by
    have hfst : (db.attachmentSlots.zip flags).map (·.1.id) = db.attachmentSlots.map (·.id) := by
      show (db.attachmentSlots.zip flags).map (Attachment.id ∘ Prod.fst) = _
      rw [← List.map_map, List.map_fst_zip (by omega)]
    rw [hfst]
    exact hids
  dsimp only
  rw [writeSpoilers_eq ht.ids (fun p hp => (hslots _ (hzip p hp)).1) hzipIds]
  refine ⟨?_, fun record hr => ?_, ?_, ?_⟩
  · rw [files, slots_map_flagged]
    refine (flagged_zip hids hlen).trans ?_
    rw [files, List.map_map]
    rfl
  · rw [files, slots_map_flagged, files, List.map_congr_left (g := id) fun a ha => ?_, List.map_id]
    refine flagged_of_not_mem fun p hp hid => hr ?_
    obtain ⟨hp, hscheduled⟩ := hslots _ (hzip p hp)
    obtain ⟨ha, hrecord⟩ := mem_slots.mp ha
    rw [← hrecord, ← ht.eq_of_id hp ha hid, hscheduled]
  · rw [List.map_map]
    exact List.map_congr_left fun a _ => flagged_id ..
  · rw [List.map_map]
    exact List.map_congr_left fun a _ => flagged_record ..

/-- A dispatch takes the row's blobs in order, or none. -/
theorem dispatchEach_ok {row : ScheduledMessage} {env : Surroundings} {L : List Attachment}
    (h : Db.dispatchEach row env L = some (.ok blobIds)) : blobIds = L.map (·.blobId) := by
  induction L generalizing blobIds with
  | nil => cases h; rfl
  | cons a L ih =>
    rw [Db.dispatchEach] at h
    split at h
    next => cases h
    next => cases h
    next id hfile =>
      obtain ⟨rest, hrest, hids⟩ := Option.map_eq_some_iff.mp h
      cases rest with
      | error => cases hids
      | ok ids =>
        cases hids
        have hid : id = a.blobId := by
          unfold Db.dispatchFile at hfile
          repeat' split at hfile
          all_goals first | cases hfile; rfl | cases hfile
        rw [hid, ih hrest, List.map_cons]

theorem dispatchFiles_ok {row : ScheduledMessage} {env : Surroundings}
    (h : db.dispatchFiles row env = some (.ok blobIds)) : blobIds = db.attachmentSlots.map (·.blobId) := by
  unfold Db.dispatchFiles at h
  split at h
  next hempty =>
    cases h
    rw [List.isEmpty_iff.mp hempty]
    rfl
  next =>
    split at h
    next => cases h
    next => exact dispatchEach_ok h

/-- The row's own blobs have its own flags. -/
theorem attachmentSpoilersFor_slots (hn : (db.attachmentSlots.map (·.blobId)).Nodup) :
    db.attachmentSpoilersFor (db.attachmentSlots.map (·.blobId)) = some (db.attachmentSlots.map (·.spoiler)) := by
  unfold Db.attachmentSpoilersFor
  generalize db.attachmentSlots = L at hn
  have hfind : ∀ a ∈ L, L.find? (·.blobId = a.blobId) = some a := by
    intro a ha
    cases hf : L.find? (·.blobId = a.blobId) with
    | none => exact absurd (List.find?_eq_none.mp hf a ha) (by simp)
    | some b =>
      have hb : b.blobId = a.blobId := by simpa using List.find?_some hf
      rw [List.inj_on_of_nodup_map hn (List.mem_of_find?_eq_some hf) ha hb]
  suffices hall : ∀ M : List Attachment, (∀ a ∈ M, a ∈ L) →
      (M.map (·.blobId)).mapM (fun blobId => (L.find? (·.blobId = blobId)).map (·.spoiler)) =
        some (M.map (·.spoiler)) from hall L fun _ => id
  intro M hM
  induction M with
  | nil => rfl
  | cons a M ih =>
    rw [List.map_cons, List.mapM_cons, hfind a (hM a List.mem_cons_self), ih fun b hb => hM b (List.mem_cons_of_mem _ hb)]
    rfl

/-- The message gets the row's files. -/
theorem messageFiles_slots (row : ScheduledMessage) (reply : Option Nat) :
    Db.messageFiles (Db.dispatchAttrs row reply (db.attachmentSlots.map (·.blobId)) (db.attachmentSlots.map (·.spoiler))) =
      files .scheduled db.attachments := by
  unfold Db.messageFiles Db.dispatchAttrs files
  dsimp only
  show _ = db.attachmentSlots.map _
  generalize db.attachmentSlots = L
  refine List.ext_getElem (by simp) fun i hi hi' => ?_
  have hlt : i < L.length := by simpa using hi'
  simp [hlt]

end Attachments

/-! ## 4. Phases -/

/-- A row that isn't sent, with the files asked for, and while it may be with all else. -/
structure Waits (row : ScheduledMessage) (s : Run) : Prop where
  unsent : row.sentAt = none
  messages : s.db.messages = []
  files : files .scheduled s.db.attachments = s.asked.files
  source : row.pending = true → row.markdownSource = s.asked.source
  thread : row.pending = true → row.threadId = s.asked.threadId
  reply : row.pending = true → row.replyToMessageId = s.asked.replyTo ∨
    row.replyToMessageId = none ∧ ∀ id ∈ s.asked.replyTo, id ∉ s.db.others
  unclaimed : row.pending = true → row.claimedAt = none ∨ row.claimedAt = s.foundClaim

/-- A row that was sent has its message, and no files of its own. -/
structure Sent (row : ScheduledMessage) (s : Run) : Prop where
  sent : row.sentAt.isSome = true
  undropped : row.droppedAt = none
  messages : ∃ m, s.db.messages = [m] ∧ row.sentMessageId = some m.id
  files : files .scheduled s.db.attachments = []

/-- A row that was destroyed. -/
structure Gone (s : Run) : Prop where
  row : s.db.row = none
  messages : s.db.messages.length ≤ 1

inductive Phase (s : Run) : Prop where
  | waits (row : ScheduledMessage) (h : s.db.row = some row) (hw : Waits row s)
  | sent (row : ScheduledMessage) (h : s.db.row = some row) (hw : Sent row s)
  | gone (hw : Gone s)

/-- What a run keeps. -/
structure Inv (s : Run) : Prop where
  tidy : Tidy s.db
  records : ∀ a ∈ s.db.attachments, ∀ i, a.record = .message i → i < s.db.nextMessageId
  blobs : (s.asked.files.map (·.1)).Nodup
  others : ∀ id ∈ s.db.others, id < s.db.nextMessageId
  asked : ∀ id ∈ s.asked.replyTo, id < s.db.nextMessageId
  fits : ∀ m ∈ s.db.messages, m.Fits s
  phase : Phase s

variable {s s' : Run} {db' : Db} {row : ScheduledMessage}

theorem inv_begins (h : Begins s) : Inv s := by
  obtain ⟨row, hrow, hpending, hclaim, hasked, hreply⟩ := h.row
  have hunsent : row.sentAt = none := by
    have := ((Bool.and_eq_true _ _).mp hpending).1
    simpa using this
  refine ⟨⟨h.ids, h.below⟩, fun a ha i hi => ?_, ?_, h.others, fun id hid => ?_, fun m hm => ?_, ?_⟩
  · rw [h.records a ha] at hi
    cases hi
  · rw [hasked]
    exact h.blobs
  · rw [hasked] at hid
    exact h.others id (hreply id hid)
  · rw [h.messages] at hm
    cases hm
  · refine .waits row hrow ⟨hunsent, h.messages, ?_, fun _ => ?_, fun _ => ?_, fun _ => .inl ?_, fun _ => .inr hclaim⟩
    all_goals rw [hasked]

/-- A change of the row alone, within its phase. -/
theorem Inv.ofRow {r : Option ScheduledMessage} (h : Inv s) (hphase : Phase { s with db := { s.db with row := r } }) :
    Inv { s with db := { s.db with row := r } } :=
  ⟨⟨h.tidy.ids, h.tidy.below⟩, h.records, h.blobs, h.others, h.asked,
    fun m hm => ⟨(h.fits m hm).source, (h.fits m hm).thread, (h.fits m hm).reply, (h.fits m hm).files⟩, hphase⟩

theorem waits_of_pending (h : Inv s) (hrow : s.db.row = some row) (hp : row.pending = true) : Waits row s := by
  rcases h.phase with ⟨row', hrow', hw⟩ | ⟨row', hrow', hw⟩ | hw
  · rw [hrow] at hrow'
    cases hrow'
    exact hw
  · rw [hrow] at hrow'
    cases hrow'
    have hsent := hw.sent
    rw [ScheduledMessage.pending, Bool.and_eq_true] at hp
    simp [Option.isNone_iff_eq_none.mp hp.1] at hsent
  · rw [hw.row] at hrow
    cases hrow

/-! ## 5. Dispatch -/

/-- The eight ways out of a dispatch that doesn't fail: no claim, a claim released, the row dropped, or
    sent. -/
theorem dispatch_cases {db : Db} {env : Surroundings} {now : Int} {immediate sent : Bool}
    (h : db.dispatch env now immediate = some (sent, db')) :
    db' = db ∨ ∃ row, db.row = some row ∧ row.pending = true ∧
      (db' = { db with row := some { row with claimedAt := none, updatedAt := now } } ∨
      (∃ reason updated, db' =
        { db with
          row := some
            { row with claimedAt := some now, droppedAt := some now, dropReason := reason, updatedAt := updated } }) ∨
      ∃ spoilers claimed, claimed = { row with claimedAt := some now, updatedAt := now } ∧
        db.attachmentSpoilersFor (db.attachmentSlots.map (·.blobId)) = some spoilers ∧
        Db.send { db with row := some claimed } claimed env now
          (Db.dispatchAttrs claimed (row.replyToMessageId.filter (db.others.contains ·))
            (db.attachmentSlots.map (·.blobId)) spoilers) = some db') := by
  unfold Db.dispatch at h
  split at h
  next => cases h; exact .inl rfl
  next row hrow =>
    split at h
    next hclaim =>
      have hpending : row.pending = true := by
        simp only [Db.claimable, Bool.and_eq_true] at hclaim
        rw [ScheduledMessage.pending, hclaim.1.1.1, hclaim.1.1.2]
        rfl
      refine .inr ⟨row, hrow, hpending, ?_⟩
      dsimp only at h
      unfold Db.dispatchClaimed at h
      split at h
      next => cases h; exact .inl rfl
      next =>
        split at h
        next => cases h; exact .inr (.inl ⟨_, _, rfl⟩)
        next =>
          split at h
          next => cases h; exact .inl rfl
          next =>
            dsimp only at h
            split at h
            next => cases h; exact .inr (.inl ⟨_, _, rfl⟩)
            next =>
              split at h
              next => cases h
              next => cases h; exact .inr (.inl ⟨_, _, rfl⟩)
              next blobIds hfiles =>
                have hids := dispatchFiles_ok hfiles
                split at h
                next => cases h
                next spoilers hspoilers =>
                  split at h
                  next => cases h; exact .inr (.inl ⟨_, _, rfl⟩)
                  next =>
                    obtain ⟨db₁, hsend, heq⟩ := Option.map_eq_some_iff.mp h
                    cases heq
                    rw [hids] at hspoilers hsend
                    exact .inr (.inr ⟨spoilers, _, rfl, hspoilers, hsend⟩)
    next => cases h; exact .inl rfl

theorem slots_nodup (h : Inv s) (hw : Waits row s) : (s.db.attachmentSlots.map (·.blobId)).Nodup := by
  have hblobs := h.blobs
  rw [← hw.files, files, List.map_map] at hblobs
  exact hblobs

theorem inv_send (h : Inv s) (hrow : s.db.row = some row) (hp : row.pending = true) {env : Surroundings} {now : Int}
    {spoilers : List Bool} {claimed : ScheduledMessage}
    (hclaimed : claimed = { row with claimedAt := some now, updatedAt := now })
    (hspoilers : s.db.attachmentSpoilersFor (s.db.attachmentSlots.map (·.blobId)) = some spoilers)
    (hsend : Db.send { s.db with row := some claimed } claimed env now
      (Db.dispatchAttrs claimed (row.replyToMessageId.filter (s.db.others.contains ·))
        (s.db.attachmentSlots.map (·.blobId)) spoilers) = some db') :
    Inv { s with db := db' } := by
  subst hclaimed
  have hw := waits_of_pending h hrow hp
  rw [attachmentSpoilersFor_slots (slots_nodup h hw)] at hspoilers
  cases hspoilers
  obtain ⟨⟨m, made⟩, hcreate, rfl⟩ := Option.map_eq_some_iff.mp hsend
  obtain ⟨made', hmade, heq⟩ := Option.map_eq_some_iff.mp hcreate
  cases heq
  dsimp only at hmade
  rw [messageFiles_slots] at hmade
  have hc := creates_of_some hmade
  have hnone : files (.message s.db.nextMessageId) s.db.attachments = [] := by
    rw [files, List.map_eq_nil_iff, slots, List.filter_eq_nil_iff]
    intro a ha hr
    exact Nat.lt_irrefl _ (h.records a ha _ (of_decide_eq_true hr))
  have htidy : Tidy made := hc.tidy ⟨h.tidy.ids, h.tidy.below⟩
  have hfits : files (.message s.db.nextMessageId) (made.attachments.filter (·.record ≠ .scheduled)) = s.asked.files := by
    rw [files_filter_other (by simp), hc.files]
    show files _ s.db.attachments ++ _ = _
    rw [hnone, List.nil_append, hw.files]
  have hmessages : made.messages = [⟨s.db.nextMessageId, row.roomId, row.userId, row.threadId,
      row.replyToMessageId.filter (s.db.others.contains ·),
      (some row.markdownSource).filter (! Richtext.isBlank ·)⟩] := by
    rw [hc.same.messages]
    show s.db.messages ++ _ = _
    rw [hw.messages]
    rfl
  have hnext : made.nextMessageId = s.db.nextMessageId + 1 := hc.same.nextMessageId
  have hothers : made.others = s.db.others := hc.same.others
  refine ⟨⟨htidy.ids.sublist List.filter_sublist, fun a ha => htidy.below a (List.mem_of_mem_filter ha)⟩,
    fun a ha i hi => ?_, h.blobs, fun id hid => ?_, fun id hid => ?_, fun m hm => ?_, ?_⟩
  · show i < made.nextMessageId
    rw [hnext]
    rcases hc.records a (List.mem_of_mem_filter ha) with ha | ha
    · exact Nat.lt_succ_of_lt (h.records a ha i hi)
    · rw [hi] at ha
      cases ha
      exact Nat.lt_succ_self _
  · show id < made.nextMessageId
    rw [hnext]
    exact Nat.lt_succ_of_lt (h.others id (hothers ▸ hid))
  · show id < made.nextMessageId
    rw [hnext]
    exact Nat.lt_succ_of_lt (h.asked id hid)
  · have hm : m ∈ made.messages := hm
    rw [hmessages, List.mem_singleton] at hm
    subst hm
    refine ⟨?_, ?_, ?_, hfits⟩
    · exact congrArg (fun source => Option.filter (! Richtext.isBlank ·) (some source)) (hw.source hp)
    · exact hw.thread hp
    · show row.replyToMessageId.filter _ = _ ∨ row.replyToMessageId.filter _ = none ∧ ∀ id ∈ _, id ∉ made.others
      rw [hothers]
      rcases hw.reply hp with hr | ⟨hr, hgone⟩
      · rw [hr]
        cases hreply : s.asked.replyTo with
        | none => exact .inl rfl
        | some id =>
          by_cases hid : id ∈ s.db.others
          · exact .inl (by simp [hid])
          · exact .inr ⟨by simp [hid], fun id' hid' => by cases hid'; exact hid⟩
      · exact .inr ⟨by rw [hr]; rfl, hgone⟩
  · refine .sent _ rfl
      ⟨rfl, ?_, ?_, ?_⟩
    · exact Option.isNone_iff_eq_none.mp ((Bool.and_eq_true _ _).mp hp).2
    · exact ⟨_, hmessages, rfl⟩
    · exact files_filter_scheduled _

theorem inv_dispatch (h : Inv s) {env : Surroundings} {now : Int} {immediate sent : Bool}
    (hd : s.db.dispatch env now immediate = some (sent, db')) : Inv { s with db := db' } := by
  rcases dispatch_cases hd with rfl | ⟨row, hrow, hp, rfl | ⟨reason, updated, rfl⟩ | ⟨spoilers, claimed, hc, hs, hsend⟩⟩
  · exact h
  · have hw := waits_of_pending h hrow hp
    exact h.ofRow (.waits _ rfl ⟨hw.unsent, hw.messages, hw.files,
      fun _ => hw.source hp, fun _ => hw.thread hp, fun _ => hw.reply hp, fun _ => .inl rfl⟩)
  · have hw := waits_of_pending h hrow hp
    have hdropped : ∀ row' : ScheduledMessage, row'.droppedAt = some now → row'.pending ≠ true := by
      intro row' hr hp'
      simp [ScheduledMessage.pending, hr] at hp'
    refine h.ofRow (.waits _ rfl ⟨hw.unsent, hw.messages, hw.files, ?_, ?_, ?_, ?_⟩)
    all_goals exact fun hp' => absurd hp' (hdropped _ rfl)
  · exact inv_send h hrow hp hc hs hsend

/-! ## 6. Edits -/

/-- A reply passes the check only to a message there is. -/
theorem mem_others_of_valid {db : Db} {env : Surroundings} {attrs : Db.Draft} {changed : Bool} {count id : Nat}
    (h : Db.validateWithAttachments db env attrs changed count = []) (hid : id ∈ attrs.replyToMessageId) :
    id ∈ db.others := by
  have hlast := (List.append_eq_nil_iff.mp h).2
  rw [Option.mem_def.mp hid] at hlast
  dsimp only at hlast
  split at hlast
  next => cases hlast
  next hmem => simpa using hmem

/-- An edit that passes leaves the files or replaces them, and writes the row where something differs. -/
theorem update_cases {db : Db} {env : Surroundings} {source : Text} {sendAt : Int} {replyTo : Option Nat}
    {blobIds : Option (List Nat)} (h : db.updateWithAttachments row env source sendAt replyTo blobIds = some db') :
    (∀ id ∈ replyTo, id ∈ db.others) ∧
    ∃ chosen mid, chosen = blobIds.getD (db.attachmentSlots.map (·.blobId)) ∧
      (chosen = db.attachmentSlots.map (·.blobId) ∧ mid = db ∨ db.replaceAttachments chosen = some mid) ∧
      (db' = { mid with
          row := some { row with markdownSource := source, sendAt, replyToMessageId := replyTo, updatedAt := env.now } } ∨
        db' = mid ∧ mid = db ∧ source = row.markdownSource ∧ replyTo = row.replyToMessageId) := by
  unfold Db.updateWithAttachments at h
  dsimp only at h
  split at h
  next => cases h
  next hvalid =>
    rw [Decidable.not_not] at hvalid
    refine ⟨fun id hid => mem_others_of_valid hvalid hid, blobIds.getD (db.attachmentSlots.map (·.blobId)), ?_⟩
    split at h
    next =>
      obtain ⟨mid, hmid, rfl⟩ := Option.map_eq_some_iff.mp h
      refine ⟨mid, rfl, ?_, .inl rfl⟩
      split at hmid
      next => exact .inr hmid
      next hsame =>
        rw [Decidable.not_not] at hsame
        cases hmid
        exact .inl ⟨hsame, rfl⟩
    next hsame =>
      simp only [not_or, Decidable.not_not] at hsame
      cases h
      exact ⟨_, rfl, .inl ⟨hsame.2.2.2, rfl⟩, .inr ⟨rfl, rfl, hsame.1, hsame.2.2.1⟩⟩

/-- Choosing the files there are changes nothing. -/
theorem choose_self {fs : List (Nat × Bool)} (hn : (fs.map (·.1)).Nodup) :
    (fs.map (·.1)).map (fun b => (b, (fs.find? (·.1 = b)).any (·.2))) = fs := by
  rw [List.map_map]
  refine (List.map_congr_left fun f hf => ?_).trans (List.map_id fs)
  have hfind : fs.find? (·.1 = f.1) = some f := by
    cases hfound : fs.find? (·.1 = f.1) with
    | none => exact absurd (List.find?_eq_none.mp hfound f hf) (by simp)
    | some g =>
      have hg : g.1 = f.1 := by simpa using List.find?_some hfound
      rw [List.inj_on_of_nodup_map hn (List.mem_of_find?_eq_some hfound) hf hg]
  rw [Function.comp_apply, hfind]
  rfl

theorem inv_update (h : Inv s) (hrow : s.db.row = some row) (hp : row.pending = true) {env : Surroundings}
    {source : Text} {sendAt : Int} {replyTo : Option Nat} {blobIds : Option (List Nat)}
    (hu : s.db.updateWithAttachments row env source sendAt replyTo blobIds = some db') :
    Inv { s with db := db', asked := s.asked.after (.update env source sendAt replyTo blobIds) } := by
  have hw := waits_of_pending h hrow hp
  have hcurrent : s.db.attachmentSlots.map (·.blobId) = s.asked.files.map (·.1) := by
    rw [← hw.files, files, List.map_map]
    rfl
  obtain ⟨hreply, chosen, mid, hchosen, hmid, hdb⟩ := update_cases hu
  rw [hcurrent] at hchosen hmid
  -- the files are now those asked for, and all else is as it was
  have hfacts : Tidy mid ∧ SameBut s.db mid ∧
      files .scheduled mid.attachments = (blobIds.map s.asked.choose).getD s.asked.files ∧
      (∀ a ∈ mid.attachments, a ∈ s.db.attachments ∨ a.record = .scheduled) ∧
      (((blobIds.map s.asked.choose).getD s.asked.files).map (·.1)).Nodup := by
    rcases hmid with ⟨hsame, rfl⟩ | hreplace
    · have hfiles : (blobIds.map s.asked.choose).getD s.asked.files = s.asked.files := by
        cases blobIds with
        | none => rfl
        | some ids =>
          rw [show ids = s.asked.files.map (·.1) from hchosen.symm.trans hsame]
          exact choose_self h.blobs
      rw [hfiles]
      exact ⟨h.tidy, .refl _, hw.files, fun _ => .inl, h.blobs⟩
    · have hr := replaces_of_some h.tidy hreplace
      have hfiles : (blobIds.map s.asked.choose).getD s.asked.files = s.asked.choose chosen := by
        cases blobIds with
        | none =>
          rw [hchosen]
          exact (choose_self h.blobs).symm
        | some ids => rw [hchosen]; rfl
      refine ⟨hr.tidy, hr.same, ?_, hr.records, ?_⟩
      · rw [hfiles, hr.files, hw.files]
        rfl
      · rw [hfiles, Asked.choose, List.map_map]
        simpa [Function.comp_def] using hr.nodup
  obtain ⟨htidy, hsame, hfiles, hrecords, hnodup⟩ := hfacts
  have hdb' : db'.attachments = mid.attachments ∧ db'.nextAttachmentId = mid.nextAttachmentId ∧
      db'.messages = mid.messages ∧ db'.others = mid.others ∧ db'.nextMessageId = mid.nextMessageId ∧
      ∃ row', db'.row = some row' ∧ row'.sentAt = row.sentAt ∧ row'.threadId = row.threadId ∧
        row'.claimedAt = row.claimedAt ∧ row'.markdownSource = source ∧ row'.replyToMessageId = replyTo := by
    rcases hdb with rfl | ⟨rfl, hmiddb, hs, hr⟩
    · exact ⟨rfl, rfl, rfl, rfl, rfl, _, rfl, rfl, rfl, rfl, rfl, rfl⟩
    · exact ⟨rfl, rfl, rfl, rfl, rfl, row, by rw [hmiddb, hrow], rfl, rfl, rfl, hs.symm, hr.symm⟩
  obtain ⟨hat, hnextAt, hmess, hoth, hnext, row', hrow', hsent', hthread', hclaimed', hsource', hreply'⟩ := hdb'
  have hothers : db'.others = s.db.others := hoth.trans hsame.others
  have hmessages : db'.messages = [] := hmess.trans (hsame.messages.trans hw.messages)
  have hnextId : db'.nextMessageId = s.db.nextMessageId := hnext.trans hsame.nextMessageId
  refine ⟨⟨hat ▸ htidy.ids, fun a ha => ?_⟩, fun a ha i hi => ?_, hnodup, fun id hid => ?_, fun id hid => ?_, fun m hm => ?_, ?_⟩
  · show a.id < db'.nextAttachmentId
    rw [hnextAt]
    exact htidy.below a (hat ▸ ha)
  · show i < db'.nextMessageId
    rw [hnextId]
    rcases hrecords a (hat ▸ ha) with ha | ha
    · exact h.records a ha i hi
    · rw [hi] at ha
      cases ha
  · show id < db'.nextMessageId
    rw [hnextId]
    exact h.others id (hothers ▸ hid)
  · show id < db'.nextMessageId
    rw [hnextId]
    exact h.others id (hreply id hid)
  · have hm : m ∈ db'.messages := hm
    rw [hmessages] at hm
    cases hm
  · refine .waits row' hrow' ⟨hsent'.trans hw.unsent, hmessages, ?_, fun _ => hsource', fun _ => hthread'.trans (hw.thread hp),
      fun _ => .inl hreply', fun _ => ?_⟩
    · show files .scheduled db'.attachments = _
      rw [hat]
      exact hfiles
    · rw [hclaimed']
      exact hw.unclaimed hp

/-- Spoilers change the row's own time at most, and the files. -/
theorem setAttachmentSpoilers_eq_some {db db' : Db} {row : ScheduledMessage} {now : Int} {flags : List Bool}
    (hu : db.setAttachmentSpoilers row now flags = some db') :
    flags.length = db.attachmentSlots.length ∧ ∃ row', (row' = { row with updatedAt := now } ∨ row' = row) ∧
      { db with row := some row', attachments := Db.writeSpoilers (db.attachmentSlots.zip flags) db.attachments } =
        db' := by
  unfold Db.setAttachmentSpoilers at hu
  dsimp only at hu
  split at hu
  · cases hu
  · next hlen =>
    refine ⟨Decidable.not_not.mp hlen, _, ?_, Option.some.inj hu⟩
    split
    · exact .inl rfl
    · exact .inr rfl

theorem inv_setSpoilers (h : Inv s) (hrow : s.db.row = some row) (hp : row.pending = true) {now : Int}
    {flags : List Bool} (hu : s.db.setAttachmentSpoilers row now flags = some db') :
    Inv { s with db := db', asked := s.asked.after (.setSpoilers now flags) } := by
  have hw := waits_of_pending h hrow hp
  obtain ⟨hlen, row', hrow', rfl⟩ := setAttachmentSpoilers_eq_some hu
  have hsame : row'.sentAt = row.sentAt ∧ row'.markdownSource = row.markdownSource ∧ row'.threadId = row.threadId ∧
      row'.replyToMessageId = row.replyToMessageId ∧ row'.claimedAt = row.claimedAt := by
    rcases hrow' with rfl | rfl <;> exact ⟨rfl, rfl, rfl, rfl, rfl⟩
  obtain ⟨hsent', hsource', hthread', hreply', hclaimed'⟩ := hsame
  obtain ⟨hfiles, hothers, hids, hrecords⟩ := files_writeSpoilers h.tidy hlen
  generalize Db.writeSpoilers (s.db.attachmentSlots.zip flags) s.db.attachments = as at hfiles hothers hids hrecords
  have hmap : ∀ a ∈ as, ∃ b ∈ s.db.attachments, b.id = a.id := by
    intro a ha
    have ha' : a.id ∈ as.map (·.id) := List.mem_map.mpr ⟨a, ha, rfl⟩
    rw [hids] at ha'
    exact List.mem_map.mp ha'
  have hmapRecord : ∀ a ∈ as, ∃ b ∈ s.db.attachments, b.record = a.record := by
    intro a ha
    have ha' : a.record ∈ as.map (·.record) := List.mem_map.mpr ⟨a, ha, rfl⟩
    rw [hrecords] at ha'
    exact List.mem_map.mp ha'
  refine ⟨⟨?_, fun a ha => ?_⟩, fun a ha i hi => ?_, ?_, h.others, h.asked, fun m hm => ?_, ?_⟩
  · show as.Pairwise fun a b => a.id < b.id
    have hpair := h.tidy.ids
    rw [← List.pairwise_map (f := Attachment.id) (R := (· < ·))] at hpair ⊢
    rw [hids]
    exact hpair
  · obtain ⟨b, hb, hid⟩ := hmap a ha
    rw [← hid]
    exact h.tidy.below b hb
  · obtain ⟨b, hb, hr⟩ := hmapRecord a ha
    exact h.records b hb i (hr.trans hi)
  · show ((s.asked.files.map (·.1)).zip flags |>.map (·.1)).Nodup
    rw [List.map_fst_zip]
    · exact h.blobs
    · rw [hlen, List.length_map, ← hw.files, files, List.length_map]
      exact Nat.le_refl _
  · have hm : m ∈ s.db.messages := hm
    rw [hw.messages] at hm
    cases hm
  · refine .waits row' rfl ⟨hsent'.trans hw.unsent, hw.messages, ?_, fun _ => hsource'.trans (hw.source hp),
      fun _ => hthread'.trans (hw.thread hp), fun _ => ?_, fun _ => ?_⟩
    · show files .scheduled as = _
      rw [hfiles, hw.files]
      rfl
    · rw [hreply']
      exact hw.reply hp
    · rw [hclaimed']
      exact hw.unclaimed hp

/-! ## 7. Threads, other messages, the end -/

/-- A message stays what was asked for when others go or come. -/
theorem fits_keep {m : Message} (h : m.Fits s) {db : Db}
    (hfiles : files (.message m.id) db.attachments = files (.message m.id) s.db.attachments)
    (hothers : ∀ id ∈ s.asked.replyTo, id ∉ s.db.others → id ∉ db.others) : m.Fits { s with db := db } := by
  refine ⟨h.source, h.thread, h.reply.imp (fun hr => hr) fun ⟨hr, hgone⟩ => ⟨hr, fun id hid => ?_⟩, hfiles.trans h.files⟩
  exact hothers id hid (hgone id hid)

theorem inv_dropForThread (h : Inv s) (threadId : Nat) (now : Int) :
    Inv { s with db := Run.clearThread (s.db.dropForThread threadId now) threadId } := by
  rcases hphase : s.db.row with _ | row
  · have heq : Run.clearThread (s.db.dropForThread threadId now) threadId = s.db := by
      unfold Run.clearThread Db.dropForThread
      rw [hphase]
      dsimp only
      rw [hphase, Option.map_none, ← hphase]
    rw [heq]
    exact h
  · by_cases hdrop : (row.threadId = some threadId && row.pending) = true
    · have hp := ((Bool.and_eq_true _ _).mp hdrop).2
      have hw := waits_of_pending h hphase hp
      have heq : Run.clearThread (s.db.dropForThread threadId now) threadId =
          { s.db with
            row := some
              { row with
                droppedAt := some now
                dropReason := some "its thread was deleted"
                updatedAt := now
                threadId := row.threadId.filter (· ≠ threadId) } } := by
        unfold Run.clearThread Db.dropForThread
        rw [hphase]
        dsimp only
        rw [if_pos hdrop]
        rfl
      rw [heq]
      have hdropped : ∀ row' : ScheduledMessage, row'.droppedAt = some now → row'.pending ≠ true := by
        intro row' hr hp'
        simp [ScheduledMessage.pending, hr] at hp'
      refine h.ofRow (.waits _ rfl ⟨hw.unsent, hw.messages, hw.files, ?_, ?_, ?_, ?_⟩)
      all_goals exact fun hp' => absurd hp' (hdropped _ rfl)
    · have heq : Run.clearThread (s.db.dropForThread threadId now) threadId =
          { s.db with row := some { row with threadId := row.threadId.filter (· ≠ threadId) } } := by
        unfold Run.clearThread Db.dropForThread
        rw [hphase]
        dsimp only
        rw [if_neg hdrop, hphase]
        rfl
      rw [heq]
      refine h.ofRow ?_
      rcases h.phase with ⟨row', hrow', hw⟩ | ⟨row', hrow', hw⟩ | hw
      · rw [hphase] at hrow'
        cases hrow'
        refine .waits _ rfl ⟨hw.unsent, hw.messages, hw.files, hw.source, fun hp => ?_, hw.reply, hw.unclaimed⟩
        -- a row that waits stands in another thread
        have hne : row.threadId ≠ some threadId := fun ht => hdrop (by
          rw [ht]
          exact (Bool.and_eq_true _ _).mpr ⟨by simp, hp⟩)
        refine Eq.trans ?_ (hw.thread hp)
        cases ht : row.threadId with
        | none => rfl
        | some id =>
          rw [ht] at hne
          have : id ≠ threadId := fun h => hne (by rw [h])
          simp [this]
      · rw [hphase] at hrow'
        cases hrow'
        exact .sent _ rfl ⟨hw.sent, hw.undropped, hw.messages, hw.files⟩
      · have := hw.row
        rw [hphase] at this
        cases this

theorem inv_destroy (h : Inv s) (hd : s.db.destroy = some db') : Inv { s with db := db' } := by
  obtain ⟨mid, hreplace, rfl⟩ := Option.map_eq_some_iff.mp hd
  have hr := replaces_of_some h.tidy hreplace
  have hlen : s.db.messages.length ≤ 1 := by
    rcases h.phase with ⟨_, _, hw⟩ | ⟨_, _, hw⟩ | hw
    · rw [hw.messages]
      exact Nat.zero_le 1
    · obtain ⟨m, hm, _⟩ := hw.messages
      rw [hm]
      exact Nat.le_refl 1
    · exact hw.messages
  refine ⟨⟨hr.tidy.ids, hr.tidy.below⟩, fun a ha i hi => ?_, h.blobs, fun id hid => ?_, fun id hid => ?_, fun m hm => ?_,
    .gone ⟨rfl, ?_⟩⟩
  · show i < mid.nextMessageId
    rw [hr.same.nextMessageId]
    rcases hr.records a ha with ha | ha
    · exact h.records a ha i hi
    · rw [hi] at ha
      cases ha
  · show id < mid.nextMessageId
    rw [hr.same.nextMessageId]
    exact h.others id (hr.same.others ▸ hid)
  · show id < mid.nextMessageId
    rw [hr.same.nextMessageId]
    exact h.asked id hid
  · refine fits_keep (h.fits m (hr.same.messages ▸ hm)) (hr.others _ (by simp)) fun id _ hgone => ?_
    show id ∉ mid.others
    rw [hr.same.others]
    exact hgone
  · show mid.messages.length ≤ 1
    rw [hr.same.messages]
    exact hlen

/-- A key cleared: what it was, or none where it went. -/
theorem filter_key {key : Option Nat} (id : Nat) :
    key.filter (· ≠ id) = key ∨ key.filter (· ≠ id) = none ∧ key = some id := by
  cases key with
  | none => exact .inl rfl
  | some n =>
    by_cases hn : n = id
    · exact .inr ⟨by simp [hn], by rw [hn]⟩
    · exact .inl (by simp [hn])

/-- A reply that is as asked for, or gone, is so when one more message goes. -/
theorem reply_clear {key asked : Option Nat} {others : List Nat} (id : Nat)
    (h : key = asked ∨ key = none ∧ ∀ i ∈ asked, i ∉ others) :
    key.filter (· ≠ id) = asked ∨ key.filter (· ≠ id) = none ∧ ∀ i ∈ asked, i ∉ others.filter (· ≠ id) := by
  rcases h with rfl | ⟨rfl, hgone⟩
  · rcases @filter_key key id with hk | ⟨hk, rfl⟩
    · exact .inl hk
    · refine .inr ⟨hk, fun i hi => ?_⟩
      cases hi
      simp
  · exact .inr ⟨rfl, fun i hi hm => hgone i hi (List.mem_of_mem_filter hm)⟩

theorem inv_deleteMessage (h : Inv s) (id : Nat) (hd : s.perform (.deleteMessage id) = some db') :
    Inv { s with db := db' } := by
  cases hd
  refine ⟨⟨h.tidy.ids, h.tidy.below⟩, h.records, h.blobs, fun i hi => h.others i (List.mem_of_mem_filter hi), h.asked,
    fun m hm => ?_, ?_⟩
  · obtain ⟨m₀, hm₀, rfl⟩ := List.mem_map.mp hm
    have hf := h.fits m₀ hm₀
    exact ⟨hf.source, hf.thread, reply_clear id hf.reply, hf.files⟩
  · rcases h.phase with ⟨row, hrow, hw⟩ | ⟨row, hrow, hw⟩ | hw
    · refine .waits _ (congrArg (Option.map _) hrow) ⟨hw.unsent, ?_, hw.files, hw.source, hw.thread,
        fun hp => reply_clear id (hw.reply hp), hw.unclaimed⟩
      show s.db.messages.map _ = []
      rw [hw.messages]
      rfl
    · obtain ⟨m, hm, hid⟩ := hw.messages
      refine .sent _ (congrArg (Option.map _) hrow) ⟨hw.sent, hw.undropped, ⟨_, congrArg (List.map _) hm, hid⟩, hw.files⟩
    · refine .gone ⟨?_, ?_⟩
      · show s.db.row.map _ = none
        rw [hw.row]
        rfl
      · show (s.db.messages.map _).length ≤ 1
        rw [List.length_map]
        exact hw.messages

theorem inv_postMessage (h : Inv s) (hd : s.perform .postMessage = some db') : Inv { s with db := db' } := by
  cases hd
  have hnew : ∀ id ∈ s.asked.replyTo, id ∉ s.db.others → id ∉ s.db.others ++ [s.db.nextMessageId] := by
    intro id hid hgone hm
    rcases List.mem_append.mp hm with hm | hm
    · exact hgone hm
    · exact Nat.ne_of_lt (h.asked id hid) (List.mem_singleton.mp hm)
  refine ⟨⟨h.tidy.ids, h.tidy.below⟩, fun a ha i hi => Nat.lt_succ_of_lt (h.records a ha i hi), h.blobs, fun i hi => ?_,
    fun i hi => Nat.lt_succ_of_lt (h.asked i hi), fun m hm => fits_keep (h.fits m hm) rfl hnew, ?_⟩
  · rcases List.mem_append.mp hi with hi | hi
    · exact Nat.lt_succ_of_lt (h.others i hi)
    · rw [List.mem_singleton.mp hi]
      exact Nat.lt_succ_self _
  · rcases h.phase with ⟨row, hrow, hw⟩ | ⟨row, hrow, hw⟩ | hw
    · exact .waits row hrow ⟨hw.unsent, hw.messages, hw.files, hw.source, hw.thread,
        fun hp => (hw.reply hp).imp (fun hr => hr) fun ⟨hr, hgone⟩ => ⟨hr, fun i hi => hnew i hi (hgone i hi)⟩, hw.unclaimed⟩
    · exact .sent row hrow ⟨hw.sent, hw.undropped, hw.messages, hw.files⟩
    · exact .gone ⟨hw.row, hw.messages⟩

/-! ## 8. Runs -/

theorem inv_perform {op : Op} (h : Inv s) (hp : s.perform op = some db') :
    Inv { s with db := db', asked := s.asked.after op } := by
  cases op with
  | dispatch env now immediate =>
    obtain ⟨⟨sent, db₁⟩, hd, rfl⟩ := Option.map_eq_some_iff.mp hp
    exact inv_dispatch h hd
  | update env source sendAt replyTo blobIds =>
    obtain ⟨row, hrow, hu⟩ := Option.bind_eq_some_iff.mp hp
    obtain ⟨hrow, hpending⟩ := Option.filter_eq_some_iff.mp hrow
    exact inv_update h hrow hpending hu
  | setSpoilers now flags =>
    obtain ⟨row, hrow, hu⟩ := Option.bind_eq_some_iff.mp hp
    obtain ⟨hrow, hpending⟩ := Option.filter_eq_some_iff.mp hrow
    exact inv_setSpoilers h hrow hpending hu
  | dropForThread threadId now =>
    cases hp
    exact inv_dropForThread h threadId now
  | destroy =>
    rw [Run.perform] at hp
    split at hp
    · exact inv_destroy h hp
    · cases hp
  | deleteMessage id => exact inv_deleteMessage h id hp
  | postMessage => exact inv_postMessage h hp

theorem step_cases {a : Label} (hs : s.step a = some s') :
    s' = s ∨ ∃ db, s.perform a.op = some db ∧ s' = { s with db := db, asked := s.asked.after a.op } := by
  unfold Run.step at hs
  split at hs
  next db hdb =>
    split at hs
    · cases hs
      exact .inr ⟨db, hdb, rfl⟩
    · cases hs
      exact .inl rfl
  next =>
    cases hs
    exact .inl rfl

theorem inv_reach (h : Reach scheduledSystem s) : Inv s := by
  refine h.induct (fun s => inv_begins) fun s a s' _ hi _ hs => ?_
  rcases step_cases hs with rfl | ⟨db, hdb, rfl⟩
  · exact hi
  · exact inv_perform hi hdb

/-- **A settled row stays as it is, and is sent no more.** -/
theorem perform_settled {op : Op} (h : Inv s) (hp : s.perform op = some db') (hrow : s.db.row = some row)
    (hsettled : row.pending = false) :
    db'.messages.map (·.id) = s.db.messages.map (·.id) ∧
      ∀ row' ∈ db'.row, row'.sentAt = row.sentAt ∧ row'.droppedAt = row.droppedAt := by
  have hsame : ∀ row' ∈ s.db.row, row'.sentAt = row.sentAt ∧ row'.droppedAt = row.droppedAt := by
    intro row' hr
    rw [hrow] at hr
    cases hr
    exact ⟨rfl, rfl⟩
  have hnone : s.db.row.filter (·.pending) = none := by rw [hrow]; simp [hsettled]
  cases op with
  | dispatch env now immediate =>
    obtain ⟨⟨sent, db₁⟩, hd, rfl⟩ := Option.map_eq_some_iff.mp hp
    rcases dispatch_cases hd with rfl | ⟨row', hrow', hpending, _⟩
    · exact ⟨rfl, hsame⟩
    · rw [hrow] at hrow'
      cases hrow'
      rw [hsettled] at hpending
      cases hpending
  | update | setSpoilers =>
    rw [Run.perform, hnone] at hp
    cases hp
  | dropForThread threadId now =>
    cases hp
    have hdrop : s.db.dropForThread threadId now = s.db := by
      unfold Db.dropForThread
      rw [hrow]
      dsimp only
      rw [hsettled, Bool.and_false, if_neg Bool.false_ne_true]
    rw [hdrop]
    refine ⟨rfl, fun row' hr => ?_⟩
    obtain ⟨row₀, hrow₀, rfl⟩ := Option.map_eq_some_iff.mp hr
    exact hsame row₀ hrow₀
  | destroy =>
    rw [Run.perform, hrow, if_pos Option.isSome_some] at hp
    obtain ⟨mid, hreplace, rfl⟩ := Option.map_eq_some_iff.mp hp
    refine ⟨?_, fun _ hrow' => by cases hrow'⟩
    show mid.messages.map _ = _
    rw [(replaces_of_some h.tidy hreplace).same.messages]
  | deleteMessage id =>
    cases hp
    refine ⟨?_, fun row' hr => ?_⟩
    · show (s.db.messages.map _).map _ = _
      rw [List.map_map]
      rfl
    · obtain ⟨row₀, hrow₀, rfl⟩ := Option.map_eq_some_iff.mp hr
      exact hsame row₀ hrow₀
  | postMessage =>
    cases hp
    exact ⟨rfl, hsame⟩

/-- **The end of the row spares its message's blobs.** -/
theorem destroy_spares (h : Inv s) (hp : s.perform .destroy = some db') :
    ∀ m ∈ s.db.messages, ∀ file ∈ files (.message m.id) s.db.attachments, file.1 ∈ db'.purges →
      file.1 ∈ s.db.purges := by
  intro m hm file _ hpurge
  rw [Run.perform] at hp
  split at hp
  next hrow =>
    obtain ⟨mid, hreplace, rfl⟩ := Option.map_eq_some_iff.mp hp
    rcases (replaces_of_some h.tidy hreplace).purges _ hpurge with hpurge | hslot
    · exact hpurge
    · rcases h.phase with ⟨_, _, hw⟩ | ⟨_, _, hw⟩ | hw
      · rw [hw.messages] at hm
        cases hm
      · rw [hw.files] at hslot
        cases hslot
      · rw [hw.row] at hrow
        cases hrow
  next => cases hp

theorem settled_of_inv (h : Inv s) : Settled s := by
  refine ⟨?_, fun row hr hsent => ?_, fun a s' row hs hrow hsettled => ?_, fun row hr hp => ?_, fun row hr => ?_,
    h.fits, fun row hr hunsent => ?_, fun commits s' hs => ?_⟩
  · rcases h.phase with ⟨_, _, hw⟩ | ⟨_, _, hw⟩ | hw
    · rw [hw.messages]
      exact Nat.zero_le 1
    · obtain ⟨m, hm, _⟩ := hw.messages
      rw [hm]
      exact Nat.le_refl 1
    · exact hw.messages
  · rcases h.phase with ⟨_, hrow, hw⟩ | ⟨_, hrow, hw⟩ | hw
    · rw [hrow] at hr
      cases hr
      rw [hw.unsent] at hsent
      cases hsent
    · rw [hrow] at hr
      cases hr
      exact hw.undropped
    · rw [hw.row] at hr
      cases hr
  · rcases step_cases hs with rfl | ⟨db, hdb, rfl⟩
    · refine ⟨rfl, fun row' hr => ?_⟩
      rw [hrow] at hr
      cases hr
      exact ⟨rfl, rfl⟩
    · exact perform_settled h hdb hrow hsettled
  · exact (waits_of_pending h hr hp).unclaimed hp
  · rcases h.phase with ⟨_, hrow, hw⟩ | ⟨_, hrow, hw⟩ | hw
    · rw [hrow] at hr
      cases hr
      rw [hw.messages, hw.unsent]
      exact ⟨⟨nofun, fun h => absurd rfl h⟩, nofun⟩
    · rw [hrow] at hr
      cases hr
      obtain ⟨m, hm, hid⟩ := hw.messages
      rw [hm]
      refine ⟨⟨fun _ => List.cons_ne_nil _ _, fun _ => hw.sent⟩, fun m' hm' => ?_⟩
      rw [List.mem_singleton.mp hm']
      exact hid
    · rw [hw.row] at hr
      cases hr
  · rcases h.phase with ⟨_, _, hw⟩ | ⟨_, hrow, hw⟩ | hw
    · exact hw.files
    · rw [hrow] at hr
      cases hr
      have hsent := hw.sent
      rw [hunsent] at hsent
      cases hsent
    · rw [hw.row] at hr
      cases hr
  · rcases step_cases hs with rfl | ⟨db, hdb, rfl⟩
    · exact fun _ _ _ _ hpurge => hpurge
    · exact destroy_spares h hdb

/-- **A scheduled message is settled at most once and loses no file, in every run.** -/
theorem settled_of_reach (h : Reach scheduledSystem s) : Settled s := settled_of_inv (inv_reach h)

/-! ## 9. A run -/

/-- Everybody may send, nothing is wrong. -/
def calm (now : Int) : Surroundings where
  now := now
  before a b := a < b
  notAfter a b := a ≤ b
  sendable := true
  roomDeleted := false
  threadLocked := false
  userExists := true
  roomExists := true
  threadRoomId _ := none
  replyVisible _ := true
  attachmentService := true
  uploadLimit := 1000
  blob _ := some ⟨some 1, 10, none, .file 10 .notFound⟩
  messageErrors _ := []

def draftRow : ScheduledMessage where
  userId := 1
  roomId := 2
  threadId := none
  replyToMessageId := none
  sentMessageId := none
  markdownSource := "hello".toList
  sendAt := 100
  claimedAt := none
  sentAt := none
  droppedAt := none
  dropReason := none
  updatedAt := 0

def draftRun : Run where
  db := ⟨some draftRow, [⟨1, .scheduled, 7, false⟩], [], [], [], 2, 1⟩
  asked := ⟨"hello".toList, none, none, [(7, false)]⟩
  foundClaim := none

theorem begins_draftRun : Begins draftRun where
  row := ⟨draftRow, rfl, rfl, rfl, rfl, nofun⟩
  ids := List.pairwise_singleton _ _
  below := by decide
  records := by decide
  blobs := by decide
  messages := rfl
  others := by decide

/-- Two more files, one of them a spoiler; too early; then sent, and its row destroyed. -/
def editedRun : List Label :=
  [⟨.update (calm 10) "hi".toList 100 none (some [8, 7]), true⟩, ⟨.setSpoilers 11 [true, false], true⟩,
    ⟨.dispatch (calm 50) 50 false, true⟩, ⟨.dispatch (calm 150) 150 false, false⟩, ⟨.dispatch (calm 160) 160 false, true⟩,
    ⟨.dispatch (calm 170) 170 true, true⟩, ⟨.destroy, true⟩]

theorem settled_of_reach_sample : ∃ s, Reach scheduledSystem s ∧
    s.db.messages = [⟨1, 2, 1, none, none, some "hi".toList⟩] ∧
    files (.message 1) s.db.attachments = [(8, true), (7, false)] ∧ s.db.row = none ∧ s.db.purges = [] ∧ Settled s := by
  obtain ⟨s, hs, hp⟩ := exists_reachWhen_of_replay (T := scheduledSystem) (G := fun _ _ => True) (s := draftRun)
    (l := editedRun)
    (p := fun s => s.db.messages = [⟨1, 2, 1, none, none, some "hi".toList⟩] ∧
      files (.message 1) s.db.attachments = [(8, true), (7, false)] ∧ s.db.row = none ∧ s.db.purges = [])
    begins_draftRun (by decide +kernel)
  obtain ⟨hm, hf, hr, hpurges⟩ := of_decide_eq_true hp
  exact ⟨s, hs, hm, hf, hr, hpurges, settled_of_reach hs⟩

end Smartfire.Scheduled
