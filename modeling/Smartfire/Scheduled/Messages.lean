/-
  File:      Smartfire/Scheduled/Messages.lean
  Subject:   A scheduled message's row and its files (crates/db/src/models/scheduled_message.rs).

  Every function runs inside a writer transaction; none where it returns an error, which rolls the
  transaction back. What else a transaction reads stands in its surroundings.

  * `Attachment`, `slots` -- attachments by their record, in the order of their ids;
  * `ScheduledMessage`, `Db` -- the row, with the messages it made and the others there are;
  * `replaceAttachments`, `updateWithAttachments`, `setAttachmentSpoilers` -- edits;
  * `dispatchFiles`, `dispatch` -- sending;
  * `dropForThread`, `destroy`.
-/
import Smartfire.Richtext.PlainText

namespace Smartfire.Scheduled

/-! ## 1. Rows -/

/-- What an attachment is attached to: the row's "attachments", or a message's. -/
inductive Record where
  | scheduled
  | message (id : Nat)
deriving DecidableEq

structure Attachment where
  id : Nat
  record : Record
  blobId : Nat
  spoiler : Bool
deriving DecidableEq

structure ScheduledMessage where
  userId : Nat
  roomId : Nat
  threadId : Option Nat
  replyToMessageId : Option Nat
  sentMessageId : Option Nat
  markdownSource : Text
  sendAt : Int
  claimedAt : Option Int
  sentAt : Option Int
  droppedAt : Option Int
  dropReason : Option String
  updatedAt : Int
deriving DecidableEq

def ScheduledMessage.pending (row : ScheduledMessage) : Bool := row.sentAt.isNone && row.droppedAt.isNone

/-- `NewMessage`, what a dispatch sets of it. -/
structure NewMessage where
  roomId : Nat
  creatorId : Nat
  threadId : Option Nat
  replyToMessageId : Option Nat
  markdownSource : Option Text
  attachmentBlobIds : List Nat
  attachmentSpoilers : List Bool
deriving DecidableEq

structure Message where
  id : Nat
  roomId : Nat
  creatorId : Nat
  threadId : Option Nat
  replyToMessageId : Option Nat
  markdownSource : Option Text
deriving DecidableEq

/-- The row, unless destroyed, and what else is there. -/
structure Db where
  row : Option ScheduledMessage
  attachments : List Attachment
  /-- The messages the row was sent as. -/
  messages : List Message
  /-- The other messages there are. -/
  others : List Nat
  /-- The blobs whose purge was asked for. -/
  purges : List Nat
  nextAttachmentId : Nat
  nextMessageId : Nat
deriving DecidableEq

inductive FileChecksum where
  | read (checksum : String)
  | notFound
  | failed
deriving DecidableEq

/-- `std::fs::metadata` of a stored file. -/
inductive StoredFile where
  | file (length : Nat) (checksum : FileChecksum)
  | notFile
  | notFound
  | failed

structure StoredBlob where
  uploaderId : Option Nat
  byteSize : Int
  checksum : Option String
  file : StoredFile

/-- What a transaction reads beside the row and its files. -/
structure Surroundings where
  now : Int
  /-- How SQLite compares two stored times. -/
  before : Int → Int → Bool
  notAfter : Int → Int → Bool
  sendable : Bool
  roomDeleted : Bool
  threadLocked : Bool
  userExists : Bool
  roomExists : Bool
  threadRoomId : Nat → Option Nat
  /-- In the same room and thread, and visible to the author. -/
  replyVisible : Nat → Bool
  attachmentService : Bool
  uploadLimit : Int
  blob : Nat → Option StoredBlob
  /-- `Message::validate` -/
  messageErrors : NewMessage → List String

/-! ## 2. Attachments -/

def attachmentsPerMessage : Nat := 10

def sourceLimit : Nat := 50000

/-- `ORDER BY id` -/
def slots (record : Record) (attachments : List Attachment) : List Attachment :=
  attachments.filter (·.record = record)

/-- A record's blobs in order, with their flags. -/
def files (record : Record) (attachments : List Attachment) : List (Nat × Bool) :=
  (slots record attachments).map fun a => (a.blobId, a.spoiler)

namespace Db

variable (db : Db)

/-- `attachment_slots` -/
def attachmentSlots : List Attachment := slots .scheduled db.attachments

/-- A record has a blob once. -/
def createAttachment (record : Record) (blobId : Nat) (spoiler : Bool) : Option Db :=
  if (slots record db.attachments).any (·.blobId = blobId) then none
  else
    some
      { db with
        attachments := db.attachments ++ [⟨db.nextAttachmentId, record, blobId, spoiler⟩]
        nextAttachmentId := db.nextAttachmentId + 1 }

def createAttachments (record : Record) : List (Nat × Bool) → Db → Option Db
  | [], db => some db
  | (blobId, spoiler) :: rest, db => (db.createAttachment record blobId spoiler).bind (createAttachments record rest)

def deleteAttachment (id : Nat) : Db := { db with attachments := db.attachments.filter (·.id ≠ id) }

/-- The attachments go, each with the purge of its blob where it doesn't come back. -/
def deleteAttachments (blobIds : List Nat) : List Attachment → Db → Db
  | [], db => db
  | attachment :: rest, db =>
    let deleted := db.deleteAttachment attachment.id
    deleteAttachments blobIds rest
      (if blobIds.contains attachment.blobId then deleted
      else { deleted with purges := deleted.purges ++ [attachment.blobId] })

/-- A blob keeps the flag it had. -/
def keptSpoiler (current : List Attachment) (blobId : Nat) : Bool :=
  (current.find? (·.blobId = blobId)).any (·.spoiler)

def replaceAttachments (blobIds : List Nat) : Option Db :=
  let current := db.attachmentSlots
  createAttachments .scheduled (blobIds.map fun blobId => (blobId, keptSpoiler current blobId))
    (deleteAttachments blobIds current db)

/-! ## 3. Edits -/

structure Draft where
  userId : Nat
  roomId : Nat
  threadId : Option Nat
  replyToMessageId : Option Nat
  markdownSource : Text
  sendAt : Int

def validateWithAttachments (env : Surroundings) (attrs : Draft) (sendAtChanged : Bool) (fileCount : Nat) :
    List (String × String) :=
  (if env.userExists then [] else [("user", "must exist")]) ++
  (if env.roomExists then [] else [("room", "must exist")]) ++
  (if Richtext.isBlank attrs.markdownSource && fileCount = 0 then [("markdown_source", "can't be blank")] else []) ++
  (if attachmentsPerMessage < fileCount then
    [("attachments", "are limited to " ++ toString attachmentsPerMessage ++ " per message")] else []) ++
  (if sourceLimit < attrs.markdownSource.length then
    [("markdown_source", "is too long (maximum is " ++ toString sourceLimit ++ " characters)")] else []) ++
  (if sendAtChanged && attrs.sendAt ≤ env.now then [("send_at", "must be in the future")] else []) ++
  (if (attrs.threadId.bind env.threadRoomId).any (· ≠ attrs.roomId) then
    [("thread", "must belong to the scheduled room")] else []) ++
  match attrs.replyToMessageId with
  | none => []
  | some id =>
    if !db.others.contains id then [("reply_to_message_id", "must be in the same conversation")]
    else if !env.replyVisible id then [("reply_to_message", "must be in the same conversation")]
    else []

def updateWithAttachments (row : ScheduledMessage) (env : Surroundings) (source : Text) (sendAt : Int)
    (replyToMessageId : Option Nat) (blobIds : Option (List Nat)) : Option Db :=
  let attrs : Draft := ⟨row.userId, row.roomId, row.threadId, replyToMessageId, source, sendAt⟩
  let current := db.attachmentSlots.map (·.blobId)
  let chosen := blobIds.getD current
  if validateWithAttachments db env attrs (sendAt ≠ row.sendAt) chosen.length ≠ [] then none
  else if source ≠ row.markdownSource ∨ sendAt ≠ row.sendAt ∨ replyToMessageId ≠ row.replyToMessageId ∨
      chosen ≠ current then
    (if chosen ≠ current then db.replaceAttachments chosen else some db).map fun db =>
      { db with
        row := some { row with markdownSource := source, sendAt, replyToMessageId, updatedAt := env.now } }
  else some db

def setSpoiler (attachments : List Attachment) (id : Nat) (spoiler : Bool) : List Attachment :=
  attachments.map fun a => if a.id = id then { a with spoiler } else a

/-- The flags that differ are written. -/
def writeSpoilers : List (Attachment × Bool) → List Attachment → List Attachment
  | [], attachments => attachments
  | (attachment, spoiler) :: rest, attachments =>
    writeSpoilers rest
      (if attachment.spoiler ≠ spoiler then setSpoiler attachments attachment.id spoiler else attachments)

def setAttachmentSpoilers (row : ScheduledMessage) (now : Int) (flags : List Bool) : Option Db :=
  let current := db.attachmentSlots
  if flags.length ≠ current.length then none
  else
    let pairs := current.zip flags
    let row := if pairs.any fun (a, flag) => a.spoiler ≠ flag then { row with updatedAt := now } else row
    some { db with row := some row, attachments := writeSpoilers pairs db.attachments }

/-! ## 4. Sending -/

/-- A file on its way out: an error, a reason to drop the message, or its blob. -/
def dispatchFile (row : ScheduledMessage) (env : Surroundings) (blobId : Nat) : Option (Except String Nat) :=
  match env.blob blobId with
  | none => some (.error "an attachment no longer exists")
  | some blob =>
    if blob.uploaderId ≠ some row.userId then
      some (.error "an attachment is no longer owned by its scheduler")
    else
      match blob.file with
      | .failed => none
      | .notFound | .notFile => some (.error "an attachment no longer exists")
      | .file received checksum =>
        if blob.byteSize < 0 ∨ env.uploadLimit < blob.byteSize ∨ env.uploadLimit < received then
          some (.error "an attachment exceeds the current upload limit")
        else if (received : Int) ≠ blob.byteSize then
          some (.error "an attachment's size no longer matches its upload")
        else
          match blob.checksum, checksum with
          | none, _ => some (.ok blobId)
          | some _, .notFound => some (.error "an attachment no longer exists")
          | some _, .failed => none
          | some expected, .read received =>
            if received ≠ expected then some (.error "an attachment's checksum no longer matches its upload")
            else some (.ok blobId)

def dispatchEach (row : ScheduledMessage) (env : Surroundings) : List Attachment → Option (Except String (List Nat))
  | [] => some (.ok [])
  | attachment :: rest =>
    match dispatchFile row env attachment.blobId with
    | none => none
    | some (.error reason) => some (.error reason)
    | some (.ok id) => (dispatchEach row env rest).map fun ids => ids.map (id :: ·)

def dispatchFiles (row : ScheduledMessage) (env : Surroundings) : Option (Except String (List Nat)) :=
  if db.attachmentSlots.isEmpty then some (.ok [])
  else if !env.attachmentService then some (.error "attachment storage is unavailable")
  else dispatchEach row env db.attachmentSlots

/-- Flags follow the ids; an id without a slot is an error. -/
def attachmentSpoilersFor (blobIds : List Nat) : Option (List Bool) :=
  blobIds.mapM fun blobId => (db.attachmentSlots.find? (·.blobId = blobId)).map (·.spoiler)

/-- The message's files, with the flags as far as there are some. -/
def messageFiles (attrs : NewMessage) : List (Nat × Bool) :=
  attrs.attachmentBlobIds.zipIdx.map fun (blobId, index) => (blobId, (attrs.attachmentSpoilers[index]?).getD false)

/-- `Message::create`, also behind `post_message`. -/
def createMessage (attrs : NewMessage) : Option (Message × Db) :=
  let message : Message :=
    { id := db.nextMessageId
      roomId := attrs.roomId
      creatorId := attrs.creatorId
      threadId := attrs.threadId
      replyToMessageId := attrs.replyToMessageId
      markdownSource := attrs.markdownSource }
  (createAttachments (.message message.id) (messageFiles attrs)
    { db with messages := db.messages ++ [message], nextMessageId := db.nextMessageId + 1 }).map (message, ·)

/-- The row goes with a reason. -/
def drop (row : ScheduledMessage) (reason : Option String) (now updated : Int) : Db :=
  { db with row := some { row with droppedAt := some now, dropReason := reason, updatedAt := updated } }

def release (row : ScheduledMessage) : Db := { db with row := some { row with claimedAt := none } }

def staleClaimAfter : Int := 5 * 60 * 1000000

/-- The claim's conditions. -/
def claimable (row : ScheduledMessage) (env : Surroundings) (now : Int) (immediate : Bool) : Bool :=
  row.sentAt.isNone && row.droppedAt.isNone &&
    (row.claimedAt.all fun at' => env.before at' (now - staleClaimAfter)) &&
    (immediate || env.notAfter row.sendAt now)

def dispatchAttrs (row : ScheduledMessage) (reply : Option Nat) (blobIds : List Nat) (spoilers : List Bool) :
    NewMessage :=
  { roomId := row.roomId
    creatorId := row.userId
    threadId := row.threadId
    replyToMessageId := reply
    markdownSource := (some row.markdownSource).filter (! Richtext.isBlank ·)
    attachmentBlobIds := blobIds
    attachmentSpoilers := spoilers }

/-- The claimed row is sent. -/
def send (row : ScheduledMessage) (env : Surroundings) (now : Int) (attrs : NewMessage) : Option Db :=
  (db.createMessage attrs).map fun (message, db) =>
    { db with
      attachments := db.attachments.filter (·.record ≠ .scheduled)
      row := some { row with sentAt := some now, sentMessageId := some message.id, updatedAt := env.now } }

/-- What is behind the claim. -/
def dispatchClaimed (row : ScheduledMessage) (env : Surroundings) (now : Int) (immediate : Bool) : Option (Bool × Db) :=
  if !immediate && now < row.sendAt then some (false, db.release row)
  else if !env.sendable then
    some (false, db.drop row (if env.roomDeleted then some "its room was deleted" else none) now env.now)
  else if row.threadId.isSome && env.threadLocked then some (false, db.release row)
  else
    let reply := row.replyToMessageId.filter (db.others.contains ·)
    if reply.any (! env.replyVisible ·) then
      some (false, db.drop row (some "reply target is no longer visible in the same conversation") now env.now)
    else
      match db.dispatchFiles row env with
      | none => none
      | some (.error reason) => some (false, db.drop row (some reason) now env.now)
      | some (.ok blobIds) =>
        match db.attachmentSpoilersFor blobIds with
        | none => none
        | some spoilers =>
          let attrs := dispatchAttrs row reply blobIds spoilers
          let errors := env.messageErrors attrs
          if errors ≠ [] then some (false, db.drop row (some (", ".intercalate errors)) now env.now)
          else (db.send row env now attrs).map (true, ·)

def dispatch (env : Surroundings) (now : Int) (immediate : Bool) : Option (Bool × Db) :=
  match db.row with
  | none => some (false, db)
  | some row =>
    if claimable row env now immediate then
      let claimed := { row with claimedAt := some now, updatedAt := now }
      { db with row := some claimed }.dispatchClaimed claimed env now immediate
    else some (false, db)

/-! ## 5. Threads and the end -/

/-- A thread on its way out drops the row that waits in it. -/
def dropForThread (threadId : Nat) (now : Int) : Db :=
  match db.row with
  | none => db
  | some row =>
    if row.threadId = some threadId && row.pending then db.drop row (some "its thread was deleted") now now else db

def destroy : Option Db := (db.replaceAttachments []).map fun db => { db with row := none }

end Db

end Smartfire.Scheduled
