/-
  File:      Smartfire/Huddle/Grants.lean
  Subject:   Grants to join a room's call (crates/db/src/models/huddle_grant.rs).

  A grant lets one session of a user into a room. While it is not revoked and was issued or seen in
  the last 20 seconds, its user holds a slot of the room. The checks of a room's capacity run inside
  the writer's transaction, before a grant is issued or seen.

  * `checkCapacity`, `stageAudienceUsage` -- the limit of a voice room, the audience of a stage;
  * `issueOnce`, `recordSeen` -- admission; `markOutOfCall`, `revoke`, `revokeScope`,
    `expireStageReservations` -- release; `replaceForMembership` -- a change of role;
  * `huddleSystem` -- transactions on the grants, while the other tables change.

  Times are microseconds; each reading of the clock that is compared is its own. What follows a commit (presence,
  notices, invitations), the cleanups at the call server and the streams are left out.
-/
import Mathlib.Data.List.Dedup
import Smartfire.Lib.Runs
import Smartfire.Richtext.Sanitizer

namespace Smartfire.Huddle

open Lib

/-! ## 1. Rows -/

/-- `IN_CALL_WINDOW` -/
abbrev inCallWindow : Int := 20000000

/-- `SEEN_TOUCH_INTERVAL` -/
abbrev seenTouchInterval : Int := 10000000

inductive StageRole where
  | listener
  | speaker
  | host
deriving DecidableEq, Repr

structure HuddleGrant where
  id : Nat
  identity : String
  roomName : String
  sessionId : Nat
  userId : Nat
  membershipId : Nat
  roomId : Nat
  stageRole : Option StageRole
  serverMuted : Bool
  lastIssuedAt : Option Int
  lastSeenAt : Option Int
  revokedAt : Option Int
  createdAt : Int
  updatedAt : Int
deriving DecidableEq, Repr

structure UserRow where
  status : Nat
  role : Nat
deriving DecidableEq, Repr

structure MembershipRow where
  id : Nat
  roomId : Nat
  userId : Nat
  stageRole : Option StageRole
  serverMuted : Bool
deriving DecidableEq, Repr

structure RoomRow where
  creatorId : Nat
  stage : Bool
  deleted : Bool
  voiceUserLimit : Option Int
deriving DecidableEq, Repr

/-- The other tables, and the configuration. -/
structure Tables where
  /-- The user of a session. -/
  session : Nat → Option Nat
  user : Nat → Option UserRow
  memberships : List MembershipRow
  room : Nat → Option RoomRow
  stageAudienceBudget : Int
  /-- An AFK room is set, so sightings count as activity. -/
  afkRoom : Bool
  /-- `livekit::room_name`, where the secret is set. -/
  roomName : Nat → Option String

structure Db where
  grants : List HuddleGrant
  nextId : Nat
deriving DecidableEq, Repr

inductive HuddleError where
  | recordNotFound
  | ineligible
  | huddleRoomFull
  | stageAudienceFull
  | invalid
  | notUnique
  | secretMissing
deriving DecidableEq, Repr

/-- The refusals for want of room. -/
def HuddleError.isFull : HuddleError → Bool
  | .huddleRoomFull | .stageAudienceFull => true
  | _ => false

/-- The readings of the clock in a transaction. -/
structure Readings where
  /-- In `check_capacity`. -/
  check : Int
  /-- When the grants to revoke, to replace or to expire are looked up. -/
  scan : Int
  /-- When a grant is revoked, by its id. -/
  revoke : Nat → Int
  /-- When the grant is written. -/
  write : Int

/-! ## 2. Slots -/

/-- `at > since`, false for NULL. -/
def after (since : Int) (at' : Option Int) : Bool := at'.any fun t => since < t

namespace HuddleGrant

variable (g : HuddleGrant)

def revoked : Bool := g.revokedAt.isSome

/-- `in_call` -/
def inCall (now : Int) : Bool := after (now - inCallWindow) g.lastSeenAt

/-- Issued or seen since. -/
def holds (since : Int) : Bool := after since g.lastSeenAt || after since g.lastIssuedAt

end HuddleGrant

/-- The grants that are not revoked. -/
def live (grants : List HuddleGrant) : List HuddleGrant := grants.filter fun g => !g.revoked

/-- `COUNT(DISTINCT user_id)` -/
def distinct (grants : List HuddleGrant) : Nat := (grants.map HuddleGrant.userId).dedup.length

/-- `COALESCE(MAX(user_id=?),0)` -/
def includes (userId : Nat) (grants : List HuddleGrant) : Bool := grants.any (·.userId = userId)

/-- The grants of a room that hold a slot. -/
def slots (grants : List HuddleGrant) (roomId : Nat) (since : Int) : List HuddleGrant :=
  (live grants).filter fun g => g.roomId = roomId && g.holds since

namespace Tables

variable (t : Tables)

/-- The grant's member is a listener who is neither an administrator nor the room's creator. -/
def isListener (g : HuddleGrant) : Bool :=
  (t.memberships.any fun m => m.id = g.membershipId && m.roomId = g.roomId && m.userId = g.userId &&
    m.stageRole = some .listener) &&
  (t.user g.userId).any (·.role ≠ 1) && (t.room g.roomId).any (·.creatorId ≠ g.userId)

/-- The grants of a stage that hold a slot of its audience. -/
def audience (grants : List HuddleGrant) (roomId : Nat) (since : Int) : List HuddleGrant :=
  (slots grants roomId since).filter t.isListener

/-- `stage_audience_usage`: listeners present, listeners with a slot, and whether this user has one. -/
def stageAudienceUsage (grants : List HuddleGrant) (roomId userId : Nat) (now : Int) : Nat × Nat × Bool :=
  let since := now - inCallWindow
  let counted := t.audience grants roomId since
  (distinct (counted.filter fun g => after since g.lastSeenAt), distinct counted, includes userId counted)

/-- `can_administer` of the room. -/
def canAdminister (user : UserRow) (userId : Nat) (room : RoomRow) : Bool :=
  user.role = 1 || room.creatorId = userId

/-- Hosts, speakers, administrators and the creator have a place on a stage. -/
def stageExempt (roomId userId : Nat) (room : RoomRow) : Bool :=
  t.memberships.any fun m => m.roomId = roomId && m.userId = userId &&
    (t.user userId).any fun u =>
      m.stageRole = some .host || m.stageRole = some .speaker || u.role = 1 || userId = room.creatorId

/-- The half of `check_capacity` about voice rooms. -/
def checkVoice (grants : List HuddleGrant) (roomId userId : Nat) (room : RoomRow) (now : Int) :
    Except HuddleError Unit :=
  match room.voiceUserLimit with
  | none => .ok ()
  | some limit =>
    if room.stage then .ok ()
    else
      match t.user userId with
      | none => .error .recordNotFound
      | some user =>
        if canAdminister user userId room then .ok ()
        else
          let counted := slots grants roomId (now - inCallWindow)
          if limit ≤ distinct counted && !includes userId counted then .error .huddleRoomFull else .ok ()

/-- The half of `check_capacity` about stages. -/
def checkStage (grants : List HuddleGrant) (roomId userId : Nat) (room : RoomRow) (now : Int) :
    Except HuddleError Unit :=
  if room.stage && !t.stageExempt roomId userId room then
    let (_, occupied, rejoining) := t.stageAudienceUsage grants roomId userId now
    if t.stageAudienceBudget ≤ occupied && !rejoining then .error .stageAudienceFull else .ok ()
  else .ok ()

def checkCapacity (grants : List HuddleGrant) (roomId userId : Nat) (now : Int) : Except HuddleError Unit :=
  match t.room roomId with
  | none => .error .recordNotFound
  | some room =>
    match t.checkVoice grants roomId userId room now with
    | .error e => .error e
    | .ok () => t.checkStage grants roomId userId room now

end Tables

/-! ## 3. Release -/

namespace Db

variable (t : Tables) (db : Db)

/-- `UPDATE huddle_grants SET f WHERE id=?` -/
def update (id : Nat) (f : HuddleGrant → HuddleGrant) : Db :=
  { db with grants := db.grants.map fun g => if g.id = id then f g else g }

def find (id : Nat) : Option HuddleGrant := db.grants.find? (·.id = id)

/-- `validate` -/
def valid (g : HuddleGrant) : Bool :=
  !g.identity.toList.all isCharWhitespace && !g.roomName.toList.all isCharWhitespace &&
    !db.grants.any fun other => other.identity = g.identity && other.id ≠ g.id

/-- `revoke`: reads the row again, and does nothing to a grant already revoked. -/
def revoke (id : Nat) (now : Int) : Except HuddleError Db :=
  match db.find id with
  | none => .ok db
  | some g =>
    if g.revoked then .ok db
    else if !db.valid g then .error .invalid
    else .ok (db.update id fun g => { g with revokedAt := some now, updatedAt := now })

/-- The loop that revokes the grants found. -/
def revokeEach (times : Nat → Int) : List Nat → Db → Except HuddleError Db
  | [], db => .ok db
  | id :: ids, db =>
    match db.revoke id (times id) with
    | .error e => .error e
    | .ok db => revokeEach times ids db

/-- The columns of the scoped revocations. -/
inductive Scope where
  | membership
  | session
  | user
  | room
deriving DecidableEq, Repr

def Scope.column : Scope → HuddleGrant → Nat
  | .membership => HuddleGrant.membershipId
  | .session => HuddleGrant.sessionId
  | .user => HuddleGrant.userId
  | .room => HuddleGrant.roomId

/-- `revoke_scope` -/
def revokeScope (scope : Scope) (id : Nat) (times : Nat → Int) : Except HuddleError Db :=
  revokeEach times (((live db.grants).filter fun g => scope.column g = id).map HuddleGrant.id) db

/-- A room whose slots an explicit leave releases. -/
def releases (g : HuddleGrant) : Bool :=
  (t.room g.roomId).any fun room => room.voiceUserLimit.isSome || room.stage

/-- What an explicit leave does to the grant's reservation. -/
def releaseIssued (seenAfter : Option Int) (g : HuddleGrant) : HuddleGrant :=
  if g.lastIssuedAt.any (fun issued => seenAfter.all fun floor => issued ≤ floor) && releases t g then
    { g with lastIssuedAt := none }
  else g

/-- `mark_out_of_call` on a copy of the grant. -/
def markOutOfCall (copy : HuddleGrant) (seenAfter : Option Int) : Bool × Db :=
  if copy.lastSeenAt.any fun seen => seenAfter.any fun floor => floor < seen then (false, db)
  else
    let db := db.update copy.id (releaseIssued t seenAfter)
    if copy.lastSeenAt.isNone then (false, db)
    else (true, db.update copy.id fun g => { g with lastSeenAt := none })

/-- A reservation of a stage that has run out, in a room the viewer is a member of. -/
def expiredReservation (viewerId : Nat) (since : Int) (g : HuddleGrant) : Bool :=
  (t.room g.roomId).any (fun room => room.stage && !room.deleted) && !g.revoked &&
    (g.lastIssuedAt.isSome || g.lastSeenAt.isSome) && !after since g.lastIssuedAt &&
    !after since g.lastSeenAt && t.memberships.any fun m => m.roomId = g.roomId && m.userId = viewerId

/-- `expire_stage_reservations` -/
def expireStageReservations (viewerId : Nat) (now : Int) : Db :=
  let since := now - inCallWindow
  (db.grants.filter (expiredReservation t viewerId since)).foldl
    (fun db g => (markOutOfCall t db g (some since)).2) db

/-! ## 4. Admission -/

inductive Admission where
  | regular
  | afkMove
deriving DecidableEq, Repr

/-- What the eligibility query reads. -/
structure Candidate where
  userId : Nat
  roomId : Nat
  stageRole : Option StageRole
  serverMuted : Bool
deriving DecidableEq, Repr

/-- The session's active human user, with that membership of a room that is not deleted. -/
def candidate (sessionId membershipId expectedRoomId : Nat) : Option Candidate := do
  let userId ← t.session sessionId
  let user ← t.user userId
  let m ← t.memberships.find? fun m => m.id = membershipId && m.roomId = expectedRoomId && m.userId = userId
  let room ← t.room m.roomId
  if user.status = 0 && user.role ≠ 2 && !room.deleted then
    some ⟨userId, m.roomId, if room.stage then m.stageRole else none, m.serverMuted⟩
  else none

/-- `INSERT INTO huddle_grants`, under its unique indexes on the identity, and on the session and the
    membership of the grants not revoked. -/
def insert (g : HuddleGrant) : Except HuddleError Db :=
  if db.grants.any (·.identity = g.identity) ||
      (live db.grants).any fun other => other.sessionId = g.sessionId && other.membershipId = g.membershipId then
    .error .notUnique
  else .ok { grants := db.grants ++ [{ g with id := db.nextId }], nextId := db.nextId + 1 }

def newGrant (identity roomName : String) (sessionId userId membershipId roomId : Nat)
    (stageRole : Option StageRole) (serverMuted : Bool) (now : Int) : HuddleGrant :=
  { id := 0, identity, roomName, sessionId, userId, membershipId, roomId, stageRole, serverMuted,
    lastIssuedAt := some now, lastSeenAt := none, revokedAt := none, createdAt := now, updatedAt := now }

/-- The grants of the session that an admission ends: in the room under another membership, and in
    the call of another room. -/
def superseded (sessionId membershipId roomId : Nat) (now : Int) (g : HuddleGrant) : Bool :=
  g.sessionId = sessionId && !g.revoked &&
    (g.roomId = roomId && g.membershipId ≠ membershipId ||
      g.roomId ≠ roomId && after (now - inCallWindow) g.lastSeenAt)

/-- The last part of `issue_once`: a new grant. -/
def issueNew (db : Db) (c : Candidate) (sessionId membershipId : Nat) (identity : String) (now : Int) :
    Except HuddleError Db :=
  match t.roomName c.roomId with
  | none => .error .secretMissing
  | some roomName =>
    db.insert (newGrant identity roomName sessionId c.userId membershipId c.roomId c.stageRole c.serverMuted now)

/-- The part of `issue_once` after the capacity check: the session's other grants end, and its grant for
    the membership is issued again unless the role or the muting changed. -/
def issueChecked (db : Db) (c : Candidate) (sessionId membershipId : Nat) (identity : String) (r : Readings) :
    Except HuddleError Db :=
  match revokeEach r.revoke
      ((db.grants.filter (superseded sessionId membershipId c.roomId r.scan)).map HuddleGrant.id) db with
  | .error e => .error e
  | .ok db =>
    match (live db.grants).find? fun g => g.sessionId = sessionId && g.membershipId = membershipId with
    | none => issueNew t db c sessionId membershipId identity r.write
    | some g =>
      if g.stageRole = c.stageRole && g.serverMuted = c.serverMuted then
        if db.valid g then
          .ok (db.update g.id fun g => { g with lastIssuedAt := some r.write, updatedAt := r.write })
        else .error .invalid
      else
        match db.revoke g.id (r.revoke g.id) with
        | .error e => .error e
        | .ok db => issueNew t db c sessionId membershipId identity r.write

/-- `issue_once` -/
def issueOnce (sessionId membershipId expectedRoomId : Nat) (admission : Admission) (identity : String)
    (r : Readings) : Except HuddleError Db :=
  match candidate t sessionId membershipId expectedRoomId with
  | none => .error .ineligible
  | some c =>
    match if admission = .regular then t.checkCapacity db.grants c.roomId c.userId r.check else .ok () with
    | .error e => .error e
    | .ok () => issueChecked t db c sessionId membershipId identity r

/-- `record_activity`: the activity clock of the grant. -/
def recordActivity (copy : HuddleGrant) (now : Int) : Db :=
  if copy.updatedAt ≤ now - seenTouchInterval then db.update copy.id fun g => { g with updatedAt := now }
  else db

/-- `record_seen` on a copy of the grant. `record_activity` reads the clock once more there; here it is given the
    reading of the write, which decides `updated_at` alone. -/
def recordSeen (copy : HuddleGrant) (r : Readings) : Except HuddleError (Bool × Db) :=
  match t.checkCapacity db.grants copy.roomId copy.userId r.check with
  | .error e => .error e
  | .ok () =>
    if copy.lastSeenAt.any fun seen => r.write - seenTouchInterval < seen then .ok (false, db)
    else
      let firstSeen := !copy.inCall r.write
      let db := db.update copy.id fun g => { g with lastSeenAt := some r.write }
      .ok (true, if firstSeen && t.afkRoom then db.recordActivity copy r.write else db)

/-! ## 5. A change of role -/

/-- The grant that takes the place of one in the call. -/
def replacement (m : MembershipRow) (identity : String) (now : Int) (g : HuddleGrant) : HuddleGrant :=
  newGrant identity g.roomName g.sessionId g.userId m.id m.roomId m.stageRole m.serverMuted now

def insertEach (m : MembershipRow) (identities : Nat → String) (now : Int) :
    List HuddleGrant → Db → Except HuddleError Db
  | [], db => .ok db
  | g :: gs, db =>
    match db.insert (replacement m (identities g.id) now g) with
    | .error e => .error e
    | .ok db => insertEach m identities now gs db

/-- `replace_for_membership` -/
def replaceForMembership (membershipId : Nat) (identities : Nat → String) (r : Readings) :
    Except HuddleError Db :=
  match t.memberships.find? (·.id = membershipId) with
  | none => .error .recordNotFound
  | some m =>
    let grants := (live db.grants).filter (·.membershipId = membershipId)
    match revokeEach r.revoke (grants.map HuddleGrant.id) db with
    | .error e => .error e
    | .ok db => insertEach m identities r.scan (grants.filter (·.holds (r.scan - inCallWindow))) db

end Db

/-! ## 6. Transactions -/

open Smartfire.Huddle.Db

inductive Op where
  | issueOnce (sessionId membershipId roomId : Nat) (admission : Admission) (identity : String)
  | recordSeen (copy : HuddleGrant)
  | markOutOfCall (copy : HuddleGrant) (seenAfter : Option Int)
  | revoke (id : Nat)
  | revokeScope (scope : Scope) (id : Nat)
  | replaceForMembership (membershipId : Nat) (identities : Nat → String)
  | expireStageReservations (viewerId : Nat)

def Op.run (t : Tables) (db : Db) (r : Readings) : Op → Except HuddleError Db
  | .issueOnce sessionId membershipId roomId admission identity =>
    db.issueOnce t sessionId membershipId roomId admission identity r
  | .recordSeen copy => (db.recordSeen t copy r).map (·.2)
  | .markOutOfCall copy seenAfter => .ok (db.markOutOfCall t copy seenAfter).2
  | .revoke id => db.revoke id (r.revoke id)
  | .revokeScope scope id => db.revokeScope scope id r.revoke
  | .replaceForMembership membershipId identities => db.replaceForMembership t membershipId identities r
  | .expireStageReservations viewerId => .ok (db.expireStageReservations t viewerId r.scan)

/-- A sighting is of a grant that is not revoked; its copy may be stale but for what never changes. -/
def Op.onLive (grants : List HuddleGrant) : Op → Bool
  | .recordSeen copy =>
    (live grants).any fun g => g.id = copy.id && g.roomId = copy.roomId && g.userId = copy.userId
  | _ => true

/-- The grant's member is there and human. -/
structure Placed (t : Tables) (g : HuddleGrant) : Prop where
  member : ∃ m ∈ t.memberships, m.id = g.membershipId ∧ m.roomId = g.roomId ∧ m.userId = g.userId
  human : (t.user g.userId).any (·.role ≠ 2) = true

instance instDecidablePlaced (t : Tables) (g : HuddleGrant) : Decidable (Placed t g) :=
  decidable_of_iff ((∃ m ∈ t.memberships, m.id = g.membershipId ∧ m.roomId = g.roomId ∧ m.userId = g.userId) ∧
    (t.user g.userId).any (·.role ≠ 2) = true) ⟨fun ⟨h₁, h₂⟩ => ⟨h₁, h₂⟩, fun h => ⟨h.member, h.human⟩⟩

/-- What the rest of the program keeps of the tables: a member's grants are revoked before the
    membership goes, a user has one membership in a room, and on a stage each human member has a role. -/
structure Coherent (t : Tables) (grants : List HuddleGrant) : Prop where
  placed : ∀ g ∈ live grants, Placed t g
  ids : (t.memberships.map MembershipRow.id).Nodup
  pairs : (t.memberships.map fun m => (m.roomId, m.userId)).Nodup
  roles : ∀ m ∈ t.memberships, (t.room m.roomId).any (·.stage) = true →
    (t.user m.userId).any (·.role ≠ 2) = true → m.stageRole.isSome = true

instance instDecidableCoherent (t : Tables) (grants : List HuddleGrant) : Decidable (Coherent t grants) :=
  decidable_of_iff
    ((∀ g ∈ live grants, Placed t g) ∧ (t.memberships.map MembershipRow.id).Nodup ∧
      (t.memberships.map fun m => (m.roomId, m.userId)).Nodup ∧
      ∀ m ∈ t.memberships, (t.room m.roomId).any (·.stage) = true →
        (t.user m.userId).any (·.role ≠ 2) = true → m.stageRole.isSome = true)
    ⟨fun ⟨h₁, h₂, h₃, h₄⟩ => ⟨h₁, h₂, h₃, h₄⟩, fun h => ⟨h.placed, h.ids, h.pairs, h.roles⟩⟩

/-- What a run did: the tables and the clock it saw, the grants before and after, and a refusal. -/
structure Entry where
  tables : Tables
  op : Op
  readings : Readings
  before : List HuddleGrant
  after : List HuddleGrant
  refused : Option HuddleError

structure Run where
  tables : Tables
  db : Db
  now : Int
  log : List Entry

inductive Label where
  /-- A transaction on the grants. -/
  | transact (op : Op) (readings : Readings)
  /-- The other tables change. -/
  | elsewhere (tables : Tables)

def Run.step (s : Run) : Label → Option Run
  | .transact op r =>
    if s.now ≤ r.check ∧ r.check ≤ r.scan ∧ r.scan ≤ r.write ∧ op.onLive s.db.grants then
      match op.run s.tables s.db r with
      | .error e =>
        some { s with now := r.write, log := ⟨s.tables, op, r, s.db.grants, s.db.grants, some e⟩ :: s.log }
      | .ok db =>
        some { s with db, now := r.write, log := ⟨s.tables, op, r, s.db.grants, db.grants, none⟩ :: s.log }
    else none
  | .elsewhere tables => if Coherent tables s.db.grants then some { s with tables } else none

/-- Transactions by any users, sessions and devices, from no grants. -/
def huddleSystem : System Run Label where
  start s := s.db.grants = [] ∧ s.log = [] ∧ Coherent s.tables []
  step := Run.step

end Smartfire.Huddle
