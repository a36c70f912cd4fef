/-
  File:      Smartfire/Store/Preferences.lean
  Subject:   A person's notification preferences, read in Rust and in SQL
             (crates/db/src/models/notification_policy.rs).

  The preferences are kept as the JSON text a person sent, once each key and value is valid. The
  delivery policy parses them; the badge queries read the same text by JSON paths.

  * `validPreference`, `parsePreferences`, `involvement`, `muted` -- the Rust policy;
  * `involvementSql`, `unmutedSql` -- the SQL expressions;
  * `agrees_iff` -- the two agree exactly on levels spelled as texts, on passed deadlines SQLite can read, and on
    those ahead that it doesn't read as it does now.

  A JSON text is modelled by its value. Reading an instant is a parameter on both sides: jiff's in
  nanoseconds, SQLite's in milliseconds.
-/
import Mathlib.Algebra.Order.Group.Int
import Mathlib.Algebra.Order.Ring.Int
import Smartfire.Lib.Digits
import Smartfire.Lib.Json

namespace Smartfire.Notifications

open Lib (Json Members digitsValue digitsValue_toDigits head_toDigits toDigits_digitsValue)

/-! ## 1. The policy -/

/-- What stands outside the repository. -/
structure Readers where
  /-- jiff's `Timestamp` from a text, in nanoseconds. -/
  parseTimestamp : List Char → Option Int
  /-- SQLite's `julianday` of a text, in milliseconds. -/
  julianday : List Char → Option Int
  /-- `Timestamp::to_db` of an instant in microseconds. -/
  toDb : Int → List Char

inductive Involvement where
  | invisible
  | nothing
  | muted
  | mentions
  | everything
deriving DecidableEq, Repr

def Involvement.name : Involvement → List Char
  | .invisible => "invisible".toList
  | .nothing => "nothing".toList
  | .muted => "muted".toList
  | .mentions => "mentions".toList
  | .everything => "everything".toList

inductive NotificationLevel where
  | everything
  | mentions
  | nothing
deriving DecidableEq, Repr

def NotificationLevel.involvement : NotificationLevel → Involvement
  | .everything => .everything
  | .mentions => .mentions
  | .nothing => .nothing

def NotificationLevel.ofName (name : List Char) : Option NotificationLevel :=
  if name = "everything".toList then some .everything
  else if name = "mentions".toList then some .mentions
  else if name = "nothing".toList then some .nothing
  else none

/-- A unit variant is its name, or an object of its name with null. -/
def parseLevel : Json → Option NotificationLevel
  | .string name => NotificationLevel.ofName name
  | .object [(name, .null)] => NotificationLevel.ofName name
  | _ => none

def parseNullable {α : Type} (parse : Json → Option α) : Json → Option (Option α)
  | .null => some none
  | value => (parse value).map some

/-- JSON's natural numbers: no leading zero. -/
def parseNatural (digits : List Char) : Option Nat :=
  if digits ≠ [] ∧ digits.all Char.isDigit ∧ (digits = ['0'] ∨ digits.head? ≠ some '0') then
    some (digitsValue digits)
  else none

/-- An `i64` from a JSON number: -0, fractions and exponents make a float, which is none. -/
def parseInteger : List Char → Option Int
  | '-' :: digits => (parseNatural digits).bind fun n => if 0 < n ∧ n ≤ 2 ^ 63 then some (-n) else none
  | digits => (parseNatural digits).bind fun n => if n < 2 ^ 63 then some n else none

/-- `BTreeMap<i64, …>` from an object: its keys are the texts of numbers. -/
def parseMap {α : Type} (parse : Json → Option α) : Members → Option (List (Int × α))
  | [] => some []
  | (key, value) :: rest => do
    let id ← parseInteger key
    let value ← parse value
    let rest ← parseMap parse rest
    some ((id, value) :: rest)

def parseObject {α : Type} (parse : Json → Option α) : Json → Option (List (Int × α))
  | .object members => parseMap parse members
  | _ => none

/-- `BTreeMap::get`, of the pairs in the order of their insertion. -/
def mapGet {α : Type} (id : Int) : List (Int × α) → Option α
  | [] => none
  | (key, value) :: rest => (mapGet id rest).or (if key = id then some value else none)

structure NotificationPreferences where
  settingsRevision : Int
  defaultNotificationLevel : NotificationLevel
  roomNotificationLevels : List (Int × Option NotificationLevel)
  roomMuteUntil : List (Int × Option Int)
  messageSound : Option Bool

def parseBool : Json → Option Bool
  | .bool b => some b
  | _ => none

section Policy

variable (P : Readers)

def parseInstant : Json → Option Int
  | .string text => P.parseTimestamp text
  | _ => none

/-- A field, or its default. -/
def field {α : Type} (members : Members) (name : String) (parse : Json → Option α) (default : α) : Option α :=
  match members.get name.toList with
  | none => some default
  | some value => parse value

def defaultPreferences : NotificationPreferences := ⟨0, .everything, [], [], none⟩

def parseFields (members : Members) : Option NotificationPreferences := do
  let settingsRevision ← field members "settings_revision"
    (fun value => match value with
      | .number text => parseInteger text
      | _ => none) 0
  let defaultNotificationLevel ← field members "default_notification_level" parseLevel .everything
  let roomNotificationLevels ← field members "room_notification_levels" (parseObject (parseNullable parseLevel)) []
  let roomMuteUntil ← field members "room_mute_until" (parseObject (parseNullable (parseInstant P))) []
  let messageSound ← field members "message_sound" (parseNullable parseBool) none
  some { settingsRevision, defaultNotificationLevel, roomNotificationLevels, roomMuteUntil, messageSound }

/-- `NotificationPreferences::parse` of an object: what does not parse counts for nothing. -/
def parsePreferences (members : Members) : NotificationPreferences := (parseFields P members).getD defaultPreferences

namespace NotificationPreferences

variable (preferences : NotificationPreferences)

/-- `muted`; `now` is in microseconds. -/
def muted (roomId now : Int) : Bool :=
  (mapGet roomId preferences.roomMuteUntil).any fun untilAt => untilAt.all fun untilAt => now * 1000 < untilAt

def involvement (roomId : Int) (stored : Option Involvement) : Option Involvement :=
  ((mapGet roomId preferences.roomNotificationLevels).map fun level =>
    (level.getD preferences.defaultNotificationLevel).involvement).or stored

end NotificationPreferences

/-- `valid_preference` -/
def validPreference (key : List Char) (value : Json) : Bool :=
  if key = "default_notification_level".toList then (parseLevel value).isSome
  else if key = "room_notification_levels".toList then
    (parseObject (parseNullable parseLevel) value).any fun levels => levels.all fun (id, _) => 0 < id
  else if key = "room_mute_until".toList then
    (parseObject (parseNullable (parseInstant P)) value).any fun mutes => mutes.all fun (id, _) => 0 < id
  else if key = "message_sound".toList then (parseBool value).isSome
  else false

/-! ## 2. The SQL expressions -/

def jsonType : Json → String
  | .null => "null"
  | .bool true => "true"
  | .bool false => "false"
  | .number text => if text.any (fun c => c = '.' || c = 'e' || c = 'E') then "real" else "integer"
  | .string _ => "text"
  | .array _ => "array"
  | .object _ => "object"

/-- `json_extract`: a text as it is, an array or an object as JSON. -/
def jsonExtract : Json → Option (List Char)
  | .null => none
  | .bool b => some (if b then ['1'] else ['0'])
  | .number text => some text
  | .string text => some text
  | value => some (value.print Json.plain)

/-- The path `$.field."room"`. -/
def roomPath (members : Members) (field : String) (roomId : Nat) : Option Json :=
  match members.get field.toList with
  | some (.object rooms) => Members.get rooms (Nat.toDigits 10 roomId)
  | _ => none

/-- `involvement_sql`, of a membership's stored involvement. -/
def involvementSql (members : Members) (roomId : Nat) (stored : Option Involvement) : Option (List Char) :=
  match roomPath members "room_notification_levels" roomId with
  | none => stored.map Involvement.name
  | some value =>
    if jsonType value = "null" then
      some (((members.get "default_notification_level".toList).bind (jsonExtract)).getD "everything".toList)
    else if jsonType value = "text" then jsonExtract value
    else stored.map Involvement.name

/-- `AND`, `OR` and `<=` of SQL, with NULL as `none`. -/
def sqlAnd : Option Bool → Option Bool → Option Bool
  | some false, _ | _, some false => some false
  | some true, some true => some true
  | _, _ => none

def sqlOr : Option Bool → Option Bool → Option Bool
  | some true, _ | _, some true => some true
  | some false, some false => some false
  | _, _ => none

def sqlLe (a b : Option Int) : Option Bool := a.bind fun x => b.map fun y => x ≤ y

/-- `unmuted_sql` -/
def unmutedSql (members : Members) (roomId : Nat) (now : Int) : Option Bool :=
  let value := roomPath members "room_mute_until" roomId
  sqlAnd (some ((value.map jsonType).getD "" ≠ "null"))
    (sqlOr (some value.isNone)
      (sqlLe ((value.bind (jsonExtract)).bind P.julianday) (P.julianday (P.toDb now))))

end Policy

/-! ## 3. Keys -/

section Keys

variable {key : List Char} {n : Nat}

theorem parseNatural_toDigits (h : 0 < n) : parseNatural (Nat.toDigits 10 n) = some n := by
  have hall : (Nat.toDigits 10 n).all Char.isDigit = true :=
    List.all_eq_true.mpr fun c hc => Nat.isDigit_of_mem_toDigits (by decide) (by decide) hc
  rw [parseNatural, if_pos ⟨Nat.toDigits_ne_nil, hall, .inr (head_toDigits h)⟩, digitsValue_toDigits]

theorem parseNatural_eq (h : parseNatural key = some n) (hn : 0 < n) : key = Nat.toDigits 10 n := by
  unfold parseNatural at h
  split at h
  next hform =>
    cases h
    obtain ⟨hne, hd, rfl | hhead⟩ := hform
    · cases hn
    · exact (toDigits_digitsValue hd hne hhead).2.symm
  next => cases h

/-- **A positive id has one spelling as a key.** -/
theorem parseInteger_eq_iff (hn : 0 < n) (hbound : n < 2 ^ 63) :
    parseInteger key = some (n : Int) ↔ key = Nat.toDigits 10 n := by
  constructor
  · intro h
    unfold parseInteger at h
    split at h
    next =>
      obtain ⟨m, -, h⟩ := Option.bind_eq_some_iff.mp h
      split at h
      next =>
        have := Option.some.inj h
        omega
      next => cases h
    next =>
      obtain ⟨m, hm, h⟩ := Option.bind_eq_some_iff.mp h
      split at h
      next =>
        have heq := Option.some.inj h
        have : m = n := by omega
        subst this
        exact parseNatural_eq hm hn
      next => cases h
  · rintro rfl
    unfold parseInteger
    split
    next rest heq =>
      have hdigit := Nat.isDigit_of_mem_toDigits (b := 10) (n := n) (c := '-') (by decide) (by decide)
        (heq ▸ List.mem_cons_self)
      cases hdigit
    next =>
      rw [parseNatural_toDigits hn, Option.bind_some, if_pos hbound]

end Keys

/-! ## 4. What is parsed -/

/-- Preferences as they are accepted: each key and value is valid. -/
structure Valid (P : Readers) (members : Members) : Prop where
  distinct : members.Distinct
  valid : ∀ m ∈ members, validPreference P m.1 m.2 = true
  /-- A room's id stands once in each object. -/
  rooms : ∀ m ∈ members, ∀ rooms, m.2 = .object rooms → Members.Distinct rooms

section Parsing

variable {P : Readers} {members : Members} {name key : List Char} {value : Json} {n : Nat} {α : Type}
  {parse : Json → Option α} {m : List (Int × α)}

theorem get_cons (key : List Char) (value : Json) (members : Members) (name : List Char) :
    Members.get ((key, value) :: members) name = if name = key then some value else Members.get members name := by
  unfold Members.get
  rw [List.lookup_cons]
  by_cases h : name = key
  · simp [h]
  · simp [h, beq_eq_false_iff_ne.mpr h]

theorem mem_of_get (h : Members.get members name = some value) : (name, value) ∈ members := by
  induction members with
  | nil => cases h
  | cons entry members ih =>
    obtain ⟨key, v⟩ := entry
    rw [get_cons] at h
    split at h
    next heq => cases h; rw [heq]; exact List.mem_cons_self
    next => exact List.mem_cons_of_mem _ (ih h)

theorem get_eq_none (h : name ∉ members.map (·.1)) : Members.get members name = none := by
  cases hget : Members.get members name with
  | none => rfl
  | some value => exact absurd (List.mem_map_of_mem (mem_of_get hget)) h

/-- **The entry of a room in the parsed map is that of its id's text.** -/
theorem mapGet_parseMap (h : parseMap parse members = some m) (hd : members.Distinct) (hn : 0 < n)
    (hbound : n < 2 ^ 63) : mapGet (n : Int) m = (Members.get members (Nat.toDigits 10 n)).bind parse := by
  induction members generalizing m with
  | nil => cases h; rfl
  | cons entry members ih =>
    obtain ⟨key, value⟩ := entry
    obtain ⟨id, hid, h⟩ := Option.bind_eq_some_iff.mp h
    obtain ⟨v, hv, h⟩ := Option.bind_eq_some_iff.mp h
    obtain ⟨rest, hrest, h⟩ := Option.bind_eq_some_iff.mp h
    cases h
    obtain ⟨hnot, hd⟩ := List.nodup_cons.mp hd
    rw [mapGet, ih hrest hd, get_cons]
    by_cases hkey : Nat.toDigits 10 n = key
    · have hidn : id = (n : Int) := Option.some.inj (hid.symm.trans ((parseInteger_eq_iff hn hbound).mpr hkey.symm))
      have hnone : Members.get members (Nat.toDigits 10 n) = none := by
        rw [hkey]
        exact get_eq_none hnot
      rw [hnone, if_pos hidn, if_pos hkey, Option.bind_none, Option.none_or, Option.bind_some, hv]
    · have hidn : id ≠ (n : Int) := by
        rintro rfl
        exact hkey ((parseInteger_eq_iff hn hbound).mp hid).symm
      rw [if_neg hidn, if_neg hkey, Option.or_none]

theorem parse_of_parseMap (h : parseMap parse members = some m) (hmem : (key, value) ∈ members) :
    (parse value).isSome = true := by
  induction members generalizing m with
  | nil => exact absurd hmem List.not_mem_nil
  | cons entry members ih =>
    obtain ⟨key', value'⟩ := entry
    obtain ⟨id, hid, h⟩ := Option.bind_eq_some_iff.mp h
    obtain ⟨v, hv, h⟩ := Option.bind_eq_some_iff.mp h
    obtain ⟨rest, hrest, h⟩ := Option.bind_eq_some_iff.mp h
    rcases List.mem_cons.mp hmem with heq | hmem
    · cases heq
      rw [hv]
      rfl
    · exact ih hrest hmem

/-- A field of rooms parses, and its entries are those of the path. -/
structure FieldParses (members : Members) (name : String) (parse : Json → Option α) (m : List (Int × α)) :
    Prop where
  field : field members name (parseObject parse) [] = some m
  entry : ∀ n : Nat, 0 < n → n < 2 ^ 63 → mapGet (n : Int) m = (roomPath members name n).bind parse
  parses : ∀ n value, roomPath members name n = some value → (parse value).isSome = true

theorem exists_fieldParses (name : String) (parse : Json → Option α)
    (hrooms : ∀ m ∈ members, ∀ rooms, m.2 = .object rooms → Members.Distinct rooms)
    (hvalid : ∀ value, members.get name.toList = some value → (parseObject parse value).isSome = true) :
    ∃ m, FieldParses members name parse m := by
  cases hget : members.get name.toList with
  | none =>
    refine ⟨[], ?_, fun n _ _ => ?_, fun n value h => ?_⟩
    · rw [field, hget]
    · rw [roomPath, hget]
      rfl
    · rw [roomPath, hget] at h
      cases h
  | some value =>
    obtain ⟨m, hm⟩ := Option.isSome_iff_exists.mp (hvalid value hget)
    cases value with
    | object rooms =>
      have hd := hrooms _ (mem_of_get hget) rooms rfl
      refine ⟨m, ?_, fun n hn hbound => ?_, fun n value h => ?_⟩
      · rw [field, hget]
        exact hm
      · rw [roomPath, hget]
        exact mapGet_parseMap hm hd hn hbound
      · rw [roomPath, hget] at h
        exact parse_of_parseMap hm (mem_of_get h)
    | _ => cases hm

theorem isSome_of_any {o : Option α} {p : α → Bool} (h : o.any p = true) : o.isSome = true := by
  obtain ⟨a, ha, -⟩ := (Option.any_eq_true _ _).mp h
  rw [ha]
  rfl

/-- What the parsed preferences of accepted text are. -/
structure Parsed (P : Readers) (members : Members) (preferences : NotificationPreferences) : Prop where
  default : preferences.defaultNotificationLevel =
    ((members.get "default_notification_level".toList).bind parseLevel).getD .everything
  parsesDefault : ∀ value, members.get "default_notification_level".toList = some value →
    (parseLevel value).isSome = true
  levels : FieldParses members "room_notification_levels" (parseNullable parseLevel)
    preferences.roomNotificationLevels
  mutes : FieldParses members "room_mute_until" (parseNullable (parseInstant P)) preferences.roomMuteUntil

theorem parsed_of_valid (h : Valid P members) : Parsed P members (parsePreferences P members) := by
  have hvalid (name : String) (value : Json) (hget : members.get name.toList = some value) :
      validPreference P name.toList value = true := h.valid _ (mem_of_get hget)
  have hlevel : ∀ value, members.get "default_notification_level".toList = some value →
      (parseLevel value).isSome = true := hvalid "default_notification_level"
  obtain ⟨levels, hlevels⟩ := exists_fieldParses "room_notification_levels" (parseNullable parseLevel) h.rooms
    fun value hget => by
      have hv := hvalid "room_notification_levels" value hget
      rw [validPreference, if_neg (by decide +kernel), if_pos rfl] at hv
      exact isSome_of_any hv
  obtain ⟨mutes, hmutes⟩ := exists_fieldParses "room_mute_until" (parseNullable (parseInstant P)) h.rooms
    fun value hget => by
      have hv := hvalid "room_mute_until" value hget
      rw [validPreference, if_neg (by decide +kernel), if_neg (by decide +kernel), if_pos rfl] at hv
      exact isSome_of_any hv
  have hrevision : members.get "settings_revision".toList = none := by
    cases hget : members.get "settings_revision".toList with
    | none => rfl
    | some value =>
      have hv := hvalid "settings_revision" value hget
      rw [validPreference, if_neg (by decide +kernel), if_neg (by decide +kernel), if_neg (by decide +kernel),
        if_neg (by decide +kernel)] at hv
      cases hv
  have hdefault : field members "default_notification_level" parseLevel .everything =
      some (((members.get "default_notification_level".toList).bind parseLevel).getD .everything) := by
    cases hget : members.get "default_notification_level".toList with
    | none => rw [field, hget]; rfl
    | some value =>
      obtain ⟨level, hl⟩ := Option.isSome_iff_exists.mp (hlevel value hget)
      rw [field, hget]
      show parseLevel value = some (((some value).bind parseLevel).getD .everything)
      rw [Option.bind_some, hl]
      rfl
  have hsound : ∃ sound, field members "message_sound" (parseNullable parseBool) none = some sound := by
    cases hget : members.get "message_sound".toList with
    | none => exact ⟨none, by rw [field, hget]⟩
    | some value =>
      have hv := hvalid "message_sound" value hget
      rw [validPreference, if_neg (by decide +kernel), if_neg (by decide +kernel), if_neg (by decide +kernel),
        if_pos rfl] at hv
      rw [field, hget]
      cases value with
      | bool b => exact ⟨some b, rfl⟩
      | _ => cases hv
  obtain ⟨sound, hsound⟩ := hsound
  have hfields : parseFields P members = some ⟨0,
      ((members.get "default_notification_level".toList).bind parseLevel).getD .everything, levels, mutes, sound⟩ := by
    have hzero : field members "settings_revision" (fun value => match value with
        | .number text => parseInteger text
        | _ => none) 0 = some 0 := by
      rw [field, hrevision]
    rw [parseFields, hzero, hdefault, hlevels.field, hmutes.field, hsound]
    rfl
  rw [parsePreferences, hfields]
  exact ⟨rfl, hlevel, hlevels, hmutes⟩

end Parsing

/-! ## 5. Agreement -/

section Property

variable (P : Readers) (members : Members) (roomId : Nat) (now : Int) (stored : Option Involvement)

/-- SQLite reads an instant as these milliseconds: off a text that jiff reads too, or off what the database
writes. -/
inductive Readers.Reads : Int → Int → Prop where
  | text {text : List Char} {instant jd : Int} (hread : P.parseTimestamp text = some instant)
      (hjd : P.julianday text = some jd) : Readers.Reads instant jd
  | now {now jd : Int} (hjd : P.julianday (P.toDb now) = some jd) : Readers.Reads (now * 1000) jd

/-- What SQLite computes: the seconds as a double times 1000 and a half, cut to a whole number. The steps round,
each in order, so which way a half millisecond goes differs from one to the next. -/
structure Readers.Documented : Prop where
  near : ∀ instant jd, P.Reads instant jd → jd * 1000000 < instant + 1000000 ∧ instant < jd * 1000000 + 1000000
  ordered : ∀ instant jd instant' jd', P.Reads instant jd → P.Reads instant' jd' → instant ≤ instant' → jd ≤ jd'

/-- The room's deadline is not within a millisecond of now. -/
def Far : Prop :=
  ∀ text deadline, roomPath members "room_mute_until" roomId = some (.string text) →
    P.parseTimestamp text = some deadline →
    deadline + 1000000 ≤ now * 1000 ∨ now * 1000 + 1000000 ≤ deadline

/-- The SQL expressions come to what the policy comes to. -/
structure Agree : Prop where
  involvement : involvementSql members roomId stored =
    ((parsePreferences P members).involvement roomId stored).map Involvement.name
  unmuted : unmutedSql P members roomId now = some true ↔ (parsePreferences P members).muted roomId now = false

/-- What the two read alike. -/
structure Alike : Prop where
  level : ∀ rooms level, roomPath members "room_notification_levels" roomId = some (.object rooms) →
    parseLevel (.object rooms) = some level → stored = some level.involvement
  inherited : roomPath members "room_notification_levels" roomId = some .null →
    ∀ level, members.get "default_notification_level".toList ≠ some (.object level)
  passed : ∀ text deadline, roomPath members "room_mute_until" roomId = some (.string text) →
    P.parseTimestamp text = some deadline → deadline ≤ now * 1000 →
      (P.julianday text).isSome = true ∧ (P.julianday (P.toDb now)).isSome = true
  /-- A deadline less than two milliseconds ahead is not read as now is. -/
  ahead : ∀ text deadline, roomPath members "room_mute_until" roomId = some (.string text) →
    P.parseTimestamp text = some deadline → now * 1000 < deadline → deadline < now * 1000 + 2000000 →
      ∀ jd, P.julianday text = some jd → P.julianday (P.toDb now) ≠ some jd

end Property

section Levels

variable {P : Readers} {members : Members} {roomId : Nat}
  {preferences : NotificationPreferences}

theorem name_inj : ∀ a b : Involvement, a.name = b.name → a = b := by
  intro a b
  cases a <;> cases b <;> decide +kernel

theorem name_of_ofName {name : List Char} {level : NotificationLevel} (h : NotificationLevel.ofName name = some level) :
    name = level.involvement.name := by
  unfold NotificationLevel.ofName at h
  split at h
  next heq => cases h; exact heq
  next =>
    split at h
    next heq => cases h; exact heq
    next =>
      split at h
      next heq => cases h; exact heq
      next => cases h

/-- An object's text is no level's name. -/
theorem print_object_ne (level : Members) (involvement : Involvement) :
    (Json.object level).print Json.plain ≠ involvement.name := by
  have hstart : ∃ tail, (Json.object level).print Json.plain = '\x7b' :: tail := by
    match level with
    | [] => exact ⟨_, rfl⟩
    | (_, _) :: _ => exact ⟨_, rfl⟩
  obtain ⟨tail, heq⟩ := hstart
  rw [heq]
  cases involvement <;> exact fun h => (by cases h)

/-- What a level can be spelled as. -/
theorem parseLevel_cases {value : Json} {level : NotificationLevel} (h : parseLevel value = some level) :
    value = .string level.involvement.name ∨ ∃ rooms, value = .object rooms := by
  cases value with
  | string name => exact .inl (congrArg Json.string (name_of_ofName h))
  | object rooms => exact .inr ⟨rooms, rfl⟩
  | null => cases h
  | bool b => cases h
  | number text => cases h
  | array values => cases h

/-- **The levels agree exactly where none is spelled as an object, or where it does not matter.** -/
theorem involvement_iff (h : Parsed P members preferences) (hpos : 0 < roomId) (hbound : roomId < 2 ^ 63)
    (stored : Option Involvement) :
    involvementSql members roomId stored = (preferences.involvement roomId stored).map Involvement.name ↔
      (∀ rooms level, roomPath members "room_notification_levels" roomId = some (.object rooms) →
        parseLevel (.object rooms) = some level → stored = some level.involvement) ∧
      (roomPath members "room_notification_levels" roomId = some .null →
        ∀ level, members.get "default_notification_level".toList ≠ some (.object level)) := by
  rw [involvementSql, NotificationPreferences.involvement, h.levels.entry roomId hpos hbound]
  cases hpath : roomPath members "room_notification_levels" roomId with
  | none =>
    refine iff_of_true rfl ⟨fun _ _ hr => (by cases hr), fun hr => (by cases hr)⟩
  | some value =>
    have hparses := h.levels.parses roomId value hpath
    cases value with
    | null =>
      have hvalue := h.default
      cases hget : members.get "default_notification_level".toList with
      | none =>
        rw [hget] at hvalue
        show some "everything".toList = some preferences.defaultNotificationLevel.involvement.name ↔ _
        rw [hvalue]
        exact iff_of_true rfl ⟨fun _ _ hr => (by cases hr), fun _ _ hr => (by cases hr)⟩
      | some default =>
        obtain ⟨level, hlevel⟩ := Option.isSome_iff_exists.mp (h.parsesDefault default hget)
        rw [hget, Option.bind_some, hlevel, Option.getD_some] at hvalue
        show some ((jsonExtract default).getD "everything".toList) =
          some preferences.defaultNotificationLevel.involvement.name ↔ _
        rw [hvalue]
        obtain rfl | ⟨rooms, rfl⟩ := parseLevel_cases hlevel
        · exact iff_of_true rfl ⟨fun _ _ hr => (by cases hr), fun _ _ hr => (by cases hr)⟩
        · refine iff_of_false ?_ fun hr => hr.2 rfl rooms rfl
          intro heq
          exact print_object_ne rooms level.involvement (Option.some.inj heq)
    | string name =>
      obtain ⟨nullable, hnullable⟩ := Option.isSome_iff_exists.mp hparses
      obtain ⟨level, hlevel, rfl⟩ := Option.map_eq_some_iff.mp hnullable
      show some name =
        Option.map Involvement.name ((Option.map _ ((NotificationLevel.ofName name).map some)).or stored) ↔ _
      rw [show NotificationLevel.ofName name = some level from hlevel]
      refine iff_of_true ?_ ⟨fun _ _ hr => (by cases hr), fun hr => (by cases hr)⟩
      exact congrArg some (name_of_ofName hlevel)
    | object rooms =>
      obtain ⟨nullable, hnullable⟩ := Option.isSome_iff_exists.mp hparses
      obtain ⟨level, hlevel, rfl⟩ := Option.map_eq_some_iff.mp hnullable
      show stored.map Involvement.name =
        Option.map Involvement.name ((Option.map _ ((parseLevel (.object rooms)).map some)).or stored) ↔ _
      rw [hlevel]
      show stored.map Involvement.name = some level.involvement.name ↔ _
      constructor
      · intro heq
        obtain ⟨involvement, rfl, hname⟩ := Option.map_eq_some_iff.mp heq
        refine ⟨fun rooms' level' hr hl => ?_, fun hr => (by cases hr)⟩
        cases hr
        rw [hlevel] at hl
        cases hl
        rw [name_inj _ _ hname]
      · intro hr
        rw [hr.1 rooms level rfl hlevel]
        rfl
    | bool b => cases hparses
    | number text => cases hparses
    | array values => cases hparses

end Levels

section Mutes

variable {P : Readers} {members : Members} {roomId : Nat} {now : Int} {preferences : NotificationPreferences}

/-- Of a deadline's text, what is left of the condition is whether it is read and past. -/
theorem sql_deadline (text : List Char) (jdNow : Option Int) :
    sqlAnd (some (((some (Json.string text)).map jsonType).getD "" ≠ "null"))
      (sqlOr (some (some (Json.string text)).isNone)
        (sqlLe (((some (Json.string text)).bind jsonExtract).bind P.julianday) jdNow)) =
      (P.julianday text).bind fun jd => jdNow.map fun now => decide (jd ≤ now) := by
  show sqlAnd (some true) (sqlOr (some false) (sqlLe (P.julianday text) jdNow)) = _
  cases P.julianday text with
  | none => rfl
  | some jd =>
    cases jdNow with
    | none => rfl
    | some now =>
      show sqlAnd (some true) (sqlOr (some false) (some (decide (jd ≤ now)))) = some (decide (jd ≤ now))
      cases decide (jd ≤ now) <;> rfl

/-- **A deadline that has passed** is unmuted exactly where SQLite reads it, and now. -/
theorem passed_iff (hdoc : P.Documented) {text : List Char} {deadline : Int}
    (hread : P.parseTimestamp text = some deadline) (hle : deadline ≤ now * 1000) :
    ((P.julianday text).bind fun jd => (P.julianday (P.toDb now)).map fun now => decide (jd ≤ now)) = some true ↔
      (P.julianday text).isSome = true ∧ (P.julianday (P.toDb now)).isSome = true := by
  cases hjd : P.julianday text with
  | none => simp
  | some jd =>
    cases hnow : P.julianday (P.toDb now) with
    | none => simp
    | some jdNow =>
      have hordered := hdoc.ordered _ _ _ _ (.text hread hjd) (.now hnow) hle
      simpa using hordered

/-- **A deadline ahead** is unmuted exactly where SQLite reads it as it does now, which it may if they are less than
two milliseconds apart. -/
theorem ahead_iff (hdoc : P.Documented) {text : List Char} {deadline : Int}
    (hread : P.parseTimestamp text = some deadline) (hlt : now * 1000 < deadline) :
    ¬ ((P.julianday text).bind fun jd => (P.julianday (P.toDb now)).map fun now => decide (jd ≤ now)) = some true ↔
      (deadline < now * 1000 + 2000000 → ∀ jd, P.julianday text = some jd → P.julianday (P.toDb now) ≠ some jd) := by
  cases hjd : P.julianday text with
  | none => simp
  | some jd =>
    cases hnow : P.julianday (P.toDb now) with
    | none => simp
    | some jdNow =>
      have hordered := hdoc.ordered _ _ _ _ (.now hnow) (.text hread hjd) hlt.le
      have hnear := hdoc.near _ _ (.text hread hjd)
      have hnearNow := hdoc.near _ _ (.now hnow)
      simp only [Option.bind_some, Option.map_some, Option.some.injEq, decide_eq_true_eq, ne_eq, forall_eq']
      omega

/-- **The mutes agree exactly where SQLite reads a deadline that has passed, and now**, and doesn't read a deadline
that is just ahead as it does now. -/
theorem unmuted_iff (h : Parsed P members preferences) (hdoc : P.Documented) (hpos : 0 < roomId)
    (hbound : roomId < 2 ^ 63) :
    (unmutedSql P members roomId now = some true ↔ preferences.muted roomId now = false) ↔
      (∀ text deadline, roomPath members "room_mute_until" roomId = some (.string text) →
        P.parseTimestamp text = some deadline → deadline ≤ now * 1000 →
          (P.julianday text).isSome = true ∧ (P.julianday (P.toDb now)).isSome = true) ∧
      ∀ text deadline, roomPath members "room_mute_until" roomId = some (.string text) →
        P.parseTimestamp text = some deadline → now * 1000 < deadline → deadline < now * 1000 + 2000000 →
          ∀ jd, P.julianday text = some jd → P.julianday (P.toDb now) ≠ some jd := by
  rw [unmutedSql, NotificationPreferences.muted, h.mutes.entry roomId hpos hbound]
  cases hpath : roomPath members "room_mute_until" roomId with
  | none => exact iff_of_true (iff_of_true rfl rfl) ⟨fun _ _ hr => (by cases hr), fun _ _ hr => (by cases hr)⟩
  | some value =>
    have hparses := h.mutes.parses roomId value hpath
    cases value with
    | null =>
      exact iff_of_true (iff_of_false (fun hr => (by cases hr)) fun hr => (by cases hr))
        ⟨fun _ _ hr => (by cases hr), fun _ _ hr => (by cases hr)⟩
    | string text =>
      obtain ⟨nullable, hnullable⟩ := Option.isSome_iff_exists.mp hparses
      obtain ⟨deadline, hdeadline, rfl⟩ := Option.map_eq_some_iff.mp hnullable
      have hread : P.parseTimestamp text = some deadline := hdeadline
      have hmuted : (((some (Json.string text)).bind (parseNullable (parseInstant P))).any fun untilAt =>
          untilAt.all fun untilAt => now * 1000 < untilAt) = decide (now * 1000 < deadline) := by
        rw [Option.bind_some, hnullable]
        rfl
      have hone {p : List Char → Int → Prop} : (∀ text' deadline', some (Json.string text) = some (.string text') →
          P.parseTimestamp text' = some deadline' → p text' deadline') ↔ p text deadline := by
        constructor
        · exact fun hall => hall text deadline rfl hread
        · rintro hp _ _ ⟨⟩ hread'
          rw [hread] at hread'
          cases hread'
          exact hp
      rw [sql_deadline, hmuted, decide_eq_false_iff_not, hone, hone]
      by_cases hpassed : deadline ≤ now * 1000
      · have hnot : ¬ now * 1000 < deadline := hpassed.not_gt
        rw [passed_iff hdoc hread hpassed]
        simp only [hnot, hpassed, not_false_eq_true, iff_true, true_implies, false_implies, and_true]
      · have hlt : now * 1000 < deadline := lt_of_not_ge hpassed
        rw [← ahead_iff hdoc hread hlt]
        simp only [hlt, hpassed, not_true_eq_false, iff_false, false_implies, true_implies, true_and]
    | object rooms => cases hparses
    | bool b => cases hparses
    | number text => cases hparses
    | array values => cases hparses

end Mutes

/-- **The badge queries and the policy agree exactly on what they read alike.** -/
theorem agrees_iff (P : Readers) (hdoc : P.Documented) (members : Members) (hvalid : Valid P members) (roomId : Nat)
    (hpos : 0 < roomId) (hbound : roomId < 2 ^ 63) (now : Int) (stored : Option Involvement) :
    Agree P members roomId now stored ↔ Alike P members roomId now stored := by
  have hparsed := parsed_of_valid hvalid
  have hlevels := involvement_iff hparsed hpos hbound stored
  have hmutes := @unmuted_iff _ _ _ now _ hparsed hdoc hpos hbound
  constructor
  · rintro ⟨hinvolvement, hunmuted⟩
    obtain ⟨hlevel, hinherited⟩ := hlevels.mp hinvolvement
    obtain ⟨hpassed, hahead⟩ := hmutes.mp hunmuted
    exact ⟨hlevel, hinherited, hpassed, hahead⟩
  · rintro ⟨hlevel, hinherited, hpassed, hahead⟩
    exact ⟨hlevels.mpr ⟨hlevel, hinherited⟩, hmutes.mpr ⟨hpassed, hahead⟩⟩

/-- Texts of instants, each with its nanoseconds and the milliseconds SQLite reads: the two of half a millisecond
are rounded to one. -/
def sampleTexts : List (List Char × Int × Int) :=
  [("2026-01-01T00:00:00Z".toList, 1767225600000000000, 1767225600000),
    ("2026-01-01T00:00:00.5005Z".toList, 1767225600500500000, 1767225600500)]

def sampleDbTexts : List (List Char × Int × Int) :=
  [("2026-01-01 00:00:00.499500".toList, 1767225600499500000, 1767225600500),
    ("2026-01-02 00:00:00".toList, 1767312000000000000, 1767312000000)]

def sampleReaders : Readers where
  parseTimestamp text := (sampleTexts.find? (·.1 = text)).map (·.2.1)
  julianday text := ((sampleTexts ++ sampleDbTexts).find? (·.1 = text)).map (·.2.2)
  toDb now := ((sampleDbTexts.find? (·.2.1 = now * 1000)).map (·.1)).getD []

/-- What is read is in the tables. -/
theorem sampleReaders_reads {instant jd : Int} (h : sampleReaders.Reads instant jd) :
    (instant, jd) ∈ (sampleTexts ++ sampleDbTexts).map (·.2) := by
  cases h with
  | @text text _ _ hread hjd =>
    obtain ⟨⟨t, i, j⟩, hfind, rfl⟩ := Option.map_eq_some_iff.mp hread
    have htext : t = text := by simpa using List.find?_some hfind
    subst htext
    have hmem := List.mem_of_find?_eq_some hfind
    revert hjd
    simp only [sampleTexts, List.mem_cons, List.not_mem_nil, or_false, Prod.mk.injEq] at hmem
    obtain ⟨rfl, rfl, rfl⟩ | ⟨rfl, rfl, rfl⟩ := hmem
    · rintro ⟨⟩
      decide
    · rintro ⟨⟩
      decide
  | @now now _ hjd =>
    cases hfind : sampleDbTexts.find? (·.2.1 = now * 1000) with
    | none =>
      rw [sampleReaders] at hjd
      simp only [hfind, Option.map_none, Option.getD_none] at hjd
      cases hjd
    | some entry =>
      obtain ⟨t, i, j⟩ := entry
      have hinstant : i = now * 1000 := by simpa using List.find?_some hfind
      have hmem := List.mem_of_find?_eq_some hfind
      rw [sampleReaders] at hjd
      simp only [hfind, Option.map_some, Option.getD_some] at hjd
      rw [← hinstant]
      simp only [sampleDbTexts, List.mem_cons, List.not_mem_nil, or_false, Prod.mk.injEq] at hmem
      obtain ⟨rfl, rfl, rfl⟩ | ⟨rfl, rfl, rfl⟩ := hmem
      · cases hjd
        decide
      · cases hjd
        decide

theorem sampleReaders_documented : sampleReaders.Documented where
  near instant jd h := by
    have hall : ∀ r ∈ (sampleTexts ++ sampleDbTexts).map (·.2),
        r.2 * 1000000 < r.1 + 1000000 ∧ r.1 < r.2 * 1000000 + 1000000 := by decide
    exact hall _ (sampleReaders_reads h)
  ordered instant jd instant' jd' h h' := by
    have hall : ∀ r ∈ (sampleTexts ++ sampleDbTexts).map (·.2), ∀ r' ∈ (sampleTexts ++ sampleDbTexts).map (·.2),
        r.1 ≤ r'.1 → r.2 ≤ r'.2 := by decide
    exact hall _ (sampleReaders_reads h) _ (sampleReaders_reads h')

/-- A room on mentions whose mute has passed. -/
def sampleMembers : Members :=
  [("default_notification_level".toList, .string "nothing".toList),
    ("room_notification_levels".toList, .object [("1".toList, .string "mentions".toList), ("2".toList, .null)]),
    ("room_mute_until".toList, .object [("1".toList, .string "2026-01-01T00:00:00Z".toList)])]

theorem sampleMembers_valid : Valid sampleReaders sampleMembers where
  distinct := by decide +kernel
  valid := by decide +kernel
  rooms m hm rooms hrooms := by
    simp only [sampleMembers, List.mem_cons, List.not_mem_nil, or_false] at hm
    obtain rfl | rfl | rfl := hm
    · cases hrooms
    · cases hrooms
      decide +kernel
    · cases hrooms
      decide +kernel

theorem agrees_iff_sample : Agree sampleReaders sampleMembers 1 1767312000000000 (some .everything) ↔
    Alike sampleReaders sampleMembers 1 1767312000000000 (some .everything) :=
  agrees_iff sampleReaders sampleReaders_documented sampleMembers sampleMembers_valid 1 (by decide) (by decide)
    1767312000000000 (some .everything)

/-- A mute that lasts until half a millisecond. -/
def halfMembers : Members :=
  [("room_mute_until".toList, .object [("1".toList, .string "2026-01-01T00:00:00.5005Z".toList)])]

/-- **A room is unmuted a millisecond before its deadline**, where both are half milliseconds and SQLite rounds the
deadline down and now up. -/
theorem half_disagrees : Valid sampleReaders halfMembers ∧ Far sampleReaders halfMembers 1 1767225600499500 ∧
    ¬ Agree sampleReaders halfMembers 1 1767225600499500 (some .everything) := by
  refine ⟨⟨by decide +kernel, by decide +kernel, ?_⟩, ?_, fun h => ?_⟩
  · intro m hm rooms hrooms
    obtain rfl := List.mem_singleton.mp hm
    cases hrooms
    decide +kernel
  · intro text deadline hpath hread
    have hroom : roomPath halfMembers "room_mute_until" 1 = some (.string "2026-01-01T00:00:00.5005Z".toList) := rfl
    rw [hroom] at hpath
    cases hpath
    cases hread
    exact .inr (by decide)
  · have hunmuted := h.unmuted
    revert hunmuted
    decide +kernel

end Smartfire.Notifications
