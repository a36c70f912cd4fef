/-
  File:      Smartfire/Cable/Wire.lean
  Subject:   What the texts put together for the wire read as (crates/cable/src/sync.rs and
             crates/cable/src/sync/connection.rs).

  `encode_event` puts the sequence and the topic in front of the payload's members, and a `batch`
  frame puts events one behind another; neither reads what it copies. A text reads here as
  `serde_json` reads it.

  * `trimStart_eq` -- what `trim_start` drops of a JSON text are its spaces;
  * `toList_encodeEvent`, `toList_batchText` -- the texts as objects put together from texts;
  * `wire_reads` -- the main result: the members of an event's text, and the events of a frame.
-/
import Smartfire.Cable.Connection
import Smartfire.Lib.JsonBehind

namespace Smartfire

open Lib Lib.Json

/-! ## 1. Strings and spaces -/

section Spaces

variable {text rest : List Char} {c : Char}

theorem jsonEscape_control : ∀ n : Fin 32, (jsonEscape (Char.ofNat n)).toList = plain (Char.ofNat n) := by
  decide +kernel

theorem jsonEscape_eq (c : Char) : (jsonEscape c).toList = plain c := by
  by_cases h : c.toNat < 32
  · have hc := jsonEscape_control ⟨c.toNat, h⟩
    simpa only [Char.ofNat_toNat] using hc
  · have hne : ∀ n : Fin 32, c ≠ Char.ofNat n := by
      rintro n rfl
      revert h n
      decide
    have hne8 : c ≠ Char.ofNat 8 := hne 8
    have hne12 : c ≠ Char.ofNat 12 := hne 12
    unfold jsonEscape plain
    rw [if_neg (show ¬ c.toNat = 8 by omega), if_neg (show ¬ c.toNat = 12 by omega), if_neg hne8, if_neg hne12,
      if_neg h, if_neg h]
    repeat' split
    on_goal 6 => exact String.toList_singleton c
    all_goals rfl

theorem toList_jsonString (s : String) : (jsonString s).toList = quote plain s.toList := by
  rw [jsonString, String.toList_append, String.toList_append, String.toList_join, List.flatMap_map, quote]
  simp only [jsonEscape_eq]
  rfl

theorem isWhitespace_of_isSpace (h : isSpace c = true) : isWhitespace c = true := by
  simp only [isSpace, Bool.or_eq_true, decide_eq_true_eq] at h
  obtain ((rfl | rfl) | rfl) | rfl := h <;> rfl

/-- What `trim_start` drops of a JSON text are its spaces. -/
theorem trimStart_eq (h : skipSpace text = c :: rest) (hc : isWhitespace c = false) : trimStart text = c :: rest := by
  induction text with
  | nil => cases h
  | cons d text ih =>
    by_cases hd : isSpace d = true
    · rw [skipSpace, List.dropWhile_cons_of_pos hd] at h
      rw [trimStart, List.dropWhile_cons_of_pos (isWhitespace_of_isSpace hd)]
      exact ih h
    · rw [skipSpace_cons (by simpa using hd)] at h
      cases h
      rw [trimStart, List.dropWhile_cons_of_neg (by simp [hc])]

end Spaces

/-! ## 2. The texts -/

section Texts

variable {limit depth fuel : Nat} {payload : String} {body spaces : List Char} {members : Members}

theorem objectMembers_eq (h : skipSpace payload.toList = '\x7b' :: body) : objectMembers payload = some body := by
  rw [objectMembers, trimStart_eq h (by decide)]
  rfl

/-- The separator is the comma that members behind others need. -/
theorem separator_eq (h : objectBody fuel depth body = some (members, spaces)) :
    (if (trimStart body).head? = some '\x7d' then "" else ",").toList ++ body = separated body := by
  unfold separated
  by_cases hclose : (skipSpace body).head? = some '\x7d'
  · obtain ⟨tail, htail⟩ := List.head?_eq_some_iff.mp hclose
    rw [if_pos hclose, trimStart_eq htail (by decide)]
    rfl
  · rw [if_neg hclose]
    rw [objectBody, if_neg hclose, Option.bind_eq_bind, Option.bind_eq_some_iff] at h
    obtain ⟨⟨name, last⟩, hname, -⟩ := h
    obtain ⟨tail, htail⟩ := List.head?_eq_some_iff.mp (skipSpace_of_parseName hname).2
    rw [trimStart_eq htail (by decide), if_neg (by simp)]
    rfl

/-- The text of an event, as an object put together from texts. -/
theorem toList_encodeEvent (seq : Nat) (topic : String) (object : (objectMembers payload).isSome = true)
    (hstart : skipSpace payload.toList = '\x7b' :: body) (hbody : objectBody fuel depth body = some (members, spaces)) :
    (encodeEvent seq topic ⟨payload, object⟩).toList =
      '\x7b' :: (quote plain "seq".toList ++ ':' :: (print plain (.number (Nat.toDigits 10 seq)) ++
        ',' :: (quote plain "topic".toList ++ ':' :: (print plain (.string topic.toList) ++ separated body)))) := by
  have hmembers : ObjectText.members ⟨payload, object⟩ = body := by
    simp only [ObjectText.members, objectMembers_eq hstart, Option.get_some]
  have hseq : quote plain "seq".toList = "\"seq\"".toList := by decide +kernel
  have htopic : quote plain "topic".toList = "\"topic\"".toList := by decide +kernel
  have hdigits : (toString seq).toList = Nat.toDigits 10 seq := by simp [Nat.toString_eq_repr]
  rw [encodeEvent, hmembers, ← separator_eq hbody, hseq, htopic, print, print]
  simp only [String.toList_append, toList_jsonString, String.toList_ofList, hdigits, List.append_assoc]
  rfl

theorem intercalate_eq (texts : List (List Char)) : List.intercalate [','] texts = joined texts := by
  cases texts with
  | nil => rfl
  | cons text texts =>
    rw [joined]
    induction texts generalizing text with
    | nil => rw [List.intercalate_singleton, List.flatMap_nil, List.append_nil]
    | cons next texts ih => rw [List.intercalate_cons_cons, ih, List.flatMap_cons, List.append_assoc]; rfl

/-- The text of a frame, as an object put together from texts. -/
theorem toList_batchText (events : List Wire) :
    (Connection.batchText events).toList =
      '\x7b' :: (quote plain "t".toList ++ ':' :: (print plain (.string "batch".toList) ++
        ',' :: (quote plain "events".toList ++ ':' :: '[' :: (joined (events.map fun e => e.json.toList) ++
          ']' :: ['\x7d'])))) := by
  have hopen : "\x7b\"t\":\"batch\",\"events\":[".toList = '\x7b' :: (quote plain "t".toList ++ ':' ::
      (quote plain "batch".toList ++ ',' :: (quote plain "events".toList ++ [':', '[']))) := by decide +kernel
  have hclose : "]\x7d".toList = [']', '\x7d'] := rfl
  have hcomma : ",".toList = [','] := rfl
  unfold Connection.batchText
  rw [String.toList_append, String.toList_append, hopen, hclose, String.toList_intercalate,
    List.map_map, hcomma, intercalate_eq, print]
  simp only [List.cons_append, List.append_assoc, List.nil_append, Function.comp_def]

end Texts

/-! ## 3. What they read as -/

/-- The members of an event with a payload's. -/
def eventMembers (seq : Nat) (topic : String) (members : Members) : Members :=
  ("seq".toList, .number (Nat.toDigits 10 seq)) :: ("topic".toList, .string topic.toList) :: members

/-- What a page reads in a frame of these events. -/
def batchJson (events : List Json) : Json :=
  .object [("t".toList, .string "batch".toList), ("events".toList, .array events)]

/-- An event's text put together from an object's text that names neither of the two, and its value. -/
def SplicedEvent (limit : Nat) (e : Wire) (v : Json) : Prop :=
  ∃ (topic payload : String) (object : (objectMembers payload).isSome = true) (members : Members),
    readMembers limit payload.toList = some members ∧
      "seq".toList ∉ members.map (·.1) ∧ "topic".toList ∉ members.map (·.1) ∧
      e.json = encodeEvent e.seq topic ⟨payload, object⟩ ∧ v = .object (eventMembers e.seq topic members.collect)

section Reading

variable {limit seq : Nat} {topic payload : String} {members : Members} {e : Wire} {v : Json}

theorem collect_eventMembers (hseq : "seq".toList ∉ members.map (·.1)) (htopic : "topic".toList ∉ members.map (·.1)) :
    (eventMembers seq topic members).collect = eventMembers seq topic members.collect := by
  have hne : "seq".toList ≠ "topic".toList := by decide
  rw [eventMembers, collect_cons, collect_cons htopic, eventMembers]
  rw [List.map_cons, List.mem_cons, not_or]
  exact ⟨hne, hseq⟩

/-- **An event's members are the two and the payload's.** -/
theorem readMembers_encodeEvent (seq : Nat) (topic : String) (h : readMembers limit payload.toList = some members) :
    ∃ object : (objectMembers payload).isSome = true,
      readMembers limit (encodeEvent seq topic ⟨payload, object⟩).toList = some (eventMembers seq topic members) := by
  obtain ⟨body, spaces, depth, rfl, hstart, hbody, hspaces⟩ := readMembers_eq_some h
  have object : (objectMembers payload).isSome = true := by rw [objectMembers_eq hstart]; rfl
  refine ⟨object, ?_⟩
  rw [toList_encodeEvent seq topic object hstart hbody]
  obtain ⟨-, hbehind⟩ := takes_object _ _ hbody
  have hread : ∀ fuel, body.length ≤ fuel → objectBody fuel depth body = some (members, spaces) := fun fuel hle => by
    simpa only [List.append_nil] using hbehind fuel [] hle ends_nil
  -- each of the two members takes one step of the fuel, and the payload's own are behind both
  have htopic : ∀ fuel, body.length + (print plain (.string topic.toList)).length < fuel →
      parseMembers (fuel + 1) depth (',' :: (quote plain "topic".toList ++
        ':' :: (print plain (.string topic.toList) ++ separated body))) =
      some (("topic".toList, .string topic.toList) :: members, spaces) := by
    intro fuel hfuel
    obtain ⟨n, rfl⟩ : ∃ n, fuel = n + 1 := ⟨fuel - 1, by omega⟩
    have hvalue := parseValue_print spelling_plain (.string topic.toList) (n + 1) depth (separated body) rfl
      (Nat.zero_le _) (by omega) (ends_separated body)
    rw [← separated_quote, parseMembers_separated, objectBody_member spelling_plain hvalue, parseMembers_separated,
      hread n (by omega)]
    rfl
  refine readMembers_of_body (skipSpace_cons (by decide)) ?_ hspaces
  generalize hfuel : List.length _ = fuel
  simp only [List.length_append, List.length_cons] at hfuel
  have hsep := length_separated body
  obtain ⟨n, rfl⟩ : ∃ n, fuel = n + 1 := ⟨fuel - 1, by omega⟩
  have hvalue := fun behind => parseValue_print spelling_plain (.number (Nat.toDigits 10 seq)) (n + 1) depth
    (',' :: behind) (isNumber_toDigits seq) (Nat.zero_le _) (by omega) (ends_cons (by decide))
  rw [objectBody_member spelling_plain (hvalue _), htopic n (by omega)]
  rfl

/-- **The events of a frame are read one by one.** -/
theorem parse_batchText {events : List Wire} {values : List Json}
    (h : List.Forall₂ (fun e v => parse limit e.json.toList = some v) events values) :
    parse (limit + 2) (Connection.batchText events).toList = some (batchJson values) := by
  rw [batchJson, parse_object_iff]
  refine ⟨[("t".toList, .string "batch".toList), ("events".toList, .array values)], ?_,
    collect_distinct (by simp [Members.Distinct])⟩
  rw [toList_batchText]
  refine readMembers_of_body (skipSpace_cons (by decide)) ?_ (show skipSpace [] = [] from rfl)
  generalize hfuel : List.length _ = fuel
  simp only [List.length_append, List.length_cons] at hfuel
  obtain ⟨n, rfl⟩ : ∃ n, fuel = n + 3 := ⟨fuel - 3, by omega⟩
  have hbatch := fun behind => parseValue_print spelling_plain (.string "batch".toList) (n + 3) (limit + 1)
    (',' :: behind) rfl (Nat.zero_le _) (by omega) (ends_cons (by decide))
  have hlist : parseValue (n + 2) (limit + 1) ('[' :: (joined (events.map fun e => e.json.toList) ++ ']' :: ['\x7d'])) =
      some (.array values, ['\x7d']) := by
    rw [parseValue_array, arrayBody_texts (List.forall₂_map_left_iff.mpr h) (by omega)]
    rfl
  rw [objectBody_member spelling_plain (hbatch _), ← separated_quote, parseMembers_separated,
    objectBody_member spelling_plain hlist]
  rfl

/-- **What a page reads is what was published.** An event's text is put together from its sequence, its
    topic and a payload, and a frame from texts of events, without reading what is copied: the event's
    members are the sequence, the topic and then the payload's own as they stand there, the object that is
    read is the map of them, and the frame's events are these objects, in order. -/
theorem wire_reads (limit : Nat) :
    (∀ (seq : Nat) (topic payload : String) (members : Members), readMembers limit payload.toList = some members →
      ∃ object : (objectMembers payload).isSome = true,
        readMembers limit (encodeEvent seq topic ⟨payload, object⟩).toList = some (eventMembers seq topic members) ∧
          ("seq".toList ∉ members.map (·.1) → "topic".toList ∉ members.map (·.1) →
            parse limit payload.toList = some (.object members.collect) ∧
              parse limit (encodeEvent seq topic ⟨payload, object⟩).toList =
                some (.object (eventMembers seq topic members.collect)))) ∧
      ∀ (events : List Wire) (values : List Json), List.Forall₂ (SplicedEvent limit) events values →
        parse (limit + 2) (Connection.batchText events).toList = some (batchJson values) := by
  refine ⟨fun seq topic payload members h => ?_, fun events values h => parse_batchText (h.imp ?_)⟩
  · obtain ⟨object, hmembers⟩ := readMembers_encodeEvent seq topic h
    refine ⟨object, hmembers, fun hseq htopic => ⟨parse_object_iff.mpr ⟨members, h, rfl⟩, ?_⟩⟩
    exact parse_object_iff.mpr ⟨_, hmembers, collect_eventMembers hseq htopic⟩
  · rintro e v ⟨topic, payload, object, members, h, hseq, htopic, heq, rfl⟩
    obtain ⟨_, hmembers⟩ := readMembers_encodeEvent e.seq topic h
    rw [heq]
    exact parse_object_iff.mpr ⟨_, hmembers, collect_eventMembers hseq htopic⟩

/-- A payload with spaces around and a member that is an object, and an empty one. -/
theorem wire_reads_sample :
    parse 4 (Connection.batchText
        [⟨7, "\x7b\"seq\":7,\"topic\":\"room:1\",\"a\" : \x7b \x7d \x7d"⟩,
          ⟨8, "\x7b\"seq\":8,\"topic\":\"user\" \x7d "⟩]).toList =
      some (batchJson [.object (eventMembers 7 "room:1" [("a".toList, .object [])]),
        .object (eventMembers 8 "user" [])]) := by
  have hfirst : SplicedEvent 2 ⟨7, "\x7b\"seq\":7,\"topic\":\"room:1\",\"a\" : \x7b \x7d \x7d"⟩
      (.object (eventMembers 7 "room:1" [("a".toList, .object [])])) :=
    ⟨"room:1", "\n \x7b\"a\" : \x7b \x7d \x7d", by decide +kernel, [("a".toList, .object [])], rfl, by decide,
      by decide, by decide +kernel, rfl⟩
  have hsecond : SplicedEvent 2 ⟨8, "\x7b\"seq\":8,\"topic\":\"user\" \x7d "⟩ (.object (eventMembers 8 "user" [])) :=
    ⟨"user", " \x7b \x7d ", by decide +kernel, [], rfl, by decide, by decide, by decide +kernel, rfl⟩
  exact (wire_reads 2).2 _ _ (.cons hfirst (.cons hsecond .nil))

end Reading

end Smartfire
