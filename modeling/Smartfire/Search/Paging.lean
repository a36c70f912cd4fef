/-
  File:      Smartfire/Search/Paging.lean
  Subject:   The pages of a message search (crates/db/src/models/search_query.rs).

  A page asks for one row more than it shows, to know whether another follows, and its cursor is the key of
  the last row it shows: (created_at, id), or (score, created_at, id) where matches are ranked.

  * `messagesForUserSorted` -- one page;
  * `hits_eq`, `page_eq` -- a page's rows: the front of what is past its cursor;
  * `collect_eq` -- the second query gives the rows back in their order;
  * `paging_complete` -- following the cursors shows each match once, in order.

  Which messages a query matches for a user, and the spans it matches in one, are the database's.
-/
import Mathlib.Data.Prod.Lex
import Smartfire.Lib.Keyset
import Smartfire.Search.Query

namespace Smartfire.Search

open Lib

/-! ## 1. A page -/

/-- The columns of a message that paging reads. A time is its text in the column, whose order is the text's. -/
structure Message (T : Type) where
  id : Int
  createdAt : T
deriving DecidableEq, Repr

inductive SearchCursor (T : Type) where
  | message (createdAt : T) (id : Int)
  | relevance (score : Nat) (createdAt : T) (id : Int)
deriving DecidableEq, Repr

structure SearchPage (T : Type) where
  messages : List (Message T)
  hasMore : Bool
deriving DecidableEq, Repr

structure SortedSearchPage (T : Type) where
  page : SearchPage T
  next : Option (SearchCursor T)
deriving DecidableEq, Repr

/-- What the database answers a query with. -/
structure SearchIndex (T User Zone : Type) where
  /-- The `WHERE` clause: the query's filters and expression, and what the user may read. -/
  selects : SearchQuery → User → Zone → Message T → Bool
  /-- The spans that the query's expression matches in the message's body. -/
  score : SearchQuery → Message T → Nat
  wordCharacter : Char → Bool

/-- The messages. Their ids are a primary key. -/
structure Messages (T : Type) where
  rows : List (Message T)
  ids : (rows.map Message.id).Nodup

/-- A row of the first query. -/
structure Hit (T : Type) where
  createdAt : T
  id : Int
  score : Nat
deriving DecidableEq, Repr

/-- `Message::Pagination::PAGE_SIZE`. -/
def pageSize : Nat := 40

def SearchQuery.textTokens (wordCharacter : Char → Bool) (q : SearchQuery) : List Text :=
  words (fun c => !wordCharacter c) q.text

def SearchQuery.filters (q : SearchQuery) : Bool :=
  !q.fromNames.isEmpty || !q.inRooms.isEmpty || !q.authorIds.isEmpty || !q.channelIds.isEmpty || q.mentionsMe ||
    !q.hasValues.isEmpty || q.beforeDate.isSome || q.afterDate.isSome || q.onDate.isSome || q.threadOnly

def SearchQuery.blankQuery (wordCharacter : Char → Bool) (q : SearchQuery) : Bool :=
  (q.textTokens wordCharacter).isEmpty && !q.filters

/-- Sorted by relevance, with an expression to match (`match_expression`). -/
def SearchQuery.ranked (wordCharacter : Char → Bool) (q : SearchQuery) : Bool :=
  q.sort == .relevance && !(q.textTokens wordCharacter).isEmpty

section Page

variable {T User Zone : Type} [LinearOrder T]

def Hit.key (h : Hit T) : T ×ₗ Int := toLex (h.createdAt, h.id)

def Hit.rank (h : Hit T) : Nat ×ₗ T ×ₗ Int := toLex (h.score, toLex (h.createdAt, h.id))

variable (index : SearchIndex T User Zone) (db : Messages T) (q : SearchQuery) (user : User) (zone : Zone)

/-- The first query: the keys of the rows past the cursor, in order, one more than a page shows. -/
def hits (after : Option (SearchCursor T)) : List (Hit T) :=
  let selected := db.rows.filter (index.selects q user zone)
  if q.ranked index.wordCharacter then
    let hits : List (Hit T) := selected.map fun m => ⟨m.createdAt, m.id, index.score q m⟩
    let hits : List (Hit T) := match after with
      | some (.relevance score createdAt id) => hits.filter fun h => h.rank < toLex (score, toLex (createdAt, id))
      | _ => hits
    (hits.insertionSort fun a b => b.rank ≤ a.rank).take (pageSize + 1)
  else
    let hits : List (Hit T) := selected.map fun m => ⟨m.createdAt, m.id, 0⟩
    let hits : List (Hit T) := match after with
      | some (.message createdAt id) =>
        if q.sort = .oldest then hits.filter fun h => toLex (createdAt, id) < h.key
        else hits.filter fun h => h.key < toLex (createdAt, id)
      | _ => hits
    (if q.sort = .oldest then hits.insertionSort fun a b => a.key ≤ b.key
      else hits.insertionSort fun a b => b.key ≤ a.key).take (pageSize + 1)

def Hit.cursor (h : Hit T) : SearchCursor T :=
  if q.ranked index.wordCharacter then .relevance h.score h.createdAt h.id else .message h.createdAt h.id

omit [LinearOrder T] in
/-- `keys.iter().filter_map(|key| by_id.remove(id))`. -/
def collect (byId : List (Message T)) : List (Hit T) → List (Message T)
  | [] => []
  | key :: keys =>
    match byId.find? fun m => m.id == key.id with
    | some m => m :: collect (byId.filter fun m => m.id ≠ key.id) keys
    | none => collect byId keys

def messagesForUserSorted (after : Option (SearchCursor T)) : SortedSearchPage T :=
  if q.blankQuery index.wordCharacter then ⟨⟨[], false⟩, none⟩
  else
    let keys := hits index db q user zone after
    let hasMore := pageSize < keys.length
    let keys := keys.take pageSize
    let next := if hasMore then keys.getLast?.map (Hit.cursor index q) else none
    let messages :=
      if keys.isEmpty then []
      else collect (db.rows.filter fun m => (keys.map Hit.id).contains m.id) keys.reverse
    ⟨⟨messages, hasMore⟩, next⟩

/-! ## 2. What following the cursors owes -/

/-- The messages the query matches for the user. A blank query matches none. -/
def matching : List (Message T) :=
  if q.blankQuery index.wordCharacter then [] else db.rows.filter (index.selects q user zone)

/-- A row's key. -/
def hitOf (m : Message T) : Hit T :=
  ⟨m.createdAt, m.id, if q.ranked index.wordCharacter then index.score q m else 0⟩

/-- The query's strict order of its matches. -/
def Precedes (a b : Hit T) : Prop :=
  if q.ranked index.wordCharacter then b.rank < a.rank
  else if q.sort = .oldest then a.key < b.key
  else b.key < a.key

/-- The messages of these pages, each page from its end. -/
def shown (pages : List (SortedSearchPage T)) : List (Message T) := pages.flatMap fun p => p.page.messages.reverse

/-- **Nothing is lost and nothing repeated.** -/
structure Complete (pages : List (SortedSearchPage T)) : Prop where
  each : (shown pages).Perm (matching index db q user zone)
  order : ((shown pages).map (hitOf index q)).Pairwise (Precedes index q)
  full : ∀ p ∈ pages.dropLast, p.page.messages.length = pageSize ∧ p.page.hasMore = true
  last : ∀ p ∈ pages.getLast?, p.page.hasMore = false

/-! ## 3. The rows of a page -/

/-- All keys, in the query's order. -/
def sortedHits : List (Hit T) :=
  let all := (db.rows.filter (index.selects q user zone)).map (hitOf index q)
  if q.ranked index.wordCharacter then sortBy (fun h => OrderDual.toDual h.rank) all
  else if q.sort = .oldest then sortBy Hit.key all
  else sortBy (fun h => OrderDual.toDual h.key) all

variable {index db q user zone}

omit [LinearOrder T] in
theorem nodup_hits (index : SearchIndex T User Zone) (db : Messages T) (q : SearchQuery) (user : User) (zone : Zone) :
    (((db.rows.filter (index.selects q user zone)).map (hitOf index q)).map Hit.id).Nodup := by
  rw [List.map_map]
  exact db.ids.sublist (List.filter_sublist.map _)

omit [LinearOrder T] in
/-- Keys that tell ids apart tell rows apart. -/
theorem nodup_of_ids {κ : Type} {key : Hit T → κ} {l : List (Hit T)} (id : κ → Int) (hid : ∀ h, id (key h) = h.id)
    (hl : (l.map Hit.id).Nodup) : (l.map key).Nodup := by
  refine List.Nodup.of_map id ?_
  rw [List.map_map]
  exact (List.map_congr_left fun h _ => hid h) ▸ hl

omit [LinearOrder T] in
theorem nodup_key {l : List (Hit T)} (hl : (l.map Hit.id).Nodup) : (l.map Hit.key).Nodup :=
  nodup_of_ids (fun k : T ×ₗ Int => (ofLex k).2) (fun _ => rfl) hl

omit [LinearOrder T] in
theorem nodup_keyDown {l : List (Hit T)} (hl : (l.map Hit.id).Nodup) :
    (l.map fun h => OrderDual.toDual h.key).Nodup :=
  nodup_of_ids (fun k : (T ×ₗ Int)ᵒᵈ => (ofLex (OrderDual.ofDual k)).2) (fun _ => rfl) hl

omit [LinearOrder T] in
theorem nodup_rankDown {l : List (Hit T)} (hl : (l.map Hit.id).Nodup) :
    (l.map fun h => OrderDual.toDual h.rank).Nodup :=
  nodup_of_ids (fun k : (Nat ×ₗ T ×ₗ Int)ᵒᵈ => (ofLex (ofLex (OrderDual.ofDual k)).2).2) (fun _ => rfl) hl

theorem sortedHits_perm : (sortedHits index db q user zone).Perm
    ((db.rows.filter (index.selects q user zone)).map (hitOf index q)) := by
  unfold sortedHits
  dsimp only
  split
  · exact sortBy_perm _ _
  · split
    · exact sortBy_perm _ _
    · exact sortBy_perm _ _

theorem sortedHits_order : (sortedHits index db q user zone).Pairwise (Precedes index q) := by
  have hids := nodup_hits index db q user zone
  unfold sortedHits Precedes
  dsimp only
  split
  · exact sortBy_lt (nodup_rankDown hids)
  · split
    · exact sortBy_lt (nodup_key hids)
    · exact sortBy_lt (nodup_keyDown hids)

omit [LinearOrder T] in
theorem hitOf_ranked (h : q.ranked index.wordCharacter = true) :
    hitOf index q = fun m => ⟨m.createdAt, m.id, index.score q m⟩ := by
  funext m
  rw [hitOf, if_pos h]

omit [LinearOrder T] in
theorem hitOf_unranked (h : ¬ q.ranked index.wordCharacter = true) :
    hitOf index q = fun m => ⟨m.createdAt, m.id, 0⟩ := by
  funext m
  rw [hitOf, if_neg h]

/-- **A page's rows** are the front of what its cursor has past it. -/
theorem hits_eq {before rest : List (Hit T)} (hl : before ++ rest = sortedHits index db q user zone) :
    hits index db q user zone (before.getLast?.map (Hit.cursor index q)) = rest.take (pageSize + 1) := by
  have hids := nodup_hits index db q user zone
  unfold sortedHits at hl
  dsimp only at hl
  by_cases hranked : q.ranked index.wordCharacter = true
  · rw [if_pos hranked] at hl
    refine query_past (hits index db q user zone) (Hit.cursor index q) (nodup_rankDown hids) ?_ (fun h => ?_) hl
    · simp only [hits, hitOf_ranked hranked, hranked, if_true]
      rfl
    · simp only [hits, hitOf_ranked hranked, Hit.cursor, hranked, if_true]
      rfl
  · rw [if_neg hranked] at hl
    by_cases hsort : q.sort = .oldest
    · rw [if_pos hsort] at hl
      refine query_past (hits index db q user zone) (Hit.cursor index q) (nodup_key hids) ?_ (fun h => ?_) hl
      · simp only [hits, hitOf_unranked hranked, hranked, hsort, if_true, Bool.false_eq_true, if_false]
        rfl
      · simp only [hits, hitOf_unranked hranked, Hit.cursor, hranked, hsort, if_true, Bool.false_eq_true, if_false]
        rfl
    · rw [if_neg hsort] at hl
      refine query_past (hits index db q user zone) (Hit.cursor index q) (nodup_keyDown hids) ?_ (fun h => ?_) hl
      · simp only [hits, hitOf_unranked hranked, hranked, hsort, Bool.false_eq_true, if_false]
        rfl
      · simp only [hits, hitOf_unranked hranked, Hit.cursor, hranked, hsort, Bool.false_eq_true, if_false]
        rfl

/-! ## 4. The rows given back -/

/-- The message of a key. -/
def Hit.message (h : Hit T) : Message T := ⟨h.id, h.createdAt⟩

omit [LinearOrder T] in
/-- **The second query** gives the keys' messages in the keys' order. -/
theorem collect_eq {byId : List (Message T)} {keys : List (Hit T)} (hids : (byId.map Message.id).Nodup)
    (hkeys : (keys.map Hit.id).Nodup) (hin : ∀ key ∈ keys, key.message ∈ byId) :
    collect byId keys = keys.map Hit.message := by
  induction keys generalizing byId with
  | nil => rfl
  | cons key keys ih =>
    obtain ⟨hout, hkeys⟩ := List.nodup_cons.mp hkeys
    have hmem := hin key (List.mem_cons_self ..)
    have hfind : byId.find? (fun m => m.id == key.id) = some key.message := by
      cases hfound : byId.find? fun m => m.id == key.id with
      | none => exact absurd (beq_self_eq_true key.id) (List.find?_eq_none.mp hfound _ hmem)
      | some m =>
        have hid : m.id = key.id := beq_iff_eq.mp (List.find?_some (p := fun m : Message T => m.id == key.id) hfound)
        rw [List.inj_on_of_nodup_map hids (List.mem_of_find?_eq_some hfound) hmem hid]
    rw [collect, hfind, List.map_cons]
    refine congrArg (List.cons key.message) (ih (hids.sublist (List.filter_sublist.map _)) hkeys fun k hk => ?_)
    refine List.mem_filter.mpr ⟨hin k (List.mem_cons_of_mem _ hk), decide_eq_true fun hid => hout ?_⟩
    exact hid ▸ List.mem_map_of_mem hk

/-- The page of what is past a cursor. -/
def render (index : SearchIndex T User Zone) (q : SearchQuery) (rest : List (Hit T)) : SortedSearchPage T :=
  ⟨⟨((rest.take pageSize).map Hit.message).reverse, pageSize < rest.length⟩,
    if pageSize < rest.length then (rest.take pageSize).getLast?.map (Hit.cursor index q) else none⟩

theorem mem_of_sortedHits {h : Hit T} (hin : h ∈ sortedHits index db q user zone) : h.message ∈ db.rows := by
  obtain ⟨m, hm, rfl⟩ := List.mem_map.mp (sortedHits_perm.mem_iff.mp hin)
  exact (List.mem_filter.mp hm).1

/-- **A page** shows the front of what its cursor has past it. -/
theorem page_eq (hblank : q.blankQuery index.wordCharacter = false) {before rest : List (Hit T)}
    (hl : before ++ rest = sortedHits index db q user zone) :
    messagesForUserSorted index db q user zone (before.getLast?.map (Hit.cursor index q)) = render index q rest := by
  have hkeys : (rest.take (pageSize + 1)).take pageSize = rest.take pageSize := by
    rw [List.take_take, Nat.min_eq_left (by omega)]
  have hmore : pageSize < (rest.take (pageSize + 1)).length ↔ pageSize < rest.length := by
    rw [List.length_take]
    omega
  have hsub : (rest.take pageSize).Sublist (sortedHits index db q user zone) :=
    hl ▸ (List.take_sublist _ _).trans (List.sublist_append_right _ _)
  have hnodup : ((rest.take pageSize).map Hit.id).Nodup := by
    have hall : ((sortedHits index db q user zone).map Hit.id).Nodup :=
      (sortedHits_perm.map Hit.id).nodup_iff.mpr (nodup_hits index db q user zone)
    exact hall.sublist (hsub.map _)
  have hcollect : collect (db.rows.filter fun m => ((rest.take pageSize).map Hit.id).contains m.id)
      (rest.take pageSize).reverse = ((rest.take pageSize).map Hit.message).reverse := by
    rw [collect_eq (db.ids.sublist (List.filter_sublist.map _)), List.map_reverse]
    · rw [List.map_reverse]
      exact List.nodup_reverse.mpr hnodup
    · intro key hkey
      have hkey := List.mem_reverse.mp hkey
      refine List.mem_filter.mpr ⟨mem_of_sortedHits (hsub.subset hkey), ?_⟩
      exact List.contains_iff_mem.mpr (List.mem_map_of_mem hkey)
  unfold messagesForUserSorted render
  rw [if_neg (by rw [hblank]; simp), hits_eq hl]
  simp only [hkeys, hmore, hcollect]
  by_cases hnil : rest.take pageSize = []
  · simp [hnil]
  · have hempty : (rest.take pageSize).isEmpty = false := by simpa using hnil
    simp [hempty]

/-! ## 5. All pages -/

omit [LinearOrder T] in
theorem next_render (rest : List (Hit T)) : (render index q rest).next =
    if pageSize < rest.length then (rest.take pageSize).getLast?.map (Hit.cursor index q) else none := rfl

omit [LinearOrder T] in
theorem shown_render (l : List (Hit T)) : shown ((rests pageSize l).map (render index q)) = l.map Hit.message := by
  have hpage (rest : List (Hit T)) :
      (render index q rest).page.messages.reverse = (rest.take pageSize).map Hit.message := List.reverse_reverse _
  calc shown ((rests pageSize l).map (render index q))
      = (rests pageSize l).flatMap fun rest => (rest.take pageSize).map Hit.message := by
        rw [shown, List.flatMap_map]
        exact congrArg (fun f => (rests pageSize l).flatMap f) (funext hpage)
    _ = ((rests pageSize l).flatMap (List.take pageSize)).map Hit.message := (List.map_flatMap ..).symm
    _ = l.map Hit.message := by rw [flatMap_rests (by decide)]

theorem map_sortedHits : ((sortedHits index db q user zone).map Hit.message).map (hitOf index q) =
    sortedHits index db q user zone := by
  rw [List.map_map]
  refine (List.map_congr_left fun h hin => ?_).trans (List.map_id _)
  obtain ⟨m, -, rfl⟩ := List.mem_map.mp (sortedHits_perm.mem_iff.mp hin)
  rfl

theorem complete_render (hblank : q.blankQuery index.wordCharacter = false) :
    Complete index db q user zone ((rests pageSize (sortedHits index db q user zone)).map (render index q)) := by
  obtain ⟨hfull, hlast⟩ := length_rests (n := pageSize) (by decide) (sortedHits index db q user zone)
  refine ⟨?_, ?_, fun p hp => ?_, fun p hp => ?_⟩
  · rw [shown_render, matching, if_neg (by rw [hblank]; simp)]
    have hall : (sortedHits index db q user zone).Perm _ := sortedHits_perm
    have hperm := hall.map Hit.message
    rwa [List.map_map, show Hit.message ∘ hitOf index q = id from rfl, List.map_id] at hperm
  · rw [shown_render, map_sortedHits]
    exact sortedHits_order
  · rw [← List.map_dropLast] at hp
    obtain ⟨rest, hrest, rfl⟩ := List.mem_map.mp hp
    have hlt := hfull rest hrest
    refine ⟨?_, decide_eq_true hlt⟩
    show ((rest.take pageSize).map Hit.message).reverse.length = pageSize
    rw [List.length_reverse, List.length_map, List.length_take_of_le (Nat.le_of_lt hlt)]
  · rw [List.getLast?_map] at hp
    obtain ⟨rest, hrest, rfl⟩ := Option.map_eq_some_iff.mp hp
    exact decide_eq_false (Nat.not_lt.mpr (hlast rest hrest))

/-- **Paging loses and repeats nothing**: the cursors lead, in one way, through pages that show each match
    once, in the query's order. -/
theorem paging_complete (index : SearchIndex T User Zone) (db : Messages T) (q : SearchQuery) (user : User)
    (zone : Zone) : ∃ pages,
    Lib.Follows (messagesForUserSorted index db q user zone) SortedSearchPage.next none pages ∧
      (∀ pages', Lib.Follows (messagesForUserSorted index db q user zone) SortedSearchPage.next none pages' →
        pages' = pages) ∧
      Complete index db q user zone pages := by
  cases hblank : q.blankQuery index.wordCharacter with
  | true =>
    have hpage : messagesForUserSorted index db q user zone none = ⟨⟨[], false⟩, none⟩ := by
      rw [messagesForUserSorted, if_pos hblank]
    have hfollows : Lib.Follows (messagesForUserSorted index db q user zone) SortedSearchPage.next none _ :=
      .last none (by rw [hpage])
    refine ⟨_, hfollows, fun _ h => hfollows.unique h, ?_⟩
    rw [hpage]
    refine ⟨?_, List.Pairwise.nil, by simp, by simp⟩
    rw [matching, if_pos hblank]
    exact List.Perm.refl _
  | false =>
    have hfollows := follows_rests (messagesForUserSorted index db q user zone) (n := pageSize) (by decide) next_render
      fun before rest hl => page_eq hblank hl
    exact ⟨_, hfollows, fun _ h => hfollows.unique h, complete_render hblank⟩

end Page

end Smartfire.Search
