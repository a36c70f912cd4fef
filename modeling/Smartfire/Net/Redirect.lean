/-
  File:      Smartfire/Net/Redirect.lean
  Subject:   Where a redirect leads (crates/app/src/net/redirect.rs).

  A path is the list of its segments. `merge_path` is a transliteration: what a `..` takes away, what a
  negative index reaches and which flag brings a closing slash stay as they are there.

  * `climb`, `climbAll` -- the rounds that take `..` out of the base;
  * `mergePath`, `resolve` -- the path and the URL a location leads to;
  * `staysBelow` -- a path whose `..` never lead above its root;
  * **`resolve_onHost`** -- a relative location keeps scheme, user, host and port, a path that stays below its
    root begins with a slash, and a result is read from its text exactly when its path does.
-/
import Smartfire.Net.UriPrint

namespace Smartfire

namespace Net

/-! ## 1. Paths -/

abbrev Segment := List Char

def dot : Segment := ['.']

def dotDot : Segment := ['.', '.']

/-- The segments of a path, an empty one of which has none. -/
def segments (path : List Char) : List Segment := if path = [] then [] else path.splitOn '/'

def joinSegments (segs : List Segment) : List Char := ['/'].intercalate segs

/-- The first `..` is taken out with the segment in front of it: in front of the first is the last. -/
def climb (base : List Segment) : Option (List Segment) :=
  (base.findIdx? (· = dotDot)).map fun i =>
    let start := if i = 0 then base.length - 1 else i - 1
    base.take start ++ base.drop (min (start + 2) base.length)

/-- The rounds of the loop. -/
def climbAll : Nat → List Segment → List Segment
  | 0, base => base
  | fuel + 1, base =>
    match climb base with
    | some base => climbAll fuel base
    | none => base

/-- A closing slash behind a last segment that names a directory. -/
def closed (dirs : List Segment) (segs : List Segment) : List Segment :=
  if segs.getLast?.any (dirs.contains ·) then segs ++ [[]] else segs

/-- A `..` takes away what it follows, unless that is a `..` that stays. -/
def normalize (normalized : List Segment) (segment : Segment) : List Segment :=
  if segment = dotDot ∧ normalized ≠ [] ∧ normalized.getLast? ≠ some dotDot then normalized.dropLast
  else normalized ++ [segment]

/-- The leading `..` take segments of the base away, but for its first; the rest follows. -/
def walk (base : List Segment) (trailer : Bool) : List Segment → List Segment × Bool
  | [] => (base, trailer)
  | segment :: rest =>
    if segment = dotDot then walk (if 1 < base.length then base.dropLast else base) trailer rest
    else (base ++ segment :: rest, false)

/-- The segments of a location, its `.` and what its `..` take away left out. -/
def normalizeAll (relative : List Segment) : List Segment :=
  ((closed [dot, dotDot] relative).filter (· ≠ dot)).foldl normalize []

/-- The base without its last segment, and behind it what is left of a location. -/
def appendAll (base normalized : List Segment) : List Segment :=
  let trailer := !normalized.isEmpty
  let base := if base = [] then [[]] else if trailer then base.dropLast else base
  let (base, trailer) := walk base trailer normalized
  if trailer then base ++ [[]] else base

/-- `merge_path`, over segments. -/
def mergeSegments (base relative : List Segment) : List Segment :=
  let base := closed [dotDot] base
  let base := climbAll base.length base
  if relative.head? = some [] then appendAll [] (normalizeAll relative.tail) else appendAll base (normalizeAll relative)

def mergePath (base relative : List Char) : List Char :=
  joinSegments (mergeSegments (segments base) (segments relative))

/-! ## 2. Locations -/

/-- ASCII white space. -/
def isSpace (c : Char) : Bool := c = ' ' || within '\t' '\r' c

section Resolve

variable (isIpv6 : List Char → Bool)

/-- What a location that is read is merged to. -/
def merged (base : Uri) (location : List Char) (relative : Uri) : Option Uri :=
  if relative.scheme.isSome then some relative
  else if ['/', '/'].isPrefixOf location then
    base.scheme.bind fun scheme => (parse isIpv6 (scheme ++ ':' :: location)).toOption
  else
    let path := relative.path.getD []
    if path = [] ∧ relative.query = none then
      some { base with fragment := relative.fragment <|> base.fragment }
    else
      some { base with
        path := some (mergePath (base.path.getD []) path)
        query := relative.query
        fragment := relative.fragment }

def resolve (base : Uri) (location : Option (List Char)) : Option Uri := do
  let location ← location.filter fun s => !s.all isSpace
  let relative ← (parse isIpv6 location).toOption
  let uri ← merged isIpv6 base location relative
  if uri.isHttp then some uri else none

end Resolve

/-- Whether the `..` of a path's segments never lead above where it starts, a number of segments deep. -/
def staysBelow : Nat → List Segment → Bool
  | _, [] => true
  | depth, segment :: rest =>
    if segment = dotDot then depth ≠ 0 && staysBelow (depth - 1) rest else staysBelow (depth + 1) rest

/-! ## 3. The loop -/

section Loop

variable {base base' rest relative segs : List Segment} {s : Segment} {fuel depth : Nat}

theorem climb_length (h : climb base = some base') : base'.length < base.length := by
  obtain ⟨i, hi, rfl⟩ := Option.map_eq_some_iff.mp h
  have hlt : i < base.length := (List.findIdx?_eq_some_iff_getElem.mp hi).1
  simp only [List.length_append, List.length_take, List.length_drop]
  split <;> omega

/-- **The loop ends**, within as many rounds as there are segments. -/
theorem climbAll_done (h : base.length ≤ fuel) : climb (climbAll fuel base) = none := by
  induction fuel generalizing base with
  | zero =>
    obtain rfl := List.length_eq_zero_iff.mp (Nat.le_zero.mp h)
    rfl
  | succ fuel ih =>
    rw [climbAll]
    cases hclimb : climb base with
    | none => exact hclimb
    | some base' =>
      have hshorter := climb_length hclimb
      exact ih (by omega)

theorem climb_subset (h : climb base = some base') : base' ⊆ base := by
  obtain ⟨i, -, rfl⟩ := Option.map_eq_some_iff.mp h
  intro s hs
  obtain hs | hs := List.mem_append.mp hs
  · exact (List.take_subset _ _) hs
  · exact (List.drop_subset _ _) hs

theorem climbAll_subset (fuel : Nat) (base : List Segment) : climbAll fuel base ⊆ base := by
  induction fuel generalizing base with
  | zero => exact List.Subset.refl _
  | succ fuel ih =>
    rw [climbAll]
    split
    · next base' hclimb => exact List.Subset.trans (ih base') (climb_subset hclimb)
    · exact List.Subset.refl _

theorem staysBelow_append (h : dotDot ∉ segs) :
    staysBelow depth (segs ++ rest) = staysBelow (depth + segs.length) rest := by
  induction segs generalizing depth with
  | nil => rfl
  | cons s segs ih =>
    rw [List.mem_cons, not_or] at h
    rw [List.cons_append, staysBelow, if_neg (Ne.symm h.1), ih h.2, List.length_cons]
    congr 1
    omega

/-- A base that starts at the root, never leads above it and ends in no `..`. -/
structure Below (base : List Segment) : Prop where
  root : ∃ rest, base = [] :: rest ∧ rest ≠ [] ∧ staysBelow 0 rest = true
  last : base.getLast? ≠ some dotDot

/-- A round takes out a `..` and the segment in front of it. -/
theorem climb_eq (h : dotDot ∉ segs) (hs : s ≠ dotDot) (rest : List Segment) :
    climb (segs ++ s :: dotDot :: rest) = some (segs ++ rest) := by
  have hfront : segs.findIdx? (fun s => decide (s = dotDot)) = none := by
    refine List.findIdx?_eq_none_iff.mpr fun t ht => decide_eq_false ?_
    rintro rfl
    exact h ht
  have hidx : (segs ++ s :: dotDot :: rest).findIdx? (fun s => decide (s = dotDot)) = some (segs.length + 1) := by
    rw [List.findIdx?_append, hfront, Option.none_or, List.findIdx?_cons, if_neg (by simpa using hs),
      List.findIdx?_cons, if_pos (by simp)]
    simp [Nat.add_comm]
  rw [climb, hidx, Option.map_some, if_neg (Nat.succ_ne_zero _), Nat.add_sub_cancel]
  have hmin : min (segs.length + 2) (segs ++ s :: dotDot :: rest).length = segs.length + 2 := by
    simp only [List.length_append, List.length_cons]
    omega
  simp only [hmin, List.take_left, List.drop_append, List.drop_of_length_le (Nat.le_add_right _ _)]
  simp

theorem Below.climb (h : Below base) (hclimb : climb base = some base') : Below base' := by
  obtain ⟨⟨rest, rfl, hne, hbelow⟩, hlast⟩ := h
  have hmem : dotDot ∈ rest := by
    by_contra hnot
    have hnone : ([] :: rest : List Segment).findIdx? (fun s => decide (s = dotDot)) = none := by
      refine List.findIdx?_eq_none_iff.mpr fun t ht => decide_eq_false ?_
      rintro rfl
      obtain h | h := List.mem_cons.mp ht
      · cases h
      · exact hnot h
    rw [Net.climb, hnone] at hclimb
    cases hclimb
  obtain ⟨front, behind, rfl, hfront⟩ := List.eq_append_cons_of_mem hmem
  obtain rfl | ⟨front, s, rfl⟩ := List.eq_nil_or_concat front
  · cases hbelow
  · rw [List.concat_eq_append, List.mem_append, not_or, List.mem_singleton] at hfront
    rw [List.concat_eq_append, List.append_assoc, List.singleton_append] at hbelow hlast hclimb
    have hroot : dotDot ∉ ([] :: front : List Segment) := by
      rw [List.mem_cons, not_or]
      exact ⟨by decide, hfront.1⟩
    rw [← List.cons_append, climb_eq hroot (Ne.symm hfront.2)] at hclimb
    obtain rfl := Option.some.inj hclimb
    -- The last segment is behind the `..`, since it is none itself.
    obtain rfl | ⟨behind, last, rfl⟩ := List.eq_nil_or_concat behind
    · have hend : ([] :: (front ++ [s, dotDot]) : List Segment) = ([] :: (front ++ [s])) ++ [dotDot] := by simp
      rw [hend, List.getLast?_concat] at hlast
      exact absurd rfl hlast
    · have hend : ([] :: (front ++ s :: dotDot :: (behind ++ [last])) : List Segment) =
          ([] :: (front ++ s :: dotDot :: behind)) ++ [last] := by simp
      have hend' : ([] :: (front ++ (behind ++ [last])) : List Segment) = ([] :: (front ++ behind)) ++ [last] := by simp
      rw [List.concat_eq_append] at hlast hbelow ⊢
      rw [hend, List.getLast?_concat] at hlast
      refine ⟨⟨front ++ (behind ++ [last]), rfl, by simp, ?_⟩, by rwa [List.cons_append, hend', List.getLast?_concat]⟩
      rw [staysBelow_append hfront.1, staysBelow, if_neg (Ne.symm hfront.2), staysBelow, if_pos rfl,
        Bool.and_eq_true] at hbelow
      rw [staysBelow_append hfront.1]
      exact hbelow.2

theorem Below.climbAll (h : Below base) (fuel : Nat) : Below (climbAll fuel base) := by
  induction fuel generalizing base with
  | zero => exact h
  | succ fuel ih =>
    rw [Net.climbAll]
    split
    · next base' hclimb => exact ih (h.climb hclimb)
    · exact h

end Loop

/-! ## 4. The merged path -/

section Merge

variable {base rest relative segs dirs : List Segment} {s : Segment} {path path' : List Char} {trailer : Bool}

theorem mem_closed (h : s ∈ closed dirs segs) : s ∈ segs ∨ s = [] := by
  rw [closed] at h
  split at h
  · simpa using h
  · exact .inl h

theorem mem_normalized {acc : List Segment} (h : s ∈ segs.foldl normalize acc) : s ∈ acc ∨ s ∈ segs := by
  induction segs generalizing acc with
  | nil => exact .inl h
  | cons t segs ih =>
    obtain h | h := ih h
    · rw [normalize] at h
      split at h
      · exact .inl (List.dropLast_subset _ h)
      · obtain h | h := List.mem_append.mp h
        · exact .inl h
        · exact .inr (List.mem_cons.mpr (.inl (List.mem_singleton.mp h)))
    · exact .inr (List.mem_cons_of_mem _ h)

theorem mem_walk (h : s ∈ (walk base trailer segs).1) : s ∈ base ∨ s ∈ segs := by
  induction segs generalizing base with
  | nil => exact .inl h
  | cons t segs ih =>
    rw [walk] at h
    split at h
    · obtain h | h := ih h
      · split at h
        · exact .inl (List.dropLast_subset _ h)
        · exact .inl h
      · exact .inr (List.mem_cons_of_mem _ h)
    · exact List.mem_append.mp h

/-- The first segment of the base stays. -/
theorem head?_walk (h : base.head? = some s) : (walk base trailer segs).1.head? = some s := by
  induction segs generalizing base with
  | nil => exact h
  | cons t segs ih =>
    rw [walk]
    split
    · refine ih ?_
      split
      · next hlong =>
        match base with
        | a :: b :: base => exact h
        | [a] => simp at hlong
        | [] => cases h
      · exact h
    · match base with
      | a :: base => exact h
      | [] => cases h

theorem mem_normalizeAll (h : s ∈ normalizeAll relative) : s ∈ relative ∨ s = [] := by
  obtain h | h := mem_normalized h
  · cases h
  · exact mem_closed (List.mem_of_mem_filter h)

theorem mem_appendAll (h : s ∈ appendAll base segs) : s ∈ base ∨ s ∈ segs ∨ s = [] := by
  have hbase : ∀ t ∈ (if base = [] then [[]] else if (!segs.isEmpty) = true then base.dropLast else base),
      t ∈ base ∨ t = [] := by
    intro t ht
    split at ht
    · exact .inr (List.mem_singleton.mp ht)
    · split at ht
      · exact .inl (List.dropLast_subset _ ht)
      · exact .inl ht
  have hwalk : ∀ {b : List Segment} {trailer : Bool}, (∀ t ∈ b, t ∈ base ∨ t = []) → s ∈ (walk b trailer segs).1 →
      s ∈ base ∨ s ∈ segs ∨ s = [] := by
    intro b trailer hb hs
    obtain hs | hs := mem_walk hs
    · obtain h | h := hb s hs
      · exact .inl h
      · exact .inr (.inr h)
    · exact .inr (.inl hs)
  simp only [appendAll] at h
  generalize (if base = [] then [[]] else if (!segs.isEmpty) = true then base.dropLast else base) = front at h hbase
  split at h
  · obtain h | h := List.mem_append.mp h
    · exact hwalk hbase h
    · exact .inr (.inr (List.mem_singleton.mp h))
  · exact hwalk hbase h

theorem head?_appendAll (h : base = [] ∨ ∃ rest, base = [] :: rest ∧ rest ≠ []) :
    (appendAll base segs).head? = some [] := by
  have hbase : (if base = [] then [[]] else if (!segs.isEmpty) = true then base.dropLast else base).head? =
      some ([] : Segment) := by
    obtain rfl | ⟨rest, rfl, hne⟩ := h
    · rfl
    · rw [if_neg (List.cons_ne_nil _ _)]
      split
      · rw [List.dropLast_cons_of_ne_nil hne]
        rfl
      · rfl
  simp only [appendAll]
  generalize (if base = [] then [[]] else if (!segs.isEmpty) = true then base.dropLast else base) = front at hbase ⊢
  have hwalk : (walk front (!segs.isEmpty) segs).1.head? = some [] := head?_walk hbase
  split
  · rw [List.head?_append, hwalk]
    rfl
  · exact hwalk

/-- A merged path is made of segments of the two. -/
theorem mem_mergeSegments (h : s ∈ mergeSegments base relative) : s ∈ base ∨ s ∈ relative ∨ s = [] := by
  simp only [mergeSegments] at h
  split at h
  · obtain h | h | h := mem_appendAll h
    · cases h
    · obtain h | h := mem_normalizeAll h
      · exact .inr (.inl (List.mem_of_mem_tail h))
      · exact .inr (.inr h)
    · exact .inr (.inr h)
  · obtain h | h | h := mem_appendAll h
    · obtain h | h := mem_closed (climbAll_subset _ _ h)
      · exact .inl h
      · exact .inr (.inr h)
    · exact .inr (mem_normalizeAll h)
    · exact .inr (.inr h)

/-- A base that starts at the root and stays below it, with a slash behind a last `..`. -/
theorem below_closed (hne : rest ≠ []) (h : staysBelow 0 rest = true) : Below (closed [dotDot] ([] :: rest)) := by
  rw [closed]
  split
  · have hstay : ∀ {depth : Nat} {segs : List Segment}, staysBelow depth segs = true →
        staysBelow depth (segs ++ [[]]) = true := by
      intro depth segs
      induction segs generalizing depth with
      | nil => exact fun _ => rfl
      | cons t segs ih =>
        rw [List.cons_append, staysBelow, staysBelow]
        split
        · rw [Bool.and_eq_true, Bool.and_eq_true]
          exact fun h => ⟨h.1, ih h.2⟩
        · exact ih
    refine ⟨⟨rest ++ [[]], rfl, by simp, hstay h⟩, ?_⟩
    rw [List.getLast?_concat]
    decide
  · next hlast =>
    refine ⟨⟨rest, rfl, hne, h⟩, fun heq => hlast ?_⟩
    rw [heq]
    rfl

/-- **A merged path starts at the root**, where the location's does, or the base's is empty or stays below it. -/
theorem head?_mergeSegments
    (h : base = [] ∨ relative.head? = some [] ∨ ∃ rest, base = [] :: rest ∧ rest ≠ [] ∧ staysBelow 0 rest = true) :
    (mergeSegments base relative).head? = some [] := by
  simp only [mergeSegments]
  split
  · exact head?_appendAll (.inl rfl)
  · next hrelative =>
    obtain rfl | h | ⟨rest, rfl, hne, hbelow⟩ := h
    · exact head?_appendAll (.inl rfl)
    · exact absurd h hrelative
    · obtain ⟨⟨rest', heq, hne', -⟩, -⟩ := (below_closed hne hbelow).climbAll (closed [dotDot] ([] :: rest)).length
      exact head?_appendAll (.inr ⟨rest', heq, hne'⟩)

end Merge

/-! ## 5. Where a location leads -/

section Results

variable {isIpv6 : List Char → Bool} {base uri relative : Uri} {location path value : List Char} {segs : List Segment}

theorem escaped_segments (h : Escaped segChar path) : ∀ s ∈ segments path, Escaped segChar s := by
  have hsplit : ∀ s ∈ path.splitOn '/', Escaped segChar s := by
    induction hlen : path.length using Nat.strongRecOn generalizing path with
    | ind n ih =>
      by_cases hslash : '/' ∈ path
      · obtain ⟨front, behind, rfl, hfront⟩ := List.eq_append_cons_of_mem hslash
        obtain ⟨hescaped, hbehind⟩ := h.of_append_cons (by decide) (by decide)
        rw [List.splitOn_append_cons_self_of_not_mem hfront]
        intro s hs
        obtain rfl | hs := List.mem_cons.mp hs
        · exact hescaped
        · refine ih behind.length ?_ hbehind rfl s hs
          rw [← hlen, List.length_append, List.length_cons]
          omega
      · rw [List.splitOn_eq_singleton hslash]
        intro s hs
        rwa [List.mem_singleton.mp hs]
  rw [segments]
  split
  · exact fun s hs => absurd hs List.not_mem_nil
  · exact hsplit

theorem escaped_joinSegments (h : ∀ s ∈ segs, Escaped segChar s) : Escaped segChar (joinSegments segs) := by
  rw [joinSegments]
  induction segs with
  | nil => exact .nil
  | cons s segs ih =>
    have hs := h s List.mem_cons_self
    have ih := ih fun t ht => h t (List.mem_cons_of_mem _ ht)
    match segs with
    | [] => rwa [List.intercalate_singleton]
    | t :: segs =>
      rw [List.intercalate_cons_cons, List.append_assoc]
      exact hs.append (.append (.char (c := '/') (by decide) .nil) ih)

/-- What is joined of segments that start at the root. -/
theorem rooted_joinSegments (h : segs.head? = some []) : Rooted (joinSegments segs) := by
  match segs with
  | [s] =>
    cases h
    exact .inl rfl
  | s :: t :: segs =>
    cases h
    refine .inr ?_
    rw [joinSegments, List.intercalate_cons_cons]
    rfl

theorem segments_rooted (h : Rooted path) :
    segments path = [] ∨ ∃ rest, segments path = [] :: rest ∧ rest ≠ [] := by
  obtain rfl | h := h
  · exact .inl rfl
  · match path with
    | c :: rest =>
      cases h
      refine .inr ⟨rest.splitOn '/', ?_, List.splitOn_ne_nil _ _⟩
      have hsplit : (([] : List Char) ++ '/' :: rest).splitOn '/' = [] :: rest.splitOn '/' :=
        List.splitOn_append_cons_self_of_not_mem List.not_mem_nil rest
      rw [segments, if_neg (List.cons_ne_nil _ _)]
      exact hsplit

theorem head?_segments (h : path.head? = some '/') : (segments path).head? = some [] := by
  obtain hnil | ⟨rest, heq, -⟩ := segments_rooted (.inr h)
  · have hne : path ≠ [] := by
      rintro rfl
      cases h
    rw [segments, if_neg hne] at hnil
    exact absurd hnil (List.splitOn_ne_nil _ _)
  · rw [heq]
    rfl

theorem escaped_mergePath (hbase : Escaped segChar path) (hrelative : Escaped segChar location) :
    Escaped segChar (mergePath path location) := by
  refine escaped_joinSegments fun s hs => ?_
  obtain h | h | rfl := mem_mergeSegments hs
  · exact escaped_segments hbase s h
  · exact escaped_segments hrelative s h
  · exact .nil

/-- **A merged path begins with a slash**, or is empty. -/
theorem rooted_mergePath (hbase : Rooted path)
    (h : location.head? = some '/' ∨ staysBelow 0 (segments path).tail = true) : Rooted (mergePath path location) := by
  refine rooted_joinSegments (head?_mergeSegments ?_)
  obtain h | h := h
  · exact .inr (.inl (head?_segments h))
  · obtain hnil | ⟨rest, heq, hne⟩ := segments_rooted hbase
    · exact .inl hnil
    · rw [heq] at h
      exact .inr (.inr ⟨rest, heq, hne, h⟩)

theorem Sound.rooted_path (h : Sound isIpv6 uri) : ∀ path ∈ uri.path, Rooted path := by
  intro path hpath
  cases h with
  | authority _ _ _ _ _ hroot => exact Option.some.inj hpath ▸ hroot
  | rooted _ _ hroot => exact Option.some.inj hpath ▸ hroot
  | rootless => cases hpath

theorem eq_ok_of_toOption {result : Except UriError Uri} (h : result.toOption = some uri) : result = .ok uri := by
  cases result with
  | error e => cases h
  | ok uri' => rw [Option.some.inj h]

theorem resolve_eq_some (h : resolve isIpv6 base (some location) = some uri) :
    uri.isHttp = true ∧ ∃ relative, parse isIpv6 location = .ok relative ∧
      merged isIpv6 base location relative = some uri := by
  obtain ⟨location', hfilter, h⟩ := Option.bind_eq_some_iff.mp h
  obtain rfl : location = location' := Option.some.inj (Option.filter_eq_some_iff.mp hfilter).1
  obtain ⟨relative, hrelative, h⟩ := Option.bind_eq_some_iff.mp h
  obtain ⟨uri', hmerged, h⟩ := Option.bind_eq_some_iff.mp h
  split at h
  · next hhttp =>
    obtain rfl := Option.some.inj h
    exact ⟨hhttp, relative, eq_ok_of_toOption hrelative, hmerged⟩
  · cases h

/-- What a relative location is merged to: the base with another fragment, or with a merged path. -/
theorem merged_relative (h : merged isIpv6 base location relative = some uri) (hscheme : relative.scheme = none)
    (hslash : ['/', '/'].isPrefixOf location = false) :
    relative.path.getD [] = [] ∧ relative.query = none ∧
        uri = { base with fragment := relative.fragment <|> base.fragment } ∨
      ¬(relative.path.getD [] = [] ∧ relative.query = none) ∧
        uri = { base with
          path := some (mergePath (base.path.getD []) (relative.path.getD []))
          query := relative.query
          fragment := relative.fragment } := by
  rw [merged, if_neg (by simp [hscheme]), if_neg (by simp [hslash])] at h
  simp only at h
  split at h
  · next hempty => exact .inl ⟨hempty.1, hempty.2, (Option.some.inj h).symm⟩
  · next hempty => exact .inr ⟨hempty, (Option.some.inj h).symm⟩

/-- A location with a scheme, or with an authority, leads to what is read. -/
theorem merged_absolute (h : merged isIpv6 base location relative = some uri)
    (hrelative : parse isIpv6 location = .ok relative)
    (habsolute : relative.scheme.isSome = true ∨ ['/', '/'].isPrefixOf location = true) :
    ∃ value, parse isIpv6 value = .ok uri := by
  rw [merged] at h
  split at h
  · obtain rfl := Option.some.inj h
    exact ⟨location, hrelative⟩
  · next hscheme =>
    rw [if_pos (habsolute.resolve_left hscheme)] at h
    obtain ⟨scheme, -, h⟩ := Option.bind_eq_some_iff.mp h
    exact ⟨_, eq_ok_of_toOption h⟩

/-- The base with another fragment, or with another path, query and fragment. -/
theorem Sound.merge {query fragment : Option (List Char)} (h : Sound isIpv6 base) (hhost : base.host.isSome = true)
    (hpath : Escaped segChar path) (hroot : Rooted path) (hq : ∀ q ∈ query, QueryText q)
    (hf : ∀ f ∈ fragment, Escaped fragmentChar f) :
    Sound isIpv6 { base with path := some path, query := query, fragment := fragment } := by
  cases h with
  | authority hs hu hh hp => exact .authority hs hu hh hp hpath hroot hq hf
  | rooted => cases hhost
  | rootless => cases hhost

theorem Sound.parts (h : Sound isIpv6 base) (hhost : base.host.isSome = true) :
    ∃ path, base.path = some path ∧ Escaped segChar path ∧ Rooted path ∧ (∀ q ∈ base.query, QueryText q) ∧
      ∀ f ∈ base.fragment, Escaped fragmentChar f := by
  cases h with
  | @authority _ _ path _ _ _ _ _ _ _ _ hpath hroot hq hf => exact ⟨path, rfl, hpath, hroot, hq, hf⟩
  | rooted => cases hhost
  | rootless => cases hhost

theorem slashes_none (h : ['/', '/'].isPrefixOf location = false) : ∀ rest, location ≠ '/' :: '/' :: rest := by
  rintro rest rfl
  cases h

/-- A result whose path is rooted is sound. -/
theorem sound_of_resolve (hbase : Sound isIpv6 base) (hhost : base.host.isSome = true)
    (h : resolve isIpv6 base (some location) = some uri) (hroot : ∀ path ∈ uri.path, Rooted path) :
    Sound isIpv6 uri := by
  obtain ⟨hhttp, relative, hrelative, hmerged⟩ := resolve_eq_some h
  by_cases habsolute : relative.scheme.isSome = true ∨ ['/', '/'].isPrefixOf location = true
  · obtain ⟨value, hparse⟩ := merged_absolute hmerged hrelative habsolute
    exact sound_of_parse hparse hhttp
  · rw [not_or] at habsolute
    have hscheme : relative.scheme = none := by simpa using habsolute.1
    have hslash : ['/', '/'].isPrefixOf location = false := Bool.eq_false_iff.mpr habsolute.2
    obtain ⟨path, hpath, hescaped, hrooted, hq, hf⟩ := hbase.parts hhost
    obtain ⟨path', hpath', hescaped', hq', hf'⟩ := relative_of_parse hrelative hscheme (slashes_none hslash)
    obtain ⟨-, -, rfl⟩ | ⟨-, rfl⟩ := merged_relative hmerged hscheme hslash
    · have hfragment : ∀ f ∈ relative.fragment <|> base.fragment, Escaped fragmentChar f := by
        intro f hmem
        cases hr : relative.fragment with
        | none =>
          rw [hr] at hmem
          exact hf f hmem
        | some f' =>
          rw [hr] at hmem
          exact hf' f (hr ▸ hmem)
      have hsame := hbase.merge hhost hescaped hrooted hq hfragment
      rw [← hpath] at hsame
      exact hsame
    · refine hbase.merge hhost ?_ (hroot _ rfl) hq' hf'
      rw [hpath, hpath']
      exact escaped_mergePath hescaped hescaped'

/-- **A redirect's location and its host.** The rounds over a base's segments end. A location without a scheme and an
    authority leads to the base's scheme, user, host and port, and to a path that is empty or begins with a slash,
    where the location's path does, or names nothing, or the base's stays below its root. A result is read from its
    text exactly when its path is empty or begins with a slash. -/
theorem resolve_onHost (hbase : parse isIpv6 value = .ok base) (hhttp : base.isHttp = true)
    (hhost : base.host.isSome = true) (h : resolve isIpv6 base (some location) = some uri) :
    (∀ segs : List Segment, climb (climbAll segs.length segs) = none) ∧
      (∀ relative, parse isIpv6 location = .ok relative → relative.scheme = none →
        ['/', '/'].isPrefixOf location = false →
        uri.scheme = base.scheme ∧ uri.userinfo = base.userinfo ∧ uri.host = base.host ∧ uri.port = base.port ∧
          ((relative.path.getD []).head? = some '/' ∨ relative.path.getD [] = [] ∧ relative.query = none ∨
              staysBelow 0 (segments (base.path.getD [])).tail = true →
            ∃ path, uri.path = some path ∧ (path = [] ∨ path.head? = some '/'))) ∧
      (parse isIpv6 uri.toS = .ok uri ↔ ∀ path ∈ uri.path, path = [] ∨ path.head? = some '/') := by
  have hsound := sound_of_parse hbase hhttp
  refine ⟨fun segs => climbAll_done (Nat.le_refl _), fun relative hrelative hscheme hslash => ?_, fun hparse => ?_,
    fun hroot => parse_toS (sound_of_resolve hsound hhost h hroot)⟩
  · obtain ⟨-, relative', hrelative', hmerged⟩ := resolve_eq_some h
    obtain rfl := Except.ok.inj (hrelative.symm.trans hrelative')
    obtain ⟨path, hpath, -, hrooted, -, -⟩ := hsound.parts hhost
    obtain ⟨-, -, rfl⟩ | ⟨hmore, rfl⟩ := merged_relative hmerged hscheme hslash
    · exact ⟨rfl, rfl, rfl, rfl, fun _ => ⟨path, hpath, hrooted⟩⟩
    · refine ⟨rfl, rfl, rfl, rfl, fun hcase => ⟨_, rfl, ?_⟩⟩
      have hbase' : Rooted (base.path.getD []) := by
        rw [hpath]
        exact hrooted
      obtain hhead | hempty | hstays := hcase
      · exact rooted_mergePath hbase' (.inl hhead)
      · exact absurd hempty hmore
      · exact rooted_mergePath hbase' (.inr hstays)
  · exact (sound_of_parse hparse (resolve_eq_some h).1).rooted_path

/-- A parsed base and a location that stay on their host. -/
def sampleBase : Uri :=
  ⟨some "http".toList, none, some "host".toList, some 8080, some "/a/b".toList, none, none, none⟩

def sampleResult : Uri := { sampleBase with path := some "/c".toList, query := some "q".toList }

theorem resolve_onHost_sample :
    (∀ segs : List Segment, climb (climbAll segs.length segs) = none) ∧
      (∀ relative, parse (fun _ => false) "../c?q".toList = .ok relative → relative.scheme = none →
        ['/', '/'].isPrefixOf "../c?q".toList = false →
        sampleResult.scheme = sampleBase.scheme ∧ sampleResult.userinfo = sampleBase.userinfo ∧
          sampleResult.host = sampleBase.host ∧ sampleResult.port = sampleBase.port ∧
          ((relative.path.getD []).head? = some '/' ∨ relative.path.getD [] = [] ∧ relative.query = none ∨
              staysBelow 0 (segments (sampleBase.path.getD [])).tail = true →
            ∃ path, sampleResult.path = some path ∧ (path = [] ∨ path.head? = some '/'))) ∧
      (parse (fun _ => false) sampleResult.toS = .ok sampleResult ↔
        ∀ path ∈ sampleResult.path, path = [] ∨ path.head? = some '/') :=
  resolve_onHost (show parse (fun _ => false) "http://host:8080/a/b".toList = .ok sampleBase from rfl) rfl rfl rfl

/-- Behind a base that climbs above its root, what is left of the location runs into the host. -/
theorem resolve_fuses :
    ∃ base uri read, parse (fun _ => false) "http://host/..".toList = .ok base ∧ base.isHttp = true ∧
      base.host = some "host".toList ∧ resolve (fun _ => false) base (some ['x']) = some uri ∧
      uri.path = some ['x'] ∧ parse (fun _ => false) uri.toS = .ok read ∧ read.host = some "hostx".toList :=
  ⟨_, _, _, rfl, rfl, rfl, rfl, rfl, rfl, rfl⟩

end Results

end Net

end Smartfire
