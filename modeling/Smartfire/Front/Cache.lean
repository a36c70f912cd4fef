/-
  File:      Smartfire/Front/Cache.lean
  Subject:   The response cache in front of the application (crates/kit/src/front/cache.rs).

  Text is bytes; an instant is a number of seconds. What the eviction samples is drawn from outside.

  * `MemoryCache` -- the bounded map, over any values with a size;
  * `Request`, `shouldCacheRequest`, `cacheLifetime` -- what may be kept, and for how long;
  * `Variant` -- the cache key, and the headers a response varies on;
  * `encodeQuery` -- the query as the key has it;
  * `cacheKey_inj`, `headerLines_inj` -- what requests with one key agree on.
-/
import Mathlib.Algebra.Order.Ring.Int
import Mathlib.Data.List.Sort
import Smartfire.Kit.Params
import Smartfire.Lib.Split

namespace Smartfire

open Lib

/-! ## 1. The bounded map -/

structure CacheEntry (α : Type) where
  lastAccessedAt : Nat
  expiresAt : Nat
  value : α
  size : Int
deriving DecidableEq

structure MemoryCache (α : Type) where
  capacity : Int
  maxItemSize : Int
  size : Int
  /-- The keys again, for sampling. -/
  keys : List Bytes
  items : List (Bytes × CacheEntry α)

namespace MemoryCache

variable {α : Type} (cache : MemoryCache α)

def item (key : Bytes) : Option (CacheEntry α) := (cache.items.find? (·.1 = key)).map (·.2)

def putItem (key : Bytes) (entry : CacheEntry α) : List (Bytes × CacheEntry α) → List (Bytes × CacheEntry α)
  | [] => [(key, entry)]
  | (k, e) :: rest => if k = key then (key, entry) :: rest else (k, e) :: putItem key entry rest

/-- An expired entry is not found, and stays. -/
def get (key : Bytes) (now : Nat) : Option (CacheEntry α) × MemoryCache α :=
  match cache.item key with
  | none => (none, cache)
  | some entry =>
    if entry.expiresAt < now then (none, cache)
    else (some entry, { cache with items := putItem key { entry with lastAccessedAt := now } cache.items })

/-- Of the sampled indices the first expired, else the least recently used. -/
def sampleOldest (now : Nat) : List Nat → Option (Nat × Nat) → Option Nat
  | [], oldest => oldest.map (·.1)
  | draw :: draws, oldest =>
    let index := draw % cache.keys.length
    match cache.keys[index]?.bind cache.item with
    | none => sampleOldest now draws oldest
    | some item =>
      if item.expiresAt < now then some index
      else if oldest.all fun (_, at_) => item.lastAccessedAt < at_ then
        sampleOldest now draws (some (index, item.lastAccessedAt))
      else sampleOldest now draws oldest

/-- `Vec::swap_remove` -/
def swapRemove (keys : List Bytes) (index : Nat) : List Bytes :=
  match keys.getLast? with
  | none => []
  | some last => (keys.set index last).dropLast

/-- `evict_oldest_item`, with the five indices it draws. -/
def evictOldestItem (now : Nat) (draws : List Nat) : MemoryCache α :=
  match cache.sampleOldest now (draws.take 5) none with
  | none => cache
  | some index =>
    match cache.keys[index]? with
    | none => cache
    | some key =>
      let removed := ((cache.item key).map (·.size)).getD 0
      { cache with
        keys := swapRemove cache.keys index
        items := cache.items.filter (·.1 ≠ key)
        size := cache.size - removed }

/-- Evicts while there is too much; each round takes a key away. -/
def makeRoom (limit : Int) (now : Nat) : Nat → List (List Nat) → MemoryCache α → MemoryCache α
  | 0, _, cache => cache
  | rounds + 1, draws, cache =>
    if cache.size > limit && !cache.keys.isEmpty then
      makeRoom limit now rounds draws.tail (cache.evictOldestItem now (draws.headD [0]))
    else cache

/-- `MemoryCache::set` -/
def set (key : Bytes) (value : α) (itemSize : Int) (expiresAt now : Nat) (draws : List (List Nat)) :
    MemoryCache α :=
  if itemSize > cache.maxItemSize || itemSize > cache.capacity then cache
  else
    let cache := makeRoom (cache.capacity - itemSize) now cache.keys.length draws cache
    let entry : CacheEntry α := ⟨now, expiresAt, value, itemSize⟩
    match cache.item key with
    | some existing =>
      { cache with
        items := putItem key entry cache.items
        size := cache.size - existing.size + itemSize }
    | none =>
      { cache with
        keys := cache.keys ++ [key]
        items := putItem key entry cache.items
        size := cache.size + itemSize }

end MemoryCache

/-! ## 2. Requests and responses -/

/-- Header names are lower case, in the order they came. -/
abbrev Headers := List (Bytes × Bytes)

namespace Headers

def get (headers : Headers) (name : Bytes) : Option Bytes := (headers.find? (·.1 = name)).map (·.2)

end Headers

/-- `HeaderValue::to_str`: visible ASCII, blanks and tabs. -/
def toStr (value : Bytes) : Option Bytes :=
  if value.all fun b => (32 ≤ b && b < 127) || b = 9 then some value else none

/-- The first value, or "". -/
def first (headers : Headers) (name : Bytes) : Bytes := ((headers.get name).bind toStr).getD []

def newline : UInt8 := byte '\n'

/-- A request as the cache reads it; a method and a URI hold no line break. -/
structure Request where
  method : Bytes
  authority : Option Bytes
  path : Bytes
  query : Option Bytes
  headers : Headers
  method_line : newline ∉ method
  authority_line : ∀ a ∈ authority, newline ∉ a
  path_line : newline ∉ path
deriving DecidableEq

def maxCacheableUri : Nat := 2048

/-- GET or HEAD, no upgrade, no range and no very long URI. -/
def shouldCacheRequest (request : Request) : Bool :=
  let header (name : String) : Bytes := (request.headers.get (text name)).getD []
  let allowedMethod := request.method = text "GET" || request.method = text "HEAD"
  let isUpgrade := header "connection" = text "Upgrade" || header "upgrade" = text "websocket"
  let isRange := !(header "range").isEmpty
  let uriLength := request.path.length + (request.query.map (·.length + 1)).getD 0
  allowedMethod && !isUpgrade && !isRange && uriLength ≤ maxCacheableUri

def isDigit (b : UInt8) : Bool := byte '0' ≤ b && b ≤ byte '9'

/-- A word character of a regular expression over bytes. -/
def isWordByte (b : UInt8) : Bool :=
  isDigit b || (byte 'a' ≤ b && b ≤ byte 'z') || (byte 'A' ≤ b && b ≤ byte 'Z') || b = byte '_'

/-- The leftmost match that starts at a word boundary, of a pattern that starts with a word character. -/
def searchWord {α : Type} (pattern : Bytes → Option α) : Option UInt8 → Bytes → Option α
  | _, [] => none
  | before, b :: rest =>
    (if before.all (! isWordByte ·) then pattern (b :: rest) else none).or (searchWord pattern (some b) rest)

/-- A word and a boundary behind it. -/
def wordPattern (word : String) (s : Bytes) : Option Unit :=
  if (text word).isPrefixOf s && (s.drop (text word).length).head?.all (! isWordByte ·) then some () else none

/-- A prefix, digits and a boundary behind them. -/
def agePattern (word : String) (s : Bytes) : Option Bytes :=
  let rest := s.drop (text word).length
  let digits := rest.takeWhile isDigit
  if (text word).isPrefixOf s && !digits.isEmpty && (rest.drop digits.length).head?.all (! isWordByte ·) then
    some digits
  else none

def decimal (digits : Bytes) : Nat := digits.foldl (fun n b => n * 10 + (b - byte '0').toNat) 0

/-- How many seconds the response may be kept, if at all. -/
def cacheLifetime (status : Nat) (headers : Headers) : Option Nat :=
  let cacheControl := first headers (text "cache-control")
  if !(200 ≤ status && status ≤ 399) || status = 304 then none
  else if (first headers (text "vary")).contains (byte '*') then none
  else if (searchWord (wordPattern "public") none cacheControl).isNone then none
  else if (searchWord (wordPattern "no-cache") none cacheControl).isSome then none
  else
    match (searchWord (agePattern "s-max-age=") none cacheControl).or
        (searchWord (agePattern "max-age=") none cacheControl) with
    | none => none
    | some digits =>
      let seconds := decimal digits
      if seconds < 2 ^ 63 && 0 < seconds then some seconds else none

/-! ## 3. The query as the key has it -/

/-- `u8::from_str_radix(…, 16)` of two bytes: a sign may stand before one digit. -/
def fromStrRadix (high low : UInt8) : Option UInt8 :=
  if high = byte '+' then hexValue low
  else
    match hexValue high, hexValue low with
    | some high, some low => some (high * 16 + low)
    | _, _ => none

def unescapeBytes : Bytes → Option Bytes
  | [] => some []
  | b :: rest =>
    if b = byte '%' then
      match rest with
      | high :: low :: rest =>
        match fromStrRadix high low with
        | some c => (unescapeBytes rest).map (c :: ·)
        | none => none
      | _ => none
    else if b = byte '+' then (unescapeBytes rest).map (byte ' ' :: ·)
    else (unescapeBytes rest).map (b :: ·)

def queryUnescape (s : Bytes) : Option Bytes := (unescapeBytes s).map lossy

def hexDigitUpper (n : UInt8) : UInt8 := if n < 10 then byte '0' + n else byte 'A' + (n - 10)

def escapeByte (b : UInt8) : Bytes :=
  if isDigit b || (byte 'a' ≤ b && b ≤ byte 'z') || (byte 'A' ≤ b && b ≤ byte 'Z') || b = byte '-' ||
      b = byte '_' || b = byte '.' || b = byte '~' then [b]
  else if b = byte ' ' then [byte '+']
  else [byte '%', hexDigitUpper (b / 16), hexDigitUpper (b % 16)]

def queryEscape (s : Bytes) : Bytes := s.flatMap escapeByte

/-- Byte by byte, a proper prefix first. -/
def bytesLe : Bytes → Bytes → Bool
  | [], _ => true
  | _ :: _, [] => false
  | a :: as, b :: bs => a < b || (a = b && bytesLe as bs)

/-- One more value of a key, which keeps its first place. -/
def addValue (key value : Bytes) : List (Bytes × List Bytes) → List (Bytes × List Bytes)
  | [] => [(key, [value])]
  | (k, list) :: rest => if k = key then (k, list ++ [value]) :: rest else (k, list) :: addValue key value rest

/-- What a pair adds; one that is empty, holds a `;` or cannot be decoded adds nothing. -/
def addPair (values : List (Bytes × List Bytes)) (pair : Bytes) : List (Bytes × List Bytes) :=
  if pair.isEmpty || pair.contains (byte ';') then values
  else
    let (key, value) := (splitOnce (byte '=') pair).getD (pair, [])
    match queryUnescape key, queryUnescape value with
    | some key, some value => addValue key value values
    | _, _ => values

/-- `url.Values.Encode()` of `URL.Query()` -/
def encodeQuery (query : Bytes) : Bytes :=
  let values := ((query.splitOn (byte '&')).foldl addPair []).insertionSort fun a b => bytesLe a.1 b.1
  let pairs := values.flatMap fun (key, list) =>
    list.map fun value => queryEscape key ++ [byte '='] ++ queryEscape value
  [byte '&'].intercalate pairs

/-! ## 4. The key -/

structure Variant where
  base : Bytes
  requestHeaders : Headers
  names : List Bytes

/-- The host a request names. -/
def Request.host (request : Request) : Bytes :=
  match (request.headers.get (text "host")).bind toStr with
  | some host => host
  | none => request.authority.getD []

def Request.canonicalQuery (request : Request) : Bytes := encodeQuery (request.query.getD [])

def isBlank (b : UInt8) : Bool := b = byte ' ' || b = byte '\t'

def trim (s : Bytes) : Bytes := ((s.dropWhile isBlank).reverse.dropWhile isBlank).reverse

def lowerByte (b : UInt8) : UInt8 := if byte 'A' ≤ b && b ≤ byte 'Z' then b + 32 else b

/-- The names in a `Vary`, lower case and sorted. -/
def varyNames (headers : Headers) : List Bytes :=
  let vary := first headers (text "vary")
  if vary.isEmpty then []
  else ((vary.splitOn (byte ',')).map fun name => (trim name).map lowerByte).insertionSort (bytesLe · ·)

namespace Variant

def new (request : Request) : Variant where
  -- the raw path, as the router sees it
  base := request.method ++ newline :: request.path ++ newline :: request.canonicalQuery ++
    newline :: request.host
  requestHeaders := request.headers
  names := []

def setResponseHeaders (variant : Variant) (headers : Headers) : Variant :=
  { variant with names := varyNames headers }

def requestValue (variant : Variant) (name : Bytes) : Bytes := first variant.requestHeaders name

def cacheKey (variant : Variant) : Bytes :=
  variant.base ++ variant.names.flatMap fun name => newline :: name ++ byte '=' :: variant.requestValue name

/-- A stored response's variant headers match this request's. -/
def matchesVariant (variant : Variant) (stored : List (Bytes × Bytes)) : Bool :=
  variant.names.all fun name =>
    ((stored.find? (·.1 = name)).map (·.2)).getD [] = variant.requestValue name

def variantHeaders (variant : Variant) : List (Bytes × Bytes) :=
  variant.names.map fun name => (name, variant.requestValue name)

end Variant

/-! ## 5. What the map holds -/

namespace MemoryCache

variable {α : Type} {cache cache' : MemoryCache α} {k key : Bytes} {v value : α} {x now expiresAt : Nat}

/-- A value is under a key, and expires then. -/
def Holds (cache : MemoryCache α) (key : Bytes) (value : α) (expiresAt : Nat) : Prop :=
  ∃ entry, (key, entry) ∈ cache.items ∧ entry.value = value ∧ entry.expiresAt = expiresAt

theorem mem_of_item {entry : CacheEntry α} (h : cache.item key = some entry) : (key, entry) ∈ cache.items := by
  obtain ⟨⟨k, e⟩, hfind, rfl⟩ := Option.map_eq_some_iff.mp h
  have hk : k = key := by simpa using List.find?_some hfind
  subst hk
  exact List.mem_of_find?_eq_some hfind

theorem mem_putItem {entry : CacheEntry α} {items : List (Bytes × CacheEntry α)} {a : Bytes × CacheEntry α}
    (h : a ∈ putItem key entry items) : a = (key, entry) ∨ a ∈ items := by
  induction items with
  | nil => exact .inl (List.mem_singleton.mp h)
  | cons first rest ih =>
    unfold putItem at h
    split at h
    · simp only [List.mem_cons] at h ⊢; tauto
    · simp only [List.mem_cons] at h ⊢; tauto

/-- What a lookup finds is held, and not expired. -/
theorem get_found {entry : CacheEntry α} (h : cache.get key now = (some entry, cache')) :
    cache.Holds key entry.value entry.expiresAt ∧ now ≤ entry.expiresAt := by
  unfold get at h
  split at h
  · cases h
  · next found hitem =>
    split at h
    · cases h
    · next hfresh =>
      simp only [Prod.mk.injEq, Option.some.injEq] at h
      obtain ⟨rfl, -⟩ := h
      exact ⟨⟨found, mem_of_item hitem, rfl, rfl⟩, Nat.le_of_not_lt hfresh⟩

/-- A lookup changes only when the entry was last accessed. -/
theorem holds_get (h : (cache.get key now).2.Holds k v x) : cache.Holds k v x := by
  unfold get at h
  split at h
  · exact h
  · next found hitem =>
    split at h
    · exact h
    · obtain ⟨entry, hmem, rfl, rfl⟩ := h
      rcases mem_putItem hmem with heq | hmem
      · obtain ⟨rfl, rfl⟩ := Prod.mk.injEq .. ▸ heq
        exact ⟨found, mem_of_item hitem, rfl, rfl⟩
      · exact ⟨entry, hmem, rfl, rfl⟩

theorem items_evictOldestItem (draws : List Nat) : (cache.evictOldestItem now draws).items ⊆ cache.items := by
  unfold evictOldestItem
  split
  · exact fun _ h => h
  · split
    · exact fun _ h => h
    · exact fun _ h => (List.mem_filter.mp h).1

theorem items_makeRoom {limit : Int} (rounds : Nat) (draws : List (List Nat)) :
    (makeRoom limit now rounds draws cache).items ⊆ cache.items := by
  induction rounds generalizing cache draws with
  | zero => exact fun _ h => h
  | succ rounds ih =>
    unfold makeRoom
    split
    · exact fun _ h => items_evictOldestItem _ (ih _ h)
    · exact fun _ h => h

theorem holds_set {itemSize : Int} {draws : List (List Nat)}
    (h : (cache.set key value itemSize expiresAt now draws).Holds k v x) :
    cache.Holds k v x ∨ (k = key ∧ v = value ∧ x = expiresAt) := by
  unfold set at h
  split at h
  · exact .inl h
  · have hput : (⟨0, 0, 0, [], putItem key ⟨now, expiresAt, value, itemSize⟩
        (makeRoom (cache.capacity - itemSize) now cache.keys.length draws cache).items⟩ :
        MemoryCache α).Holds k v x := by
      simp only at h
      split at h <;> exact h
    obtain ⟨entry, hmem, rfl, rfl⟩ := hput
    rcases mem_putItem hmem with heq | hmem
    · obtain ⟨rfl, rfl⟩ := Prod.mk.injEq .. ▸ heq
      exact .inr ⟨rfl, rfl, rfl⟩
    · exact .inl ⟨entry, items_makeRoom _ _ hmem, rfl, rfl⟩

end MemoryCache

/-! ## 6. What a key tells -/

theorem newline_notMem_escapeByte (b : UInt8) : newline ∉ escapeByte b := by
  have hall : ∀ n : Fin 256, newline ∉ escapeByte (UInt8.ofNat n) := by decide +kernel
  simpa using hall ⟨b.toNat, b.toNat_lt⟩

theorem newline_notMem_queryEscape (s : Bytes) : newline ∉ queryEscape s := by
  simp only [queryEscape, List.mem_flatMap, not_exists, not_and]
  exact fun b _ => newline_notMem_escapeByte b

theorem newline_notMem_intercalate {sep : Bytes} {parts : List Bytes} (hsep : newline ∉ sep)
    (hparts : ∀ part ∈ parts, newline ∉ part) : newline ∉ sep.intercalate parts := by
  induction parts with
  | nil => exact List.not_mem_nil
  | cons part rest ih =>
    have hpart : newline ∉ part := hparts part List.mem_cons_self
    have hrest := ih fun p hp => hparts p (List.mem_cons_of_mem _ hp)
    cases rest with
    | nil => rwa [List.intercalate_singleton]
    | cons next rest =>
      rw [List.intercalate_cons_cons, List.mem_append, List.mem_append]
      tauto

theorem newline_notMem_encodeQuery (query : Bytes) : newline ∉ encodeQuery query := by
  refine newline_notMem_intercalate (by decide) fun part hpart => ?_
  obtain ⟨⟨key, list⟩, -, hpart⟩ := List.mem_flatMap.mp hpart
  obtain ⟨value, -, rfl⟩ := List.mem_map.mp hpart
  have hsep : newline ∉ [byte '='] := by decide
  simp only [List.mem_append, not_or]
  exact ⟨⟨newline_notMem_queryEscape key, hsep⟩, newline_notMem_queryEscape value⟩

theorem newline_notMem_toStr {value s : Bytes} (h : toStr value = some s) : newline ∉ s := by
  unfold toStr at h
  split at h
  · next hall =>
    obtain rfl : value = s := by simpa using h
    exact fun hmem => absurd (List.all_eq_true.mp hall newline hmem) (by decide)
  · cases h

theorem newline_notMem_host (request : Request) : newline ∉ request.host := by
  unfold Request.host
  split
  · next host heq =>
    obtain ⟨value, -, hvalue⟩ := Option.bind_eq_some_iff.mp heq
    exact newline_notMem_toStr hvalue
  · cases hauthority : request.authority with
    | none => exact List.not_mem_nil
    | some authority => exact request.authority_line authority hauthority

/-- The variant of a request, varying on `names`. -/
def Variant.on (request : Request) (names : List Bytes) : Variant := { Variant.new request with names }

/-- What a key says of the headers it was made with. -/
def headerLines (request : Request) (names : List Bytes) : Bytes :=
  names.flatMap fun name => newline :: (name ++ byte '=' :: first request.headers name)

theorem closed_headerLines (request : Request) (names : List Bytes) : Closed newline (headerLines request names) := by
  cases names with
  | nil => exact closed_nil _
  | cons name names => exact closed_cons _ _

/-- **Requests with one key, whatever they vary on, have one method, path, query and host**, and one text of the
headers. -/
theorem cacheKey_inj {p q : Request} {names names' : List Bytes}
    (h : (Variant.on p names).cacheKey = (Variant.on q names').cacheKey) :
    p.method = q.method ∧ p.path = q.path ∧ p.canonicalQuery = q.canonicalQuery ∧ p.host = q.host ∧
      headerLines p names = headerLines q names' := by
  simp only [Variant.cacheKey, Variant.on, Variant.new, List.append_assoc, List.cons_append] at h
  obtain ⟨hmethod, h⟩ := line_inj p.method_line q.method_line (closed_cons _ _) (closed_cons _ _) h
  obtain ⟨hpath, h⟩ := line_inj p.path_line q.path_line (closed_cons _ _) (closed_cons _ _) (List.cons.inj h).2
  obtain ⟨hquery, h⟩ := line_inj (newline_notMem_encodeQuery _) (newline_notMem_encodeQuery _) (closed_cons _ _)
    (closed_cons _ _) (List.cons.inj h).2
  obtain ⟨hhost, hlines⟩ := line_inj (newline_notMem_host p) (newline_notMem_host q) (closed_headerLines p names)
    (closed_headerLines q names') (List.cons.inj h).2
  exact ⟨hmethod, hpath, hquery, hhost, hlines⟩

theorem newline_notMem_first (headers : Headers) (name : Bytes) : newline ∉ first headers name := by
  unfold first
  cases h : (headers.get name).bind toStr with
  | none => exact List.not_mem_nil
  | some s =>
    obtain ⟨value, -, hvalue⟩ := Option.bind_eq_some_iff.mp h
    exact newline_notMem_toStr hvalue

theorem newline_notMem_varyNames {headers : Headers} {name : Bytes} (h : name ∈ varyNames headers) :
    newline ∉ name := by
  have hlower : ∀ n : Fin 256, lowerByte (UInt8.ofNat n) = newline → UInt8.ofNat n = newline := by decide +kernel
  unfold varyNames at h
  dsimp only at h
  split at h
  · exact absurd h List.not_mem_nil
  · intro hmem
    obtain ⟨part, hpart, rfl⟩ := List.mem_map.mp ((List.mem_insertionSort _).mp h)
    obtain ⟨b, hb, hline⟩ := List.mem_map.mp hmem
    have hsource : b ∈ part := by
      have hb := List.mem_reverse.mp hb
      have hb := List.mem_reverse.mp ((List.dropWhile_sublist _).subset hb)
      exact (List.dropWhile_sublist _).subset hb
    have hnewline := hlower ⟨b.toNat, b.toNat_lt⟩
    simp only [UInt8.ofNat_toNat] at hnewline
    exact newline_notMem_first _ _ (hnewline hline ▸ subset_of_mem_splitOn hpart hsource)

/-- **The text of the headers tells their names and values**, where the names hold no `=`. -/
theorem headerLines_inj {p q : Request} {names names' : List Bytes} (hnames : ∀ n ∈ names, newline ∉ n ∧ byte '=' ∉ n)
    (hnames' : ∀ n ∈ names', newline ∉ n ∧ byte '=' ∉ n) (h : headerLines p names = headerLines q names') :
    names = names' ∧ ∀ n ∈ names, first p.headers n = first q.headers n := by
  induction names generalizing names' with
  | nil =>
    cases names' with
    | nil => exact ⟨rfl, fun n hn => absurd hn List.not_mem_nil⟩
    | cons name' names' => cases h
  | cons name names ih =>
    cases names' with
    | nil => cases h
    | cons name' names' =>
      rw [headerLines, headerLines, List.flatMap_cons, List.flatMap_cons, List.cons_append, List.cons_append,
        ← headerLines, ← headerLines] at h
      obtain ⟨⟨hline, hname⟩, hrest⟩ := List.forall_mem_cons.mp hnames
      obtain ⟨⟨hline', hname'⟩, hrest'⟩ := List.forall_mem_cons.mp hnames'
      have hwhole {name : Bytes} (request : Request) (h : newline ∉ name) :
          newline ∉ name ++ byte '=' :: first request.headers name := by
        rw [List.mem_append, List.mem_cons, not_or, not_or]
        exact ⟨h, by decide, newline_notMem_first _ _⟩
      obtain ⟨hfirst, htail⟩ := line_inj (hwhole p hline) (hwhole q hline') (closed_headerLines p names)
        (closed_headerLines q names') (List.cons.inj h).2
      obtain ⟨rfl, hvalue⟩ := line_inj hname hname' (closed_cons _ _) (closed_cons _ _) hfirst
      obtain ⟨rfl, hvalues⟩ := ih hrest hrest' htail
      exact ⟨rfl, List.forall_mem_cons.mpr ⟨(List.cons.inj hvalue).2, hvalues⟩⟩

end Smartfire
