/-
  File:      Smartfire/Front/Handler.lean
  Subject:   Requests through the cache (crates/kit/src/front/handler.rs `Handler::cached`).

  A request is looked up, passed to the application where nothing is found, and its response stored once its
  body is recorded; other requests go on in between. The clock, the application's responses and what the
  eviction samples are the labels'.

  * `lookup`, `FrontHandler.step`, `frontSystem` -- the handler;
  * `Stores`, `FrontInv` -- what a stored entry says about the request it was produced for;
  * **`Hit.Sound`, `sound_of_reach`** -- what a hit and that request agree on;
  * `distinct_hits` -- what they may differ in.
-/
import Smartfire.Front.Cache
import Smartfire.Lib.Runs

namespace Smartfire

open Lib

/-! ## 1. The handler -/

structure CachedResponse where
  status : Nat
  headers : Headers
  body : Bytes
  /-- The request's values of the headers the response varies on. -/
  variant : List (Bytes × Bytes)
deriving DecidableEq

/-- How much of the cache it takes up stored under `key`. -/
def CachedResponse.size (response : CachedResponse) (key : Bytes) : Nat :=
  let lengths (pairs : List (Bytes × Bytes)) : Nat := (pairs.map fun (n, v) => n.length + v.length).sum
  response.body.length + lengths response.headers + lengths response.variant + key.length + 256

/-- A response, the request it was produced for and the headers that one's key was made with; nothing reads
the latter two. -/
structure StoredResponse where
  response : CachedResponse
  producedFor : Request
  keyedOn : List Bytes
deriving DecidableEq

/-- `was_not_modified` -/
def wasNotModified (cached : CachedResponse) (request : Request) : Bool :=
  let etag := first cached.headers (text "etag")
  let ifNoneMatch := first request.headers (text "if-none-match")
  !etag.isEmpty && (ifNoneMatch.splitOn (byte ',')).any fun candidate => trim candidate = etag

/-- A cache hit's status, headers and body: the stored response's, or a 304. -/
def hitResponse (cached : CachedResponse) (request : Request) : Nat × Headers × Bytes :=
  let headers := cached.headers.filter (·.1 ≠ text "x-cache") ++ [(text "x-cache", text "hit")]
  if wasNotModified cached request then (304, headers, []) else (cached.status, headers, cached.body)

/-- What the lookups found, the key they ended at, and where a second one was made the response that led to it. -/
structure Lookup where
  found : Option (CacheEntry StoredResponse)
  key : Bytes
  led : Option StoredResponse

/-- The headers the last lookup's key was made with. -/
def keyNames (led : Option StoredResponse) : List Bytes :=
  match led with
  | none => []
  | some other => varyNames other.response.headers

def lookup (cache : MemoryCache StoredResponse) (request : Request) (now : Nat) :
    Lookup × MemoryCache StoredResponse :=
  let variant := Variant.new request
  match cache.get variant.cacheKey now with
  | (none, cache) => (⟨none, variant.cacheKey, none⟩, cache)
  | (some entry, cache) =>
    let variant := variant.setResponseHeaders entry.value.response.headers
    if variant.matchesVariant entry.value.response.variant then
      (⟨some entry, (Variant.new request).cacheKey, none⟩, cache)
    else
      let (found, cache) := cache.get variant.cacheKey now
      (⟨found, variant.cacheKey, some entry.value⟩, cache)

/-- A request the application is working on. -/
structure Waiting where
  request : Request
  key : Bytes
  keyedOn : List Bytes
  now : Nat
deriving DecidableEq

/-- A response whose body is being recorded. -/
structure Recording where
  key : Bytes
  stored : StoredResponse
  lifetime : Nat
  now : Nat
deriving DecidableEq

/-- A response served from the cache. -/
structure Hit where
  request : Request
  stored : StoredResponse
  expiresAt : Nat
  now : Nat
  led : Option StoredResponse
  answer : Nat × Headers × Bytes
deriving DecidableEq

structure FrontHandler where
  cache : MemoryCache StoredResponse
  waiting : List Waiting
  recording : List Recording
  hits : List Hit

inductive FrontAct where
  | request (request : Request) (now : Nat)
  /-- The application answers one that waits. -/
  | respond (i : Nat) (status : Nat) (headers : Headers)
  /-- A body is recorded whole. -/
  | store (i : Nat) (body : Bytes) (draws : List (List Nat))
  /-- A body grew too large, or its connection went away. -/
  | abandon (i : Nat)

namespace FrontHandler

def step (s : FrontHandler) : FrontAct → Option FrontHandler
  | .request request now =>
    -- others bypass the cache
    if !shouldCacheRequest request then some s
    else
      match lookup s.cache request now with
      | (⟨some entry, _, led⟩, cache) =>
        let hit := ⟨request, entry.value, entry.expiresAt, now, led, hitResponse entry.value.response request⟩
        some { s with cache, hits := s.hits ++ [hit] }
      | (⟨none, key, led⟩, cache) =>
        some { s with cache, waiting := s.waiting ++ [⟨request, key, keyNames led, now⟩] }
  | .respond i status headers =>
    match s.waiting[i]? with
    | none => none
    | some w =>
      match cacheLifetime status headers with
      | none => some { s with waiting := s.waiting.eraseIdx i }
      | some lifetime =>
        let headers := headers.filter fun (name, _) => name ≠ text "set-cookie" && name ≠ text "x-cache"
        let variant := ((Variant.new w.request).setResponseHeaders headers).variantHeaders
        let stored := ⟨⟨status, headers, [], variant⟩, w.request, w.keyedOn⟩
        some { s with
          waiting := s.waiting.eraseIdx i
          recording := s.recording ++ [⟨w.key, stored, lifetime, w.now⟩] }
  | .store i body draws =>
    match s.recording[i]? with
    | none => none
    | some r =>
      let response := { r.stored.response with body }
      some { s with
        cache := s.cache.set r.key { r.stored with response } (response.size r.key) (r.now + r.lifetime) r.now draws
        recording := s.recording.eraseIdx i }
  | .abandon i =>
    match s.recording[i]? with
    | none => none
    | some _ => some { s with recording := s.recording.eraseIdx i }

def empty (capacity maxItemSize : Int) : FrontHandler := ⟨⟨capacity, maxItemSize, 0, [], []⟩, [], [], []⟩

end FrontHandler

def frontSystem : System FrontHandler FrontAct where
  start s := ∃ capacity maxItemSize, s = .empty capacity maxItemSize
  step s a := s.step a

/-! ## 2. What is stored -/

/-- A key made of a request, with names that are lines. -/
def KeyOf (key : Bytes) (request : Request) (names : List Bytes) : Prop :=
  key = (Variant.on request names).cacheKey ∧ ∀ name ∈ names, newline ∉ name

/-- The key is the request's, and the variant is what the request had. -/
def Stores (key : Bytes) (stored : StoredResponse) : Prop :=
  KeyOf key stored.producedFor stored.keyedOn ∧
  stored.response.variant = (Variant.on stored.producedFor (varyNames stored.response.headers)).variantHeaders

/-- **What a request that is served and the one its response was produced for agree on.** -/
structure Hit.Sound (h : Hit) : Prop where
  method : h.request.method = h.stored.producedFor.method
  path : h.request.path = h.stored.producedFor.path
  host : h.request.host = h.stored.producedFor.host
  query : h.request.canonicalQuery = h.stored.producedFor.canonicalQuery
  /-- Where the first lookup found it: the headers it varies on. -/
  vary : h.led = none → ∀ name ∈ varyNames h.stored.response.headers,
    first h.request.headers name = first h.stored.producedFor.headers name
  /-- Where another response led to it: the headers that one varies on, as long as it and the one that led the
  other request there name headers. -/
  led : ∀ other, h.led = some other →
    (∀ name ∈ varyNames other.response.headers ++ h.stored.keyedOn, byte '=' ∉ name) →
    ∀ name ∈ varyNames other.response.headers,
      first h.request.headers name = first h.stored.producedFor.headers name
  fresh : h.now ≤ h.expiresAt

structure FrontInv (s : FrontHandler) : Prop where
  cache : ∀ key stored expiresAt, s.cache.Holds key stored expiresAt → Stores key stored
  waiting : ∀ w ∈ s.waiting, KeyOf w.key w.request w.keyedOn
  recording : ∀ r ∈ s.recording, Stores r.key r.stored
  hits : ∀ h ∈ s.hits, h.Sound

/-! ## 3. A lookup -/

section Lookup

variable {cache cache' : MemoryCache StoredResponse} {request : Request} {now : Nat} {key : Bytes}
  {led : Option StoredResponse}

/-- The value a variant was stored with. -/
theorem find_variantHeaders {variant : Variant} {name : Bytes} (h : name ∈ variant.names) :
    ((variant.variantHeaders.find? (·.1 = name)).map (·.2)).getD [] = variant.requestValue name := by
  unfold Variant.variantHeaders
  generalize variant.names = names at h ⊢
  induction names with
  | nil => exact absurd h List.not_mem_nil
  | cons first rest ih =>
    by_cases hfirst : first = name
    · subst hfirst
      simp
    · have hrest : name ∈ rest := (List.mem_cons.mp h).resolve_left fun heq => hfirst heq.symm
      simpa [hfirst] using ih hrest

/-- A variant that matches has the values of the request the response was produced for. -/
theorem requestValue_of_matches {stored : StoredResponse} (hstored : Stores key stored)
    (h : ((Variant.new request).setResponseHeaders stored.response.headers).matchesVariant
      stored.response.variant = true) :
    ∀ name ∈ varyNames stored.response.headers,
      first request.headers name = first stored.producedFor.headers name := by
  intro name hname
  have hvalue := of_decide_eq_true (List.all_eq_true.mp h name hname)
  rw [hstored.2, find_variantHeaders hname] at hvalue
  exact hvalue.symm

theorem keyed_first (request : Request) : KeyOf (Variant.new request).cacheKey request [] :=
  ⟨rfl, fun _ h => absurd h List.not_mem_nil⟩

theorem keyed_varyNames (request : Request) (headers : Headers) :
    KeyOf ((Variant.new request).setResponseHeaders headers).cacheKey request (varyNames headers) :=
  ⟨rfl, fun _ => newline_notMem_varyNames⟩

theorem lookup_key (h : lookup cache request now = (⟨none, key, led⟩, cache')) :
    KeyOf key request (keyNames led) := by
  simp only [lookup] at h
  split at h
  · obtain ⟨-, rfl, rfl⟩ := Lookup.mk.inj (Prod.mk.inj h).1
    exact keyed_first request
  · split at h
    · cases (Lookup.mk.inj (Prod.mk.inj h).1).1
    · obtain ⟨-, rfl, rfl⟩ := Lookup.mk.inj (Prod.mk.inj h).1
      exact keyed_varyNames request _

theorem holds_lookup {k : Bytes} {v : StoredResponse} {x : Nat} (h : (lookup cache request now).2.Holds k v x) :
    cache.Holds k v x := by
  simp only [lookup] at h
  have hfirst : ((cache.get (Variant.new request).cacheKey now).2.Holds k v x → cache.Holds k v x) :=
    MemoryCache.holds_get
  split at h
  · next heq => rw [heq] at hfirst; exact hfirst h
  · next heq =>
    rw [heq] at hfirst
    split at h
    · exact hfirst h
    · exact hfirst (MemoryCache.holds_get h)

/-- **What a lookup finds** was stored for a request it agrees with. -/
theorem lookup_found {entry : CacheEntry StoredResponse}
    (hcache : ∀ key stored expiresAt, cache.Holds key stored expiresAt → Stores key stored)
    (h : lookup cache request now = (⟨some entry, key, led⟩, cache')) (answer : Nat × Headers × Bytes) :
    (Hit.mk request entry.value entry.expiresAt now led answer).Sound := by
  simp only [lookup] at h
  split at h
  · cases (Lookup.mk.inj (Prod.mk.inj h).1).1
  · next found cache₁ hget =>
    obtain ⟨hheld, hfresh⟩ := MemoryCache.get_found hget
    have hstores := hcache _ _ _ hheld
    split at h
    · next hmatches =>
      obtain ⟨hfound, -, rfl⟩ := Lookup.mk.inj (Prod.mk.inj h).1
      obtain rfl : found = entry := Option.some.inj hfound
      obtain ⟨hmethod, hpath, hquery, hhost, -⟩ := cacheKey_inj ((keyed_first request).1.symm.trans hstores.1.1)
      exact ⟨hmethod, hpath, hhost, hquery, fun _ => requestValue_of_matches hstores hmatches,
        fun _ hled => (by cases hled), hfresh⟩
    · -- under the second key another response may be stored, with a `Vary` of its own
      obtain ⟨hfound, -, rfl⟩ := Lookup.mk.inj (Prod.mk.inj h).1
      have hget₂ : cache₁.get ((Variant.new request).setResponseHeaders found.value.response.headers).cacheKey now =
          (some entry, (cache₁.get ((Variant.new request).setResponseHeaders
            found.value.response.headers).cacheKey now).2) := by
        rw [← hfound]
      obtain ⟨hheld₂, hfresh₂⟩ := MemoryCache.get_found hget₂
      have hheld₁ : cache.Holds _ entry.value entry.expiresAt := MemoryCache.holds_get (by rw [hget]; exact hheld₂)
      obtain ⟨⟨hkey, hlines⟩, -⟩ := hcache _ _ _ hheld₁
      have hkeyed := keyed_varyNames request found.value.response.headers
      obtain ⟨hmethod, hpath, hquery, hhost, htext⟩ := cacheKey_inj (hkeyed.1.symm.trans hkey)
      refine ⟨hmethod, hpath, hhost, hquery, fun hled => (by cases hled), fun other hled hnames => ?_, hfresh₂⟩
      obtain rfl := Option.some.inj hled
      have hnames := List.forall_mem_append.mp hnames
      exact (headerLines_inj (fun n hn => ⟨hkeyed.2 n hn, hnames.1 n hn⟩)
        (fun n hn => ⟨hlines n hn, hnames.2 n hn⟩) htext).2

end Lookup

/-! ## 4. Every run -/

theorem frontInv_step {s s' : FrontHandler} {a : FrontAct} (h : FrontInv s) (hs : s.step a = some s') :
    FrontInv s' := by
  cases a with
  | request request now =>
    simp only [FrontHandler.step] at hs
    split at hs
    · obtain rfl := Option.some.inj hs
      exact h
    · split at hs
      · next entry _ led cache heq =>
        obtain rfl := Option.some.inj hs
        have hcache : ∀ key stored expiresAt, cache.Holds key stored expiresAt → Stores key stored :=
          fun key stored expiresAt hholds => h.cache _ _ _ (holds_lookup (by rw [heq]; exact hholds))
        refine ⟨hcache, h.waiting, h.recording, fun hit hmem => ?_⟩
        rcases List.mem_append.mp hmem with hmem | hmem
        · exact h.hits hit hmem
        · obtain rfl := List.mem_singleton.mp hmem
          exact lookup_found h.cache heq _
      · next key led cache heq =>
        obtain rfl := Option.some.inj hs
        have hcache : ∀ key stored expiresAt, cache.Holds key stored expiresAt → Stores key stored :=
          fun key stored expiresAt hholds => h.cache _ _ _ (holds_lookup (by rw [heq]; exact hholds))
        refine ⟨hcache, fun w hmem => ?_, h.recording, h.hits⟩
        rcases List.mem_append.mp hmem with hmem | hmem
        · exact h.waiting w hmem
        · obtain rfl := List.mem_singleton.mp hmem
          exact lookup_key heq
  | respond i status headers =>
    simp only [FrontHandler.step] at hs
    split at hs
    · cases hs
    · next w hw =>
      have hwaiting : ∀ w' ∈ s.waiting.eraseIdx i, KeyOf w'.key w'.request w'.keyedOn :=
        fun w' hmem => h.waiting w' (List.mem_of_mem_eraseIdx hmem)
      split at hs
      · obtain rfl := Option.some.inj hs
        exact ⟨h.cache, hwaiting, h.recording, h.hits⟩
      · obtain rfl := Option.some.inj hs
        refine ⟨h.cache, hwaiting, fun r hmem => ?_, h.hits⟩
        rcases List.mem_append.mp hmem with hmem | hmem
        · exact h.recording r hmem
        · obtain rfl := List.mem_singleton.mp hmem
          exact ⟨h.waiting w (List.mem_of_getElem? hw), rfl⟩
  | store i body draws =>
    simp only [FrontHandler.step] at hs
    split at hs
    · cases hs
    · next r hr =>
      obtain rfl := Option.some.inj hs
      refine ⟨fun key stored expiresAt hholds => ?_, h.waiting,
        fun r' hmem => h.recording r' (List.mem_of_mem_eraseIdx hmem), h.hits⟩
      rcases MemoryCache.holds_set hholds with hold | ⟨rfl, rfl, -⟩
      · exact h.cache _ _ _ hold
      · exact h.recording r (List.mem_of_getElem? hr)
  | abandon i =>
    simp only [FrontHandler.step] at hs
    split at hs
    · cases hs
    · obtain rfl := Option.some.inj hs
      exact ⟨h.cache, h.waiting, fun r hmem => h.recording r (List.mem_of_mem_eraseIdx hmem), h.hits⟩

theorem frontInv_start {s : FrontHandler} (h : frontSystem.start s) : FrontInv s := by
  obtain ⟨capacity, maxItemSize, rfl⟩ := h
  refine ⟨fun key stored expiresAt hholds => ?_, fun w hmem => absurd hmem List.not_mem_nil,
    fun r hmem => absurd hmem List.not_mem_nil, fun hit hmem => absurd hmem List.not_mem_nil⟩
  obtain ⟨entry, hmem, -⟩ := hholds
  exact absurd hmem List.not_mem_nil

/-- **Every hit, in every run**, is a response produced for a request of the same method, path, host and
canonical query, not expired, and with the same values of headers: those it varies on where the first lookup
found it, those that the response which led to it varies on where the second did. -/
theorem sound_of_reach {s : FrontHandler} (h : Reach frontSystem s) : ∀ hit ∈ s.hits, hit.Sound := by
  have hinv : FrontInv s := h.induct (fun _ => frontInv_start) fun _ _ _ _ ih _ hs => frontInv_step ih hs
  exact hinv.hits

/-! ## 5. What a hit may differ in -/

/-- What an application that reads the parameters and the headers named in `Vary` could tell apart. -/
structure Hit.Indistinct (h : Hit) : Prop where
  method : h.request.method = h.stored.producedFor.method
  path : h.request.path = h.stored.producedFor.path
  host : h.request.host = h.stored.producedFor.host
  params : fromQueryString (h.request.query.getD []) = fromQueryString (h.stored.producedFor.query.getD [])
  vary : ∀ name ∈ varyNames h.stored.response.headers,
    first h.request.headers name = first h.stored.producedFor.headers name
  fresh : h.now ≤ h.expiresAt

/-- GET /qr with a query and the two headers. -/
def qrRequest (query accept language : String) : Request where
  method := text "GET"
  authority := none
  path := text "/qr"
  query := some (text query)
  headers := [(text "host", text "h"), (text "accept", text accept), (text "accept-language", text language)]
  method_line := by decide
  authority_line := by simp
  path_line := by decide

/-- A response that may be kept for a minute. -/
def publicHeaders (vary : String) : Headers :=
  [(text "cache-control", text "public, max-age=60"), (text "vary", text vary)]

/-- `a` is asked for, then `a=`. -/
def conflatedRun : List FrontAct :=
  [.request (qrRequest "a" "" "") 0, .respond 0 200 (publicHeaders ""), .store 0 (text "nil") [],
    .request (qrRequest "a=" "" "") 1]

/-- A response that varies on `Accept` leads a request to the key of one that varies on the language. -/
def uncheckedRun : List FrontAct :=
  [.request (qrRequest "" "a" "en") 0, .respond 0 200 (publicHeaders "Accept"), .store 0 (text "a") [],
    .request (qrRequest "" "b" "en") 1, .respond 0 200 (publicHeaders "Accept-Language"), .store 0 (text "en") [],
    .request (qrRequest "" "b" "fr") 2]

/-- A hit of the second lookup, of a response with another `Vary` than the one that led to it. -/
theorem sound_of_reach_sample : ∃ s, Reach frontSystem s ∧
    s.hits.map (fun hit => (keyNames hit.led, varyNames hit.stored.response.headers)) =
      [([text "accept"], [text "accept-language"])] ∧ ∀ hit ∈ s.hits, hit.Sound := by
  obtain ⟨s, hs, hp⟩ := exists_reachWhen_of_replay (T := frontSystem) (G := fun _ _ => True)
    (l := uncheckedRun)
    (p := fun s => s.hits.map (fun hit => (keyNames hit.led, varyNames hit.stored.response.headers)) =
      [([text "accept"], [text "accept-language"])]) ⟨100000, 100000, rfl⟩ (by decide +kernel)
  exact ⟨s, hs, of_decide_eq_true hp, sound_of_reach hs⟩

theorem params_conflated : fromQueryString (text "a=") ≠ fromQueryString (text "a") := by
  have hempty : fromQueryString (text "a=") = .ok [(text "a", .str [])] := by rfl
  have hnull : fromQueryString (text "a") = .ok [(text "a", .null)] := by rfl
  rw [hempty, hnull]
  simp

/-- **A hit with other parameters, and one with another value of a header its response varies on.** -/
theorem distinct_hits :
    (∃ s, Reach frontSystem s ∧ ∃ hit ∈ s.hits, hit.led = none ∧ ¬ hit.Indistinct) ∧
    ∃ s, Reach frontSystem s ∧ ∃ hit ∈ s.hits,
      hit.request.query = hit.stored.producedFor.query ∧ ¬ hit.Indistinct := by
  have hstart : frontSystem.start (.empty 100000 100000) := ⟨100000, 100000, rfl⟩
  constructor
  · obtain ⟨s, hs, hp⟩ := exists_reachWhen_of_replay (T := frontSystem) (G := fun _ _ => True)
      (l := conflatedRun) (p := fun s => s.hits.any fun hit => hit.led = none &&
        hit.request.query = some (text "a=") && hit.stored.producedFor.query = some (text "a"))
      hstart (by decide +kernel)
    obtain ⟨hit, hmem, hhit⟩ := List.any_eq_true.mp hp
    simp only [Bool.and_eq_true, decide_eq_true_eq] at hhit
    obtain ⟨⟨hfirst, hq⟩, hpq⟩ := hhit
    refine ⟨s, hs, hit, hmem, hfirst, fun h => ?_⟩
    have hparams := h.params
    rw [hq, hpq] at hparams
    exact params_conflated hparams
  · obtain ⟨s, hs, hp⟩ := exists_reachWhen_of_replay (T := frontSystem) (G := fun _ _ => True)
      (l := uncheckedRun) (p := fun s => s.hits.any fun hit =>
        hit.request.query = hit.stored.producedFor.query && (varyNames hit.stored.response.headers).any fun name =>
          first hit.request.headers name ≠ first hit.stored.producedFor.headers name)
      hstart (by decide +kernel)
    obtain ⟨hit, hmem, hhit⟩ := List.any_eq_true.mp hp
    obtain ⟨hquery, hvary⟩ := (Bool.and_eq_true _ _).mp hhit
    obtain ⟨name, hname, hne⟩ := List.any_eq_true.mp hvary
    exact ⟨s, hs, hit, hmem, of_decide_eq_true hquery, fun h => of_decide_eq_true hne (h.vary name hname)⟩

end Smartfire
