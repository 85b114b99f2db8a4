import EaHalfHour.AtomicObject
import EaHalfHour.JsonText
import EaHalfHour.KvCache
import EaHalfHour.WebService

/-! The a006 cache server: its CacheService over a turbo::LRUCache. nlohmann::json, which
writes the documents, is a parameter. -/
namespace EaHalfHour.VueCache
open AtomicObject KvMessage KvCache WebService JsonText Utf8Text

/-- What dump() throws on a string that is not UTF-8. -/
inductive JsonException where
  | typeError316
deriving DecidableEq

section Service
variable {σ : Type} [LRUCache σ] (json : Json)

def Cache.set (key value : Bytes) (cache : σ) : σ := LRUCache.put cache key value

def Cache.get (key : Bytes) (cache : σ) : (Bytes × Bool) × σ :=
  let r := LRUCache.tryGet cache key
  match r.1 with
  | some value => ((value,true),r.2)
  | none => (([],false),r.2)

/-- nlohmann::json keeps the members of an object in the order of their names. -/
def document (code : StatusCode) (msg value : Bytes) : Fields :=
  [(text "code",.num code.toInt),(text "msg",.str msg),(text "value",.str value)]

def answer (response : RestfulResponse) (code : StatusCode) (msg value : Bytes) :
    Except JsonException RestfulResponse :=
  match json.dump (document code msg value) with
  | some doc => .ok { response with statusCode := 200, body := doc }
  | none => .error .typeError316

def onGet (request : RestfulRequest) (response : RestfulResponse) (cache : σ) :
    Except JsonException RestfulResponse × σ :=
  match request.getQuery (text "key") with
  | none => (answer json response .kInvalidArgument (text "no key") [],cache)
  | some key =>
    let (r,cache) := Cache.get key cache
    if r.2 then (answer json response .kOk (text "ok") r.1,cache)
    else (answer json response .kNotFound (key ++ text " not found") [],cache)

def onPost (request : RestfulRequest) (response : RestfulResponse) (cache : σ) :
    Except JsonException RestfulResponse × σ :=
  match request.getQuery (text "key") with
  | none => (answer json response .kInvalidArgument (text "no key or value") [],cache)
  | some key =>
    if request.body = [] then
      (answer json response .kInvalidArgument (text "no key or value") [],cache)
    else
      let cache := Cache.set key request.body cache
      (answer json response .kOk (text "ok") [],cache)

def CacheService.process (web : WebServie) (fs : FileSystem) (request : RestfulRequest)
    (response : RestfulResponse) : ExceptT JsonException (StateM σ) RestfulResponse :=
  WebService.CacheService.process (fun request response => ExceptT.mk (onGet json request response))
    (fun request response => ExceptT.mk (onPost json request response)) (text "not support method")
    web fs request response

def serve (web : WebServie) (fs : FileSystem) (request : RestfulRequest) (cache : σ) :
    Except JsonException RestfulResponse × σ :=
  (CacheService.process json web fs request {}).run.run cache

end Service

structure Posts (request : RestfulRequest) (key value : Bytes) : Prop where
  path : request.unresolvedPath = text "cache"
  method : request.method = .post
  query : request.getQuery (text "key") = some key
  body : request.body = value
  notEmpty : value ≠ []

structure Gets (request : RestfulRequest) (key : Bytes) : Prop where
  path : request.unresolvedPath = text "cache"
  method : request.method = .get
  query : request.getQuery (text "key") = some key

section Requests
variable {σ : Type} [LRUCache σ] (json : Json) (web : WebServie) (fs : FileSystem) (cache : σ)
  {request : RestfulRequest} {key value : Bytes}

theorem serve_cache (h : request.unresolvedPath = text "cache") :
    serve json web fs request cache = match request.method with
      | .get => onGet json request jsonResponse cache
      | .post => onPost json request jsonResponse cache
      | .other => (.ok { jsonResponse with statusCode := 403, body := text "not support method" },
        cache) := by
  simp only [serve, CacheService.process, process_cache _ _ _ _ _ h]
  cases request.method <;> rfl

theorem serve_post (h : Posts request key value) :
    serve json web fs request cache =
      (answer json jsonResponse .kOk (text "ok") [],LRUCache.put cache key value) := by
  rw [serve_cache json web fs cache h.path, h.method]
  simp only [onPost, h.query, h.body, h.notEmpty, if_false, Cache.set]

theorem serve_get (h : Gets request key) :
    serve json web fs request cache =
      (match (LRUCache.tryGet cache key).1 with
        | some value => answer json jsonResponse .kOk (text "ok") value
        | none => answer json jsonResponse .kNotFound (key ++ text " not found") [],
        (LRUCache.tryGet cache key).2) := by
  rw [serve_cache json web fs cache h.path, h.method]
  cases hfound : (LRUCache.tryGet cache key).1 <;> simp [onGet, h.query, Cache.get, hfound]

theorem serve_effect (request : RestfulRequest) :
    (serve json web fs request cache).2 = cache ∨
    (∃ key, Gets request key ∧
      (serve json web fs request cache).2 = (LRUCache.tryGet cache key).2) ∨
    ∃ key value, Posts request key value ∧
      (serve json web fs request cache).2 = LRUCache.put cache key value := by
  by_cases hpath : request.unresolvedPath = text "cache"
  · cases hquery : request.getQuery (text "key") with
    | none =>
      refine Or.inl ?_
      rw [serve_cache json web fs cache hpath]
      cases request.method <;> simp only [onGet, onPost, hquery]
    | some key =>
      cases hmethod : request.method with
      | get =>
        have h : Gets request key := ⟨hpath,hmethod,hquery⟩
        exact Or.inr (Or.inl ⟨key,h,by rw [serve_get json web fs cache h]⟩)
      | post =>
        by_cases hbody : request.body = []
        · refine Or.inl ?_
          rw [serve_cache json web fs cache hpath, hmethod]
          simp only [onPost, hquery, hbody, if_true]
        · have h : Posts request key request.body := ⟨hpath,hmethod,hquery,rfl,hbody⟩
          exact Or.inr (Or.inr ⟨key,_,h,by rw [serve_post json web fs cache h]⟩)
      | other =>
        refine Or.inl ?_
        rw [serve_cache json web fs cache hpath, hmethod]
  · refine Or.inl ?_
    unfold serve CacheService.process WebService.CacheService.process
    dsimp only
    split_ifs <;> rfl

end Requests

section Documents
variable {json : Json} (hjson : json.Documented)
include hjson

theorem answer_isOk (response : RestfulResponse) (code : StatusCode) (msg value : Bytes) :
    (∃ r, answer json response code msg value = .ok r) ↔ ValidUtf8 msg ∧ ValidUtf8 value := by
  have hnames : ValidUtf8 (text "code") ∧ ValidUtf8 (text "msg") ∧ ValidUtf8 (text "value") := by
    decide
  have hsome : (json.dump (document code msg value)).isSome = true ↔
      ValidUtf8 msg ∧ ValidUtf8 value := by
    rw [hjson.dump_isSome_iff]
    simp [Fields.Valid, document, Scalar.Valid, hnames]
  rw [← hsome, answer]
  cases json.dump (document code msg value) <;> simp

theorem answer_ok {response r : RestfulResponse} {code : StatusCode} {msg value : Bytes}
    (h : answer json response code msg value = .ok r) :
    r.statusCode = 200 ∧ ∃ fields, json.parse r.body = some fields ∧
      ∀ name, fields.lookup name = (document code msg value).lookup name := by
  have hnames : ((document code msg value).map Prod.fst).Nodup :=
    show [text "code",text "msg",text "value"].Nodup by decide
  unfold answer at h
  cases hdump : json.dump (document code msg value) with
  | none =>
    rw [hdump] at h
    cases h
  | some doc =>
    rw [hdump] at h
    cases h
    exact ⟨rfl,hjson.parse_dump _ doc hnames hdump⟩

end Documents

section RoundTrip
open LawfulLRUCache RecencyMap RecencyCache
variable {σ : Type} [LRUCache σ] [RecencyCache σ] (json : Json) (web : WebServie)
  (fs : FileSystem)

/-- Every GET of the key that comes after the POST, while the entry is neither
overwritten nor evicted, returns normally with the posted bytes. -/
def RoundTrips (start : σ) (key value : Bytes) : Prop :=
  ∀ (earlier later : List RestfulRequest) (post get : RestfulRequest),
    Posts post key value → Gets get key →
    (∀ request ∈ later, ∀ other, ¬ Posts request key other) →
    find (replay (serve json web fs) (earlier ++ post :: later) start).2 key ≠ none →
    ∃ response cache,
      serve json web fs get (replay (serve json web fs) (earlier ++ post :: later) start).2 =
        (.ok response,cache) ∧
      response.statusCode = 200 ∧ ∃ fields, json.parse response.body = some fields ∧
        fields.lookup (text "code") = some (.num StatusCode.kOk.toInt) ∧
        fields.lookup (text "value") = some (.str value)

theorem find_serve {request : RestfulRequest} {cache : σ} {key value : Bytes}
    (hno : ∀ other, ¬ Posts request key other)
    (h : find (serve json web fs request cache).2 key = some value) : find cache key = some value := by
  rcases serve_effect json web fs cache request with he | ⟨other,-,he⟩ | ⟨other,value',hposts,he⟩
  · rwa [he] at h
  · rwa [he, find_tryGet] at h
  · rw [he] at h
    have hput := find_put cache key other value' value h
    split at hput
    · rename_i heq
      exact absurd (heq ▸ hposts) (hno value')
    · exact hput

theorem find_later {later : List RestfulRequest} {cache : σ} {key value : Bytes}
    (hno : ∀ request ∈ later, ∀ other, ¬ Posts request key other)
    (h : ∀ w, find cache key = some w → w = value) :
    ∀ w, find (replay (serve json web fs) later cache).2 key = some w → w = value :=
  replay_invariant (P := fun c => ∀ w, find c key = some w → w = value)
    (fun request hmem _ hc w hw => hc w (find_serve json web fs (hno request hmem) hw)) h

theorem roundTrips_of_valid (hjson : json.Documented) (start : σ) (key : Bytes) {value : Bytes} (hvalid : ValidUtf8 value) :
    RoundTrips json web fs start key value := by
  intro earlier later post get hpost hget hno hfind
  rw [replay_append] at hfind ⊢
  simp only [replay, serve_post json web fs _ hpost] at hfind ⊢
  -- the state after the requests before the POST
  generalize (replay (serve json web fs) earlier start).2 = before at hfind ⊢
  have hput : ∀ w, find (LRUCache.put before key value) key = some w → w = value := by
    intro w hw
    simpa using find_put before key key value w hw
  have hlater := find_later json web fs hno hput
  generalize (replay (serve json web fs) later (LRUCache.put before key value)).2 = cache at hfind hlater ⊢
  obtain ⟨w,hw⟩ := Option.ne_none_iff_exists'.mp hfind
  obtain rfl := hlater w hw
  have hok : ValidUtf8 (text "ok") := by decide
  obtain ⟨r,hr⟩ := (answer_isOk hjson jsonResponse .kOk (text "ok") w).mpr ⟨hok,hvalid⟩
  obtain ⟨hstatus,fields,hparse,hread⟩ := answer_ok hjson hr
  refine ⟨r,(LRUCache.tryGet cache key).2,?_,hstatus,fields,hparse,hread _,hread _⟩
  rw [serve_get json web fs cache hget, LawfulLRUCache.tryGet_fst, hw]
  exact Prod.ext hr rfl

/-- What is posted can be read back exactly when it is UTF-8. -/
theorem roundTrips_iff (hjson : json.Documented) {start : σ} {capacity : Nat}
    (h0 : view start = Lru.empty capacity) (hcapacity : 1 ≤ capacity) (key : Bytes)
    {value : Bytes} (hvalue : value ≠ []) :
    RoundTrips json web fs start key value ↔ ValidUtf8 value := by
  refine ⟨fun h => ?_,roundTrips_of_valid json web fs hjson start key⟩
  -- a GET right after the POST
  let post : RestfulRequest :=
    { unresolvedPath := text "cache", method := .post, getQuery := fun _ => some key, body := value }
  let get : RestfulRequest :=
    { unresolvedPath := text "cache", method := .get, getQuery := fun _ => some key }
  have hpost : Posts post key value := ⟨rfl,rfl,rfl,rfl,hvalue⟩
  have hget : Gets get key := ⟨rfl,rfl,rfl⟩
  have hfind : find (LRUCache.put start key value) key = some value := by
    change (view (LRUCache.put start key value)).find key = some value
    rw [view_put, h0]
    exact Lru.find_put_self hcapacity
  have hround := h [] [] post get hpost hget (by simp)
  simp only [List.nil_append, replay, serve_post json web fs _ hpost] at hround
  obtain ⟨r,cache,hserve,-⟩ := hround (by simp [hfind])
  rw [serve_get json web fs _ hget, LawfulLRUCache.tryGet_fst, hfind] at hserve
  exact ((answer_isOk hjson jsonResponse .kOk (text "ok") value).mp ⟨r,(Prod.mk.inj hserve).1⟩).2

def noFiles : FileSystem := ⟨fun _ => false,true,fun _ => none⟩

def oneEntry : Lru Bytes Bytes := Lru.empty 1

theorem roundTrips_eAcute :
    RoundTrips plainJson ⟨text "www"⟩ noFiles oneEntry (text "k") [195,169] :=
  (roundTrips_iff plainJson ⟨text "www"⟩ noFiles plainJson_documented
    (show view oneEntry = Lru.empty 1 from rfl) (by decide) (text "k") (by decide)).mpr (by decide)

/-- The byte 255 is stored, and dump() throws when it is to be read. -/
theorem not_roundTrips_byte255 :
    ¬ RoundTrips plainJson ⟨text "www"⟩ noFiles oneEntry (text "k") [255] := by
  intro h
  let post : RestfulRequest :=
    { unresolvedPath := text "cache", method := .post, getQuery := fun _ => some (text "k"),
      body := [255] }
  let get : RestfulRequest :=
    { unresolvedPath := text "cache", method := .get, getQuery := fun _ => some (text "k") }
  have hthrows : (serve plainJson ⟨text "www"⟩ noFiles get
      (replay (serve plainJson ⟨text "www"⟩ noFiles) ([] ++ post :: []) oneEntry).2).1 =
    .error .typeError316 := by decide
  obtain ⟨r,cache,hserve,-⟩ := h [] [] post get ⟨rfl,rfl,rfl,rfl,by decide⟩ ⟨rfl,rfl,rfl⟩
    (by simp) (by decide)
  rw [hserve] at hthrows
  cases hthrows

end RoundTrip

end EaHalfHour.VueCache
