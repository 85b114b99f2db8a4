import EaHalfHour.JsonText
import EaHalfHour.KvCache
import EaHalfHour.UrlText
import EaHalfHour.WebService

/-! The a008 cache page, what a browser sends of its requests, and the CacheService
that answers them. -/
namespace EaHalfHour.CacheUi
open KvMessage KvCache WebService JsonText Utf8Text UrlText

/-- What the page and the service are built on: melon's GetQuery over the text of a
query, nlohmann's dump() of documents in ASCII, on which it does not throw, json2pb, and
the data axios makes of the body of a response. -/
structure Platform where
  getQuery : Bytes → Bytes → Option Bytes
  dump : Fields → Bytes
  protoMessageToJson : KvResponse → Option Bytes
  responseData : Bytes → Fields

def Platform.ReadsKey (p : Platform) : Prop :=
  ∀ rest, p.getQuery (text "key=" ++ rest) (text "key") = some (firstValue rest)

def Platform.ShowsCode (p : Platform) : Prop :=
  ∀ r : KvResponse, r.isInitialized = true → ∃ json, p.protoMessageToJson r = some json ∧
    (p.responseData json).lookup (text "code") = r.code.map .num

def errorDocument (code : StatusCode) (msg : Bytes) : Fields :=
  [(text "code",.num code.toInt),(text "msg",.str msg),(text "value",.str [])]

def Platform.initErrorOnce (p : Platform) : Bytes × Bytes :=
  (p.dump (errorDocument .kInternal (text "proto to json error")),
    p.dump (errorDocument .kInvalidArgument (text "no key or value")))

def Platform.getProtoConversionErr (p : Platform) : Bytes := p.initErrorOnce.1

/-- The source returns `proto_conversion_err` here as well. -/
def Platform.getNokeyErr (p : Platform) : Bytes := p.initErrorOnce.1

def Platform.answer (p : Platform) (response : RestfulResponse) (r : KvResponse) :
    RestfulResponse :=
  { response with
    statusCode := 200
    body := (p.protoMessageToJson r).getD p.getProtoConversionErr }

section Service
variable {σ : Type} [LRUCache σ] (p : Platform) (web : WebServie) (fs : FileSystem)

def onGet (request : RestfulRequest) (response : RestfulResponse) (cache : σ) :
    RestfulResponse × σ :=
  match request.getQuery (text "key") with
  | none =>
    let r := ((({} : KvResponse).setCode .kInvalidArgument).setValue []).setMessage (text "no key")
    (p.answer response r,cache)
  | some key =>
    let r := Cache.get { key } {} cache
    (p.answer response r.1,r.2)

def onPost (request : RestfulRequest) (response : RestfulResponse) (cache : σ) :
    RestfulResponse × σ :=
  match request.getQuery (text "key") with
  | none => ({ response with statusCode := 200, body := p.getNokeyErr },cache)
  | some key =>
    if request.body = [] then ({ response with statusCode := 200, body := p.getNokeyErr },cache)
    else
      let r := Cache.put { key, value := some request.body } {} cache
      (p.answer response r.1,r.2)

def CacheService.process (request : RestfulRequest) (response : RestfulResponse) :
    StateM σ RestfulResponse :=
  WebService.CacheService.process (m := StateM σ) (onGet p) (onPost p)
    (text "\x7berr:not support method\x7d") web fs request response

def serve (request : RestfulRequest) (cache : σ) : RestfulResponse × σ :=
  (CacheService.process p web fs request {}).run cache

end Service

def isHostChar (c : Char) : Bool := decide (32 < c.toNat ∧ c ∉ "#/:<>?@[\\]^|".toList)

def isAddressChar (c : Char) : Bool :=
  c.isDigit || decide (c ∈ "abcdefABCDEF:.".toList)

def IsHost (host : List Char) : Prop :=
  (host ≠ [] ∧ host.all isHostChar = true) ∨
    ∃ address, address ≠ [] ∧ host = '[' :: address ++ [']'] ∧ address.all isAddressChar = true

structure ServerAddress where
  host : List Char
  port : Option UInt16
  isHost : IsHost host
deriving DecidableEq

def ServerAddress.text (server : ServerAddress) : List Char :=
  server.host ++ server.port.elim [] fun port => ':' :: Nat.toDigits 10 port.toNat

def localServer : ServerAddress := ⟨"localhost".toList,some 8018,.inl (by decide)⟩

/-- The data of the page. Its texts are strings as they are typed or read, and a
member that a response lacks is undefined. -/
structure HelloWorld where
  cacheKey : List Char := "cachekey".toList
  cacheValue : Option Scalar := some (.str (text "cachevalue"))
  server : ServerAddress := localServer
  code : Option Scalar := some (.num 0)
  msg : Option Scalar := some (.str [])
deriving DecidableEq

structure HttpRequest where
  method : HttpMethod
  url : List Char
  body : Bytes := []

def postBody : Option Scalar → Bytes
  | some (.str s) => s
  | some (.num n) => dumpInt n
  | none => []

namespace HelloWorld

def typed (self : HelloWorld) (key : List Char) (value : Bytes) : HelloWorld :=
  { self with cacheKey := key, cacheValue := some (.str value) }

/-- Both requests put the key into the URL as it is. -/
def url (self : HelloWorld) : List Char :=
  "http://".toList ++ self.server.text ++ "/ea/cache?key=".toList ++ self.cacheKey

def getCacheValue (self : HelloWorld) : HttpRequest := { method := .get, url := self.url }

def setCacheValue (self : HelloWorld) : HttpRequest :=
  { method := .post, url := self.url, body := postBody self.cacheValue }

def got (self : HelloWorld) (data : Fields) : HelloWorld :=
  { self with
    code := data.lookup (text "code")
    msg := data.lookup (text "message")
    cacheValue := data.lookup (text "value") }

def wasSet (self : HelloWorld) (data : Fields) : HelloWorld :=
  { self with code := data.lookup (text "code"), msg := data.lookup (text "message") }

end HelloWorld

def Platform.received (p : Platform) (request : HttpRequest) : RestfulRequest :=
  let u := parts "http://".toList request.url
  { unresolvedPath := stripPrefix (encode u.path) (text "/ea/")
    method := request.method
    getQuery := p.getQuery (percentEncode u.query)
    body := request.body }

/-- axios calls back only when the status is a success. -/
def Platform.resolved (p : Platform) (page : HelloWorld) (callback : Fields → HelloWorld)
    (response : RestfulResponse) : HelloWorld :=
  if 200 ≤ response.statusCode ∧ response.statusCode < 300 then
    callback (p.responseData response.body)
  else page

section Clicks
variable {σ : Type} [LRUCache σ] (p : Platform) (web : WebServie) (fs : FileSystem)

def getClicked (page : HelloWorld) (cache : σ) : HelloWorld × σ :=
  let r := serve p web fs (p.received page.getCacheValue) cache
  (p.resolved page page.got r.1,r.2)

def setClicked (page : HelloWorld) (cache : σ) : HelloWorld × σ :=
  let r := serve p web fs (p.received page.setCacheValue) cache
  (p.resolved page page.wasSet r.1,r.2)

end Clicks

def IsPlain (c : Char) : Prop := 32 < c.toNat ∧ isFragmentMark c = false ∧ endsAuthority c = false

theorem isPlain_of_ne {c : Char} (hspace : 32 < c.toNat)
    (hne : ∀ d ∈ ['#','/','\\','?'], c ≠ d) : IsPlain c := by
  have hnat : ∀ d ∈ ['#','/','\\','?'], c.toNat ≠ d.toNat :=
    fun d hd heq => hne d hd (Char.toNat_inj.mp heq)
  simp only [List.forall_mem_cons] at hnat
  obtain ⟨hhash,hslash,hback,hquery,-⟩ := hnat
  refine ⟨hspace,by simpa [isFragmentMark] using hhash,?_⟩
  simp only [endsAuthority, Bool.or_eq_false_iff, beq_eq_false_iff_ne]
  exact ⟨⟨hslash,hback⟩,hquery⟩

theorem isPlain_hostChar {c : Char} (h : isHostChar c = true) : IsPlain c := by
  obtain ⟨hspace,hmark⟩ := of_decide_eq_true h
  have hmarks : (['#','/','\\','?'].all fun d => decide (d ∈ "#/:<>?@[\\]^|".toList)) = true := by
    decide
  refine isPlain_of_ne hspace fun d hd heq => ?_
  rw [heq] at hmark
  exact hmark (of_decide_eq_true (List.all_eq_true.mp hmarks d hd))

theorem isPlain_digit {c : Char} (h : c.isDigit = true) : IsPlain c := by
  have hrange : 48 ≤ c.toNat ∧ c.toNat ≤ 57 := Char.isDigit_iff_toNat.mp h
  refine isPlain_of_ne (by omega) fun d hd heq => ?_
  have hall : (['#','/','\\','?'].all fun d => decide (d.toNat < 48 ∨ 57 < d.toNat)) = true := by
    decide
  have hd' := of_decide_eq_true (List.all_eq_true.mp hall d hd)
  rw [← heq] at hd'
  omega

theorem isPlain_addressChar {c : Char} (h : isAddressChar c = true) : IsPlain c := by
  rcases Bool.or_eq_true_iff.mp h with hdigit | hletter
  · exact isPlain_digit hdigit
  · have hall : ("abcdefABCDEF:.".toList.all fun d =>
        decide (isHostChar d = true ∨ d = ':')) = true := by decide
    rcases of_decide_eq_true (List.all_eq_true.mp hall c (of_decide_eq_true hletter)) with
      hhost | rfl
    · exact isPlain_hostChar hhost
    · exact ⟨by decide,by decide,by decide⟩

theorem ServerAddress.isPlain (server : ServerAddress) : ∀ c ∈ server.text, IsPlain c := by
  have hmark : ∀ d ∈ [':','[',']'], IsPlain d := by
    intro d hd
    simp only [List.mem_cons, List.not_mem_nil, or_false] at hd
    rcases hd with rfl | rfl | rfl <;> exact ⟨by decide,by decide,by decide⟩
  intro c hc
  rcases List.mem_append.mp hc with hhost | hport
  · rcases server.isHost with ⟨-,hchars⟩ | ⟨address,-,haddress,hchars⟩
    · exact isPlain_hostChar (List.all_eq_true.mp hchars c hhost)
    · rw [haddress] at hhost
      simp only [List.cons_append, List.mem_cons, List.mem_append, List.not_mem_nil,
        or_false] at hhost
      rcases hhost with rfl | hmem | rfl
      · exact hmark _ (by simp)
      · exact isPlain_addressChar (List.all_eq_true.mp hchars c hmem)
      · exact hmark _ (by simp)
  · cases hnumber : server.port with
    | none =>
      rw [hnumber] at hport
      cases hport
    | some port =>
      rw [hnumber] at hport
      rcases List.mem_cons.mp hport with rfl | hdigit
      · exact hmark _ (by simp)
      · exact isPlain_digit (Nat.isDigit_of_mem_toDigits (by decide) (by decide) hdigit)

theorem ServerAddress.kept (server : ServerAddress) : Kept server.text := by
  intro c hc
  obtain ⟨hspace,hmark,-⟩ := server.isPlain c hc
  exact ⟨by simpa [isC0OrSpace] using hspace,hmark⟩

theorem ServerAddress.isAuthority (server : ServerAddress) : Free endsAuthority server.text :=
  fun c hc => (server.isPlain c hc).2.2

section Requests
variable {p : Platform} {request : HttpRequest}

theorem parts_url (page : HelloWorld) : parts "http://".toList page.url =
    ⟨page.server.text,"/ea/cache".toList,"key=".toList ++ queryEnd page.cacheKey⟩ := by
  have hurl : "/ea/cache?key=".toList = '/' :: "ea/cache".toList ++ '?' :: "key=".toList := by
    decide
  have hpath : "/ea/cache".toList = '/' :: "ea/cache".toList := by decide
  unfold HelloWorld.url
  rw [hurl, hpath, ← List.append_assoc]
  exact parts_append (by decide) page.server.kept page.server.isAuthority (by decide) (by decide)
    (by decide) (by decide) page.cacheKey

theorem received_path (page : HelloWorld) (hurl : request.url = page.url) :
    (p.received request).unresolvedPath = text "cache" := by
  simp only [Platform.received, hurl, parts_url]
  decide

theorem received_key (hkey : p.ReadsKey) (page : HelloWorld) (hurl : request.url = page.url) :
    (p.received request).getQuery (text "key") = some (sentValue page.cacheKey) := by
  have hname : percentEncode "key=".toList = text "key=" := by decide
  have hquery (k : List Char) :
      percentEncode ("key=".toList ++ k) = text "key=" ++ percentEncode k := by
    rw [← hname]
    exact List.flatMap_append
  simp only [Platform.received, hurl, parts_url, hquery]
  exact hkey _

end Requests

section Serve
variable {σ : Type} [LRUCache σ] {p : Platform} (web : WebServie) (fs : FileSystem) (cache : σ)

theorem serve_cache {request : RestfulRequest} (h : request.unresolvedPath = text "cache") :
    serve p web fs request cache = match request.method with
      | .get => onGet p request jsonResponse cache
      | .post => onPost p request jsonResponse cache
      | .other => ({ jsonResponse with
          statusCode := 403, body := text "\x7berr:not support method\x7d" },cache) := by
  simp only [serve, CacheService.process, process_cache _ _ _ _ _ h]
  cases request.method <;> rfl

theorem serve_get (hkey : p.ReadsKey) (page : HelloWorld) :
    serve p web fs (p.received page.getCacheValue) cache =
      (p.answer jsonResponse (fillLooked (LRUCache.tryGet cache (sentValue page.cacheKey)).1 {}),
        (LRUCache.tryGet cache (sentValue page.cacheKey)).2) := by
  rw [serve_cache web fs cache (received_path page rfl)]
  change onGet p (p.received page.getCacheValue) jsonResponse cache = _
  rw [onGet, received_key hkey page rfl]
  simp only [Cache.get_eq]

theorem serve_set (hkey : p.ReadsKey) (page : HelloWorld) (k : List Char) {value : Bytes}
    (hvalue : value ≠ []) :
    serve p web fs (p.received (page.typed k value).setCacheValue) cache =
      (p.answer jsonResponse (fillStored {}),LRUCache.put cache (sentValue k) value) := by
  rw [serve_cache web fs cache (received_path (page.typed k value) rfl)]
  change onPost p (p.received (page.typed k value).setCacheValue) jsonResponse cache = _
  rw [onPost, received_key hkey (page.typed k value) rfl]
  change (if value = [] then _ else _) = _
  rw [if_neg hvalue]
  rfl

end Serve

section Entries
open RecencyMap RecencyCache
variable (p : Platform) (web : WebServie) (fs : FileSystem)

structure NamesEntry (page : HelloWorld) (k : List Char) : Prop where
  set : ∀ (σ : Type) [LRUCache σ] (cache : σ) {value : Bytes}, value ≠ [] →
    (serve p web fs (p.received (page.typed k value).setCacheValue) cache).2 =
      LRUCache.put cache (encode k) value
  get : ∀ (σ : Type) [LRUCache σ] (cache : σ),
    serve p web fs (p.received { page with cacheKey := k }.getCacheValue) cache =
      (p.answer jsonResponse (Cache.get ⟨encode k,none⟩ {} cache).1,
        (Cache.get ⟨encode k,none⟩ {} cache).2)

section Pair
variable {σ : Type} [LRUCache σ] (page : HelloWorld) (cache : σ) (k₁ k₂ : List Char)

/-- Setting the first key leaves what the page reads for the second as it was. -/
def KeepsOther : Prop := ∀ value, value ≠ [] →
  (getClicked p web fs
      { (setClicked p web fs (page.typed k₁ value) cache).1 with cacheKey := k₂ }
      (setClicked p web fs (page.typed k₁ value) cache).2).1 =
    (getClicked p web fs { page with cacheKey := k₂ } cache).1

structure SeparateEntries : Prop where
  first : NamesEntry p web fs page k₁
  second : NamesEntry p web fs page k₂
  kept : KeepsOther p web fs page cache k₁ k₂

end Pair

variable {p}

theorem namesEntry_iff (hkey : p.ReadsKey) (page : HelloWorld) (k : List Char) :
    NamesEntry p web fs page k ↔ Plain k := by
  rw [← sentValue_eq_iff]
  constructor
  · intro h
    have hput := h.set (Lru Bytes Bytes) (Lru.empty 1) (List.cons_ne_nil 0 [])
    rw [serve_set web fs _ hkey page k (List.cons_ne_nil 0 [])] at hput
    have hentries := congrArg (fun m => m.entries.map Prod.fst) hput
    exact (List.cons.inj hentries).1
  · intro h
    constructor
    · intro σ _ cache value hvalue
      rw [serve_set web fs cache hkey page k hvalue, h]
    · intro σ _ cache
      rw [serve_get web fs cache hkey, h, Cache.get_eq]

section Reading
variable {σ : Type} [LRUCache σ]

theorem getClicked_fst (hkey : p.ReadsKey) (page : HelloWorld) (cache : σ) :
    (getClicked p web fs page cache).1 = page.got (p.responseData
      (p.answer jsonResponse
        (fillLooked (LRUCache.tryGet cache (sentValue page.cacheKey)).1 {})).body) := by
  simp only [getClicked, serve_get web fs cache hkey]
  rfl

theorem setClicked_server (page : HelloWorld) (cache : σ) :
    (setClicked p web fs page cache).1.server = page.server := by
  simp only [setClicked, Platform.resolved]
  split <;> rfl

theorem getClicked_code (hkey : p.ReadsKey) (hcode : p.ShowsCode) (page : HelloWorld)
    (cache : σ) :
    (getClicked p web fs page cache).1.code =
      (fillLooked (LRUCache.tryGet cache (sentValue page.cacheKey)).1 {}).code.map .num := by
  have hinit : (fillLooked (LRUCache.tryGet cache (sentValue page.cacheKey)).1
      {}).isInitialized = true := by
    unfold fillLooked
    split <;> rfl
  obtain ⟨json,hjson,hshows⟩ := hcode _ hinit
  rw [getClicked_fst web fs hkey, ← hshows, Platform.answer, hjson]
  rfl

theorem setClicked_snd (hkey : p.ReadsKey) (page : HelloWorld) (k : List Char) (cache : σ)
    {value : Bytes} (hvalue : value ≠ []) :
    (setClicked p web fs (page.typed k value) cache).2 =
      LRUCache.put cache (sentValue k) value := by
  simp only [setClicked, serve_set web fs cache hkey page k hvalue]

theorem found_of_code {found found' : Option Bytes}
    (h : (fillLooked found {}).code.map Scalar.num = (fillLooked found' {}).code.map Scalar.num) :
    found = none ↔ found' = none := by
  cases found <;> cases found' <;>
    simp [fillLooked, KvResponse.setCode, KvResponse.setMessage, KvResponse.setValue,
      StatusCode.toInt] at h ⊢

variable [RecencyCache σ] (page : HelloWorld) (cache : σ) {k₁ k₂ : List Char}

theorem keepsOther_iff (hkey : p.ReadsKey) (hcode : p.ShowsCode)
    (hne : sentValue k₂ ≠ sentValue k₁) : KeepsOther p web fs page cache k₁ k₂ ↔
      ¬ (view cache).Evicts (sentValue k₁) (sentValue k₂) := by
  constructor
  · intro hkeeps hevicts
    have hsame := congrArg HelloWorld.code (hkeeps [0] (List.cons_ne_nil 0 []))
    rw [setClicked_snd web fs hkey page k₁ cache (List.cons_ne_nil 0 []),
      getClicked_code web fs hkey hcode, getClicked_code web fs hkey hcode] at hsame
    simp only [RecencyCache.tryGet_fst, view_put, Lru.find_put_evicted hne hevicts] at hsame
    exact Lru.find_of_evicts hevicts ((found_of_code hsame).mp rfl)
  · intro hkept value hvalue
    rw [setClicked_snd web fs hkey page k₁ cache hvalue, getClicked_fst web fs hkey,
      getClicked_fst web fs hkey]
    simp only [RecencyCache.tryGet_fst, view_put, Lru.find_put_kept hne hkept, HelloWorld.got,
      setClicked_server, HelloWorld.typed]

theorem not_keepsOther_of_not_plain (hkey : p.ReadsKey) (hcode : p.ShowsCode) {k : List Char}
    (h : ¬ Plain k) : ∃ k', k' ≠ k ∧
      ¬ KeepsOther p web fs page (Lru.empty 1 : Lru Bytes Bytes) k k' := by
  obtain ⟨k',hplain,hsent⟩ := exists_plain_sentValue k
  refine ⟨k',fun heq => h (heq ▸ hplain),fun hkeeps => ?_⟩
  have hsame := congrArg HelloWorld.code (hkeeps [0] (List.cons_ne_nil 0 []))
  rw [setClicked_snd web fs hkey page k _ (List.cons_ne_nil 0 []),
    getClicked_code web fs hkey hcode, getClicked_code web fs hkey hcode] at hsame
  simp only [RecencyCache.tryGet_fst, view_put, hsent] at hsame
  have hmissing := (found_of_code hsame).mpr rfl
  rw [Lru.find_put_self (show 0 < 1 by decide)] at hmissing
  cases hmissing

/-- The page and the server name the same entries exactly for plain keys, and then
only the bound of the cache makes a setting visible under another key. -/
theorem separateEntries_iff (hkey : p.ReadsKey) (hcode : p.ShowsCode) (hne : k₁ ≠ k₂) :
    SeparateEntries p web fs page cache k₁ k₂ ↔
      Plain k₁ ∧ Plain k₂ ∧ ¬ (view cache).Evicts (encode k₁) (encode k₂) := by
  have hkeeps (h₁ : Plain k₁) (h₂ : Plain k₂) : KeepsOther p web fs page cache k₁ k₂ ↔
      ¬ (view cache).Evicts (encode k₁) (encode k₂) := by
    have hsent₁ := (sentValue_eq_iff k₁).mpr h₁
    have hsent₂ := (sentValue_eq_iff k₂).mpr h₂
    have hdistinct : sentValue k₂ ≠ sentValue k₁ := by
      rw [hsent₁, hsent₂]
      exact fun h => hne (encode_injective h.symm)
    rw [keepsOther_iff web fs page cache hkey hcode hdistinct, hsent₁, hsent₂]
  constructor
  · intro h
    have h₁ := (namesEntry_iff web fs hkey page k₁).mp h.first
    have h₂ := (namesEntry_iff web fs hkey page k₂).mp h.second
    exact ⟨h₁,h₂,(hkeeps h₁ h₂).mp h.kept⟩
  · rintro ⟨h₁,h₂,hkept⟩
    exact ⟨(namesEntry_iff web fs hkey page k₁).mpr h₁,
      (namesEntry_iff web fs hkey page k₂).mpr h₂,(hkeeps h₁ h₂).mpr hkept⟩

end Reading

/-- For a query of one parameter, and documents that json2pb writes without blanks. A
response whose texts are not UTF-8 is shown by its code alone. -/
def compactPlatform : Platform where
  getQuery query name :=
    if name ++ [61] <+: query then some (firstValue (query.drop (name.length+1))) else none
  dump fields := (plainJson.dump fields).getD []
  protoMessageToJson r :=
    match r.code, r.message with
    | some code, some message =>
      let value := (r.value.map fun v => [(text "value",Scalar.str v)]).getD []
      (plainJson.dump ((text "code",.num code) :: (text "message",.str message) :: value)).or
        (plainJson.dump [(text "code",.num code)])
    | _, _ => none
  responseData body := (plainJson.parse body).getD []

theorem compactPlatform_readsKey : compactPlatform.ReadsKey := by
  intro rest
  have hname : text "key" ++ [61] = text "key=" := by decide
  have hlength : (text "key").length+1 = (text "key=").length := by decide
  simp only [compactPlatform, hname, hlength, List.prefix_append, if_true, List.drop_left]

theorem compactPlatform_showsCode : compactPlatform.ShowsCode := by
  intro r hinit
  obtain ⟨⟨code,message,value⟩,rfl⟩ := (KvResponse.isInitialized_iff r).mp hinit
  simp only [compactPlatform, Reply.parse, Option.map_some]
  generalize (value.map fun v => [(text "value",Scalar.str v)]).getD [] = rest
  cases hdump : plainJson.dump ((text "code",.num code) :: (text "message",.str message) :: rest) with
  | some json => exact ⟨json,rfl,by rw [plainJson_parse hdump]; rfl⟩
  | none =>
    have hcode : (plainJson.dump [(text "code",.num code)]).isSome = true := by
      rw [plainJson_documented.dump_isSome_iff]
      have hname : ValidUtf8 (text "code") := by decide
      simp [Fields.Valid, hname, Scalar.Valid]
    obtain ⟨json,hjson⟩ := Option.isSome_iff_exists.mp hcode
    exact ⟨json,hjson,by rw [plainJson_parse hjson]; rfl⟩

theorem separateEntries_plain : SeparateEntries compactPlatform ⟨text "www"⟩
    ⟨fun _ => false,true,fun _ => none⟩ {} (Lru.empty 10 : Lru Bytes Bytes) "k1".toList
    "50%+1".toList :=
  (separateEntries_iff ⟨text "www"⟩ ⟨fun _ => false,true,fun _ => none⟩ {}
    (Lru.empty 10 : Lru Bytes Bytes) compactPlatform_readsKey compactPlatform_showsCode
      (by decide)).mpr ⟨by decide,by decide,fun h => absurd h.2 (by decide)⟩

/-- The key `a&b` is stored under `a`, and then read there. -/
theorem ampersand_shares_entry :
    ¬ NamesEntry compactPlatform ⟨text "www"⟩ ⟨fun _ => false,true,fun _ => none⟩ {}
      "a&b".toList ∧
    ¬ KeepsOther compactPlatform ⟨text "www"⟩ ⟨fun _ => false,true,fun _ => none⟩ {}
      (Lru.empty 10 : Lru Bytes Bytes) "a&b".toList "a".toList := by
  constructor
  · intro h
    have hput := h.set (Lru Bytes Bytes) (Lru.empty 10) (List.cons_ne_nil 0 [])
    exact absurd (congrArg Lru.entries hput) (by decide)
  · intro h
    have hcode := congrArg HelloWorld.code (h [0] (List.cons_ne_nil 0 []))
    rw [getClicked_code _ _ compactPlatform_readsKey compactPlatform_showsCode,
      getClicked_code _ _ compactPlatform_readsKey compactPlatform_showsCode] at hcode
    exact absurd hcode (by decide)

end Entries

end EaHalfHour.CacheUi
