import EaHalfHour.CacheUi
import EaHalfHour.FrontEnds
import EaHalfHour.KvClient

/-! All that asks a cluster, in one script: the command-line client, the page service of
a009 and the REST processors of a010, each at any node, with nodes that start again. -/
namespace EaHalfHour.FrontEndSession
open AtomicObject KvMessage KvCache RecencyMap ProxyNode DeliveredRouting ClusterRefinement
  CacheGrowth CacheAsMap ClusterAsMap KvClient LawfulLRUCache

section PageService
open WebService
variable {m : Type → Type} [Monad m] (p : CacheUi.Platform)

def finish (response : RestfulResponse) (rs : Status) (r : KvResponse) : RestfulResponse :=
  { response with
    statusCode := if rs.ok then 200 else 500
    body := (p.protoMessageToJson r).getD p.getProtoConversionErr }

def onGet (kvGet : KvRequest → KvResponse → m (Status × KvResponse)) (request : RestfulRequest)
    (response : RestfulResponse) : m RestfulResponse :=
  match request.getQuery (text "key") with
  | none =>
    let r := ((({} : KvResponse).setCode .kInvalidArgument).setValue []).setMessage (text "no key")
    pure (p.answer response r)
  | some key => do
    let out ← kvGet { key } {}
    pure (finish p response out.1 out.2)

def onPost (kvSet : KvRequest → KvResponse → m (Status × KvResponse)) (request : RestfulRequest)
    (response : RestfulResponse) : m RestfulResponse :=
  let nokey := pure { response with statusCode := 200, body := p.getNokeyErr }
  match request.getQuery (text "key") with
  | none => nokey
  | some key =>
    if request.body = [] then nokey
    else do
      let out ← kvSet { key, value := some request.body } {}
      pure (finish p response out.1 out.2)

def CacheService.process (web : WebServie) (fs : FileSystem)
    (kv : Method → KvRequest → KvResponse → m (Status × KvResponse)) (request : RestfulRequest)
    (response : RestfulResponse) : m RestfulResponse :=
  WebService.CacheService.process (onGet p (kv .get)) (onPost p (kv .set))
    (text "\x7berr:not support method\x7d") web fs request response

end PageService

/-- What the front ends are built on: json2pb to text and to a document, the files of
the pages, Channel::Init, and what a controller says when nothing comes back. -/
structure World where
  platform : CacheUi.Platform
  web : WebService.WebServie
  fs : WebService.FileSystem
  protoMessageToJson : KvResponse → Option RestfulService.JsonObject
  init : Bytes → ChannelOptions → Bool
  failed : Bytes

inductive Http where
  | page (request : WebService.RestfulRequest)
  | rest (route : RestfulService.Route) (request : RestfulService.RestfulRequest)

/-- One thing that is asked, over the command line or of the node at an address; or that
node's process is started again with the flags it had. -/
inductive Use where
  | shell (flags : Flags)
  | http (node : Bytes) (request : Http)
  | restart (node : Bytes)

def Use.node : Use → Bytes
  | .shell flags => flags.server
  | .http node _ | .restart node => node

inductive Answer where
  | shell (out : Int × List Line)
  | page (response : WebService.RestfulResponse)
  | rest (response : RestfulService.RestfulResponse)
  | restarted

def Answer.write (w : World) (r : KvResponse) : Answer → Answer
  | .shell out => .shell (out.1,[.received r])
  | .page response => .page { response with
      body := (w.platform.protoMessageToJson r).getD w.platform.getProtoConversionErr }
  | .rest response => .rest (response.setJson w.protoMessageToJson r)
  | .restarted => .restarted

def Http.serve {m : Type → Type} [Monad m] (w : World)
    (kv : Method → KvRequest → KvResponse → m (Status × KvResponse)) : Http → m Answer
  | .page request => do
    let response ← CacheService.process w.platform w.web w.fs kv request {}
    pure (.page response)
  | .rest route request => do
    let response ← route.process w.protoMessageToJson kv request {}
    pure (.rest response)

def mapKv (method : Method) (request : KvRequest) (response : KvResponse) :
    StateM Store (Status × KvResponse) := fun m =>
  let out := onMap ⟨method,request,response⟩ m
  ((.okStatus,out.1),out.2)

def Use.onMap (w : World) (use : Use) (m : Store) : Answer × Store :=
  match use with
  | .shell flags =>
    let out := main w.init mapRpc flags m
    (.shell out.1,out.2)
  | .http _ request => (request.serve w mapKv).run m
  | .restart _ => (.restarted,m)

/-- One use of the cluster; none when an RPC never comes back. A node starts with the
cache that `fresh` gives. -/
def Use.run {σ : Type} [LRUCache σ] (c : Cluster) (hash : Bytes → UInt64) (w : World)
    (fresh : Bytes → σ) (use : Use) : StateT (Bytes → σ) Option Answer :=
  match use with
  | .shell flags => fun caches =>
    let out := main w.init (clusterRpc c hash 2 w.failed) flags caches
    some (.shell out.1,out.2)
  | .http node request => request.serve w fun method => c.call hash method 2 node
  | .restart node => fun caches => some (.restarted,Function.update caches node (fresh node))

inductive Served (w : World) (request : Http) : Prop where
  | refused (answer : Answer) :
    (∀ {m : Type → Type} [Monad m] [LawfulMonad m]
      (kv : Method → KvRequest → KvResponse → m (Status × KvResponse)),
      request.serve w kv = pure answer) → Served w request
  | forwarded (method : Method) (kvRequest : KvRequest) (answer : Status → KvResponse → Answer) :
    (∀ rs r r', answer rs r = (answer rs r').write w r) →
    (∀ {m : Type → Type} [Monad m] [LawfulMonad m]
      (kv : Method → KvRequest → KvResponse → m (Status × KvResponse)),
      request.serve w kv = kv method kvRequest {} >>= fun out => pure (answer out.1 out.2)) →
    Served w request

section Serving
variable (w : World)

def Http.answer (request : Http) : Answer :=
  Id.run (request.serve w fun _ _ response => pure (.okStatus,response))

theorem served_rest (route : RestfulService.Route) (request : RestfulService.RestfulRequest) :
    Served w (.rest route request) := by
  have hwrite : ∀ (response : RestfulService.RestfulResponse) (r r' : KvResponse),
      (response.setJson w.protoMessageToJson r').setJson w.protoMessageToJson r =
        response.setJson w.protoMessageToJson r := by
    intro response r r'
    unfold RestfulService.RestfulResponse.setJson
    cases w.protoMessageToJson r <;> cases w.protoMessageToJson r' <;> rfl
  let response : RestfulService.RestfulResponse :=
    { contentJson := true, accessControlAll := true }
  let answer (rs : Status) (r : KvResponse) : Answer :=
    .rest (response.finish w.protoMessageToJson rs r)
  have hanswer : ∀ rs r r', answer rs r = (answer rs r').write w r := fun rs r r' =>
    congrArg Answer.rest (hwrite _ r r').symm
  cases hkey : request.getQuery (text "key") with
  | none =>
    refine .refused (Http.answer w (.rest route request)) fun kv => ?_
    cases route <;>
      simp [Http.answer, Http.serve, RestfulService.Route.process,
        RestfulService.CacheSetProcessor.process, RestfulService.CacheGetProcessor.process, hkey]
  | some key =>
    cases route with
    | cacheGet =>
      refine .forwarded .get { key } answer hanswer fun kv => ?_
      simp [Http.serve, RestfulService.Route.process, RestfulService.CacheGetProcessor.process, hkey,
        answer, response]
    | cacheSet =>
      by_cases hbody : request.body = []
      · refine .refused (Http.answer w (.rest .cacheSet request)) fun kv => ?_
        simp [Http.answer, Http.serve, RestfulService.Route.process,
          RestfulService.CacheSetProcessor.process, hkey, hbody]
      · refine .forwarded .set { key, value := some request.body } answer hanswer
          fun kv => ?_
        simp [Http.serve, RestfulService.Route.process, RestfulService.CacheSetProcessor.process,
          hkey, hbody, answer, response]

theorem served_page (request : WebService.RestfulRequest) : Served w (.page request) := by
  by_cases hcache : request.unresolvedPath = text "cache"
  · let answer (rs : Status) (r : KvResponse) : Answer :=
      .page (finish w.platform WebService.jsonResponse rs r)
    have hanswer : ∀ rs r r', answer rs r = (answer rs r').write w r := fun _ _ _ => rfl
    cases hmethod : request.method with
    | get =>
      cases hkey : request.getQuery (text "key") with
      | none =>
        refine .refused (Http.answer w (.page request)) fun kv => ?_
        simp [Http.answer, Http.serve, CacheService.process,
          WebService.process_cache _ _ _ _ _ hcache, hmethod, onGet, hkey]
      | some key =>
        refine .forwarded .get { key } answer hanswer fun kv => ?_
        simp [Http.serve, CacheService.process, WebService.process_cache _ _ _ _ _ hcache, hmethod,
          onGet, hkey, answer]
    | post =>
      cases hkey : request.getQuery (text "key") with
      | none =>
        refine .refused (Http.answer w (.page request)) fun kv => ?_
        simp [Http.answer, Http.serve, CacheService.process,
          WebService.process_cache _ _ _ _ _ hcache, hmethod, onPost, hkey]
      | some key =>
        by_cases hbody : request.body = []
        · refine .refused (Http.answer w (.page request)) fun kv => ?_
          simp [Http.answer, Http.serve, CacheService.process,
            WebService.process_cache _ _ _ _ _ hcache, hmethod, onPost, hkey, hbody]
        · refine .forwarded .set { key, value := some request.body } answer hanswer
            fun kv => ?_
          simp [Http.serve, CacheService.process, WebService.process_cache _ _ _ _ _ hcache, hmethod,
            onPost, hkey, hbody, answer]
    | other =>
      refine .refused (Http.answer w (.page request)) fun kv => ?_
      simp [Http.answer, Http.serve, CacheService.process,
        WebService.process_cache _ _ _ _ _ hcache, hmethod]
  · refine .refused (Http.answer w (.page request)) fun kv => ?_
    simp only [Http.answer, Http.serve, CacheService.process, WebService.CacheService.process]
    split
    · simp
    · split <;> simp

theorem Http.served (request : Http) : Served w request := by
  cases request with
  | page request => exact served_page w request
  | rest route request => exact served_rest w route request

end Serving

/-- The cluster answers as the map does, or reports missing what the map finds. -/
def Told (w : World) (out map : Answer) : Prop :=
  out = map ∨ ∃ r : KvResponse, r.code = some StatusCode.kNotFound.toInt ∧ out = map.write w r

section Cluster
variable {σ : Type} [LRUCache σ] [LawfulLRUCache σ] {c : Cluster} {hash : Bytes → UInt64}
  {address : Bytes} (w : World) {fresh caches : Bytes → σ} {m : Store}

end Cluster

end EaHalfHour.FrontEndSession
