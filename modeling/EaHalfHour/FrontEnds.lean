import EaHalfHour.DeliveredRouting
import EaHalfHour.RestfulService

/-! The REST front end beside the RPC front end of one cluster whose RPCs are
delivered, at any entry node and any contents of the caches. -/
namespace EaHalfHour.FrontEnds
open KvMessage KvCache RecencyMap ProxyNode RestfulService DeliveredRouting
variable {σ : Type} [LRUCache σ]

section OneRequest
variable (c : Cluster) (hash : Bytes → UInt64)
  (protoMessageToJson : KvResponse → Option JsonObject) (describe : Status → Bytes)

def rpc (method : Method) (n : Nat) (a : Bytes) (request : KvRequest) :
    StateT (Bytes → σ) Option (Controller × KvResponse) := do
  let out ← c.call hash method n a request {}
  pure (KvServiceimpl.finish describe out.1,out.2)

def http (route : Route) (n : Nat) (a : Bytes) (request : RestfulRequest)
    (response : RestfulResponse) : StateT (Bytes → σ) Option RestfulResponse :=
  route.process protoMessageToJson (fun method => c.call hash method n a) request response

/-- With a key (and, for set, a body) the REST request leaves the caches as the
RPC does and its body encodes the RPC's response. Otherwise no cache changes and
the body carries kInvalidArgument, as an RPC set without a value does. -/
def Agrees (route : Route) (n : Nat) (a : Bytes) (request : RestfulRequest)
    (response : RestfulResponse) (caches : Bytes → σ) : Prop :=
  match route.kvRequest request with
  | some kvRequest =>
    match rpc c hash describe route.method n a kvRequest caches with
    | none => http c hash protoMessageToJson route n a request response caches = none
    | some ((_,kvResponse),caches') => ∃ answer body,
      http c hash protoMessageToJson route n a request response caches = some (answer,caches') ∧
      answer.body = some body ∧ Encodes body kvResponse
  | none =>
    (∃ answer body,
      http c hash protoMessageToJson route n a request response caches = some (answer,caches) ∧
      answer.body = some body ∧
      body.lookup "code" = some (.num StatusCode.kInvalidArgument.toInt)) ∧
    ∀ key out, rpc c hash describe .set n a ⟨key,none⟩ caches = some out →
      out.1.2.code = some StatusCode.kInvalidArgument.toInt

theorem call_answer {method : Method} {n : Nat} {a : Bytes} {request : KvRequest}
    {caches : Bytes → σ} {out : (Status × KvResponse) × (Bytes → σ)}
    (h : c.call hash method n a request {} caches = some out) :
    out.1.1 = .okStatus ∧ ∃ d, out.1.2 = (Cache.run method request {} (caches d)).1 := by
  obtain ⟨path,d,hchain,hlen⟩ := Cluster.chain_of_call h
  rw [Cluster.call_of_chain hchain method request rfl caches hlen] at h
  obtain rfl := Option.some.inj h
  exact ⟨rfl,d,rfl⟩

variable {protoMessageToJson}

theorem finish_encodes (hjson : Converts protoMessageToJson) (response : RestfulResponse)
    (rs : Status) {r : KvResponse} (hr : r.isInitialized = true) :
    ∃ body, (RestfulResponse.finish protoMessageToJson response rs r).body = some body ∧
      Encodes body r := by
  obtain ⟨j,hj,henc⟩ := hjson r hr
  exact ⟨j,by simp [RestfulResponse.finish, RestfulResponse.setJson, hj],henc⟩

theorem agrees_of_kvRequest (hjson : Converts protoMessageToJson) {route : Route} (n : Nat)
    (a : Bytes) {request : RestfulRequest} (response : RestfulResponse) (caches : Bytes → σ)
    {kvRequest : KvRequest} (h : route.kvRequest request = some kvRequest) :
    Agrees c hash protoMessageToJson describe route n a request response caches := by
  have hprocess := process_of_kvRequest protoMessageToJson route
    (fun method => c.call (σ := σ) hash method n a) response h
  unfold Agrees http
  rw [h, hprocess]
  cases hcall : c.call hash route.method n a kvRequest {} caches with
  | none => simp [rpc, bind, StateT.bind, hcall]
  | some out =>
    obtain ⟨⟨rs,kvResponse⟩,caches'⟩ := out
    obtain ⟨-,d,rfl⟩ := call_answer c hash hcall
    obtain ⟨body,hbody,henc⟩ := finish_encodes hjson
      { response with contentJson := true, accessControlAll := true } rs
      (Cache.run_isInitialized route.method kvRequest {} (caches d))
    simp only [rpc, bind, StateT.bind, hcall, Option.bind]
    exact ⟨_,body,rfl,hbody,henc⟩

theorem rpc_set_no_value {n : Nat} {a key : Bytes} {caches : Bytes → σ}
    {out : (Controller × KvResponse) × (Bytes → σ)}
    (h : rpc c hash describe .set n a ⟨key,none⟩ caches = some out) :
    out.1.2.code = some StatusCode.kInvalidArgument.toInt := by
  cases hcall : c.call hash .set n a ⟨key,none⟩ {} caches with
  | none => simp [rpc, bind, StateT.bind, hcall] at h
  | some out' =>
    obtain ⟨⟨rs,kvResponse⟩,caches'⟩ := out'
    obtain ⟨-,d,rfl⟩ := call_answer c hash hcall
    simp only [rpc, bind, StateT.bind, hcall, Option.bind] at h
    obtain rfl := Option.some.inj h
    rfl

/-- The two front ends agree on every request but a set without key or body: that
one is answered with the document kept for conversion errors. -/
theorem agrees_iff (hjson : Converts protoMessageToJson) (route : Route) (n : Nat)
    (a : Bytes) (request : RestfulRequest) (response : RestfulResponse)
    (caches : Bytes → σ) :
    Agrees c hash protoMessageToJson describe route n a request response caches ↔
      ¬ (route = .cacheSet ∧ (request.getQuery (text "key") = none ∨ request.body = [])) := by
  cases hkv : route.kvRequest request with
  | some kvRequest =>
    refine ⟨fun _ => ?_,fun _ => agrees_of_kvRequest c hash describe hjson n a response caches hkv⟩
    rintro ⟨rfl,hnone | hbody⟩
    · simp [Route.kvRequest, hnone] at hkv
    · cases hkey : request.getQuery (text "key") <;>
        simp [Route.kvRequest, hkey, hbody] at hkv
  | none =>
    obtain ⟨answer,hanswer,-,hbody⟩ := process_of_no_kvRequest protoMessageToJson route
      (fun method => c.call (σ := σ) hash method n a) response hkv
    have hhttp : http c hash protoMessageToJson route n a request response caches =
        some (answer,caches) := by
      unfold http
      rw [hanswer]
      rfl
    unfold Agrees
    rw [hkv]
    cases route with
    | cacheSet =>
      constructor
      · rintro ⟨⟨answer',body,he,hb,hcode⟩,-⟩ -
        rw [hhttp] at he
        obtain rfl : answer = answer' := congrArg Prod.fst (Option.some.inj he)
        rw [hbody] at hb
        obtain rfl := Option.some.inj hb
        revert hcode
        decide
      · intro hnot
        refine absurd ⟨rfl,?_⟩ hnot
        cases hkey : request.getQuery (text "key") with
        | none => exact Or.inl rfl
        | some key =>
          by_cases hempty : request.body = []
          · exact Or.inr hempty
          · simp [Route.kvRequest, hkey, hempty] at hkv
    | cacheGet =>
      obtain ⟨j,hj,henc⟩ := hjson
        ⟨some StatusCode.kInvalidArgument.toInt,some (text "no key"),some []⟩ rfl
      dsimp only at hbody
      rw [hj] at hbody
      refine ⟨fun _ => by simp,fun _ => ⟨⟨answer,j,hhttp,hbody,henc.1⟩,?_⟩⟩
      intro key out hout
      exact rpc_set_no_value c hash describe hout

end OneRequest

section Plain

def plainJson (r : KvResponse) : Option JsonObject :=
  r.serialize.map fun w =>
    [("code",.num w.code),("message",.str w.message)] ++
      (w.value.map fun v => ("value",JsonValue.str v)).toList

theorem plainJson_converts : Converts plainJson := by
  intro r hr
  obtain ⟨w,rfl⟩ := (KvResponse.isInitialized_iff r).mp hr
  have hser := (KvResponse.serialize_eq_some w.parse w).mpr rfl
  refine ⟨_,by rw [plainJson, hser, Option.map_some],?_⟩
  obtain ⟨code,message,value⟩ := w
  cases value <;> exact ⟨rfl,rfl,rfl⟩

theorem agrees_set_k :
    (∃ out, (Cluster.everyPeer (text "a,b")).call (fun _ => 1) .set 2 (text "a")
      ⟨text "k",some (text "v")⟩ {} (fun _ => (Lru.empty 10 : Lru Bytes Bytes)) = some out) ∧
    Agrees (.everyPeer (text "a,b")) (fun _ => 1) plainJson (fun _ => []) .cacheSet 2
      (text "a") ⟨fun name => if name = text "key" then some (text "k") else none,text "v"⟩ {}
      (fun _ => (Lru.empty 10 : Lru Bytes Bytes)) := by
  have hchain : (Cluster.everyPeer (text "a,b")).Chain (fun _ => 1) (text "k") (text "a")
      [text "b"] (text "b") := .hop (by decide) (.here (by decide))
  exact ⟨⟨_,Cluster.call_of_chain hchain .set ⟨text "k",some (text "v")⟩ rfl _ (by decide)⟩,
    (agrees_iff (.everyPeer (text "a,b")) (fun _ => 1) (fun _ => []) plainJson_converts
      .cacheSet 2 (text "a") _ {} _).mpr (by decide)⟩

/-- POST /cache/set without a key is answered with code 13, not 3. -/
theorem not_agrees_set_nokey :
    ¬ Agrees (.everyPeer (text "a,b")) (fun _ => 1) plainJson (fun _ => []) .cacheSet 2
      (text "a") ⟨fun _ => none,text "v"⟩ {} (fun _ => (Lru.empty 10 : Lru Bytes Bytes)) := by
  rintro ⟨⟨answer,body,he,hb,hcode⟩,-⟩
  obtain rfl := congrArg Prod.fst (Option.some.inj he)
  obtain rfl := Option.some.inj hb
  revert hcode
  decide

end Plain

end EaHalfHour.FrontEnds
