import EaHalfHour.RestfulService

/-! Which status a caller gets when the owner of a key cannot be reached. The
outcome of the forwarding path is any value of `Forwarding`. -/
namespace EaHalfHour.ForwardedStatus
open KvMessage KvCache SendLoop ProxyNode RestfulService
variable {σ : Type} [LRUCache σ]

section OneCall
variable (p : KvProxy) (hash : Bytes → UInt64) (method : Method) (env : Forwarding)
  (request : KvRequest) (cache : σ)

/-- The node owns the key, or its fiber starts and one of the attempts the retry
loop has tries for gets a reply. -/
def Reached (key : Bytes) : Prop :=
  p.Owns hash key ∨
    (env.fiberStart = 0 ∧ ∃ j, Allowed kRetryTimes 0 j ∧ (env.attempts j).failed = false)

/-- `r` has code and message set, and its content is what the local Cache call
answered or what the first attempt that succeeded brought back; in the cluster that
was written by some node's Cache, too (`ResponseOrigin.reply_written`). -/
def FilledIn (r : KvResponse) : Prop :=
  r.isInitialized = true ∧
    ((p.Owns hash request.key ∧ r = (Cache.run method request {} cache).1) ∨
     (¬ p.Owns hash request.key ∧ env.fiberStart = 0 ∧
      ∃ j w, Allowed kRetryTimes 0 j ∧ (∀ i < j, (env.attempts i).failed = true) ∧
        env.attempts j = .replies w ∧ r = w.parse))

def callAs (kvMethod : Method) (kvRequest : KvRequest) (response : KvResponse) :
    StateM σ (Status × KvResponse) := fun cache =>
  let out := p.dispatch hash kvMethod env kvRequest response cache
  ((out.1,out.2.1),out.2.2)

theorem forward_reached (index : Nat) (hfiber : env.fiberStart = 0)
    (h : ∃ j, Allowed kRetryTimes 0 j ∧ (env.attempts j).failed = false) :
    ∃ j w, Allowed kRetryTimes 0 j ∧ (∀ i < j, (env.attempts i).failed = true) ∧
      env.attempts j = .replies w ∧
      p.forward method index env {} = (.okStatus,w.parse) := by
  obtain ⟨j,w,hj,hfail,hw⟩ := exists_first_reply kRetryTimes h
  have hloop := sendLoop_first_reply (p.senders.getD index {}) method kRetryTimes {}
    env.attempts 0 j w hj hfail hw
  refine ⟨j,w,hj,hfail,hw,?_⟩
  simp only [KvProxy.forward, if_pos hfiber, RouterSender.sendRequest, findMethodByName_name,
    hloop.1, hloop.2]

theorem forward_unreached (index : Nat)
    (h : ¬ (env.fiberStart = 0 ∧
      ∃ j, Allowed kRetryTimes 0 j ∧ (env.attempts j).failed = false)) :
    (p.forward method index env {}).2 = {} := by
  by_cases hfiber : env.fiberStart = 0
  · have hall : ∀ j, Allowed kRetryTimes 0 j → (env.attempts j).failed = true := by
      intro j hj
      cases hf : (env.attempts j).failed with
      | true => rfl
      | false => exact absurd ⟨hfiber,j,hj,hf⟩ h
    have hloop := sendLoop_all_failed (p.senders.getD index {}) method kRetryTimes {}
      env.attempts 0 hall
    simp only [KvProxy.forward, if_pos hfiber, RouterSender.sendRequest, findMethodByName_name,
      hloop.2]
  · rw [KvProxy.forward, if_neg hfiber]

theorem dispatch_ok (response : KvResponse) :
    (p.dispatch hash method env request response cache).1 = .okStatus := by
  by_cases hown : p.Owns hash request.key
  · rw [dispatch_local hown]
  · rw [dispatch_forward hown]

theorem dispatch_filledIn (h : Reached p hash env request.key) :
    FilledIn p hash method env request cache
      (p.dispatch hash method env request {} cache).2.1 := by
  by_cases hown : p.Owns hash request.key
  · rw [dispatch_local hown]
    exact ⟨Cache.run_isInitialized method request {} cache,Or.inl ⟨hown,rfl⟩⟩
  · obtain ⟨hfiber,hex⟩ := h.resolve_left hown
    obtain ⟨j,w,hj,hfail,hw,hforward⟩ := forward_reached p method env
      (p.getPeerIndex hash request.key) hfiber hex
    rw [dispatch_forward hown, hforward]
    exact ⟨w.parse_isInitialized,Or.inr ⟨hown,hfiber,j,w,hj,hfail,hw,rfl⟩⟩

theorem dispatch_unreached (h : ¬ Reached p hash env request.key) :
    (p.dispatch hash method env request {} cache).2.1 = {} := by
  have hown : ¬ p.Owns hash request.key := fun hown => h (Or.inl hown)
  rw [dispatch_forward hown]
  exact forward_unreached p method env _ fun hr => h (Or.inr hr)

theorem filledIn_reached {r : KvResponse} (h : FilledIn p hash method env request cache r) :
    Reached p hash env request.key := by
  obtain ⟨-,⟨hown,-⟩ | ⟨-,hfiber,j,w,hj,-,hw,-⟩⟩ := h
  · exact Or.inl hown
  · exact Or.inr ⟨hfiber,j,hj,by rw [hw]; rfl⟩

/-- What the callers of one KvProxy call are promised: OK exactly when something
filled in the response; SetFailed and HTTP 500 exactly when the owner was not
reached; and no success over a response that nothing wrote. -/
structure Honest (describe : Status → Bytes)
    (protoMessageToJson : KvResponse → Option JsonObject) : Prop where
  status : (p.dispatch hash method env request {} cache).1.ok = true ↔
    FilledIn p hash method env request cache (p.dispatch hash method env request {} cache).2.1
  service : (KvServiceimpl.finish describe
      (p.dispatch hash method env request {} cache).1).failed.isSome = true ↔
    ¬ Reached p hash env request.key
  serviceFilled : (KvServiceimpl.finish describe
      (p.dispatch hash method env request {} cache).1).failed = none →
    FilledIn p hash method env request cache (p.dispatch hash method env request {} cache).2.1
  rest : ∀ (route : Route) (http : RestfulRequest) (response : RestfulResponse),
    route.method = method → route.kvRequest http = some request →
    ((route.process protoMessageToJson (callAs p hash env) http response cache).1.statusCode
      = 500 ↔ ¬ Reached p hash env request.key) ∧
    ((route.process protoMessageToJson (callAs p hash env) http response cache).1.statusCode
      = 200 → FilledIn p hash method env request cache
        (p.dispatch hash method env request {} cache).2.1)

theorem process_statusCode (protoMessageToJson : KvResponse → Option JsonObject)
    (route : Route) (http : RestfulRequest) (response : RestfulResponse)
    (h : route.kvRequest http = some request) :
    (route.process protoMessageToJson (callAs p hash env) http response cache).1.statusCode
      = 200 := by
  rw [process_of_kvRequest protoMessageToJson route _ response h]
  have hok := dispatch_ok p hash route.method env request cache {}
  change (RestfulResponse.finish protoMessageToJson _
    (p.dispatch hash route.method env request {} cache).1
    (p.dispatch hash route.method env request {} cache).2.1).statusCode = 200
  rw [hok]
  unfold RestfulResponse.finish RestfulResponse.setJson
  dsimp only
  split <;> rfl

end OneCall

/-- On an initialised node the callers get what they are promised exactly when
the owner is reached: the status never depends on the forwarding path. -/
theorem honest_iff_reached (describe : Status → Bytes)
    (protoMessageToJson : KvResponse → Option JsonObject) (address localPeer : Bytes)
    (hinit : ( KvProxy.initialize {} address localPeer).1.ok = true)
    (hash : Bytes → UInt64) (method : Method) (env : Forwarding) (request : KvRequest)
    (cache : σ) :
    Honest ( KvProxy.initialize {} address localPeer).2 hash method env request cache describe
        protoMessageToJson ↔
      Reached ( KvProxy.initialize {} address localPeer).2 hash env request.key := by
  rw [initialize_of_mem {} ((initialize_ok_iff {} address localPeer).mp hinit)]
  generalize tableOf address localPeer = p
  have hok := dispatch_ok p hash method env request cache {}
  constructor
  · intro h
    exact filledIn_reached p hash method env request cache (h.status.mp (by rw [hok]; rfl))
  · intro h
    have hfilled := dispatch_filledIn p hash method env request cache h
    refine ⟨?_,?_,fun _ => hfilled,?_⟩
    · exact ⟨fun _ => hfilled,fun _ => by rw [hok]; rfl⟩
    · rw [hok]
      exact ⟨fun hf => absurd hf (by simp [KvServiceimpl.finish, Status.okStatus_ok]),
        fun hnot => absurd h hnot⟩
    · intro route http response _ hroute
      rw [process_statusCode p hash env request cache protoMessageToJson route http response
        hroute]
      exact ⟨⟨fun h500 => absurd h500 (by decide),fun hnot => absurd h hnot⟩,fun _ => hfilled⟩

section TwoNodes
open RecencyMap

def deadPeer : Forwarding := ⟨0,fun _ => .callFails⟩

def lateReply : Forwarding :=
  ⟨0,fun n => if n = 2 then .replies ⟨0,text "ok",none⟩ else .callFails⟩

theorem honest_iff_reached_lateReply :
    Honest ( KvProxy.initialize {} (text "a,b") (text "a")).2 (fun _ => 1) .remove lateReply
      ⟨text "k",none⟩ (Lru.empty 10 : Lru Bytes Bytes) (fun _ => []) (fun _ => none) :=
  (honest_iff_reached (fun _ => []) (fun _ => none) (text "a,b") (text "a") (by decide)
    (fun _ => 1) .remove lateReply ⟨text "k",none⟩ (Lru.empty 10 : Lru Bytes Bytes)).mpr
    (Or.inr ⟨rfl,2,Or.inr (by decide),by decide⟩)

theorem not_honest_deadPeer :
    ¬ Honest ( KvProxy.initialize {} (text "a,b") (text "a")).2 (fun _ => 1) .set deadPeer
      ⟨text "k",some (text "v")⟩ (Lru.empty 10 : Lru Bytes Bytes) (fun _ => [])
      (fun _ => none) := by
  intro h
  have hnot : ¬ Reached ( KvProxy.initialize {} (text "a,b") (text "a")).2 (fun _ => 1) deadPeer
      (text "k") := by
    rintro (hown | ⟨-,j,-,hj⟩)
    · exact absurd hown (by decide)
    · exact absurd hj (by simp [deadPeer, Attempt.failed])
  have hnone := dispatch_unreached _ _ .set deadPeer ⟨text "k",some (text "v")⟩
    (Lru.empty 10 : Lru Bytes Bytes) hnot
  have hfilled := h.status.mp (by rw [dispatch_ok]; rfl)
  rw [hnone] at hfilled
  exact absurd hfilled.1 (by decide)

end TwoNodes

end EaHalfHour.ForwardedStatus
