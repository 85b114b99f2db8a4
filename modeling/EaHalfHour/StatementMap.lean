import EaHalfHour.ClusterAsMap
import EaHalfHour.StatementCluster

/-! The whole a010 cluster as one map, from the statements of the Cache members upwards:
the locks make each member one step, the peers make the cluster its shards, and the shards
make one map. -/
namespace EaHalfHour.StatementMap
open LabelledRun AtomicObject KvMessage KvCache RecencyMap ProxyNode DeliveredRouting
  ClusterRefinement CacheAsMap ClusterAsMap StatementCluster
variable {σ : Type} {c : Cluster} {hash : Bytes → UInt64} {address : Bytes}
  {cache₀ : Bytes → σ} {tr : List Label} {s : State σ}

def outside (tr : List Label) : List ClusterNetwork.Label := tr.filterMap Label.outside

def Quiet (s : State σ) (a : Bytes) : Prop :=
  ∀ id call, (s.node a).call id = some call → ∃ response, call.pc = .returned response

theorem reliable_of_isExecute {l : ClusterNetwork.Label} (h : isExecute l = true) :
    reliable l = true := by
  cases l <;> first | rfl | cases h

theorem clientEvent_of_isExecute {l : ClusterNetwork.Label} (h : isExecute l = true) :
    clientEvent l = none := by
  cases l <;> first | rfl | cases h

theorem events_of_steps {tr' : List ClusterNetwork.Label}
    (hsteps : tr'.filter (fun l => !isExecute l) = outside tr) :
    tr'.filterMap clientEvent = (outside tr).filterMap clientEvent := by
  rw [← hsteps, List.filterMap_filter]
  refine List.filterMap_congr fun l _ => ?_
  cases h : isExecute l with
  | true => simp [clientEvent_of_isExecute h]
  | false => simp

theorem reliable_of_steps {tr' : List ClusterNetwork.Label}
    (hsteps : tr'.filter (fun l => !isExecute l) = outside tr)
    (hreliable : ∀ l ∈ outside tr, reliable l = true) : ∀ l ∈ tr', reliable l = true := by
  intro l hl
  cases h : isExecute l with
  | true => exact reliable_of_isExecute h
  | false =>
    refine hreliable l ?_
    rw [← hsteps]
    exact List.mem_filter.mpr ⟨hl,by simp [h]⟩

theorem invoke_of_steps {tr' : List ClusterNetwork.Label} {id : ClusterNetwork.CallId}
    {node : Bytes} {method : Method} {request : KvRequest}
    (hsteps : tr'.filter (fun l => !isExecute l) = outside tr)
    (hmem : .invoke id node method request ∈ outside tr) :
    .invoke id node method request ∈ tr' := by
  rw [← hsteps] at hmem
  exact (List.mem_filter.mp hmem).1

section Runs
variable [LRUCache σ]

theorem shards_of_statements (hshared : ∀ a flag, c.peersFlag a = some flag → flag = address)
    (hnodup : (strSplit address).Nodup) (hreliable : ∀ l ∈ outside tr, reliable l = true)
    (hrun : runFrom (StatementCluster.step c hash) (.init cache₀) tr = some s) :
    (∀ id node method request, .invoke id node method request ∈ outside tr →
      position hash address (method,request) < (strSplit address).length) ∧
    ∃ order shard, Linearizes (applyAt (position hash address) SingleNode.serve)
        (fun i => cache₀ ((strSplit address).getD i []))
        ((outside tr).filterMap clientEvent) order shard ∧
      ∀ i b, (strSplit address)[i]? = some b → Quiet s b → (s.node b).cache = shard i := by
  obtain ⟨tr',n,stage,hn,hsteps,hshadows⟩ := shadows_run hrun
  refine ⟨fun id node method request hmem =>
    position_lt hshared hn (invoke_of_steps hsteps hmem),?_⟩
  obtain ⟨order,shard,hlin,hcaches⟩ :=
    shards_of_run hshared hnodup (reliable_of_steps hsteps hreliable) hn
  rw [events_of_steps hsteps] at hlin
  refine ⟨order,shard,hlin,fun i b hb hquiet => ?_⟩
  rw [← hcaches i b hb]
  exact (hshadows.cache_eq hquiet).symm

end Runs

/-- However the statements of the Cache members interleave at the nodes, clients of a
cluster whose forwarded RPCs arrive see one plain map, of which entries may be missing. -/
theorem statements_missing [LRUCache σ] [LawfulLRUCache σ]
    (hshared : ∀ a flag, c.peersFlag a = some flag → flag = address)
    (hnodup : (strSplit address).Nodup) (hreliable : ∀ l ∈ outside tr, reliable l = true)
    (hempty : ∀ a k, LawfulLRUCache.find (cache₀ a) k = none)
    (hrun : runFrom (StatementCluster.step c hash) (.init cache₀) tr = some s) :
    ∃ order m, AtWorstMissing (outside tr) order m ∧
      ∀ i b, (strSplit address)[i]? = some b → Quiet s b →
        Loses (s.node b).cache (share hash address m i) := by
  obtain ⟨-,order,shard,hlin,hcaches⟩ := shards_of_statements hshared hnodup hreliable hrun
  obtain ⟨m,hmissing,hlast⟩ := missing_of_shards hempty hlin
  refine ⟨order,m,hmissing,fun i b hb hquiet => ?_⟩
  rw [hcaches i b hb hquiet]
  exact hlast i

theorem statements_missing_removeForwarded :
    ∃ s order m, runFrom (StatementCluster.step (.everyPeer (text "a,b")) fun _ => 1)
        (.init fun _ => (Lru.empty 4 : Lru Bytes Bytes)) removeForwarded = some s ∧
      AtWorstMissing (outside removeForwarded) order m ∧
      ∀ i b, (strSplit (text "a,b"))[i]? = some b → Quiet s b →
        Loses (s.node b).cache (share (fun _ => 1) (text "a,b") m i) := by
  have hsome : (runFrom (StatementCluster.step (.everyPeer (text "a,b")) fun _ => 1)
      (.init fun _ => (Lru.empty 4 : Lru Bytes Bytes)) removeForwarded).isSome := by decide
  obtain ⟨s,hs⟩ := Option.isSome_iff_exists.mp hsome
  obtain ⟨order,m,h,hloses⟩ := statements_missing (Cluster.everyPeer_shared (text "a,b"))
    (by decide) (by decide) (fun _ _ => rfl) hs
  exact ⟨s,order,m,hs,h,hloses⟩

/-- Where moreover every node has room for the keys that clients put at its position, the
whole cluster is linearizable as one plain map. -/
theorem statements_map [LRUCache σ] [RecencyCache σ]
    (hshared : ∀ a flag, c.peersFlag a = some flag → flag = address)
    (hnodup : (strSplit address).Nodup) (hreliable : ∀ l ∈ outside tr, reliable l = true)
    {capacity : Bytes → Nat}
    (hempty : ∀ a, RecencyCache.view (cache₀ a) = Lru.empty (capacity a))
    (hroom : ∀ i b, (strSplit address)[i]? = some b →
      (putAt hash address (outside tr) i).card ≤ capacity b)
    (hrun : runFrom (StatementCluster.step c hash) (.init cache₀) tr = some s) :
    ∃ order m, Linearizes meant (fun _ => none) ((outside tr).filterMap clientEvent) order m ∧
      ∀ i b, (strSplit address)[i]? = some b → Quiet s b →
        Exact (s.node b).cache (share hash address m i) := by
  obtain ⟨hlt,order,shard,hlin,hcaches⟩ := shards_of_statements hshared hnodup hreliable hrun
  obtain ⟨m,hmap,hlast⟩ := exact_of_shards hempty hroom hlt hlin
  refine ⟨order,m,hmap,fun i b hb hquiet => ?_⟩
  rw [hcaches i b hb hquiet]
  exact hlast i

theorem statements_map_removeForwarded :
    ∃ s order m, runFrom (StatementCluster.step (.everyPeer (text "a,b")) fun _ => 1)
        (.init fun _ => (Lru.empty 4 : Lru Bytes Bytes)) removeForwarded = some s ∧
      Linearizes meant (fun _ => none) ((outside removeForwarded).filterMap clientEvent)
        order m ∧
      ∀ i b, (strSplit (text "a,b"))[i]? = some b → Quiet s b →
        Exact (s.node b).cache (share (fun _ => 1) (text "a,b") m i) := by
  have hsome : (runFrom (StatementCluster.step (.everyPeer (text "a,b")) fun _ => 1)
      (.init fun _ => (Lru.empty 4 : Lru Bytes Bytes)) removeForwarded).isSome := by decide
  obtain ⟨s,hs⟩ := Option.isSome_iff_exists.mp hsome
  have hputs : ((outside removeForwarded).filterMap putKey).toFinset.card ≤ 4 := by decide
  obtain ⟨order,m,h,hexact⟩ := statements_map (Cluster.everyPeer_shared (text "a,b"))
    (by decide) (by decide)
    (fun _ => show RecencyCache.view (Lru.empty 4 : Lru Bytes Bytes) = Lru.empty 4 from rfl)
    (fun _ _ _ => (Finset.card_filter_le _ _).trans hputs) hs
  exact ⟨s,order,m,hs,h,hexact⟩

end EaHalfHour.StatementMap
