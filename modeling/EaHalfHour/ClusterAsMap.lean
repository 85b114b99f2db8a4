import EaHalfHour.CacheAsMap
import EaHalfHour.ClusterRefinement

/-! The cluster against one plain map, as its clients think of it: what remains of the
map when every node evicts, and the room that makes all of it remain. -/
namespace EaHalfHour.ClusterAsMap
open LabelledRun AtomicObject KvMessage KvCache RecencyMap RecencyCache ProxyNode
  DeliveredRouting ClusterNetwork ClusterRefinement CacheGrowth CacheAsMap LawfulLRUCache

def meant (op : Request) (m : Store) : KvResponse × Store := onMap ⟨op.1,op.2,{}⟩ m

def share (hash : Bytes → UInt64) (address : Bytes) (m : Store) (i : Nat) : Store :=
  fun k => if slot hash address k = i then m k else none

section Shares
variable {hash : Bytes → UInt64} {address : Bytes} {op : Request} {m : Store}

theorem meant_other {k : Bytes} (hk : k ≠ op.2.key) : (meant op m).2 k = m k := by
  obtain ⟨method,request⟩ := op
  cases method with
  | set =>
    cases hv : request.value with
    | none => rw [meant, onMap_noValue rfl hv]
    | some value =>
      rw [meant, onMap_stored rfl hv]
      exact Function.update_of_ne hk ..
  | get => rw [meant, onMap_get rfl]
  | remove =>
    rw [meant, onMap_remove rfl]
    exact Function.update_of_ne hk ..

theorem meant_congr {m' : Store} (h : m op.2.key = m' op.2.key) :
    (meant op m).1 = (meant op m').1 ∧ (meant op m).2 op.2.key = (meant op m').2 op.2.key := by
  obtain ⟨method,request⟩ := op
  cases method with
  | set =>
    cases hv : request.value with
    | none =>
      rw [meant, meant, onMap_noValue rfl hv, onMap_noValue rfl hv]
      exact ⟨rfl,h⟩
    | some value =>
      rw [meant, meant, onMap_stored rfl hv, onMap_stored rfl hv]
      simp
  | get =>
    rw [meant, meant, onMap_get rfl, onMap_get rfl]
    exact ⟨congrArg (fillLooked · {}) h,h⟩
  | remove =>
    rw [meant, meant, onMap_remove rfl, onMap_remove rfl]
    exact ⟨congrArg (fillLooked · {}) h,by simp⟩

theorem meant_share (op : Request) (m : Store) :
    applyAt (position hash address) meant op (share hash address m) =
      ((meant op m).1,share hash address (meant op m).2) := by
  have hkey : share hash address m (position hash address op) op.2.key = m op.2.key := if_pos rfl
  obtain ⟨hanswer,hwritten⟩ := meant_congr hkey
  refine Prod.ext hanswer (funext fun i => funext fun k => ?_)
  change Function.update (share hash address m) (position hash address op)
    (meant op (share hash address m (position hash address op))).2 i k =
      share hash address (meant op m).2 i k
  by_cases hk : k = op.2.key
  · subst hk
    by_cases hi : i = position hash address op
    · subst hi
      rw [Function.update_self, hwritten]
      exact (if_pos rfl).symm
    · have hne : ¬ slot hash address op.2.key = i := fun h => hi h.symm
      simp only [Function.update_of_ne hi, share, if_neg hne]
  · have hshare : share hash address (meant op m).2 i k = share hash address m i k := by
      simp only [share, meant_other hk]
    rw [hshare]
    by_cases hi : i = position hash address op
    · subst hi
      rw [Function.update_self, meant_other hk]
    · rw [Function.update_of_ne hi]

theorem replay_share (ops : List Request) (m : Store) :
    replay (applyAt (position hash address) meant) ops (share hash address m) =
      ((replay meant ops m).1,share hash address (replay meant ops m).2) :=
  replay_simulates (f := share hash address) (fun op m => meant_share op m) ops m

end Shares

section Runs
variable {σ : Type} [LRUCache σ] {c : Cluster} {hash : Bytes → UInt64} {address : Bytes}
  {cache₀ : Bytes → σ} {tr : List Label} {s : State σ}

theorem shards_of_run (hshared : ∀ a flag, c.peersFlag a = some flag → flag = address)
    (hnodup : (strSplit address).Nodup) (hreliable : ∀ l ∈ tr, reliable l = true)
    (hrun : runFrom (step c hash) (.init cache₀) tr = some s) :
    ∃ order shard, Linearizes (applyAt (position hash address) SingleNode.serve)
        (fun i => cache₀ ((strSplit address).getD i [])) (tr.filterMap clientEvent) order shard ∧
      ∀ i b, (strSplit address)[i]? = some b → s.cache b = shard i := by
  obtain ⟨order,_,shard,hlin,ht⟩ := simulation_linearizes clientEvent
    (fun _ l => reliable l = true) (Tracks c hash address) (tracks_init hash cache₀)
    (fun _ _ _ _ _ ht hl hn => tracks_step hshared hnodup hl ht (step_sound c hash hn)) hrun
    (guarded_of_forall hreliable)
  exact ⟨order,shard,hlin,ht.caches⟩

theorem invoke_of_event {id : CallId} {op : Request}
    (h : .invoke id op ∈ tr.filterMap clientEvent) : ∃ node, .invoke id node op.1 op.2 ∈ tr := by
  obtain ⟨l,hl,hevent⟩ := List.mem_filterMap.mp h
  cases l with
  | invoke id node method request =>
    obtain ⟨rfl,rfl⟩ := Event.invoke.inj (Option.some.inj hevent)
    exact ⟨node,hl⟩
  | respond => cases hevent
  | execute | startFiber | initFails | transmit | timeout | deliver | reply => cases hevent

theorem position_lt (hshared : ∀ a flag, c.peersFlag a = some flag → flag = address)
    (hrun : runFrom (step c hash) (.init cache₀) tr = some s) {id : CallId} {node : Bytes}
    {method : Method} {request : KvRequest} (hmem : .invoke id node method request ∈ tr) :
    position hash address (method,request) < (strSplit address).length := by
  obtain ⟨u,v,rfl⟩ := List.append_of_mem hmem
  obtain ⟨m,n,-,hstep,-⟩ := run_at hrun
  cases step_sound c hash hstep with
  | invoke hnode _ =>
    obtain ⟨p,hp⟩ := Option.isSome_iff_exists.mp hnode
    obtain ⟨flag,hflag,-⟩ := Cluster.flag_of_proxy hp
    obtain rfl := hshared node flag hflag
    exact slot_lt hash flag request.key (Cluster.mem_of_flag hflag)

theorem serve_run (op : Request) (cache : σ) :
    SingleNode.serve op cache = CacheOp.run ⟨op.1,op.2,{}⟩ cache :=
  SingleNode.serve_eq op cache

/-- An order of the calls of a run in which one plain map, asked the same, answers each
call as its client was answered, or its client was told that the key is missing. -/
structure AtWorstMissing (tr : List Label) (order : List (Entry CallId Request KvResponse))
    (m : Store) : Prop where
  once : (order.map Entry.id).Nodup
  invoked : ∀ e ∈ order, ∃ node, .invoke e.id node e.op.1 e.op.2 ∈ tr
  answered : ∀ id response, .respond id response ∈ tr → ∃ op, ⟨id,op,response⟩ ∈ order
  realtime : ∀ i j, Precedes (tr.filterMap clientEvent) i j →
    ∀ u e v, order = u ++ e :: v → e.id = j → i ∈ u.map Entry.id
  answers : List.Forall₂ AtLeast (order.map Entry.answer)
    (replay meant (order.map Entry.op) fun _ => none).1
  map : m = (replay meant (order.map Entry.op) fun _ => none).2

section Lossy
variable [LawfulLRUCache σ]

theorem missing_of_shards (hempty : ∀ a k, find (cache₀ a) k = none)
    {order : List (Entry CallId Request KvResponse)} {shard : Nat → σ}
    (hlin : Linearizes (applyAt (position hash address) SingleNode.serve)
      (fun i => cache₀ ((strSplit address).getD i [])) (tr.filterMap clientEvent) order shard) :
    ∃ m, AtWorstMissing tr order m ∧ ∀ i, Loses (shard i) (share hash address m i) := by
  have hstart : ∀ i, Loses (cache₀ ((strSplit address).getD i []))
      (share hash address (fun _ => none) i) := fun i k v hk => by
    rw [hempty] at hk
    cases hk
  have hstep : ∀ op ∈ order.map Entry.op, ∀ (f : Nat → σ) (g : Nat → Store),
      (∀ i, Loses (f i) (g i)) →
      AtLeast (applyAt (position hash address) SingleNode.serve op f).1
          (applyAt (position hash address) meant op g).1 ∧
        ∀ i, Loses ((applyAt (position hash address) SingleNode.serve op f).2 i)
          ((applyAt (position hash address) meant op g).2 i) := by
    intro op _ f g h
    refine applyAt_related (R := fun _ => Loses) h ?_
    rw [serve_run]
    exact run_loses ⟨op.1,op.2,{}⟩ (h _)
  obtain ⟨hanswers,hlast⟩ := replay_related hstep hstart
  rw [hlin.legal, replay_share] at hanswers hlast
  refine ⟨_,⟨hlin.nodup,fun e he => invoke_of_event (hlin.invoked e he),?_,hlin.realtime,
    hanswers,rfl⟩,hlast⟩
  intro id response hmem
  exact hlin.answered id response (List.mem_filterMap.mpr ⟨_,hmem,rfl⟩)

/-- Whatever the caches of the nodes evict, clients that enter anywhere see one plain
map, of which entries may be missing: no stale value, and no value of another key. -/
theorem atWorstMissing_run (hshared : ∀ a flag, c.peersFlag a = some flag → flag = address)
    (hnodup : (strSplit address).Nodup) (hreliable : ∀ l ∈ tr, reliable l = true)
    (hempty : ∀ a k, find (cache₀ a) k = none)
    (hrun : runFrom (step c hash) (.init cache₀) tr = some s) :
    ∃ order m, AtWorstMissing tr order m ∧ ∀ i b, (strSplit address)[i]? = some b →
      Loses (s.cache b) (share hash address m i) := by
  obtain ⟨order,shard,hlin,hcaches⟩ := shards_of_run hshared hnodup hreliable hrun
  obtain ⟨m,hmissing,hlast⟩ := missing_of_shards hempty hlin
  refine ⟨order,m,hmissing,fun i b hb => ?_⟩
  rw [hcaches i b hb]
  exact hlast i

end Lossy

section Room
variable [RecencyCache σ]

def putKey : Label → Option Bytes
  | .invoke _ _ .set request => request.value.map fun _ => request.key
  | .invoke _ _ .get _ | .invoke _ _ .remove _ => none
  | .execute _ | .startFiber _ _ | .initFails _ | .transmit _ | .timeout _ | .deliver _ _ _
  | .reply _ | .respond _ _ => none

def putAt (hash : Bytes → UInt64) (address : Bytes) (tr : List Label) (i : Nat) : Finset Bytes :=
  (tr.filterMap putKey).toFinset.filter fun k => slot hash address k = i

/-- A shard that has lost nothing: it holds its share of the map, and keys that were
put there. -/
structure Whole (capacity : Nat) (keys : Finset Bytes) (cache : σ) (m : Store) : Prop where
  exact : Exact cache m
  room : (view cache).capacity = capacity
  keys : ∀ k, m k ≠ none → k ∈ keys

theorem whole_run {capacity : Nat} {keys : Finset Bytes} {cache : σ} {m : Store} {op : Request}
    (h : Whole capacity keys cache m) (hcard : keys.card ≤ capacity)
    (hput : ∀ value, op.1 = .set → op.2.value = some value → op.2.key ∈ keys) :
    (SingleNode.serve op cache).1 = (meant op m).1 ∧
      Whole capacity keys (SingleNode.serve op cache).2 (meant op m).2 := by
  rw [serve_run]
  have hkeys : ∀ j, (view cache).find j ≠ none → j ∈ keys := fun j hj =>
    h.keys j (by rwa [(exact_iff _ _).mp h.exact] at hj)
  refine ⟨h.exact _,exact_run h.exact _ fun value hm hv => ?_,(view_capacity _ _).trans h.room,
    fun k hk => ?_⟩
  · exact Lru.fits_of_subset hkeys (hput value hm hv) (by rwa [h.room])
  · by_cases hkey : k = op.2.key
    · -- a key that was not there before is one that is put now
      by_contra hnot
      obtain ⟨method,request⟩ := op
      have hnone : m k = none := by_contra fun hm => hnot (h.keys k hm)
      subst hkey
      cases method with
      | set =>
        cases hv : request.value with
        | none => exact hk (by rw [meant, onMap_noValue rfl hv]; exact hnone)
        | some value => exact hnot (hput value rfl hv)
      | get => exact hk (by rw [meant, onMap_get rfl]; exact hnone)
      | remove => exact hk (by rw [meant, onMap_remove rfl]; exact Function.update_self ..)
    · rw [meant_other hkey] at hk
      exact h.keys k hk

theorem exact_of_shards {capacity : Bytes → Nat}
    (hempty : ∀ a, view (cache₀ a) = Lru.empty (capacity a))
    (hroom : ∀ i b, (strSplit address)[i]? = some b →
      (putAt hash address tr i).card ≤ capacity b)
    (hlt : ∀ id node method request, .invoke id node method request ∈ tr →
      position hash address (method,request) < (strSplit address).length)
    {order : List (Entry CallId Request KvResponse)} {shard : Nat → σ}
    (hlin : Linearizes (applyAt (position hash address) SingleNode.serve)
      (fun i => cache₀ ((strSplit address).getD i [])) (tr.filterMap clientEvent) order shard) :
    ∃ m, Linearizes meant (fun _ => none) (tr.filterMap clientEvent) order m ∧
      ∀ i, Exact (shard i) (share hash address m i) := by
  let R : Nat → σ → Store → Prop := fun i =>
    Whole (capacity ((strSplit address).getD i [])) (putAt hash address tr i)
  have hstart : ∀ i, R i (cache₀ ((strSplit address).getD i []))
      (share hash address (fun _ => none) i) := by
    intro i
    have hshare : share hash address (fun _ => none) i = fun _ => none :=
      funext fun k => ite_self none
    rw [hshare]
    refine ⟨(exact_iff _ _).mpr fun k => ?_,?_,fun k hk => absurd rfl hk⟩
    · rw [hempty]
      rfl
    · rw [hempty]
      rfl
  have hstep : ∀ op ∈ order.map Entry.op, ∀ (f : Nat → σ) (g : Nat → Store),
      (∀ i, R i (f i) (g i)) →
      (applyAt (position hash address) SingleNode.serve op f).1 =
          (applyAt (position hash address) meant op g).1 ∧
        ∀ i, R i ((applyAt (position hash address) SingleNode.serve op f).2 i)
          ((applyAt (position hash address) meant op g).2 i) := by
    intro op hop f g h
    obtain ⟨e,he,rfl⟩ := List.mem_map.mp hop
    obtain ⟨node,hmem⟩ := invoke_of_event (hlin.invoked e he)
    have hpos := hlt _ _ _ _ hmem
    refine applyAt_related (A := Eq) h (whole_run (h _) ?_ fun value hm hv => ?_)
    · exact hroom _ _ (by simp [List.getD, hpos])
    · refine Finset.mem_filter.mpr ⟨List.mem_toFinset.mpr ?_,rfl⟩
      rw [hm] at hmem
      exact List.mem_filterMap.mpr ⟨_,hmem,by simp [putKey, hv]⟩
  obtain ⟨hanswers,hlast⟩ := replay_related hstep hstart
  rw [hlin.legal, replay_share] at hanswers hlast
  rw [List.forall₂_eq_eq_eq] at hanswers
  exact ⟨_,⟨hlin.nodup,hlin.invoked,hlin.answered,Prod.ext hanswers.symm rfl,
    hlin.realtime⟩,fun i => (hlast i).exact⟩

/-- Where every node has room for the keys that clients put at its position, the
cluster is one plain map: clients that enter anywhere cannot tell the two apart. -/
theorem linearizes_map (hshared : ∀ a flag, c.peersFlag a = some flag → flag = address)
    (hnodup : (strSplit address).Nodup) (hreliable : ∀ l ∈ tr, reliable l = true)
    {capacity : Bytes → Nat} (hempty : ∀ a, view (cache₀ a) = Lru.empty (capacity a))
    (hroom : ∀ i b, (strSplit address)[i]? = some b →
      (putAt hash address tr i).card ≤ capacity b)
    (hrun : runFrom (step c hash) (.init cache₀) tr = some s) :
    ∃ order m, Linearizes meant (fun _ => none) (tr.filterMap clientEvent) order m ∧
      ∀ i b, (strSplit address)[i]? = some b →
        Exact (s.cache b) (share hash address m i) := by
  obtain ⟨order,shard,hlin,hcaches⟩ := shards_of_run hshared hnodup hreliable hrun
  obtain ⟨m,hmap,hlast⟩ := exact_of_shards hempty hroom
    (fun _ _ _ _ hmem => position_lt hshared hrun hmem) hlin
  refine ⟨order,m,hmap,fun i b hb => ?_⟩
  rw [hcaches i b hb]
  exact hlast i

end Room

end Runs

theorem atWorstMissing_overlapping :
    ∃ s order m, runFrom (step (.everyPeer (text "a,b")) fun _ => 1)
        (.init fun _ => (Lru.empty 4 : Lru Bytes Bytes)) overlapping = some s ∧
      AtWorstMissing overlapping order m ∧ ∀ i b, (strSplit (text "a,b"))[i]? = some b →
        Loses (s.cache b) (share (fun _ => 1) (text "a,b") m i) := by
  have hsome : (runFrom (step (.everyPeer (text "a,b")) fun _ => 1)
      (.init fun _ => (Lru.empty 4 : Lru Bytes Bytes)) overlapping).isSome := by decide
  obtain ⟨s,hs⟩ := Option.isSome_iff_exists.mp hsome
  obtain ⟨order,m,h,hloses⟩ := atWorstMissing_run (Cluster.everyPeer_shared (text "a,b"))
    (by decide) (by decide) (fun _ _ => rfl) hs
  exact ⟨s,order,m,hs,h,hloses⟩

theorem linearizes_map_overlapping :
    ∃ s order m, runFrom (step (.everyPeer (text "a,b")) fun _ => 1)
        (.init fun _ => (Lru.empty 4 : Lru Bytes Bytes)) overlapping = some s ∧
      Linearizes meant (fun _ => none) (overlapping.filterMap clientEvent) order m ∧
      ∀ i b, (strSplit (text "a,b"))[i]? = some b →
        Exact (s.cache b) (share (fun _ => 1) (text "a,b") m i) := by
  have hsome : (runFrom (step (.everyPeer (text "a,b")) fun _ => 1)
      (.init fun _ => (Lru.empty 4 : Lru Bytes Bytes)) overlapping).isSome := by decide
  obtain ⟨s,hs⟩ := Option.isSome_iff_exists.mp hsome
  have hputs : (overlapping.filterMap putKey).toFinset.card ≤ 4 := by decide
  obtain ⟨order,m,h,hexact⟩ := linearizes_map (Cluster.everyPeer_shared (text "a,b"))
    (by decide) (by decide)
    (fun _ => show view (Lru.empty 4 : Lru Bytes Bytes) = Lru.empty 4 from rfl)
    (fun _ _ _ => (Finset.card_filter_le _ _).trans hputs) hs
  exact ⟨s,order,m,hs,h,hexact⟩

end EaHalfHour.ClusterAsMap
