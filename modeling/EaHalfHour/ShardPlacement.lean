import EaHalfHour.ClusterNetwork

/-! Which keys each cache of the cluster may hold, and where the values come from,
in every state that any run reaches. -/
namespace EaHalfHour.ShardPlacement
open LabelledRun KvMessage KvCache RecencyMap ProxyNode DeliveredRouting ClusterNetwork
open LawfulLRUCache

section Sharing
variable {c : Cluster} {hash : Bytes → UInt64} {address : Bytes}

theorem owner_unique (hshared : ∀ a flag, c.peersFlag a = some flag → flag = address)
    {a b k : Bytes} {p q : KvProxy} (hp : c.proxy a = some p) (hq : c.proxy b = some q)
    (hpown : p.Owns hash k) (hqown : q.Owns hash k) : a = b := by
  obtain ⟨flag,hflag,rfl⟩ := Cluster.flag_of_proxy hp
  obtain rfl := hshared a flag hflag
  obtain ⟨flag',hflag',rfl⟩ := Cluster.flag_of_proxy hq
  obtain rfl := hshared b flag' hflag'
  rw [tableOf_owns] at hpown hqown
  exact (List.idxOf_inj (Cluster.mem_of_flag hflag)).mp (hpown.trans hqown.symm)

end Sharing

section Runs
variable {σ : Type} [LRUCache σ] [LawfulLRUCache σ] {c : Cluster} {hash : Bytes → UInt64}
  {cache₀ : Bytes → σ} {tr : List Label} {s s' : State σ}

def Supplied (tr : List Label) (k v : Bytes) : Prop :=
  ∃ id node request, .invoke id node .set request ∈ tr ∧ request.key = k ∧
    request.value = some v

theorem Supplied.later {k v : Bytes} (h : Supplied tr k v) (l : Label) :
    Supplied (tr ++ [l]) k v := by
  obtain ⟨id,node,request,hmem,hkey,hvalue⟩ := h
  exact ⟨id,node,request,List.mem_append_left _ hmem,hkey,hvalue⟩

/-- Only the owner of a key holds it, with a value that a client supplied for it,
and only such values are in the responses of gets, wherever these have got to. -/
structure Placed (c : Cluster) (hash : Bytes → UInt64) (tr : List Label)
    (s : State σ) : Prop where
  held : ∀ a k v, find (s.cache a) k = some v →
    (∃ p, c.proxy a = some p ∧ p.Owns hash k) ∧ Supplied tr k v
  replied : ∀ id call response, s.call id = some call → call.method = .get →
    call.phase.result = some response → response.code = some StatusCode.kOk.toInt →
    ∃ v, response.value = some v ∧ Supplied tr call.request.key v

theorem placed_step {l : Label} (hrouted : Routed c hash s) (hrequested : Requested tr s)
    (hs : Placed c hash tr s) (h : Step c hash s l s') : Placed c hash (tr ++ [l]) s' := by
  refine ⟨?_,?_⟩
  · intro a k v hf
    rcases step_cache h a with hsame | ⟨id,call,p,-,hcall,rfl,hp,hown,hrun⟩
    · rw [hsame] at hf
      obtain ⟨hplace,hsup⟩ := hs.held a k v hf
      exact ⟨hplace,hsup.later l⟩
    · rw [hrun] at hf
      have hout := Cache.run_outcome call.method call.request (s.cache call.node)
      rcases hout.find_after hf with hf | ⟨hset,rfl,hvalue⟩
      · obtain ⟨hplace,hsup⟩ := hs.held call.node k v hf
        exact ⟨hplace,hsup.later l⟩
      · obtain ⟨root,node,-,hmem⟩ := hrequested id call hcall
        rw [hset] at hmem
        exact ⟨⟨p,hp,hown⟩,Supplied.later ⟨root,node,call.request,hmem,rfl,hvalue⟩ l⟩
  · intro id call' response hcall' hget hres hok
    rcases step_result h hcall' hres with
      ⟨call,hcall,hsame,hres'⟩ | ⟨call,p,-,hcall,hsame,-,-,hrun⟩ | rfl |
      ⟨child,sent,r,-,hsent,horigin,hres'⟩
    · obtain ⟨-,hm,hr,-⟩ := Call.identity_eq hsame
      obtain ⟨v,hv,hsup⟩ := hs.replied id call response hcall (hm.trans hget) hres' hok
      exact ⟨v,hv,by rw [← hr]; exact hsup.later l⟩
    · obtain ⟨-,hm,hr,-⟩ := Call.identity_eq hsame
      have hout := Cache.run_outcome call.method call.request (s.cache call.node)
      rw [← hrun, hm, hget] at hout
      obtain ⟨v,hv,hf⟩ := hout.get_ok hok
      exact ⟨v,hv,by rw [← hr]; exact (hs.held call.node _ v hf).2.later l⟩
    · cases hok
    · obtain ⟨sender,p,hsender,-,-,hm,hr,-⟩ := hrouted.attempt child sent id r hsent horigin
      obtain ⟨call,hcall,hsame⟩ := step_keeps h hsender
      obtain rfl := Option.some.inj (hcall.symm.trans hcall')
      obtain ⟨-,hm',hr',-⟩ := Call.identity_eq hsame
      obtain ⟨v,hv,hsup⟩ := hs.replied child sent response hsent
        (by rw [hm, ← hm', hget]) hres' hok
      exact ⟨v,hv,by rw [hr', ← hr]; exact hsup.later l⟩

theorem placed_run (hempty : ∀ a k, find (cache₀ a) k = none)
    (hrun : runFrom (step c hash) (.init cache₀) tr = some s) : Placed c hash tr s := by
  refine run_invariant (P := Placed c hash) ⟨?_,?_⟩ ?_ tr s hrun
  · intro a k v hf
    have hnone : find (cache₀ a) k = some v := hf
    rw [hempty] at hnone
    cases hnone
  · intro id call response hcall
    cases hcall
  · intro es m l n hm hplaced hn
    exact placed_step (routed_run hm) (requested_run hm) hplaced (step_sound c hash hn)

/-- What holds of a state of nodes that share one list: the keys a cache holds are
at its node's position in the list, no key is held twice, a get that came back with
kOk carries a value some client supplied for its key, and a step changes a cache
only by an operation on a key at that node's position. -/
structure ByShard (c : Cluster) (hash : Bytes → UInt64) (tr : List Label)
    (s : State σ) : Prop where
  atPosition : ∀ a k, find (s.cache a) k ≠ none → ∃ p, c.proxy a = some p ∧
    p.peerIndex = some ((hash k).toNat % p.peers.length)
  heldOnce : ∀ a b k, find (s.cache a) k ≠ none → find (s.cache b) k ≠ none → a = b
  supplied : ∀ id call response, s.call id = some call → call.method = .get →
    call.phase.result = some response → response.code = some StatusCode.kOk.toInt →
    ∃ v, response.value = some v ∧ Supplied tr call.request.key v
  othersUnchanged : ∀ l s', step c hash s l = some s' → ∀ a, s'.cache a ≠ s.cache a →
    ∃ id call p, l = .execute id ∧ s.call id = some call ∧ call.node = a ∧
      c.proxy a = some p ∧
      p.peerIndex = some ((hash call.request.key).toNat % p.peers.length)

theorem byShard_run {address : Bytes}
    (hshared : ∀ a flag, c.peersFlag a = some flag → flag = address)
    (hempty : ∀ a k, find (cache₀ a) k = none)
    (hrun : runFrom (step c hash) (.init cache₀) tr = some s) : ByShard c hash tr s := by
  have hplaced := placed_run hempty hrun
  have hheld : ∀ a k, find (s.cache a) k ≠ none →
      ∃ p, c.proxy a = some p ∧ p.Owns hash k := by
    intro a k hne
    obtain ⟨v,hv⟩ := Option.ne_none_iff_exists'.mp hne
    exact (hplaced.held a k v hv).1
  refine ⟨?_,?_,hplaced.replied,?_⟩
  · intro a k hne
    obtain ⟨p,hp,hown⟩ := hheld a k hne
    exact ⟨p,hp,hown.symm⟩
  · intro a b k ha hb
    obtain ⟨p,hp,hpown⟩ := hheld a k ha
    obtain ⟨q,hq,hqown⟩ := hheld b k hb
    exact owner_unique hshared hp hq hpown hqown
  · intro l s' h a hne
    rcases step_cache (step_sound c hash h) a with
      hsame | ⟨id,call,p,hl,hcall,hnode,hp,hown,-⟩
    · exact absurd hsame hne
    · exact ⟨id,call,p,hl,hcall,hnode,hp,hown.symm⟩

end Runs

def storedTwice : List Label :=
  [.invoke 0 (text "a") .set ⟨text "k",some (text "v")⟩,.startFiber 0 0,.transmit 0,
    .deliver 0 0 1,.execute 1,.timeout 0,.transmit 0,.deliver 0 1 2,.execute 2,.reply 2,
    .respond 0 ⟨some 0,some (text "ok"),none⟩,.invoke 3 (text "b") .get ⟨text "k",none⟩,
    .execute 3,.respond 3 ⟨some 0,some (text "ok"),some (text "v")⟩]

theorem byShard_storedTwice :
    ∃ s, runFrom (step (.everyPeer (text "a,b")) fun _ => 1)
        (.init fun _ => (Lru.empty 4 : Lru Bytes Bytes)) storedTwice = some s ∧
      ByShard (.everyPeer (text "a,b")) (fun _ => 1) storedTwice s := by
  have hsome : (runFrom (step (.everyPeer (text "a,b")) fun _ => 1)
      (.init fun _ => (Lru.empty 4 : Lru Bytes Bytes)) storedTwice).isSome := by decide
  obtain ⟨s,hs⟩ := Option.isSome_iff_exists.mp hsome
  exact ⟨s,hs,byShard_run (Cluster.everyPeer_shared (text "a,b")) (fun _ _ => rfl) hs⟩

end EaHalfHour.ShardPlacement
