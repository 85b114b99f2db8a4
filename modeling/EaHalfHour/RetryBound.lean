import EaHalfHour.CallProgress
import EaHalfHour.CallTree
import EaHalfHour.ExecutionLog

/-! How often one client's request can be executed, when one CallMethod delivers its
message at most once. Every node that hands the request on may send it three times, so
the tries multiply along the way to the owner of its key. -/
namespace EaHalfHour.RetryBound
open LabelledRun AtomicObject KvMessage KvCache RecencyMap SendLoop ProxyNode DeliveredRouting
  ClusterNetwork ResponseOrigin PeerLists ExecutionLog CallProgress CallTree

def Sent (r : Nat) : Phase → Prop
  | .entered => False
  | .sending next => r < next
  | .waiting current => r ≤ current
  | .returned _ _ | .answered _ _ => True

theorem Sent.moves {r : Nat} {x y : Phase} (h : Sent r x) (hm : Moves x y) : Sent r y := by
  cases hm with
  | executes | replied | responds => trivial
  | starts => exact h.elim
  | transmits => exact Nat.le_of_lt h
  | initFails current | callFails current =>
    have hr : r < current + 1 := by
      simp only [Sent] at h
      omega
    rw [after_failed rfl]
    by_cases hlt : current + 1 < 3
    · rw [if_pos hlt]
      exact hr
    · rw [if_neg hlt]
      trivial

section Runs
variable {σ : Type} {c : Cluster} {hash : Bytes → UInt64} {cache₀ : Bytes → σ}
  {tr : List Label} {s s' : State σ}

def SentBy (s : State σ) (id : CallId) (r : Nat) : Prop :=
  ∃ call, s.call id = some call ∧ Sent r call.phase

def Made (s : State σ) (id : CallId) (r : Nat) (child : CallId) : Prop :=
  ∃ sent, s.call child = some sent ∧ sent.origin = .attempt id r

/-- Each attempt of a call is one message and then one call at the peer. -/
structure OncePerTry (s : State σ) : Prop where
  message : ∀ id r, (id,r) ∈ s.network → r < 3 ∧ SentBy s id r
  attempt : ∀ e sent id r, s.call e = some sent → sent.origin = .attempt id r →
    r < 3 ∧ SentBy s id r ∧ (id,r) ∉ s.network
  single : ∀ e e' sent sent' id r, s.call e = some sent → s.call e' = some sent' →
    sent.origin = .attempt id r → sent'.origin = .attempt id r → e = e'
  nodup : s.network.Nodup

variable [LRUCache σ]

theorem SentBy.kept {l : Label} {id : CallId} {r : Nat} (h : SentBy s id r)
    (hs : Step c hash s l s') : SentBy s' id r := by
  obtain ⟨call,hcall,hsent⟩ := h
  obtain ⟨call',hcall',-,hmoves,hstays⟩ := step_moves hs hcall
  refine ⟨call',hcall',?_⟩
  by_cases hmover : mover s l = some id
  · exact hsent.moves (hmoves hmover)
  · rw [hstays hmover]
    exact hsent

theorem OncePerTry.quiet (h : OncePerTry s) {l : Label} (hs : Step c hash s l s')
    (hnetwork : s'.network = s.network)
    (hold : ∀ e sent id r, s'.call e = some sent → sent.origin = .attempt id r →
      ∃ sent₀, s.call e = some sent₀ ∧ sent₀.origin = .attempt id r) : OncePerTry s' := by
  refine ⟨?_,?_,?_,by rw [hnetwork]; exact h.nodup⟩
  · intro id r hmem
    rw [hnetwork] at hmem
    obtain ⟨hr,hsent⟩ := h.message id r hmem
    exact ⟨hr,hsent.kept hs⟩
  · intro e sent id r hcall horigin
    obtain ⟨sent₀,hcall₀,horigin₀⟩ := hold e sent id r hcall horigin
    obtain ⟨hr,hsent,hgone⟩ := h.attempt e sent₀ id r hcall₀ horigin₀
    exact ⟨hr,hsent.kept hs,by rw [hnetwork]; exact hgone⟩
  · intro e e' sent sent' id r hcall hcall' horigin horigin'
    obtain ⟨sent₀,hcall₀,horigin₀⟩ := hold e sent id r hcall horigin
    obtain ⟨sent₀',hcall₀',horigin₀'⟩ := hold e' sent' id r hcall' horigin'
    exact h.single e e' sent₀ sent₀' id r hcall₀ hcall₀' horigin₀ horigin₀'

theorem attempt_before {l : Label} (hs : Step c hash s l s') {e id : CallId} {sent : Call}
    {r : Nat} (hcall : s'.call e = some sent) (horigin : sent.origin = .attempt id r) :
    (∃ sent₀, s.call e = some sent₀ ∧ sent₀.origin = .attempt id r) ∨ l = .deliver id r e := by
  obtain ⟨i,new,he,hi⟩ := step_touches hs
  rw [he] at hcall
  rcases update_found hcall with ⟨rfl,rfl⟩ | ⟨-,hold⟩
  · rcases hi with ⟨-,hjoin⟩ | ⟨old,hold,hsame,-⟩
    · cases hjoin with
      | client => cases horigin
      | attempt =>
        obtain ⟨rfl,rfl⟩ := Origin.attempt.inj horigin
        exact Or.inr rfl
    · obtain ⟨-,-,-,ho⟩ := Call.identity_eq hsame
      exact Or.inl ⟨old,hold,ho.symm.trans horigin⟩
  · exact Or.inl ⟨sent,hold,horigin⟩

theorem oncePerTry_run (hrun : runFrom (step c hash) (.init cache₀) tr = some s) :
    OncePerTry s := by
  refine run_invariant (P := fun _ s => OncePerTry s)
    ⟨?_,?_,?_,List.nodup_nil⟩ ?_ tr s hrun
  · intro id r hmem
    cases hmem
  · intro e sent id r hcall
    cases hcall
  · intro e e' sent sent' id r hcall
    cases hcall
  intro es m l n hm h hn
  have hs := step_sound c hash hn
  have hquiet : n.network = m.network → (∀ id r e, l ≠ .deliver id r e) → OncePerTry n := by
    intro hnetwork hl
    exact h.quiet hs hnetwork fun e sent id r hcall horigin =>
      (attempt_before hs hcall horigin).resolve_right (hl id r e)
  have hbefore : ∀ {e id : CallId} {sent : Call} {r : Nat}, n.call e = some sent →
      sent.origin = .attempt id r →
      (∃ sent₀, m.call e = some sent₀ ∧ sent₀.origin = .attempt id r) ∨ l = .deliver id r e :=
    fun hcall horigin => attempt_before hs hcall horigin
  have hstill := fun {id : CallId} {r : Nat} (hsent : SentBy m id r) => hsent.kept hs
  cases hs with
  | invoke | execute | startFiber | initFails | timeout | reply | respond =>
    exact hquiet rfl (by simp)
  | @transmit i call r hcall hphase =>
    -- the attempt that is sent now had not been sent
    have hfresh : ¬ SentBy m i r := by
      rintro ⟨call',hcall',hsent⟩
      obtain rfl := Option.some.inj (hcall'.symm.trans hcall)
      rw [hphase] at hsent
      exact Nat.lt_irrefl r hsent
    have hr : r < 3 := by
      have hnumbered := (underway_run hm).numbered i call hcall
      rwa [hphase] at hnumbered
    refine ⟨?_,?_,?_,List.nodup_cons.mpr ⟨fun hmem => hfresh (h.message i r hmem).2,h.nodup⟩⟩
    · intro id r' hmem
      rcases List.mem_cons.mp hmem with he | hmem
      · obtain ⟨rfl,rfl⟩ := Prod.mk.inj he
        exact ⟨hr,_,Function.update_self .. ,le_refl r'⟩
      · obtain ⟨hr',hsent⟩ := h.message id r' hmem
        exact ⟨hr',hstill hsent⟩
    · intro e sent id r' hcall' horigin
      obtain ⟨sent₀,hcall₀,horigin₀⟩ := (hbefore hcall' horigin).resolve_right (by simp)
      obtain ⟨hr',hsent,hgone⟩ := h.attempt e sent₀ id r' hcall₀ horigin₀
      refine ⟨hr',hstill hsent,fun hmem => ?_⟩
      rcases List.mem_cons.mp hmem with he | hmem
      · obtain ⟨rfl,rfl⟩ := Prod.mk.inj he
        exact hfresh hsent
      · exact hgone hmem
    · intro e e' sent sent' id r' hcall' hcall'' horigin horigin'
      obtain ⟨sent₀,hcall₀,horigin₀⟩ := (hbefore hcall' horigin).resolve_right (by simp)
      obtain ⟨sent₀',hcall₀',horigin₀'⟩ := (hbefore hcall'' horigin').resolve_right (by simp)
      exact h.single e e' sent₀ sent₀' id r' hcall₀ hcall₀' horigin₀ horigin₀'
  | @deliver parent i r sender p hsender hp hmem hrunning hnone =>
    obtain ⟨hr,hsent⟩ := h.message parent r hmem
    have hfirst : ∀ {e sent}, m.call e = some sent → sent.origin ≠ .attempt parent r :=
      fun hcall horigin => (h.attempt _ _ parent r hcall horigin).2.2 hmem
    refine ⟨?_,?_,?_,h.nodup.erase _⟩
    · intro id r' hmem'
      obtain ⟨hr',hsent'⟩ := h.message id r' (List.mem_of_mem_erase hmem')
      exact ⟨hr',hstill hsent'⟩
    · intro e sent id r' hcall horigin
      rcases hbefore hcall horigin with ⟨sent₀,hcall₀,horigin₀⟩ | he
      · obtain ⟨hr',hsent',hgone⟩ := h.attempt e sent₀ id r' hcall₀ horigin₀
        exact ⟨hr',hstill hsent',fun hmem' => hgone (List.mem_of_mem_erase hmem')⟩
      · cases he
        exact ⟨hr,hstill hsent,h.nodup.not_mem_erase⟩
    · intro e e' sent sent' id r' hcall hcall' horigin horigin'
      rcases hbefore hcall horigin with ⟨sent₀,hcall₀,horigin₀⟩ | he <;>
        rcases hbefore hcall' horigin' with ⟨sent₀',hcall₀',horigin₀'⟩ | he'
      · exact h.single e e' sent₀ sent₀' id r' hcall₀ hcall₀' horigin₀ horigin₀'
      · cases he'
        exact absurd horigin₀ (hfirst hcall₀)
      · cases he
        exact absurd horigin₀' (hfirst hcall₀')
      · cases he
        cases he'
        rfl

theorem executed_once (hrun : runFrom (step c hash) (.init cache₀) tr = some s) :
    (executed tr).Nodup ∧ ∀ id ∈ executed tr, ∀ call, s.call id = some call →
      call.phase ≠ .entered := by
  refine run_invariant (P := fun tr (s : State σ) => (executed tr).Nodup ∧
    ∀ id ∈ executed tr, ∀ call, s.call id = some call → call.phase ≠ .entered)
    ⟨List.nodup_nil,fun id hid => by cases hid⟩ ?_ tr s hrun
  rintro es m l n hm ⟨hnodup,hleft⟩ hn
  have hs := step_sound c hash hn
  have hkept : ∀ id ∈ executed es, ∀ call, n.call id = some call → call.phase ≠ .entered := by
    intro id hid call hcall
    obtain ⟨old,hold⟩ := executed_called hm hid
    obtain ⟨call',hcall',-,hmoves,hstays⟩ := step_moves hs hold
    obtain rfl := Option.some.inj (hcall.symm.trans hcall')
    by_cases hmover : mover m l = some id
    · intro hphase
      have hmoved := hmoves hmover
      rw [hphase] at hmoved
      generalize old.phase = x at hmoved
      generalize hy : Phase.entered = y at hmoved
      cases hmoved with
      | executes | starts | transmits | replied | responds => cases hy
      | initFails | callFails =>
        rw [after_failed rfl] at hy
        split at hy <;> cases hy
    · rw [hstays hmover]
      exact hleft id hid old hold
  rw [executed_append]
  cases hl : executeId l with
  | none =>
    have hnew : executed [l] = [] := List.filterMap_cons_none hl
    rw [hnew, List.append_nil]
    exact ⟨hnodup,hkept⟩
  | some i =>
    obtain rfl : l = .execute i := by
      cases l <;> cases hl
      rfl
    have hnew : executed [.execute i] = [i] := rfl
    rw [hnew]
    cases hs with
    | execute hcall hphase =>
      refine ⟨?_,fun id hid call hcall' => ?_⟩
      · refine List.nodup_append.mpr ⟨hnodup,List.nodup_singleton i,fun a ha b hb hab => ?_⟩
        obtain rfl := List.mem_singleton.mp hb
        exact hleft a ha _ (hab ▸ hcall) hphase
      · rcases List.mem_append.mp hid with hid | hid
        · exact hkept id hid call hcall'
        · obtain rfl := List.mem_singleton.mp hid
          rw [setPhase_call, setCache_call, Function.update_self] at hcall'
          obtain rfl := Option.some.inj hcall'
          exact fun h => by cases h

theorem executed_owned (hrun : runFrom (step c hash) (.init cache₀) tr = some s) {e : CallId}
    (he : e ∈ executed tr) :
    ∃ sent p, s.call e = some sent ∧ c.proxy sent.node = some p ∧ p.Owns hash sent.request.key := by
  obtain ⟨u,v,rfl⟩ := List.append_of_mem (mem_executed.mp he)
  obtain ⟨m,n,-,hstep,hv⟩ := run_at hrun
  obtain ⟨sent,p,hsent,hp,hown,-⟩ := execute_effect hstep
  obtain ⟨sent',call,hsent',hcall,hsame,-⟩ := execute_later hstep hv
  obtain rfl := Option.some.inj (hsent.symm.trans hsent')
  obtain ⟨hnode,-,hrequest,-⟩ := Call.identity_eq hsame
  exact ⟨call,p,hcall,by rw [hnode, hp],by rw [hrequest]; exact hown⟩

theorem chain_of_executed (hrun : runFrom (step c hash) (.init cache₀) tr = some s)
    {root e : CallId} (h : Under s root e) (he : e ∈ executed tr) {call : Call}
    (hcall : s.call root = some call) :
    ∃ path sent, s.call e = some sent ∧ c.Chain hash call.request.key call.node path sent.node := by
  induction h generalizing call with
  | self =>
    obtain ⟨sent,p,hsent,hp,hown⟩ := executed_owned hrun he
    obtain rfl := Option.some.inj (hcall.symm.trans hsent)
    exact ⟨[],call,hcall,.here (by rw [Cluster.next, hp, Option.map_some, if_pos hown])⟩
  | attempt hchild horigin _ ih =>
    obtain ⟨sender,p,hsender,hp,hown,-,hrequest,hnode⟩ :=
      (routed_run hrun).attempt _ _ _ _ hchild horigin
    obtain rfl := Option.some.inj (hsender.symm.trans hcall)
    obtain ⟨path,sent,hsent,hchain⟩ := ih he hchild
    rw [hrequest, hnode] at hchain
    exact ⟨_,sent,hsent,.hop (by rw [Cluster.next, hp, Option.map_some, if_neg hown]) hchain⟩

theorem below_of_executed (hrun : runFrom (step c hash) (.init cache₀) tr = some s)
    {key a d : Bytes} {path : List Bytes} (hchain : c.Chain hash key a path d) {root e : CallId}
    {call : Call} (hcall : s.call root = some call) (hkey : call.request.key = key)
    (ha : call.node = a) (he : e ∈ executed tr) (hunder : Under s root e) :
    Below (Made s) path.length root e := by
  induction hchain generalizing root call with
  | here hnext =>
    -- an owner makes no attempts, so only the call itself can be executed
    obtain ⟨p,hp,hown⟩ := Cluster.next_executes hnext
    cases hunder with
    | self => exact .self e
    | attempt hchild horigin =>
      obtain ⟨sender,q,hsender,hq,hnot,-⟩ :=
        (routed_run hrun).attempt _ _ _ _ hchild horigin
      obtain rfl := Option.some.inj (hsender.symm.trans hcall)
      rw [ha] at hq
      obtain rfl := Option.some.inj (hq.symm.trans hp)
      rw [hkey] at hnot
      exact absurd hown hnot
  | @hop a b path d hnext _ ih =>
    obtain ⟨p,hp,hnot,hb⟩ := Cluster.next_forwards hnext
    cases hunder with
    | self =>
      obtain ⟨sent,q,hsent,hq,hown⟩ := executed_owned hrun he
      obtain rfl := Option.some.inj (hsent.symm.trans hcall)
      rw [ha] at hq
      obtain rfl := Option.some.inj (hq.symm.trans hp)
      rw [hkey] at hown
      exact absurd hown hnot
    | @attempt _ child _ sent r hchild horigin hbelow =>
      obtain ⟨sender,q,hsender,hq,-,-,hrequest,hnode⟩ :=
        (routed_run hrun).attempt child sent root r hchild horigin
      obtain rfl := Option.some.inj (hsender.symm.trans hcall)
      rw [ha] at hq
      obtain rfl := Option.some.inj (hq.symm.trans hp)
      exact .step ⟨sent,hchild,horigin⟩
        (ih hchild (by rw [hrequest, hkey]) (by rw [hnode, hkey, hb]) hbelow)

/-- At the end of a chain of `n` hops one request is executed at most `3 ^ n` times. -/
theorem executed_le (hrun : runFrom (step c hash) (.init cache₀) tr = some s) {key a d : Bytes}
    {path : List Bytes} (hchain : c.Chain hash key a path d) {root : CallId} {call : Call}
    (hcall : s.call root = some call) (hkey : call.request.key = key) (ha : call.node = a)
    (S : Finset CallId) (hS : ∀ e ∈ S, e ∈ executed tr ∧ Under s root e) :
    S.card ≤ 3 ^ path.length := by
  have honce := oncePerTry_run hrun
  have hsingle : Single (Made s) := fun id r e e' ⟨sent,hsent,horigin⟩ ⟨sent',hsent',horigin'⟩ =>
    honce.single e e' sent sent' id r hsent hsent' horigin horigin'
  have hfew : ∀ k id r e, Below (Made s) k root id → Made s id r e → r < 3 :=
    fun _ id r e _ ⟨sent,hsent,horigin⟩ => (honce.attempt e sent id r hsent horigin).1
  calc S.card ≤ ∏ k ∈ Finset.range path.length, 3 :=
        card_le_prod hsingle hfew S fun e he =>
          below_of_executed hrun hchain hcall hkey ha (hS e he).1 (hS e he).2
    _ = 3 ^ path.length := by rw [Finset.prod_const, Finset.card_range]

omit [LRUCache σ] in
theorem chain_short {address key a d : Bytes} {path : List Bytes}
    (hshared : ∀ a flag, c.peersFlag a = some flag → flag = address)
    (h : c.Chain hash key a path d) : path.length ≤ 1 := by
  have hsome : ∀ {x hop}, c.next hash key x = some hop → (c.proxy x).isSome := fun hnext => by
    obtain ⟨p,hp,-⟩ := Option.map_eq_some_iff.mp hnext
    rw [hp]
    rfl
  have hpeer : ∀ {x y}, c.next hash key x = some (.forwards y) →
      (strSplit address)[slot hash address key]? = some y := by
    intro x y hnext
    obtain ⟨y',hy',-,hnext'⟩ := next_shared hash key hshared (hsome hnext)
    rw [hnext] at hnext'
    split at hnext'
    · cases hnext'
    · obtain rfl := Cluster.Hop.forwards.inj (Option.some.inj hnext')
      exact hy'
  cases h with
  | here => exact Nat.zero_le 1
  | hop hnext hrest =>
    cases hrest with
    | here => exact le_refl 1
    | hop hnext' hrest' =>
      -- a peer that does not own the key would send it to itself for ever
      obtain rfl := Option.some.inj ((hpeer hnext).symm.trans (hpeer hnext'))
      exact absurd hrest' (Cluster.not_chain_of_closed (S := (· = _))
        (by rintro a rfl; exact ⟨_,rfl,hnext'⟩) rfl)

structure Bounded (c : Cluster) (hash : Bytes → UInt64) (tr : List Label) (s : State σ)
    (id : CallId) (node key : Bytes) : Prop where
  once : (executed tr).Nodup
  place : ∀ e ∈ executed tr, Under s id e →
    ∃ path sent, s.call e = some sent ∧ c.Chain hash key node path sent.node
  hops : ∀ path d, c.Chain hash key node path d → ∀ S : Finset CallId,
    (∀ e ∈ S, e ∈ executed tr ∧ Under s id e) → S.card ≤ 3 ^ path.length
  shared : ∀ address, (∀ a flag, c.peersFlag a = some flag → flag = address) →
    ∀ S : Finset CallId, (∀ e ∈ S, e ∈ executed tr ∧ Under s id e) → S.card ≤ 3

/-- A client's request is executed only at the end of the chain of nodes that begins
where it entered, at most `3 ^ n` times after `n` hops: three times where all nodes have
one list, and not at all where the chain has no end. -/
theorem bounded_run (hrun : runFrom (step c hash) (.init cache₀) tr = some s) {id : CallId}
    {node : Bytes} {method : Method} {request : KvRequest}
    (hinvoke : .invoke id node method request ∈ tr) :
    Bounded c hash tr s id node request.key := by
  obtain ⟨call,hcall,hid⟩ := invoked_run hrun hinvoke
  obtain ⟨rfl,-,rfl,-⟩ : call.node = node ∧ call.method = method ∧
    call.request = request ∧ _ := by simpa [Call.identity] using hid
  have hhops : ∀ path d, c.Chain hash call.request.key call.node path d → ∀ S : Finset CallId,
      (∀ e ∈ S, e ∈ executed tr ∧ Under s id e) → S.card ≤ 3 ^ path.length :=
    fun path d hchain S hS => executed_le hrun hchain hcall rfl rfl S hS
  refine ⟨(executed_once hrun).1,?_,hhops,?_⟩
  · intro e he hunder
    exact chain_of_executed hrun hunder he hcall
  · intro address hshared S hS
    rcases S.eq_empty_or_nonempty with rfl | ⟨e,he⟩
    · exact Nat.zero_le 3
    · obtain ⟨path,sent,-,hchain⟩ := chain_of_executed hrun (hS e he).2 (hS e he).1 hcall
      calc S.card ≤ 3 ^ path.length := hhops path _ hchain S hS
        _ ≤ 3 ^ 1 := Nat.pow_le_pow_right (by decide) (chain_short hshared hchain)
        _ = 3 := Nat.pow_one 3

end Runs

def storedThrice : List Label :=
  [.invoke 0 (text "a") .set ⟨text "k",some (text "v")⟩,.startFiber 0 0,
    .transmit 0,.deliver 0 0 1,.timeout 0,.transmit 0,.deliver 0 1 2,.timeout 0,
    .transmit 0,.deliver 0 2 3,.execute 3,.execute 1,.reply 3,.execute 2,
    .respond 0 ⟨some 0,some (text "ok"),none⟩]

theorem bounded_storedThrice :
    ∃ s, runFrom (step (.everyPeer (text "a,b")) fun _ => 1)
        (.init fun _ => (Lru.empty 4 : Lru Bytes Bytes)) storedThrice = some s ∧
      Bounded (.everyPeer (text "a,b")) (fun _ => 1) storedThrice s 0 (text "a") (text "k") := by
  have hsome : (runFrom (step (.everyPeer (text "a,b")) fun _ => 1)
      (.init fun _ => (Lru.empty 4 : Lru Bytes Bytes)) storedThrice).isSome := by decide
  obtain ⟨s,hs⟩ := Option.isSome_iff_exists.mp hsome
  have hinvoke : .invoke 0 (text "a") .set ⟨text "k",some (text "v")⟩ ∈ storedThrice := by decide
  exact ⟨s,hs,bounded_run hs hinvoke⟩

example : executed storedThrice = [3,1,2] := rfl

end EaHalfHour.RetryBound
