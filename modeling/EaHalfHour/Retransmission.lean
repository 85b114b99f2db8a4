import EaHalfHour.ShardPlacement
import EaHalfHour.ResponseOrigin

/-! What a client may conclude from a response when an attempt that timed out may
have been executed, or may still be. Requests carry no number that the owner of a
key could recognise a repetition by. -/
namespace EaHalfHour.Retransmission
open LabelledRun KvMessage KvCache RecencyMap ProxyNode DeliveredRouting ClusterNetwork
open ResponseOrigin ShardPlacement LawfulLRUCache

section Replies
variable {σ : Type} [LRUCache σ] [LawfulLRUCache σ] {c : Cluster} {hash : Bytes → UInt64}
  {cache₀ : Bytes → σ} {tr : List Label} {s : State σ}

def SameContents (m n : State σ) : Prop := ∀ a k, find (n.cache a) k = find (m.cache a) k

theorem sameContents_of_run {m n : State σ} {b : Bytes} {method : Method} {request : KvRequest}
    (hcache : n.cache = Function.update m.cache b (Cache.run method request {} (m.cache b)).2)
    (hm : method = .get ∨ (method = .set ∧ request.value = none) ∨
      (Cache.run method request {} (m.cache b)).1.code = some StatusCode.kNotFound.toInt) :
    SameContents m n := by
  intro a k
  rw [hcache]
  by_cases ha : a = b
  · subst ha
    rw [Function.update_self]
    exact (Cache.run_outcome method request (m.cache a)).find_same hm k
  · rw [Function.update_of_ne ha]

/-- What a response tells its client. Only a remove that was not found may have
changed something, and then it deleted the entry of its key by an attempt whose
reply was not the one taken. -/
structure Tells (c : Cluster) (hash : Bytes → UInt64) (cache₀ : Bytes → σ)
    (tr : List Label) (s : State σ) (id : CallId) (method : Method) (request : KvRequest)
    (response : KvResponse) : Prop where
  nothingDone : response.code = some StatusCode.kInvalidArgument.toInt ∨
      (response.code = some StatusCode.kNotFound.toInt ∧ method ≠ .remove) →
    ∀ u e m n, Executes c hash (.init cache₀) tr u e m n → Under s id e → SameContents m n
  takenDidNothing : response.code = some StatusCode.kNotFound.toInt →
    ∀ u e m n, Executes c hash (.init cache₀) tr u e m n → Accepted tr s id e →
      SameContents m n
  onlyDeleted : method = .remove →
    ∀ u e m n, Executes c hash (.init cache₀) tr u e m n → Under s id e →
      ∀ a k, find (n.cache a) k = find (m.cache a) k ∨
        (k = request.key ∧ find (n.cache a) k = none)
  takenDeleted : method = .remove → response.code = some StatusCode.kOk.toInt →
    ∃ v, response.value = some v ∧
      (∃ u e m n, Executes c hash (.init cache₀) tr u e m n ∧ Accepted tr s id e) ∧
      ∀ u e m n, Executes c hash (.init cache₀) tr u e m n → Accepted tr s id e →
        ∃ a, find (m.cache a) request.key = some v ∧ find (n.cache a) request.key = none

theorem quiet_of_code (hrun : runFrom (step c hash) (.init cache₀) tr = some s)
    {id : CallId} {call : Call} {response : KvResponse} (hcall : s.call id = some call)
    (hres : call.phase.result = some response)
    (hcode : response.code = some StatusCode.kInvalidArgument.toInt ∨
      (response.code = some StatusCode.kNotFound.toInt ∧ call.method ≠ .remove)) :
    call.method = .get ∨ (call.method = .set ∧ call.request.value = none) := by
  rcases response_origin hrun hcall hres with rfl | ⟨u,e,m,n,-,hexec,hacc,-,-⟩
  · rcases hcode with hcode | ⟨hcode,-⟩ <;> cases hcode
  · obtain ⟨a,p,-,-,-,htaken⟩ := executes_under hrun hexec hacc.under hcall
    have hout := Cache.run_outcome call.method call.request (m.cache a)
    rw [← htaken response hacc hres] at hout
    rcases hcode with hcode | ⟨hcode,hne⟩
    · exact Or.inr (hout.of_invalidArgument hcode)
    · have hset := hout.of_notFound hcode
      cases hmethod : call.method with
      | set => exact absurd hmethod hset
      | get => exact Or.inl rfl
      | remove => exact absurd hmethod hne

theorem onlyDeleted_of_executes (hrun : runFrom (step c hash) (.init cache₀) tr = some s)
    {id e : CallId} {u : List Label} {m n : State σ} {call : Call}
    (hexec : Executes c hash (.init cache₀) tr u e m n) (hu : Under s id e)
    (hcall : s.call id = some call) (hremove : call.method = .remove) (a k : Bytes) :
    find (n.cache a) k = find (m.cache a) k ∨
      (k = call.request.key ∧ find (n.cache a) k = none) := by
  obtain ⟨b,p,-,-,hcache,-⟩ := executes_under hrun hexec hu hcall
  have hout := Cache.run_outcome call.method call.request (m.cache b)
  rw [hcache]
  by_cases ha : a = b
  · subst ha
    rw [Function.update_self]
    rw [hremove] at hout ⊢
    exact hout.remove_only k
  · rw [Function.update_of_ne ha]
    exact Or.inl rfl

theorem deleted_of_accepted (hrun : runFrom (step c hash) (.init cache₀) tr = some s)
    {id e : CallId} {u : List Label} {m n : State σ} {call : Call} {response : KvResponse}
    (hexec : Executes c hash (.init cache₀) tr u e m n) (hacc : Accepted tr s id e)
    (hcall : s.call id = some call) (hres : call.phase.result = some response)
    (hremove : call.method = .remove) (hcode : response.code = some StatusCode.kOk.toInt) :
    ∃ a v, response.value = some v ∧ find (m.cache a) call.request.key = some v ∧
      find (n.cache a) call.request.key = none := by
  obtain ⟨a,p,-,-,hcache,htaken⟩ := executes_under hrun hexec hacc.under hcall
  have hout := Cache.run_outcome call.method call.request (m.cache a)
  rw [← htaken response hacc hres, hremove] at hout
  obtain ⟨v,hv,hfound,hnone⟩ := hout.remove_ok hcode
  refine ⟨a,v,hv,hfound,?_⟩
  rw [hcache, Function.update_self, hremove]
  exact hnone

theorem tells_of_response (hrun : runFrom (step c hash) (.init cache₀) tr = some s)
    {id : CallId} {node : Bytes} {method : Method} {request : KvRequest}
    {response : KvResponse} (hinvoke : .invoke id node method request ∈ tr)
    (hrespond : .respond id response ∈ tr) :
    Tells c hash cache₀ tr s id method request response := by
  obtain ⟨call,hcall,hid⟩ := invoked_run hrun hinvoke
  obtain ⟨rfl,rfl,rfl,-⟩ : call.node = node ∧ call.method = method ∧
    call.request = request ∧ _ := by simpa [Call.identity] using hid
  obtain ⟨call',hcall',hres⟩ := responded_run hrun hrespond
  obtain rfl := Option.some.inj (hcall.symm.trans hcall')
  refine ⟨?_,?_,?_,?_⟩
  · intro hcode u e m n hexec hu
    obtain ⟨a,p,-,-,hcache,-⟩ := executes_under hrun hexec hu hcall
    refine sameContents_of_run hcache ?_
    rcases quiet_of_code hrun hcall hres hcode with hget | hset
    · exact Or.inl hget
    · exact Or.inr (Or.inl hset)
  · intro hcode u e m n hexec hacc
    obtain ⟨a,p,-,-,hcache,htaken⟩ := executes_under hrun hexec hacc.under hcall
    refine sameContents_of_run hcache (Or.inr (Or.inr ?_))
    rw [← htaken response hacc hres]
    exact hcode
  · intro hremove u e m n hexec hu a k
    exact onlyDeleted_of_executes hrun hexec hu hcall hremove a k
  · intro hremove hcode
    rcases response_origin hrun hcall hres with rfl | ⟨u₀,e₀,m₀,n₀,-,hexec₀,hacc₀,-,-⟩
    · cases hcode
    · obtain ⟨-,v,hv,-⟩ := deleted_of_accepted hrun hexec₀ hacc₀ hcall hres hremove hcode
      refine ⟨v,hv,⟨u₀,e₀,m₀,n₀,hexec₀,hacc₀⟩,fun u e m n hexec hacc => ?_⟩
      obtain ⟨a,w,hw,hfound,hnone⟩ :=
        deleted_of_accepted hrun hexec hacc hcall hres hremove hcode
      obtain rfl := Option.some.inj (hv.symm.trans hw)
      exact ⟨a,hfound,hnone⟩

end Replies

section LateExecution
variable {σ : Type} [LRUCache σ] [LawfulLRUCache σ] {c : Cluster} {hash : Bytes → UInt64}
  {address : Bytes} {cache₀ : Bytes → σ} {s : State σ}

theorem entry_appears {u v : List Label} {m n : State σ} {a k w : Bytes}
    (hu : runFrom (step c hash) (.init cache₀) u = some m)
    (hv : runFrom (step c hash) m v = some n) (hm : find (m.cache a) k ≠ some w)
    (hn : find (n.cache a) k = some w) :
    ∃ r₁ y r₂ root node, v = r₁ ++ .execute y :: r₂ ∧ Under n root y ∧
      .invoke root node .set ⟨k,some w⟩ ∈ u ++ r₁ := by
  obtain ⟨r₁,l,r₂,m₁,n₁,rfl,hr₁,hstep,hr₂,hnot,hyes⟩ :=
    run_switch (fun s => find (s.cache a) k = some w) hv hm hn
  have hm₁ : runFrom (step c hash) (.init cache₀) (u ++ r₁) = some m₁ :=
    (runFrom_append_iff _ _ u r₁).mpr ⟨m,hu,hr₁⟩
  have hs := step_sound c hash hstep
  rcases step_cache hs a with hsame | ⟨y,call,p,rfl,hcall,rfl,hp,hown,hrun⟩
  · exact absurd (by rw [← hsame]; exact hyes) hnot
  · rw [hrun] at hyes
    have hout := Cache.run_outcome call.method call.request (m₁.cache call.node)
    rcases hout.find_after hyes with hold | ⟨hset,hkey,hvalue⟩
    · exact absurd hold hnot
    · obtain ⟨root,node,hunder,hmem⟩ := requested_run hm₁ y call hcall
      have hrequest : call.request = ⟨k,some w⟩ := by rw [← hkey, ← hvalue]
      rw [hset, hrequest] at hmem
      exact ⟨r₁,y,r₂,root,node,rfl,(hunder.kept hs).later hr₂,hmem⟩

omit [LawfulLRUCache σ] in
theorem executed_after_invoke {t₁ t₂ u : List Label} {g e : CallId} {node : Bytes}
    {method : Method} {request : KvRequest} {m n : State σ}
    (hrun : runFrom (step c hash) (.init cache₀) (t₁ ++ .invoke g node method request :: t₂) =
      some s)
    (hexec : Executes c hash (.init cache₀) (t₁ ++ .invoke g node method request :: t₂) u e m n)
    (hunder : Under s g e) : ∃ v, u = t₁ ++ .invoke g node method request :: v := by
  obtain ⟨v,hv⟩ := hexec.split
  rcases List.append_eq_append_iff.mp hv with ⟨r,hu,hr⟩ | ⟨r,ht,hr⟩
  · cases r with
    | nil => cases hr
    | cons l r =>
      obtain ⟨rfl,-⟩ := List.cons_eq_cons.mp hr
      exact ⟨r,hu⟩
  · cases r with
    | nil => cases hr
    | cons l r =>
      obtain ⟨rfl,-⟩ := List.cons_eq_cons.mp hr
      obtain ⟨m₁,n₁,hm₁,hstep,hn₁⟩ := run_at hrun
      have hnone : m₁.call g = none := by
        cases step_sound c hash hstep with
        | invoke _ hnone => exact hnone
      have hmade : (m₁.call e).isSome := by
        obtain ⟨sent,call,-,hcall,-⟩ := executes_result hm₁ ⟨⟨r,ht⟩,hexec.before,hexec.taken⟩
        rw [hcall]
        rfl
      have hrest : runFrom (step c hash) m₁ (.invoke g node method request :: t₂) = some s :=
        (runFrom_cons_iff _ _ _ _).mpr ⟨n₁,hstep,hn₁⟩
      have hg := hunder.made_after (routed_run hm₁) hrest hmade
      rw [hnone] at hg
      cases hg

theorem executed_of_response {id : CallId} {node : Bytes} {method : Method}
    {request : KvRequest} {tr : List Label} {call : Call} {response : KvResponse}
    (hrun : runFrom (step c hash) (.init cache₀) tr = some s)
    (hmem : .invoke id node method request ∈ tr) (hcall : s.call id = some call)
    (hres : call.phase.result = some response) (hne : response ≠ {}) :
    ∃ u x m n a p, Executes c hash (.init cache₀) tr u x m n ∧ Accepted tr s id x ∧
      c.proxy a = some p ∧ p.Owns hash request.key ∧
      Outcome (m.cache a) request method response (n.cache a) := by
  obtain ⟨call',hcall',hid⟩ := invoked_run hrun hmem
  obtain rfl := Option.some.inj (hcall.symm.trans hcall')
  obtain ⟨rfl,rfl,rfl,-⟩ : call.node = node ∧ call.method = method ∧
    call.request = request ∧ _ := by simpa [Call.identity] using hid
  rcases response_origin hrun hcall hres with he | ⟨u,x,m,n,-,hexec,hacc,-,-⟩
  · exact absurd he hne
  · obtain ⟨a,p,hp,hown,hcache,htaken⟩ := executes_under hrun hexec hacc.under hcall
    refine ⟨u,x,m,n,a,p,hexec,hacc,hp,hown,?_⟩
    rw [hcache, Function.update_self, htaken response hacc hres]
    exact Cache.run_outcome call.method call.request (m.cache a)

/-- When set(k,v₂) has been acknowledged with kOk and no set or remove of k is made
after that, a later get of k that returns another value v₁ follows the execution,
after the one that was acknowledged, of an attempt of an earlier set(k,v₁). -/
theorem stale_get_of_late_execution
    (hshared : ∀ a flag, c.peersFlag a = some flag → flag = address)
    {t₁ t₂ t₃ : List Label} {b g : CallId} {nodeB nodeG k v₁ v₂ : Bytes} {w : Option Bytes}
    {ack answer : KvResponse} (hne : v₁ ≠ v₂)
    (hrun : runFrom (step c hash) (.init cache₀)
      (t₁ ++ .respond b ack :: (t₂ ++ .invoke g nodeG .get ⟨k,w⟩ :: t₃)) = some s)
    (hb : .invoke b nodeB .set ⟨k,some v₂⟩ ∈ t₁)
    (hack : ack.code = some StatusCode.kOk.toInt)
    (hlast : ∀ id node method request,
      .invoke id node method request ∈ t₂ ++ .invoke g nodeG .get ⟨k,w⟩ :: t₃ →
      request.key = k → method = .get)
    (hg : .respond g answer ∈ t₃) (hanswer : answer.value = some v₁) :
    ∃ u x v y r root node,
      t₁ ++ .respond b ack :: (t₂ ++ .invoke g nodeG .get ⟨k,w⟩ :: t₃) =
        u ++ .execute x :: (v ++ .execute y :: r) ∧
      Accepted (t₁ ++ .respond b ack :: (t₂ ++ .invoke g nodeG .get ⟨k,w⟩ :: t₃)) s b x ∧
      .invoke root node .set ⟨k,some v₁⟩ ∈ t₁ ∧ Under s root y ∧ .respond g answer ∈ r := by
  obtain ⟨t₄,t₅,rfl⟩ := List.append_of_mem hg
  obtain ⟨mb,nb,hmb,hstepb,hnb⟩ := run_at hrun
  have hmb' : runFrom (step c hash) mb
      (.respond b ack :: (t₂ ++ .invoke g nodeG .get ⟨k,w⟩ :: (t₄ ++ .respond g answer :: t₅)))
      = some s := (runFrom_cons_iff _ _ _ _).mpr ⟨nb,hstepb,hnb⟩
  obtain ⟨callb,hcallb,hresb⟩ := respond_before hstepb
  obtain ⟨u,x,m,n,a,p,hx,haccx,hp,hown,houtb⟩ := executed_of_response hmb hb hcallb hresb
    (by rintro rfl; cases hack)
  -- the state from which the get is answered
  have hsplit : t₁ ++ .respond b ack :: (t₂ ++ .invoke g nodeG .get ⟨k,w⟩ ::
      (t₄ ++ .respond g answer :: t₅)) =
      ((t₁ ++ .respond b ack :: t₂) ++ .invoke g nodeG .get ⟨k,w⟩ :: t₄) ++
        .respond g answer :: t₅ := by simp
  have hrun' := hrun
  rw [hsplit] at hrun'
  obtain ⟨mg,ng,hmg,hstepg,hng⟩ := run_at hrun'
  obtain ⟨callg,hcallg,hresg⟩ := respond_before hstepg
  have hinvoke : .invoke g nodeG .get ⟨k,w⟩ ∈
      (t₁ ++ .respond b ack :: t₂) ++ .invoke g nodeG .get ⟨k,w⟩ :: t₄ := by simp
  obtain ⟨u',z,m',n',a',p',hz,haccz,hp',hown',houtg⟩ :=
    executed_of_response hmg hinvoke hcallg hresg (by rintro rfl; cases hanswer)
  obtain rfl := owner_unique hshared hp hp' hown hown'
  obtain ⟨v,rfl⟩ := executed_after_invoke hmg hz haccz.under
  obtain ⟨v₀,rfl⟩ := hx.split
  obtain ⟨v',hv'⟩ := hz.split
  -- between the two executions
  have hbefore : (u ++ .execute x :: v₀) ++ .respond b ack :: t₂ ++
      .invoke g nodeG .get ⟨k,w⟩ :: v =
      u ++ .execute x :: (v₀ ++ .respond b ack :: (t₂ ++ .invoke g nodeG .get ⟨k,w⟩ :: v)) := by
    simp
  have hm' := hz.before
  rw [hbefore] at hm'
  obtain ⟨m₀,n₀,hm₀,hn₀,hbetween⟩ := run_at hm'
  obtain rfl := Option.some.inj (hm₀.symm.trans hx.before)
  obtain rfl := Option.some.inj (hn₀.symm.trans hx.taken)
  obtain ⟨r₁,y,r₂,root,node,hr,hunder,hmem⟩ := entry_appears
    ((runFrom_concat_iff _ _ _ _).mpr ⟨m₀,hm₀,hn₀⟩) hbetween
    (fun hf => hne (Option.some.inj (houtb.set_ok hack hf)).symm) (houtg.get_value hanswer)
  have hfull : (u ++ .execute x :: v₀) ++ .respond b ack :: (t₂ ++
      .invoke g nodeG .get ⟨k,w⟩ :: (t₄ ++ .respond g answer :: t₅)) =
      u ++ .execute x :: (r₁ ++ .execute y :: (r₂ ++ .execute z ::
        (v' ++ .respond g answer :: t₅))) := by
    rw [hsplit, hv', hbefore, hr]
    simp
  have hlate : runFrom (step c hash) m' (.execute z :: (v' ++ .respond g answer :: t₅)) =
      some s := by
    rw [hsplit, hv', List.append_assoc, runFrom_append_iff] at hrun
    obtain ⟨m₁,hm₁,hrest⟩ := hrun
    obtain rfl := Option.some.inj (hm₁.symm.trans hz.before)
    exact hrest
  refine ⟨u,x,r₁,y,_,root,node,hfull,haccx.later hmb',?_,hunder.later hlate,by simp⟩
  have hin : .invoke root node .set ⟨k,some v₁⟩ ∈ (u ++ .execute x :: v₀) ++
      .respond b ack :: (t₂ ++ .invoke g nodeG .get ⟨k,w⟩ ::
        (t₄ ++ .respond g answer :: t₅)) := by
    rw [hfull]
    simp only [List.mem_append, List.mem_cons] at hmem ⊢
    rcases hmem with (hmem | hmem | hmem) | hmem
    · exact Or.inl hmem
    · exact Or.inr (Or.inl hmem)
    · cases hmem
    · exact Or.inr (Or.inr (Or.inl hmem))
  rcases List.mem_append.mp hin with hin | hin
  · exact hin
  · rcases List.mem_cons.mp hin with hin | hin
    · cases hin
    · cases hlast root node .set _ hin rfl

end LateExecution

abbrev twoPeers : State (Lru Bytes Bytes) → Label → Option (State (Lru Bytes Bytes)) :=
  step (.everyPeer (text "a,b")) fun _ => 1

abbrev noEntries : Bytes → Lru Bytes Bytes := fun _ => Lru.empty 4

/-- That a retransmission never undoes a later acknowledged write: after set(k,v₁)
and then set(k,v₂) have been acknowledged, no get made later returns v₁. -/
def NoStaleGet (c : Cluster) (hash : Bytes → UInt64) (cache₀ : Bytes → Lru Bytes Bytes) :
    Prop :=
  ∀ t₀ t₁ t₂ t₃ s a b g nodeA nodeB nodeG k v₁ v₂ w ackA ackB answer, v₁ ≠ v₂ →
    runFrom (step c hash) (.init cache₀) (t₀ ++ .respond a ackA ::
      (t₁ ++ .respond b ackB :: (t₂ ++ .invoke g nodeG .get ⟨k,w⟩ :: t₃))) = some s →
    .invoke a nodeA .set ⟨k,some v₁⟩ ∈ t₀ → ackA.code = some StatusCode.kOk.toInt →
    .invoke b nodeB .set ⟨k,some v₂⟩ ∈ t₁ → ackB.code = some StatusCode.kOk.toInt →
    (∀ id node method request,
      .invoke id node method request ∈
        t₁ ++ .respond b ackB :: (t₂ ++ .invoke g nodeG .get ⟨k,w⟩ :: t₃) →
      request.key = k → id = b ∨ method = .get) →
    .respond g answer ∈ t₃ → answer.value ≠ some v₁

/-- A set of "old" enters at "a"; its first attempt is delayed, its second one is
executed at "b" and acknowledged. -/
def firstWrite : List Label :=
  [.invoke 0 (text "a") .set ⟨text "k",some (text "old")⟩,.startFiber 0 0,.transmit 0,
    .timeout 0,.transmit 0,.deliver 0 1 1,.execute 1,.reply 1]

def secondWrite : List Label :=
  [.invoke 2 (text "b") .set ⟨text "k",some (text "new")⟩,.execute 2]

def delayedAttempt : List Label := [.deliver 0 0 3,.execute 3]

def laterRead : List Label :=
  [.execute 4,.respond 4 ⟨some 0,some (text "ok"),some (text "old")⟩]

abbrev acknowledged : KvResponse := ⟨some 0,some (text "ok"),none⟩

theorem late_run :
    (runFrom twoPeers (.init noEntries) (firstWrite ++ .respond 0 acknowledged ::
      (secondWrite ++ .respond 2 acknowledged ::
        (delayedAttempt ++ .invoke 4 (text "b") .get ⟨text "k",none⟩ :: laterRead)))).isSome := by
  decide

theorem not_noStaleGet :
    ¬ NoStaleGet (.everyPeer (text "a,b")) (fun _ => 1) noEntries := by
  intro h
  obtain ⟨s,hs⟩ := Option.isSome_iff_exists.mp late_run
  refine h _ _ _ _ s 0 2 4 (text "a") (text "b") (text "b") (text "k") (text "old")
    (text "new") none acknowledged acknowledged _ (by decide) hs (by decide) rfl (by decide)
    rfl ?_ (List.mem_cons_of_mem _ (List.mem_singleton_self _)) rfl
  intro id node method request hmem hkey
  simp only [secondWrite, delayedAttempt, laterRead, List.mem_append, List.mem_cons,
    List.not_mem_nil, or_false, reduceCtorEq, false_or, Label.invoke.injEq] at hmem
  rcases hmem with ⟨rfl,-⟩ | ⟨-,-,rfl,-⟩
  · exact Or.inl rfl
  · exact Or.inr rfl

theorem stale_get_late :
    ∃ s u x v y r root node, firstWrite ++ .respond 0 acknowledged ::
        (secondWrite ++ .respond 2 acknowledged ::
          (delayedAttempt ++ .invoke 4 (text "b") .get ⟨text "k",none⟩ :: laterRead)) =
        u ++ .execute x :: (v ++ .execute y :: r) ∧
      Accepted (firstWrite ++ .respond 0 acknowledged ::
        (secondWrite ++ .respond 2 acknowledged ::
          (delayedAttempt ++ .invoke 4 (text "b") .get ⟨text "k",none⟩ :: laterRead)))
        (s : State (Lru Bytes Bytes)) 2 x ∧
      .invoke root node .set ⟨text "k",some (text "old")⟩ ∈
        firstWrite ++ .respond 0 acknowledged :: secondWrite ∧ Under s root y := by
  obtain ⟨s,hs⟩ := Option.isSome_iff_exists.mp late_run
  have hsplit : ∀ l, firstWrite ++ .respond 0 acknowledged :: (secondWrite ++ l) =
      (firstWrite ++ .respond 0 acknowledged :: secondWrite) ++ l := by simp
  rw [hsplit] at hs ⊢
  have hb : .invoke 2 (text "b") .set ⟨text "k",some (text "new")⟩ ∈
      firstWrite ++ .respond 0 acknowledged :: secondWrite := by decide
  have hlast : ∀ id node method request, .invoke id node method request ∈
      delayedAttempt ++ .invoke 4 (text "b") .get ⟨text "k",none⟩ :: laterRead →
      request.key = text "k" → method = .get := by
    intro id node method request hmem _
    simp only [delayedAttempt, laterRead, List.mem_append, List.mem_cons,
      List.not_mem_nil, or_false, reduceCtorEq, false_or, Label.invoke.injEq] at hmem
    exact hmem.2.2.1
  obtain ⟨u,x,v,y,r,root,node,hsplit',hacc,hmem,hunder,-⟩ :=
    stale_get_of_late_execution (Cluster.everyPeer_shared (text "a,b")) 
      (by decide) hs hb rfl hlast (List.mem_cons_of_mem _ (List.mem_singleton_self _)) rfl
  exact ⟨s,u,x,v,y,r,root,node,hsplit',hacc,hmem,hunder⟩

/-- "b" stores "k"; then a remove of it enters at "a", and the reply to its first
attempt is lost. -/
def removedTwice : List Label :=
  [.invoke 0 (text "b") .set ⟨text "k",some (text "v")⟩,.execute 0,
    .respond 0 ⟨some 0,some (text "ok"),none⟩,.invoke 1 (text "a") .remove ⟨text "k",none⟩,
    .startFiber 1 0,.transmit 1,.deliver 1 0 2,.execute 2,.timeout 1,.transmit 1,
    .deliver 1 1 3,.execute 3,.reply 3,.respond 1 ⟨some 5,some (text "not found"),none⟩]

theorem tells_removedTwice :
    ∃ s, runFrom twoPeers (.init noEntries) removedTwice = some s ∧
      Tells (.everyPeer (text "a,b")) (fun _ => 1) noEntries removedTwice s 1 .remove
        ⟨text "k",none⟩ ⟨some 5,some (text "not found"),none⟩ := by
  have hsome : (runFrom twoPeers (.init noEntries) removedTwice).isSome := by decide
  obtain ⟨s,hs⟩ := Option.isSome_iff_exists.mp hsome
  have hinvoke : .invoke 1 (text "a") .remove ⟨text "k",none⟩ ∈ removedTwice := by decide
  exact ⟨s,hs,tells_of_response hs hinvoke (by decide)⟩

/-- The remove is told kNotFound although an attempt of it deleted the entry. -/
theorem notFound_removedTwice :
    (.invoke 1 (text "a") .remove ⟨text "k",none⟩ ∈ removedTwice) ∧
    (.respond 1 ⟨some StatusCode.kNotFound.toInt,some (text "not found"),none⟩ ∈ removedTwice) ∧
    ∃ s u m n, runFrom twoPeers (.init noEntries) removedTwice = some s ∧
      Executes (.everyPeer (text "a,b")) (fun _ => 1) (.init noEntries) removedTwice u 2 m n ∧
      Under s 1 2 ∧ ¬ SameContents m n := by
  have hs : ((runFrom twoPeers (.init noEntries) removedTwice).bind fun s =>
      (s.call 2).map Call.origin) = some (.attempt 1 0) := by decide
  have hm : (runFrom twoPeers (.init noEntries) (removedTwice.take 7)).map
      (fun m => find (m.cache (text "b")) (text "k")) = some (some (text "v")) := by decide
  have hn : ((runFrom twoPeers (.init noEntries) (removedTwice.take 7)).bind fun m =>
      (twoPeers m (.execute 2)).map fun n => find (n.cache (text "b")) (text "k")) =
        some none := by decide
  obtain ⟨s,hs,ho⟩ := Option.bind_eq_some_iff.mp hs
  obtain ⟨sent,hsent,ho⟩ := Option.map_eq_some_iff.mp ho
  obtain ⟨m,hm,hmfind⟩ := Option.map_eq_some_iff.mp hm
  obtain ⟨m',hm',hn⟩ := Option.bind_eq_some_iff.mp hn
  obtain rfl := Option.some.inj (hm'.symm.trans hm)
  obtain ⟨n,hn,hnfind⟩ := Option.map_eq_some_iff.mp hn
  refine ⟨by decide,by decide,s,removedTwice.take 7,m',n,hs,⟨⟨_,rfl⟩,hm,hn⟩,
    .attempt hsent ho (.self 2),fun hsame => ?_⟩
  have hk := hsame (text "b") (text "k")
  rw [hmfind, hnfind] at hk
  cases hk

end EaHalfHour.Retransmission
