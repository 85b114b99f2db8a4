import EaHalfHour.ClusterNetwork

/-! Where the response of a call comes from: the execution, at some node, of the
call itself or of an attempt whose reply its sender took. -/
namespace EaHalfHour.ResponseOrigin
open LabelledRun KvMessage KvCache ProxyNode DeliveredRouting ClusterNetwork
variable {σ : Type} [LRUCache σ] {c : Cluster} {hash : Bytes → UInt64}
  {cache₀ : Bytes → σ} {tr : List Label} {s s' : State σ}

/-- Call `e` is `root`, or is under it through replies that were taken. -/
inductive Accepted (tr : List Label) (s : State σ) : CallId → CallId → Prop where
  | self (id : CallId) : Accepted tr s id id
  | attempt {root child e : CallId} {sent : Call} {r : Nat} : s.call child = some sent →
      sent.origin = .attempt root r → .reply child ∈ tr → Accepted tr s child e →
      Accepted tr s root e

omit [LRUCache σ] in
theorem Accepted.under {root e : CallId} (h : Accepted tr s root e) : Under s root e := by
  induction h with
  | self => exact .self _
  | attempt hsent horigin _ _ ih => exact .attempt hsent horigin ih

theorem Accepted.later {root e : CallId} {l : List Label} (h : Accepted tr s root e)
    (hrun : runFrom (step c hash) s l = some s') : Accepted (tr ++ l) s' root e := by
  induction h with
  | self => exact .self _
  | attempt hsent horigin hmem _ ih =>
    obtain ⟨sent',hsent',hsame⟩ := run_keeps hrun hsent
    obtain ⟨-,-,-,ho⟩ := Call.identity_eq hsame
    exact .attempt hsent' (ho.trans horigin) (List.mem_append_left _ hmem) ih

structure Executes (c : Cluster) (hash : Bytes → UInt64) (s₀ : State σ) (tr : List Label)
    (u : List Label) (e : CallId) (m n : State σ) : Prop where
  split : ∃ v, tr = u ++ .execute e :: v
  before : runFrom (step c hash) s₀ u = some m
  taken : step c hash m (.execute e) = some n

theorem Executes.later {s₀ m n : State σ} {u : List Label} {e : CallId}
    (h : Executes c hash s₀ tr u e m n) (l : List Label) :
    Executes c hash s₀ (tr ++ l) u e m n := by
  obtain ⟨v,hv⟩ := h.split
  exact ⟨⟨v ++ l,by rw [hv]; simp⟩,h.before,h.taken⟩

theorem execute_effect {m n : State σ} {e : CallId} (h : step c hash m (.execute e) = some n) :
    ∃ sent p, m.call e = some sent ∧ c.proxy sent.node = some p ∧
      p.Owns hash sent.request.key ∧
      n.cache = Function.update m.cache sent.node
        (Cache.run sent.method sent.request {} (m.cache sent.node)).2 ∧
      n.call e = some { sent with
        phase := .returned .okStatus
          (Cache.run sent.method sent.request {} (m.cache sent.node)).1 } := by
  cases step_sound c hash h with
  | @execute _ call p hcall _ hp hown =>
    exact ⟨call,p,hcall,hp,hown,rfl,Function.update_self e _ m.call⟩

theorem response_origin (hrun : runFrom (step c hash) (.init cache₀) tr = some s)
    {id : CallId} {call : Call} {response : KvResponse} (hcall : s.call id = some call)
    (hres : call.phase.result = some response) :
    response = {} ∨ ∃ u e m n sent, Executes c hash (.init cache₀) tr u e m n ∧
      Accepted tr s id e ∧ m.call e = some sent ∧
      response = (Cache.run sent.method sent.request {} (m.cache sent.node)).1 := by
  refine run_invariant (P := fun tr s => ∀ id call response, s.call id = some call →
    call.phase.result = some response → response = {} ∨ ∃ u e m n sent,
      Executes c hash (.init cache₀) tr u e m n ∧ Accepted tr s id e ∧
      m.call e = some sent ∧
      response = (Cache.run sent.method sent.request {} (m.cache sent.node)).1)
    (fun id call response hcall => by cases hcall) ?_ tr s hrun id call response hcall hres
  intro es m l n hm hP hn id call' response hcall' hres
  have hone : runFrom (step c hash) m [l] = some n := by simp [runFrom, hn]
  have hstep := step_sound c hash hn
  rcases step_result hstep hcall' hres with
    ⟨call,hcall,-,hres'⟩ | ⟨call,p,rfl,hcall,-,-,-,he⟩ | he | ⟨child,sent,r,rfl,hsent,ho,hres'⟩
  · rcases hP id call response hcall hres' with he | ⟨u,e,m',n',sent,hexec,hacc,hsent,he⟩
    · exact Or.inl he
    · exact Or.inr ⟨u,e,m',n',sent,hexec.later [l],hacc.later hone,hsent,he⟩
  · exact Or.inr ⟨es,id,m,n,call,⟨⟨[],rfl⟩,hm,hn⟩,.self id,hcall,he⟩
  · exact Or.inl he
  · rcases hP child sent response hsent hres' with he | ⟨u,e,m',n',sent',hexec,hacc,hsent',he⟩
    · exact Or.inl he
    · obtain ⟨sent'',hsent'',hsame⟩ := step_keeps hstep hsent
      obtain ⟨-,-,-,ho'⟩ := Call.identity_eq hsame
      exact Or.inr ⟨u,e,m',n',sent',hexec.later _,
        .attempt hsent'' (ho'.trans ho) (by simp) (hacc.later hone),hsent',he⟩

/-- A reply that a sender takes, and so the response `ForwardedStatus.FilledIn` has from
the first attempt that succeeds, was written by some node's Cache. -/
theorem reply_written (hrun : runFrom (step c hash) (.init cache₀) tr = some s) {child : CallId}
    (hstep : step c hash s (.reply child) = some s') :
    ∃ root call, ∃ w : Reply, s'.call root = some call ∧ call.phase.result = some w.parse ∧
      ∃ u e m n sent, Executes c hash (.init cache₀) tr u e m n ∧ Accepted tr s child e ∧
        m.call e = some sent ∧
        w.parse = (Cache.run sent.method sent.request {} (m.cache sent.node)).1 := by
  have hs := step_sound c hash hstep
  cases hs with
  | @reply _ parent call sender r rs response w hcall ho hphase hwire hsender hwait =>
    refine ⟨parent,_,w,Function.update_self parent _ s.call,rfl,?_⟩
    have hres : call.phase.result = some w.parse := by
      rw [hphase, wire_parse hwire]
      rfl
    rcases response_origin hrun hcall hres with hempty | hwritten
    · -- an empty response has no code, so it would not have been sent
      have hinit := w.parse_isInitialized
      rw [hempty] at hinit
      exact absurd hinit (by decide)
    · exact hwritten

theorem replied_run (hrun : runFrom (step c hash) (.init cache₀) tr = some s) {child : CallId}
    (hmem : .reply child ∈ tr) :
    ∃ sent root r call response, s.call child = some sent ∧ sent.origin = .attempt root r ∧
      s.call root = some call ∧ sent.phase.result = some response ∧
      call.phase.result = some response := by
  obtain ⟨u,v,rfl⟩ := List.append_of_mem hmem
  obtain ⟨m,n,hu,hstep,hv⟩ := run_at hrun
  obtain ⟨sent,root,r,sender,response,hsent,ho,hres,hsender,hres'⟩ :
      ∃ sent root r call response, n.call child = some sent ∧ sent.origin = .attempt root r ∧
        sent.phase.result = some response ∧ n.call root = some call ∧
        call.phase.result = some response := by
    have hs := step_sound c hash hstep
    cases hs with
    | @reply _ parent call sender r rs response w hcall ho hphase hwire hsender hwait =>
      have hne : child ≠ parent := by
        rintro rfl
        obtain rfl := Option.some.inj (hcall.symm.trans hsender)
        rw [hwait] at hphase
        cases hphase
      refine ⟨call,parent,r,_,w.parse,?_,ho,?_,Function.update_self parent _ m.call,rfl⟩
      · simpa [hne] using hcall
      · rw [hphase, wire_parse hwire]
        rfl
  obtain ⟨sent₁,hsent₁,hsame⟩ := run_keeps hv hsent
  obtain ⟨sent₂,hsent₂,hres₂⟩ := run_result_stays hv hsent hres
  obtain rfl := Option.some.inj (hsent₁.symm.trans hsent₂)
  obtain ⟨-,-,-,ho₁⟩ := Call.identity_eq hsame
  obtain ⟨sender₁,hsender₁,hres₁⟩ := run_result_stays hv hsender hres'
  exact ⟨sent₁,root,r,sender₁,response,hsent₁,ho₁.trans ho,hsender₁,hres₂,hres₁⟩

theorem accepted_response (hrun : runFrom (step c hash) (.init cache₀) tr = some s)
    {root e : CallId} (h : Accepted tr s root e) {sent : Call} {response : KvResponse}
    (hsent : s.call e = some sent) (hres : sent.phase.result = some response) :
    ∃ call, s.call root = some call ∧ call.phase.result = some response := by
  induction h with
  | self => exact ⟨sent,hsent,hres⟩
  | attempt hchild horigin hmem _ ih =>
    obtain ⟨call,hcall,hres'⟩ := ih hsent
    obtain ⟨sent₁,root₁,r₁,call₁,response₁,hsent₁,ho₁,hcall₁,hr₁,hr₁'⟩ := replied_run hrun hmem
    obtain rfl := Option.some.inj (hcall.symm.trans hchild)
    obtain rfl := Option.some.inj (hcall.symm.trans hsent₁)
    obtain ⟨rfl,rfl⟩ := Origin.attempt.inj (ho₁.symm.trans horigin)
    obtain rfl := Option.some.inj (hr₁.symm.trans hres')
    exact ⟨call₁,hcall₁,hr₁'⟩

theorem invoked_run (hrun : runFrom (step c hash) (.init cache₀) tr = some s) {id : CallId}
    {node : Bytes} {method : Method} {request : KvRequest}
    (hmem : .invoke id node method request ∈ tr) :
    ∃ call, s.call id = some call ∧ call.identity = (node,method,request,.client) := by
  obtain ⟨u,v,rfl⟩ := List.append_of_mem hmem
  obtain ⟨m,n,-,hstep,hv⟩ := run_at hrun
  have hnew : ∃ call, n.call id = some call ∧
      call.identity = (node,method,request,.client) := by
    cases step_sound c hash hstep with
    | invoke => exact ⟨_,Function.update_self id _ m.call,rfl⟩
  obtain ⟨call,hcall,hid⟩ := hnew
  obtain ⟨call',hcall',hsame⟩ := run_keeps hv hcall
  exact ⟨call',hcall',hsame.trans hid⟩

theorem respond_before {m n : State σ} {id : CallId} {response : KvResponse}
    (h : step c hash m (.respond id response) = some n) :
    ∃ call, m.call id = some call ∧ call.phase.result = some response := by
  cases step_sound c hash h with
  | respond hcall _ hphase => exact ⟨_,hcall,by rw [hphase]; rfl⟩

theorem responded_run (hrun : runFrom (step c hash) (.init cache₀) tr = some s) {id : CallId}
    {response : KvResponse} (hmem : .respond id response ∈ tr) :
    ∃ call, s.call id = some call ∧ call.phase.result = some response := by
  obtain ⟨u,v,rfl⟩ := List.append_of_mem hmem
  obtain ⟨m,n,-,hstep,hv⟩ := run_at hrun
  obtain ⟨call,hcall,hres⟩ := respond_before hstep
  obtain ⟨call',hcall',hres'⟩ := step_result_stays (step_sound c hash hstep) hcall hres
  exact run_result_stays hv hcall' hres'

theorem execute_later {m n : State σ} {e : CallId} {w : List Label}
    (h : step c hash m (.execute e) = some n) (hrun : runFrom (step c hash) n w = some s) :
    ∃ sent call, m.call e = some sent ∧ s.call e = some call ∧
      call.identity = sent.identity ∧
      n.cache = Function.update m.cache sent.node
        (Cache.run sent.method sent.request {} (m.cache sent.node)).2 ∧
      call.phase.result =
        some (Cache.run sent.method sent.request {} (m.cache sent.node)).1 := by
  obtain ⟨sent,p,hsent,-,-,hcache,hn⟩ := execute_effect h
  obtain ⟨call,hcall,hsame⟩ := run_keeps hrun hn
  obtain ⟨call',hcall',hres⟩ := run_result_stays hrun hn rfl
  obtain rfl := Option.some.inj (hcall.symm.trans hcall')
  exact ⟨sent,call,hsent,hcall,hsame,hcache,hres⟩

theorem executes_result {u : List Label} {e : CallId} {m n : State σ}
    (hrun : runFrom (step c hash) (.init cache₀) tr = some s)
    (h : Executes c hash (.init cache₀) tr u e m n) :
    ∃ sent call, m.call e = some sent ∧ s.call e = some call ∧
      call.identity = sent.identity ∧
      call.phase.result =
        some (Cache.run sent.method sent.request {} (m.cache sent.node)).1 := by
  obtain ⟨v,rfl⟩ := h.split
  obtain ⟨m',n',hu,hstep,hv⟩ := run_at hrun
  obtain rfl := Option.some.inj (hu.symm.trans h.before)
  obtain rfl := Option.some.inj (hstep.symm.trans h.taken)
  obtain ⟨sent,call,hsent,hcall,hsame,-,hres⟩ := execute_later h.taken hv
  exact ⟨sent,call,hsent,hcall,hsame,hres⟩

/-- Executing a call that is under another one runs the request of that other one at
an owner of its key. Once the reply has been taken, its answer is the response. -/
theorem executes_under {u : List Label} {root e : CallId} {m n : State σ} {call : Call}
    (hrun : runFrom (step c hash) (.init cache₀) tr = some s)
    (h : Executes c hash (.init cache₀) tr u e m n) (hu : Under s root e)
    (hcall : s.call root = some call) :
    ∃ a p, c.proxy a = some p ∧ p.Owns hash call.request.key ∧
      n.cache = Function.update m.cache a
        (Cache.run call.method call.request {} (m.cache a)).2 ∧
      ∀ response, Accepted tr s root e → call.phase.result = some response →
        response = (Cache.run call.method call.request {} (m.cache a)).1 := by
  obtain ⟨sent,last,hsent,hlast,hsame,hresult⟩ := executes_result hrun h
  obtain ⟨-,hm,hr,-⟩ := Call.identity_eq hsame
  obtain ⟨hm',hr'⟩ := (routed_run hrun).under_same hu hcall hlast
  have hmethod : sent.method = call.method := hm.symm.trans hm'
  have hrequest : sent.request = call.request := hr.symm.trans hr'
  obtain ⟨sent',p,hsent',hp,hown,hcache,-⟩ := execute_effect h.taken
  obtain rfl := Option.some.inj (hsent.symm.trans hsent')
  rw [hmethod, hrequest] at hresult hcache
  rw [hrequest] at hown
  refine ⟨sent.node,p,hp,hown,hcache,fun response hacc hres => ?_⟩
  obtain ⟨call',hcall',hres'⟩ := accepted_response hrun hacc hlast hresult
  obtain rfl := Option.some.inj (hcall.symm.trans hcall')
  exact Option.some.inj (hres.symm.trans hres')

end EaHalfHour.ResponseOrigin
