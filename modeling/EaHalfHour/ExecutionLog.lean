import EaHalfHour.ClusterRefinement
import EaHalfHour.Retransmission

/-! What is left of the refinement when attempts fail, and lists of peers differ: every
node is an a008 server that runs a log, and clients are answered out of the logs. -/
namespace EaHalfHour.ExecutionLog
open LabelledRun AtomicObject KvMessage KvCache RecencyMap ProxyNode DeliveredRouting
  ClusterNetwork ClusterRefinement ResponseOrigin Retransmission

def executeId : Label → Option CallId
  | .execute id => some id
  | .invoke _ _ _ _ | .startFiber _ _ | .initFails _ | .transmit _ | .timeout _
  | .deliver _ _ _ | .reply _ | .respond _ _ => none

def executed (tr : List Label) : List CallId := tr.filterMap executeId

section Log
variable {σ : Type} {c : Cluster} {hash : Bytes → UInt64} {cache₀ : Bytes → σ}
  {tr : List Label} {s s' : State σ}

theorem mem_executed {id : CallId} : id ∈ executed tr ↔ .execute id ∈ tr := by
  rw [executed, List.mem_filterMap]
  constructor
  · rintro ⟨l,hl,he⟩
    cases l with
    | execute id' =>
      obtain rfl := Option.some.inj he
      exact hl
    | invoke | startFiber | initFails | transmit | timeout | deliver | reply | respond => cases he
  · exact fun h => ⟨_,h,rfl⟩

theorem executed_append (u v : List Label) : executed (u ++ v) = executed u ++ executed v :=
  List.filterMap_append

def entryAt (s : State σ) (a : Bytes) (id : CallId) : Option (CallId × Request) :=
  (s.call id).bind fun call => if call.node = a then some (id,asked call) else none

def logAt (s : State σ) (a : Bytes) (tr : List Label) : List (CallId × Request) :=
  (executed tr).filterMap (entryAt s a)

theorem logAt_append (s : State σ) (a : Bytes) (u v : List Label) :
    logAt s a (u ++ v) = logAt s a u ++ logAt s a v := by
  rw [logAt, executed_append, List.filterMap_append]
  rfl

theorem logAt_execute {a : Bytes} {id : CallId} {call : Call} (hcall : s.call id = some call)
    (ha : call.node = a) (v : List Label) :
    logAt s a (.execute id :: v) = (id,asked call) :: logAt s a v :=
  List.filterMap_cons_some (by rw [entryAt, hcall, Option.bind_some, if_pos ha])

def logged (cache₀ : Bytes → σ) [LRUCache σ] (a : Bytes) (log : List (CallId × Request)) : σ :=
  (replay SingleNode.serve (log.map Prod.snd) (cache₀ a)).2

variable [LRUCache σ]

theorem logged_concat (a : Bytes) (log : List (CallId × Request)) (x : CallId × Request) :
    logged cache₀ a (log ++ [x]) = (SingleNode.serve x.2 (logged cache₀ a log)).2 := by
  rw [logged, List.map_append, replay_append]
  rfl

theorem executed_called (hrun : runFrom (step c hash) (.init cache₀) tr = some s) {id : CallId}
    (hid : id ∈ executed tr) : ∃ call, s.call id = some call := by
  obtain ⟨u,v,rfl⟩ := List.append_of_mem (mem_executed.mp hid)
  obtain ⟨m,n,-,hstep,hv⟩ := run_at hrun
  obtain ⟨_,call,-,hcall,-⟩ := execute_later hstep hv
  exact ⟨call,hcall⟩

theorem logAt_later (hrun : runFrom (step c hash) (.init cache₀) tr = some s) {v : List Label}
    (hv : runFrom (step c hash) s v = some s') (a : Bytes) : logAt s' a tr = logAt s a tr := by
  refine List.filterMap_congr fun id hid => ?_
  obtain ⟨call,hcall⟩ := executed_called hrun hid
  obtain ⟨call',hcall',hsame⟩ := run_keeps hv hcall
  obtain ⟨hnode,hm,hr,-⟩ := Call.identity_eq hsame
  simp only [entryAt, hcall, hcall', Option.bind_some, hnode, asked, hm, hr]

theorem cache_of_quiet {l : Label} (h : Step c hash s l s') (hl : executeId l = none) :
    s'.cache = s.cache := by
  cases h with
  | execute => cases hl
  | invoke | startFiber | initFails | transmit | timeout | deliver | reply | respond => rfl

theorem cache_eq_logged (hrun : runFrom (step c hash) (.init cache₀) tr = some s) (a : Bytes) :
    s.cache a = logged cache₀ a (logAt s a tr) := by
  refine run_invariant (P := fun tr s => s.cache a = logged cache₀ a (logAt s a tr)) rfl ?_ tr s
    hrun
  intro es m l n hm hP hn
  have hkeep : logAt n a es = logAt m a es :=
    logAt_later hm (v := [l]) (by simp [runFrom, hn]) a
  rw [logAt_append, hkeep]
  cases hl : executeId l with
  | none =>
    have hnew : logAt n a [l] = [] := by
      rw [logAt, executed, List.filterMap_cons_none hl]
      rfl
    rw [hnew, List.append_nil, ← hP, cache_of_quiet (step_sound c hash hn) hl]
  | some id =>
    obtain rfl : l = .execute id := by
      cases l <;> cases hl
      rfl
    obtain ⟨sent,-,-,-,-,hcache,hcall⟩ := execute_effect hn
    rw [hcache]
    by_cases ha : sent.node = a
    · rw [logAt_execute hcall ha, show logAt n a [] = [] from rfl, logged_concat, ← hP,
        SingleNode.serve_eq, ← ha, Function.update_self]
      rfl
    · have hnew : logAt n a [.execute id] = [] :=
        List.filterMap_cons_none (by rw [entryAt, hcall, Option.bind_some, if_neg ha])
      rw [hnew, List.append_nil, ← hP, Function.update_of_ne fun h => ha h.symm]

end Log

section Clients
variable {σ : Type} [LRUCache σ] {c : Cluster} {hash : Bytes → UInt64} {cache₀ : Bytes → σ}
  {tr : List Label} {s : State σ}

omit [LRUCache σ] in
theorem under_client {root id : CallId} {call : Call} (h : Under s root id)
    (hcall : s.call id = some call) (hclient : call.origin = .client) : root = id := by
  induction h with
  | self => rfl
  | attempt hsent horigin _ ih =>
    obtain rfl := ih hcall
    obtain rfl := Option.some.inj (hsent.symm.trans hcall)
    rw [hclient] at horigin
    cases horigin

theorem client_invoked (hrun : runFrom (step c hash) (.init cache₀) tr = some s) {id : CallId}
    {call : Call} (hcall : s.call id = some call) (hclient : call.origin = .client) :
    ∃ node, .invoke id node call.method call.request ∈ tr := by
  obtain ⟨root,node,hunder,hmem⟩ := requested_run hrun id call hcall
  obtain rfl := under_client hunder hcall hclient
  exact ⟨node,hmem⟩

/-- The logs of a run. A cache is what its log makes of it; what is in a log is asked by
a client, and its node owns the key; and a client is answered with nothing, or as an
a008 server that has run the log so far answers an entry that stands for its request
and was executed after it was made and before it was answered. -/
structure AtLeastOnce (c : Cluster) (hash : Bytes → UInt64) (cache₀ : Bytes → σ)
    (tr : List Label) (s : State σ) : Prop where
  caches : ∀ a, s.cache a = logged cache₀ a (logAt s a tr)
  asked : ∀ a x, x ∈ logAt s a tr →
    (∃ root node, Under s root x.1 ∧ .invoke root node x.2.1 x.2.2 ∈ tr) ∧
      ∃ p, c.proxy a = some p ∧ p.Owns hash x.2.2.key
  answered : ∀ u id response v, tr = u ++ .respond id response :: v →
    response = {} ∨ ∃ a t x w, logAt s a tr = t ++ x :: w ∧ Accepted tr s id x.1 ∧
      response = (SingleNode.serve x.2 (logged cache₀ a t)).1 ∧
      ∃ u₁ node u₂, u = u₁ ++ .invoke id node x.2.1 x.2.2 :: u₂ ∧ .execute x.1 ∈ u₂

omit [LRUCache σ] in
theorem mem_logAt {a : Bytes} {x : CallId × Request} (hx : x ∈ logAt s a tr) :
    .execute x.1 ∈ tr ∧ ∃ call, s.call x.1 = some call ∧ call.node = a ∧ asked call = x.2 := by
  obtain ⟨id,hid,hentry⟩ := List.mem_filterMap.mp hx
  obtain ⟨call,hcall,hif⟩ := Option.bind_eq_some_iff.mp hentry
  split at hif
  · rename_i ha
    obtain rfl := Option.some.inj hif
    exact ⟨mem_executed.mp hid,call,hcall,ha,rfl⟩
  · cases hif

/-- Whatever becomes of the attempts, and whatever lists the nodes were given, every
run has such logs. -/
theorem atLeastOnce_run (hrun : runFrom (step c hash) (.init cache₀) tr = some s) :
    AtLeastOnce c hash cache₀ tr s := by
  refine ⟨cache_eq_logged hrun,?_,?_⟩
  · intro a x hx
    obtain ⟨hmem,call,hcall,rfl,hasked⟩ := mem_logAt hx
    obtain ⟨root,node,hunder,hinvoke⟩ := requested_run hrun x.1 call hcall
    rw [← hasked]
    refine ⟨⟨root,node,hunder,hinvoke⟩,?_⟩
    obtain ⟨u,v,rfl⟩ := List.append_of_mem hmem
    obtain ⟨m,n,-,hstep,hv⟩ := run_at hrun
    obtain ⟨sent,p,hsent,hp,hown,-⟩ := execute_effect hstep
    obtain ⟨sent',call',hsent',hcall',hsame,-⟩ := execute_later hstep hv
    obtain rfl := Option.some.inj (hsent.symm.trans hsent')
    obtain rfl := Option.some.inj (hcall.symm.trans hcall')
    obtain ⟨hnode,-,hr,-⟩ := Call.identity_eq hsame
    exact ⟨p,by rw [hnode, hp],by rw [asked, hr]; exact hown⟩
  · rintro u id response v rfl
    obtain ⟨m,n,hm,hstep,hn⟩ := run_at hrun
    have hlast : runFrom (step c hash) m (.respond id response :: v) = some s :=
      (runFrom_cons_iff _ _ _ _).mpr ⟨n,hstep,hn⟩
    obtain ⟨call,hcall,hclient,hres⟩ : ∃ call, m.call id = some call ∧ call.origin = .client ∧
        call.phase.result = some response := by
      cases step_sound c hash hstep with
      | respond hcall hclient hphase => exact ⟨_,hcall,hclient,by rw [hphase]; rfl⟩
    rcases response_origin hm hcall hres with rfl | ⟨t,e,m',n',sent,hexec,hacc,hsent,he⟩
    · exact Or.inl rfl
    · -- the entry of the execution that answered
      obtain ⟨sent',call',hsent',hcall',hsame,-⟩ := executes_result hm hexec
      obtain rfl := Option.some.inj (hsent.symm.trans hsent')
      obtain ⟨call'',hcall'',hsame'⟩ := run_keeps hlast hcall'
      obtain ⟨hnode,hmethod,hrequest,-⟩ := Call.identity_eq (hsame'.trans hsame)
      have hasked : asked call'' = asked sent :=
        Prod.ext hmethod hrequest
      obtain ⟨v',rfl⟩ := hexec.split
      obtain ⟨m₁,hm₁,hrest⟩ := (runFrom_append_iff _ _ _ _).mp hm
      obtain rfl := Option.some.inj (hm₁.symm.trans hexec.before)
      have hbefore := logAt_later hm₁ ((runFrom_append_iff _ _ _ _).mpr ⟨m,hrest,hlast⟩) sent.node
      refine Or.inr ⟨sent.node,logAt s sent.node t,(e,asked sent),
        logAt s sent.node (v' ++ .respond id response :: v),?_,hacc.later hlast,?_,?_⟩
      · rw [List.append_assoc, List.cons_append, logAt_append, logAt_execute hcall'' hnode, hasked]
      · rw [hbefore, ← cache_eq_logged hm₁, SingleNode.serve_eq]
        exact he
      · obtain ⟨node,hinvoke⟩ := client_invoked hm hcall hclient
        obtain ⟨hm',hr'⟩ := (routed_run hm).under_same hacc.under hcall hcall'
        obtain ⟨-,hm'',hr'',-⟩ := Call.identity_eq hsame
        have hop : asked sent = (call.method,call.request) :=
          Prod.ext (hm''.symm.trans hm') (hr''.symm.trans hr')
        obtain ⟨t₁,t₂,hsplit⟩ := List.append_of_mem hinvoke
        rw [hsplit] at hm hexec
        obtain ⟨w,rfl⟩ := executed_after_invoke hm hexec hacc.under
        refine ⟨t₁,node,w ++ .execute e :: v',?_,by simp⟩
        rw [hop]
        simp

end Clients

theorem atLeastOnce_removedTwice :
    ∃ s, runFrom twoPeers (.init noEntries) removedTwice = some s ∧
      AtLeastOnce (.everyPeer (text "a,b")) (fun _ => 1) noEntries removedTwice s := by
  have hsome : (runFrom twoPeers (.init noEntries) removedTwice).isSome := by decide
  obtain ⟨s,hs⟩ := Option.isSome_iff_exists.mp hsome
  exact ⟨s,hs,atLeastOnce_run hs⟩

end EaHalfHour.ExecutionLog
