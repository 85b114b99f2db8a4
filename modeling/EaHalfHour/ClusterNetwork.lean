import EaHalfHour.AtomicObject
import EaHalfHour.DeliveredRouting

/-! The a010 cluster as interleaved steps of its calls. A message may be lost,
delayed or executed after its sender gave up on it; a call at one node may be
waiting for a call at another. One Cache member is one step. -/
namespace EaHalfHour.ClusterNetwork
open LabelledRun AtomicObject KvMessage KvCache SendLoop ProxyNode DeliveredRouting

abbrev CallId := Nat

inductive Origin where
  | client
  | attempt (parent : CallId) (retryTime : Nat)
deriving DecidableEq

/-- Where a call of KvProxy is: just entered; in its fiber, about to run the body
of the retry loop, or waiting in CallMethod; returned to its handler; and, for a
client's call, answered. -/
inductive Phase where
  | entered
  | sending (retryTime : Nat)
  | waiting (retryTime : Nat)
  | returned (status : Status) (response : KvResponse)
  | answered (status : Status) (response : KvResponse)
deriving DecidableEq

structure Call where
  node : Bytes
  method : Method
  request : KvRequest
  origin : Origin
  phase : Phase
deriving DecidableEq

structure State (σ : Type) where
  cache : Bytes → σ
  call : CallId → Option Call
  network : List (CallId × Nat)

/-- `startFiber` carries what fiber_start_urgent returned. `timeout` is any failed
CallMethod, whether or not its message was, or will be, executed. -/
inductive Label where
  | invoke (id : CallId) (node : Bytes) (method : Method) (request : KvRequest)
  | execute (id : CallId)
  | startFiber (id : CallId) (ret : Int)
  | initFails (id : CallId)
  | transmit (id : CallId)
  | timeout (id : CallId)
  | deliver (parent : CallId) (retryTime : Nat) (id : CallId)
  | reply (id : CallId)
  | respond (id : CallId) (response : KvResponse)
deriving DecidableEq

/-- How a turn of the retry loop moves the call: KvProxy drops the loop's status. -/
def Phase.after : Turn → Phase
  | .done _ response => .returned .okStatus response
  | .again retryTime => .sending retryTime

variable {σ : Type}

def State.setPhase (s : State σ) (id : CallId) (call : Call) (phase : Phase) : State σ :=
  { s with call := Function.update s.call id (some { call with phase }) }

def State.addCall (s : State σ) (id : CallId) (call : Call) : State σ :=
  { s with call := Function.update s.call id (some call) }

def State.setCache (s : State σ) (node : Bytes) (cache : σ) : State σ :=
  { s with cache := Function.update s.cache node cache }

def State.setNetwork (s : State σ) (network : List (CallId × Nat)) : State σ :=
  { s with network }

def State.init (cache : Bytes → σ) : State σ := ⟨cache,fun _ => none,[]⟩

/-! Each update touches one field. -/

@[simp] theorem setPhase_cache (s : State σ) (id : CallId) (call : Call) (phase : Phase) :
    (s.setPhase id call phase).cache = s.cache := rfl
@[simp] theorem setPhase_network (s : State σ) (id : CallId) (call : Call) (phase : Phase) :
    (s.setPhase id call phase).network = s.network := rfl
@[simp] theorem setPhase_call (s : State σ) (id : CallId) (call : Call) (phase : Phase) :
    (s.setPhase id call phase).call = Function.update s.call id (some { call with phase }) :=
  rfl
@[simp] theorem addCall_cache (s : State σ) (id : CallId) (call : Call) :
    (s.addCall id call).cache = s.cache := rfl
@[simp] theorem addCall_network (s : State σ) (id : CallId) (call : Call) :
    (s.addCall id call).network = s.network := rfl
@[simp] theorem addCall_call (s : State σ) (id : CallId) (call : Call) :
    (s.addCall id call).call = Function.update s.call id (some call) := rfl
@[simp] theorem setCache_cache (s : State σ) (node : Bytes) (cache : σ) :
    (s.setCache node cache).cache = Function.update s.cache node cache := rfl
@[simp] theorem setCache_network (s : State σ) (node : Bytes) (cache : σ) :
    (s.setCache node cache).network = s.network := rfl
@[simp] theorem setCache_call (s : State σ) (node : Bytes) (cache : σ) :
    (s.setCache node cache).call = s.call := rfl
@[simp] theorem setNetwork_cache (s : State σ) (network : List (CallId × Nat)) :
    (s.setNetwork network).cache = s.cache := rfl
@[simp] theorem setNetwork_network (s : State σ) (network : List (CallId × Nat)) :
    (s.setNetwork network).network = network := rfl
@[simp] theorem setNetwork_call (s : State σ) (network : List (CallId × Nat)) :
    (s.setNetwork network).call = s.call := rfl

variable [LRUCache σ] (c : Cluster) (hash : Bytes → UInt64)

def step (s : State σ) : Label → Option (State σ)
  | .invoke id node method request =>
    if (c.proxy node).isSome ∧ s.call id = none then
      some (s.addCall id ⟨node,method,request,.client,.entered⟩)
    else none
  | .execute id => do
    let call ← s.call id
    let p ← c.proxy call.node
    if call.phase = .entered ∧ p.Owns hash call.request.key then
      let out := Cache.run call.method call.request {} (s.cache call.node)
      some ((s.setCache call.node out.2).setPhase id call (.returned .okStatus out.1))
    else none
  | .startFiber id ret => do
    let call ← s.call id
    let p ← c.proxy call.node
    if call.phase = .entered ∧ ¬ p.Owns hash call.request.key then
      -- after a failed start, join of the unset id is taken to return
      some (s.setPhase id call (if ret = 0 then .sending 0 else .returned .okStatus {}))
    else none
  | .initFails id => do
    let call ← s.call id
    match call.phase with
    | .sending r => some (s.setPhase id call (.after (turn kRetryTimes {} r .initFails)))
    | _ => none
  | .transmit id => do
    let call ← s.call id
    match call.phase with
    | .sending r => some ((s.setNetwork ((id,r) :: s.network)).setPhase id call (.waiting r))
    | _ => none
  | .timeout id => do
    let call ← s.call id
    match call.phase with
    | .waiting r => some (s.setPhase id call (.after (turn kRetryTimes {} r .callFails)))
    | _ => none
  | .deliver parent r id => do
    let sender ← s.call parent
    let p ← c.proxy sender.node
    let peer := p.target hash sender.request.key
    if (parent,r) ∈ s.network ∧ (c.proxy peer).isSome ∧ s.call id = none then
      some ((s.setNetwork (s.network.erase (parent,r))).addCall id
        ⟨peer,sender.method,sender.request,.attempt parent r,.entered⟩)
    else none
  | .reply id => do
    let call ← s.call id
    match call.origin, call.phase with
    | .attempt parent r, .returned rs response => do
      let w ← KvServiceimpl.wire rs response
      let sender ← s.call parent
      if sender.phase = .waiting r then
        some (s.setPhase parent sender (.after (turn kRetryTimes {} r (.replies w))))
      else none
    | _, _ => none
  | .respond id response => do
    let call ← s.call id
    match call.origin, call.phase with
    | .client, .returned rs response' =>
      if response = response' then some (s.setPhase id call (.answered rs response')) else none
    | _, _ => none

inductive Step (s : State σ) : Label → State σ → Prop where
  | invoke {id : CallId} {node : Bytes} {method : Method} {request : KvRequest} :
      (c.proxy node).isSome → s.call id = none →
      Step s (.invoke id node method request)
        (s.addCall id ⟨node,method,request,.client,.entered⟩)
  | execute {id : CallId} {call : Call} {p : KvProxy} : s.call id = some call →
      call.phase = .entered → c.proxy call.node = some p → p.Owns hash call.request.key →
      Step s (.execute id)
        ((s.setCache call.node (Cache.run call.method call.request {} (s.cache call.node)).2).setPhase
          id call (.returned .okStatus
            (Cache.run call.method call.request {} (s.cache call.node)).1))
  | startFiber {id : CallId} {call : Call} {p : KvProxy} (ret : Int) : s.call id = some call →
      call.phase = .entered → c.proxy call.node = some p → ¬ p.Owns hash call.request.key →
      Step s (.startFiber id ret)
        (s.setPhase id call (if ret = 0 then .sending 0 else .returned .okStatus {}))
  | initFails {id : CallId} {call : Call} {r : Nat} : s.call id = some call →
      call.phase = .sending r →
      Step s (.initFails id)
        (s.setPhase id call (.after (turn kRetryTimes {} r .initFails)))
  | transmit {id : CallId} {call : Call} {r : Nat} : s.call id = some call →
      call.phase = .sending r →
      Step s (.transmit id)
        ((s.setNetwork ((id,r) :: s.network)).setPhase id call (.waiting r))
  | timeout {id : CallId} {call : Call} {r : Nat} : s.call id = some call →
      call.phase = .waiting r →
      Step s (.timeout id) (s.setPhase id call (.after (turn kRetryTimes {} r .callFails)))
  | deliver {parent id : CallId} {r : Nat} {sender : Call} {p : KvProxy} :
      s.call parent = some sender → c.proxy sender.node = some p → (parent,r) ∈ s.network →
      (c.proxy (p.target hash sender.request.key)).isSome → s.call id = none →
      Step s (.deliver parent r id)
        ((s.setNetwork (s.network.erase (parent,r))).addCall id
          ⟨p.target hash sender.request.key,sender.method,sender.request,.attempt parent r,
            .entered⟩)
  | reply {id parent : CallId} {call sender : Call} {r : Nat} {rs : Status}
      {response : KvResponse} {w : Reply} : s.call id = some call →
      call.origin = .attempt parent r → call.phase = .returned rs response →
      KvServiceimpl.wire rs response = some w → s.call parent = some sender →
      sender.phase = .waiting r →
      Step s (.reply id) (s.setPhase parent sender (.returned .okStatus w.parse))
  | respond {id : CallId} {call : Call} {rs : Status} {response : KvResponse} :
      s.call id = some call → call.origin = .client → call.phase = .returned rs response →
      Step s (.respond id response) (s.setPhase id call (.answered rs response))

theorem step_sound {s s' : State σ} {l : Label} (h : step c hash s l = some s') :
    Step c hash s l s' := by
  cases l with
  | invoke id node method request =>
    simp only [step] at h
    split at h
    · rename_i hc
      cases h
      exact .invoke hc.1 hc.2
    · cases h
  | execute id =>
    simp only [step, Option.bind_eq_bind, Option.bind_eq_some_iff] at h
    obtain ⟨call,hcall,p,hp,h⟩ := h
    split at h
    · rename_i hc
      cases h
      exact .execute hcall hc.1 hp hc.2
    · cases h
  | startFiber id ret =>
    simp only [step, Option.bind_eq_bind, Option.bind_eq_some_iff] at h
    obtain ⟨call,hcall,p,hp,h⟩ := h
    split at h
    · rename_i hc
      obtain rfl := Option.some.inj h
      exact .startFiber ret hcall hc.1 hp hc.2
    · cases h
  | initFails id =>
    simp only [step, Option.bind_eq_bind, Option.bind_eq_some_iff] at h
    obtain ⟨call,hcall,h⟩ := h
    split at h
    · rename_i hphase
      obtain rfl := Option.some.inj h
      exact .initFails hcall hphase
    · cases h
  | transmit id =>
    simp only [step, Option.bind_eq_bind, Option.bind_eq_some_iff] at h
    obtain ⟨call,hcall,h⟩ := h
    split at h
    · rename_i hphase
      obtain rfl := Option.some.inj h
      exact .transmit hcall hphase
    · cases h
  | timeout id =>
    simp only [step, Option.bind_eq_bind, Option.bind_eq_some_iff] at h
    obtain ⟨call,hcall,h⟩ := h
    split at h
    · rename_i hphase
      obtain rfl := Option.some.inj h
      exact .timeout hcall hphase
    · cases h
  | deliver parent r id =>
    simp only [step, Option.bind_eq_bind, Option.bind_eq_some_iff] at h
    obtain ⟨sender,hsender,p,hp,h⟩ := h
    split at h
    · rename_i hc
      obtain rfl := Option.some.inj h
      exact .deliver hsender hp hc.1 hc.2.1 hc.2.2
    · cases h
  | reply id =>
    simp only [step, Option.bind_eq_bind, Option.bind_eq_some_iff] at h
    obtain ⟨call,hcall,h⟩ := h
    split at h
    · rename_i horigin hphase
      simp only [Option.bind_eq_some_iff] at h
      obtain ⟨w,hw,sender,hsender,h⟩ := h
      split at h
      · rename_i hwait
        obtain rfl := Option.some.inj h
        exact .reply hcall horigin hphase hw hsender hwait
      · cases h
    · cases h
  | respond id response =>
    simp only [step, Option.bind_eq_bind, Option.bind_eq_some_iff] at h
    obtain ⟨call,hcall,h⟩ := h
    split at h
    · rename_i horigin hphase
      split at h
      · rename_i he
        obtain rfl := Option.some.inj h
        subst he
        exact .respond hcall horigin hphase
      · cases h
    · cases h

theorem step_complete {s s' : State σ} {l : Label} (h : Step c hash s l s') :
    step c hash s l = some s' := by
  cases h with
  | invoke hnode hnone => simp [step, hnode, hnone]
  | execute hcall hphase hp howns => simp [step, hcall, hphase, hp, howns]
  | startFiber ret hcall hphase hp hnot => simp [step, hcall, hphase, hp, hnot]
  | initFails hcall hphase => simp [step, hcall, hphase]
  | transmit hcall hphase => simp [step, hcall, hphase]
  | timeout hcall hphase => simp [step, hcall, hphase]
  | deliver hsender hp hmem hpeer hnone => simp [step, hsender, hp, hmem, hpeer, hnone]
  | reply hcall horigin hphase hw hsender hwait =>
    simp [step, hcall, horigin, hphase, hw, hsender, hwait, turn, Phase.after]
  | respond hcall horigin hphase => simp [step, hcall, horigin, hphase]

section Facts
variable {c hash} {s s' : State σ} {l : Label}

def Call.identity (call : Call) : Bytes × Method × KvRequest × Origin :=
  (call.node,call.method,call.request,call.origin)

theorem Call.identity_eq {call call' : Call} (h : call.identity = call'.identity) :
    call.node = call'.node ∧ call.method = call'.method ∧ call.request = call'.request ∧
      call.origin = call'.origin := by
  simpa [Call.identity] using h

def Phase.result : Phase → Option KvResponse
  | .returned _ response | .answered _ response => some response
  | .entered | .sending _ | .waiting _ => none

theorem after_failed_result {r : Nat} {a : Attempt} (ha : a.failed = true)
    {response : KvResponse} (h : (Phase.after (turn kRetryTimes {} r a)).result = some response) :
    response = {} := by
  rw [turn_failed kRetryTimes {} r ha] at h
  by_cases hlt : ((r + 1 : Nat) : Int) < kRetryTimes
  · rw [if_pos hlt] at h
    cases h
  · rw [if_neg hlt] at h
    exact (Option.some.inj h).symm

def Phase.sends : Phase → Prop
  | .sending _ | .waiting _ => True
  | .entered | .returned _ _ | .answered _ _ => False

def Forwards (c : Cluster) (hash : Bytes → UInt64) (call : Call) : Prop :=
  ∃ p, c.proxy call.node = some p ∧ ¬ p.Owns hash call.request.key

inductive Joins (c : Cluster) (hash : Bytes → UInt64) (s : State σ) :
    Label → CallId → Call → Prop where
  | client {id : CallId} {node : Bytes} {method : Method} {request : KvRequest} :
      Joins c hash s (.invoke id node method request) id
        ⟨node,method,request,.client,.entered⟩
  | attempt {parent id : CallId} {r : Nat} {sender : Call} {p : KvProxy} :
      s.call parent = some sender → c.proxy sender.node = some p → (parent,r) ∈ s.network →
      Joins c hash s (.deliver parent r id) id
        ⟨p.target hash sender.request.key,sender.method,sender.request,.attempt parent r,
          .entered⟩

theorem step_touches (h : Step c hash s l s') :
    ∃ i new, s'.call = Function.update s.call i (some new) ∧
      ((s.call i = none ∧ Joins c hash s l i new) ∨
        ∃ old, s.call i = some old ∧ new.identity = old.identity ∧
          (new.phase.sends → old.phase.sends ∨ Forwards c hash old)) := by
  cases h with
  | invoke _ hnone => exact ⟨_,_,rfl,Or.inl ⟨hnone,.client⟩⟩
  | execute hcall => exact ⟨_,_,rfl,Or.inr ⟨_,hcall,rfl,False.elim⟩⟩
  | startFiber _ hcall _ hp hown =>
    exact ⟨_,_,rfl,Or.inr ⟨_,hcall,rfl,fun _ => Or.inr ⟨_,hp,hown⟩⟩⟩
  | initFails hcall hphase =>
    exact ⟨_,_,rfl,Or.inr ⟨_,hcall,rfl,fun _ => Or.inl (by rw [hphase]; trivial)⟩⟩
  | transmit hcall hphase =>
    exact ⟨_,_,rfl,Or.inr ⟨_,hcall,rfl,fun _ => Or.inl (by rw [hphase]; trivial)⟩⟩
  | timeout hcall hphase =>
    exact ⟨_,_,rfl,Or.inr ⟨_,hcall,rfl,fun _ => Or.inl (by rw [hphase]; trivial)⟩⟩
  | deliver hsender hp hmem _ hnone =>
    exact ⟨_,_,rfl,Or.inl ⟨hnone,.attempt hsender hp hmem⟩⟩
  | reply _ _ _ _ hsender => exact ⟨_,_,rfl,Or.inr ⟨_,hsender,rfl,False.elim⟩⟩
  | respond hcall => exact ⟨_,_,rfl,Or.inr ⟨_,hcall,rfl,False.elim⟩⟩

theorem step_keeps (h : Step c hash s l s') {id : CallId} {call : Call}
    (hcall : s.call id = some call) :
    ∃ call', s'.call id = some call' ∧ call'.identity = call.identity := by
  obtain ⟨i,new,he,hi⟩ := step_touches h
  rw [he]
  by_cases hid : id = i
  · subst hid
    rcases hi with ⟨hnone,-⟩ | ⟨old,hold,hsame,-⟩
    · rw [hcall] at hnone
      cases hnone
    · obtain rfl := Option.some.inj (hcall.symm.trans hold)
      exact ⟨new,Function.update_self id (some new) s.call,hsame⟩
  · exact ⟨call,by rw [Function.update_of_ne hid, hcall],rfl⟩

theorem step_network (h : Step c hash s l s') {i : CallId} {r : Nat}
    (hmem : (i,r) ∈ s'.network) :
    (i,r) ∈ s.network ∨ ∃ call, s.call i = some call ∧ call.phase = .sending r := by
  cases h with
  | @transmit id call r' hcall hphase =>
    rcases List.mem_cons.mp hmem with he | hmem
    · obtain ⟨rfl,rfl⟩ := Prod.mk.inj he
      exact Or.inr ⟨call,hcall,hphase⟩
    · exact Or.inl hmem
  | deliver => exact Or.inl (List.mem_of_mem_erase hmem)
  | invoke | execute | startFiber | initFails | timeout | reply | respond => exact Or.inl hmem

theorem step_cache (h : Step c hash s l s') (a : Bytes) :
    s'.cache a = s.cache a ∨ ∃ id call p, l = .execute id ∧ s.call id = some call ∧
      call.node = a ∧ c.proxy a = some p ∧ p.Owns hash call.request.key ∧
      s'.cache a = (Cache.run call.method call.request {} (s.cache a)).2 := by
  cases h with
  | @execute id call p hcall _ hp hown =>
    by_cases ha : a = call.node
    · subst ha
      exact Or.inr ⟨id,call,p,rfl,hcall,rfl,hp,hown,by simp⟩
    · exact Or.inl (by simp [ha])
  | invoke | startFiber | initFails | transmit | timeout | deliver | reply | respond =>
    exact Or.inl rfl

/-- Where a response can come from: it was there before, the call was executed by
this step, the forwarding path gave up and left it empty, or it is the response of
a call that an attempt of this one made. -/
theorem step_result (h : Step c hash s l s') {id : CallId} {call' : Call}
    {response : KvResponse} (hcall' : s'.call id = some call')
    (hres : call'.phase.result = some response) :
    (∃ call, s.call id = some call ∧ call.identity = call'.identity ∧
      call.phase.result = some response) ∨
    (∃ call p, l = .execute id ∧ s.call id = some call ∧ call.identity = call'.identity ∧
      c.proxy call.node = some p ∧ p.Owns hash call.request.key ∧
      response = (Cache.run call.method call.request {} (s.cache call.node)).1) ∨
    response = {} ∨
    (∃ child sent r, l = .reply child ∧ s.call child = some sent ∧
      sent.origin = .attempt id r ∧ sent.phase.result = some response) := by
  have hat : ∀ {i new}, s'.call = Function.update s.call i (some new) →
      (id = i ∧ new = call') ∨ ∃ call, s.call id = some call ∧
        call.identity = call'.identity ∧ call.phase.result = some response := by
    intro i new he
    rw [he] at hcall'
    rcases update_found hcall' with hnew | ⟨-,hold⟩
    · exact Or.inl hnew
    · exact Or.inr ⟨call',hold,rfl,hres⟩
  cases h with
  | @invoke i =>
    rcases hat rfl with ⟨rfl,rfl⟩ | hkept
    · cases hres
    · exact Or.inl hkept
  | @execute i call p hcall _ hp hown =>
    rcases hat rfl with ⟨rfl,rfl⟩ | hkept
    · exact Or.inr (Or.inl ⟨call,p,rfl,hcall,rfl,hp,hown,(Option.some.inj hres).symm⟩)
    · exact Or.inl hkept
  | @startFiber i call _ ret hcall =>
    rcases hat rfl with ⟨rfl,rfl⟩ | hkept
    · by_cases hret : ret = 0
      · simp [hret, Phase.result] at hres
      · simp only [if_neg hret, Phase.result, Option.some.injEq] at hres
        exact Or.inr (Or.inr (Or.inl hres.symm))
    · exact Or.inl hkept
  | @initFails i call r hcall =>
    rcases hat rfl with ⟨rfl,rfl⟩ | hkept
    · exact Or.inr (Or.inr (Or.inl (after_failed_result rfl hres)))
    · exact Or.inl hkept
  | @transmit i call r hcall =>
    rcases hat rfl with ⟨rfl,rfl⟩ | hkept
    · cases hres
    · exact Or.inl hkept
  | @timeout i call r hcall =>
    rcases hat rfl with ⟨rfl,rfl⟩ | hkept
    · exact Or.inr (Or.inr (Or.inl (after_failed_result rfl hres)))
    · exact Or.inl hkept
  | @deliver parent i =>
    rcases hat rfl with ⟨rfl,rfl⟩ | hkept
    · cases hres
    · exact Or.inl hkept
  | @reply i parent call sender r rs resp w hcall horigin hphase hwire hsender =>
    rcases hat rfl with ⟨rfl,rfl⟩ | hkept
    · obtain rfl := Option.some.inj hres
      refine Or.inr (Or.inr (Or.inr ⟨i,call,r,rfl,hcall,horigin,?_⟩))
      rw [hphase, wire_parse hwire]
      rfl
    · exact Or.inl hkept
  | @respond i call rs resp hcall _ hphase =>
    rcases hat rfl with ⟨rfl,rfl⟩ | hkept
    · exact Or.inl ⟨call,hcall,rfl,by rw [hphase]; exact hres⟩
    · exact Or.inl hkept

theorem step_result_stays (h : Step c hash s l s') {id : CallId} {call : Call}
    {response : KvResponse} (hcall : s.call id = some call)
    (hres : call.phase.result = some response) :
    ∃ call', s'.call id = some call' ∧ call'.phase.result = some response := by
  have hother : ∀ {i new}, s'.call = Function.update s.call i (some new) → id ≠ i →
      ∃ call', s'.call id = some call' ∧ call'.phase.result = some response := by
    intro i new he hid
    exact ⟨call,by rw [he, Function.update_of_ne hid, hcall],hres⟩
  have hbusy : ∀ {i old phase}, s.call i = some old → old.phase = phase →
      phase.result = none → id ≠ i := by
    rintro i old phase hold rfl hnone rfl
    obtain rfl := Option.some.inj (hcall.symm.trans hold)
    rw [hres] at hnone
    cases hnone
  have hnew : ∀ {i}, s.call i = none → id ≠ i := by
    rintro i hnone rfl
    rw [hcall] at hnone
    cases hnone
  cases h with
  | invoke _ hnone => exact hother rfl (hnew hnone)
  | execute hold hphase => exact hother rfl (hbusy hold hphase rfl)
  | startFiber _ hold hphase => exact hother rfl (hbusy hold hphase rfl)
  | initFails hold hphase => exact hother rfl (hbusy hold hphase rfl)
  | transmit hold hphase => exact hother rfl (hbusy hold hphase rfl)
  | timeout hold hphase => exact hother rfl (hbusy hold hphase rfl)
  | deliver _ _ _ _ hnone => exact hother rfl (hnew hnone)
  | reply _ _ _ _ hold hphase => exact hother rfl (hbusy hold hphase rfl)
  | @respond i old rs resp hold _ hphase =>
    by_cases hid : id = i
    · subst hid
      obtain rfl := Option.some.inj (hcall.symm.trans hold)
      rw [hphase] at hres
      exact ⟨_,Function.update_self id _ s.call,hres⟩
    · exact hother rfl hid

end Facts

section Invariants
variable {c hash} {s s' : State σ} {cache₀ : Bytes → σ} {tr : List Label}

inductive Under (s : State σ) : CallId → CallId → Prop where
  | self (id : CallId) : Under s id id
  | attempt {root child e : CallId} {sent : Call} {r : Nat} : s.call child = some sent →
      sent.origin = .attempt root r → Under s child e → Under s root e

omit [LRUCache σ] in
theorem Under.trans {root mid e : CallId} (h : Under s root mid) (h' : Under s mid e) :
    Under s root e := by
  induction h with
  | self => exact h'
  | attempt hsent horigin _ ih => exact .attempt hsent horigin (ih h')

theorem Under.kept {l : Label} {root e : CallId} (hs : Step c hash s l s')
    (h : Under s root e) : Under s' root e := by
  induction h with
  | self => exact .self _
  | attempt hsent horigin _ ih =>
    obtain ⟨sent',hsent',hsame⟩ := step_keeps hs hsent
    obtain ⟨-,-,-,ho⟩ := Call.identity_eq hsame
    exact .attempt hsent' (ho.trans horigin) ih

def Requested (tr : List Label) (s : State σ) : Prop :=
  ∀ id call, s.call id = some call →
    ∃ root node, Under s root id ∧ .invoke root node call.method call.request ∈ tr

theorem requested_run (hrun : runFrom (step c hash) (.init cache₀) tr = some s) :
    Requested tr s := by
  refine run_invariant (P := Requested) (fun id call hcall => by cases hcall) ?_ tr s hrun
  intro es m l n _ hm hn id call hcall
  have hstep := step_sound c hash hn
  have hkeep : ∀ j old, m.call j = some old →
      ∃ root node, Under n root j ∧ .invoke root node old.method old.request ∈ es ++ [l] := by
    intro j old hold
    obtain ⟨root,node,hunder,hmem⟩ := hm j old hold
    exact ⟨root,node,hunder.kept hstep,List.mem_append_left _ hmem⟩
  obtain ⟨i,new,he,hi⟩ := step_touches hstep
  have hat := hcall
  rw [he] at hcall
  rcases update_found hcall with ⟨rfl,rfl⟩ | ⟨-,hold⟩
  · rcases hi with ⟨-,hjoin⟩ | ⟨old,hold,hsame,-⟩
    · cases hjoin with
      | @client _ node => exact ⟨id,node,.self id,by simp⟩
      | @attempt parent _ _ sender _ hsender =>
        obtain ⟨root,node,hunder,hmem⟩ := hkeep parent sender hsender
        exact ⟨root,node,hunder.trans (.attempt hat rfl (.self id)),hmem⟩
    · obtain ⟨-,hm',hr',-⟩ := Call.identity_eq hsame
      rw [hm', hr']
      exact hkeep id old hold
  · exact hkeep id call hold

/-- Only calls whose key is handed on send anything, and an attempt runs where the
call that makes it hands the key. -/
structure Routed (c : Cluster) (hash : Bytes → UInt64) (s : State σ) : Prop where
  sending : ∀ id call, s.call id = some call → call.phase.sends → Forwards c hash call
  message : ∀ id r, (id,r) ∈ s.network → ∃ call, s.call id = some call ∧ Forwards c hash call
  attempt : ∀ id call parent r, s.call id = some call → call.origin = .attempt parent r →
    ∃ sender p, s.call parent = some sender ∧ c.proxy sender.node = some p ∧
      ¬ p.Owns hash sender.request.key ∧ call.method = sender.method ∧
      call.request = sender.request ∧ call.node = p.target hash sender.request.key

theorem Forwards.of_identity {call call' : Call} (h : Forwards c hash call)
    (hsame : call'.identity = call.identity) : Forwards c hash call' := by
  obtain ⟨hn,-,hr,-⟩ := Call.identity_eq hsame
  obtain ⟨p,hp,hown⟩ := h
  exact ⟨p,by rw [hn, hp],by rw [hr]; exact hown⟩

theorem routed_step {l : Label} (hs : Routed c hash s) (h : Step c hash s l s') :
    Routed c hash s' := by
  obtain ⟨i,new,he,hi⟩ := step_touches h
  refine ⟨?_,?_,?_⟩
  · intro id call hcall hsends
    rw [he] at hcall
    rcases update_found hcall with ⟨rfl,rfl⟩ | ⟨-,hold⟩
    · rcases hi with ⟨-,hjoin⟩ | ⟨old,hold,hsame,hstart⟩
      · cases hjoin <;> cases hsends
      · rcases hstart hsends with hsent | hfwd
        · exact (hs.sending id old hold hsent).of_identity hsame
        · exact hfwd.of_identity hsame
    · exact hs.sending id call hold hsends
  · intro id r hmem
    have hold : ∃ call, s.call id = some call ∧ Forwards c hash call := by
      rcases step_network h hmem with hmem | ⟨call,hcall,hphase⟩
      · exact hs.message id r hmem
      · exact ⟨call,hcall,hs.sending id call hcall (by rw [hphase]; trivial)⟩
    obtain ⟨call,hcall,hfwd⟩ := hold
    obtain ⟨call',hcall',hsame⟩ := step_keeps h hcall
    exact ⟨call',hcall',hfwd.of_identity hsame⟩
  · intro id call parent r hcall horigin
    have hkeep : ∀ {sender p}, s.call parent = some sender → c.proxy sender.node = some p →
        ¬ p.Owns hash sender.request.key → call.method = sender.method →
        call.request = sender.request → call.node = p.target hash sender.request.key →
        ∃ sender p, s'.call parent = some sender ∧ c.proxy sender.node = some p ∧
          ¬ p.Owns hash sender.request.key ∧ call.method = sender.method ∧
          call.request = sender.request ∧ call.node = p.target hash sender.request.key := by
      intro sender p hsender hp hown hmethod hrequest hnode
      obtain ⟨sender',hsender',hsame⟩ := step_keeps h hsender
      obtain ⟨h1,h2,h3,-⟩ := Call.identity_eq hsame
      exact ⟨sender',p,hsender',by rw [h1, hp],by rw [h3]; exact hown,by rw [h2, hmethod],
        by rw [h3, hrequest],by rw [h3, hnode]⟩
    rw [he] at hcall
    rcases update_found hcall with ⟨rfl,rfl⟩ | ⟨-,hold⟩
    · rcases hi with ⟨-,hjoin⟩ | ⟨old,hold,hsame,-⟩
      · cases hjoin with
        | client => cases horigin
        | attempt hsender hp hmem =>
          obtain ⟨rfl,rfl⟩ := Origin.attempt.inj horigin
          obtain ⟨call,hcall',p',hp',hown⟩ := hs.message _ _ hmem
          obtain rfl := Option.some.inj (hcall'.symm.trans hsender)
          obtain rfl := Option.some.inj (hp'.symm.trans hp)
          exact hkeep hsender hp hown rfl rfl rfl
      · obtain ⟨h1,h2,h3,h4⟩ := Call.identity_eq hsame
        obtain ⟨sender,p,hsender,hp,hown,hmethod,hrequest,hnode⟩ :=
          hs.attempt id old parent r hold (by rw [← h4]; exact horigin)
        exact hkeep hsender hp hown (by rw [h2, hmethod]) (by rw [h3, hrequest])
          (by rw [h1, hnode])
    · obtain ⟨sender,p,hsender,hp,hown,hmethod,hrequest,hnode⟩ :=
        hs.attempt id call parent r hold horigin
      exact hkeep hsender hp hown hmethod hrequest hnode

theorem routed_run (hrun : runFrom (step c hash) (.init cache₀) tr = some s) :
    Routed c hash s := by
  refine run_invariant (P := fun _ s => Routed c hash s) ⟨?_,?_,?_⟩ ?_ tr s hrun
  · intro id call hcall
    cases hcall
  · intro id r hmem
    cases hmem
  · intro id call parent r hcall
    cases hcall
  · intro es m l n _ hm hn
    exact routed_step hm (step_sound c hash hn)

omit [LRUCache σ] in
theorem Routed.under_same (hs : Routed c hash s) {root e : CallId} (h : Under s root e)
    {call sent : Call} (hcall : s.call root = some call) (hsent : s.call e = some sent) :
    sent.method = call.method ∧ sent.request = call.request := by
  induction h generalizing call with
  | self =>
    obtain rfl := Option.some.inj (hcall.symm.trans hsent)
    exact ⟨rfl,rfl⟩
  | attempt hchild horigin _ ih =>
    obtain ⟨sender,p,hsender,-,-,hm,hr,-⟩ := hs.attempt _ _ _ _ hchild horigin
    obtain rfl := Option.some.inj (hsender.symm.trans hcall)
    obtain ⟨hm',hr'⟩ := ih hchild hsent
    exact ⟨hm'.trans hm,hr'.trans hr⟩

theorem run_keeps (hrun : runFrom (step c hash) s tr = some s') {id : CallId} {call : Call}
    (hcall : s.call id = some call) :
    ∃ call', s'.call id = some call' ∧ call'.identity = call.identity := by
  refine run_invariant
    (P := fun _ s' => ∃ call', s'.call id = some call' ∧ call'.identity = call.identity)
    ⟨call,hcall,rfl⟩ ?_ tr s' hrun
  rintro es m l n _ ⟨old,hold,hsame⟩ hn
  obtain ⟨new,hnew,hsame'⟩ := step_keeps (step_sound c hash hn) hold
  exact ⟨new,hnew,hsame'.trans hsame⟩

theorem Under.later (hrun : runFrom (step c hash) s tr = some s') {root e : CallId}
    (h : Under s root e) : Under s' root e :=
  run_invariant (P := fun _ s' => Under s' root e) h
    (fun _ _ _ _ _ hm hn => hm.kept (step_sound c hash hn)) tr s' hrun

theorem Under.made_after (hs : Routed c hash s) (hrun : runFrom (step c hash) s tr = some s')
    {root e : CallId} (h : Under s' root e) (he : (s.call e).isSome) :
    (s.call root).isSome := by
  induction h with
  | self => exact he
  | attempt hsent horigin _ ih =>
    obtain ⟨old,hold⟩ := Option.isSome_iff_exists.mp (ih he)
    obtain ⟨sent',hsent',hsame⟩ := run_keeps hrun hold
    obtain rfl := Option.some.inj (hsent'.symm.trans hsent)
    obtain ⟨-,-,-,ho⟩ := Call.identity_eq hsame
    obtain ⟨sender,-,hsender,-⟩ := hs.attempt _ _ _ _ hold (ho.symm.trans horigin)
    rw [hsender]
    rfl

theorem run_result_stays (hrun : runFrom (step c hash) s tr = some s') {id : CallId}
    {call : Call} {response : KvResponse} (hcall : s.call id = some call)
    (hres : call.phase.result = some response) :
    ∃ call', s'.call id = some call' ∧ call'.phase.result = some response := by
  refine run_invariant
    (P := fun _ s' => ∃ call', s'.call id = some call' ∧ call'.phase.result = some response)
    ⟨call,hcall,hres⟩ ?_ tr s' hrun
  rintro es m l n _ ⟨old,hold,hres'⟩ hn
  exact step_result_stays (step_sound c hash hn) hold hres'

end Invariants

end EaHalfHour.ClusterNetwork
