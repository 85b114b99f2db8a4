import EaHalfHour.ClusterNetwork
import EaHalfHour.LockedCache

/-! The a010 cluster with the members of each node's Cache run statement by statement
under its lock, against the cluster in which one Cache member is one step. -/
namespace EaHalfHour.StatementCluster
open LabelledRun AtomicObject KvMessage KvCache RecencyMap ProxyNode DeliveredRouting
open ClusterNetwork (CallId Call Phase)

structure State (σ : Type) where
  call : CallId → Option Call
  network : List (CallId × Nat)
  node : Bytes → LockedCache.State σ

/-- `net` is any step outside the caches. A call that owns its key enters the Cache of its
node, the statements there follow one another, and it leaves with its response. -/
inductive Label where
  | net (l : ClusterNetwork.Label)
  | enter (id : CallId)
  | inside (node : Bytes) (l : LockedCache.Label)
  | leave (id : CallId) (response : KvResponse)
deriving DecidableEq

variable {σ : Type}

def State.init (cache : Bytes → σ) : State σ := ⟨fun _ => none,[],fun a => .init (cache a)⟩

def State.outside (s : State σ) : ClusterNetwork.State σ :=
  ⟨fun a => (s.node a).cache,s.call,s.network⟩

def State.setNode (s : State σ) (a : Bytes) (l : LockedCache.State σ) : State σ :=
  { s with node := Function.update s.node a l }

def isExecute : ClusterNetwork.Label → Bool
  | .execute _ => true
  | .invoke _ _ _ _ | .startFiber _ _ | .initFails _ | .transmit _ | .timeout _ | .deliver _ _ _
  | .reply _ | .respond _ _ => false

def cacheOp (call : Call) : CacheOp := ⟨call.method,call.request,{}⟩

variable [LRUCache σ] (c : Cluster) (hash : Bytes → UInt64)

def step (s : State σ) : Label → Option (State σ)
  | .net l =>
    if isExecute l = true then none
    else do
      let n ← ClusterNetwork.step c hash s.outside l
      some { s with call := n.call, network := n.network }
  | .enter id => do
    let call ← s.call id
    let p ← c.proxy call.node
    if call.phase = .entered ∧ p.Owns hash call.request.key then
      let l ← LockedCache.step (s.node call.node) (.invoke id (cacheOp call))
      some (s.setNode call.node l)
    else none
  | .inside a l =>
    if (LockedCache.callerEvent l).isSome then none
    else do
      let l ← LockedCache.step (s.node a) l
      some (s.setNode a l)
  | .leave id response => do
    let call ← s.call id
    let l ← LockedCache.step (s.node call.node) (.respond id response)
    some { s.setNode call.node l with
      call := Function.update s.call id (some { call with phase := .returned .okStatus response }) }

inductive Step (s : State σ) : Label → State σ → Prop where
  | net {l : ClusterNetwork.Label} {n : ClusterNetwork.State σ} : isExecute l = false →
      ClusterNetwork.Step c hash s.outside l n →
      Step s (.net l) { s with call := n.call, network := n.network }
  | enter {id : CallId} {call : Call} {p : KvProxy} {l : LockedCache.State σ} :
      s.call id = some call → c.proxy call.node = some p → call.phase = .entered →
      p.Owns hash call.request.key →
      LockedCache.Step (s.node call.node) (.invoke id (cacheOp call)) l →
      Step s (.enter id) (s.setNode call.node l)
  | inside {a : Bytes} {e : LockedCache.Label} {l : LockedCache.State σ} :
      LockedCache.callerEvent e = none → LockedCache.Step (s.node a) e l →
      Step s (.inside a e) (s.setNode a l)
  | leave {id : CallId} {call : Call} {response : KvResponse} {l : LockedCache.State σ} :
      s.call id = some call → LockedCache.Step (s.node call.node) (.respond id response) l →
      Step s (.leave id response) { s.setNode call.node l with
        call := Function.update s.call id
          (some { call with phase := .returned .okStatus response }) }

theorem step_sound {s s' : State σ} {l : Label} (h : step c hash s l = some s') :
    Step c hash s l s' := by
  cases l with
  | net l =>
    simp only [step] at h
    split at h
    · cases h
    · rename_i hexecute
      obtain ⟨n,hn,h⟩ := Option.bind_eq_some_iff.mp h
      obtain rfl := Option.some.inj h
      exact .net (by simpa using hexecute) (ClusterNetwork.step_sound c hash hn)
  | enter id =>
    simp only [step, Option.bind_eq_bind, Option.bind_eq_some_iff] at h
    obtain ⟨call,hcall,p,hp,h⟩ := h
    split at h
    · rename_i howns
      obtain ⟨l,hl,h⟩ := Option.bind_eq_some_iff.mp h
      obtain rfl := Option.some.inj h
      exact .enter hcall hp howns.1 howns.2 (LockedCache.step_sound hl)
    · cases h
  | inside a l =>
    simp only [step] at h
    split at h
    · cases h
    · rename_i hevent
      obtain ⟨l',hl,h⟩ := Option.bind_eq_some_iff.mp h
      obtain rfl := Option.some.inj h
      exact .inside (by simpa using hevent) (LockedCache.step_sound hl)
  | leave id response =>
    simp only [step, Option.bind_eq_bind, Option.bind_eq_some_iff] at h
    obtain ⟨call,hcall,l,hl,h⟩ := h
    obtain rfl := Option.some.inj h
    exact .leave hcall (LockedCache.step_sound hl)

section Simulation
variable {c hash} {s s' : State σ} {n n' : ClusterNetwork.State σ}
  {stage : Bytes → CallId → Stage CacheOp KvResponse}

def AtCache (c : Cluster) (hash : Bytes → UInt64) (call : Call) : Prop :=
  call.phase = .entered ∧ ∃ p, c.proxy call.node = some p ∧ p.Owns hash call.request.key

def Fits (c : Cluster) (hash : Bytes → UInt64) (call : Call) : Stage CacheOp KvResponse → Prop
  | .idle | .closed => True
  | .opened op => op = cacheOp call ∧ AtCache c hash call
  | .applied _ _ => AtCache c hash call

/-- The call in the atomic cluster: once it has taken effect it has returned. -/
def shadow (call : Call) : Stage CacheOp KvResponse → Call
  | .idle | .opened _ | .closed => call
  | .applied _ response => { call with phase := .returned .okStatus response }

/-- The atomic cluster beside this one: the same messages and the same calls, except for
those that have taken effect and not yet left, and at each node the cache that the
statements there stand for. -/
structure Shadows (c : Cluster) (hash : Bytes → UInt64) (s : State σ)
    (stage : Bytes → CallId → Stage CacheOp KvResponse) (n : ClusterNetwork.State σ) : Prop where
  network : n.network = s.network
  tracks : ∀ a, LockedCache.Tracks (s.node a) (stage a) (n.cache a)
  owner : ∀ a id, stage a id ≠ .idle → ∃ call, s.call id = some call ∧ call.node = a
  fits : ∀ id call, s.call id = some call → Fits c hash call (stage call.node id)
  calls : ∀ id, n.call id = (s.call id).map fun call => shadow call (stage call.node id)

omit [LRUCache σ] in
theorem fits_quiet {call : Call} {x : Stage CacheOp KvResponse} (h : Fits c hash call x)
    (hout : ¬ AtCache c hash call) : x = .idle ∨ x = .closed := by
  cases x with
  | idle => exact Or.inl rfl
  | closed => exact Or.inr rfl
  | opened op => exact absurd h.2 hout
  | applied op response => exact absurd h hout

theorem Shadows.visible (h : Shadows c hash s stage n) {id : CallId} {call : Call}
    (hcall : s.call id = some call) (hout : ¬ AtCache c hash call) : n.call id = some call := by
  rw [h.calls, hcall, Option.map_some]
  rcases fits_quiet (h.fits id call hcall) hout with hx | hx <;> rw [hx] <;> rfl

theorem Shadows.moved (h : Shadows c hash s stage n) {id : CallId} {call : Call}
    (hs : s'.call = Function.update s.call id (some call)) (hsnode : s'.node = s.node)
    (hn : n'.call = Function.update n.call id (some call)) (hncache : n'.cache = n.cache)
    (hnetwork : n'.network = s'.network) (howner : ∀ a, stage a id ≠ .idle → a = call.node)
    (hquiet : stage call.node id = .idle ∨ stage call.node id = .closed) :
    Shadows c hash s' stage n' := by
  have hfits : Fits c hash call (stage call.node id) := by
    rcases hquiet with hx | hx <;> rw [hx] <;> trivial
  have hshadow : shadow call (stage call.node id) = call := by
    rcases hquiet with hx | hx <;> rw [hx] <;> rfl
  refine ⟨hnetwork,fun a => ?_,fun a j hj => ?_,fun j other hj => ?_,fun j => ?_⟩
  · rw [hsnode, hncache]
    exact h.tracks a
  · by_cases hji : j = id
    · subst hji
      exact ⟨call,by rw [hs, Function.update_self],(howner a hj).symm⟩
    · obtain ⟨other,hother,hnode⟩ := h.owner a j hj
      exact ⟨other,by rw [hs, Function.update_of_ne hji, hother],hnode⟩
  · rw [hs] at hj
    rcases update_found hj with ⟨rfl,rfl⟩ | ⟨-,hj⟩
    · exact hfits
    · exact h.fits j other hj
  · rw [hn, hs]
    by_cases hji : j = id
    · subst hji
      simp [hshadow]
    · rw [Function.update_of_ne hji, Function.update_of_ne hji]
      exact h.calls j

omit [LRUCache σ] in
@[simp] theorem shadow_about (call : Call) (x : Stage CacheOp KvResponse) :
    (shadow call x).node = call.node ∧ (shadow call x).method = call.method ∧
      (shadow call x).request = call.request := by
  cases x <;> exact ⟨rfl,rfl,rfl⟩

theorem Shadows.fresh (h : Shadows c hash s stage n) {id : CallId} (hnone : s.call id = none)
    (a : Bytes) : stage a id = .idle := by
  by_contra hne
  obtain ⟨call,hcall,-⟩ := h.owner a id hne
  rw [hnone] at hcall
  cases hcall

theorem Shadows.quiet (h : Shadows c hash s stage n) {id : CallId} {call : Call}
    (hcall : s.call id = some call) (a : Bytes) (ha : stage a id ≠ .idle) : a = call.node := by
  obtain ⟨other,hother,rfl⟩ := h.owner a id ha
  rw [hcall] at hother
  rw [Option.some.inj hother]

theorem Shadows.phased (h : Shadows c hash s stage n) {id : CallId} {call : Call}
    (hcall : s.call id = some call)
    (hquiet : stage call.node id = .idle ∨ stage call.node id = .closed) {phase : Phase}
    (hs : s'.call = Function.update s.call id (some { call with phase }))
    (hsnode : s'.node = s.node)
    (hn : n'.call = Function.update n.call id (some { call with phase }))
    (hncache : n'.cache = n.cache) (hnetwork : n'.network = s'.network) :
    Shadows c hash s' stage n' :=
  h.moved hs hsnode hn hncache hnetwork (fun a ha => h.quiet hcall a ha) hquiet

theorem step_net (h : Shadows c hash s stage n) {l : ClusterNetwork.Label}
    {m : ClusterNetwork.State σ} (hexecute : isExecute l = false)
    (hs : ClusterNetwork.Step c hash s.outside l m) :
    ∃ n', ClusterNetwork.Step c hash n l n' ∧
      Shadows c hash { s with call := m.call, network := m.network } stage n' := by
  have haway : ∀ {id call}, s.call id = some call → call.phase ≠ .entered →
      n.call id = some call ∧ (stage call.node id = .idle ∨ stage call.node id = .closed) := by
    intro id call hcall hphase
    have hout : ¬ AtCache c hash call := fun hat => hphase hat.1
    exact ⟨h.visible hcall hout,fits_quiet (h.fits id call hcall) hout⟩
  cases hs with
  | execute => cases hexecute
  | @invoke id node method request hnode hnone =>
    change s.call id = none at hnone
    have hnone' : n.call id = none := by rw [h.calls, hnone, Option.map_none]
    exact ⟨_,.invoke hnode hnone',h.moved rfl rfl rfl rfl h.network
      (fun a ha => absurd (h.fresh hnone a) ha) (Or.inl (h.fresh hnone _))⟩
  | @startFiber id call p ret hcall hphase hp hnot =>
    have hout : ¬ AtCache c hash call := by
      rintro ⟨-,p',hp',howns⟩
      obtain rfl := Option.some.inj (hp.symm.trans hp')
      exact hnot howns
    exact ⟨_,.startFiber ret (h.visible hcall hout) hphase hp hnot,
      h.phased hcall (fits_quiet (h.fits id call hcall) hout) rfl rfl rfl rfl h.network⟩
  | @initFails id call r hcall hphase =>
    obtain ⟨hcall',hquiet⟩ := haway hcall (by simp [hphase])
    exact ⟨_,.initFails hcall' hphase,h.phased hcall hquiet rfl rfl rfl rfl h.network⟩
  | @transmit id call r hcall hphase =>
    obtain ⟨hcall',hquiet⟩ := haway hcall (by simp [hphase])
    refine ⟨_,.transmit hcall' hphase,h.phased hcall hquiet rfl rfl rfl rfl ?_⟩
    exact congrArg (fun l => (id,r) :: l) h.network
  | @timeout id call r hcall hphase =>
    obtain ⟨hcall',hquiet⟩ := haway hcall (by simp [hphase])
    exact ⟨_,.timeout hcall' hphase,h.phased hcall hquiet rfl rfl rfl rfl h.network⟩
  | @deliver parent id r sender p hsender hp hmem hpeer hnone =>
    change s.call id = none at hnone
    have hnone' : n.call id = none := by rw [h.calls, hnone, Option.map_none]
    change s.call parent = some sender at hsender
    obtain ⟨hnode,hmethod,hrequest⟩ := shadow_about sender (stage sender.node parent)
    have hsender' : n.call parent = some (shadow sender (stage sender.node parent)) := by
      rw [h.calls, hsender, Option.map_some]
    have hdeliver : ClusterNetwork.Step c hash n (.deliver parent r id) _ := .deliver hsender'
      (by rw [hnode]; exact hp) (by rw [h.network]; exact hmem)
      (by rw [hrequest]; exact hpeer) hnone'
    rw [hmethod, hrequest] at hdeliver
    refine ⟨_,hdeliver,h.moved rfl rfl rfl rfl ?_ (fun a ha => absurd (h.fresh hnone a) ha)
      (Or.inl (h.fresh hnone _))⟩
    exact congrArg (fun l => l.erase (parent,r)) h.network
  | @reply id parent call sender r rs response w hcall horigin hphase hw hsender hwait =>
    obtain ⟨hcall',-⟩ := haway hcall (by simp [hphase])
    obtain ⟨hsender',hquiet⟩ := haway hsender (by simp [hwait])
    exact ⟨_,.reply hcall' horigin hphase hw hsender' hwait,
      h.phased hsender hquiet rfl rfl rfl rfl h.network⟩
  | @respond id call rs response hcall horigin hphase =>
    obtain ⟨hcall',hquiet⟩ := haway hcall (by simp [hphase])
    exact ⟨_,.respond hcall' horigin hphase,
      h.phased hcall hquiet rfl rfl rfl rfl h.network⟩

theorem Shadows.worked (h : Shadows c hash s stage n) {id : CallId} {call call' : Call}
    {x : Stage CacheOp KvResponse} {l : LockedCache.State σ} {cache : σ}
    (hcall : s.call id = some call)
    (htracks : LockedCache.Tracks l (Function.update (stage call.node) id x) cache)
    (hs : s'.call = Function.update s.call id (some call')) (hnode : call'.node = call.node)
    (hfits : Fits c hash call' x)
    (hsnode : s'.node = Function.update s.node call.node l) (hsnetwork : s'.network = s.network)
    (hn : n'.call = Function.update n.call id (some (shadow call' x)))
    (hncache : n'.cache = Function.update n.cache call.node cache)
    (hnnetwork : n'.network = n.network) :
    Shadows c hash s' (Function.update stage call.node (Function.update (stage call.node) id x))
      n' := by
  have hself : Function.update stage call.node (Function.update (stage call.node) id x) call.node
      id = x := by simp
  have hother : ∀ a j, j ≠ id →
      Function.update stage call.node (Function.update (stage call.node) id x) a j =
        stage a j := by
    intro a j hj
    by_cases ha : a = call.node
    · subst ha
      simp [hj]
    · simp [ha]
  refine ⟨?_,fun a => ?_,fun a j hj => ?_,fun j other hj => ?_,fun j => ?_⟩
  · rw [hnnetwork, hsnetwork]
    exact h.network
  · rw [hsnode, hncache]
    by_cases ha : a = call.node
    · subst ha
      simpa using htracks
    · rw [Function.update_of_ne ha, Function.update_of_ne ha, Function.update_of_ne ha]
      exact h.tracks a
  · by_cases hji : j = id
    · subst hji
      refine ⟨call',by rw [hs, Function.update_self],?_⟩
      by_cases ha : a = call.node
      · rw [hnode, ha]
      · rw [Function.update_of_ne ha] at hj
        rw [hnode, h.quiet hcall a hj]
    · rw [hother a j hji] at hj
      obtain ⟨other,hcall',hnode'⟩ := h.owner a j hj
      exact ⟨other,by rw [hs, Function.update_of_ne hji, hcall'],hnode'⟩
  · rw [hs] at hj
    rcases update_found hj with ⟨rfl,rfl⟩ | ⟨hji,hj⟩
    · rw [hnode, hself]
      exact hfits
    · rw [hother other.node j hji]
      exact h.fits j other hj
  · rw [hn, hs]
    by_cases hji : j = id
    · subst hji
      rw [Function.update_self, Function.update_self, Option.map_some, hnode, hself]
    · rw [Function.update_of_ne hji, Function.update_of_ne hji, h.calls]
      cases hj : s.call j with
      | none => rfl
      | some other => rw [Option.map_some, Option.map_some, hother other.node j hji]

theorem Shadows.stays (h : Shadows c hash s stage n) {a : Bytes} {l : LockedCache.State σ}
    (htracks : LockedCache.Tracks l (stage a) (n.cache a)) :
    Shadows c hash (s.setNode a l) stage n := by
  refine ⟨h.network,fun b => ?_,h.owner,h.fits,h.calls⟩
  by_cases hb : b = a
  · subst hb
    simpa [State.setNode] using htracks
  · simpa [State.setNode, hb] using h.tracks b

def Label.outside : Label → Option ClusterNetwork.Label
  | .net l => some l
  | .enter _ | .inside _ _ | .leave _ _ => none

/-- What the atomic cluster does meanwhile: the same step outside the caches; inside them
nothing, or the one step that a call's work there amounts to. -/
theorem step_shadows (h : Shadows c hash s stage n) {l : Label} (hs : Step c hash s l s') :
    ∃ ls n' stage', runFrom (ClusterNetwork.step c hash) n ls = some n' ∧
      ls.filter (fun l => !isExecute l) = l.outside.toList ∧ Shadows c hash s' stage' n' := by
  cases hs with
  | @net l m hexecute hnet =>
    obtain ⟨n',hn',hshadows⟩ := step_net h hexecute hnet
    refine ⟨[l],n',stage,?_,?_,hshadows⟩
    · exact (runFrom_cons_iff _ _ _ _).mpr ⟨n',ClusterNetwork.step_complete c hash hn',rfl⟩
    · simp [Label.outside, hexecute]
  | @enter id call p l hcall hp hphase howns hl =>
    obtain ⟨x,cache,hmove,htracks⟩ := LockedCache.tracks_step (h.tracks call.node) hl
    obtain ⟨hidle,rfl,rfl⟩ := move_invoke hmove
    have hat : AtCache c hash call := ⟨hphase,p,hp,howns⟩
    have hsame : (s.setNode call.node l).call = Function.update s.call id (some call) :=
      (Function.update_eq_self_iff.mpr hcall.symm).symm
    have hcall' : n.call id = some call := by
      rw [h.calls, hcall, Option.map_some, hidle]
      rfl
    refine ⟨[],n,_,rfl,rfl,h.worked hcall htracks hsame rfl ⟨rfl,hat⟩ rfl rfl ?_ ?_ rfl⟩
    · exact (Function.update_eq_self_iff.mpr hcall'.symm).symm
    · rw [Function.update_eq_self]
  | @inside a e l hevent hl =>
    obtain ⟨x,cache,hmove,htracks⟩ := LockedCache.tracks_step (h.tracks a) hl
    rw [hevent] at hmove
    rcases move_none hmove with ⟨rfl,rfl⟩ | ⟨id,op,hopened,rfl,rfl⟩
    · exact ⟨[],n,stage,rfl,rfl,h.stays htracks⟩
    · obtain ⟨call,hcall,rfl⟩ := h.owner a id (by rw [hopened]; simp)
      have hfits := h.fits id call hcall
      rw [hopened] at hfits
      obtain ⟨rfl,hat⟩ := hfits
      have hsame : (s.setNode call.node l).call = Function.update s.call id (some call) :=
        (Function.update_eq_self_iff.mpr hcall.symm).symm
      have hcall' : n.call id = some call := by
        rw [h.calls, hcall, Option.map_some, hopened]
        rfl
      obtain ⟨p,hp,howns⟩ := hat.2
      have hexecute := ClusterNetwork.step_complete c hash (.execute hcall' hat.1 hp howns)
      exact ⟨[.execute id],_,_,(runFrom_cons_iff _ _ _ _).mpr ⟨_,hexecute,rfl⟩,rfl,
        h.worked hcall htracks hsame rfl hat rfl rfl rfl rfl rfl⟩
  | @leave id call response l hcall hl =>
    obtain ⟨x,cache,hmove,htracks⟩ := LockedCache.tracks_step (h.tracks call.node) hl
    obtain ⟨op,happlied,rfl,rfl⟩ := move_respond hmove
    have hcall' : n.call id = some { call with phase := .returned .okStatus response } := by
      rw [h.calls, hcall, Option.map_some, happlied]
      rfl
    refine ⟨[],n,_,rfl,rfl,h.worked hcall htracks rfl rfl trivial rfl rfl ?_ ?_ rfl⟩
    · exact (Function.update_eq_self_iff.mpr hcall'.symm).symm
    · rw [Function.update_eq_self]

end Simulation

section Runs
variable {c hash} {cache₀ : Bytes → σ} {tr : List Label} {s : State σ}

theorem shadows_init (cache₀ : Bytes → σ) :
    Shadows c hash (.init cache₀) (fun _ _ => .idle) (.init cache₀) := by
  refine ⟨rfl,fun a => LockedCache.tracks_init (cache₀ a),fun a id h => absurd rfl h,?_,?_⟩
  · intro id call hcall
    cases hcall
  · intro id
    rfl

theorem shadows_run (hrun : runFrom (step c hash) (.init cache₀) tr = some s) :
    ∃ tr' n stage, runFrom (ClusterNetwork.step c hash) (.init cache₀) tr' = some n ∧
      tr'.filter (fun l => !isExecute l) = tr.filterMap Label.outside ∧
      Shadows c hash s stage n := by
  refine run_invariant (P := fun tr s => ∃ tr' n stage,
    runFrom (ClusterNetwork.step c hash) (.init cache₀) tr' = some n ∧
      tr'.filter (fun l => !isExecute l) = tr.filterMap Label.outside ∧
      Shadows c hash s stage n) ⟨[],_,fun _ _ => .idle,rfl,rfl,shadows_init cache₀⟩
    ?_ tr s hrun
  rintro es m e m' _ ⟨tr',n,stage,hn,hsteps,hshadows⟩ hm'
  obtain ⟨ls,n',stage',hls,houter,hshadows'⟩ := step_shadows hshadows (step_sound c hash hm')
  refine ⟨tr' ++ ls,n',stage',(runFrom_append_iff _ _ _ _).mpr ⟨n,hn,hls⟩,?_,hshadows'⟩
  rw [List.filter_append, hsteps, houter, List.filterMap_append]
  cases he : e.outside <;> simp [he]

theorem Shadows.cache_eq {stage : Bytes → CallId → Stage CacheOp KvResponse}
    {n : ClusterNetwork.State σ} (h : Shadows c hash s stage n) {a : Bytes}
    (hreturned : ∀ id call, (s.node a).call id = some call →
      ∃ response, call.pc = .returned response) : n.cache a = (s.node a).cache := by
  refine (h.tracks a).settled.clear fun id call hcall => ?_
  obtain ⟨response,hpc⟩ := hreturned id call hcall
  exact LockedCache.not_erasing (Or.inr (by rw [hpc]; rfl))

/-- The run of the atomic cluster that a run of this one amounts to: the same steps
outside the caches in the same order, each Cache member at one moment of its own, and the
same messages, calls and, where no call is at work, caches. A call at its Cache may have
returned there already, and has once its member is done, with what the member answers. -/
structure RefinesAtomic (c : Cluster) (hash : Bytes → UInt64) (cache₀ : Bytes → σ)
    (tr : List Label) (s : State σ) (tr' : List ClusterNetwork.Label)
    (n : ClusterNetwork.State σ) : Prop where
  run : runFrom (ClusterNetwork.step c hash) (.init cache₀) tr' = some n
  steps : tr'.filter (fun l => !isExecute l) = tr.filterMap Label.outside
  network : n.network = s.network
  calls : ∀ id call, s.call id = some call → n.call id = some call ∨
    AtCache c hash call ∧
      ∃ response, n.call id = some { call with phase := .returned .okStatus response }
  done : ∀ id call op response, s.call id = some call →
    (s.node call.node).call id = some ⟨op,.done response⟩ →
      n.call id = some { call with phase := .returned .okStatus response }
  made : ∀ id, n.call id = none ↔ s.call id = none
  caches : ∀ a, (∀ id call, (s.node a).call id = some call →
    ∃ response, call.pc = .returned response) → n.cache a = (s.node a).cache

/-- However the statements of the Cache members interleave, at any nodes, under the locks
they take, the cluster runs as if each member were one step. -/
theorem refinesAtomic_run (hrun : runFrom (step c hash) (.init cache₀) tr = some s) :
    ∃ tr' n, RefinesAtomic c hash cache₀ tr s tr' n := by
  obtain ⟨tr',n,stage,hn,hsteps,hshadows⟩ := shadows_run hrun
  refine ⟨tr',n,hn,hsteps,hshadows.network,fun id call hcall => ?_,
    fun id call op response hcall hdone => ?_,fun id => ?_,
    fun a hreturned => hshadows.cache_eq hreturned⟩
  · have hfits := hshadows.fits id call hcall
    rw [hshadows.calls, hcall, Option.map_some]
    cases hx : stage call.node id with
    | idle | opened | closed => exact Or.inl rfl
    | applied op response =>
      rw [hx] at hfits
      exact Or.inr ⟨hfits,response,rfl⟩
  · have happlied : stage call.node id = .applied op response :=
      (hshadows.tracks call.node).fits id _ hdone
    rw [hshadows.calls, hcall, Option.map_some, happlied]
    rfl
  · rw [hshadows.calls, Option.map_eq_none_iff]

end Runs

def removeForwarded : List Label :=
  [.net (.invoke 0 (text "b") .set ⟨text "k",some (text "v")⟩),.enter 0,
    .inside (text "b") (.lock 0),.inside (text "b") (.put 0),.inside (text "b") (.unlock 0),
    .inside (text "b") (.fill 0),.leave 0 ⟨some 0,some (text "ok"),none⟩,
    .net (.invoke 1 (text "a") .remove ⟨text "k",none⟩),.net (.startFiber 1 0),
    .net (.transmit 1),.net (.deliver 1 0 2),.enter 2,.inside (text "b") (.lock 2),
    .inside (text "b") (.tryGet 2),.net (.invoke 3 (text "b") .get ⟨text "k",none⟩),.enter 3,
    .inside (text "b") (.fill 2),.inside (text "b") (.erase 2),.inside (text "b") (.unlock 2),
    .inside (text "b") (.lock 3),.leave 2 ⟨some 0,some (text "ok"),some (text "v")⟩,
    .net (.reply 2),.net (.respond 1 ⟨some 0,some (text "ok"),some (text "v")⟩)]

theorem refinesAtomic_removeForwarded :
    ∃ s tr' n, runFrom (step (.everyPeer (text "a,b")) fun _ => 1)
        (.init fun _ => (Lru.empty 4 : Lru Bytes Bytes)) removeForwarded = some s ∧
      RefinesAtomic (.everyPeer (text "a,b")) (fun _ => 1) (fun _ => Lru.empty 4)
        removeForwarded s tr' n := by
  have hsome : (runFrom (step (.everyPeer (text "a,b")) fun _ => 1)
      (.init fun _ => (Lru.empty 4 : Lru Bytes Bytes)) removeForwarded).isSome := by decide
  obtain ⟨s,hs⟩ := Option.isSome_iff_exists.mp hsome
  obtain ⟨tr',n,h⟩ := refinesAtomic_run hs
  exact ⟨s,tr',n,hs,h⟩

end EaHalfHour.StatementCluster
