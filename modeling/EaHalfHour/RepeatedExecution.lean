import EaHalfHour.ResponseOrigin

/-! One request executed several times in a row at one node, as the retry loop makes
its owner do when replies are lost. -/
namespace EaHalfHour.RepeatedExecution
open LabelledRun AtomicObject KvMessage KvCache RecencyMap RecencyCache ProxyNode
open DeliveredRouting ClusterNetwork ResponseOrigin

section Twice
variable {m : Lru Bytes Bytes} {op : CacheOp}

theorem run_settled (op : CacheOp) (m : Lru Bytes Bytes) :
    (op.run (op.run m).2).2 = (op.run m).2 := by
  cases hm : op.method with
  | set =>
    cases hv : op.request.value with
    | none => rw [run_noValue hm hv, run_noValue hm hv]
    | some v =>
      rw [run_stored hm hv, run_stored hm hv]
      exact Lru.put_put m op.request.key v v
  | get =>
    rw [run_get hm, run_get hm]
    exact Lru.touch_touch m op.request.key
  | remove =>
    have hgone : (op.run m).2.find op.request.key = none := by
      rw [run_remove hm]
      dsimp only
      split
      · rename_i hmissing
        exact (Lru.find_touch m op.request.key op.request.key).trans hmissing
      · exact (Lru.find_erase (m.touch op.request.key) op.request.key op.request.key).trans
          (if_pos rfl)
    -- the key is gone from what the first execution left
    generalize (op.run m).2 = left at hgone ⊢
    rw [run_remove hm]
    dsimp only
    rw [if_pos (show (LRUCache.tryGet left op.request.key).1 = none from hgone)]
    exact Lru.touch_missing hgone

theorem run_answer (hm : op.method ≠ .remove) (m : Lru Bytes Bytes) :
    (op.run (op.run m).2).1 = (op.run m).1 := by
  cases hmethod : op.method with
  | set =>
    cases hv : op.request.value with
    | none => rw [run_noValue hmethod hv, run_noValue hmethod hv]
    | some v => rw [run_stored hmethod hv, run_stored hmethod hv]
  | get =>
    rw [run_get hmethod, run_get hmethod]
    exact congrArg (fillLooked · op.response) (Lru.find_touch m op.request.key op.request.key)
  | remove => exact absurd hmethod hm

end Twice

section Cache
variable {σ : Type*} [LRUCache σ] [RecencyCache σ]

theorem run_view (op : CacheOp) (s : σ) : op.run (view s) = ((op.run s).1,view (op.run s).2) := by
  cases hm : op.method with
  | set =>
    cases hv : op.request.value with
    | none => rw [run_noValue hm hv, run_noValue hm hv]
    | some v =>
      rw [run_stored hm hv, run_stored hm hv, view_put]
      rfl
  | get =>
    rw [run_get hm, run_get hm, view_tryGet, RecencyCache.tryGet_fst s]
    rfl
  | remove =>
    rw [run_remove hm, run_remove hm, RecencyCache.tryGet_fst s]
    change (_,if (view s).find op.request.key = none then (view s).touch op.request.key
      else ((view s).touch op.request.key).erase op.request.key) = _
    split
    · rw [view_tryGet]
      rfl
    · rw [view_remove, view_tryGet]
      rfl

/-- A cache with the entries and the order that one execution leaves keeps them in
another, which answers as that one did unless it is a remove. -/
theorem run_again (op : CacheOp) {s t : σ} (h : view t = view (op.run s).2) :
    view (op.run t).2 = view t ∧ (op.method ≠ .remove → (op.run t).1 = (op.run s).1) := by
  have hs := run_view op s
  have ht := run_view op t
  have hat : view t = (op.run (view s)).2 := h.trans (congrArg Prod.snd hs).symm
  constructor
  · calc
      view (op.run t).2 = (op.run (view t)).2 := (congrArg Prod.snd ht).symm
      _ = (op.run (op.run (view s)).2).2 := by rw [hat]
      _ = (op.run (view s)).2 := run_settled op (view s)
      _ = view t := hat.symm
  · intro hm
    calc
      (op.run t).1 = (op.run (view t)).1 := (congrArg Prod.fst ht).symm
      _ = (op.run (op.run (view s)).2).1 := by rw [hat]
      _ = (op.run (view s)).1 := run_answer hm (view s)
      _ = (op.run s).1 := congrArg Prod.fst hs

/-- However often a request is executed in a row, the cache ends with the entries and
the order of one execution, and a set or get is answered as by one. -/
theorem repeated_as_once (op : CacheOp) (s : σ) {n : Nat} (hn : 1 ≤ n) :
    view (replay CacheOp.run (List.replicate n op) s).2 = view (op.run s).2 ∧
      (op.method ≠ .remove →
        (replay CacheOp.run (List.replicate n op) s).1.getLast? = some (op.run s).1) := by
  obtain ⟨n,rfl⟩ := Nat.exists_eq_add_of_le' hn
  have hone := run_view op s
  have hview := replay_simulates run_view (List.replicate (n+1) op) s
  rw [replay_replicate (run_settled op (view s)), Prod.mk.injEq] at hview
  obtain ⟨hanswers,hstate⟩ := hview
  refine ⟨hstate.symm.trans (congrArg Prod.snd hone),fun hm => ?_⟩
  rw [← hanswers, run_answer hm, ← List.replicate_succ, congrArg Prod.fst hone]
  simp [List.getLast?_replicate]

end Cache

def storesThird : CacheOp := ⟨.set,⟨text "c",some (text "3")⟩,{}⟩

def twoKeys : Lru Bytes Bytes :=
  (replay CacheOp.run [⟨.set,⟨text "a",some (text "1")⟩,{}⟩,⟨.set,⟨text "b",some (text "2")⟩,{}⟩]
    (Lru.empty 2)).2

theorem repeated_storesThird :
    view (replay CacheOp.run (List.replicate 3 storesThird) twoKeys).2 =
        view (storesThird.run twoKeys).2 ∧
      (storesThird.method ≠ .remove →
        (replay CacheOp.run (List.replicate 3 storesThird) twoKeys).1.getLast? =
          some (storesThird.run twoKeys).1) :=
  repeated_as_once storesThird twoKeys (by decide)

section Retries
variable {σ : Type} [LRUCache σ] {c : Cluster} {hash : Bytes → UInt64} {cache₀ : Bytes → σ}
  {s m n : State σ} {u w : List Label} {a : Bytes} {method : Method} {request : KvRequest}

def OnlyExecutes (a : Bytes) (method : Method) (request : KvRequest) (s : State σ)
    (l : Label) : Prop :=
  ∀ e call, l = .execute e → s.call e = some call → call.node = a →
    call.method = method ∧ call.request = request

theorem under_same_request (hrouted : Routed c hash s) {root e e' : CallId} {sent sent' : Call}
    (h : Under s root e) (h' : Under s root e') (hsent : s.call e = some sent)
    (hsent' : s.call e' = some sent') :
    sent'.method = sent.method ∧ sent'.request = sent.request := by
  have hnow : runFrom (step c hash) s [] = some s := rfl
  have hroot := h.made_after hrouted hnow (by rw [hsent]; rfl)
  obtain ⟨call,hcall⟩ := Option.isSome_iff_exists.mp hroot
  obtain ⟨hm,hr⟩ := hrouted.under_same h hcall hsent
  obtain ⟨hm',hr'⟩ := hrouted.under_same h' hcall hsent'
  exact ⟨hm'.trans hm.symm,hr'.trans hr.symm⟩

theorem onlyExecutes_of_under (hrouted : Routed c hash s) (hrun : runFrom (step c hash) m w = some s)
    {root e : CallId} {sent : Call} (hsent : s.call e = some sent) (hunder : Under s root e)
    (hrow : ∀ e' call, .execute e' ∈ w → s.call e' = some call → call.node = sent.node →
      Under s root e') :
    Guarded (step c hash) (OnlyExecutes sent.node sent.method sent.request) m w := by
  rintro x l y q rfl hx e' call rfl hcall hnode
  obtain ⟨q',hq',hrest⟩ := (runFrom_append_iff _ _ x _).mp hrun
  obtain rfl := Option.some.inj (hx.symm.trans hq')
  obtain ⟨call',hcall',hsame⟩ := run_keeps hrest hcall
  obtain ⟨hn,hm,hr,-⟩ := Call.identity_eq hsame
  have hunder' := hrow e' call' (by simp) hcall' (hn.trans hnode)
  obtain ⟨hm',hr'⟩ := under_same_request hrouted hunder hunder' hsent hcall'
  exact ⟨hm.symm.trans hm',hr.symm.trans hr'⟩

variable [RecencyCache σ]

theorem row_cache {cache : σ} (hm : view (m.cache a) = view (Cache.run method request {} cache).2)
    (hrun : runFrom (step c hash) m w = some n)
    (hrow : Guarded (step c hash) (OnlyExecutes a method request) m w) :
    view (n.cache a) = view (Cache.run method request {} cache).2 := by
  refine guarded_invariant
    (P := fun _ s => view (s.cache a) = view (Cache.run method request {} cache).2)
    hm ?_ w n hrun hrow
  intro es p l q _ hp hok hq
  rcases step_cache (step_sound c hash hq) a with hsame | ⟨e,call,-,rfl,hcall,hnode,-,-,hcache⟩
  · rw [hsame]
    exact hp
  · obtain ⟨rfl,rfl⟩ := hok e call rfl hcall hnode
    rw [hcache]
    exact (run_again ⟨call.method,call.request,{}⟩ hp).1.trans hp

/-- However often the attempts of one client's call are executed at a node, with nothing
else in between there, its cache ends as after the first of them, and each execution of
a set or get answers what the first one did. -/
theorem retries_as_once {root e : CallId} {sent : Call}
    (hrun : runFrom (step c hash) (.init cache₀) (u ++ .execute e :: w) = some s)
    (hsent : s.call e = some sent) (hunder : Under s root e)
    (hrow : ∀ e' call, .execute e' ∈ w → s.call e' = some call → call.node = sent.node →
      Under s root e') :
    ∃ m, runFrom (step c hash) (.init cache₀) (u ++ [.execute e]) = some m ∧
      view (s.cache sent.node) = view (m.cache sent.node) ∧
      (sent.method ≠ .remove → ∀ e' call, .execute e' ∈ w → s.call e' = some call →
        call.node = sent.node → call.phase.result = sent.phase.result) := by
  obtain ⟨m₀,m,hu,hstep,hw⟩ := run_at hrun
  obtain ⟨first,sent',-,hsent',hsame,hcache,hres⟩ := execute_later hstep hw
  obtain rfl := Option.some.inj (hsent.symm.trans hsent')
  obtain ⟨hn,hm,hr,-⟩ := Call.identity_eq hsame
  rw [← hn, ← hm, ← hr] at hcache hres
  have hguard := onlyExecutes_of_under (routed_run hrun) hw hsent hunder hrow
  have hleft : m.cache sent.node =
      (Cache.run sent.method sent.request {} (m₀.cache sent.node)).2 := by
    rw [hcache, Function.update_self]
  refine ⟨m,(runFrom_concat_iff _ _ _ _).mpr ⟨m₀,hu,hstep⟩,?_,?_⟩
  · rw [row_cache (congrArg view hleft) hw hguard, hleft]
  · intro hremove e' call hmem hcall hnode
    obtain ⟨x,y,rfl⟩ := List.append_of_mem hmem
    obtain ⟨q,q',hx,hagain,hy⟩ := run_at hw
    obtain ⟨second,call',hsecond,hcall',hsame',-,hres'⟩ := execute_later hagain hy
    obtain rfl := Option.some.inj (hcall.symm.trans hcall')
    have hat : second.node = sent.node := (Call.identity_eq hsame').1.symm.trans hnode
    obtain ⟨hm',hr'⟩ := hguard x _ y q rfl hx e' second rfl hsecond hat
    -- the second execution finds what the first one left
    have hq := row_cache (congrArg view hleft) hx hguard.left
    have hanswer := (run_again ⟨sent.method,sent.request,{}⟩ hq).2 hremove
    rw [hres', hres, hat, hm', hr']
    exact congrArg some hanswer

end Retries

end EaHalfHour.RepeatedExecution
