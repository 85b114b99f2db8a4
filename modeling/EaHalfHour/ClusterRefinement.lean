import EaHalfHour.AtomicObject
import EaHalfHour.ClusterNetwork

/-! The cluster, when every forwarded RPC is executed once and answered, against
one a008 server for each position of the list of peers. -/
namespace EaHalfHour.ClusterRefinement
open LabelledRun AtomicObject KvMessage KvCache RecencyMap ProxyNode DeliveredRouting
  ClusterNetwork

/-- No attempt fails: fibers start, channels open, and no call times out. -/
def reliable : Label → Bool
  | .startFiber _ ret => decide (ret = 0)
  | .initFails _ | .timeout _ => false
  | .invoke _ _ _ _ | .execute _ | .transmit _ | .deliver _ _ _ | .reply _ | .respond _ _ =>
    true

abbrev Request := Method × KvRequest

def clientEvent : Label → Option (Event CallId Request KvResponse)
  | .invoke id _ method request => some (.invoke id (method,request))
  | .respond id response => some (.respond id response)
  | .execute _ | .startFiber _ _ | .initFails _ | .transmit _ | .timeout _ | .deliver _ _ _
  | .reply _ => none

variable {σ : Type} {c : Cluster} {hash : Bytes → UInt64} {address : Bytes}
  {s s' : State σ} {stage : CallId → Stage Request KvResponse} {shard : Nat → σ}

def asked (call : Call) : Request := (call.method,call.request)

def RootStage (asked : Request) (stage : Stage Request KvResponse) : Phase → Prop
  | .entered | .sending _ => stage = .opened asked
  | .returned _ response => stage = .applied asked response
  | .waiting _ | .answered _ _ => True

def AttemptStage (asked : Request) (stage : Stage Request KvResponse) : Phase → Prop
  | .entered => stage = .opened asked
  | .returned _ response => stage = .applied asked response
  | .sending _ | .waiting _ | .answered _ _ => False

/-- A client's request is in one place: at its entry node, in a message, or in the
one attempt that the message became. -/
structure Tracks (c : Cluster) (hash : Bytes → UInt64) (address : Bytes) (s : State σ)
    (stage : CallId → Stage Request KvResponse) (shard : Nat → σ) : Prop where
  caches : ∀ i b, (strSplit address)[i]? = some b → s.cache b = shard i
  routed : Routed c hash s
  fresh : ∀ id, s.call id = none → stage id = .idle
  root : ∀ id call, s.call id = some call → call.origin = .client →
    RootStage (asked call) (stage id) call.phase
  message : ∀ id r, (id,r) ∈ s.network → ∃ call, s.call id = some call ∧
    call.origin = .client ∧ call.phase = .waiting r ∧ stage id = .opened (asked call)
  attempt : ∀ e sent id r, s.call e = some sent → sent.origin = .attempt id r →
    ∃ call, s.call id = some call ∧ call.origin = .client ∧ asked sent = asked call ∧
      ((call.phase.result ≠ none ∧ sent.phase.result ≠ none) ∨
        (call.phase = .waiting r ∧ (id,r) ∉ s.network ∧
          AttemptStage (asked call) (stage id) sent.phase))
  oneAttempt : ∀ e e' sent sent' id r r', s.call e = some sent → s.call e' = some sent' →
    sent.origin = .attempt id r → sent'.origin = .attempt id r' → e = e'
  nodup : s.network.Nodup

theorem attempt_owns (hshared : ∀ a flag, c.peersFlag a = some flag → flag = address)
    (hnodup : (strSplit address).Nodup) (hs : Routed c hash s) {e id : CallId} {sent : Call}
    {r : Nat} {p : KvProxy} (hsent : s.call e = some sent)
    (horigin : sent.origin = .attempt id r) (hp : c.proxy sent.node = some p) :
    p.Owns hash sent.request.key := by
  obtain ⟨sender,q,-,hq,-,-,hrequest,hnode⟩ := hs.attempt e sent id r hsent horigin
  obtain ⟨flag,hflag,rfl⟩ := Cluster.flag_of_proxy hq
  obtain rfl := hshared _ flag hflag
  obtain ⟨flag',hflag',rfl⟩ := Cluster.flag_of_proxy hp
  obtain rfl := hshared _ flag' hflag'
  have hat := tableOf_target hash flag' sender.request.key (Cluster.mem_of_flag hflag)
  rw [← hnode, ← hrequest] at hat
  obtain ⟨hlt,he⟩ := List.getElem?_eq_some_iff.mp hat
  rw [tableOf_owns, ← he]
  exact hnodup.idxOf_getElem _ hlt


section Steps

theorem Tracks.caches_update (ht : Tracks c hash address s stage shard)
    (hnodup : (strSplit address).Nodup) {i : Nat} {node : Bytes}
    (hnode : (strSplit address)[i]? = some node) (cache : σ) :
    ∀ k b, (strSplit address)[k]? = some b →
      Function.update s.cache node cache b = Function.update shard i cache k := by
  intro k b hb
  obtain ⟨hi,rfl⟩ := List.getElem?_eq_some_iff.mp hnode
  obtain ⟨hk,rfl⟩ := List.getElem?_eq_some_iff.mp hb
  by_cases hki : k = i
  · subst hki
    simp
  · have hne : (strSplit address)[k] ≠ (strSplit address)[i] := fun he =>
      hki ((hnodup.getElem_inj_iff).mp he)
    rw [Function.update_of_ne hne, Function.update_of_ne hki]
    exact ht.caches k _ hb

theorem Tracks.no_attempt (ht : Tracks c hash address s stage shard) {i : CallId} {old : Call}
    (hold : s.call i = some old) (hresult : old.phase.result = none)
    (hwait : ∀ r, old.phase ≠ .waiting r) {e : CallId} {sent : Call} {r : Nat}
    (hsent : s.call e = some sent) : sent.origin ≠ .attempt i r := by
  intro horigin
  obtain ⟨call,hcall,-,-,⟨hres,-⟩ | ⟨hphase,-⟩⟩ := ht.attempt e sent i r hsent horigin
  · obtain rfl := Option.some.inj (hcall.symm.trans hold)
    exact hres hresult
  · obtain rfl := Option.some.inj (hcall.symm.trans hold)
    exact hwait r hphase

theorem Tracks.no_message (ht : Tracks c hash address s stage shard) {i : CallId} {old : Call}
    (hold : s.call i = some old) (hwait : ∀ r, old.phase ≠ .waiting r) (r : Nat) :
    (i,r) ∉ s.network := by
  intro hmem
  obtain ⟨call,hcall,-,hphase,-⟩ := ht.message i r hmem
  obtain rfl := Option.some.inj (hcall.symm.trans hold)
  exact hwait r hphase

theorem Tracks.client (ht : Tracks c hash address s stage shard) {i : CallId} {new : Call}
    {x : Stage Request KvResponse} {shard' : Nat → σ} (hrouted : Routed c hash s')
    (hcall : s'.call = Function.update s.call i (some new)) (hclient : new.origin = .client)
    (hroot : RootStage (asked new) x new.phase)
    (hmessage : ∀ r, (i,r) ∈ s'.network → new.phase = .waiting r ∧ x = .opened (asked new))
    (hnetwork : ∀ j r, j ≠ i → ((j,r) ∈ s'.network ↔ (j,r) ∈ s.network))
    (hattempt : ∀ e sent r, s.call e = some sent → sent.origin = .attempt i r →
      asked sent = asked new ∧ new.phase.result ≠ none ∧ sent.phase.result ≠ none)
    (hnodup : s'.network.Nodup)
    (hcaches : ∀ k b, (strSplit address)[k]? = some b → s'.cache b = shard' k) :
    Tracks c hash address s' (Function.update stage i x) shard' := by
  refine ⟨hcaches,hrouted,?_,?_,?_,?_,?_,hnodup⟩
  · intro id hid
    rw [hcall] at hid
    have hne : id ≠ i := by
      rintro rfl
      simp at hid
    rw [Function.update_of_ne hne] at hid ⊢
    exact ht.fresh id hid
  · intro id call hid horigin
    rw [hcall] at hid
    rcases update_found hid with ⟨rfl,rfl⟩ | ⟨hne,hid⟩
    · rw [Function.update_self]
      exact hroot
    · rw [Function.update_of_ne hne]
      exact ht.root id call hid horigin
  · intro id r hmem
    rw [hcall]
    by_cases hne : id = i
    · subst hne
      obtain ⟨hphase,hx⟩ := hmessage r hmem
      exact ⟨new,Function.update_self id _ s.call,hclient,hphase,by
        rw [Function.update_self, hx]⟩
    · rw [Function.update_of_ne hne, Function.update_of_ne hne]
      exact ht.message id r ((hnetwork id r hne).mp hmem)
  · intro e sent id r hsent horigin
    rw [hcall] at hsent ⊢
    rcases update_found hsent with ⟨rfl,rfl⟩ | ⟨-,hsent₀⟩
    · rw [hclient] at horigin
      cases horigin
    · by_cases hne : id = i
      · subst hne
        obtain ⟨hasked,hresults⟩ := hattempt e sent r hsent₀ horigin
        exact ⟨new,Function.update_self id _ s.call,hclient,hasked,Or.inl hresults⟩
      · rw [Function.update_of_ne hne, Function.update_of_ne hne, hnetwork id r hne]
        exact ht.attempt e sent id r hsent₀ horigin
  · intro e e' sent sent' id r r' hsent hsent' horigin horigin'
    rw [hcall] at hsent hsent'
    rcases update_found hsent with ⟨rfl,rfl⟩ | ⟨-,hsent⟩
    · rw [hclient] at horigin
      cases horigin
    · rcases update_found hsent' with ⟨rfl,rfl⟩ | ⟨-,hsent'⟩
      · rw [hclient] at horigin'
        cases horigin'
      · exact ht.oneAttempt e e' sent sent' id r r' hsent hsent' horigin horigin'

theorem Tracks.attempt_executed (ht : Tracks c hash address s stage shard)
    {i parent : CallId} {r : Nat} {old : Call} {response : KvResponse} {shard' : Nat → σ}
    (hold : s.call i = some old) (horigin : old.origin = .attempt parent r)
    (hphase : old.phase = .entered) (hrouted : Routed c hash s')
    (hcall : s'.call = Function.update s.call i
      (some { old with phase := .returned .okStatus response }))
    (hnetwork : s'.network = s.network)
    (hcaches : ∀ k b, (strSplit address)[k]? = some b → s'.cache b = shard' k) :
    stage parent = .opened (asked old) ∧ Tracks c hash address s'
      (Function.update stage parent (.applied (asked old) response)) shard' := by
  obtain ⟨sender,hsender,hclient,hasked,⟨-,hres⟩ | ⟨hwait,hgone,hstage⟩⟩ :=
    ht.attempt i old parent r hold horigin
  · rw [hphase] at hres
    exact absurd rfl hres
  rw [hphase] at hstage
  have hopened : stage parent = .opened (asked old) := by rw [hasked]; exact hstage
  have hparent : parent ≠ i := by
    rintro rfl
    obtain rfl := Option.some.inj (hsender.symm.trans hold)
    rw [hphase] at hwait
    cases hwait
  refine ⟨hopened,hcaches,hrouted,?_,?_,?_,?_,?_,by rw [hnetwork]; exact ht.nodup⟩
  · intro id hid
    rw [hcall] at hid
    have hne : id ≠ i := by
      rintro rfl
      simp at hid
    rw [Function.update_of_ne hne] at hid
    have hne' : id ≠ parent := by
      rintro rfl
      rw [hsender] at hid
      cases hid
    rw [Function.update_of_ne hne']
    exact ht.fresh id hid
  · intro id call hid hcl
    rw [hcall] at hid
    rcases update_found hid with ⟨rfl,rfl⟩ | ⟨-,hid⟩
    · rw [show Call.origin _ = old.origin from rfl, horigin] at hcl
      cases hcl
    · by_cases hne : id = parent
      · subst hne
        obtain rfl := Option.some.inj (hid.symm.trans hsender)
        rw [hwait]
        trivial
      · rw [Function.update_of_ne hne]
        exact ht.root id call hid hcl
  · intro id r' hmem
    rw [hnetwork] at hmem
    obtain ⟨call,hid,hcl,hph,hst⟩ := ht.message id r' hmem
    have hne : id ≠ i := by
      rintro rfl
      obtain rfl := Option.some.inj (hid.symm.trans hold)
      rw [hphase] at hph
      cases hph
    have hne' : id ≠ parent := by
      rintro rfl
      obtain rfl := Option.some.inj (hid.symm.trans hsender)
      obtain rfl := Phase.waiting.inj (hph.symm.trans hwait)
      exact hgone hmem
    exact ⟨call,by rw [hcall, Function.update_of_ne hne, hid],hcl,hph,by
      rw [Function.update_of_ne hne', hst]⟩
  · intro e sent id r' hsent ho
    rw [hcall] at hsent
    rcases update_found hsent with ⟨rfl,rfl⟩ | ⟨hne,hsent⟩
    · obtain ⟨rfl,rfl⟩ := Origin.attempt.inj (ho.symm.trans horigin)
      refine ⟨sender,by rw [hcall, Function.update_of_ne hparent, hsender],hclient,hasked,
        Or.inr ⟨hwait,by rw [hnetwork]; exact hgone,?_⟩⟩
      rw [Function.update_self, hasked]
      rfl
    · have hne' : id ≠ parent := by
        rintro rfl
        exact hne (ht.oneAttempt e i sent old id r' r hsent hold ho horigin)
      obtain ⟨call,hid,hcl,has,hst⟩ := ht.attempt e sent id r' hsent ho
      have hid' : id ≠ i := by
        rintro rfl
        obtain rfl := Option.some.inj (hid.symm.trans hold)
        rw [hcl] at horigin
        cases horigin
      exact ⟨call,by rw [hcall, Function.update_of_ne hid', hid],hcl,has,by
        rw [Function.update_of_ne hne', hnetwork]; exact hst⟩
  · intro e e' sent sent' id r₁ r₂ hsent hsent' ho ho'
    have hback : ∀ {e sent}, s'.call e = some sent → ∃ sent₀, s.call e = some sent₀ ∧
        sent₀.origin = sent.origin := by
      intro e sent hsent
      rw [hcall] at hsent
      rcases update_found hsent with ⟨rfl,rfl⟩ | ⟨-,hsent⟩
      · exact ⟨old,hold,rfl⟩
      · exact ⟨sent,hsent,rfl⟩
    obtain ⟨sent₀,hsent₀,ho₀⟩ := hback hsent
    obtain ⟨sent₀',hsent₀',ho₀'⟩ := hback hsent'
    exact ht.oneAttempt e e' sent₀ sent₀' id r₁ r₂ hsent₀ hsent₀' (ho₀.trans ho)
      (ho₀'.trans ho')

theorem Tracks.delivered (ht : Tracks c hash address s stage shard) {i parent : CallId}
    {r : Nat} {new : Call} (hnew : s.call i = none) (hmem : (parent,r) ∈ s.network)
    (horigin : new.origin = .attempt parent r) (hphase : new.phase = .entered)
    (hasked : ∀ sender, s.call parent = some sender → asked new = asked sender)
    (hcall : s'.call = Function.update s.call i (some new))
    (hnetwork : s'.network = s.network.erase (parent,r)) (hrouted : Routed c hash s')
    (hcache : s'.cache = s.cache) : Tracks c hash address s' stage shard := by
  obtain ⟨sender,hsender,hclient,hwait,hopened⟩ := ht.message parent r hmem
  have hold : ∀ {j call}, s.call j = some call → s'.call j = some call := by
    intro j call hj
    have hne : j ≠ i := by
      rintro rfl
      rw [hnew] at hj
      cases hj
    rw [hcall, Function.update_of_ne hne, hj]
  have hfirst : ∀ {e sent r'}, s.call e = some sent → sent.origin ≠ .attempt parent r' := by
    intro e sent r' hsent ho
    obtain ⟨call,hid,-,-,⟨hres,-⟩ | ⟨hph,hgone,-⟩⟩ := ht.attempt e sent parent r' hsent ho
    · obtain rfl := Option.some.inj (hid.symm.trans hsender)
      rw [hwait] at hres
      exact hres rfl
    · obtain rfl := Option.some.inj (hid.symm.trans hsender)
      obtain rfl := Phase.waiting.inj (hph.symm.trans hwait)
      exact hgone hmem
  refine ⟨by rw [hcache]; exact ht.caches,hrouted,?_,?_,?_,?_,?_,?_⟩
  · intro id hid
    rw [hcall] at hid
    have hne : id ≠ i := by
      rintro rfl
      simp at hid
    rw [Function.update_of_ne hne] at hid
    exact ht.fresh id hid
  · intro id call hid hcl
    rw [hcall] at hid
    rcases update_found hid with ⟨rfl,rfl⟩ | ⟨-,hid⟩
    · rw [horigin] at hcl
      cases hcl
    · exact ht.root id call hid hcl
  · intro id r' hm
    rw [hnetwork] at hm
    obtain ⟨call,hid,hrest⟩ := ht.message id r' (List.mem_of_mem_erase hm)
    exact ⟨call,hold hid,hrest⟩
  · intro e sent id r' hsent ho
    rw [hcall] at hsent
    rw [hnetwork]
    rcases update_found hsent with ⟨rfl,rfl⟩ | ⟨-,hsent⟩
    · obtain ⟨rfl,rfl⟩ := Origin.attempt.inj (ho.symm.trans horigin)
      refine ⟨sender,hold hsender,hclient,hasked sender hsender,
        Or.inr ⟨hwait,ht.nodup.not_mem_erase,?_⟩⟩
      rw [hphase]
      exact hopened
    · obtain ⟨call,hid,hcl,has,hst⟩ := ht.attempt e sent id r' hsent ho
      refine ⟨call,hold hid,hcl,has,hst.imp_right ?_⟩
      rintro ⟨hph,hgone,hst⟩
      exact ⟨hph,fun hm => hgone (List.mem_of_mem_erase hm),hst⟩
  · intro e e' sent sent' id r₁ r₂ hsent hsent' ho ho'
    rw [hcall] at hsent hsent'
    rcases update_found hsent with ⟨hi,rfl⟩ | ⟨-,hold₁⟩ <;>
      rcases update_found hsent' with ⟨hi',rfl⟩ | ⟨-,hold₂⟩
    · exact hi.trans hi'.symm
    · obtain ⟨rfl,-⟩ := Origin.attempt.inj (ho.symm.trans horigin)
      exact absurd ho' (hfirst hold₂)
    · obtain ⟨rfl,-⟩ := Origin.attempt.inj (ho'.symm.trans horigin)
      exact absurd ho (hfirst hold₁)
    · exact ht.oneAttempt e e' sent sent' id r₁ r₂ hold₁ hold₂ ho ho'
  · rw [hnetwork]
    exact ht.nodup.erase _

def position (hash : Bytes → UInt64) (address : Bytes) (op : Request) : Nat :=
  slot hash address op.2.key

variable [LRUCache σ]

theorem execute_position (hshared : ∀ a flag, c.peersFlag a = some flag → flag = address)
    {call : Call} {p : KvProxy} (hp : c.proxy call.node = some p)
    (hown : p.Owns hash call.request.key) :
    (strSplit address)[position hash address (asked call)]? = some call.node := by
  obtain ⟨flag,hflag,rfl⟩ := Cluster.flag_of_proxy hp
  obtain rfl := hshared _ flag hflag
  rw [tableOf_owns] at hown
  change (strSplit flag)[slot hash flag call.request.key]? = some call.node
  rw [← hown]
  exact List.getElem?_idxOf (Cluster.mem_of_flag hflag)

theorem tracks_step (hshared : ∀ a flag, c.peersFlag a = some flag → flag = address)
    (hnodup : (strSplit address).Nodup) {l : Label} (hl : reliable l = true)
    (ht : Tracks c hash address s stage shard) (h : Step c hash s l s') :
    ∃ stage' shard', Move (applyAt (position hash address) SingleNode.serve) (clientEvent l)
      stage shard stage' shard' ∧ Tracks c hash address s' stage' shard' := by
  have hrouted := routed_step ht.routed h
  have hself : ∀ i x, stage i = x → Function.update stage i x = stage := by
    rintro i x rfl
    exact Function.update_eq_self i stage
  cases h with
  | @invoke i node method request _ hnone =>
    refine ⟨_,shard,.invoke stage shard i (method,request) (ht.fresh i hnone),
      ht.client hrouted rfl rfl rfl ?_ (fun _ _ _ => Iff.rfl) ?_ ht.nodup ht.caches⟩
    · intro r hmem
      obtain ⟨call,hcall,-⟩ := ht.message i r hmem
      rw [hnone] at hcall
      cases hcall
    · intro e sent r hsent horigin
      obtain ⟨call,hcall,-⟩ := ht.attempt e sent i r hsent horigin
      rw [hnone] at hcall
      cases hcall
  | @execute i call p hcall hphase hp hown =>
    have hat := execute_position hshared hp hown
    have hcaches := ht.caches_update hnodup hat
      (Cache.run call.method call.request {} (s.cache call.node)).2
    have hserve : applyAt (position hash address) SingleNode.serve (asked call) shard =
        ((Cache.run call.method call.request {} (s.cache call.node)).1,
          Function.update shard (position hash address (asked call))
            (Cache.run call.method call.request {} (s.cache call.node)).2) := by
      rw [applyAt, SingleNode.serve_eq, ← ht.caches _ _ hat]
      rfl
    cases horigin : call.origin with
    | client =>
      have hopened : stage i = .opened (asked call) := by
        have hroot := ht.root i call hcall horigin
        rwa [hphase] at hroot
      have hmove : Move (applyAt (position hash address) SingleNode.serve) none stage shard _ _ :=
        .commit stage shard i (asked call) hopened
      rw [hserve] at hmove
      refine ⟨_,_,hmove,ht.client hrouted rfl horigin rfl ?_ (fun _ _ _ => Iff.rfl) ?_
        ht.nodup hcaches⟩
      · intro r hmem
        exact absurd hmem (ht.no_message hcall (by simp [hphase]) r)
      · intro e sent r hsent ho
        exact absurd ho (ht.no_attempt hcall (by rw [hphase]; rfl) (by simp [hphase]) hsent)
    | attempt parent r =>
      obtain ⟨hopened,htracks⟩ := ht.attempt_executed hcall horigin hphase hrouted rfl rfl hcaches
      have hmove : Move (applyAt (position hash address) SingleNode.serve) none stage shard _ _ :=
        .commit stage shard parent (asked call) hopened
      rw [hserve] at hmove
      exact ⟨_,_,hmove,htracks⟩
  | @startFiber i call p ret hcall hphase hp hown =>
    have hret : ret = 0 := by simpa [reliable] using hl
    refine ⟨stage,shard,.stay stage shard,?_⟩
    cases horigin : call.origin with
    | attempt parent r =>
      exact absurd (attempt_owns hshared hnodup ht.routed hcall horigin hp) hown
    | client =>
      have hopened : stage i = .opened (asked call) := by
        have hroot := ht.root i call hcall horigin
        rwa [hphase] at hroot
      rw [← hself i _ hopened]
      refine ht.client hrouted rfl horigin (by rw [if_pos hret]; rfl) ?_
        (fun _ _ _ => Iff.rfl) ?_ ht.nodup ht.caches
      · intro r hmem
        exact absurd hmem (ht.no_message hcall (by simp [hphase]) r)
      · intro e sent r hsent ho
        exact absurd ho (ht.no_attempt hcall (by rw [hphase]; rfl) (by simp [hphase]) hsent)
  | initFails => cases hl
  | timeout => cases hl
  | @transmit i call r hcall hphase =>
    refine ⟨stage,shard,.stay stage shard,?_⟩
    cases horigin : call.origin with
    | attempt parent r' =>
      obtain ⟨sender,-,-,-,⟨-,hres⟩ | ⟨-,-,hst⟩⟩ := ht.attempt i call parent r' hcall horigin
      · rw [hphase] at hres
        exact absurd rfl hres
      · rw [hphase] at hst
        exact hst.elim
    | client =>
      have hopened : stage i = .opened (asked call) := by
        have hroot := ht.root i call hcall horigin
        rwa [hphase] at hroot
      have hfree := ht.no_message hcall (by simp [hphase])
      rw [← hself i _ hopened]
      refine ht.client hrouted rfl horigin trivial ?_ ?_ ?_
        (List.nodup_cons.mpr ⟨hfree r,ht.nodup⟩) ht.caches
      · intro r' hmem
        rcases List.mem_cons.mp hmem with he | hmem
        · obtain ⟨-,rfl⟩ := Prod.mk.inj he
          exact ⟨rfl,rfl⟩
        · exact absurd hmem (hfree r')
      · intro j r' hj
        simp [hj]
      · intro e sent r' hsent ho
        exact absurd ho (ht.no_attempt hcall (by rw [hphase]; rfl) (by simp [hphase]) hsent)
  | @deliver parent i r sender p hsender hp hmem hrun hnone =>
    refine ⟨stage,shard,.stay stage shard,?_⟩
    refine ht.delivered hnone hmem rfl rfl ?_ rfl rfl hrouted rfl
    intro sender' hsender'
    obtain rfl := Option.some.inj (hsender.symm.trans hsender')
    rfl
  | @reply i parent call sender r rs response w hcall horigin hphase hwire hsender hwait =>
    refine ⟨stage,shard,.stay stage shard,?_⟩
    obtain ⟨sender',hsender',hclient,hasked,⟨hres,-⟩ | ⟨-,hgone,hst⟩⟩ :=
      ht.attempt i call parent r hcall horigin
    · obtain rfl := Option.some.inj (hsender.symm.trans hsender')
      rw [hwait] at hres
      exact absurd rfl hres
    · obtain rfl := Option.some.inj (hsender.symm.trans hsender')
      have happlied : stage parent = .applied (asked sender) w.parse := by
        rw [hphase, wire_parse hwire] at hst
        exact hst
      rw [← hself parent _ happlied]
      refine ht.client hrouted rfl hclient rfl ?_ (fun _ _ _ => Iff.rfl) ?_ ht.nodup ht.caches
      · intro r' hmem
        obtain ⟨call',hcall',-,hph,-⟩ := ht.message parent r' hmem
        obtain rfl := Option.some.inj (hsender.symm.trans hcall')
        obtain rfl := Phase.waiting.inj (hph.symm.trans hwait)
        exact absurd hmem hgone
      · intro e sent r' hsent ho
        obtain rfl := ht.oneAttempt e i sent call parent r' r hsent hcall ho horigin
        obtain rfl := Option.some.inj (hsent.symm.trans hcall)
        exact ⟨hasked,by simp [Phase.result],by simp [hphase, Phase.result]⟩
  | @respond i call rs response hcall hclient hphase =>
    have happlied : stage i = .applied (asked call) response := by
      have hroot := ht.root i call hcall hclient
      rwa [hphase] at hroot
    refine ⟨_,shard,.respond stage shard i (asked call) response happlied,
      ht.client hrouted rfl hclient trivial ?_ (fun _ _ _ => Iff.rfl) ?_ ht.nodup ht.caches⟩
    · intro r hmem
      exact absurd hmem (ht.no_message hcall (by simp [hphase]) r)
    · intro e sent r hsent ho
      obtain ⟨call',hcall',-,hasked,⟨-,hres⟩ | ⟨hwait,-⟩⟩ := ht.attempt e sent i r hsent ho
      · obtain rfl := Option.some.inj (hcall.symm.trans hcall')
        exact ⟨hasked,by simp [Phase.result],hres⟩
      · obtain rfl := Option.some.inj (hcall.symm.trans hcall')
        rw [hphase] at hwait
        cases hwait

end Steps

section Refinement
variable [LRUCache σ] {cache₀ : Bytes → σ} {tr : List Label}

omit [LRUCache σ] in
theorem tracks_init (hash : Bytes → UInt64) (cache₀ : Bytes → σ) :
    Tracks c hash address (.init cache₀) (fun _ => .idle)
      (fun i => cache₀ ((strSplit address).getD i [])) := by
  refine ⟨?_,⟨?_,?_,?_⟩,fun _ _ => rfl,?_,?_,?_,?_,List.nodup_nil⟩
  · intro i b hb
    simp [State.init, List.getD, hb]
  · intro id call hcall
    cases hcall
  · intro id r hmem
    cases hmem
  · intro id call parent r hcall
    cases hcall
  · intro id call hcall
    cases hcall
  · intro id r hmem
    cases hmem
  · intro e sent id r hsent
    cases hsent
  · intro e e' sent sent' id r r' hsent
    cases hsent

/-- `order` explains a run of the cluster by a008 servers, one for each position of
the list of peers: every answered request is in it once, with the response its
client got; a request answered before another was made comes before it; and the
server at each position, given the requests of its keys in this order, answers
them in this way and ends with the cache of the node at that position. -/
structure Refines (hash : Bytes → UInt64) (address : Bytes) (cache₀ : Bytes → σ)
    (tr : List Label) (s : State σ) (order : List (Entry CallId Request KvResponse)) :
    Prop where
  once : (order.map Entry.id).Nodup
  invoked : ∀ e ∈ order, ∃ node, .invoke e.id node e.op.1 e.op.2 ∈ tr
  answered : ∀ id response, .respond id response ∈ tr → ∃ op, ⟨id,op,response⟩ ∈ order
  realtime : ∀ i j, Precedes (tr.filterMap clientEvent) i j →
    ∀ u e v, order = u ++ e :: v → e.id = j → i ∈ u.map Entry.id
  served : ∀ i b, (strSplit address)[i]? = some b →
    replay SingleNode.serve
        ((order.filter fun e => decide (position hash address e.op = i)).map Entry.op)
        (cache₀ b) =
      ((order.filter fun e => decide (position hash address e.op = i)).map Entry.answer,
        s.cache b)

/-- Every run whose forwarded RPCs are all executed and answered refines the
single-node servers. -/
theorem refines_singleNode (hshared : ∀ a flag, c.peersFlag a = some flag → flag = address)
    (hnodup : (strSplit address).Nodup) (hreliable : ∀ l ∈ tr, reliable l = true)
    (hrun : runFrom (step c hash) (.init cache₀) tr = some s) :
    ∃ order, Refines hash address cache₀ tr s order := by
  obtain ⟨order,stage,shard,hlin,ht⟩ := simulation_linearizes clientEvent
    (fun _ l => reliable l = true) (Tracks c hash address) (tracks_init hash cache₀)
    (fun _ _ _ _ _ ht hl hn => tracks_step hshared hnodup hl ht (step_sound c hash hn)) hrun
    (guarded_of_forall hreliable)
  refine ⟨order,hlin.nodup,?_,?_,hlin.realtime,?_⟩
  · intro e he
    obtain ⟨l,hl,hevent⟩ := List.mem_filterMap.mp (hlin.invoked e he)
    cases l with
    | invoke id node method request =>
      obtain ⟨rfl,hop⟩ := Event.invoke.inj (Option.some.inj hevent)
      exact ⟨node,by rw [← hop]; exact hl⟩
    | respond => cases hevent
    | execute | startFiber | initFails | transmit | timeout | deliver | reply => cases hevent
  · intro id response hmem
    exact hlin.answered id response (List.mem_filterMap.mpr ⟨_,hmem,rfl⟩)
  · intro i b hb
    have hshard := replay_shard (position hash address) SingleNode.serve order i hlin.legal
    rw [ht.caches i b hb, ← hshard]
    simp [List.getD, hb]

end Refinement

/-- A set that enters at "a" and is executed at "b" while "b" answers a get of the
same key; then a remove enters at "a", and a set of another key at "b". -/
def overlapping : List Label :=
  [.invoke 0 (text "a") .set ⟨text "k",some (text "v")⟩,.startFiber 0 0,.transmit 0,
    .invoke 1 (text "b") .get ⟨text "k",none⟩,.deliver 0 0 2,.execute 2,.execute 1,
    .respond 1 ⟨some 0,some (text "ok"),some (text "v")⟩,.reply 2,
    .respond 0 ⟨some 0,some (text "ok"),none⟩,.invoke 3 (text "a") .remove ⟨text "k",none⟩,
    .startFiber 3 0,.transmit 3,.deliver 3 0 4,.execute 4,.reply 4,
    .respond 3 ⟨some 0,some (text "ok"),some (text "v")⟩,
    .invoke 5 (text "b") .set ⟨text "j",some (text "w")⟩,.execute 5,
    .respond 5 ⟨some 0,some (text "ok"),none⟩]

theorem refines_overlapping :
    ∃ s order, runFrom (step (.everyPeer (text "a,b")) fun _ => 1)
        (.init fun _ => (Lru.empty 4 : Lru Bytes Bytes)) overlapping = some s ∧
      (s.cache (text "a")).entries = [] ∧
      (s.cache (text "b")).entries = [(text "j",text "w")] ∧
      Refines (fun _ => 1) (text "a,b") (fun _ => (Lru.empty 4 : Lru Bytes Bytes)) overlapping
        s order := by
  have hcaches : (runFrom (step (.everyPeer (text "a,b")) fun _ => 1)
      (.init fun _ => (Lru.empty 4 : Lru Bytes Bytes)) overlapping).map
        (fun s => ((s.cache (text "a")).entries,(s.cache (text "b")).entries)) =
      some ([],[(text "j",text "w")]) := by decide
  obtain ⟨s,hs,hentries⟩ := Option.map_eq_some_iff.mp hcaches
  obtain ⟨ha,hb⟩ := Prod.mk.inj hentries
  obtain ⟨order,horder⟩ := refines_singleNode (Cluster.everyPeer_shared (text "a,b"))
    (by decide) (by decide) hs
  exact ⟨s,order,hs,ha,hb,horder⟩

end EaHalfHour.ClusterRefinement
