import EaHalfHour.PeerLists
import EaHalfHour.ResponseOrigin

/-! How a call of the cluster moves on, whatever the network does with its attempts:
each of its own steps brings it nearer to its response, and until then it has one to
make. Lists of peers that send a request round in circles change nothing of this. -/
namespace EaHalfHour.CallProgress
open LabelledRun AtomicObject KvMessage KvCache RecencyMap SendLoop ProxyNode DeliveredRouting
  ClusterNetwork ResponseOrigin PeerLists

inductive Moves : Phase → Phase → Prop where
  | executes (response : KvResponse) : Moves .entered (.returned .okStatus response)
  | starts : Moves .entered (.sending 0)
  | initFails (r : Nat) : Moves (.sending r) (.after (turn kRetryTimes {} r .initFails))
  | transmits (r : Nat) : Moves (.sending r) (.waiting r)
  | callFails (r : Nat) : Moves (.waiting r) (.after (turn kRetryTimes {} r .callFails))
  | replied (r : Nat) (response : KvResponse) :
      Moves (.waiting r) (.returned .okStatus response)
  | responds (rs : Status) (response : KvResponse) :
      Moves (.returned rs response) (.answered rs response)

theorem after_failed {r : Nat} {a : Attempt} (ha : a.failed = true) :
    Phase.after (turn kRetryTimes {} r a) =
      if r + 1 < 3 then .sending (r + 1) else .returned .okStatus {} := by
  rw [turn_failed kRetryTimes {} r ha]
  by_cases hlt : r + 1 < 3
  · rw [if_pos hlt, if_pos (by unfold kRetryTimes; omega)]
    rfl
  · rw [if_neg hlt, if_neg (by unfold kRetryTimes; omega)]
    rfl

def Phase.Numbered : Phase → Prop
  | .sending r | .waiting r => r < 3
  | .entered | .returned _ _ | .answered _ _ => True

theorem Moves.numbered {x y : Phase} (h : Moves x y) (hx : Phase.Numbered x) :
    Phase.Numbered y := by
  cases h with
  | executes | replied | responds => trivial
  | starts => exact Nat.zero_lt_succ 2
  | transmits => exact hx
  | initFails r | callFails r =>
    rw [after_failed rfl]
    by_cases hlt : r + 1 < 3
    · rw [if_pos hlt]
      exact hlt
    · rw [if_neg hlt]
      trivial

/-- How many steps of its own a client's call is from being answered, at most. -/
def Phase.rank : Phase → Nat
  | .entered => 8
  | .sending r => 2 * (3 - r) + 1
  | .waiting r => 2 * (3 - r)
  | .returned _ _ => 1
  | .answered _ _ => 0

theorem Moves.rank_lt {x y : Phase} (h : Moves x y) (hx : Phase.Numbered x) :
    Phase.rank y < Phase.rank x := by
  cases h with
  | executes => exact (by decide : 1 < 8)
  | starts => exact Nat.lt_succ_self 7
  | responds => exact Nat.zero_lt_one
  | transmits => exact Nat.lt_succ_self _
  | replied r =>
    have hr : r < 3 := hx
    simp only [Phase.rank]
    omega
  | initFails r | callFails r =>
    have hr : r < 3 := hx
    rw [after_failed rfl]
    by_cases hlt : r + 1 < 3
    · rw [if_pos hlt]
      simp only [Phase.rank]
      omega
    · rw [if_neg hlt]
      simp only [Phase.rank]
      omega

section Steps
variable {σ : Type} {c : Cluster} {hash : Bytes → UInt64} {s s' : State σ} {l : Label}

def mover (s : State σ) : Label → Option CallId
  | .invoke _ _ _ _ | .deliver _ _ _ => none
  | .execute id | .startFiber id _ | .initFails id | .transmit id | .timeout id
  | .respond id _ => some id
  | .reply id => (s.call id).bind fun call =>
    match call.origin with
    | .attempt parent _ => some parent
    | .client => none

variable [LRUCache σ]

theorem step_moves (h : Step c hash s l s') {id : CallId} {call : Call}
    (hcall : s.call id = some call) :
    ∃ call', s'.call id = some call' ∧ call'.identity = call.identity ∧
      (mover s l = some id → Moves call.phase call'.phase) ∧
      (mover s l ≠ some id → call' = call) := by
  have hown : ∀ {i old phase}, s.call i = some old →
      s'.call = Function.update s.call i (some { old with phase }) →
      mover s l = some i → Moves old.phase phase →
      ∃ call', s'.call id = some call' ∧ call'.identity = call.identity ∧
        (mover s l = some id → Moves call.phase call'.phase) ∧
        (mover s l ≠ some id → call' = call) := by
    intro i old phase hold he hmover hmoves
    rw [he]
    by_cases hid : id = i
    · subst hid
      obtain rfl := Option.some.inj (hcall.symm.trans hold)
      exact ⟨_,Function.update_self ..,rfl,fun _ => hmoves,fun hne => absurd hmover hne⟩
    · refine ⟨call,by rw [Function.update_of_ne hid, hcall],rfl,fun h => ?_,fun _ => rfl⟩
      exact absurd (Option.some.inj (h.symm.trans hmover)) hid
  have hnew : ∀ {i new}, s.call i = none → s'.call = Function.update s.call i (some new) →
      mover s l = none → ∃ call', s'.call id = some call' ∧ call'.identity = call.identity ∧
        (mover s l = some id → Moves call.phase call'.phase) ∧
        (mover s l ≠ some id → call' = call) := by
    intro i new hnone he hmover
    have hid : id ≠ i := by
      rintro rfl
      rw [hcall] at hnone
      cases hnone
    rw [he]
    refine ⟨call,by rw [Function.update_of_ne hid, hcall],rfl,fun h => ?_,fun _ => rfl⟩
    rw [hmover] at h
    cases h
  cases h with
  | invoke _ hnone => exact hnew hnone rfl rfl
  | deliver _ _ _ _ hnone => exact hnew hnone rfl rfl
  | execute hold hphase => exact hown hold rfl rfl (by rw [hphase]; exact .executes _)
  | startFiber ret hold hphase =>
    refine hown hold rfl rfl ?_
    rw [hphase]
    by_cases hret : ret = 0
    · rw [if_pos hret]
      exact .starts
    · rw [if_neg hret]
      exact .executes _
  | initFails hold hphase => exact hown hold rfl rfl (by rw [hphase]; exact .initFails _)
  | transmit hold hphase => exact hown hold rfl rfl (by rw [hphase]; exact .transmits _)
  | timeout hold hphase => exact hown hold rfl rfl (by rw [hphase]; exact .callFails _)
  | reply hsent horigin _ _ hold hphase =>
    refine hown hold rfl ?_ (by rw [hphase]; exact .replied _ _)
    rw [mover, hsent, Option.bind_some, horigin]
  | respond hold _ hphase => exact hown hold rfl rfl (by rw [hphase]; exact .responds _ _)

theorem step_new (h : Step c hash s l s') {id : CallId} {call : Call} (hnone : s.call id = none)
    (hcall : s'.call id = some call) : call.phase = .entered ∧ mover s l ≠ some id := by
  obtain ⟨i,new,he,hi⟩ := step_touches h
  rw [he] at hcall
  rcases update_found hcall with ⟨rfl,rfl⟩ | ⟨-,hold⟩
  · rcases hi with ⟨-,hjoin⟩ | ⟨old,hold,-⟩
    · cases hjoin <;> exact ⟨rfl,by simp [mover]⟩
    · rw [hnone] at hold
      cases hold
  · rw [hnone] at hold
    cases hold

theorem invoke_new {id : CallId} {node : Bytes} {method : Method} {request : KvRequest}
    (h : Step c hash s (.invoke id node method request) s') : s.call id = none := by
  cases h with
  | invoke _ hnone => exact hnone

theorem mover_called (h : Step c hash s l s') {id : CallId} (hmover : mover s l = some id) :
    ∃ call, s.call id = some call := by
  cases h with
  | invoke | deliver => cases hmover
  | execute hcall | startFiber _ hcall | initFails hcall | transmit hcall | timeout hcall
  | respond hcall =>
    obtain rfl := Option.some.inj hmover
    exact ⟨_,hcall⟩
  | reply hsent horigin _ _ hold =>
    rw [mover, hsent, Option.bind_some, horigin] at hmover
    obtain rfl := Option.some.inj hmover
    exact ⟨_,hold⟩

structure Underway (c : Cluster) (s : State σ) : Prop where
  numbered : ∀ id call, s.call id = some call → Phase.Numbered call.phase
  running : ∀ id call, s.call id = some call → (c.proxy call.node).isSome

theorem underway_run {cache₀ : Bytes → σ} {tr : List Label}
    (hrun : runFrom (step c hash) (.init cache₀) tr = some s) : Underway c s := by
  refine run_invariant (P := fun _ s => Underway c s) ⟨?_,?_⟩ ?_ tr s hrun
  · intro id call hcall
    cases hcall
  · intro id call hcall
    cases hcall
  intro es m l n _ hm hn
  have hstep := step_sound c hash hn
  refine ⟨fun id call hcall => ?_,fun id call hcall => ?_⟩
  · cases hold : m.call id with
    | none =>
      rw [(step_new hstep hold hcall).1]
      trivial
    | some old =>
      obtain ⟨call',hcall',-,hmoves,hstays⟩ := step_moves hstep hold
      obtain rfl := Option.some.inj (hcall.symm.trans hcall')
      by_cases hmover : mover m l = some id
      · exact (hmoves hmover).numbered (hm.numbered id old hold)
      · rw [hstays hmover]
        exact hm.numbered id old hold
  · cases hold : m.call id with
    | some old =>
      obtain ⟨call',hcall',hsame,-⟩ := step_moves hstep hold
      obtain rfl := Option.some.inj (hcall.symm.trans hcall')
      obtain ⟨hnode,-⟩ := Call.identity_eq hsame
      rw [hnode]
      exact hm.running id old hold
    | none =>
      -- a node takes calls only while it runs
      have hat : ∀ {i new}, n.call = Function.update m.call i (some new) →
          (c.proxy new.node).isSome → (c.proxy call.node).isSome := by
        intro i new he hrunning
        rw [he] at hcall
        rcases update_found hcall with ⟨-,rfl⟩ | ⟨-,hcall⟩
        · exact hrunning
        · rw [hold] at hcall
          cases hcall
      have hkept : ∀ {i old phase}, m.call i = some old →
          n.call = Function.update m.call i (some { old with phase }) →
          (c.proxy call.node).isSome := fun {i old phase} hi he =>
        hat he (hm.running i old hi)
      cases hstep with
      | invoke hrunning => exact hat rfl hrunning
      | deliver _ _ _ hrunning => exact hat rfl hrunning
      | execute hi | startFiber _ hi | initFails hi | transmit hi | timeout hi | respond hi =>
        exact hkept hi rfl
      | reply _ _ _ _ hi => exact hkept hi rfl

/-- A client's call that is not answered has a step of its own to make: a wait for a
reply can always be given up. -/
theorem own_step_enabled (h : Underway c s) {id : CallId} {call : Call}
    (hcall : s.call id = some call) (hclient : call.origin = .client)
    (hopen : ∀ rs response, call.phase ≠ .answered rs response) :
    ∃ l t, mover s l = some id ∧ step c hash s l = some t := by
  suffices hl : ∃ l, mover s l = some id ∧ (step c hash s l).isSome by
    obtain ⟨l,hmover,hsome⟩ := hl
    obtain ⟨t,ht⟩ := Option.isSome_iff_exists.mp hsome
    exact ⟨l,t,hmover,ht⟩
  obtain ⟨p,hp⟩ := Option.isSome_iff_exists.mp (h.running id call hcall)
  cases hphase : call.phase with
  | entered =>
    by_cases hown : p.Owns hash call.request.key
    · exact ⟨.execute id,rfl,by simp [step, hcall, hp, hphase, hown]⟩
    · exact ⟨.startFiber id 0,rfl,by simp [step, hcall, hp, hphase, hown]⟩
  | sending r => exact ⟨.transmit id,rfl,by simp [step, hcall, hphase]⟩
  | waiting r => exact ⟨.timeout id,rfl,by simp [step, hcall, hphase]⟩
  | returned rs response =>
    exact ⟨.respond id response,rfl,by simp [step, hcall, hclient, hphase]⟩
  | answered rs response => exact absurd hphase (hopen rs response)

def Answered (id : CallId) (s : State σ) : Prop :=
  ∀ call, s.call id = some call → call.origin = .client →
    ∃ rs response, call.phase = .answered rs response

def pending (id : CallId) (s : State σ) : Nat :=
  match s.call id with
  | none => 8
  | some call => Phase.rank call.phase

theorem pending_step (h : Step c hash s l s') (hs : Underway c s) (id : CallId) :
    pending id s' ≤ pending id s ∧ (mover s l = some id → pending id s' < pending id s) := by
  cases hold : s.call id with
  | none =>
    have hmover : mover s l ≠ some id := fun hmover => by
      obtain ⟨call,hcall⟩ := mover_called h hmover
      rw [hold] at hcall
      cases hcall
    refine ⟨?_,fun hm => absurd hm hmover⟩
    cases hnew : s'.call id with
    | none => simp only [pending, hold, hnew, le_refl]
    | some call => simp only [pending, hold, hnew, (step_new h hold hnew).1, Phase.rank, le_refl]
  | some call =>
    obtain ⟨call',hcall',-,hmoves,hstays⟩ := step_moves h hold
    simp only [pending, hold, hcall']
    by_cases hmover : mover s l = some id
    · have hlt := (hmoves hmover).rank_lt (hs.numbered id call hold)
      exact ⟨hlt.le,fun _ => hlt⟩
    · rw [hstays hmover]
      exact ⟨le_refl _,fun hm => absurd hm hmover⟩

end Steps

section Runs
variable {σ : Type} [LRUCache σ] {c : Cluster} {hash : Bytes → UInt64} {cache₀ : Bytes → σ}
  {tr : List Label} {s : State σ}

theorem responded_of_answered (hrun : runFrom (step c hash) (.init cache₀) tr = some s)
    {id : CallId} {call : Call} {rs : Status} {response : KvResponse}
    (hcall : s.call id = some call) (hphase : call.phase = .answered rs response) :
    .respond id response ∈ tr := by
  refine run_invariant (P := fun tr (s : State σ) => ∀ (call : Call) rs response, s.call id = some call →
    call.phase = .answered rs response → .respond id response ∈ tr)
    (fun call rs response hcall => by cases hcall) ?_ tr s hrun call rs response hcall hphase
  intro es m l n hm hP hn call rs response hcall hphase
  have hstep := step_sound c hash hn
  cases hold : m.call id with
  | none =>
    rw [(step_new hstep hold hcall).1] at hphase
    cases hphase
  | some old =>
    obtain ⟨call',hcall',-,hmoves,hstays⟩ := step_moves hstep hold
    obtain rfl := Option.some.inj (hcall.symm.trans hcall')
    by_cases hmover : mover m l = some id
    · -- the only step that ends answered is the respond itself
      have hat : ∀ {i : CallId} {old : Call} {phase : Phase},
          n.call = Function.update m.call i (some { old with phase }) →
          mover m l = some i → phase = .answered rs response := by
        intro i old phase he hi
        obtain rfl := Option.some.inj (hi.symm.trans hmover)
        rw [he, Function.update_self] at hcall
        obtain rfl := Option.some.inj hcall
        exact hphase
      cases hstep with
      | invoke | deliver => cases hmover
      | execute => cases hat rfl rfl
      | startFiber ret =>
        have hfalse := hat rfl rfl
        split at hfalse <;> cases hfalse
      | transmit => cases hat rfl rfl
      | initFails | timeout =>
        have hfalse := hat rfl rfl
        rw [after_failed rfl] at hfalse
        split at hfalse <;> cases hfalse
      | reply hsent horigin _ _ hold' =>
        cases hat rfl (by rw [mover, hsent, Option.bind_some, horigin])
      | respond hold' =>
        obtain rfl := Option.some.inj hmover
        obtain ⟨-,rfl⟩ := Phase.answered.inj (hat rfl rfl)
        simp
    · rw [hstays hmover] at hphase
      exact List.mem_append_left _ (hP old rs response hold hphase)

/-- In every run in which a call may not be passed over for ever, what a client asks is
answered, within eight steps of its call: attempts may all be lost and lists of peers
may send the request round in circles. -/
theorem answered_in_fair_run {state : Nat → State σ} {label : Nat → Label}
    (hruns : Endless (step c hash) (.init cache₀) state label) {n : Nat} {id : CallId}
    {node : Bytes} {method : Method} {request : KvRequest}
    (hinvoke : label n = .invoke id node method request)
    (hfair : WeaklyFair (step c hash) (fun s l => mover s l = some id) state label) :
    (∃ m response, n < m ∧ label m = .respond id response) ∧
      ∀ k, ((Finset.range k).filter fun m => mover (state m) (label m) = some id).card ≤ 8 := by
  have hstep : ∀ m, Step c hash (state m) (label m) (state (m+1)) := fun m =>
    step_sound c hash (hruns.next m)
  have hunder : ∀ m, Underway c (state m) := fun m => underway_run (hruns.run_until m)
  have hkeep := fun m => (pending_step (hstep m) (hunder m) id).1
  have hdrop := fun m => (pending_step (hstep m) (hunder m) id).2
  refine ⟨?_,fun k => ?_⟩
  · have henabled : ∀ m, ¬ Answered id (state m) →
        ∃ l t, mover (state m) l = some id ∧ step c hash (state m) l = some t := by
      intro m hnot
      unfold Answered at hnot
      push Not at hnot
      obtain ⟨call,hcall,hclient,hopen⟩ := hnot
      exact own_step_enabled (hunder m) hcall hclient hopen
    obtain ⟨m,hm,hQ⟩ := reached_of_rank hkeep hdrop henabled hfair (n+1)
    have hmem : .invoke id node method request ∈ (List.range m).map label :=
      List.mem_map.mpr ⟨n,List.mem_range.mpr hm,hinvoke⟩
    obtain ⟨call,hcall,hid⟩ := invoked_run (hruns.run_until m) hmem
    obtain ⟨rs,response,hphase⟩ := hQ call hcall (congrArg (·.2.2.2) hid)
    obtain ⟨k,hk,hrespond⟩ :=
      List.mem_map.mp (responded_of_answered (hruns.run_until m) hcall hphase)
    refine ⟨k,response,?_,hrespond⟩
    by_contra hle
    have hne : k ≠ n := by
      rintro rfl
      rw [hinvoke] at hrespond
      cases hrespond
    have hbefore : .respond id response ∈ (List.range n).map label :=
      List.mem_map.mpr ⟨k,List.mem_range.mpr (by omega),hrespond⟩
    obtain ⟨call',hcall',-⟩ := responded_run (hruns.run_until n) hbefore
    rw [invoke_new (hinvoke ▸ hstep n)] at hcall'
    cases hcall'
  · have hstart : pending id (state 0) = 8 := by
      rw [hruns.start]
      rfl
    have hle := acts_le_rank (fun s l => mover s l = some id) hkeep hdrop k
    omega

end Runs

section Circle

/-! One get after another enters at "a", whose list sends it to "b", whose list would
send it back; no channel ever opens. -/

def circlePhase : Nat → Option Phase
  | 0 => none
  | 1 => some .entered
  | 2 => some (.sending 0)
  | 3 => some (.sending 1)
  | 4 => some (.sending 2)
  | 5 => some (.returned .okStatus {})
  | _ + 6 => some (.answered .okStatus {})

def circleCall (phase : Phase) : Call := ⟨text "a",.get,⟨text "k",none⟩,.client,phase⟩

/-- Call `id` is made at time `6 * id` and takes the six steps after that. -/
def circleState (n : Nat) : State (Lru Bytes Bytes) where
  cache _ := Lru.empty 4
  call id := (circlePhase (n - 6 * id)).map circleCall
  network := []

def circleLabel (n : Nat) : Label :=
  match n % 6 with
  | 0 => .invoke (n / 6) (text "a") .get ⟨text "k",none⟩
  | 1 => .startFiber (n / 6) 0
  | 2 | 3 | 4 => .initFails (n / 6)
  | _ => .respond (n / 6) {}

theorem circleState_call (k j : Nat) :
    (circleState (6 * k + j)).call k = (circlePhase j).map circleCall := by
  change (circlePhase (6 * k + j - 6 * k)).map circleCall = _
  rw [Nat.add_sub_cancel_left]

theorem circleState_next (k : Nat) {j : Nat} (hj : j < 6) {phase : Phase}
    (hphase : circlePhase (j+1) = some phase) :
    circleState (6 * k + j + 1) =
      (circleState (6 * k + j)).addCall k (circleCall phase) := by
  have hcall : (circleState (6 * k + j + 1)).call =
      Function.update (circleState (6 * k + j)).call k (some (circleCall phase)) := by
    funext id
    rcases Nat.lt_trichotomy id k with hid | rfl | hid
    · rw [Function.update_of_ne hid.ne]
      obtain ⟨d,hd⟩ : ∃ d, 6 * k + j - 6 * id = d + 6 := ⟨6 * k + j - 6 * id - 6,by omega⟩
      have hd' : 6 * k + j + 1 - 6 * id = (d + 1) + 6 := by omega
      simp only [circleState, hd, hd', circlePhase]
    · rw [Function.update_self, Nat.add_assoc, circleState_call, hphase]
      rfl
    · rw [Function.update_of_ne hid.ne']
      have hd : 6 * k + j - 6 * id = 0 := by omega
      have hd' : 6 * k + j + 1 - 6 * id = 0 := by omega
      simp only [circleState, hd, hd']
  exact congrArg (fun call => (⟨fun _ => Lru.empty 4,call,[]⟩ : State (Lru Bytes Bytes))) hcall

theorem circle_endless :
    Endless (step crossedLists fun _ => 1) (.init fun _ => Lru.empty 4) circleState circleLabel := by
  have hp : crossedLists.proxy (text "a") = some (tableOf (text "a,b") (text "a")) := by decide
  have hown : ¬ (tableOf (text "a,b") (text "a")).Owns (fun _ => 1) (text "k") := by decide
  have hafter : ∀ r, Phase.after (turn kRetryTimes {} r .initFails) =
      if r + 1 < 3 then .sending (r + 1) else .returned .okStatus {} := fun _ => after_failed rfl
  refine ⟨?_,fun n => ?_⟩
  · have hcall : (circleState 0).call = fun _ => none := by
      funext id
      simp only [circleState, Nat.zero_sub, circlePhase, Option.map_none]
    exact congrArg (fun call => (⟨fun _ => Lru.empty 4,call,[]⟩ : State (Lru Bytes Bytes))) hcall
  · obtain ⟨k,j,hj,rfl⟩ : ∃ k j, j < 6 ∧ n = 6 * k + j :=
      ⟨n / 6,n % 6,Nat.mod_lt n (by decide),(Nat.div_add_mod n 6).symm⟩
    have hmod : (6 * k + j) % 6 = j := by omega
    have hdiv : (6 * k + j) / 6 = k := by omega
    have hcall := circleState_call k j
    unfold circleLabel
    rw [hmod, hdiv]
    match j, hj with
    | 0, hj | 1, hj | 2, hj | 3, hj | 4, hj | 5, hj =>
      rw [circleState_next k hj rfl]
      generalize circleState _ = s at hcall
      simp only [circlePhase, Option.map_some, Option.map_none] at hcall
      simp [step, hcall, hp, hown, hafter, circleCall, State.addCall, State.setPhase]

theorem circle_fair : WeaklyFair (step crossedLists fun _ => 1) (fun s l => mover s l = some 0)
    circleState circleLabel := by
  intro n henabled
  by_cases hn : n ≤ 5
  · exact ⟨5,hn,rfl⟩
  · -- the call is answered and has no step left
    obtain ⟨l,t,hmover,ht⟩ := henabled n (le_refl n)
    obtain ⟨d,rfl⟩ : ∃ d, n = 6 * 0 + (d + 6) := ⟨n - 6,by omega⟩
    obtain ⟨_,-,-,hmoves,-⟩ := step_moves (step_sound _ _ ht) (circleState_call 0 (d + 6))
    cases hmoves hmover

theorem answered_in_fair_run_circle :
    (∃ m response, 0 < m ∧ circleLabel m = .respond 0 response) ∧
      ∀ k, ((Finset.range k).filter fun m =>
        mover (circleState m) (circleLabel m) = some 0).card ≤ 8 :=
  answered_in_fair_run circle_endless (n := 0) rfl circle_fair

end Circle

end EaHalfHour.CallProgress
