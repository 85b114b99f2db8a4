import Mathlib.Tactic.IntervalCases
import EaHalfHour.AtomicObject
import EaHalfHour.KvCache

/-! Concurrent calls on one Cache of a009, which has the members of a010 and no lock:
another call may come between the two cache calls of a remove. -/
namespace EaHalfHour.UnlockedCache
open LabelledRun AtomicObject KvMessage KvCache RecencyMap

abbrev CallId := Nat

/-- How far a call has come. `stored` is put before it answers; `filled` is a remove
that has answered the value it found and not yet removed it. -/
inductive Pc where
  | entered
  | stored
  | looked (found : Option Bytes)
  | filled (value : Bytes) (response : KvResponse)
  | done (response : KvResponse)
  | returned (response : KvResponse)
deriving DecidableEq

structure Call where
  op : CacheOp
  pc : Pc
deriving DecidableEq

structure State (σ : Type) where
  cache : σ
  call : CallId → Option Call

inductive Label where
  | invoke (id : CallId) (op : CacheOp)
  | put (id : CallId)
  | tryGet (id : CallId)
  | fill (id : CallId)
  | erase (id : CallId)
  | respond (id : CallId) (response : KvResponse)
deriving DecidableEq

def Call.fillPc (call : Call) : Option Pc :=
  match call.op.method, call.pc with
  | .set, .entered =>
    if call.op.request.value = none then some (.done (fillNoValue call.op.response)) else none
  | .set, .stored => some (.done (fillStored call.op.response))
  | .get, .looked found => some (.done (fillLooked found call.op.response))
  | .remove, .looked none => some (.done (fillLooked none call.op.response))
  | .remove, .looked (some value) =>
    some (.filled value (fillLooked (some value) call.op.response))
  | _, _ => none

variable {σ : Type}

def State.setPc (s : State σ) (id : CallId) (op : CacheOp) (pc : Pc) : State σ :=
  { s with call := Function.update s.call id (some ⟨op,pc⟩) }

def State.init (cache : σ) : State σ := ⟨cache,fun _ => none⟩

variable [LRUCache σ]

def step (s : State σ) : Label → Option (State σ)
  | .invoke id op => if s.call id = none then some (s.setPc id op .entered) else none
  | .put id => do
    let call ← s.call id
    let value ← call.op.request.value
    if call.op.method = .set ∧ call.pc = .entered then
      some ({ s with cache := LRUCache.put s.cache call.op.request.key value }.setPc id call.op
        .stored)
    else none
  | .tryGet id => do
    let call ← s.call id
    if call.op.method ≠ .set ∧ call.pc = .entered then
      let r := LRUCache.tryGet s.cache call.op.request.key
      some ({ s with cache := r.2 }.setPc id call.op (.looked r.1))
    else none
  | .fill id => do
    let call ← s.call id
    let pc ← call.fillPc
    some (s.setPc id call.op pc)
  | .erase id => do
    let call ← s.call id
    match call.op.method, call.pc with
    | .remove, .filled _ response =>
      some ({ s with cache := LRUCache.remove s.cache call.op.request.key }.setPc id call.op
        (.done response))
    | _, _ => none
  | .respond id response => do
    let call ← s.call id
    if call.pc = .done response then some (s.setPc id call.op (.returned response)) else none

inductive Step (s : State σ) : Label → State σ → Prop where
  | invoke {id : CallId} {op : CacheOp} : s.call id = none →
      Step s (.invoke id op) (s.setPc id op .entered)
  | put {id : CallId} {call : Call} {value : Bytes} : s.call id = some call →
      call.op.request.value = some value → call.op.method = .set → call.pc = .entered →
      Step s (.put id)
        ({ s with cache := LRUCache.put s.cache call.op.request.key value }.setPc id call.op
          .stored)
  | tryGet {id : CallId} {call : Call} : s.call id = some call → call.op.method ≠ .set →
      call.pc = .entered →
      Step s (.tryGet id)
        ({ s with cache := (LRUCache.tryGet s.cache call.op.request.key).2 }.setPc id call.op
          (.looked (LRUCache.tryGet s.cache call.op.request.key).1))
  | fill {id : CallId} {call : Call} {pc : Pc} : s.call id = some call →
      call.fillPc = some pc → Step s (.fill id) (s.setPc id call.op pc)
  | erase {id : CallId} {call : Call} {value : Bytes} {response : KvResponse} :
      s.call id = some call → call.op.method = .remove → call.pc = .filled value response →
      Step s (.erase id)
        ({ s with cache := LRUCache.remove s.cache call.op.request.key }.setPc id call.op
          (.done response))
  | respond {id : CallId} {call : Call} {response : KvResponse} : s.call id = some call →
      call.pc = .done response →
      Step s (.respond id response) (s.setPc id call.op (.returned response))

theorem step_sound {s s' : State σ} {l : Label} (h : step s l = some s') : Step s l s' := by
  cases l with
  | invoke id op =>
    simp only [step] at h
    split at h
    · rename_i hnone
      obtain rfl := Option.some.inj h
      exact .invoke hnone
    · cases h
  | put id =>
    simp only [step, Option.bind_eq_bind, Option.bind_eq_some_iff] at h
    obtain ⟨call,hcall,value,hvalue,h⟩ := h
    split at h
    · rename_i hc
      obtain rfl := Option.some.inj h
      exact .put hcall hvalue hc.1 hc.2
    · cases h
  | tryGet id =>
    simp only [step, Option.bind_eq_bind, Option.bind_eq_some_iff] at h
    obtain ⟨call,hcall,h⟩ := h
    split at h
    · rename_i hc
      obtain rfl := Option.some.inj h
      exact .tryGet hcall hc.1 hc.2
    · cases h
  | fill id =>
    simp only [step, Option.bind_eq_bind, Option.bind_eq_some_iff] at h
    obtain ⟨call,hcall,pc,hpc,h⟩ := h
    obtain rfl := Option.some.inj h
    exact .fill hcall hpc
  | erase id =>
    simp only [step, Option.bind_eq_bind, Option.bind_eq_some_iff] at h
    obtain ⟨call,hcall,h⟩ := h
    split at h
    · rename_i hmethod hpc
      obtain rfl := Option.some.inj h
      exact .erase hcall hmethod hpc
    · cases h
  | respond id response =>
    simp only [step, Option.bind_eq_bind, Option.bind_eq_some_iff] at h
    obtain ⟨call,hcall,h⟩ := h
    split at h
    · rename_i hpc
      obtain rfl := Option.some.inj h
      exact .respond hcall hpc
    · cases h

def callerEvent : Label → Option (Event CallId CacheOp KvResponse)
  | .invoke id op => some (.invoke id op)
  | .respond id response => some (.respond id response)
  | .put _ | .tryGet _ | .fill _ | .erase _ => none

def Call.Found (call : Call) (value : Bytes) : Prop :=
  call.op.method = .remove ∧
    (call.pc = .looked (some value) ∨ ∃ response, call.pc = .filled value response)

/-- What the program counter of a call says about its stage: a remove that found its
key takes effect at its second cache call, the other calls as they do in a010. -/
def Pc.Fits (op : CacheOp) (stage : Stage CacheOp KvResponse) : Pc → Prop
  | .entered => stage = .opened op
  | .stored => stage = .applied op (fillStored op.response)
  | .looked none => stage = .applied op (fillLooked none op.response)
  | .looked (some value) =>
    (op.method = .remove ∧ stage = .opened op) ∨
      (op.method ≠ .remove ∧ stage = .applied op (fillLooked (some value) op.response))
  | .filled value response =>
    response = fillLooked (some value) op.response ∧ stage = .opened op
  | .done response => stage = .applied op response
  | .returned _ => True

section Simulation
variable [RecencyCache σ] {s s' : State σ} {stage : CallId → Stage CacheOp KvResponse}
  {cache cache' : σ} {i : CallId} {op : CacheOp} {pc : Pc}
open RecencyCache

def pending (s : State σ) : Set Bytes :=
  fun k => ∃ id call value, s.call id = some call ∧ call.Found value ∧ call.op.request.key = k

/-- What keeps removes apart from the other calls, at each step: a remove that makes
its second cache call still finds the value that it answered, and no put drops an
entry while a remove is between its two. It is enough, not needed: a run with such a put
may still have an order that explains it. -/
def Undisturbed (s : State σ) : Label → Prop
  | .erase id => ∀ call value, s.call id = some call → call.Found value →
    (view s.cache).find call.op.request.key = some value
  | .put id => ∀ call, s.call id = some call → (∃ k, k ∈ pending s) →
    (view s.cache).Fits call.op.request.key
  | .invoke _ _ | .tryGet _ | .fill _ | .respond _ _ => True

structure Tracks (s : State σ) (stage : CallId → Stage CacheOp KvResponse) (cache : σ) :
    Prop where
  fresh : ∀ id, s.call id = none → stage id = .idle
  fits : ∀ id call, s.call id = some call → call.pc.Fits call.op (stage id)
  same : Lru.SameBut (pending s) (view cache) (view s.cache)

theorem Tracks.touch (ht : Tracks s stage cache) {x : Stage CacheOp KvResponse}
    (hcall : s'.call = Function.update s.call i (some ⟨op,pc⟩)) (hfits : pc.Fits op x)
    (hsame : Lru.SameBut (pending s') (view cache') (view s'.cache)) :
    Tracks s' (Function.update stage i x) cache' := by
  refine ⟨?_,?_,hsame⟩
  · intro id hid
    rw [hcall] at hid
    have hne : id ≠ i := by
      rintro rfl
      simp at hid
    rw [Function.update_of_ne hne] at hid ⊢
    exact ht.fresh id hid
  · intro id call hid
    rw [hcall] at hid
    rcases update_found hid with ⟨rfl,rfl⟩ | ⟨hne,hid⟩
    · rw [Function.update_self]
      exact hfits
    · rw [Function.update_of_ne hne]
      exact ht.fits id call hid

omit [LRUCache σ] [RecencyCache σ] in
theorem pending_step (hcall : s'.call = Function.update s.call i (some ⟨op,pc⟩)) {k : Bytes}
    (hk : k ∈ pending s) :
    k ∈ pending s' ∨ ∃ old value, s.call i = some old ∧ old.Found value ∧
      old.op.request.key = k := by
  obtain ⟨id,call,value,hid,hfound,hkey⟩ := hk
  by_cases hne : id = i
  · subst hne
    exact Or.inr ⟨call,value,hid,hfound,hkey⟩
  · exact Or.inl ⟨id,call,value,by rw [hcall, Function.update_of_ne hne, hid],hfound,hkey⟩

omit [LRUCache σ] [RecencyCache σ] in
theorem pending_mono (hcall : s'.call = Function.update s.call i (some ⟨op,pc⟩))
    (hkeep : ∀ old value, s.call i = some old → old.Found value →
      old.op = op ∧ ∃ value', Call.Found ⟨op,pc⟩ value') : pending s ⊆ pending s' := by
  intro k hk
  rcases pending_step hcall hk with hk | ⟨old,value,hold,hfound,rfl⟩
  · exact hk
  · obtain ⟨rfl,value',hfound'⟩ := hkeep old value hold hfound
    exact ⟨i,⟨old.op,pc⟩,value',by rw [hcall, Function.update_self],hfound',rfl⟩

omit [LRUCache σ] [RecencyCache σ] in
theorem fill_fits {call : Call} (hpc : call.fillPc = some pc) {x : Stage CacheOp KvResponse}
    (hfits : call.pc.Fits call.op x) :
    (call.op.method = .set ∧ call.op.request.value = none ∧ x = .opened call.op ∧
        pc = .done (fillNoValue call.op.response)) ∨
      (pc.Fits call.op x ∧ ∀ value, call.Found value → Call.Found ⟨call.op,pc⟩ value) := by
  obtain ⟨⟨method,request,response⟩,old⟩ := call
  cases method with
  | set =>
    have hnot : ∀ value, ¬ Call.Found ⟨⟨.set,request,response⟩,old⟩ value := by
      rintro value ⟨hm,-⟩
      cases hm
    cases old with
    | entered =>
      simp only [Call.fillPc] at hpc
      split at hpc
      · rename_i hnone
        exact Or.inl ⟨rfl,hnone,hfits,(Option.some.inj hpc).symm⟩
      · cases hpc
    | stored =>
      obtain rfl := Option.some.inj hpc
      exact Or.inr ⟨hfits,fun value h => absurd h (hnot value)⟩
    | looked | filled | done | returned => cases hpc
  | get =>
    have hnot : ∀ value, ¬ Call.Found ⟨⟨.get,request,response⟩,old⟩ value := by
      rintro value ⟨hm,-⟩
      cases hm
    cases old with
    | looked found =>
      obtain rfl := Option.some.inj hpc
      refine Or.inr ⟨?_,fun value h => absurd h (hnot value)⟩
      cases found with
      | none => exact hfits
      | some value =>
        rcases hfits with ⟨hm,-⟩ | ⟨-,hx⟩
        · cases hm
        · exact hx
    | entered | stored | filled | done | returned => cases hpc
  | remove =>
    cases old with
    | looked found =>
      cases found with
      | none =>
        obtain rfl := Option.some.inj hpc
        refine Or.inr ⟨hfits,?_⟩
        rintro value ⟨-,h | ⟨r,h⟩⟩ <;> cases h
      | some value =>
        obtain rfl := Option.some.inj hpc
        refine Or.inr ⟨⟨rfl,?_⟩,?_⟩
        · rcases hfits with ⟨-,hx⟩ | ⟨hm,-⟩
          · exact hx
          · exact absurd rfl hm
        · rintro value' ⟨-,h | ⟨r,h⟩⟩
          · obtain rfl := Option.some.inj (Pc.looked.inj h)
            exact ⟨rfl,Or.inr ⟨_,rfl⟩⟩
          · cases h
    | entered | stored | filled | done | returned => cases hpc

theorem Tracks.tryGet_eq (ht : Tracks s stage cache) (k : Bytes) :
    (LRUCache.tryGet cache k).1 = (LRUCache.tryGet s.cache k).1 := by
  rw [RecencyCache.tryGet_fst, RecencyCache.tryGet_fst, ht.same.find]

theorem Tracks.same_tryGet (ht : Tracks s stage cache) (k : Bytes) :
    Lru.SameBut (pending s) (view (LRUCache.tryGet cache k).2)
      (view (LRUCache.tryGet s.cache k).2) := by
  rw [view_tryGet, view_tryGet]
  exact ht.same.touch k

theorem tracks_step {l : Label} (ht : Tracks s stage cache) (hl : Undisturbed s l)
    (h : Step s l s') :
    ∃ stage' cache', Move CacheOp.run (callerEvent l) stage cache stage' cache' ∧
      Tracks s' stage' cache' := by
  have hself : ∀ i x, stage i = x → Function.update stage i x = stage := by
    rintro i x rfl
    exact Function.update_eq_self i stage
  have hidle : ∀ {i : CallId} {call : Call}, s.call i = some call →
      (∀ value, ¬ call.Found value) → ∀ {op : CacheOp} {pc : Pc},
      ∀ old value, s.call i = some old → old.Found value →
        old.op = op ∧ ∃ value', Call.Found ⟨op,pc⟩ value' := by
    intro i call hcall hnot op pc old value hold hfound
    obtain rfl := Option.some.inj (hcall.symm.trans hold)
    exact absurd hfound (hnot value)
  have hentered : ∀ {call : Call}, call.pc = .entered → ∀ value, ¬ call.Found value := by
    rintro call hpc value ⟨-,h | ⟨r,h⟩⟩ <;> rw [hpc] at h <;> cases h
  cases h with
  | @invoke i op hnone =>
    refine ⟨_,cache,.invoke stage cache i op (ht.fresh i hnone),
      ht.touch rfl rfl (ht.same.mono (pending_mono rfl fun old value hold => ?_))⟩
    rw [hnone] at hold
    cases hold
  | @put i call value hcall hvalue hset hpc =>
    have hopened : stage i = .opened call.op := by
      have hfits := ht.fits i call hcall
      rwa [hpc] at hfits
    have hmove : Move CacheOp.run none stage cache _ _ := .commit stage cache i call.op hopened
    rw [run_stored hset hvalue] at hmove
    have hsame : Lru.SameBut (pending s) (view (LRUCache.put cache call.op.request.key value))
        (view (LRUCache.put s.cache call.op.request.key value)) := by
      rw [view_put, view_put]
      by_cases hp : ∃ k, k ∈ pending s
      · exact ht.same.put (hl call hcall hp) value
      · rw [ht.same.eq (not_exists.mp hp)]
        exact .refl _ _
    exact ⟨_,_,hmove,ht.touch rfl rfl
      (hsame.mono (pending_mono rfl (hidle hcall (hentered hpc))))⟩
  | @tryGet i call hcall hnot hpc =>
    have hopened : stage i = .opened call.op := by
      have hfits := ht.fits i call hcall
      rwa [hpc] at hfits
    have hmono : ∀ found, pending s ⊆
        pending ({ s with cache := (LRUCache.tryGet s.cache call.op.request.key).2 }.setPc i
          call.op (.looked found)) := fun _ => pending_mono rfl (hidle hcall (hentered hpc))
    have hmove : Move CacheOp.run none stage cache _ _ := .commit stage cache i call.op hopened
    cases hm : call.op.method with
    | set => exact absurd hm hnot
    | get =>
      rw [run_get hm, ht.tryGet_eq] at hmove
      refine ⟨_,_,hmove,ht.touch rfl ?_ ((ht.same_tryGet _).mono (hmono _))⟩
      cases (LRUCache.tryGet s.cache call.op.request.key).1 with
      | none => rfl
      | some value => exact Or.inr ⟨by simp [hm],rfl⟩
    | remove =>
      cases hf : (LRUCache.tryGet s.cache call.op.request.key).1 with
      | none =>
        rw [run_remove hm, ht.tryGet_eq, hf, if_pos rfl] at hmove
        exact ⟨_,_,hmove,ht.touch rfl rfl ((ht.same_tryGet _).mono (hmono _))⟩
      | some value =>
        refine ⟨stage,cache,.stay stage cache,?_⟩
        rw [← hself i _ hopened]
        refine ht.touch rfl (Or.inl ⟨hm,rfl⟩) ?_
        change Lru.SameBut _ _ (view (LRUCache.tryGet s.cache call.op.request.key).2)
        rw [view_tryGet]
        refine ht.same.touch_right _ (hmono _) ⟨i,_,value,Function.update_self i _ s.call,?_,rfl⟩
        exact ⟨hm,Or.inl rfl⟩
  | @fill i call pc hcall hpc =>
    rcases fill_fits hpc (ht.fits i call hcall) with ⟨hset,hnone,hopened,rfl⟩ | ⟨hfits,hfound⟩
    · have hmove : Move CacheOp.run none stage cache _ _ := .commit stage cache i call.op hopened
      rw [run_noValue hset hnone] at hmove
      refine ⟨_,_,hmove,ht.touch rfl rfl (ht.same.mono (pending_mono rfl (hidle hcall ?_)))⟩
      rintro value ⟨hm,-⟩
      rw [hset] at hm
      cases hm
    · refine ⟨stage,cache,.stay stage cache,?_⟩
      rw [← hself i _ rfl]
      refine ht.touch rfl hfits (ht.same.mono (pending_mono rfl fun old value hold hf => ?_))
      obtain rfl := Option.some.inj (hcall.symm.trans hold)
      exact ⟨rfl,value,hfound value hf⟩
  | @erase i call value response hcall hremove hpc =>
    have hfits := ht.fits i call hcall
    rw [hpc] at hfits
    obtain ⟨rfl,hopened⟩ := hfits
    have hfind := hl call value hcall ⟨hremove,Or.inr ⟨_,hpc⟩⟩
    have hf : (LRUCache.tryGet cache call.op.request.key).1 = some value := by
      rw [RecencyCache.tryGet_fst, ht.same.find, hfind]
    have hmove : Move CacheOp.run none stage cache _ _ := .commit stage cache i call.op hopened
    rw [run_remove hremove, hf, if_neg (by simp)] at hmove
    have hcall' : ({ s with cache := LRUCache.remove s.cache call.op.request.key }.setPc i call.op
        (.done (fillLooked (some value) call.op.response))).call = Function.update s.call i
          (some ⟨call.op,.done (fillLooked (some value) call.op.response)⟩) := rfl
    refine ⟨_,_,hmove,ht.touch hcall' rfl ?_⟩
    change Lru.SameBut _ _ (view (LRUCache.remove s.cache call.op.request.key))
    rw [view_remove, view_remove, view_tryGet, Lru.erase_touch]
    refine ht.same.erase _ fun j hj => ?_
    rcases pending_step hcall' hj with hj | ⟨old,value',hold,-,rfl⟩
    · exact Or.inr hj
    · obtain rfl := Option.some.inj (hcall.symm.trans hold)
      exact Or.inl rfl
  | @respond i call response hcall hpc =>
    have happlied : stage i = .applied call.op response := by
      have hfits := ht.fits i call hcall
      rwa [hpc] at hfits
    refine ⟨_,cache,.respond stage cache i call.op response happlied,
      ht.touch rfl trivial (ht.same.mono (pending_mono rfl (hidle hcall ?_)))⟩
    rintro value ⟨-,h | ⟨r,h⟩⟩ <;> rw [hpc] at h <;> cases h

end Simulation

section Runs
variable [RecencyCache σ] {cache₀ : σ} {tr : List Label} {s : State σ}
open RecencyCache

theorem tracks_init (cache₀ : σ) : Tracks (.init cache₀) (fun _ => .idle) cache₀ := by
  refine ⟨fun _ _ => rfl,?_,.refl _ _⟩
  intro id call hcall
  cases hcall

/-- The calls of a run are explained by running them one after another: they give the
same answers and leave the same entries, and also the same order of use when no remove
is between its two cache calls. -/
def Explained (cache₀ : σ) (tr : List Label) (s : State σ) : Prop :=
  ∃ order cache, Linearizes CacheOp.run cache₀ (tr.filterMap callerEvent) order cache ∧
    (∀ k, (view s.cache).find k = (view cache).find k) ∧
    ((∀ k, k ∉ pending s) → view s.cache = view cache)

theorem explained_of_undisturbed (hrun : runFrom step (.init cache₀) tr = some s)
    (hok : Guarded step Undisturbed (.init cache₀) tr) : Explained cache₀ tr s := by
  obtain ⟨order,stage,cache,hlin,ht⟩ := simulation_linearizes callerEvent Undisturbed Tracks
    (tracks_init cache₀) (fun _ _ _ _ _ ht hl hn => tracks_step ht hl (step_sound hn)) hrun hok
  exact ⟨order,cache,hlin,fun k => (ht.same.find k).symm,fun hnone => (ht.same.eq hnone).symm⟩

end Runs

def fullCache : Lru Bytes Bytes :=
  ((Lru.empty 2).put (text "k") (text "v")).put (text "x") (text "w")

def readBetween : List Label :=
  [.invoke 0 ⟨.remove,⟨text "k",none⟩,{}⟩,.invoke 1 ⟨.get,⟨text "k",none⟩,{}⟩,.tryGet 0,
    .tryGet 1,.fill 0,.fill 1,.erase 0,
    .respond 0 ⟨some 0,some (text "ok"),some (text "v")⟩,
    .respond 1 ⟨some 0,some (text "ok"),some (text "v")⟩]

theorem undisturbed_readBetween : Guarded step Undisturbed (.init fullCache) readBetween := by
  intro u e v m hsplit hu
  have hcache : (runFrom step (.init fullCache) (readBetween.take 6)).map
      (fun m => (m.cache.find (text "k"),m.call 0)) = some (some (text "v"),
        some ⟨⟨.remove,⟨text "k",none⟩,{}⟩,
          .filled (text "v") ⟨some 0,some (text "ok"),some (text "v")⟩⟩) := by decide
  have htake : u = readBetween.take u.length := by rw [hsplit, List.take_left]
  have hat : readBetween[u.length]? = some e := by simp [hsplit]
  have hlt : u.length < 9 := (List.getElem?_eq_some_iff.mp hat).1
  generalize u.length = n at htake hat hlt
  subst htake
  interval_cases n <;> obtain rfl := Option.some.inj hat <;> try trivial
  obtain ⟨m',hm',he⟩ := Option.map_eq_some_iff.mp hcache
  obtain rfl := Option.some.inj (hm'.symm.trans hu)
  obtain ⟨hfind,hcall'⟩ := Prod.mk.inj he
  rintro call value hcall ⟨-,h | ⟨response,h⟩⟩
  · obtain rfl := Option.some.inj (hcall'.symm.trans hcall)
    cases h
  · obtain rfl := Option.some.inj (hcall'.symm.trans hcall)
    obtain ⟨rfl,-⟩ := Pc.filled.inj h
    exact hfind

theorem explained_readBetween :
    ∃ s, runFrom step (.init fullCache) readBetween = some s ∧
      Explained fullCache readBetween s := by
  have hsome : (runFrom step (.init fullCache) readBetween).isSome := by decide
  obtain ⟨s,hs⟩ := Option.isSome_iff_exists.mp hsome
  exact ⟨s,hs,explained_of_undisturbed hs undisturbed_readBetween⟩

/-- One after another: a put, then two removes of its key that overlap. Between the
two cache calls of each remove the other makes its own. -/
def removedTogether : List Label :=
  [.invoke 0 ⟨.set,⟨text "k",some (text "v")⟩,{}⟩,.put 0,.fill 0,
    .respond 0 ⟨some 0,some (text "ok"),none⟩,
    .invoke 1 ⟨.remove,⟨text "k",none⟩,{}⟩,.invoke 2 ⟨.remove,⟨text "k",none⟩,{}⟩,
    .tryGet 1,.tryGet 2,.fill 1,.fill 2,.erase 1,.erase 2,
    .respond 1 ⟨some 0,some (text "ok"),some (text "v")⟩,
    .respond 2 ⟨some 0,some (text "ok"),some (text "v")⟩]

def bothRemoved : List (Entry CallId CacheOp KvResponse) :=
  [⟨0,⟨.set,⟨text "k",some (text "v")⟩,{}⟩,⟨some 0,some (text "ok"),none⟩⟩,
    ⟨1,⟨.remove,⟨text "k",none⟩,{}⟩,⟨some 0,some (text "ok"),some (text "v")⟩⟩,
    ⟨2,⟨.remove,⟨text "k",none⟩,{}⟩,⟨some 0,some (text "ok"),some (text "v")⟩⟩]

/-- Both removes report the one value that was there. -/
theorem not_explained_removedTogether :
    ∃ s, runFrom step (.init (Lru.empty 4 : Lru Bytes Bytes)) removedTogether = some s ∧
      ¬ Explained (Lru.empty 4) removedTogether s := by
  have hsome : (runFrom step (.init (Lru.empty 4 : Lru Bytes Bytes))
      removedTogether).isSome := by decide
  obtain ⟨s,hs⟩ := Option.isSome_iff_exists.mp hsome
  refine ⟨s,hs,?_⟩
  rintro ⟨order,cache,hlin,-⟩
  have hperm : order.Perm bothRemoved := by
    refine hlin.perm (by decide) ?_ (by decide)
    intro i op hmem
    simp only [removedTogether, List.filterMap_cons, callerEvent, List.filterMap_nil,
      List.mem_cons, List.not_mem_nil, or_false, reduceCtorEq, false_or,
      Event.invoke.injEq] at hmem
    rcases hmem with ⟨rfl,rfl⟩ | ⟨rfl,rfl⟩ | ⟨rfl,rfl⟩ <;> simp [bothRemoved]
  have hwrong : ∀ a ∈ bothRemoved, ∀ b ∈ bothRemoved, ∀ c ∈ bothRemoved, [a,b,c].Nodup →
      (replay CacheOp.run [a.op,b.op,c.op] (Lru.empty 4 : Lru Bytes Bytes)).1 ≠
        [a.answer,b.answer,c.answer] := by decide
  obtain ⟨a,b,c,rfl⟩ := List.length_eq_three.mp hperm.length_eq
  exact hwrong a (hperm.mem_iff.mp (by simp)) b (hperm.mem_iff.mp (by simp)) c
    (hperm.mem_iff.mp (by simp)) hlin.nodup.of_map (congrArg Prod.fst hlin.legal)

def droppedBetween : List Label :=
  [.invoke 0 ⟨.remove,⟨text "k",none⟩,{}⟩,.invoke 1 ⟨.set,⟨text "j",some (text "u")⟩,{}⟩,
    .tryGet 0,.put 1,.fill 0,.erase 0,.fill 1,
    .respond 0 ⟨some 0,some (text "ok"),some (text "v")⟩,
    .respond 1 ⟨some 0,some (text "ok"),none⟩]

def removedAndPut : List (Entry CallId CacheOp KvResponse) :=
  [⟨0,⟨.remove,⟨text "k",none⟩,{}⟩,⟨some 0,some (text "ok"),some (text "v")⟩⟩,
    ⟨1,⟨.set,⟨text "j",some (text "u")⟩,{}⟩,⟨some 0,some (text "ok"),none⟩⟩]

/-- Here the answers can be explained, but not that "x" is gone. -/
theorem not_explained_droppedBetween :
    ∃ s, runFrom step (.init fullCache) droppedBetween = some s ∧
      ¬ Explained fullCache droppedBetween s := by
  have hlast : (runFrom step (.init fullCache) droppedBetween).map
      (fun s => s.cache.find (text "x")) = some none := by decide
  obtain ⟨s,hs,hx⟩ := Option.map_eq_some_iff.mp hlast
  refine ⟨s,hs,?_⟩
  rintro ⟨order,cache,hlin,hfind,-⟩
  have hperm : order.Perm removedAndPut := by
    refine hlin.perm (by decide) ?_ (by decide)
    intro i op hmem
    simp only [droppedBetween, List.filterMap_cons, callerEvent, List.filterMap_nil,
      List.mem_cons, List.not_mem_nil, or_false, reduceCtorEq, Event.invoke.injEq] at hmem
    rcases hmem with ⟨rfl,rfl⟩ | ⟨rfl,rfl⟩ <;> simp [removedAndPut]
  have hwrong : ∀ a ∈ removedAndPut, ∀ b ∈ removedAndPut, [a,b].Nodup →
      (replay CacheOp.run [a.op,b.op] fullCache).1 = [a.answer,b.answer] →
        (replay CacheOp.run [a.op,b.op] fullCache).2.find (text "x") ≠ none := by decide
  obtain ⟨a,b,rfl⟩ := List.length_eq_two.mp hperm.length_eq
  refine hwrong a (hperm.mem_iff.mp (by simp)) b (hperm.mem_iff.mp (by simp)) hlin.nodup.of_map
    (congrArg Prod.fst hlin.legal) ?_
  have hreplay : (replay CacheOp.run [a.op,b.op] fullCache).2 = cache :=
    congrArg Prod.snd hlin.legal
  rw [hreplay]
  exact (hfind (text "x")).symm.trans hx

end EaHalfHour.UnlockedCache
