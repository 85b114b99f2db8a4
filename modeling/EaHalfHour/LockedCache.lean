import Mathlib.Data.Finset.Basic
import EaHalfHour.AtomicObject
import EaHalfHour.KvCache

/-! Concurrent calls on one Cache of a010, statement by statement: what each holds
of `_mutex`, its turbo::LRUCache calls and the filling of its response. -/
namespace EaHalfHour.LockedCache
open LabelledRun AtomicObject KvMessage KvCache RecencyMap

abbrev CallId := Nat

inductive SharedMutex where
  | shared (readers : Finset CallId)
  | unique (writer : CallId)
deriving DecidableEq

namespace SharedMutex

def Holds : SharedMutex → CallId → Prop
  | .shared readers, id => id ∈ readers
  | .unique writer, id => writer = id

/-- std::unique_lock in put and remove, std::shared_lock in get. -/
def acquire (method : Method) (id : CallId) : SharedMutex → Option SharedMutex
  | .shared readers =>
    match method with
    | .get => some (.shared (insert id readers))
    | .set | .remove => if readers = ∅ then some (.unique id) else none
  | .unique _ => none

def release (id : CallId) : SharedMutex → SharedMutex
  | .shared readers => .shared (readers.erase id)
  | .unique _ => .shared ∅

end SharedMutex

/-- How far a call has come. `stored` and `erased` are past the call that changes
the cache; `unlocked` is put between its lock scope and its answer; `done` is past
the last statement. -/
inductive Pc where
  | entered
  | locked
  | stored
  | unlocked
  | looked (found : Option Bytes)
  | filled (found : Option Bytes) (response : KvResponse)
  | erased (response : KvResponse)
  | done (response : KvResponse)
  | returned (response : KvResponse)
deriving DecidableEq

structure Call where
  op : CacheOp
  pc : Pc
deriving DecidableEq

structure State (σ : Type) where
  cache : σ
  mutex : SharedMutex
  call : CallId → Option Call

inductive Label where
  | invoke (id : CallId) (op : CacheOp)
  | lock (id : CallId)
  | put (id : CallId)
  | tryGet (id : CallId)
  | fill (id : CallId)
  | erase (id : CallId)
  | unlock (id : CallId)
  | respond (id : CallId) (response : KvResponse)
deriving DecidableEq

/-- Put checks for a value before it locks; get and remove lock at once. -/
def Call.locks (call : Call) : Prop :=
  call.pc = .entered ∧ (call.op.method = .set → call.op.request.value ≠ none)

instance (call : Call) : Decidable call.locks :=
  inferInstanceAs (Decidable (_ ∧ (_ → _)))

def Call.fillPc (call : Call) : Option Pc :=
  match call.op.method, call.pc with
  | .set, .entered =>
    if call.op.request.value = none then some (.done (fillNoValue call.op.response)) else none
  | .set, .unlocked => some (.done (fillStored call.op.response))
  | .get, .looked found | .remove, .looked found =>
    some (.filled found (fillLooked found call.op.response))
  | _, _ => none

/-- The end of the lock's scope: put's inner block, or the whole member. -/
def Call.unlockPc (call : Call) : Option Pc :=
  match call.op.method, call.pc with
  | .set, .stored => some .unlocked
  | .get, .filled _ response | .remove, .filled none response | .remove, .erased response =>
    some (.done response)
  | _, _ => none

variable {σ : Type}

def State.setPc (s : State σ) (id : CallId) (op : CacheOp) (pc : Pc) : State σ :=
  { s with call := Function.update s.call id (some ⟨op,pc⟩) }

def State.init (cache : σ) : State σ := ⟨cache,.shared ∅,fun _ => none⟩

variable [LRUCache σ]

def step (s : State σ) : Label → Option (State σ)
  | .invoke id op => if s.call id = none then some (s.setPc id op .entered) else none
  | .lock id => do
    let call ← s.call id
    let mutex ← s.mutex.acquire call.op.method id
    if call.locks then some ({ s with mutex }.setPc id call.op .locked) else none
  | .put id => do
    let call ← s.call id
    let value ← call.op.request.value
    if call.op.method = .set ∧ call.pc = .locked then
      some ({ s with cache := LRUCache.put s.cache call.op.request.key value }.setPc id call.op
        .stored)
    else none
  | .tryGet id => do
    let call ← s.call id
    if call.op.method ≠ .set ∧ call.pc = .locked then
      let r := LRUCache.tryGet s.cache call.op.request.key
      some ({ s with cache := r.2 }.setPc id call.op (.looked r.1))
    else none
  | .fill id => do
    let call ← s.call id
    let pc ← call.fillPc
    some (s.setPc id call.op pc)
  | .erase id => do
    let call ← s.call id
    match call.op.method, call.pc with
    | .remove, .filled (some _) response =>
      some ({ s with cache := LRUCache.remove s.cache call.op.request.key }.setPc id call.op
        (.erased response))
    | _, _ => none
  | .unlock id => do
    let call ← s.call id
    let pc ← call.unlockPc
    some ({ s with mutex := s.mutex.release id }.setPc id call.op pc)
  | .respond id response => do
    let call ← s.call id
    if call.pc = .done response then some (s.setPc id call.op (.returned response)) else none

inductive Step (s : State σ) : Label → State σ → Prop where
  | invoke {id : CallId} {op : CacheOp} : s.call id = none →
      Step s (.invoke id op) (s.setPc id op .entered)
  | lock {id : CallId} {call : Call} {mutex : SharedMutex} : s.call id = some call →
      s.mutex.acquire call.op.method id = some mutex → call.locks →
      Step s (.lock id) ({ s with mutex }.setPc id call.op .locked)
  | put {id : CallId} {call : Call} {value : Bytes} : s.call id = some call →
      call.op.request.value = some value → call.op.method = .set → call.pc = .locked →
      Step s (.put id)
        ({ s with cache := LRUCache.put s.cache call.op.request.key value }.setPc id call.op
          .stored)
  | tryGet {id : CallId} {call : Call} : s.call id = some call → call.op.method ≠ .set →
      call.pc = .locked →
      Step s (.tryGet id)
        ({ s with cache := (LRUCache.tryGet s.cache call.op.request.key).2 }.setPc id call.op
          (.looked (LRUCache.tryGet s.cache call.op.request.key).1))
  | fill {id : CallId} {call : Call} {pc : Pc} : s.call id = some call →
      call.fillPc = some pc → Step s (.fill id) (s.setPc id call.op pc)
  | erase {id : CallId} {call : Call} {value : Bytes} {response : KvResponse} :
      s.call id = some call → call.op.method = .remove →
      call.pc = .filled (some value) response →
      Step s (.erase id)
        ({ s with cache := LRUCache.remove s.cache call.op.request.key }.setPc id call.op
          (.erased response))
  | unlock {id : CallId} {call : Call} {pc : Pc} : s.call id = some call →
      call.unlockPc = some pc →
      Step s (.unlock id) ({ s with mutex := s.mutex.release id }.setPc id call.op pc)
  | respond {id : CallId} {call : Call} {response : KvResponse} : s.call id = some call →
      call.pc = .done response →
      Step s (.respond id response) (s.setPc id call.op (.returned response))

theorem step_sound {s s' : State σ} {l : Label} (h : step s l = some s') : Step s l s' := by
  cases l with
  | invoke id op =>
    simp only [step] at h
    split at h
    · rename_i hnone
      obtain rfl := Option.some.inj h
      exact .invoke hnone
    · cases h
  | lock id =>
    simp only [step, Option.bind_eq_bind, Option.bind_eq_some_iff] at h
    obtain ⟨call,hcall,mutex,hmutex,h⟩ := h
    split at h
    · rename_i hlocks
      obtain rfl := Option.some.inj h
      exact .lock hcall hmutex hlocks
    · cases h
  | put id =>
    simp only [step, Option.bind_eq_bind, Option.bind_eq_some_iff] at h
    obtain ⟨call,hcall,value,hvalue,h⟩ := h
    split at h
    · rename_i hc
      obtain rfl := Option.some.inj h
      exact .put hcall hvalue hc.1 hc.2
    · cases h
  | tryGet id =>
    simp only [step, Option.bind_eq_bind, Option.bind_eq_some_iff] at h
    obtain ⟨call,hcall,h⟩ := h
    split at h
    · rename_i hc
      obtain rfl := Option.some.inj h
      exact .tryGet hcall hc.1 hc.2
    · cases h
  | fill id =>
    simp only [step, Option.bind_eq_bind, Option.bind_eq_some_iff] at h
    obtain ⟨call,hcall,pc,hpc,h⟩ := h
    obtain rfl := Option.some.inj h
    exact .fill hcall hpc
  | erase id =>
    simp only [step, Option.bind_eq_bind, Option.bind_eq_some_iff] at h
    obtain ⟨call,hcall,h⟩ := h
    split at h
    · rename_i hmethod hpc
      obtain rfl := Option.some.inj h
      exact .erase hcall hmethod hpc
    · cases h
  | unlock id =>
    simp only [step, Option.bind_eq_bind, Option.bind_eq_some_iff] at h
    obtain ⟨call,hcall,pc,hpc,h⟩ := h
    obtain rfl := Option.some.inj h
    exact .unlock hcall hpc
  | respond id response =>
    simp only [step, Option.bind_eq_bind, Option.bind_eq_some_iff] at h
    obtain ⟨call,hcall,h⟩ := h
    split at h
    · rename_i hpc
      obtain rfl := Option.some.inj h
      exact .respond hcall hpc
    · cases h

def callerEvent : Label → Option (Event CallId CacheOp KvResponse)
  | .invoke id op => some (.invoke id op)
  | .respond id response => some (.respond id response)
  | .lock _ | .put _ | .tryGet _ | .fill _ | .erase _ | .unlock _ => none

namespace Pc

def inScope : Pc → Bool
  | .locked | .stored | .looked _ | .filled _ _ | .erased _ => true
  | .entered | .unlocked | .done _ | .returned _ => false

def found : Pc → Option Bytes
  | .looked found | .filled found _ => found
  | .entered | .locked | .stored | .unlocked | .erased _ | .done _ | .returned _ => none

/-- What the program counter of a call says about its stage: put and get take effect
at their cache call, a put without a value where it answers, remove at try_get. -/
def Fits (op : CacheOp) (stage : Stage CacheOp KvResponse) : Pc → Prop
  | .entered | .locked => stage = .opened op
  | .stored | .unlocked => stage = .applied op (fillStored op.response)
  | .looked found => stage = .applied op (fillLooked found op.response)
  | .filled _ response | .erased response | .done response => stage = .applied op response
  | .returned _ => True

end Pc

def Call.erasing (call : Call) : Prop := call.op.method = .remove ∧ call.pc.found ≠ none

theorem Call.erasing_inScope {call : Call} (h : call.erasing) : call.pc.inScope = true := by
  obtain ⟨op,pc⟩ := call
  obtain ⟨-,hfound⟩ := h
  cases pc with
  | looked | filled => rfl
  | entered | locked | stored | unlocked | erased | done | returned => exact absurd rfl hfound

def HeldFor (mutex : SharedMutex) (method : Method) (id : CallId) : Prop :=
  match method with
  | .get => ∃ readers, mutex = .shared readers ∧ id ∈ readers
  | .set | .remove => mutex = .unique id

theorem heldFor_unique {mutex : SharedMutex} {method : Method} {id : CallId}
    (h : HeldFor mutex method id) (hm : method ≠ .get) : mutex = .unique id := by
  cases method with
  | get => exact absurd rfl hm
  | set | remove => exact h

theorem acquire_cases {mutex mutex' : SharedMutex} {method : Method} {id : CallId}
    (h : mutex.acquire method id = some mutex') :
    ∃ readers, mutex = .shared readers ∧
      ((method = .get ∧ mutex' = .shared (insert id readers)) ∨
        (method ≠ .get ∧ readers = ∅ ∧ mutex' = .unique id)) := by
  cases mutex with
  | unique writer => cases h
  | shared readers =>
    refine ⟨readers,rfl,?_⟩
    cases method with
    | get => exact Or.inl ⟨rfl,(Option.some.inj h).symm⟩
    | set | remove =>
      simp only [SharedMutex.acquire] at h
      split at h
      · rename_i hempty
        exact Or.inr ⟨by decide,hempty,(Option.some.inj h).symm⟩
      · cases h

/-- The cache of the atomic object: the erasure that a remove still owes is done. -/
structure Settled (s : State σ) (cache : σ) : Prop where
  owed : ∀ id call, s.call id = some call → call.erasing →
    cache = LRUCache.remove s.cache call.op.request.key
  clear : (∀ id call, s.call id = some call → ¬ call.erasing) → cache = s.cache

structure Tracks (s : State σ) (stage : CallId → Stage CacheOp KvResponse) (cache : σ) :
    Prop where
  scope : ∀ id call, s.call id = some call → call.pc.inScope = true →
    HeldFor s.mutex call.op.method id
  fresh : ∀ id, s.call id = none → stage id = .idle
  fits : ∀ id call, s.call id = some call → call.pc.Fits call.op (stage id)
  settled : Settled s cache

section Steps
variable {s s' : State σ} {stage : CallId → Stage CacheOp KvResponse} {cache cache' : σ}
  {i : CallId} {op : CacheOp} {pc : Pc}

theorem Tracks.touch (ht : Tracks s stage cache) {x : Stage CacheOp KvResponse}
    (hcall : s'.call = Function.update s.call i (some ⟨op,pc⟩)) (hfits : pc.Fits op x)
    (hscope : pc.inScope = true → HeldFor s'.mutex op.method i)
    (hothers : ∀ j call, j ≠ i → s.call j = some call → call.pc.inScope = true →
      HeldFor s'.mutex call.op.method j)
    (hsettled : Settled s' cache') : Tracks s' (Function.update stage i x) cache' := by
  refine ⟨?_,?_,?_,hsettled⟩
  · intro id call hid hin
    rw [hcall] at hid
    rcases update_found hid with ⟨rfl,rfl⟩ | ⟨hne,hid⟩
    · exact hscope hin
    · exact hothers id call hne hid hin
  · intro id hid
    rw [hcall] at hid
    have hne : id ≠ i := by
      rintro rfl
      simp at hid
    rw [Function.update_of_ne hne] at hid ⊢
    exact ht.fresh id hid
  · intro id call hid
    rw [hcall] at hid
    rcases update_found hid with ⟨rfl,rfl⟩ | ⟨hne,hid⟩
    · rw [Function.update_self]
      exact hfits
    · rw [Function.update_of_ne hne]
      exact ht.fits id call hid

theorem Tracks.alone (ht : Tracks s stage cache) (hunique : s.mutex = .unique i) {j : CallId}
    {call : Call} (hcall : s.call j = some call) (hin : call.pc.inScope = true) : j = i := by
  have hheld := ht.scope j call hcall hin
  rw [hunique] at hheld
  cases hm : call.op.method with
  | get =>
    rw [hm] at hheld
    obtain ⟨readers,he,-⟩ := hheld
    cases he
  | set | remove =>
    rw [hm] at hheld
    exact (SharedMutex.unique.inj hheld).symm

theorem Tracks.clear (ht : Tracks s stage cache) {readers : Finset CallId}
    (hshared : s.mutex = .shared readers) {j : CallId} {call : Call}
    (hcall : s.call j = some call) : ¬ call.erasing := by
  intro he
  have hheld := heldFor_unique (ht.scope j call hcall (Call.erasing_inScope he)) (by simp [he.1])
  rw [hshared] at hheld
  cases hheld

theorem Settled.touch (hs : Settled s cache) {old : Call} (hold : s.call i = some old)
    (hcall : s'.call = Function.update s.call i (some ⟨old.op,pc⟩)) (hcache : s'.cache = s.cache)
    (hsame : Call.erasing ⟨old.op,pc⟩ ↔ old.erasing) : Settled s' cache := by
  refine ⟨?_,?_⟩
  · intro id call hid he
    rw [hcall] at hid
    rw [hcache]
    rcases update_found hid with ⟨rfl,rfl⟩ | ⟨hne,hid⟩
    · exact hs.owed id old hold (hsame.mp he)
    · exact hs.owed id call hid he
  · intro hnone
    rw [hcache]
    refine hs.clear fun id call hid he => ?_
    by_cases hi : id = i
    · subst hi
      obtain rfl := Option.some.inj (hold.symm.trans hid)
      exact hnone id ⟨old.op,pc⟩ (by rw [hcall, Function.update_self]) (hsame.mpr he)
    · exact hnone id call (by rw [hcall, Function.update_of_ne hi, hid]) he

theorem settled_alone (hcall : s'.call = Function.update s.call i (some ⟨op,pc⟩))
    (hothers : ∀ j call, j ≠ i → s.call j = some call → ¬ call.erasing)
    (howed : Call.erasing ⟨op,pc⟩ → cache = LRUCache.remove s'.cache op.request.key)
    (hclear : ¬ Call.erasing ⟨op,pc⟩ → cache = s'.cache) : Settled s' cache := by
  refine ⟨?_,?_⟩
  · intro id call hid he
    rw [hcall] at hid
    rcases update_found hid with ⟨rfl,rfl⟩ | ⟨hne,hid⟩
    · exact howed he
    · exact absurd he (hothers id call hne hid)
  · intro hnone
    exact hclear (hnone i ⟨op,pc⟩ (by rw [hcall, Function.update_self]))

theorem Tracks.opened (ht : Tracks s stage cache) {call : Call} (hcall : s.call i = some call)
    (hpc : call.pc = .entered ∨ call.pc = .locked) : stage i = .opened call.op := by
  have hfits := ht.fits i call hcall
  rcases hpc with hpc | hpc <;> rwa [hpc] at hfits

theorem not_erasing {call : Call} (h : call.op.method ≠ .remove ∨ call.pc.found = none) :
    ¬ call.erasing := by
  rintro ⟨hm,hf⟩
  exact h.elim (fun hne => hne hm) hf

theorem fill_fits {call : Call} (hpc : call.fillPc = some pc) {x : Stage CacheOp KvResponse}
    (hfits : call.pc.Fits call.op x) :
    (call.op.method = .set ∧ call.op.request.value = none ∧ x = .opened call.op ∧
        pc = .done (fillNoValue call.op.response) ∧ call.pc = .entered) ∨
      (pc.Fits call.op x ∧ (pc.inScope = true → call.pc.inScope = true) ∧
        pc.found = call.pc.found) := by
  obtain ⟨⟨method,request,response⟩,old⟩ := call
  cases method with
  | set =>
    cases old with
    | entered =>
      simp only [Call.fillPc] at hpc
      split at hpc
      · rename_i hnone
        exact Or.inl ⟨rfl,hnone,hfits,(Option.some.inj hpc).symm,rfl⟩
      · cases hpc
    | unlocked =>
      obtain rfl := Option.some.inj hpc
      exact Or.inr ⟨hfits,nofun,rfl⟩
    | locked | stored | looked | filled | erased | done | returned => cases hpc
  | get | remove =>
    cases old with
    | looked found =>
      obtain rfl := Option.some.inj hpc
      exact Or.inr ⟨hfits,fun _ => rfl,rfl⟩
    | entered | locked | stored | unlocked | filled | erased | done | returned => cases hpc

theorem unlock_fits {call : Call} (hpc : call.unlockPc = some pc)
    {x : Stage CacheOp KvResponse} (hfits : call.pc.Fits call.op x) :
    pc.Fits call.op x ∧ pc.inScope = false ∧ pc.found = none ∧ call.pc.inScope = true ∧
      ¬ call.erasing := by
  obtain ⟨⟨method,request,response⟩,old⟩ := call
  cases method with
  | set =>
    cases old with
    | stored =>
      obtain rfl := Option.some.inj hpc
      exact ⟨hfits,rfl,rfl,rfl,not_erasing (Or.inl (by simp))⟩
    | entered | locked | unlocked | looked | filled | erased | done | returned => cases hpc
  | get =>
    cases old with
    | filled found response =>
      obtain rfl := Option.some.inj hpc
      exact ⟨hfits,rfl,rfl,rfl,not_erasing (Or.inl (by simp))⟩
    | entered | locked | stored | unlocked | looked | erased | done | returned => cases hpc
  | remove =>
    cases old with
    | filled found response =>
      cases found with
      | none =>
        obtain rfl := Option.some.inj hpc
        exact ⟨hfits,rfl,rfl,rfl,not_erasing (Or.inr rfl)⟩
      | some value => cases hpc
    | erased response =>
      obtain rfl := Option.some.inj hpc
      exact ⟨hfits,rfl,rfl,rfl,not_erasing (Or.inr rfl)⟩
    | entered | locked | stored | unlocked | looked | done | returned => cases hpc

theorem release_others (ht : Tracks s stage cache) {call : Call} (hcall : s.call i = some call)
    (hin : call.pc.inScope = true) {j : CallId} {other : Call} (hne : j ≠ i)
    (hother : s.call j = some other) (hjn : other.pc.inScope = true) :
    HeldFor (s.mutex.release i) other.op.method j := by
  have hheld := ht.scope j other hother hjn
  cases hmutex : s.mutex with
  | unique writer =>
    have hi := ht.scope i call hcall hin
    have hw : writer = i := by
      rw [hmutex] at hi
      cases hm : call.op.method with
      | get =>
        rw [hm] at hi
        obtain ⟨readers,he,-⟩ := hi
        cases he
      | set | remove =>
        rw [hm] at hi
        exact SharedMutex.unique.inj hi
    exact absurd (ht.alone (by rw [hmutex, hw]) hother hjn) hne
  | shared readers =>
    rw [hmutex] at hheld
    cases hm : other.op.method with
    | get =>
      rw [hm] at hheld
      obtain ⟨readers',he,hmem⟩ := hheld
      obtain rfl := SharedMutex.shared.inj he
      exact ⟨_,rfl,Finset.mem_erase.mpr ⟨hne,hmem⟩⟩
    | set | remove =>
      rw [hm] at hheld
      cases hheld

/-- Each step is one of the atomic object's, or invisible to it. -/
theorem tracks_step {l : Label} (ht : Tracks s stage cache) (h : Step s l s') :
    ∃ stage' cache', Move CacheOp.run (callerEvent l) stage cache stage' cache' ∧
      Tracks s' stage' cache' := by
  have hself : ∀ i x, stage i = x → Function.update stage i x = stage := by
    rintro i x rfl
    exact Function.update_eq_self i stage
  cases h with
  | @invoke i op hnone =>
    refine ⟨_,cache,.invoke stage cache i op (ht.fresh i hnone),
      ht.touch rfl rfl (fun h => by cases h) (fun j call _ hj hin => ht.scope j call hj hin) ?_⟩
    refine ⟨?_,?_⟩
    · intro id call hid he
      rcases update_found hid with ⟨rfl,rfl⟩ | ⟨-,hid⟩
      · exact absurd he (not_erasing (Or.inr rfl))
      · exact ht.settled.owed id call hid he
    · intro hclear
      refine ht.settled.clear fun id call hid => ?_
      have hne : id ≠ i := by
        rintro rfl
        rw [hnone] at hid
        cases hid
      exact hclear id call ((Function.update_of_ne hne _ _).trans hid)
  | @lock i call mutex hcall hmutex hlocks =>
    have hopened := ht.opened hcall (Or.inl hlocks.1)
    refine ⟨stage,cache,.stay stage cache,?_⟩
    rw [← hself i _ hopened]
    obtain ⟨readers,hshared,hnew⟩ := acquire_cases hmutex
    have hsettled : Settled ({ s with mutex }.setPc i call.op .locked) cache :=
      ht.settled.touch hcall rfl rfl ⟨fun he => absurd he (not_erasing (Or.inr rfl)),
        fun he => absurd he (ht.clear hshared hcall)⟩
    refine ht.touch rfl rfl ?_ ?_ hsettled
    · intro _
      rcases hnew with ⟨hget,rfl⟩ | ⟨hnot,-,rfl⟩
      · rw [hget]
        exact ⟨_,rfl,Finset.mem_insert_self i readers⟩
      · cases hm : call.op.method with
        | get => exact absurd hm hnot
        | set | remove => rfl
    · intro j other hne hother hin
      have hheld := ht.scope j other hother hin
      rw [hshared] at hheld
      cases hm : other.op.method with
      | set | remove =>
        rw [hm] at hheld
        cases hheld
      | get =>
        rw [hm] at hheld
        obtain ⟨readers',he,hmem⟩ := hheld
        obtain rfl := SharedMutex.shared.inj he
        rcases hnew with ⟨-,rfl⟩ | ⟨-,rfl,-⟩
        · exact ⟨_,rfl,Finset.mem_insert_of_mem hmem⟩
        · cases hmem
  | @put i call value hcall hvalue hset hpc =>
    have hopened := ht.opened hcall (Or.inr hpc)
    have hunique : s.mutex = .unique i :=
      heldFor_unique (ht.scope i call hcall (by rw [hpc]; rfl)) (by simp [hset])
    have hclear : ∀ j other, j ≠ i → s.call j = some other → ¬ other.erasing :=
      fun j other hne hother he =>
        hne (ht.alone hunique hother (Call.erasing_inScope he))
    have hcache : cache = s.cache := ht.settled.clear fun j other hother he => by
      by_cases hji : j = i
      · subst hji
        obtain rfl := Option.some.inj (hcall.symm.trans hother)
        exact not_erasing (Or.inl (by simp [hset])) he
      · exact hclear j other hji hother he
    have hmove : Move CacheOp.run none stage cache _ _ := .commit stage cache i call.op hopened
    rw [run_stored hset hvalue, hcache] at hmove
    rw [hcache]
    refine ⟨_,_,hmove,ht.touch rfl rfl (fun _ => by rw [hset]; exact hunique)
      (fun j other _ hother hin => ht.scope j other hother hin)
      (settled_alone rfl hclear (fun he => ?_) (fun _ => rfl))⟩
    exact absurd he (not_erasing (Or.inr rfl))
  | @tryGet i call hcall hnot hpc =>
    have hopened := ht.opened hcall (Or.inr hpc)
    have hheld := ht.scope i call hcall (by rw [hpc]; rfl)
    have hothers : ∀ j other, j ≠ i → s.call j = some other → ¬ other.erasing := by
      intro j other hne hother he
      cases hm : call.op.method with
      | set => exact hnot hm
      | get =>
        rw [hm] at hheld
        obtain ⟨readers,hshared,-⟩ := hheld
        exact ht.clear hshared hother he
      | remove =>
        rw [hm] at hheld
        exact hne (ht.alone hheld hother (Call.erasing_inScope he))
    have hcache : cache = s.cache := ht.settled.clear fun j other hother => by
      by_cases hji : j = i
      · subst hji
        obtain rfl := Option.some.inj (hcall.symm.trans hother)
        exact not_erasing (Or.inr (by rw [hpc]; rfl))
      · exact hothers j other hji hother
    have hmove : Move CacheOp.run none stage cache _ _ := .commit stage cache i call.op hopened
    rw [hcache] at hmove ⊢
    cases hm : call.op.method with
    | set => exact absurd hm hnot
    | get =>
      rw [run_get hm] at hmove
      refine ⟨_,_,hmove,ht.touch rfl rfl (fun _ => by rw [hm] at hheld ⊢; exact hheld)
        (fun j other _ hother hin => ht.scope j other hother hin)
        (settled_alone rfl hothers (fun he => ?_) (fun _ => rfl))⟩
      exact absurd he (not_erasing (Or.inl (by simp [hm])))
    | remove =>
      rw [run_remove hm] at hmove
      refine ⟨_,_,hmove,ht.touch rfl rfl (fun _ => by rw [hm] at hheld ⊢; exact hheld)
        (fun j other _ hother hin => ht.scope j other hother hin)
        (settled_alone rfl hothers (fun he => if_neg he.2) (fun he => if_pos ?_))⟩
      by_contra hfound
      exact he ⟨hm,hfound⟩
  | @fill i call pc hcall hpc =>
    have hkeep : ∀ j other, j ≠ i → s.call j = some other → other.pc.inScope = true →
        HeldFor s.mutex other.op.method j := fun j other _ hother hin =>
      ht.scope j other hother hin
    rcases fill_fits hpc (ht.fits i call hcall) with
      ⟨hset,hnone,hopened,rfl,hentered⟩ | ⟨hfits,hscope,hfound⟩
    · have hmove : Move CacheOp.run none stage cache _ _ := .commit stage cache i call.op hopened
      rw [run_noValue hset hnone] at hmove
      refine ⟨_,_,hmove,ht.touch rfl rfl nofun hkeep (ht.settled.touch hcall rfl rfl ?_)⟩
      exact ⟨fun he => absurd he (not_erasing (Or.inr rfl)),
        fun he => absurd he (not_erasing (Or.inl (by simp [hset])))⟩
    · refine ⟨stage,cache,.stay stage cache,?_⟩
      rw [← hself i _ rfl]
      refine ht.touch rfl hfits (fun hin => ht.scope i call hcall (hscope hin)) hkeep
        (ht.settled.touch hcall rfl rfl ?_)
      simp only [Call.erasing, hfound]
  | @erase i call value response hcall hremove hpc =>
    have herasing : call.erasing := ⟨hremove,by simp [hpc, Pc.found]⟩
    have hin : call.pc.inScope = true := Call.erasing_inScope herasing
    have hheld := ht.scope i call hcall hin
    have hunique : s.mutex = .unique i := heldFor_unique hheld (by simp [hremove])
    have hcache := ht.settled.owed i call hcall herasing
    have hfits := ht.fits i call hcall
    rw [hpc] at hfits
    refine ⟨stage,cache,.stay stage cache,?_⟩
    rw [← hself i _ rfl]
    refine ht.touch rfl hfits (fun _ => hheld)
      (fun j other _ hother hin => ht.scope j other hother hin)
      (settled_alone rfl ?_ (fun he => ?_) (fun _ => hcache))
    · intro j other hne hother he
      exact hne (ht.alone hunique hother (Call.erasing_inScope he))
    · exact absurd he (not_erasing (Or.inr rfl))
  | @unlock i call pc hcall hpc =>
    obtain ⟨hfits,hout,hfound,hin,hnot⟩ := unlock_fits hpc (ht.fits i call hcall)
    refine ⟨stage,cache,.stay stage cache,?_⟩
    rw [← hself i _ rfl]
    refine ht.touch rfl hfits (fun h => by rw [hout] at h; cases h)
      (fun j other hne hother hjn => release_others ht hcall hin hne hother hjn)
      (ht.settled.touch hcall rfl rfl ?_)
    exact ⟨fun he => absurd he (not_erasing (Or.inr hfound)),fun he => absurd he hnot⟩
  | @respond i call response hcall hpc =>
    have happlied : stage i = .applied call.op response := by
      have hfits := ht.fits i call hcall
      rwa [hpc] at hfits
    refine ⟨_,cache,.respond stage cache i call.op response happlied,
      ht.touch rfl trivial nofun (fun j other _ hother hin => ht.scope j other hother hin)
        (ht.settled.touch hcall rfl rfl ?_)⟩
    exact ⟨fun he => absurd he (not_erasing (Or.inr rfl)),
      fun he => absurd he (not_erasing (Or.inr (by rw [hpc]; rfl)))⟩

end Steps

section Runs
variable {s : State σ} {cache₀ : σ} {tr : List Label}

def Complete (tr : List Label) : Prop :=
  ∀ id op, .invoke id op ∈ tr → ∃ response, .respond id response ∈ tr

theorem step_made {s' : State σ} {l : Label} (h : Step s l s') {id : CallId} {call : Call}
    (hid : s'.call id = some call) : (∃ old, s.call id = some old) ∨ l = .invoke id call.op := by
  cases h with
  | invoke =>
    rcases update_found hid with ⟨rfl,rfl⟩ | ⟨-,hid⟩
    · exact Or.inr rfl
    · exact Or.inl ⟨call,hid⟩
  | lock hcall | put hcall | tryGet hcall | fill hcall | erase hcall | unlock hcall
  | respond hcall =>
    rcases update_found hid with ⟨rfl,-⟩ | ⟨-,hid⟩
    · exact Or.inl ⟨_,hcall⟩
    · exact Or.inl ⟨call,hid⟩

omit [LRUCache σ] in
theorem returned_stuck {call : Call} {r : KvResponse} (h : call.pc = .returned r) :
    call.fillPc = none ∧ call.unlockPc = none := by
  obtain ⟨⟨method,request,response⟩,pc⟩ := call
  obtain rfl : pc = .returned r := h
  cases method <;> exact ⟨rfl,rfl⟩

theorem step_returned {s' : State σ} {l : Label} (h : Step s l s') {id : CallId} {op : CacheOp}
    {r : KvResponse} (hid : s.call id = some ⟨op,.returned r⟩) :
    s'.call id = some ⟨op,.returned r⟩ := by
  have hother : ∀ {i new}, id ≠ i →
      Function.update s.call i (some new) id = some ⟨op,.returned r⟩ := by
    intro i new hne
    rw [Function.update_of_ne hne, hid]
  have hbusy : ∀ {i old}, s.call i = some old → old.pc ≠ .returned r → id ≠ i := by
    rintro i old hold hpc rfl
    obtain rfl := Option.some.inj (hid.symm.trans hold)
    exact hpc rfl
  cases h with
  | invoke hnone =>
    refine hother ?_
    rintro rfl
    rw [hid] at hnone
    cases hnone
  | lock hcall _ hlocks => exact hother (hbusy hcall (by simp [hlocks.1]))
  | put hcall _ _ hpc => exact hother (hbusy hcall (by simp [hpc]))
  | tryGet hcall _ hpc => exact hother (hbusy hcall (by simp [hpc]))
  | fill hcall hpc =>
    refine hother (hbusy hcall fun he => ?_)
    rw [(returned_stuck he).1] at hpc
    cases hpc
  | erase hcall _ hpc => exact hother (hbusy hcall (by simp [hpc]))
  | unlock hcall hpc =>
    refine hother (hbusy hcall fun he => ?_)
    rw [(returned_stuck he).2] at hpc
    cases hpc
  | respond hcall hpc => exact hother (hbusy hcall (by simp [hpc]))

theorem all_returned (hrun : runFrom step (.init cache₀) tr = some s) (hc : Complete tr)
    {id : CallId} {call : Call} (hcall : s.call id = some call) :
    ∃ response, call.pc = .returned response := by
  have hmade : ∃ op, .invoke id op ∈ tr := by
    refine run_invariant (P := fun tr s => ∀ id call, s.call id = some call →
      ∃ op, .invoke id op ∈ tr) (fun id call hcall => by cases hcall) ?_ tr s hrun id call hcall
    intro es m l n _ hm hn id call hcall
    rcases step_made (step_sound hn) hcall with ⟨old,hold⟩ | rfl
    · obtain ⟨op,hmem⟩ := hm id old hold
      exact ⟨op,List.mem_append_left _ hmem⟩
    · exact ⟨call.op,by simp⟩
  obtain ⟨op,hmade⟩ := hmade
  obtain ⟨response,hmem⟩ := hc id op hmade
  obtain ⟨u,v,rfl⟩ := List.append_of_mem hmem
  obtain ⟨m,n,-,hn,hv⟩ := run_at hrun
  have hreturned : ∃ op, n.call id = some ⟨op,.returned response⟩ := by
    cases step_sound hn with
    | respond => exact ⟨_,Function.update_self id _ m.call⟩
  obtain ⟨op,hreturned⟩ := hreturned
  have hlast : s.call id = some ⟨op,.returned response⟩ :=
    run_invariant (P := fun _ s => s.call id = some ⟨op,.returned response⟩) hreturned
      (fun _ _ _ _ _ hm hn => step_returned (step_sound hn) hm) v s hv
  obtain rfl := Option.some.inj (hcall.symm.trans hlast)
  exact ⟨response,rfl⟩

def writes (s : State σ) : Label → Option CallId
  | .put id | .erase id => some id
  | .tryGet id =>
    match s.call id with
    | some call => if call.op.method = .remove then some id else none
    | none => none
  | .invoke _ _ | .lock _ | .fill _ | .unlock _ | .respond _ _ => none

theorem tracks_init (cache₀ : σ) : Tracks (.init cache₀) (fun _ => .idle) cache₀ := by
  refine ⟨?_,fun _ _ => rfl,?_,?_,fun _ => rfl⟩
  · intro id call hcall
    cases hcall
  · intro id call hcall
    cases hcall
  · intro id call hcall
    cases hcall

/-- What a run of one locked Cache guarantees: when all its calls have returned they
are explained, final cache included, by running them one after another; and a call of
put or remove makes a cache call only while no other call holds the lock. -/
structure Linearizable (cache₀ : σ) (tr : List Label) (s : State σ) : Prop where
  explained : Complete tr →
    ∃ order, Linearizes CacheOp.run cache₀ (tr.filterMap callerEvent) order s.cache
  exclusive : ∀ l s', step s l = some s' → ∀ id, writes s l = some id →
    ∀ j, s.mutex.Holds j → j = id

theorem linearizable_run (hrun : runFrom step (.init cache₀) tr = some s) :
    Linearizable cache₀ tr s := by
  obtain ⟨order,stage,cache,hlin,ht⟩ := simulation_linearizes callerEvent
    (fun _ _ => True) Tracks (tracks_init cache₀)
    (fun _ _ _ _ _ ht _ hn => tracks_step ht (step_sound hn)) hrun
    (guarded_of_forall fun _ _ => trivial)
  have hunique : ∀ {id call}, s.call id = some call → call.pc.inScope = true →
      call.op.method ≠ .get → ∀ j, s.mutex.Holds j → j = id := by
    intro id call hcall hin hm j hj
    rw [heldFor_unique (ht.scope id call hcall hin) hm] at hj
    exact hj.symm
  refine ⟨fun hcomplete => ⟨order,?_⟩,?_⟩
  · rw [← ht.settled.clear]
    · exact hlin
    · intro id call hcall
      obtain ⟨response,hpc⟩ := all_returned hrun hcomplete hcall
      exact not_erasing (Or.inr (by rw [hpc]; rfl))
  · intro l s' h id hw
    cases step_sound h with
    | put hcall _ hset hpc =>
      obtain rfl := Option.some.inj hw
      exact hunique hcall (by rw [hpc]; rfl) (by simp [hset])
    | erase hcall hremove hpc =>
      obtain rfl := Option.some.inj hw
      exact hunique hcall (by rw [hpc]; rfl) (by simp [hremove])
    | tryGet hcall _ hpc =>
      simp only [writes, hcall] at hw
      split at hw
      · rename_i hremove
        obtain rfl := Option.some.inj hw
        exact hunique hcall (by rw [hpc]; rfl) (by simp [hremove])
      · cases hw
    | invoke | lock | fill | unlock | respond => cases hw

end Runs

def sharedThenUnique : List Label :=
  [.invoke 0 ⟨.set,⟨text "k",some (text "v")⟩,{}⟩,.lock 0,.put 0,.unlock 0,.fill 0,
    .invoke 1 ⟨.get,⟨text "k",none⟩,{}⟩,.invoke 2 ⟨.get,⟨text "j",none⟩,{}⟩,.lock 1,.lock 2,
    .tryGet 2,.tryGet 1,.fill 1,.fill 2,.unlock 2,
    .invoke 3 ⟨.remove,⟨text "k",none⟩,{}⟩,.unlock 1,.lock 3,.tryGet 3,.fill 3,.erase 3,
    .unlock 3,.respond 3 ⟨some 0,some (text "ok"),some (text "v")⟩,
    .respond 2 ⟨some 5,some (text "not found"),none⟩,
    .respond 1 ⟨some 0,some (text "ok"),some (text "v")⟩,
    .respond 0 ⟨some 0,some (text "ok"),none⟩]

theorem linearizable_sharedThenUnique :
    Complete sharedThenUnique ∧
    ∃ s, runFrom step (.init (Lru.empty 2 : Lru Bytes Bytes)) sharedThenUnique = some s ∧
      Linearizable (Lru.empty 2) sharedThenUnique s := by
  have hsome : (runFrom step (.init (Lru.empty 2 : Lru Bytes Bytes))
      sharedThenUnique).isSome := by decide
  obtain ⟨s,hs⟩ := Option.isSome_iff_exists.mp hsome
  refine ⟨?_,s,hs,linearizable_run hs⟩
  intro id op hmem
  simp only [sharedThenUnique, List.mem_cons, List.not_mem_nil, or_false, reduceCtorEq,
    false_or, Label.invoke.injEq] at hmem
  rcases hmem with ⟨rfl,-⟩ | ⟨rfl,-⟩ | ⟨rfl,-⟩ | ⟨rfl,-⟩ <;> simp [sharedThenUnique]

end EaHalfHour.LockedCache
