import Mathlib.Algebra.Order.BigOperators.Group.Finset
import EaHalfHour.LockedCache

/-! That the calls on a locked Cache finish: nobody waits for a lock whose holder cannot
go on, and no schedule of the calls made so far keeps them from returning. -/
namespace EaHalfHour.LockProgress
open LabelledRun AtomicObject KvMessage KvCache RecencyMap LockedCache

def Pc.rank : Pc → Nat
  | .entered => 6
  | .locked => 5
  | .looked _ => 4
  | .stored | .filled _ _ => 3
  | .unlocked | .erased _ => 2
  | .done _ => 1
  | .returned _ => 0

theorem Pc.rank_le (pc : Pc) : Pc.rank pc ≤ 6 := by
  cases pc <;> simp [Pc.rank]

theorem Pc.returned_of_rank {pc : Pc} (h : ¬ 0 < Pc.rank pc) :
    ∃ response, pc = .returned response := by
  cases pc with
  | returned response => exact ⟨response,rfl⟩
  | entered | locked | stored | unlocked | looked | filled | erased | done =>
    exact absurd (by simp [Pc.rank]) h

def Call.Proper (call : Call) : Prop :=
  match call.pc with
  | .entered | .done _ | .returned _ => True
  | .locked => call.op.method = .set → call.op.request.value ≠ none
  | .stored | .unlocked => call.op.method = .set
  | .looked _ => call.op.method ≠ .set
  | .filled _ _ => call.op.method ≠ .set
  | .erased _ => call.op.method = .remove

def Continues (l : Label) : Prop := ∀ id op, l ≠ .invoke id op

section Steps
variable {σ : Type} [LRUCache σ] {s s' : State σ} {l : Label}

/-- Every lock is held by a call inside its scope, and every call is at a statement of
its own member. -/
structure Going (s : State σ) : Prop where
  holder : ∀ id, s.mutex.Holds id → ∃ call, s.call id = some call ∧ call.pc.inScope = true
  proper : ∀ id call, s.call id = some call → Call.Proper call

inductive Advances (s s' : State σ) : Prop where
  | intro {i : CallId} {old : Call} {pc : Pc} : s.call i = some old →
      s'.call = Function.update s.call i (some ⟨old.op,pc⟩) → Call.Proper ⟨old.op,pc⟩ →
      Pc.rank pc < Pc.rank old.pc →
      (∀ id, s'.mutex.Holds id → id = i ∧ pc.inScope = true ∨ id ≠ i ∧ s.mutex.Holds id) →
      Advances s s'

omit [LRUCache σ] in
theorem Going.holds_kept (h : Going s) {i : CallId} {old : Call} {pc : Pc}
    (hold : s.call i = some old) (hscope : old.pc.inScope = true → pc.inScope = true)
    {id : CallId} (hid : s.mutex.Holds id) :
    id = i ∧ pc.inScope = true ∨ id ≠ i ∧ s.mutex.Holds id := by
  by_cases hi : id = i
  · subst hi
    obtain ⟨call,hcall,hin⟩ := h.holder id hid
    obtain rfl := Option.some.inj (hcall.symm.trans hold)
    exact Or.inl ⟨rfl,hscope hin⟩
  · exact Or.inr ⟨hi,hid⟩

omit [LRUCache σ] in
theorem holds_release {mutex : SharedMutex} {i id : CallId} (h : (mutex.release i).Holds id) :
    id ≠ i ∧ mutex.Holds id := by
  cases mutex with
  | shared readers => exact Finset.mem_erase.mp h
  | unique writer => exact absurd h (Finset.notMem_empty id)

omit [LRUCache σ] in
theorem holds_acquire {mutex mutex' : SharedMutex} {method : Method} {i id : CallId}
    (hacquire : mutex.acquire method i = some mutex') (h : mutex'.Holds id) :
    id = i ∨ id ≠ i ∧ mutex.Holds id := by
  obtain ⟨readers,rfl,⟨-,rfl⟩ | ⟨-,-,rfl⟩⟩ := acquire_cases hacquire
  · by_cases hi : id = i
    · exact Or.inl hi
    · exact Or.inr ⟨hi,(Finset.mem_insert.mp h).resolve_left hi⟩
  · exact Or.inl h.symm

theorem step_advances (h : Going s) (hs : Step s l s') (hl : Continues l) :
    Advances s s' := by
  cases hs with
  | invoke => exact absurd rfl (hl _ _)
  | @lock id call mutex hcall hacquire hlocks =>
    refine .intro hcall rfl hlocks.2 (by rw [hlocks.1]; decide) fun j hj => ?_
    rcases holds_acquire hacquire hj with rfl | hj
    · exact Or.inl ⟨rfl,rfl⟩
    · exact Or.inr hj
  | put hcall _ hm hpc =>
    exact .intro hcall rfl hm (by rw [hpc]; decide) fun j hj =>
      h.holds_kept hcall (fun _ => rfl) hj
  | tryGet hcall hm hpc =>
    exact .intro hcall rfl hm (by rw [hpc]; exact (by decide : 4 < 5)) fun j hj =>
      h.holds_kept hcall (fun _ => rfl) hj
  | @fill id call pc hcall hpc =>
    obtain ⟨op,old⟩ := call
    unfold Call.fillPc at hpc
    split at hpc
    · rename_i hm he
      split at hpc
      · obtain rfl := Option.some.inj hpc
        obtain rfl : old = .entered := he
        exact .intro hcall rfl trivial (by decide : 1 < 6) fun j hj =>
          h.holds_kept hcall (fun hin => by cases hin) hj
      · cases hpc
    · rename_i hm he
      obtain rfl := Option.some.inj hpc
      obtain rfl : old = .unlocked := he
      exact .intro hcall rfl trivial (by decide : 1 < 2) fun j hj =>
        h.holds_kept hcall (fun hin => by cases hin) hj
    · rename_i found hm he
      obtain rfl := Option.some.inj hpc
      obtain rfl : old = .looked found := he
      refine .intro hcall rfl ?_ (by decide : 3 < 4) fun j hj =>
        h.holds_kept hcall (fun _ => rfl) hj
      exact fun hset => by rw [show op.method = .get from hm] at hset; cases hset
    · rename_i found hm he
      obtain rfl := Option.some.inj hpc
      obtain rfl : old = .looked found := he
      refine .intro hcall rfl ?_ (by decide : 3 < 4) fun j hj =>
        h.holds_kept hcall (fun _ => rfl) hj
      exact fun hset => by rw [show op.method = .remove from hm] at hset; cases hset
    · cases hpc
  | erase hcall hm hpc =>
    exact .intro hcall rfl hm (by rw [hpc]; exact (by decide : 2 < 3)) fun j hj =>
      h.holds_kept hcall (fun _ => rfl) hj
  | @unlock id call pc hcall hpc =>
    have hgone : ∀ j, (s.mutex.release id).Holds j →
        j = id ∧ pc.inScope = true ∨ j ≠ id ∧ s.mutex.Holds j :=
      fun j hj => Or.inr (holds_release hj)
    obtain ⟨op,old⟩ := call
    unfold Call.unlockPc at hpc
    split at hpc
    · rename_i hm he
      obtain rfl := Option.some.inj hpc
      obtain rfl : old = .stored := he
      exact .intro hcall rfl hm (by decide : 2 < 3) hgone
    · rename_i found response hm he
      obtain rfl := Option.some.inj hpc
      obtain rfl : old = .filled found response := he
      exact .intro hcall rfl trivial (by decide : 1 < 3) hgone
    · rename_i response hm he
      obtain rfl := Option.some.inj hpc
      obtain rfl : old = .filled none response := he
      exact .intro hcall rfl trivial (by decide : 1 < 3) hgone
    · rename_i response hm he
      obtain rfl := Option.some.inj hpc
      obtain rfl : old = .erased response := he
      exact .intro hcall rfl trivial (by decide : 1 < 2) hgone
    · cases hpc
  | respond hcall hpc =>
    exact .intro hcall rfl trivial (by rw [hpc]; exact Nat.zero_lt_one) fun j hj =>
      h.holds_kept hcall (fun hin => by rw [hpc] at hin; cases hin) hj

omit [LRUCache σ] in
theorem Advances.going (ha : Advances s s') (h : Going s) : Going s' := by
  obtain @⟨i,old,pc,hold,hcall,hproper,-,hholds⟩ := ha
  refine ⟨fun j hj => ?_,fun j call hj => ?_⟩
  · rw [hcall]
    rcases hholds j hj with ⟨rfl,hin⟩ | ⟨hne,hj⟩
    · exact ⟨_,Function.update_self ..,hin⟩
    · rw [Function.update_of_ne hne]
      exact h.holder j hj
  · rw [hcall] at hj
    by_cases hji : j = i
    · subst hji
      rw [Function.update_self] at hj
      obtain rfl := Option.some.inj hj
      exact hproper
    · rw [Function.update_of_ne hji] at hj
      exact h.proper j call hj

omit [LRUCache σ] in
theorem Going.invoked (h : Going s) {i : CallId} {op : CacheOp} (hnone : s.call i = none) :
    Going (s.setPc i op .entered) := by
  refine ⟨fun j hj => ?_,fun j call hj => ?_⟩
  · obtain ⟨call,hcall,hin⟩ := h.holder j hj
    have hne : j ≠ i := fun hji => by rw [hji, hnone] at hcall; cases hcall
    exact ⟨call,by simpa [State.setPc, hne] using hcall,hin⟩
  · by_cases hji : j = i
    · subst hji
      obtain rfl : ⟨op,.entered⟩ = call := by simpa [State.setPc] using hj
      trivial
    · exact h.proper j call (by simpa [State.setPc, hji] using hj)

theorem Going.step (h : Going s) (hs : Step s l s') : Going s' := by
  by_cases hinvoke : ∃ id op, l = .invoke id op
  · obtain ⟨id,op,rfl⟩ := hinvoke
    cases hs with
    | invoke hnone => exact h.invoked hnone
  · exact (step_advances h hs fun id op he => hinvoke ⟨id,op,he⟩).going h

theorem enabled_of_inScope (h : Going s) {i : CallId} {call : Call}
    (hcall : s.call i = some call) (hin : call.pc.inScope = true) :
    ∃ l, Continues l ∧ (LockedCache.step s l).isSome := by
  have hproper := h.proper i call hcall
  obtain ⟨op,pc⟩ := call
  cases pc with
  | locked =>
    by_cases hm : op.method = .set
    · obtain ⟨value,hvalue⟩ : ∃ value, op.request.value = some value :=
        Option.ne_none_iff_exists'.mp (hproper hm)
      exact ⟨.put i,by simp [Continues],by simp [LockedCache.step, hcall, hvalue, hm]⟩
    · exact ⟨.tryGet i,by simp [Continues],by simp [LockedCache.step, hcall, hm]⟩
  | stored =>
    have hm : op.method = .set := hproper
    exact ⟨.unlock i,by simp [Continues],by simp [LockedCache.step, hcall, Call.unlockPc, hm]⟩
  | looked found =>
    refine ⟨.fill i,by simp [Continues],?_⟩
    cases hm : op.method with
    | set => exact absurd hm hproper
    | get | remove => simp [LockedCache.step, hcall, Call.fillPc, hm]
  | filled found response =>
    cases hm : op.method with
    | set => exact absurd hm hproper
    | get =>
      exact ⟨.unlock i,by simp [Continues],by simp [LockedCache.step, hcall, Call.unlockPc, hm]⟩
    | remove =>
      cases found with
      | none =>
        exact ⟨.unlock i,by simp [Continues],by simp [LockedCache.step, hcall, Call.unlockPc, hm]⟩
      | some value =>
        exact ⟨.erase i,by simp [Continues],by simp [LockedCache.step, hcall, hm]⟩
  | erased response =>
    have hm : op.method = .remove := hproper
    exact ⟨.unlock i,by simp [Continues],by simp [LockedCache.step, hcall, Call.unlockPc, hm]⟩
  | entered | unlocked | done | returned => cases hin

omit [LRUCache σ] in
theorem Going.free (h : Going s)
    (hout : ∀ id call, s.call id = some call → call.pc.inScope = false) :
    s.mutex = .shared ∅ := by
  have hnobody : ∀ id, ¬ s.mutex.Holds id := by
    intro id hid
    obtain ⟨call,hcall,hin⟩ := h.holder id hid
    rw [hout id call hcall] at hin
    cases hin
  cases hmutex : s.mutex with
  | shared readers =>
    rw [hmutex] at hnobody
    rw [Finset.eq_empty_of_forall_notMem hnobody]
  | unique writer =>
    rw [hmutex] at hnobody
    exact absurd rfl (hnobody writer)

theorem enabled_of_pending (h : Going s) {i : CallId} {call : Call}
    (hcall : s.call i = some call) (hpending : 0 < Pc.rank call.pc) :
    ∃ l, Continues l ∧ (LockedCache.step s l).isSome := by
  by_cases hin : ∃ id call, s.call id = some call ∧ call.pc.inScope = true
  · obtain ⟨j,call',hj,hin⟩ := hin
    exact enabled_of_inScope h hj hin
  · have hout : ∀ id call, s.call id = some call → call.pc.inScope = false := by
      intro id call' hid
      by_contra hscope
      exact hin ⟨id,call',hid,by simpa using hscope⟩
    have hfree := h.free hout
    have hproper := h.proper i call hcall
    have hscope := hout i call hcall
    obtain ⟨op,pc⟩ := call
    cases pc with
    | entered =>
      by_cases hlocks : op.method = .set ∧ op.request.value = none
      · exact ⟨.fill i,by simp [Continues],by simp [LockedCache.step, hcall, Call.fillPc, hlocks]⟩
      · have hlocks' : Call.locks ⟨op,.entered⟩ :=
          ⟨rfl,fun hm hvalue => hlocks ⟨hm,hvalue⟩⟩
        obtain ⟨mutex,hacquire⟩ : ∃ mutex, s.mutex.acquire op.method i = some mutex := by
          rw [hfree]
          cases op.method <;> exact ⟨_,rfl⟩
        exact ⟨.lock i,by simp [Continues],by simp [LockedCache.step, hcall, hacquire, hlocks']⟩
    | unlocked =>
      have hm : op.method = .set := hproper
      exact ⟨.fill i,by simp [Continues],by simp [LockedCache.step, hcall, Call.fillPc, hm]⟩
    | done response =>
      exact ⟨.respond i response,by simp [Continues],by simp [LockedCache.step, hcall]⟩
    | returned => exact absurd hpending (by simp [Pc.rank])
    | locked | stored | looked | filled | erased => cases hscope

end Steps

section Runs
variable {σ : Type} [LRUCache σ] {cache₀ : σ} {tr : List Label} {s : State σ}

def remaining (calls : Finset CallId) (s : State σ) : Nat :=
  ∑ id ∈ calls, ((s.call id).map fun call => Pc.rank call.pc).getD 0

def Made (calls : Finset CallId) (s : State σ) : Prop :=
  ∀ id, s.call id ≠ none ↔ id ∈ calls

omit [LRUCache σ] in
theorem Made.invoked {calls : Finset CallId} (hmade : Made calls s) {i : CallId} {op : CacheOp} :
    Made (insert i calls) (s.setPc i op .entered) := by
  intro id
  by_cases hid : id = i
  · simp [State.setPc, hid]
  · simp [State.setPc, hid, hmade id]

omit [LRUCache σ] in
theorem Advances.made {calls : Finset CallId} {s' : State σ} (ha : Advances s s')
    (hmade : Made calls s) : Made calls s' := by
  obtain @⟨i,old,pc,hold,hcall,-⟩ := ha
  intro id
  rw [hcall]
  by_cases hid : id = i
  · simpa [hid, hold] using hmade i
  · simpa [hid] using hmade id

omit [LRUCache σ] in
theorem Advances.remaining_lt {calls : Finset CallId} {s' : State σ} (ha : Advances s s')
    (hmade : Made calls s) : remaining calls s' < remaining calls s := by
  obtain @⟨i,old,pc,hold,hcall,-,hlt,-⟩ := ha
  have hi : i ∈ calls := (hmade i).mp (by simp [hold])
  refine Finset.sum_lt_sum (fun id _ => ?_) ⟨i,hi,by simpa [hcall, hold] using hlt⟩
  rw [hcall]
  by_cases hid : id = i
  · subst hid
    simpa [hold] using Nat.le_of_lt hlt
  · rw [Function.update_of_ne hid]

omit [LRUCache σ] in
theorem remaining_le {calls : Finset CallId} : remaining calls s ≤ 6 * calls.card := by
  rw [Nat.mul_comm]
  refine Finset.sum_le_card_nsmul _ _ 6 fun id _ => ?_
  cases s.call id with
  | none => exact Nat.zero_le 6
  | some call => exact Pc.rank_le call.pc

theorem going_run (hrun : runFrom step (.init cache₀) tr = some s) : Going s := by
  refine run_invariant (P := fun _ => Going) ⟨?_,?_⟩ ?_ tr s hrun
  · intro id hid
    exact absurd hid (Finset.notMem_empty id)
  · intro id call hcall
    cases hcall
  · intro _ m l n _ h hn
    exact h.step (step_sound hn)

theorem made_run (hrun : runFrom step (.init cache₀) tr = some s) :
    ∃ calls, Made calls s := by
  have hstart : Made ∅ (.init cache₀ : State σ) := fun id => by simp [State.init]
  refine run_invariant (P := fun _ s => ∃ calls, Made calls s) ⟨∅,hstart⟩ ?_ tr s hrun
  rintro es m l n hm ⟨calls,hmade⟩ hn
  by_cases hinvoke : ∃ id op, l = .invoke id op
  · obtain ⟨id,op,rfl⟩ := hinvoke
    cases step_sound hn with
    | invoke hnone => exact ⟨insert id calls,hmade.invoked⟩
  · exact ⟨calls,(step_advances (going_run hm) (step_sound hn)
      fun id op he => hinvoke ⟨id,op,he⟩).made hmade⟩

/-- However the calls made so far are scheduled, each of them has returned after at most
six statements a call: a schedule ends only when they all have. -/
theorem finishes_run (hrun : runFrom step (.init cache₀) tr = some s) :
    ∃ calls, Made calls s ∧ ∀ tr' t, runFrom step s tr' = some t →
      (∀ l ∈ tr', Continues l) →
      Made calls t ∧ tr'.length ≤ 6 * calls.card ∧
        ((∀ l, Continues l → step t l = none) ↔
          ∀ id ∈ calls, ∃ op response, t.call id = some ⟨op,.returned response⟩) := by
  obtain ⟨calls,hmade⟩ := made_run hrun
  refine ⟨calls,hmade,fun tr' t ht hold => ?_⟩
  obtain ⟨⟨hgoing,hmade'⟩,hlen⟩ := length_le_rank (I := fun s => Going s ∧ Made calls s)
    (fun m l n hm (hl : Continues l) hn =>
      have ha := step_advances hm.1 (step_sound hn) hl
      ⟨⟨ha.going hm.1,ha.made hm.2⟩,ha.remaining_lt hm.2⟩) ⟨going_run hrun,hmade⟩ ht hold
  have hcount : remaining calls s ≤ 6 * calls.card := remaining_le
  refine ⟨hmade',by omega,fun hstuck id hid => ?_,fun hreturned l hl => ?_⟩
  · obtain ⟨⟨op,pc⟩,hcall⟩ := Option.ne_none_iff_exists'.mp ((hmade' id).mpr hid)
    by_cases hpending : 0 < Pc.rank pc
    · obtain ⟨l,hl,hsome⟩ := enabled_of_pending hgoing hcall hpending
      rw [hstuck l hl] at hsome
      cases hsome
    · obtain ⟨response,rfl⟩ := Pc.returned_of_rank hpending
      exact ⟨op,response,hcall⟩
  · cases hn : step t l with
    | none => rfl
    | some n =>
      obtain @⟨i,old,pc,hi,-,-,hlt,-⟩ := step_advances hgoing (step_sound hn) hl
      obtain ⟨op,response,hcall⟩ := hreturned i ((hmade' i).mp (by rw [hi]; simp))
      rw [hcall] at hi
      obtain rfl := Option.some.inj hi
      exact absurd hlt (Nat.not_lt_zero _)

/-- Two gets hold the lock that a put and a remove wait for. -/
def waiting : List Label :=
  [.invoke 0 ⟨.get,⟨text "k",none⟩,{}⟩,.invoke 1 ⟨.set,⟨text "k",some (text "v")⟩,{}⟩,
    .lock 0,.invoke 2 ⟨.get,⟨text "k",none⟩,{}⟩,.invoke 3 ⟨.remove,⟨text "k",none⟩,{}⟩,.lock 2]

theorem finishes_waiting :
    ∃ s, runFrom step (.init (Lru.empty 2 : Lru Bytes Bytes)) waiting = some s ∧
    ∃ calls, Made calls s ∧ ∀ tr' t, runFrom step s tr' = some t →
      (∀ l ∈ tr', Continues l) →
      Made calls t ∧ tr'.length ≤ 6 * calls.card ∧
        ((∀ l, Continues l → step t l = none) ↔
          ∀ id ∈ calls, ∃ op response, t.call id = some ⟨op,.returned response⟩) := by
  have hsome : (runFrom step (.init (Lru.empty 2 : Lru Bytes Bytes)) waiting).isSome := by decide
  obtain ⟨s,hs⟩ := Option.isSome_iff_exists.mp hsome
  exact ⟨s,hs,finishes_run hs⟩

end Runs

end EaHalfHour.LockProgress
