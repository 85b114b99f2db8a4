import EaHalfHour.SessionChecks

/-! What every run of the session example comes to: each call goes on without the others,
no update of the session data is lost, and all that melon gave out can be taken back. -/
namespace EaHalfHour.SessionRuns
open LabelledRun Loans Lending SessionServer SessionChecks
variable {server : Server} {melon : List Label → Label → Prop} {s : State} {es : List Label}

def own (id : CallId) (es : List Label) : Nat := es.countP fun l => l.id = id

theorem own_concat (id : CallId) (es : List Label) (l : Label) :
    own id (es ++ [l]) = own id es + if l.id = id then 1 else 0 := by
  simp [own, List.countP_append, List.countP_singleton]

section Heard
variable (hdoc : Documented server melon) (h : Heard server melon es s)
include hdoc h

theorem own_rank_run (id : CallId) :
    own id es + ((s.call id).elim 21 fun call => call.stage.rank) ≤ 21 := by
  refine heard_invariant hdoc h (P := fun es s => own id es + ((s.call id).elim 21 fun call =>
    call.stage.rank) ≤ 21) (Nat.le_refl 21) ?_ ?_
  · intro es m j request _ hP hnone
    rw [own_concat]
    by_cases hid : id = j
    · subst hid
      simpa [hnone, State.setCall, Label.id] using hP
    · simpa [State.setCall, Label.id, hid, Ne.symm hid] using hP
  · intro es m l call stage _ hP hcall hf
    rw [own_concat]
    have hlt := hf.moves.rank_lt
    by_cases hid : id = l.id
    · subst hid
      simp only [hcall, Option.elim_some, State.setCall, Function.update_self, if_true] at hP ⊢
      omega
    · simpa [State.setCall, hid, Ne.symm hid] using hP

end Heard

theorem step_of_following {l : Label} {call : Call} (hrunning : s.aborted = false)
    (hcall : s.call l.id = some call) {o : Option Stage}
    (hf : following server s call.request l call.stage = some o) : ∃ t, step server s l = some t := by
  unfold step
  rw [if_neg (by simp [hrunning])]
  cases l with
  | receive => cases following_sound hf
  | _ =>
    simp only [hcall, hf, Option.bind_eq_bind, Option.bind_some]
    cases o with
    | none | some stage => exact ⟨_,rfl⟩

theorem next_of_rank (hdoc : Documented server melon) (hreturns : Returns server melon)
    (h : Heard server melon es s) {id : CallId} {call : Call}
    (hcall : s.call id = some call) (hrank : 0 < call.stage.rank) :
    ∃ l t, l.id = id ∧ Heard server melon (es ++ [l]) t := by
  have hinv := inv_run hdoc h
  suffices hnext : ∃ l o, l.id = id ∧ (l.fromMelon → melon es l) ∧
      following server s call.request l call.stage = some o by
    obtain ⟨l,o,rfl,hmelon,hf⟩ := hnext
    obtain ⟨t,ht⟩ := step_of_following hinv.running hcall hf
    refine ⟨l,t,rfl,(runFrom_concat_iff _ _ _ _).mpr ⟨s,h.run,ht⟩,?_⟩
    exact allowed_concat.mpr ⟨h.allowed,hmelon⟩
  have hdone := hinv.done_notMem hcall
  have hleave := hinv.leave_notMem hcall
  obtain ⟨request,stage⟩ := call
  cases stage with
  | echo e =>
    have hopen := hdone rfl
    have hfiber := hleave rfl
    cases e with
    | session =>
      obtain ⟨ret,hret⟩ := hreturns.session es s id h hopen
      cases ret with
      | none | some a => exact ⟨.session id _,_,rfl,fun _ => hret,rfl⟩
    | threadLocal l =>
      obtain ⟨ret,hret⟩ := hreturns.threadLocal es s id h hfiber
      cases ret with
      | none | some a => exact ⟨.threadLocal id _,_,rfl,fun _ => hret,rfl⟩
    | getspecific l =>
      obtain ⟨ret,hret⟩ := hreturns.getspecific es s id h hfiber
      cases ret with
      | none | some a => exact ⟨.getspecific id _,_,rfl,fun _ => hret,rfl⟩
    | setspecific l =>
      obtain ⟨ret,hret⟩ := hreturns.setspecific es s id s.made h hfiber
      exact ⟨.setspecific id s.made ret,_,rfl,fun _ => hret,if_pos rfl⟩
    | usleep l => exact ⟨.usleep id,_,rfl,fun _ => hreturns.usleep es s id h hopen,rfl⟩
    | checkTls l =>
      obtain ⟨ret,hret⟩ := hreturns.threadLocal es s id h hfiber
      cases ret with
      | none | some a => exact ⟨.threadLocal id _,_,rfl,fun _ => hret,rfl⟩
    | checkTls2 l =>
      obtain ⟨ret,hret⟩ := hreturns.getspecific es s id h hfiber
      cases ret with
      | none | some a => exact ⟨.getspecific id _,_,rfl,fun _ => hret,rfl⟩
    | start l =>
      obtain ⟨ret,hret⟩ := hreturns.start es s id h hfiber
      exact ⟨.start id ret,_,rfl,fun _ => hret,rfl⟩
    | failed text => exact ⟨.done id,_,rfl,fun _ => hreturns.done es s id h hopen,rfl⟩
    | store sd v => exact ⟨.store id sd,_,rfl,nofun,if_pos rfl⟩
    | expect | setTls | setTls2 | checkY | checkY2 => exact ⟨.next id,_,rfl,nofun,rfl⟩
  | job left job r =>
    have hopen := hdone rfl
    cases r with
    | usleep => exact ⟨.usleep id,_,rfl,fun _ => hreturns.usleep es s id h hopen,rfl⟩
    | session =>
      obtain ⟨ret,hret⟩ := hreturns.session es s id h hopen
      cases ret with
      | none | some a => exact ⟨.session id _,_,rfl,fun _ => hret,rfl⟩
    | value | respond => exact ⟨.next id,_,rfl,nofun,rfl⟩
    | done => exact ⟨.done id,_,rfl,fun _ => hreturns.done es s id h hopen,rfl⟩
  | answered left answer =>
    cases left with
    | false => exact ⟨.leave id,_,rfl,nofun,rfl⟩
    | true => simp at hrank

/-- No call waits for another: it has a statement to make until it is answered and its fiber
has ended, and it has made at most twenty since it was received. -/
theorem waitFree_run (hdoc : Documented server melon) (hreturns : Returns server melon)
    (h : Heard server melon es s) {id : CallId} {call : Call} (hcall : s.call id = some call) :
    own id es ≤ 21 ∧ ((∃ answer, call.stage = .answered true answer) ∨
      ∃ l t, l.id = id ∧ Heard server melon (es ++ [l]) t) := by
  have hle := own_rank_run hdoc h id
  refine ⟨by omega,?_⟩
  rcases Nat.eq_zero_or_pos call.stage.rank with hzero | hpos
  · refine .inl ?_
    cases hstage : call.stage with
    | echo e =>
      rw [hstage] at hzero
      cases e <;> cases hzero
    | job left job r =>
      rw [hstage] at hzero
      cases r <;> simp at hzero
    | answered left answer =>
      cases left with
      | true => exact ⟨answer,rfl⟩
      | false => simp [hstage] at hzero
  · exact .inr (next_of_rank hdoc hreturns h hcall hpos)

/-- The answers that melon is documented to give never run out. -/
theorem contract_returns (server : Server) : Returns server (contract server) where
  session es s id h hdone := by
    cases hfactory : server.sessionLocalDataFactory with
    | false => exact ⟨none,hfactory⟩
    | true =>
      have hinv := inv_run contract_documented h
      obtain ⟨a,hfit⟩ := hinv.session.exists_fit (mt sessionData_ended_iff.mp hdone)
      exact ⟨some a,hfactory,hfit⟩
  threadLocal es s id h hleave := by
    cases hfactory : server.threadLocalDataFactory with
    | false => exact ⟨none,hfactory⟩
    | true =>
      have hinv := inv_run contract_documented h
      obtain ⟨a,hfit⟩ := hinv.threadLocal.exists_fit (mt threadData_ended_iff.mp hleave)
      exact ⟨some a,hfactory,hfit⟩
  getspecific es s id h hleave := by
    have hinv := inv_run contract_documented h
    by_cases hgiven : ∃ a, (id,a) ∈ fiberData.given es
    · obtain ⟨a,ha⟩ := hgiven
      exact ⟨some a,hinv.specific.fit_of_given ha (mt fiberData_ended_iff.mp hleave),_,ha,rfl⟩
    · refine ⟨none,?_⟩
      rintro x hx rfl
      exact hgiven ⟨x.2,hx⟩
  setspecific _ _ _ _ _ _ := ⟨0,rfl⟩
  start _ _ _ _ _ := ⟨0,rfl⟩
  usleep _ _ _ _ _ := trivial
  done _ _ _ _ _ := trivial

theorem waitFree_reused :
    ∃ call, afterReused.call 2 = some call ∧ own 2 reused ≤ 21 ∧
      ((∃ answer, call.stage = .answered true answer) ∨ ∃ l t, l.id = 2 ∧
        Heard twoControllers (contract twoControllers) (reused ++ [l]) t) := by
  have hsome : (afterReused.call 2).isSome := by decide
  have hcall := (Option.some_get hsome).symm
  exact ⟨_,hcall,waitFree_run contract_documented (contract_returns _) heard_reused hcall⟩

def storedAt (sd : Address) : Label → Option CallId
  | .store id i => if i = sd then some id else none
  | _ => none

def storers (sd : Address) (es : List Label) : List CallId := es.filterMap (storedAt sd)

def added (server : Server) (sd : Address) (es : List Label) : Nat :=
  (storers sd es).foldl (fun n id => n + (server.cntl id).toNat) 0

theorem added_concat_none (sd : Address) (es : List Label) {l : Label}
    (hl : storedAt sd l = none) : added server sd (es ++ [l]) = added server sd es := by
  simp [added, storers, hl]

theorem added_concat_some (sd : Address) (es : List Label) {l : Label} {id : CallId}
    (hl : storedAt sd l = some id) :
    added server sd (es ++ [l]) = added server sd es + (server.cntl id).toNat := by
  simp [added, storers, hl]

section Heard
variable (hdoc : Documented server melon) (h : Heard server melon es s)
include hdoc h

theorem added_run : ∀ sd,
    (s.session sd).x.toInt = (123 + added server sd es : Int).bmod (2^32) := by
  refine heard_invariant hdoc h (P := fun es s => ∀ sd, (s.session sd).x.toInt =
    (123 + added server sd es : Int).bmod (2^32)) ?_ ?_ ?_
  · intro sd
    have hnone : added server sd [] = 0 := rfl
    have hmade : State.init.session sd = {} := rfl
    rw [hnone, hmade]
    decide
  · intro es m id request _ hP _ sd
    rw [added_concat_none sd es rfl]
    exact hP sd
  · intro es m l call stage hinv hP hcall hf sd
    have hholds := hinv.calls l.id call hcall
    generalize call.stage = now, some stage = o at hf hholds ⊢
    cases hf with
    | @store id sd' v =>
      obtain rfl := hholds.knows.2
      by_cases hsd : sd = sd'
      · subst hsd
        have hself : storedAt sd (.store id sd) = some id := if_pos rfl
        rw [added_concat_some sd es hself]
        simp only [State.setCall, State.written, Function.update_self, Label.id]
        rw [expectedValue_toInt, hP sd, Int.bmod_add_bmod]
        push_cast
        rw [Int.add_assoc]
      · have hother : storedAt sd (.store id sd') = none := if_neg (Ne.symm hsd)
        rw [added_concat_none sd es hother]
        simp only [State.setCall, State.written, Function.update_of_ne hsd]
        exact hP sd
    | _ =>
      rw [added_concat_none sd es rfl]
      exact hP sd

theorem known_run {l : Label} (hl : l ∈ es) : ∃ call, s.call l.id = some call := by
  have hle := own_rank_run hdoc h l.id
  cases hcall : s.call l.id with
  | some call => exact ⟨call,rfl⟩
  | none =>
    have hpos : 0 < own l.id es := List.countP_pos_iff.mpr ⟨l,hl,by simp⟩
    rw [hcall, Option.elim_none] at hle
    omega

end Heard

/-- No update of the session data is lost, each call is answered once, and when all have
ended so have the loans. -/
structure NothingLost (server : Server) (es : List Label) (s : State) : Prop where
  value : ∀ sd, (s.session sd).x.toInt = (123 + added server sd es : Int).bmod (2^32)
  once : ∀ id, es.count (.done id) = (s.call id).elim 0 fun call => answers call.stage
  returned : (∀ id call, s.call id = some call → ∃ answer, call.stage = .answered true answer) →
    (∀ x ∈ sessionData.given es, x.1 ∈ sessionData.ended es) ∧
    (∀ x ∈ threadData.given es, x.1 ∈ threadData.ended es) ∧
    ∀ x ∈ fiberData.given es, x.1 ∈ fiberData.ended es

theorem nothingLost_run (hdoc : Documented server melon) (h : Heard server melon es s) :
    NothingLost server es s := by
  have hinv := inv_run hdoc h
  refine ⟨added_run hdoc h,hinv.done,fun hended => ?_⟩
  have hboth : ∀ l ∈ es, .done l.id ∈ es ∧ .leave l.id ∈ es := by
    intro l hl
    obtain ⟨call,hcall⟩ := known_run hdoc h hl
    obtain ⟨answer,hstage⟩ := hended l.id call hcall
    have hdone := hinv.done l.id
    have hleave := hinv.leave l.id
    rw [hcall, Option.elim_some, hstage] at hdone hleave
    exact ⟨List.count_pos_iff.mp (by simp [hdone]),List.count_pos_iff.mp (by simp [hleave])⟩
  have hlabel : ∀ {gives ends} {x : CallId × Address}, x ∈ (loan gives ends).given es →
      ∃ l ∈ es, l.id = x.1 := by
    intro gives ends x hx
    obtain ⟨l,hl,hgives⟩ := List.mem_filterMap.mp hx
    exact ⟨l,hl,(loan_gives_iff.mp hgives).2⟩
  refine ⟨fun x hx => ?_,fun x hx => ?_,fun x hx => ?_⟩
  · obtain ⟨l,hl,hid⟩ := hlabel hx
    exact sessionData_ended_iff.mpr (hid ▸ (hboth l hl).1)
  · obtain ⟨l,hl,hid⟩ := hlabel hx
    exact threadData_ended_iff.mpr (hid ▸ (hboth l hl).2)
  · obtain ⟨l,hl,hid⟩ := hlabel hx
    exact fiberData_ended_iff.mpr (hid ▸ (hboth l hl).2)

theorem nothingLost_reused : NothingLost twoControllers reused afterReused :=
  nothingLost_run contract_documented heard_reused

end EaHalfHour.SessionRuns
