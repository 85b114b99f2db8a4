import EaHalfHour.SessionServer

/-! In no interleaving does a CHECK of the session example fail: what a call stored in the
data that melon gave it is there when it looks again. -/
namespace EaHalfHour.SessionChecks
open KvMessage LabelledRun Loans Lending SessionServer
variable {server : Server} {s s' : State} {l : Label} {es : List Label}

/-- The session data a call has at hand, and what it stored there. -/
def sessionCell : Stage → Option (Address × Option MySessionLocalData)
  | .echo (.expect sd) | .echo (.store sd _) => some (sd,none)
  | .echo (.threadLocal l) | .echo (.setTls l) | .echo (.getspecific l) | .echo (.setspecific l)
  | .echo (.setTls2 l) | .echo (.usleep l) | .echo (.checkTls l) | .echo (.checkY l)
  | .echo (.checkTls2 l) | .echo (.checkY2 l) | .echo (.start l) =>
    some (l.sd,some ⟨l.expectedValue⟩)
  | .job _ job _ => some (job.expectedSessionLocalData,some ⟨job.expectedSessionValue⟩)
  | .echo .session | .echo (.failed _) | .answered _ _ => none

def threadCell : Stage → Option (Address × Option MyThreadLocalData)
  | .echo (.setTls l) => some (l.tls,none)
  | .echo (.getspecific l) | .echo (.setspecific l) | .echo (.setTls2 l) | .echo (.usleep l)
  | .echo (.checkTls l) | .echo (.checkY l) | .echo (.checkTls2 l) | .echo (.checkY2 l)
  | .echo (.start l) => some (l.tls,some ⟨l.expectedValue⟩)
  | _ => none

def fiberCell : Stage → Option (Address × Option MyThreadLocalData)
  | .echo (.setTls2 l) => some (l.tls2,none)
  | .echo (.usleep l) | .echo (.checkTls l) | .echo (.checkY l) | .echo (.checkTls2 l)
  | .echo (.checkY2 l) | .echo (.start l) => some (l.tls2,some ⟨l.expectedValue+1⟩)
  | _ => none

def Knows (server : Server) (es : List Label) (s : State) (id : CallId) (request : EchoRequest) :
    Stage → Prop
  | .echo .session => True
  | .echo (.failed text) => server.reply request = .failed text
  | .echo (.expect _) | .echo (.threadLocal _) => server.sessionLocalDataFactory = true
  | .echo (.store sd v) => server.sessionLocalDataFactory = true ∧
      v = expectedValue (s.session sd).x (server.cntl id)
  | .echo (.setspecific _) => server.reply request = server.echo request ∧
      ∀ a, (id,a) ∉ fiberData.given es
  | .echo _ => server.reply request = server.echo request
  | .job _ job (.value sd) => server.reply request = server.echo request ∧
      sd = job.expectedSessionLocalData
  | .job _ _ _ => server.reply request = server.echo request
  | .answered _ answer => answer = server.reply request

structure Holds (server : Server) (es : List Label) (s : State) (id : CallId)
    (request : EchoRequest) (stage : Stage) : Prop where
  session : sessionData.Keeps s.session es id (sessionCell stage)
  threadLocal : threadData.Keeps s.threadLocal es id (threadCell stage)
  specific : fiberData.Keeps s.specific es id (fiberCell stage)
  knows : Knows server es s id request stage

/-- No CHECK has failed, no two calls have one object, and each finds what it left. -/
structure Inv (server : Server) (es : List Label) (s : State) : Prop where
  running : s.aborted = false
  session : sessionData.Apart es
  threadLocal : threadData.Apart es
  specific : fiberData.Apart es
  made : ∀ x ∈ fiberData.given es, x.2 < s.made
  calls : ∀ id call, s.call id = some call → Holds server es s id call.request call.stage
  done : ∀ id, es.count (.done id) = (s.call id).elim 0 fun call => answers call.stage
  leave : ∀ id, es.count (.leave id) = (s.call id).elim 0 fun call => leaves call.stage

theorem Inv.init : Inv server [] .init where
  running := rfl
  session := .nil
  threadLocal := .nil
  specific := .nil
  made x hx := by cases hx
  calls id call h := by cases h
  done id := rfl
  leave id := rfl

theorem sessionData_ended_iff {id : CallId} : id ∈ sessionData.ended es ↔ .done id ∈ es :=
  loan_ended_iff fun _ => rfl

theorem threadData_ended_iff {id : CallId} : id ∈ threadData.ended es ↔ .leave id ∈ es :=
  loan_ended_iff fun _ => rfl

theorem fiberData_ended_iff {id : CallId} : id ∈ fiberData.ended es ↔ .leave id ∈ es :=
  loan_ended_iff fun _ => rfl

theorem sessionCell_open {stage : Stage} {c : Address × Option MySessionLocalData}
    (h : sessionCell stage = some c) : answers stage = 0 := by
  cases stage with
  | echo | job => rfl
  | answered => cases h

theorem threadCell_open {stage : Stage} {c : Address × Option MyThreadLocalData}
    (h : threadCell stage = some c) : leaves stage = 0 := by
  cases stage with
  | echo => rfl
  | job | answered => cases h

theorem fiberCell_open {stage : Stage} {c : Address × Option MyThreadLocalData}
    (h : fiberCell stage = some c) : leaves stage = 0 := by
  cases stage with
  | echo => rfl
  | job | answered => cases h

section Open
variable (h : Inv server es s) {id : CallId} {call : Call} (hcall : s.call id = some call)
include h hcall

theorem Inv.done_notMem (hstage : answers call.stage = 0) : .done id ∉ es := by
  rw [← List.count_eq_zero, h.done id, hcall]
  exact hstage

theorem Inv.leave_notMem (hstage : leaves call.stage = 0) : .leave id ∉ es := by
  rw [← List.count_eq_zero, h.leave id, hcall]
  exact hstage

theorem Inv.session_open {c : Address × Option MySessionLocalData}
    (hcell : sessionCell call.stage = some c) : id ∉ sessionData.ended es := by
  rw [sessionData_ended_iff]
  exact h.done_notMem hcall (sessionCell_open hcell)

theorem Inv.thread_open {c : Address × Option MyThreadLocalData}
    (hcell : threadCell call.stage = some c) : id ∉ threadData.ended es := by
  rw [threadData_ended_iff]
  exact h.leave_notMem hcall (threadCell_open hcell)

theorem Inv.fiber_open {c : Address × Option MyThreadLocalData}
    (hcell : fiberCell call.stage = some c) : id ∉ fiberData.ended es := by
  rw [fiberData_ended_iff]
  exact h.leave_notMem hcall (fiberCell_open hcell)

variable {j : CallId} {other : Call} (hj : s.call j = some other) (hne : j ≠ id)
include hj hne

theorem Inv.written_session : ∀ a b, sessionCell other.stage = some (a,b) →
    (s.written call.stage).session a = s.session a := by
  intro a b hcell
  have hopen := h.session_open hj hcell
  have hgiven := ((h.calls j other hj).session a b hcell).1
  have hkeeps := (h.calls id call hcall).session
  cases hstage : call.stage with
  | job | answered => rfl
  | echo e =>
    cases e with
    | store sd v =>
      rw [hstage] at hkeeps
      exact h.session.update_of_ne hne hkeeps (h.session_open hcall (by rw [hstage]; rfl)) hgiven
        hopen _
    | _ => rfl

theorem Inv.written_threadLocal : ∀ a b, threadCell other.stage = some (a,b) →
    (s.written call.stage).threadLocal a = s.threadLocal a := by
  intro a b hcell
  have hopen := h.thread_open hj hcell
  have hgiven := ((h.calls j other hj).threadLocal a b hcell).1
  have hkeeps := (h.calls id call hcall).threadLocal
  cases hstage : call.stage with
  | job | answered => rfl
  | echo e =>
    cases e with
    | setTls l =>
      rw [hstage] at hkeeps
      exact h.threadLocal.update_of_ne hne hkeeps (h.thread_open hcall (by rw [hstage]; rfl))
        hgiven hopen _
    | _ => rfl

theorem Inv.written_specific : ∀ a b, fiberCell other.stage = some (a,b) →
    (s.written call.stage).specific a = s.specific a := by
  intro a b hcell
  have hopen := h.fiber_open hj hcell
  have hgiven := ((h.calls j other hj).specific a b hcell).1
  have hkeeps := (h.calls id call hcall).specific
  cases hstage : call.stage with
  | job | answered => rfl
  | echo e =>
    cases e with
    | setTls2 l =>
      rw [hstage] at hkeeps
      exact h.specific.update_of_ne hne hkeeps (h.fiber_open hcall (by rw [hstage]; rfl)) hgiven
        hopen _
    | _ => rfl

end Open

theorem Holds.frame {t : State} {id : CallId} {request : EchoRequest} {stage : Stage}
    (h : Holds server es s id request stage) (hne : l.id ≠ id)
    (hsession : ∀ a b, sessionCell stage = some (a,b) → t.session a = s.session a)
    (hthread : ∀ a b, threadCell stage = some (a,b) → t.threadLocal a = s.threadLocal a)
    (hfiber : ∀ a b, fiberCell stage = some (a,b) → t.specific a = s.specific a) :
    Holds server (es ++ [l]) t id request stage where
  session := h.session.concat hsession
  threadLocal := h.threadLocal.concat hthread
  specific := h.specific.concat hfiber
  knows := by
    have hknows := h.knows
    cases stage with
    | echo e =>
      cases e with
      | store sd v => exact ⟨hknows.1,by rw [hsession sd none rfl]; exact hknows.2⟩
      | setspecific l =>
        refine ⟨hknows.1,fun a ha => ?_⟩
        rcases mem_given_concat.mp ha with ha | ha
        · exact hknows.2 a ha
        · exact hne (loan_gives_iff.mp ha).2
      | _ => exact hknows
    | job left job r =>
      cases r with
      | _ => exact hknows
    | answered => exact hknows

section Factories
variable {melon : List Label → Label → Prop} {id : CallId} {a : Address} {factory : Bool}
  {fit : Address → Prop}

theorem lent_some (h : if factory then ∃ b, some a = some b ∧ fit b else some a = none) :
    factory = true ∧ fit a := by
  cases factory with
  | false => cases h
  | true =>
    obtain ⟨b,hb,hfit⟩ := h
    obtain rfl := Option.some.inj hb
    exact ⟨rfl,hfit⟩

theorem lent_none {ret : Option Address} (hret : ret = none)
    (h : if factory then ∃ b, ret = some b ∧ fit b else ret = none) : factory = false := by
  subst hret
  cases factory with
  | false => rfl
  | true =>
    obtain ⟨b,hb,-⟩ := h
    cases hb

theorem session_fit (h : Documented server melon) (hl : melon es (.session id (some a))) :
    server.sessionLocalDataFactory = true ∧ sessionData.Fit es id a :=
  lent_some (h.session es id (some a) hl)

theorem session_none (h : Documented server melon) (hl : melon es (.session id none)) :
    server.sessionLocalDataFactory = false :=
  lent_none rfl (h.session es id none hl)

theorem threadLocal_fit (h : Documented server melon) (hl : melon es (.threadLocal id (some a))) :
    server.threadLocalDataFactory = true ∧ threadData.Fit es id a :=
  lent_some (h.threadLocal es id (some a) hl)

theorem threadLocal_none (h : Documented server melon) (hl : melon es (.threadLocal id none)) :
    server.threadLocalDataFactory = false :=
  lent_none rfl (h.threadLocal es id none hl)

end Factories

theorem factories_of_echo {request : EchoRequest} (h : server.reply request = server.echo request) :
    server.sessionLocalDataFactory = true ∧ server.threadLocalDataFactory = true := by
  unfold Server.reply Server.echo at h
  split at h
  · cases h
  · rename_i hsession
    split at h
    · cases h
    · rename_i hthread
      exact ⟨by simpa using hsession,by simpa using hthread⟩

theorem check_true {ok : Prop} [Decidable ok] (h : ok) (stage : Stage) :
    check ok stage = some stage := if_pos h

/-- The CHECK of a statement passes, and what its call relies on holds after it. -/
theorem Holds.follows {melon : List Label → Label → Prop} (hdoc : Documented server melon)
    (hmelon : l.fromMelon → melon es l) {request : EchoRequest} {stage : Stage} {o : Option Stage}
    (h : Holds server es s l.id request stage) (hf : Follows server s request l stage o) :
    ∃ stage', o = some stage' ∧
      Holds server (es ++ [l]) (s.written stage) l.id request stage' := by
  have hknows := h.knows
  cases hf with
  | session =>
    exact ⟨_,rfl,.lent rfl,.none,.none,(session_fit hdoc (hmelon rfl)).1⟩
  | noSession =>
    have hfactory := session_none hdoc (hmelon rfl)
    exact ⟨_,rfl,.none,.none,.none,by simp [Knows, Server.reply, hfactory]⟩
  | expect => exact ⟨_,rfl,h.session.later,.none,.none,hknows,rfl⟩
  | store => exact ⟨_,rfl,h.session.write _,.none,.none,hknows.1⟩
  | threadLocal =>
    have hfactory := (threadLocal_fit hdoc (hmelon rfl)).1
    have hsession : server.sessionLocalDataFactory = true := hknows
    exact ⟨_,rfl,h.session.later,.lent rfl,.none,by simp [Knows, Server.reply, hfactory, hsession]⟩
  | noThreadLocal =>
    have hfactory := threadLocal_none hdoc (hmelon rfl)
    have hsession : server.sessionLocalDataFactory = true := hknows
    exact ⟨_,rfl,.none,.none,.none,by simp [Knows, Server.reply, hfactory, hsession]⟩
  | setTls => exact ⟨_,rfl,h.session.later,h.threadLocal.write _,.none,hknows⟩
  | getspecific => exact ⟨_,rfl,h.session.later,h.threadLocal.later,.lent rfl,hknows⟩
  | @noSpecific id l =>
    have hunset := (hdoc.getspecific _ _ _ (hmelon rfl)).1
    refine ⟨_,rfl,h.session.later,h.threadLocal.later,.none,hknows,fun a ha => ?_⟩
    rcases mem_given_concat.mp ha with ha | ha
    · exact absurd (hunset a ha) nofun
    · cases (loan_gives_iff.mp ha).1
  | setspecific =>
    refine ⟨_,check_true (hdoc.setspecific _ _ _ _ (hmelon rfl)) _,?_⟩
    exact ⟨h.session.later,h.threadLocal.later,.lent rfl,hknows.1⟩
  | setTls2 =>
    exact ⟨_,rfl,h.session.later,h.threadLocal.later,h.specific.write _,hknows⟩
  | usleep => exact ⟨_,rfl,h.session.later,h.threadLocal.later,h.specific.later,hknows⟩
  | @checkTls id ret l =>
    have hgiven := h.threadLocal.given
    have hret : ret = some l.tls := by
      cases ret with
      | none =>
        have hfactory := threadLocal_none hdoc (hmelon rfl)
        rw [(factories_of_echo hknows).2] at hfactory
        cases hfactory
      | some a =>
        have hfit := (threadLocal_fit hdoc (hmelon rfl)).2
        exact congrArg some (hfit.steady _ hgiven rfl).symm
    exact ⟨_,check_true hret _,h.session.later,h.threadLocal.later,h.specific.later,hknows⟩
  | checkY =>
    have hy := congrArg MyThreadLocalData.y h.threadLocal.read
    exact ⟨_,check_true hy _,h.session.later,h.threadLocal.later,h.specific.later,hknows⟩
  | checkTls2 =>
    have hret := (hdoc.getspecific _ _ _ (hmelon rfl)).1 _ h.specific.given
    exact ⟨_,check_true hret _,h.session.later,h.threadLocal.later,h.specific.later,hknows⟩
  | checkY2 =>
    have hy := congrArg MyThreadLocalData.y h.specific.read
    exact ⟨_,check_true hy _,h.session.later,h.threadLocal.later,h.specific.later,hknows⟩
  | start =>
    have hret := hdoc.start _ _ _ (hmelon rfl)
    exact ⟨_,check_true hret _,h.session.later,.none,.none,hknows⟩
  | failed => exact ⟨_,rfl,.none,.none,.none,hknows.symm⟩
  | jobUsleep => exact ⟨_,rfl,h.session.later,.none,.none,hknows⟩
  | jobSession =>
    have hfit := (session_fit hdoc (hmelon rfl)).2
    have hsame := hfit.steady _ h.session.given rfl
    exact ⟨_,check_true hsame _,h.session.later,.none,.none,hknows,hsame.symm⟩
  | jobNoSession =>
    have hfactory := session_none hdoc (hmelon rfl)
    rw [(factories_of_echo hknows).1] at hfactory
    cases hfactory
  | value =>
    obtain ⟨hreply,rfl⟩ := hknows
    have hx := congrArg MySessionLocalData.x h.session.read
    exact ⟨_,check_true hx.symm _,h.session.later,.none,.none,hreply⟩
  | respond => exact ⟨_,rfl,h.session.later,.none,.none,hknows⟩
  | done => exact ⟨_,rfl,.none,.none,.none,hknows.symm⟩
  | @leaveJob id job r =>
    refine ⟨_,rfl,h.session.later,.none,.none,?_⟩
    cases r with
    | _ => exact hknows
  | leaveAnswered => exact ⟨_,rfl,.none,.none,.none,hknows⟩

theorem Inv.receive (h : Inv server es s) {id : CallId} {request : EchoRequest}
    (hnone : s.call id = none) :
    Inv server (es ++ [.receive id request]) (s.setCall id { request }) where
  running := h.running
  session := h.session.concat fun u a hgives => by cases (loan_gives_iff.mp hgives).1
  threadLocal := h.threadLocal.concat fun u a hgives => by cases (loan_gives_iff.mp hgives).1
  specific := h.specific.concat fun u a hgives => by cases (loan_gives_iff.mp hgives).1
  made x hx := by
    rcases mem_given_concat.mp hx with hx | hx
    · exact h.made x hx
    · cases (loan_gives_iff.mp hx).1
  calls j c hj := by
    by_cases hid : j = id
    · subst hid
      obtain rfl : ({ request } : Call) = c := by simpa [State.setCall] using hj
      exact ⟨.none,.none,.none,trivial⟩
    · have hold : s.call j = some c := by simpa [State.setCall, hid] using hj
      exact (h.calls j c hold).frame (fun heq => hid heq.symm) (fun _ _ _ => rfl)
        (fun _ _ _ => rfl) fun _ _ _ => rfl
  done j := by
    by_cases hid : j = id
    · subst hid
      simp [List.count_append, h.done j, hnone, State.setCall]
    · simp [List.count_append, h.done j, State.setCall, hid]
  leave j := by
    by_cases hid : j = id
    · subst hid
      simp [List.count_append, h.leave j, hnone, State.setCall]
    · simp [List.count_append, h.leave j, State.setCall, hid]

theorem count_concat (l l' : Label) :
    (es ++ [l]).count l' = es.count l' + if l = l' then 1 else 0 := by
  simp [List.count_append, List.count_singleton]

theorem made_le (stage : Stage) : s.made ≤ (s.written stage).made := by
  unfold State.written
  split
  · exact Nat.le_refl _
  · exact Nat.le_refl _
  · exact Nat.le_succ _
  · exact Nat.le_refl _
  · exact Nat.le_refl _

section Statement
variable {melon : List Label → Label → Prop} (h : Inv server es s)
  (hdoc : Documented server melon) (hmelon : l.fromMelon → melon es l) {call : Call}
  (hcall : s.call l.id = some call) {o : Option Stage}
  (hf : Follows server s call.request l call.stage o)
include h hdoc hmelon hcall hf

theorem Inv.specific_fit {u : CallId} {a : Address} (hgives : fiberData.gives l = some (u,a)) :
    fiberData.Fit es u a ∧ a < (s.written call.stage).made := by
  rcases fiberData_gives hgives with rfl | ⟨ret,rfl⟩
  · obtain ⟨hfit,x,hx,rfl⟩ := (hdoc.getspecific _ _ _ (hmelon rfl)).2 _ rfl
    exact ⟨hfit,Nat.lt_of_lt_of_le (h.made x hx) (made_le call.stage)⟩
  · have hholds := h.calls u call hcall
    generalize call.stage = stage at hf hholds ⊢
    cases hf with
    | setspecific =>
      refine ⟨⟨fun x hx hid => ?_,fun x hx hmade => ?_⟩,Nat.lt_succ_self _⟩
      · exact absurd (hid ▸ hx) (hholds.knows.2 x.2)
      · exact absurd hmade (Nat.ne_of_lt (h.made x hx))

theorem Inv.follows : ∃ stage, o = some stage ∧
    Inv server (es ++ [l]) ((s.written call.stage).setCall l.id { call with stage }) := by
  obtain ⟨stage,rfl,hholds⟩ := (h.calls l.id call hcall).follows hdoc hmelon hf
  refine ⟨stage,rfl,?_⟩
  exact {
    running := by simpa [State.setCall] using h.running
    session := h.session.concat fun u a hgives => by
      obtain rfl := sessionData_gives hgives
      exact (session_fit hdoc (hmelon rfl)).2
    threadLocal := h.threadLocal.concat fun u a hgives => by
      obtain rfl := threadData_gives hgives
      exact (threadLocal_fit hdoc (hmelon rfl)).2
    specific := h.specific.concat fun u a hgives =>
      (h.specific_fit hdoc hmelon hcall hf hgives).1
    made := fun x hx => by
      rcases mem_given_concat.mp hx with hx | hx
      · exact Nat.lt_of_lt_of_le (h.made x hx) (made_le call.stage)
      · exact (h.specific_fit hdoc hmelon hcall hf hx).2
    calls := fun j c hj => by
      by_cases hid : j = l.id
      · subst hid
        obtain rfl : { call with stage } = c := by simpa [State.setCall] using hj
        exact ⟨hholds.session,hholds.threadLocal,hholds.specific,hholds.knows⟩
      · have hold : s.call j = some c := by simpa [State.setCall, hid] using hj
        exact (h.calls j c hold).frame (fun heq => hid heq.symm)
          (h.written_session hcall hold hid) (h.written_threadLocal hcall hold hid)
          (h.written_specific hcall hold hid)
    done := fun j => by
      rw [count_concat, h.done j]
      by_cases hid : j = l.id
      · subst hid
        simpa [hcall, State.setCall] using hf.moves.answers.symm
      · rw [if_neg fun heq => hid (by rw [heq]; rfl)]
        simp [State.setCall, hid]
    leave := fun j => by
      rw [count_concat, h.leave j]
      by_cases hid : j = l.id
      · subst hid
        simpa [hcall, State.setCall] using hf.moves.leaves.symm
      · rw [if_neg fun heq => hid (by rw [heq]; rfl)]
        simp [State.setCall, hid] }

end Statement

section Runs
variable {melon : List Label → Label → Prop} (hdoc : Documented server melon)
  (h : Heard server melon es s)
include hdoc h

theorem inv_run : Inv server es s := by
  refine allowed_invariant (P := Inv server) .init ?_ h.run h.allowed
  intro es m l n _ _ hinv hmelon hstep
  cases (step_sound hstep).2 with
  | receive hnone => exact hinv.receive hnone
  | fails hcall hf =>
    obtain ⟨stage,hstage,-⟩ := hinv.follows hdoc hmelon hcall hf
    cases hstage
  | follows hcall hf =>
    obtain ⟨stage,hstage,hnext⟩ := hinv.follows hdoc hmelon hcall hf
    obtain rfl := Option.some.inj hstage
    exact hnext

theorem heard_invariant {P : List Label → State → Prop} (h0 : P [] .init)
    (hreceive : ∀ es m id request, Inv server es m → P es m → m.call id = none →
      P (es ++ [.receive id request]) (m.setCall id { request }))
    (hfollows : ∀ es m l call stage, Inv server es m → P es m → m.call l.id = some call →
      Follows server m call.request l call.stage (some stage) →
      P (es ++ [l]) ((m.written call.stage).setCall l.id { call with stage })) : P es s := by
  refine allowed_invariant ?_ ?_ h.run h.allowed
  · exact h0
  · intro es m l n hm hes hP hmelon hstep
    have hinv := inv_run hdoc ⟨hm,hes⟩
    cases (step_sound hstep).2 with
    | receive hnone => exact hreceive es m _ _ hinv hP hnone
    | fails hcall hf =>
      obtain ⟨stage,hstage,-⟩ := hinv.follows hdoc hmelon hcall hf
      cases hstage
    | follows hcall hf => exact hfollows es m l _ _ hinv hP hcall hf

theorem received_run : ∀ id call, s.call id = some call → .receive id call.request ∈ es := by
  refine heard_invariant hdoc h (P := fun es s => ∀ id call, s.call id = some call →
    .receive id call.request ∈ es) (fun _ _ hcall => by cases hcall) ?_ ?_
  · intro es m id request _ hP _ j call hcall
    by_cases hid : j = id
    · subst hid
      obtain rfl : ({ request } : Call) = call := by simpa [State.setCall] using hcall
      simp
    · exact List.mem_append_left _ (hP j call (by simpa [State.setCall, hid] using hcall))
  · intro es m l old stage _ hP hold _ j call hcall
    refine List.mem_append_left _ ?_
    by_cases hid : j = l.id
    · subst hid
      obtain rfl : { old with stage } = call := by simpa [State.setCall] using hcall
      exact hP l.id old hold
    · exact hP j call (by simpa [State.setCall, hid] using hcall)

end Runs

structure KeepsApart (server : Server) (es : List Label) (s : State) : Prop where
  noCheckFails : s.aborted = false
  kept : ∀ id call sd x, s.call id = some call → sessionCell call.stage = some (sd,some x) →
    s.session sd = x
  alone : ∀ i j a b sd x y, s.call i = some a → s.call j = some b →
    sessionCell a.stage = some (sd,x) → sessionCell b.stage = some (sd,y) → i = j
  answered : ∀ id call left answer, s.call id = some call →
    call.stage = .answered left answer →
    .receive id call.request ∈ es ∧ answer = server.reply call.request

theorem keepsApart_run {melon : List Label → Label → Prop} (hdoc : Documented server melon)
    (h : Heard server melon es s) : KeepsApart server es s := by
  have hinv := inv_run hdoc h
  refine ⟨hinv.running,?_,?_,?_⟩
  · intro id call sd x hcall hcell
    have hkeeps := (hinv.calls id call hcall).session
    rw [hcell] at hkeeps
    exact hkeeps.read
  · intro i j a b sd x y hi hj ha hb
    have hgi := ((hinv.calls i a hi).session sd x ha).1
    have hgj := ((hinv.calls j b hj).session sd y hb).1
    exact hinv.session.once _ hgi _ hgj rfl (hinv.session_open hi ha) (hinv.session_open hj hb)
  · intro id call left answer hcall hstage
    have hknows := (hinv.calls id call hcall).knows
    rw [hstage] at hknows
    exact ⟨received_run hdoc h id call hcall,hknows⟩

def twoControllers : Server := { cntl := fun id => if id = 0 then 0x7fffffff0010 else 7 }

def enters (id : CallId) (sd tls : Address) (key : List Label) : List Label :=
  [.receive id ⟨text "hi",text "foo"⟩,.session id (some sd),.next id,.store id sd,
    .threadLocal id (some tls),.next id] ++ key ++ [.next id]

def exits (id : CallId) (sd tls tls2 : Address) : List Label :=
  [.usleep id,.threadLocal id (some tls),.next id,.getspecific id (some tls2),.next id,
    .start id 0,.usleep id,.leave id,.session id (some sd),.next id,.next id,.done id]

/-- Two calls in Echo at once, and a third with the data of the first. -/
def reused : List Label :=
  enters 0 0 0 [.getspecific 0 none,.setspecific 0 0 0] ++
    enters 1 1 1 [.getspecific 1 none,.setspecific 1 1 0] ++ exits 0 0 0 0 ++
    enters 2 0 0 [.getspecific 2 (some 0)] ++ exits 1 1 1 1

def afterReused : State := (runFrom (step twoControllers) .init reused).get (by decide)

theorem heard_reused :
    Heard twoControllers (contract twoControllers) reused afterReused :=
  ⟨(Option.some_get _).symm,by decide⟩

theorem keepsApart_reused : KeepsApart twoControllers reused afterReused :=
  keepsApart_run contract_documented heard_reused

end EaHalfHour.SessionChecks
