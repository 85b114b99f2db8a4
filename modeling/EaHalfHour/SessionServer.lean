import Mathlib.Algebra.Group.Int.Defs
import Mathlib.Algebra.Group.Nat.Defs
import EaHalfHour.KvMessage
import EaHalfHour.LabelledRun
import EaHalfHour.Loans

/-! The server of the session example: Echo in the fiber of its call and AsyncJob::run
after it, statement by statement. What the calls of melon return stands in the labels;
what the server may rely on in it is `Documented`. -/
namespace EaHalfHour.SessionServer
open LabelledRun Loans KvMessage

abbrev CallId := Nat

/-- Objects go by numbers: one that is made where another was deleted is not the same. -/
abbrev Address := Nat

structure MySessionLocalData where
  x : Int32 := 123
deriving DecidableEq

structure MyThreadLocalData where
  y : Int32 := 0
deriving DecidableEq

structure EchoRequest where
  message : Bytes
  attachment : Bytes
deriving DecidableEq

inductive Answer where
  | failed (text : Bytes)
  | echoed (message attachment : Bytes)
deriving DecidableEq

structure Server where
  sessionLocalDataFactory : Bool := true
  threadLocalDataFactory : Bool := true
  echoAttachment : Bool := true
  cntl : CallId → UInt64

structure Locals where
  sd : Address
  expectedValue : Int32
  tls : Address := 0
  tls2 : Address := 0
deriving DecidableEq

inductive Echo where
  | session
  | expect (sd : Address)
  | store (sd : Address) (expectedValue : Int32)
  | threadLocal (l : Locals)
  | setTls (l : Locals)
  | getspecific (l : Locals)
  | setspecific (l : Locals)
  | setTls2 (l : Locals)
  | usleep (l : Locals)
  | checkTls (l : Locals)
  | checkY (l : Locals)
  | checkTls2 (l : Locals)
  | checkY2 (l : Locals)
  | start (l : Locals)
  | failed (text : Bytes)
deriving DecidableEq

structure AsyncJob where
  expectedSessionLocalData : Address
  expectedSessionValue : Int32
deriving DecidableEq

inductive Run where
  | usleep
  | session
  | value (sd : Address)
  | respond
  | done
deriving DecidableEq

/-- A call is in Echo, then with its job, and then answered; `left` once Echo's fiber ended. -/
inductive Stage where
  | echo (e : Echo)
  | job (left : Bool) (job : AsyncJob) (r : Run)
  | answered (left : Bool) (answer : Answer)
deriving DecidableEq

structure Call where
  request : EchoRequest
  stage : Stage := .echo .session
deriving DecidableEq

/-- The objects at each address, as their constructors make them until they are written:
those of the two factories, and those that Echo makes, of which there are `made`.
`aborted` once a CHECK has failed. -/
structure State where
  session : Address → MySessionLocalData
  threadLocal : Address → MyThreadLocalData
  specific : Address → MyThreadLocalData
  made : Nat
  call : CallId → Option Call
  aborted : Bool

/-- The labels up to `done` are calls of melon, with what they return; the others are
statements of the server's own, and the end of Echo's fiber. -/
inductive Label where
  | receive (id : CallId) (request : EchoRequest)
  | session (id : CallId) (ret : Option Address)
  | threadLocal (id : CallId) (ret : Option Address)
  | getspecific (id : CallId) (ret : Option Address)
  | setspecific (id : CallId) (data : Address) (ret : Int32)
  | start (id : CallId) (ret : Int32)
  | usleep (id : CallId)
  | done (id : CallId)
  | store (id : CallId) (sd : Address)
  | next (id : CallId)
  | leave (id : CallId)
deriving DecidableEq

def Label.id : Label → CallId
  | .receive id _ | .session id _ | .threadLocal id _ | .getspecific id _ | .setspecific id _ _
  | .start id _ | .usleep id | .done id | .store id _ | .next id | .leave id => id

def sessionError : Bytes :=
  text "Require ServerOptions.session_local_data_factory to be set with a correctly implemented instance"

def threadLocalError : Bytes :=
  text "Require ServerOptions.thread_local_data_factory to be set with a correctly implemented instance"

/-- `sd->x + (((uintptr_t) cntl) & 0xFFFFFFFF)`, taken as an int. -/
def expectedValue (x : Int32) (cntl : UInt64) : Int32 :=
  (x.toInt64.toUInt64 + (cntl &&& 0xFFFFFFFF)).toInt64.toInt32

def Server.echo (server : Server) (request : EchoRequest) : Answer :=
  .echoed request.message (if server.echoAttachment then request.attachment else [])

def Server.reply (server : Server) (request : EchoRequest) : Answer :=
  if server.sessionLocalDataFactory = false then .failed sessionError
  else if server.threadLocalDataFactory = false then .failed threadLocalError
  else server.echo request

namespace State

def init : State := ⟨fun _ => {},fun _ => {},fun _ => {},0,fun _ => none,false⟩

def setCall (s : State) (id : CallId) (call : Call) : State :=
  { s with call := Function.update s.call id (some call) }

def written (s : State) : Stage → State
  | .echo (.store sd v) => { s with session := Function.update s.session sd ⟨v⟩ }
  | .echo (.setTls l) =>
    { s with threadLocal := Function.update s.threadLocal l.tls ⟨l.expectedValue⟩ }
  | .echo (.setspecific _) => { s with made := s.made+1 }
  | .echo (.setTls2 l) =>
    { s with specific := Function.update s.specific l.tls2 ⟨l.expectedValue+1⟩ }
  | _ => s

@[simp] theorem written_call (s : State) (stage : Stage) : (s.written stage).call = s.call := by
  unfold written
  split <;> rfl

@[simp] theorem written_aborted (s : State) (stage : Stage) :
    (s.written stage).aborted = s.aborted := by
  unfold written
  split <;> rfl

end State

/-- None where the CHECK of a statement fails, else the statement after it. -/
def check (ok : Prop) [Decidable ok] (stage : Stage) : Option Stage := if ok then some stage else none

/-- The statement after this one, with what melon returned to it; the inner none where a
CHECK fails. -/
def following (server : Server) (s : State) (request : EchoRequest) :
    Label → Stage → Option (Option Stage)
  | .session _ (some sd), .echo .session => some (some (.echo (.expect sd)))
  | .session _ none, .echo .session => some (some (.echo (.failed sessionError)))
  | .next id, .echo (.expect sd) =>
    some (some (.echo (.store sd (expectedValue (s.session sd).x (server.cntl id)))))
  | .store _ sd', .echo (.store sd v) =>
    if sd' = sd then some (some (.echo (.threadLocal ⟨sd,v,0,0⟩))) else none
  | .threadLocal _ (some tls), .echo (.threadLocal l) => some (some (.echo (.setTls { l with tls })))
  | .threadLocal _ none, .echo (.threadLocal _) => some (some (.echo (.failed threadLocalError)))
  | .next _, .echo (.setTls l) => some (some (.echo (.getspecific l)))
  | .getspecific _ (some tls2), .echo (.getspecific l) => some (some (.echo (.setTls2 { l with tls2 })))
  | .getspecific _ none, .echo (.getspecific l) => some (some (.echo (.setspecific l)))
  | .setspecific _ data ret, .echo (.setspecific l) =>
    -- `new MyThreadLocalData`, and the CHECK of what fiber_setspecific returns for it
    if data = s.made then some (check (ret = 0) (.echo (.setTls2 { l with tls2 := data }))) else none
  | .next _, .echo (.setTls2 l) => some (some (.echo (.usleep l)))
  | .usleep _, .echo (.usleep l) => some (some (.echo (.checkTls l)))
  | .threadLocal _ ret, .echo (.checkTls l) => some (check (ret = some l.tls) (.echo (.checkY l)))
  | .next _, .echo (.checkY l) =>
    some (check ((s.threadLocal l.tls).y = l.expectedValue) (.echo (.checkTls2 l)))
  | .getspecific _ ret, .echo (.checkTls2 l) =>
    some (check (ret = some l.tls2) (.echo (.checkY2 l)))
  | .next _, .echo (.checkY2 l) =>
    some (check ((s.specific l.tls2).y = l.expectedValue+1) (.echo (.start l)))
  | .start _ ret, .echo (.start l) =>
    some (check (ret = 0) (.job false ⟨l.sd,l.expectedValue⟩ .usleep))
  | .done _, .echo (.failed text) => some (some (.answered false (.failed text)))
  | .usleep _, .job left job .usleep => some (some (.job left job .session))
  | .session _ (some sd), .job left job .session =>
    some (check (job.expectedSessionLocalData = sd) (.job left job (.value sd)))
  | .session _ none, .job _ _ .session => some none
  | .next _, .job left job (.value sd) =>
    some (check (job.expectedSessionValue = (s.session sd).x) (.job left job .respond))
  | .next _, .job left job .respond => some (some (.job left job .done))
  | .done _, .job left _ .done => some (some (.answered left (server.echo request)))
  | .leave _, .job false job r => some (some (.job true job r))
  | .leave _, .answered false answer => some (some (.answered true answer))
  | _, _ => none

variable (server : Server)

def step (s : State) (l : Label) : Option State :=
  if s.aborted then none
  else match l with
  | .receive id request => if s.call id = none then some (s.setCall id { request }) else none
  | l => do
    let call ← s.call l.id
    match ← following server s call.request l call.stage with
    | some stage => some ((s.written call.stage).setCall l.id { call with stage })
    | none => some { s with aborted := true }

/-- What some labels give to their call, until the label that ends the loan. -/
def loan (gives : Label → Option Address) (ends : CallId → Label) :
    Lending Label CallId Address where
  gives l := (gives l).map (l.id,·)
  ends l := if l = ends l.id then some l.id else none

def sessionData : Lending Label CallId Address :=
  loan (fun | .session _ ret => ret | _ => none) .done

def threadData : Lending Label CallId Address :=
  loan (fun | .threadLocal _ ret => ret | _ => none) .leave

def fiberData : Lending Label CallId Address :=
  loan (fun | .getspecific _ ret => ret | .setspecific _ data _ => some data | _ => none) .leave

def Label.fromMelon : Label → Bool
  | .session _ _ | .threadLocal _ _ | .getspecific _ _ | .setspecific _ _ _ | .start _ _
  | .usleep _ | .done _ => true
  | .receive _ _ | .store _ _ | .next _ | .leave _ => false

/-- What the server relies on in melon, where `melon es l` says that l may come after es. -/
structure Documented (melon : List Label → Label → Prop) : Prop where
  session : ∀ es id ret, melon es (.session id ret) →
    if server.sessionLocalDataFactory then ∃ a, ret = some a ∧ sessionData.Fit es id a
    else ret = none
  threadLocal : ∀ es id ret, melon es (.threadLocal id ret) →
    if server.threadLocalDataFactory then ∃ a, ret = some a ∧ threadData.Fit es id a
    else ret = none
  -- what the fiber was given or has set; else nothing, or what an ended fiber left behind
  getspecific : ∀ es id ret, melon es (.getspecific id ret) →
    (∀ a, (id,a) ∈ fiberData.given es → ret = some a) ∧
      ∀ a, ret = some a → fiberData.Fit es id a ∧ ∃ x ∈ fiberData.given es, x.2 = a
  setspecific : ∀ es id data ret, melon es (.setspecific id data ret) → ret = 0
  start : ∀ es id ret, melon es (.start id ret) → ret = 0

structure Heard (melon : List Label → Label → Prop) (es : List Label) (s : State) : Prop where
  run : runFrom (step server) .init es = some s
  allowed : Allowed (fun past l => l.fromMelon → melon past l) [] es

/-- The calls of melon return, to a call that is not answered and to a fiber that has not ended. -/
structure Returns (melon : List Label → Label → Prop) : Prop where
  session : ∀ es s id, Heard server melon es s → .done id ∉ es → ∃ ret, melon es (.session id ret)
  threadLocal : ∀ es s id, Heard server melon es s → .leave id ∉ es →
    ∃ ret, melon es (.threadLocal id ret)
  getspecific : ∀ es s id, Heard server melon es s → .leave id ∉ es →
    ∃ ret, melon es (.getspecific id ret)
  setspecific : ∀ es s id data, Heard server melon es s → .leave id ∉ es →
    ∃ ret, melon es (.setspecific id data ret)
  start : ∀ es s id, Heard server melon es s → .leave id ∉ es → ∃ ret, melon es (.start id ret)
  usleep : ∀ es s id, Heard server melon es s → .done id ∉ es → melon es (.usleep id)
  done : ∀ es s id, Heard server melon es s → .done id ∉ es → melon es (.done id)

/-- A melon that gives every answer it is documented to give. -/
def contract (es : List Label) : Label → Prop
  | .session id (some a) => server.sessionLocalDataFactory = true ∧ sessionData.Fit es id a
  | .session _ none => server.sessionLocalDataFactory = false
  | .threadLocal id (some a) => server.threadLocalDataFactory = true ∧ threadData.Fit es id a
  | .threadLocal _ none => server.threadLocalDataFactory = false
  | .getspecific id (some a) => fiberData.Fit es id a ∧ ∃ x ∈ fiberData.given es, x.2 = a
  | .getspecific id none => ∀ x ∈ fiberData.given es, x.1 ≠ id
  | .setspecific _ _ ret => ret = 0
  | .start _ ret => ret = 0
  | _ => True

instance (es : List Label) : (l : Label) → Decidable (contract server es l)
  | .session _ (some _) | .threadLocal _ (some _) | .getspecific _ (some _) =>
    inferInstanceAs (Decidable (_ ∧ _))
  | .session _ none | .threadLocal _ none => inferInstanceAs (Decidable (_ = _))
  | .getspecific id none => inferInstanceAs (Decidable (∀ x ∈ fiberData.given es, x.1 ≠ id))
  | .setspecific _ _ ret | .start _ ret => inferInstanceAs (Decidable (ret = 0))
  | .receive _ _ | .usleep _ | .done _ | .store _ _ | .next _ | .leave _ =>
    inferInstanceAs (Decidable True)

inductive Follows (s : State) (request : EchoRequest) : Label → Stage → Option Stage → Prop where
  | session {id : CallId} {sd : Address} :
      Follows s request (.session id (some sd)) (.echo .session) (some (.echo (.expect sd)))
  | noSession {id : CallId} :
      Follows s request (.session id none) (.echo .session) (some (.echo (.failed sessionError)))
  | expect {id : CallId} {sd : Address} :
      Follows s request (.next id) (.echo (.expect sd))
        (some (.echo (.store sd (expectedValue (s.session sd).x (server.cntl id)))))
  | store {id : CallId} {sd : Address} {v : Int32} :
      Follows s request (.store id sd) (.echo (.store sd v))
        (some (.echo (.threadLocal ⟨sd,v,0,0⟩)))
  | threadLocal {id : CallId} {tls : Address} {l : Locals} :
      Follows s request (.threadLocal id (some tls)) (.echo (.threadLocal l))
        (some (.echo (.setTls { l with tls })))
  | noThreadLocal {id : CallId} {l : Locals} :
      Follows s request (.threadLocal id none) (.echo (.threadLocal l))
        (some (.echo (.failed threadLocalError)))
  | setTls {id : CallId} {l : Locals} :
      Follows s request (.next id) (.echo (.setTls l)) (some (.echo (.getspecific l)))
  | getspecific {id : CallId} {tls2 : Address} {l : Locals} :
      Follows s request (.getspecific id (some tls2)) (.echo (.getspecific l))
        (some (.echo (.setTls2 { l with tls2 })))
  | noSpecific {id : CallId} {l : Locals} :
      Follows s request (.getspecific id none) (.echo (.getspecific l))
        (some (.echo (.setspecific l)))
  | setspecific {id : CallId} {ret : Int32} {l : Locals} :
      Follows s request (.setspecific id s.made ret) (.echo (.setspecific l))
        (check (ret = 0) (.echo (.setTls2 { l with tls2 := s.made })))
  | setTls2 {id : CallId} {l : Locals} :
      Follows s request (.next id) (.echo (.setTls2 l)) (some (.echo (.usleep l)))
  | usleep {id : CallId} {l : Locals} :
      Follows s request (.usleep id) (.echo (.usleep l)) (some (.echo (.checkTls l)))
  | checkTls {id : CallId} {ret : Option Address} {l : Locals} :
      Follows s request (.threadLocal id ret) (.echo (.checkTls l))
        (check (ret = some l.tls) (.echo (.checkY l)))
  | checkY {id : CallId} {l : Locals} :
      Follows s request (.next id) (.echo (.checkY l))
        (check ((s.threadLocal l.tls).y = l.expectedValue) (.echo (.checkTls2 l)))
  | checkTls2 {id : CallId} {ret : Option Address} {l : Locals} :
      Follows s request (.getspecific id ret) (.echo (.checkTls2 l))
        (check (ret = some l.tls2) (.echo (.checkY2 l)))
  | checkY2 {id : CallId} {l : Locals} :
      Follows s request (.next id) (.echo (.checkY2 l))
        (check ((s.specific l.tls2).y = l.expectedValue+1) (.echo (.start l)))
  | start {id : CallId} {ret : Int32} {l : Locals} :
      Follows s request (.start id ret) (.echo (.start l))
        (check (ret = 0) (.job false ⟨l.sd,l.expectedValue⟩ .usleep))
  | failed {id : CallId} {text : Bytes} :
      Follows s request (.done id) (.echo (.failed text)) (some (.answered false (.failed text)))
  | jobUsleep {id : CallId} {left : Bool} {job : AsyncJob} :
      Follows s request (.usleep id) (.job left job .usleep) (some (.job left job .session))
  | jobSession {id : CallId} {sd : Address} {left : Bool} {job : AsyncJob} :
      Follows s request (.session id (some sd)) (.job left job .session)
        (check (job.expectedSessionLocalData = sd) (.job left job (.value sd)))
  | jobNoSession {id : CallId} {left : Bool} {job : AsyncJob} :
      Follows s request (.session id none) (.job left job .session) none
  | value {id : CallId} {sd : Address} {left : Bool} {job : AsyncJob} :
      Follows s request (.next id) (.job left job (.value sd))
        (check (job.expectedSessionValue = (s.session sd).x) (.job left job .respond))
  | respond {id : CallId} {left : Bool} {job : AsyncJob} :
      Follows s request (.next id) (.job left job .respond) (some (.job left job .done))
  | done {id : CallId} {left : Bool} {job : AsyncJob} :
      Follows s request (.done id) (.job left job .done)
        (some (.answered left (server.echo request)))
  | leaveJob {id : CallId} {job : AsyncJob} {r : Run} :
      Follows s request (.leave id) (.job false job r) (some (.job true job r))
  | leaveAnswered {id : CallId} {answer : Answer} :
      Follows s request (.leave id) (.answered false answer) (some (.answered true answer))

inductive Step (s : State) : Label → State → Prop where
  | receive {id : CallId} {request : EchoRequest} : s.call id = none →
      Step s (.receive id request) (s.setCall id { request })
  | fails {l : Label} {call : Call} : s.call l.id = some call →
      Follows server s call.request l call.stage none → Step s l { s with aborted := true }
  | follows {l : Label} {call : Call} {stage : Stage} : s.call l.id = some call →
      Follows server s call.request l call.stage (some stage) →
      Step s l ((s.written call.stage).setCall l.id { call with stage })

variable {server : Server} {s s' : State} {l : Label}

theorem following_sound {request : EchoRequest} {stage : Stage} {o : Option Stage}
    (h : following server s request l stage = some o) : Follows server s request l stage o := by
  unfold following at h
  split at h
  case h_4 sd' sd v =>
    split at h
    · rename_i hsd
      obtain rfl := hsd
      obtain rfl := Option.some.inj h
      exact .store
    · cases h
  case h_10 data ret l =>
    split at h
    · rename_i hdata
      obtain rfl := hdata
      obtain rfl := Option.some.inj h
      exact .setspecific
    · cases h
  all_goals
    cases h
    try constructor

theorem step_sound (h : step server s l = some s') : s.aborted = false ∧ Step server s l s' := by
  unfold step at h
  split at h
  · cases h
  · rename_i haborted
    refine ⟨by simpa using haborted,?_⟩
    split at h
    · split at h
      · rename_i hnone
        obtain rfl := Option.some.inj h
        exact .receive hnone
      · cases h
    · obtain ⟨call,hcall,h⟩ := Option.bind_eq_some_iff.mp h
      obtain ⟨o,hfollowing,h⟩ := Option.bind_eq_some_iff.mp h
      cases o with
      | none =>
        obtain rfl := Option.some.inj h
        exact .fails hcall (following_sound hfollowing)
      | some stage =>
        obtain rfl := Option.some.inj h
        exact .follows hcall (following_sound hfollowing)

@[simp] def Echo.rank : Echo → Nat
  | .session => 20
  | .expect _ => 19
  | .store _ _ => 18
  | .threadLocal _ => 17
  | .setTls _ => 16
  | .getspecific _ => 15
  | .setspecific _ => 14
  | .setTls2 _ => 13
  | .usleep _ => 12
  | .checkTls _ => 11
  | .checkY _ => 10
  | .checkTls2 _ => 9
  | .checkY2 _ => 8
  | .start _ => 7
  | .failed _ => 2

@[simp] def Run.rank : Run → Nat
  | .usleep => 5
  | .session => 4
  | .value _ => 3
  | .respond => 2
  | .done => 1

@[simp] def Stage.rank : Stage → Nat
  | .echo e => e.rank
  | .job left _ r => r.rank + if left then 0 else 1
  | .answered left _ => if left then 0 else 1

theorem check_eq_some {ok : Prop} [Decidable ok] {stage stage' : Stage}
    (h : some stage' = check ok stage) : ok ∧ stage' = stage := by
  unfold check at h
  split at h
  · rename_i hok
    exact ⟨hok,Option.some.inj h⟩
  · cases h

@[simp] def answers : Stage → Nat
  | .answered _ _ => 1
  | .echo _ | .job _ _ _ => 0

@[simp] def leaves : Stage → Nat
  | .job left _ _ | .answered left _ => if left then 1 else 0
  | .echo _ => 0

structure Moves (l : Label) (stage stage' : Stage) : Prop where
  rank_lt : stage'.rank < stage.rank
  answers : answers stage' = answers stage + if l = .done l.id then 1 else 0
  leaves : leaves stage' = leaves stage + if l = .leave l.id then 1 else 0

theorem Follows.moves {request : EchoRequest} {stage stage' : Stage}
    (h : Follows server s request l stage (some stage')) : Moves l stage stage' := by
  generalize ho : some stage' = o at h
  cases h with
  | setspecific | checkTls | checkY | checkTls2 | checkY2 | start | jobSession | value =>
    obtain ⟨-,rfl⟩ := check_eq_some ho
    exact ⟨by simp,by simp [Label.id],by simp [Label.id]⟩
  | jobNoSession => cases ho
  | session | noSession | expect | store | threadLocal | noThreadLocal | setTls | getspecific
  | noSpecific | setTls2 | usleep | failed | jobUsleep | respond | done | leaveJob | leaveAnswered =>
    obtain rfl := Option.some.inj ho
    exact ⟨by simp,by simp [Label.id],by simp [Label.id]⟩

theorem loan_gives_iff {gives : Label → Option Address} {ends : CallId → Label}
    {x : CallId × Address} :
    (loan gives ends).gives l = some x ↔ gives l = some x.2 ∧ l.id = x.1 := by
  simp [loan, Option.map_eq_some_iff, Prod.ext_iff]

theorem sessionData_gives {u : CallId} {a : Address} (h : sessionData.gives l = some (u,a)) :
    l = .session u (some a) := by
  obtain ⟨hret,rfl⟩ := loan_gives_iff.mp h
  cases l with
  | session id ret => exact congrArg _ hret
  | _ => cases hret

theorem threadData_gives {u : CallId} {a : Address} (h : threadData.gives l = some (u,a)) :
    l = .threadLocal u (some a) := by
  obtain ⟨hret,rfl⟩ := loan_gives_iff.mp h
  cases l with
  | threadLocal id ret => exact congrArg _ hret
  | _ => cases hret

theorem fiberData_gives {u : CallId} {a : Address} (h : fiberData.gives l = some (u,a)) :
    l = .getspecific u (some a) ∨ ∃ ret, l = .setspecific u a ret := by
  obtain ⟨hret,rfl⟩ := loan_gives_iff.mp h
  cases l with
  | getspecific id ret => exact .inl (congrArg _ hret)
  | setspecific id data ret => exact .inr ⟨ret,by rw [Option.some.inj hret]; rfl⟩
  | _ => cases hret

theorem loan_ended_iff {gives : Label → Option Address} {ends : CallId → Label}
    (hends : ∀ id, (ends id).id = id) {id : CallId} {es : List Label} :
    id ∈ (loan gives ends).ended es ↔ ends id ∈ es := by
  rw [Lending.mem_ended_iff]
  constructor
  · rintro ⟨l,hl,h⟩
    simp only [loan, Option.ite_none_right_eq_some, Option.some.injEq] at h
    rw [← h.2, ← h.1]
    exact hl
  · intro h
    exact ⟨ends id,h,by simp [loan, hends]⟩

theorem contract_documented : Documented server (contract server) where
  session es id ret h := by
    cases ret with
    | none => simp [show server.sessionLocalDataFactory = false from h]
    | some a => simpa [h.1] using h.2
  threadLocal es id ret h := by
    cases ret with
    | none => simp [show server.threadLocalDataFactory = false from h]
    | some a => simpa [h.1] using h.2
  getspecific es id ret h := by
    cases ret with
    | none => exact ⟨fun a ha => absurd rfl (h (id,a) ha),fun a ha => by cases ha⟩
    | some b =>
      refine ⟨fun a ha => ?_,?_⟩
      · exact congrArg some (h.1.steady (id,a) ha rfl).symm
      · rintro a ⟨⟩
        exact h
  setspecific es id data ret h := h
  start es id ret h := h

theorem expectedValue_toInt (x : Int32) (cntl : UInt64) :
    (expectedValue x cntl).toInt = (x.toInt + cntl.toNat).bmod (2^32) := by
  have hmask : (cntl &&& 0xFFFFFFFF).toNat = cntl.toNat % 2^32 := by
    rw [UInt64.toNat_and]
    exact Nat.and_two_pow_sub_one_eq_mod cntl.toNat 32
  have hlow : (cntl &&& 0xFFFFFFFF).toInt64.toInt = (cntl.toNat : Int) % (2^32 : Nat) := by
    have hofNat : (cntl &&& 0xFFFFFFFF).toInt64 = Int64.ofNat (cntl.toNat % 2^32) := by
      rw [← hmask, ← UInt64.toInt64_ofNat', UInt64.ofNat_toNat]
    rw [hofNat, Int64.toInt_ofNat_of_lt (by omega), Int.natCast_emod]
  have hsum : expectedValue x cntl = x + (cntl &&& 0xFFFFFFFF).toInt64.toInt32 := by
    simp [expectedValue]
  rw [hsum, Int32.toInt_add, Int64.toInt_toInt32, hlow, Int.add_bmod_bmod, Int.add_emod_bmod]

end EaHalfHour.SessionServer
