import Mathlib.Algebra.Group.Int.Defs
import Mathlib.Algebra.Group.Nat.Defs
import EaHalfHour.KvMessage
import EaHalfHour.LabelledRun

/-! The cascade example: a server whose Echo calls the same service again until `depth`
is used up. Any number of clients and server processes run at once, and melon may send
each call again as often as its `max_retry` allows. -/
namespace EaHalfHour.Cascade
open LabelledRun KvMessage

/-- A call: the client's RPC it belongs to, and the attempts that led to it, the last one
first. An attempt of a call is served by one Echo, and that Echo's own call has its name. -/
abbrev CallId := Nat × List Nat

def CallId.root (n : Nat) : CallId := (n,[])

def CallId.attempt (id : CallId) (t : Nat) : CallId := (id.1,t :: id.2)

structure CascadeRequest where
  message : Bytes
  depth : Option Int32 := none
deriving DecidableEq

def CascadeRequest.getDepth (r : CascadeRequest) : Int32 := r.depth.getD 0

structure Error where
  code : Int32
  text : Bytes
deriving DecidableEq

inductive Reply where
  | failed (error : Error)
  | echoed (message attachment : Bytes)
deriving DecidableEq

structure Server where
  maxRetry : Int32 := 3
  echoAttachment : Bool := true
  useHttp : Bool := false
deriving DecidableEq

structure Client where
  message : Bytes := text "hello world"
  attachment : Bytes := text "foo"
  depth : Int32 := 0
  maxRetry : Int32 := 3
deriving DecidableEq

def Client.request (client : Client) : CascadeRequest :=
  ⟨client.message,if 0 < client.depth then some client.depth else none⟩

/-- `max_retry` does not count the first attempt. -/
def attempts (maxRetry : Int32) : Nat := maxRetry.toInt.toNat + 1

structure Call where
  request : CascadeRequest
  attachment : Bytes
  attempts : Nat
  sent : Nat := 0
  result : Option Reply := none
deriving DecidableEq

inductive Stage where
  | entered
  | calling
  | returned (reply : Reply)
deriving DecidableEq

structure Echo where
  process : Nat
  request : CascadeRequest
  attachment : Bytes
  stage : Stage := .entered
deriving DecidableEq

def Echo.returns (echo : Echo) (reply : Reply) : Echo := { echo with stage := .returned reply }

structure State where
  call : CallId → Option Call
  echo : CallId → Option Echo

/-- `deliver` is an attempt that reaches a process, at most once; `fail` is an error of
melon's own. An attempt or a reply that is lost is one whose label never comes. -/
inductive Label where
  | send (n : Nat) (client : Client)
  | transmit (id : CallId) (t : Nat)
  | deliver (id : CallId) (t : Nat) (process : Nat)
  | echo (id : CallId)
  | reply (id : CallId) (t : Nat)
  | fail (id : CallId) (error : Error)
  | finish (id : CallId)
deriving DecidableEq

/-- The attachment of a reply: attachments are not sent over http. -/
def Server.attach (server : Server) (attachment : Bytes) : Bytes :=
  if server.echoAttachment && !server.useHttp then attachment else []

def CascadeRequest.again (r : CascadeRequest) : CascadeRequest :=
  ⟨r.message,some (r.getDepth - 1)⟩

def Server.answer (server : Server) (attachment : Bytes) : Reply → Reply
  | .failed error => .failed error
  | .echoed message _ => .echoed message (server.attach attachment)

/-- What the caller is told, when melon's text for an error that arrives is `told`. -/
def Reply.told (told : Error → Error) : Reply → Reply
  | .failed error => .failed (told error)
  | .echoed message attachment => .echoed message attachment

namespace State

def init : State := ⟨fun _ => none,fun _ => none⟩

def setCall (s : State) (id : CallId) (call : Call) : State :=
  { s with call := Function.update s.call id (some call) }

def setEcho (s : State) (id : CallId) (echo : Echo) : State :=
  { s with echo := Function.update s.echo id (some echo) }

@[simp] theorem setCall_call (s : State) (id : CallId) (call : Call) :
    (s.setCall id call).call = Function.update s.call id (some call) := rfl
@[simp] theorem setCall_echo (s : State) (id : CallId) (call : Call) :
    (s.setCall id call).echo = s.echo := rfl
@[simp] theorem setEcho_call (s : State) (id : CallId) (echo : Echo) :
    (s.setEcho id echo).call = s.call := rfl
@[simp] theorem setEcho_echo (s : State) (id : CallId) (echo : Echo) :
    (s.setEcho id echo).echo = Function.update s.echo id (some echo) := rfl

end State

variable (server : Nat → Server) (told : Error → Error)

def step (s : State) : Label → Option State
  | .send n client =>
    if s.call (.root n) = none then
      some (s.setCall (.root n) { request := client.request, attachment := client.attachment,
                                  attempts := attempts client.maxRetry })
    else none
  | .transmit id t => do
    let call ← s.call id
    if call.result = none ∧ t = call.sent ∧ t < call.attempts then
      some (s.setCall id { call with sent := t+1 })
    else none
  | .deliver id t process => do
    let call ← s.call id
    if t < call.sent ∧ s.echo (id.attempt t) = none then
      some (s.setEcho (id.attempt t) { process, request := call.request,
                                       attachment := call.attachment })
    else none
  | .echo id => do
    let echo ← s.echo id
    if echo.stage = .entered then
      if 0 < echo.request.getDepth then
        some ((s.setCall id { request := echo.request.again, attachment := [],
                              attempts := attempts (server echo.process).maxRetry }).setEcho id
          { echo with stage := .calling })
      else some (s.setEcho id (echo.returns
        (.echoed echo.request.message ((server echo.process).attach echo.attachment))))
    else none
  | .reply id t => do
    let call ← s.call id
    let echo ← s.echo (id.attempt t)
    match call.result, echo.stage with
    | none, .returned reply => some (s.setCall id { call with result := some (reply.told told) })
    | _, _ => none
  | .fail id error => do
    let call ← s.call id
    if call.result = none then some (s.setCall id { call with result := some (.failed error) })
    else none
  | .finish id => do
    let echo ← s.echo id
    let call ← s.call id
    match echo.stage, call.result with
    | .calling, some reply => some (s.setEcho id
        (echo.returns ((server echo.process).answer echo.attachment reply)))
    | _, _ => none

inductive Step (s : State) : Label → State → Prop where
  | send {n : Nat} {client : Client} : s.call (.root n) = none →
      Step s (.send n client) (s.setCall (.root n)
        ⟨client.request,client.attachment,attempts client.maxRetry,0,none⟩)
  | transmit {id : CallId} {call : Call} : s.call id = some call → call.result = none →
      call.sent < call.attempts →
      Step s (.transmit id call.sent) (s.setCall id { call with sent := call.sent+1 })
  | deliver {id : CallId} {t : Nat} {call : Call} (process : Nat) : s.call id = some call →
      t < call.sent → s.echo (id.attempt t) = none →
      Step s (.deliver id t process) (s.setEcho (id.attempt t)
        ⟨process,call.request,call.attachment,.entered⟩)
  | again {id : CallId} {echo : Echo} : s.echo id = some echo → echo.stage = .entered →
      0 < echo.request.getDepth →
      Step s (.echo id) ((s.setCall id ⟨echo.request.again,[],
        attempts (server echo.process).maxRetry,0,none⟩).setEcho id
          { echo with stage := .calling })
  | last {id : CallId} {echo : Echo} : s.echo id = some echo → echo.stage = .entered →
      ¬ 0 < echo.request.getDepth →
      Step s (.echo id) (s.setEcho id (echo.returns
        (.echoed echo.request.message ((server echo.process).attach echo.attachment))))
  | reply {id : CallId} {t : Nat} {call : Call} {echo : Echo} {reply : Reply} :
      s.call id = some call → s.echo (id.attempt t) = some echo → call.result = none →
      echo.stage = .returned reply →
      Step s (.reply id t) (s.setCall id { call with result := some (reply.told told) })
  | fail {id : CallId} {call : Call} (error : Error) : s.call id = some call →
      call.result = none →
      Step s (.fail id error) (s.setCall id { call with result := some (.failed error) })
  | finish {id : CallId} {echo : Echo} {call : Call} {reply : Reply} : s.echo id = some echo →
      s.call id = some call → echo.stage = .calling → call.result = some reply →
      Step s (.finish id) (s.setEcho id
        (echo.returns ((server echo.process).answer echo.attachment reply)))

variable {server told} {s s' : State} {l : Label}

theorem step_sound (h : step server told s l = some s') : Step server told s l s' := by
  cases l with
  | send n client =>
    simp only [step] at h
    split at h
    · rename_i hnone
      obtain rfl := Option.some.inj h
      exact .send hnone
    · cases h
  | transmit id t =>
    simp only [step, Option.bind_eq_bind, Option.bind_eq_some_iff] at h
    obtain ⟨call,hcall,h⟩ := h
    split at h
    · rename_i hc
      obtain ⟨hresult,rfl,hlt⟩ := hc
      obtain rfl := Option.some.inj h
      exact .transmit hcall hresult hlt
    · cases h
  | deliver id t process =>
    simp only [step, Option.bind_eq_bind, Option.bind_eq_some_iff] at h
    obtain ⟨call,hcall,h⟩ := h
    split at h
    · rename_i hc
      obtain rfl := Option.some.inj h
      exact .deliver process hcall hc.1 hc.2
    · cases h
  | echo id =>
    simp only [step, Option.bind_eq_bind, Option.bind_eq_some_iff] at h
    obtain ⟨echo,hecho,h⟩ := h
    split at h
    · rename_i hstage
      split at h
      · rename_i hdepth
        obtain rfl := Option.some.inj h
        exact .again hecho hstage hdepth
      · rename_i hdepth
        obtain rfl := Option.some.inj h
        exact .last hecho hstage hdepth
    · cases h
  | reply id t =>
    simp only [step, Option.bind_eq_bind, Option.bind_eq_some_iff] at h
    obtain ⟨call,hcall,echo,hecho,h⟩ := h
    split at h
    · rename_i hresult hstage
      obtain rfl := Option.some.inj h
      exact .reply hcall hecho hresult hstage
    · cases h
  | fail id error =>
    simp only [step, Option.bind_eq_bind, Option.bind_eq_some_iff] at h
    obtain ⟨call,hcall,h⟩ := h
    split at h
    · rename_i hresult
      obtain rfl := Option.some.inj h
      exact .fail error hcall hresult
    · cases h
  | finish id =>
    simp only [step, Option.bind_eq_bind, Option.bind_eq_some_iff] at h
    obtain ⟨echo,hecho,call,hcall,h⟩ := h
    split at h
    · rename_i hstage hresult
      obtain rfl := Option.some.inj h
      exact .finish hecho hcall hstage hresult
    · cases h

theorem step_complete (h : Step server told s l s') : step server told s l = some s' := by
  cases h with
  | send hnone => simp [step, hnone]
  | transmit hcall hresult hlt => simp [step, hcall, hresult, hlt]
  | deliver process hcall hlt hnone => simp [step, hcall, hlt, hnone]
  | again hecho hstage hdepth => simp [step, hecho, hstage, hdepth]
  | last hecho hstage hdepth => simp [step, hecho, hstage, hdepth]
  | reply hcall hecho hresult hstage => simp [step, hcall, hecho, hresult, hstage]
  | fail error hcall hresult => simp [step, hcall, hresult]
  | finish hecho hcall hstage hresult => simp [step, hecho, hcall, hstage, hresult]

end EaHalfHour.Cascade
