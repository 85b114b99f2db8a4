import Mathlib.Data.Option.Basic

/-! The messages of kv.proto and the turbo statuses the key-value servers use. -/
namespace EaHalfHour.KvMessage

abbrev Bytes := List UInt8

def text (s : String) : Bytes := s.toUTF8.data.toList

inductive StatusCode where
  | kOk | kInvalidArgument | kDeadlineExceeded | kNotFound | kInternal
deriving DecidableEq

def StatusCode.toInt : StatusCode → Int
  | .kOk => 0
  | .kInvalidArgument => 3
  | .kDeadlineExceeded => 4
  | .kNotFound => 5
  | .kInternal => 13

structure Status where
  code : StatusCode
  message : Bytes
deriving DecidableEq

def Status.okStatus : Status := ⟨.kOk,[]⟩
def Status.invalidArgumentError (message : Bytes) : Status := ⟨.kInvalidArgument,message⟩
def Status.deadlineExceededError (message : Bytes) : Status := ⟨.kDeadlineExceeded,message⟩
def Status.ok (s : Status) : Bool := s.code == .kOk

theorem Status.okStatus_ok : Status.okStatus.ok = true := rfl

structure KvRequest where
  key : Bytes
  value : Option Bytes := none
deriving DecidableEq

/-- A response being filled in: `none` is a field that was never set. -/
structure KvResponse where
  code : Option Int := none
  message : Option Bytes := none
  value : Option Bytes := none
deriving DecidableEq

def KvResponse.isInitialized (r : KvResponse) : Bool := r.code.isSome && r.message.isSome

def KvResponse.setCode (r : KvResponse) (code : StatusCode) : KvResponse :=
  { r with code := some code.toInt }
def KvResponse.setMessage (r : KvResponse) (message : Bytes) : KvResponse :=
  { r with message := some message }
def KvResponse.setValue (r : KvResponse) (value : Bytes) : KvResponse :=
  { r with value := some value }

/-- A response on the wire. A message without its required fields is neither
sent nor accepted, so here they are not optional. -/
structure Reply where
  code : Int
  message : Bytes
  value : Option Bytes
deriving DecidableEq

def KvResponse.serialize (r : KvResponse) : Option Reply :=
  match r.code, r.message with
  | some code, some message => some ⟨code,message,r.value⟩
  | _, _ => none

def Reply.parse (r : Reply) : KvResponse := ⟨some r.code,some r.message,r.value⟩

theorem Reply.parse_isInitialized (r : Reply) : r.parse.isInitialized = true := rfl

theorem KvResponse.serialize_eq_some (r : KvResponse) (w : Reply) :
    r.serialize = some w ↔ r = w.parse := by
  obtain ⟨code,message,value⟩ := r
  obtain ⟨wcode,wmessage,wvalue⟩ := w
  cases code <;> cases message <;> simp [KvResponse.serialize, Reply.parse]

theorem KvResponse.isInitialized_iff (r : KvResponse) :
    r.isInitialized = true ↔ ∃ w : Reply, r = w.parse := by
  constructor
  · intro h
    obtain ⟨code,message,value⟩ := r
    cases code <;> cases message <;> simp [KvResponse.isInitialized] at h
    exact ⟨⟨_,_,value⟩,rfl⟩
  · rintro ⟨w,rfl⟩
    rfl

/-- The methods of KvService, in the order kv.proto declares them. -/
inductive Method where
  | set | get | remove
deriving DecidableEq

def Method.name : Method → Bytes
  | .set => text "set"
  | .get => text "get"
  | .remove => text "remove"

end EaHalfHour.KvMessage
