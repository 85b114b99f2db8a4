import EaHalfHour.ProxyNode

/-! The /cache/set and /cache/get processors of the a010 REST front end. JSON
documents are kept as the fields of an object; json2pb is a parameter. -/
namespace EaHalfHour.RestfulService
open KvMessage

inductive JsonValue where
  | num (n : Int)
  | str (s : Bytes)
deriving DecidableEq

abbrev JsonObject := List (String × JsonValue)

def Encodes (j : JsonObject) (r : KvResponse) : Prop :=
  j.lookup "code" = r.code.map .num ∧ j.lookup "message" = r.message.map .str ∧
    j.lookup "value" = r.value.map .str

/-- json2pb converts every response that has its required fields. -/
def Converts (protoMessageToJson : KvResponse → Option JsonObject) : Prop :=
  ∀ r : KvResponse, r.isInitialized = true → ∃ j, protoMessageToJson r = some j ∧ Encodes j r

structure RestfulRequest where
  getQuery : Bytes → Option Bytes
  body : Bytes

structure RestfulResponse where
  statusCode : Nat := 200
  contentJson : Bool := false
  accessControlAll : Bool := false
  body : Option JsonObject := none
deriving DecidableEq

/-- The two documents init_error_once builds: `proto_conversion_err` and
`no_key_err`. -/
def initErrorOnce : JsonObject × JsonObject :=
  ([("code",.num StatusCode.kInternal.toInt),("message",.str (text "proto to json error")),
    ("value",.str [])],
   [("code",.num StatusCode.kInvalidArgument.toInt),("message",.str (text "no key or value")),
    ("value",.str [])])

def getProtoConversionErr : JsonObject := initErrorOnce.1

/-- The source returns `proto_conversion_err` here as well. -/
def getNokeyErr : JsonObject := initErrorOnce.1

section Processors
variable {m : Type → Type} [Monad m] (protoMessageToJson : KvResponse → Option JsonObject)

def RestfulResponse.setJson (response : RestfulResponse) (r : KvResponse) :
    RestfulResponse :=
  match protoMessageToJson r with
  | some json => { response with body := some json }
  | none => { response with body := some getProtoConversionErr }

def RestfulResponse.finish (response : RestfulResponse) (rs : Status) (r : KvResponse) :
    RestfulResponse :=
  let response := { response with statusCode := if rs.ok then 200 else 500 }
  RestfulResponse.setJson protoMessageToJson response r

def CacheSetProcessor.process
    (kvSet : KvRequest → KvResponse → m (Status × KvResponse))
    (request : RestfulRequest) (response : RestfulResponse) : m RestfulResponse :=
  let response := { response with contentJson := true, accessControlAll := true }
  let nokey := pure { response with statusCode := 200, body := some getNokeyErr }
  match request.getQuery (text "key") with
  | none => nokey
  | some key =>
    if request.body = [] then nokey
    else do
      let out ← kvSet { key, value := some request.body } {}
      pure (RestfulResponse.finish protoMessageToJson response out.1 out.2)

def CacheGetProcessor.process
    (kvGet : KvRequest → KvResponse → m (Status × KvResponse))
    (request : RestfulRequest) (response : RestfulResponse) : m RestfulResponse :=
  let response := { response with contentJson := true, accessControlAll := true }
  match request.getQuery (text "key") with
  | none =>
    let kvResponse := ((({} : KvResponse).setCode .kInvalidArgument).setValue []).setMessage
      (text "no key")
    pure (RestfulResponse.setJson protoMessageToJson { response with statusCode := 200 } kvResponse)
  | some key => do
    let out ← kvGet { key } {}
    pure (RestfulResponse.finish protoMessageToJson response out.1 out.2)

end Processors

inductive Route where
  | cacheSet | cacheGet
deriving DecidableEq

def Route.method : Route → Method
  | .cacheSet => .set
  | .cacheGet => .get

def Route.kvRequest (route : Route) (request : RestfulRequest) : Option KvRequest :=
  match route, request.getQuery (text "key") with
  | _, none => none
  | .cacheSet, some key => if request.body = [] then none else some ⟨key,some request.body⟩
  | .cacheGet, some key => some ⟨key,none⟩

section Calls
variable {m : Type → Type} [Monad m] (protoMessageToJson : KvResponse → Option JsonObject)

def Route.process (route : Route) (kv : Method → KvRequest → KvResponse → m (Status × KvResponse))
    (request : RestfulRequest) (response : RestfulResponse) : m RestfulResponse :=
  match route with
  | .cacheSet => CacheSetProcessor.process protoMessageToJson (kv .set) request response
  | .cacheGet => CacheGetProcessor.process protoMessageToJson (kv .get) request response

theorem process_of_kvRequest (route : Route)
    (kv : Method → KvRequest → KvResponse → m (Status × KvResponse))
    {request : RestfulRequest} (response : RestfulResponse) {kvRequest : KvRequest}
    (h : route.kvRequest request = some kvRequest) :
    route.process protoMessageToJson kv request response =
      kv route.method kvRequest {} >>= fun out =>
        pure (RestfulResponse.finish protoMessageToJson
          { response with contentJson := true, accessControlAll := true } out.1 out.2) := by
  unfold Route.kvRequest at h
  cases hkey : request.getQuery (text "key") with
  | none => simp [hkey] at h
  | some key =>
    cases route with
    | cacheSet =>
      by_cases hbody : request.body = []
      · simp [hkey, hbody] at h
      · have hr : kvRequest = ⟨key,some request.body⟩ := by simpa [hkey, hbody, eq_comm] using h
        simp [Route.process, CacheSetProcessor.process, Route.method, hkey, hbody, hr]
    | cacheGet =>
      have hr : kvRequest = ⟨key,none⟩ := by simpa [hkey, eq_comm] using h
      simp [Route.process, CacheGetProcessor.process, Route.method, hkey, hr]

theorem process_of_no_kvRequest (route : Route)
    (kv : Method → KvRequest → KvResponse → m (Status × KvResponse))
    {request : RestfulRequest} (response : RestfulResponse)
    (h : route.kvRequest request = none) :
    ∃ answer, (route.process protoMessageToJson kv request response = pure answer) ∧
      answer.statusCode = 200 ∧
      match route with
      | .cacheSet => answer.body = some getNokeyErr
      | .cacheGet => answer.body = some ((protoMessageToJson
          ⟨some StatusCode.kInvalidArgument.toInt,some (text "no key"),some []⟩).getD
            getProtoConversionErr) := by
  unfold Route.kvRequest at h
  cases route with
  | cacheSet =>
    have hearly : CacheSetProcessor.process protoMessageToJson (kv .set) request response = pure
        { response with
          contentJson := true, accessControlAll := true, statusCode := 200
          body := some getNokeyErr } := by
      unfold CacheSetProcessor.process
      cases hkey : request.getQuery (text "key") with
      | none => rfl
      | some key =>
        by_cases hbody : request.body = []
        · simp [hbody]
        · simp [hkey, hbody] at h
    exact ⟨_,hearly,rfl,rfl⟩
  | cacheGet =>
    cases hkey : request.getQuery (text "key") with
    | some key => simp [hkey] at h
    | none =>
      refine ⟨RestfulResponse.setJson protoMessageToJson
        { response with contentJson := true, accessControlAll := true, statusCode := 200 }
        ⟨some StatusCode.kInvalidArgument.toInt,some (text "no key"),some []⟩,?_,?_,?_⟩
      · simp only [Route.process, CacheGetProcessor.process, hkey]
        rfl
      · unfold RestfulResponse.setJson
        split <;> rfl
      · unfold RestfulResponse.setJson
        cases protoMessageToJson
          ⟨some StatusCode.kInvalidArgument.toInt,some (text "no key"),some []⟩ <;> rfl

end Calls

end EaHalfHour.RestfulService
