import EaHalfHour.ClusterAsMap
import EaHalfHour.PeerLists

/-! The command-line client of the key-value servers, and a script of its invocations
against a cluster whose RPCs are all delivered. -/
namespace EaHalfHour.KvClient
open AtomicObject KvMessage KvCache RecencyMap ProxyNode DeliveredRouting ClusterRefinement
  CacheGrowth CacheAsMap ClusterAsMap LawfulLRUCache

structure Flags where
  op : Bytes := []
  key : Bytes := []
  value : Bytes := []
  protocol : Bytes := text "melon_std"
  connectionType : Bytes := []
  server : Bytes := text "0.0.0.0:8018"
  timeoutMs : Int := 100
  maxRetry : Int := 3
deriving DecidableEq

structure ChannelOptions where
  protocol : Bytes
  connectionType : Bytes
  timeoutMs : Int
  maxRetry : Int
deriving DecidableEq

def Flags.options (flags : Flags) : ChannelOptions :=
  ⟨flags.protocol,flags.connectionType,flags.timeoutMs,flags.maxRetry⟩

/-- What main logs: an error of its own, the response, or the controller's ErrorText. -/
inductive Line where
  | error (message : Bytes)
  | received (response : KvResponse)
  | warning (errorText : Bytes)
deriving DecidableEq

abbrev Rpc (σ : Type) :=
  Bytes → ChannelOptions → Method → KvRequest → σ → Except Bytes KvResponse × σ

def report {σ : Type} (out : Except Bytes KvResponse × σ) : (Int × List Line) × σ :=
  match out.1 with
  | .ok response => ((0,[.received response]),out.2)
  | .error errorText => ((0,[.warning errorText]),out.2)

/-- The exit code and what is logged; `init` says whether Channel::Init succeeds. -/
def main {σ : Type} (init : Bytes → ChannelOptions → Bool) (rpc : Rpc σ) (flags : Flags) (s : σ) :
    (Int × List Line) × σ :=
  if init flags.server flags.options = false then
    ((-1,[.error (text "Fail to initialize channel")]),s)
  else if flags.op = [] then ((-1,[.error (text "Please specify operation type")]),s)
  else if flags.key = [] then ((-1,[.error (text "Please specify key")]),s)
  else if flags.op = text "set" then
    if flags.value = [] then ((-1,[.error (text "Please specify value")]),s)
    else report (rpc flags.server flags.options .set ⟨flags.key,some flags.value⟩ s)
  else if flags.op = text "get" then
    report (rpc flags.server flags.options .get ⟨flags.key,none⟩ s)
  else if flags.op = text "remove" then
    report (rpc flags.server flags.options .remove ⟨flags.key,none⟩ s)
  else ((0,[.error (text "Invalid operation type")]),s)

def mapRpc : Rpc Store := fun _ _ method request m =>
  (.ok (meant (method,request) m).1,(meant (method,request) m).2)

section Cluster
variable {σ : Type} [LRUCache σ] (c : Cluster) (hash : Bytes → UInt64)

/-- A call against the process at the server's address, with RPCs nested at most
`depth` deep; `failed` is what the controller says when nothing comes back. -/
def clusterRpc (depth : Nat) (failed : Bytes) : Rpc (Bytes → σ) :=
  fun server _ method request caches =>
    match c.call hash method depth server request {} caches with
    | none => (.error failed,caches)
    | some ((rs,response),caches') =>
      match KvServiceimpl.wire rs response with
      | none => (.error failed,caches')
      | some w => (.ok w.parse,caches')

variable {c hash} {address : Bytes}

variable [LawfulLRUCache σ]

/-- What a run of the client tells about the cluster, given what it would tell about the
map: the same exit code and the same lines, or that a key is missing; and any response is
a success or kNotFound. -/
structure Tells (out map : Int × List Line) : Prop where
  exit : out.1 = map.1
  lines : List.Forall₂ (fun x y => x = y ∨
    ∃ r r', x = .received r ∧ y = .received r' ∧ AtLeast r r') out.2 map.2
  responses : ∀ line ∈ out.2, (∃ message, line = .error message) ∨
    ∃ r, line = .received r ∧ (r.code = some StatusCode.kOk.toInt ∨
      r.code = some StatusCode.kNotFound.toInt)

end Cluster

end EaHalfHour.KvClient
