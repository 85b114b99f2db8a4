import Mathlib.Data.List.Basic
import EaHalfHour.KvCache
import EaHalfHour.SendLoop

/-! halakv::KvProxy of one a010 process: its routing table, the three operations,
and the RPC service over them. -/
namespace EaHalfHour.ProxyNode
open KvMessage KvCache SendLoop

/-- `turbo::str_split(address, ",", turbo::SkipEmpty())`. -/
def strSplit (address : Bytes) : List Bytes :=
  (address.splitOn 44).filter fun piece => !piece.isEmpty

/-- `peerIndex` is none where the source holds numeric_limits<size_t>::max(),
which is past the end of any vector. -/
structure KvProxy where
  peers : List Bytes := []
  localPeer : Bytes := []
  peerIndex : Option Nat := none
  senders : List RouterSender := []
deriving DecidableEq

/-- The second loop of initialize: one sender for each peer, until one fails. -/
def initSenders : List Bytes → Status × List RouterSender
  | [] => (.okStatus,[])
  | peer :: peers =>
    let (rs,sender) := RouterSender.init {} peer
    if rs.ok then
      let rest := initSenders peers
      (rest.1,sender :: rest.2)
    else (rs,[sender])

def KvProxy.initialize (self : KvProxy) (address localPeer : Bytes) : Status × KvProxy :=
  let peers := strSplit address
  let peerIndex := peers.findIdx? fun peer => peer == localPeer
  let self := { self with peers, localPeer, peerIndex }
  if peerIndex = none then
    (.invalidArgumentError (text "local peer not found in peers"),self)
  else
    let made := initSenders peers
    (made.1,{ self with senders := made.2 })

theorem initSenders_eq (peers : List Bytes) :
    initSenders peers = (.okStatus,peers.map fun peer => { server := peer }) := by
  induction peers with
  | nil => rfl
  | cons peer peers ih => simp [initSenders, RouterSender.init, ih, Status.ok, Status.okStatus]

def tableOf (address localPeer : Bytes) : KvProxy where
  peers := strSplit address
  localPeer := localPeer
  peerIndex := some ((strSplit address).idxOf localPeer)
  senders := (strSplit address).map fun peer => { server := peer }

theorem initialize_of_mem (self : KvProxy) {address localPeer : Bytes}
    (h : localPeer ∈ strSplit address) :
    self.initialize address localPeer = (.okStatus,tableOf address localPeer) := by
  have hidx : (strSplit address).findIdx? (fun peer => peer == localPeer) =
      some ((strSplit address).idxOf localPeer) := by
    rw [List.findIdx?_eq_some_of_exists ⟨localPeer,h,by simp⟩]
    rfl
  simp [ KvProxy.initialize, hidx, initSenders_eq, tableOf]

theorem initialize_ok_iff (self : KvProxy) (address localPeer : Bytes) :
    ( KvProxy.initialize self address localPeer).1.ok = true ↔ localPeer ∈ strSplit address := by
  constructor
  · intro h
    by_contra hnot
    have hidx : (strSplit address).findIdx? (fun peer => peer == localPeer) = none := by
      rw [List.findIdx?_eq_none_iff]
      intro peer hp
      simpa using fun he : peer = localPeer => hnot (he ▸ hp)
    simp [ KvProxy.initialize, hidx, Status.ok, Status.invalidArgumentError] at h
  · intro h
    rw [initialize_of_mem self h]
    rfl

def KvProxy.getPeerIndex (self : KvProxy) (hash : Bytes → UInt64) (key : Bytes) : Nat :=
  (hash key).toNat % self.peers.length

def KvProxy.target (self : KvProxy) (hash : Bytes → UInt64) (key : Bytes) : Bytes :=
  (self.senders.getD (self.getPeerIndex hash key) {}).server

/-- What the forwarding path meets: what fiber_start_urgent returns (0 when the
fiber runs), and how each attempt of the retry loop would end. -/
structure Forwarding where
  fiberStart : Int
  attempts : Nat → Attempt

/-- The branch that hands the call to a peer. The first component is the local
variable `rs`, which the lambda assigns when the fiber runs. -/
def KvProxy.forward (self : KvProxy) (method : Method) (index : Nat) (env : Forwarding)
    (response : KvResponse) : Status × KvResponse :=
  if env.fiberStart = 0 then
    let sent := (self.senders.getD index {}).sendRequest method.name response kRetryTimes
      env.attempts
    (sent.status,sent.response)
  -- run_urgent failed, so join is fiber_join of an id nothing set: taken to return
  else (.okStatus,response)

variable {σ : Type*} [LRUCache σ]

/-- set, get and remove. All three return OK whatever `rs` came to be. -/
def KvProxy.dispatch (self : KvProxy) (hash : Bytes → UInt64) (method : Method)
    (env : Forwarding) (request : KvRequest) (response : KvResponse) (cache : σ) :
    Status × KvResponse × σ :=
  let index := self.getPeerIndex hash request.key
  if some index = self.peerIndex then
    let out := Cache.run method request response cache
    (.okStatus,out.1,out.2)
  else
    let sent := self.forward method index env response
    (.okStatus,sent.2,cache)

def KvProxy.set (self : KvProxy) (hash : Bytes → UInt64) (env : Forwarding)
    (request : KvRequest) (response : KvResponse) (cache : σ) : Status × KvResponse × σ :=
  self.dispatch hash .set env request response cache
def KvProxy.get (self : KvProxy) (hash : Bytes → UInt64) (env : Forwarding)
    (request : KvRequest) (response : KvResponse) (cache : σ) : Status × KvResponse × σ :=
  self.dispatch hash .get env request response cache
def KvProxy.remove (self : KvProxy) (hash : Bytes → UInt64) (env : Forwarding)
    (request : KvRequest) (response : KvResponse) (cache : σ) : Status × KvResponse × σ :=
  self.dispatch hash .remove env request response cache

structure Controller where
  failed : Option Bytes := none
deriving DecidableEq

/-- KvServiceimpl::set, get and remove over what KvProxy returned; `describe` is
turbo::Status::to_string. -/
def KvServiceimpl.finish (describe : Status → Bytes) (rs : Status) : Controller :=
  if rs.ok then {} else { failed := some (describe rs) }

/-- What an RPC sends back: nothing when the controller has failed or the response
lacks a required field, since then melon fails the call. -/
def KvServiceimpl.wire (rs : Status) (response : KvResponse) : Option Reply :=
  if (KvServiceimpl.finish (fun _ => []) rs).failed = none then response.serialize else none

theorem wire_okStatus (response : KvResponse) :
    KvServiceimpl.wire .okStatus response = response.serialize :=
  if_pos rfl

theorem wire_parse {rs : Status} {response : KvResponse} {w : Reply}
    (h : KvServiceimpl.wire rs response = some w) : response = w.parse := by
  unfold KvServiceimpl.wire at h
  split at h
  · exact (KvResponse.serialize_eq_some response w).mp h
  · cases h

def KvProxy.Owns (self : KvProxy) (hash : Bytes → UInt64) (key : Bytes) : Prop :=
  some (self.getPeerIndex hash key) = self.peerIndex

instance (self : KvProxy) (hash : Bytes → UInt64) (key : Bytes) :
    Decidable (self.Owns hash key) := inferInstanceAs (Decidable (_ = _))

theorem dispatch_local {self : KvProxy} {hash : Bytes → UInt64} {request : KvRequest}
    (h : self.Owns hash request.key) (method : Method) (env : Forwarding)
    (response : KvResponse) (cache : σ) :
    self.dispatch hash method env request response cache =
      (.okStatus,Cache.run method request response cache) :=
  if_pos h

theorem dispatch_forward {self : KvProxy} {hash : Bytes → UInt64} {request : KvRequest}
    (h : ¬ self.Owns hash request.key) (method : Method) (env : Forwarding)
    (response : KvResponse) (cache : σ) :
    self.dispatch hash method env request response cache =
      (.okStatus,
        (self.forward method (self.getPeerIndex hash request.key) env response).2,cache) :=
  if_neg h

section Table
variable (hash : Bytes → UInt64) (address key : Bytes)

def slot : Nat := (hash key).toNat % (strSplit address).length

theorem slot_lt {localPeer : Bytes} (h : localPeer ∈ strSplit address) :
    slot hash address key < (strSplit address).length :=
  Nat.mod_lt _ (List.length_pos_of_mem h)

theorem tableOf_owns (localPeer : Bytes) :
    (tableOf address localPeer).Owns hash key ↔
      (strSplit address).idxOf localPeer = slot hash address key := by
  simp only [KvProxy.Owns, KvProxy.getPeerIndex, tableOf, slot, Option.some.injEq, eq_comm]

theorem tableOf_target {localPeer : Bytes} (h : localPeer ∈ strSplit address) :
    (strSplit address)[slot hash address key]? =
      some ((tableOf address localPeer).target hash key) := by
  have hlt := slot_lt hash address key h
  unfold slot at hlt ⊢
  simp [KvProxy.target, KvProxy.getPeerIndex, tableOf, List.getD, hlt]

end Table

end EaHalfHour.ProxyNode
