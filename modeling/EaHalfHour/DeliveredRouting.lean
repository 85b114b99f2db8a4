import EaHalfHour.ProxyNode
import EaHalfHour.ForwardGraph

/-! A cluster of a010 processes whose RPCs are all delivered: where a request is
executed, from each entry node, for any peers flag each process was given. -/
namespace EaHalfHour.DeliveredRouting
open KvMessage KvCache SendLoop ProxyNode ForwardGraph

/-- The running processes: `peersFlag a` is the --peers flag of the process whose
--local_peer is `a`. A process runs only when its initialize returned OK. -/
structure Cluster where
  peersFlag : Bytes → Option Bytes
  initialized : ∀ a flag, peersFlag a = some flag →
    ( KvProxy.initialize {} flag a).1.ok = true

namespace Cluster

/-- What main leaves running: a process whose initialize fails exits. -/
def launch (flags : Bytes → Option Bytes) : Cluster where
  peersFlag a := (flags a).filter fun flag => ( KvProxy.initialize {} flag a).1.ok
  initialized := by
    intro a flag h
    exact (Option.filter_eq_some_iff.mp h).2

variable (c : Cluster) (hash : Bytes → UInt64) (key : Bytes)

def proxy (a : Bytes) : Option KvProxy :=
  (c.peersFlag a).map fun flag => ( KvProxy.initialize {} flag a).2

theorem mem_of_flag {c : Cluster} {a flag : Bytes} (h : c.peersFlag a = some flag) :
    a ∈ strSplit flag :=
  (initialize_ok_iff {} flag a).mp (c.initialized a flag h)

theorem proxy_of_flag {c : Cluster} {a flag : Bytes} (h : c.peersFlag a = some flag) :
    c.proxy a = some (tableOf flag a) := by
  rw [proxy, h, Option.map_some, initialize_of_mem {} (mem_of_flag h)]

theorem flag_of_proxy {c : Cluster} {a : Bytes} {p : KvProxy} (h : c.proxy a = some p) :
    ∃ flag, c.peersFlag a = some flag ∧ p = tableOf flag a := by
  obtain ⟨flag,hflag,-⟩ := Option.map_eq_some_iff.mp h
  rw [proxy_of_flag hflag] at h
  exact ⟨flag,hflag,(Option.some.inj h).symm⟩

def everyPeer (address : Bytes) : Cluster :=
  launch fun a => if a ∈ strSplit address then some address else none

theorem everyPeer_shared (address : Bytes) :
    ∀ a flag, (everyPeer address).peersFlag a = some flag → flag = address := by
  intro a flag h
  have hflag : (if a ∈ strSplit address then some address else none) = some flag :=
    (Option.filter_eq_some_iff.mp h).1
  by_cases ha : a ∈ strSplit address
  · rw [if_pos ha] at hflag
    exact (Option.some.inj hflag).symm
  · rw [if_neg ha] at hflag
    cases hflag

theorem everyPeer_running (address : Bytes) :
    ∀ a ∈ strSplit address, ((everyPeer address).proxy a).isSome := by
  intro a ha
  have hflag : (everyPeer address).peersFlag a = some address :=
    Option.filter_eq_some_iff.mpr ⟨if_pos ha,(initialize_ok_iff {} address a).mpr ha⟩
  rw [proxy_of_flag hflag]
  rfl

inductive Hop where
  | executes
  | forwards (peer : Bytes)
deriving DecidableEq

def next (a : Bytes) : Option Hop :=
  (c.proxy a).map fun p =>
    if p.Owns hash key then .executes else .forwards (p.target hash key)

inductive Chain : Bytes → List Bytes → Bytes → Prop where
  | here {a : Bytes} : c.next hash key a = some .executes → Chain a [] a
  | hop {a b : Bytes} {path : List Bytes} {d : Bytes} :
      c.next hash key a = some (.forwards b) → Chain b path d → Chain a (b :: path) d

variable {σ : Type} [LRUCache σ]

/-- KvProxy of the process at `a`, with RPCs nested at most `n` deep: a forwarded
call is KvServiceimpl at the peer, with a fresh response, and its reply is the
outcome of the first attempt. -/
def call (method : Method) : Nat → Bytes → KvRequest → KvResponse →
    StateT (Bytes → σ) Option (Status × KvResponse)
  | 0, _, _, _ => fun _ => none
  | n + 1, a, request, response => fun caches =>
    match c.proxy a with
    | none => none
    | some p =>
      if p.Owns hash request.key then
        let out := p.dispatch hash method ⟨0,fun _ => .callFails⟩ request response (caches a)
        some ((out.1,out.2.1),Function.update caches a out.2.2)
      else
        match call method n (p.target hash request.key) request {} caches with
        | none => none
        | some ((rs,reply),caches) =>
          match KvServiceimpl.wire rs reply with
          | none => none
          | some w =>
            let out := p.dispatch hash method ⟨0,fun _ => .replies w⟩ request response
              (caches a)
            some ((out.1,out.2.1),caches)

section Chains
variable {c hash key}

theorem next_executes {a : Bytes} (h : c.next hash key a = some .executes) :
    ∃ p, c.proxy a = some p ∧ p.Owns hash key := by
  obtain ⟨p,hp,hh⟩ := Option.map_eq_some_iff.mp h
  by_cases hown : p.Owns hash key
  · exact ⟨p,hp,hown⟩
  · rw [if_neg hown] at hh
    cases hh

theorem next_forwards {a b : Bytes} (h : c.next hash key a = some (.forwards b)) :
    ∃ p, c.proxy a = some p ∧ ¬ p.Owns hash key ∧ p.target hash key = b := by
  obtain ⟨p,hp,hh⟩ := Option.map_eq_some_iff.mp h
  by_cases hown : p.Owns hash key
  · rw [if_pos hown] at hh
    cases hh
  · rw [if_neg hown] at hh
    exact ⟨p,hp,hown,Hop.forwards.inj hh⟩

theorem Chain.unique {a d d' : Bytes} {path path' : List Bytes}
    (h : c.Chain hash key a path d) (h' : c.Chain hash key a path' d') :
    path = path' ∧ d = d' := by
  induction h generalizing path' with
  | here hnext =>
    cases h' with
    | here => exact ⟨rfl,rfl⟩
    | hop hnext' =>
      rw [hnext] at hnext'
      cases hnext'
  | hop hnext _ ih =>
    cases h' with
    | here hnext' =>
      rw [hnext] at hnext'
      cases hnext'
    | hop hnext' hrest =>
      rw [hnext] at hnext'
      obtain rfl := Hop.forwards.inj (Option.some.inj hnext')
      obtain ⟨rfl,rfl⟩ := ih hrest
      exact ⟨rfl,rfl⟩

theorem Chain.running {a d : Bytes} {path : List Bytes} (h : c.Chain hash key a path d) :
    (c.proxy a).isSome := by
  have hnext : ∃ hop, c.next hash key a = some hop := by
    cases h with
    | here hnext => exact ⟨_,hnext⟩
    | hop hnext => exact ⟨_,hnext⟩
  obtain ⟨hop,hhop⟩ := hnext
  obtain ⟨p,hp,-⟩ := Option.map_eq_some_iff.mp hhop
  rw [hp]
  rfl

theorem not_chain_of_closed {S : Bytes → Prop}
    (hclosed : ∀ a, S a → ∃ b, S b ∧ c.next hash key a = some (.forwards b)) {a d : Bytes}
    {path : List Bytes} (ha : S a) : ¬ c.Chain hash key a path d := by
  intro h
  induction h with
  | here hnext =>
    obtain ⟨b,-,hfwd⟩ := hclosed _ ha
    rw [hnext] at hfwd
    cases hfwd
  | hop hnext _ ih =>
    obtain ⟨b,hb,hfwd⟩ := hclosed _ ha
    rw [hnext] at hfwd
    obtain rfl := Hop.forwards.inj (Option.some.inj hfwd)
    exact ih hb

/-- A chain that ends is a call that returns: the last node's cache runs the
request, no other cache changes, and every caller gets that answer. -/
theorem call_of_chain {a d : Bytes} {path : List Bytes} (h : c.Chain hash key a path d)
    (method : Method) (request : KvRequest) (hkey : request.key = key) (caches : Bytes → σ)
    {n : Nat} (hn : path.length < n) :
    c.call hash method n a request {} caches =
      some ((.okStatus,(Cache.run method request {} (caches d)).1),
        Function.update caches d (Cache.run method request {} (caches d)).2) := by
  subst hkey
  induction h generalizing n with
  | here hnext =>
    obtain ⟨p,hp,hown⟩ := next_executes hnext
    cases n with
    | zero => cases hn
    | succ n => simp only [call, hp, if_pos hown, dispatch_local hown]
  | hop hnext _ ih =>
    obtain ⟨p,hp,hown,rfl⟩ := next_forwards hnext
    cases n with
    | zero => cases hn
    | succ n =>
      rename_i d _
      have hrest := ih (n := n) (by simpa using hn)
      obtain ⟨w,hw⟩ := (KvResponse.isInitialized_iff _).mp
        (Cache.run_isInitialized method request {} (caches d))
      have hser := (KvResponse.serialize_eq_some _ w).mpr hw
      simp only [call, hp, if_neg hown, hrest, wire_okStatus, hser, dispatch_forward hown,
        KvProxy.forward, RouterSender.sendRequest, findMethodByName_name]
      have hdone : turn kRetryTimes {} 0 (.replies w) = .done .okStatus w.parse := rfl
      rw [sendLoop_done (h := hdone), ← hw]
      rfl

theorem chain_of_call {method : Method} {n : Nat} {a : Bytes} {request : KvRequest}
    {response : KvResponse} {caches : Bytes → σ} {out : (Status × KvResponse) × (Bytes → σ)}
    (h : c.call hash method n a request response caches = some out) :
    ∃ path d, c.Chain hash request.key a path d ∧ path.length < n := by
  induction n generalizing a response out with
  | zero => cases h
  | succ n ih =>
    rw [call] at h
    cases hp : c.proxy a with
    | none => simp [hp] at h
    | some p =>
      by_cases hown : p.Owns hash request.key
      · exact ⟨[],a,Chain.here (by simp [next, hp, hown]),Nat.succ_pos n⟩
      · simp only [hp, if_neg hown] at h
        cases hrest : c.call hash method n (p.target hash request.key) request {} caches with
        | none => simp [hrest] at h
        | some out' =>
          obtain ⟨path,d,hchain,hlen⟩ := ih hrest
          exact ⟨_ :: path,d,Chain.hop (by simp [next, hp, hown]) hchain,
            Nat.succ_lt_succ hlen⟩

end Chains

end Cluster

end EaHalfHour.DeliveredRouting
