import Mathlib.Order.Nat
import Mathlib.Data.List.Basic
import Mathlib.Tactic.ByContra
import Mathlib.Tactic.Cases
import EaHalfHour.KvMessage

/-! halakv::RouterSender: one forwarded call and its retry loop. What melon does
with each attempt is a parameter. -/
namespace EaHalfHour.SendLoop
open KvMessage

/-- How one attempt ends: `Channel::Init` fails, `CallMethod` fails (and leaves
the response alone), or the peer replies. -/
inductive Attempt where
  | initFails
  | callFails
  | replies (reply : Reply)
deriving DecidableEq

inductive Action where
  | usleep (us : Int32)
  | channelInit (server : Bytes) (timeoutMs connectTimeoutMs : Int32)
  | callMethod (method : Method)
deriving DecidableEq

structure RouterSender where
  server : Bytes := []
  timeoutMs : Int32 := 300
  connectTimeoutMs : Int32 := 500
  betweenMetaConnectErrorMs : Int32 := 1000
deriving DecidableEq

def kRetryTimes : Int := 3

def RouterSender.init (self : RouterSender) (server : Bytes) : Status × RouterSender :=
  (.okStatus, { self with server })

/-- How one turn of the do-while loop leaves it: returned, or about to run the
body again with the counter raised. -/
inductive Turn where
  | done (status : Status) (response : KvResponse)
  | again (retryTime : Nat)

def deadlineMessage (retryTime : Nat) (retryTimes : Int) : Bytes :=
  text ("try times " ++ toString retryTime ++ " reach max_try " ++ toString retryTimes ++
    " and can not get response.")

/-- The rest of a turn once the attempt has ended. Both failure branches raise
the counter and `continue`, which jumps to the loop test. -/
def turn (retryTimes : Int) (response : KvResponse) (retryTime : Nat) : Attempt → Turn
  | .replies reply => .done .okStatus reply.parse
  | .initFails | .callFails =>
    if ((retryTime + 1 : Nat) : Int) < retryTimes then .again (retryTime + 1)
    else .done (.deadlineExceededError (deadlineMessage (retryTime + 1) retryTimes)) response

def Attempt.failed : Attempt → Bool
  | .replies _ => false
  | .initFails | .callFails => true

theorem failed_iff (a : Attempt) : a.failed = false ↔ ∃ w, a = .replies w := by
  cases a <;> simp [Attempt.failed]

theorem turn_failed (retryTimes : Int) (response : KvResponse) (retryTime : Nat)
    {a : Attempt} (h : a.failed = true) :
    turn retryTimes response retryTime a =
      if ((retryTime + 1 : Nat) : Int) < retryTimes then .again (retryTime + 1)
      else .done (.deadlineExceededError (deadlineMessage (retryTime + 1) retryTimes))
        response := by
  cases a with
  | replies reply => cases h
  | initFails => rfl
  | callFails => rfl

theorem turn_again {retryTimes : Int} {response : KvResponse} {retryTime next : Nat}
    {a : Attempt} (h : turn retryTimes response retryTime a = .again next) :
    next = retryTime + 1 ∧ ((retryTime + 1 : Nat) : Int) < retryTimes := by
  cases hf : a.failed with
  | false =>
    obtain ⟨w,rfl⟩ := (failed_iff a).mp hf
    cases h
  | true =>
    rw [turn_failed retryTimes response retryTime hf] at h
    by_cases hlt : ((retryTime + 1 : Nat) : Int) < retryTimes
    · rw [if_pos hlt] at h
      exact ⟨(Turn.again.inj h).symm,hlt⟩
    · rw [if_neg hlt] at h
      cases h

def RouterSender.actions (self : RouterSender) (method : Method) (retryTimes : Int)
    (retryTime : Nat) (a : Attempt) : List Action :=
  (if retryTime > 0 ∧ retryTimes > 0 then [.usleep (1000 * self.betweenMetaConnectErrorMs)]
    else []) ++
  .channelInit self.server self.timeoutMs self.connectTimeoutMs ::
  (match a with | .initFails => [] | .callFails | .replies _ => [.callMethod method])

structure Sent where
  status : Status
  response : KvResponse
  actions : List Action
deriving DecidableEq

/-- The loop, entered with the counter at `retryTime`; `attempts` are the
outcomes of the attempts still to come. -/
def RouterSender.sendLoop (self : RouterSender) (method : Method) (retryTimes : Int)
    (response : KvResponse) (attempts : Nat → Attempt) (retryTime : Nat) : Sent :=
  match _h : turn retryTimes response retryTime (attempts 0) with
  | .done status response =>
    ⟨status,response,self.actions method retryTimes retryTime (attempts 0)⟩
  | .again next =>
    let rest := self.sendLoop method retryTimes response (fun n => attempts (n + 1)) next
    ⟨rest.status,rest.response,
      self.actions method retryTimes retryTime (attempts 0) ++ rest.actions⟩
termination_by (retryTimes - retryTime).toNat
decreasing_by
  obtain ⟨rfl,hlt⟩ := turn_again _h
  omega

/-- `KvService::descriptor()->FindMethodByName`. -/
def findMethodByName (name : Bytes) : Option Method :=
  [Method.set,Method.get,Method.remove].find? fun m => decide (m.name = name)

theorem findMethodByName_name (m : Method) : findMethodByName m.name = some m := by
  cases m <;> decide

def RouterSender.sendRequest (self : RouterSender) (serviceName : Bytes)
    (response : KvResponse) (retryTimes : Int) (attempts : Nat → Attempt) : Sent :=
  match findMethodByName serviceName with
  | none =>
    ⟨.invalidArgumentError (text "service name not exist, service:" ++ serviceName),response,[]⟩
  | some method => self.sendLoop method retryTimes response attempts 0

section Loop
variable (self : RouterSender) (method : Method) (retryTimes : Int) (response : KvResponse)

theorem sendLoop_done (attempts : Nat → Attempt) (retryTime : Nat) {status : Status}
    {r : KvResponse} (h : turn retryTimes response retryTime (attempts 0) = .done status r) :
    self.sendLoop method retryTimes response attempts retryTime =
      ⟨status,r,self.actions method retryTimes retryTime (attempts 0)⟩ := by
  rw [RouterSender.sendLoop]
  split <;> simp_all

theorem sendLoop_again (attempts : Nat → Attempt) (retryTime : Nat) {next : Nat}
    (h : turn retryTimes response retryTime (attempts 0) = .again next) :
    self.sendLoop method retryTimes response attempts retryTime =
      ⟨(self.sendLoop method retryTimes response (fun n => attempts (n + 1)) next).status,
        (self.sendLoop method retryTimes response (fun n => attempts (n + 1)) next).response,
        self.actions method retryTimes retryTime (attempts 0) ++
        (self.sendLoop method retryTimes response (fun n => attempts (n + 1)) next).actions⟩ := by
  rw [RouterSender.sendLoop]
  split <;> simp_all

/-- An attempt that the loop still has tries for: the body always runs once. -/
def Allowed (retryTimes : Int) (retryTime j : Nat) : Prop :=
  j = 0 ∨ ((retryTime + j : Nat) : Int) < retryTimes

def Sent.after (before : List Action) (sent : Sent) : Sent :=
  { sent with actions := before ++ sent.actions }

theorem sendLoop_failures (attempts : Nat → Attempt) (retryTime j : Nat)
    (hj : Allowed retryTimes retryTime j) (hfail : ∀ i < j, (attempts i).failed = true) :
    self.sendLoop method retryTimes response attempts retryTime =
      (self.sendLoop method retryTimes response (fun n => attempts (n + j)) (retryTime + j)).after
        ((List.range j).flatMap fun i =>
          self.actions method retryTimes (retryTime + i) (attempts i)) := by
  induction j generalizing attempts retryTime with
  | zero => simp [Sent.after]
  | succ j ih =>
    have hlt : ((retryTime + (j + 1) : Nat) : Int) < retryTimes := hj.resolve_left (by omega)
    have hagain : turn retryTimes response retryTime (attempts 0) = .again (retryTime + 1) := by
      rw [turn_failed _ _ _ (hfail 0 (by omega)),if_pos (by omega)]
    have hrest := ih (fun n => attempts (n + 1)) (retryTime + 1) (Or.inr (by omega))
      (fun i hi => hfail (i + 1) (by omega))
    rw [sendLoop_again (h := hagain), hrest]
    have hsum : ∀ i, retryTime + 1 + i = retryTime + (i + 1) := fun i => by omega
    simp [Sent.after, List.range_succ_eq_map, List.flatMap_map, hsum, Nat.add_assoc]

theorem sendLoop_first_reply (attempts : Nat → Attempt) (retryTime j : Nat) (w : Reply)
    (hj : Allowed retryTimes retryTime j) (hfail : ∀ i < j, (attempts i).failed = true)
    (hw : attempts j = .replies w) :
    (self.sendLoop method retryTimes response attempts retryTime).status = .okStatus ∧
    (self.sendLoop method retryTimes response attempts retryTime).response = w.parse := by
  have hdone : turn retryTimes response (retryTime + j) (attempts (0 + j)) =
      .done .okStatus w.parse := by
    rw [Nat.zero_add, hw]
    rfl
  rw [sendLoop_failures self method retryTimes response attempts retryTime j hj hfail, Sent.after,
    sendLoop_done (h := hdone)]
  exact ⟨rfl,rfl⟩

theorem sendLoop_all_failed (attempts : Nat → Attempt) (retryTime : Nat)
    (hfail : ∀ j, Allowed retryTimes retryTime j → (attempts j).failed = true) :
    (self.sendLoop method retryTimes response attempts retryTime).status.code
      = .kDeadlineExceeded ∧
    (self.sendLoop method retryTimes response attempts retryTime).response = response := by
  have h0 := hfail 0 (Or.inl rfl)
  by_cases hlt : ((retryTime + 1 : Nat) : Int) < retryTimes
  · have hagain : turn retryTimes response retryTime (attempts 0) = .again (retryTime + 1) := by
      rw [turn_failed _ _ _ h0,if_pos hlt]
    have hrest := sendLoop_all_failed (fun n => attempts (n + 1)) (retryTime + 1) fun j hj =>
      hfail (j + 1) (Or.inr (by rcases hj with rfl | hj <;> omega))
    rw [sendLoop_again (h := hagain)]
    exact hrest
  · have hdone : turn retryTimes response retryTime (attempts 0) = .done
        (.deadlineExceededError (deadlineMessage (retryTime + 1) retryTimes)) response := by
      rw [turn_failed _ _ _ h0,if_neg hlt]
    rw [sendLoop_done (h := hdone)]
    exact ⟨rfl,rfl⟩
termination_by (retryTimes - retryTime).toNat

theorem exists_first_reply {attempts : Nat → Attempt} {retryTime : Nat}
    (h : ∃ j, Allowed retryTimes retryTime j ∧ (attempts j).failed = false) :
    ∃ j w, Allowed retryTimes retryTime j ∧ (∀ i < j, (attempts i).failed = true) ∧
      attempts j = .replies w := by
  obtain ⟨n,hn,hw⟩ := h
  have hex : ∃ j, (attempts j).failed = false := ⟨n,hw⟩
  obtain ⟨w,hr⟩ := (failed_iff _).mp (Nat.find_spec hex)
  refine ⟨Nat.find hex,w,?_,?_,hr⟩
  · have hle : Nat.find hex ≤ n := Nat.find_min' hex hw
    rcases hn with rfl | hn
    · exact Or.inl (by omega)
    · exact Or.inr (by omega)
  · intro i hi
    simpa using Nat.find_min hex hi

end Loop

def Action.opens : Action → Bool
  | .channelInit _ _ _ => true
  | .usleep _ | .callMethod _ => false

def Action.waits : Action → Bool
  | .usleep _ => true
  | .channelInit _ _ _ | .callMethod _ => false

section Attempts
variable (self : RouterSender) (method : Method) (attempts : Nat → Attempt)

def RouterSender.attemptActions (a : Attempt) : List Action :=
  .channelInit self.server self.timeoutMs self.connectTimeoutMs ::
    match a with
    | .initFails => []
    | .callFails | .replies _ => [.callMethod method]

def RouterSender.trace (n : Nat) : List Action :=
  [Action.usleep (1000 * self.betweenMetaConnectErrorMs)].intercalate
    ((List.range n).map fun i => self.attemptActions method (attempts i))

theorem intercalate_singleton_cons {α : Type*} (x : α) (l : List α) (ls : List (List α)) :
    [x].intercalate (l :: ls) = l ++ ls.flatMap fun l' => x :: l' := by
  induction ls generalizing l with
  | nil => simp
  | cons l' ls ih => simp [ih]

theorem trace_eq_actions (retryTimes : Int) (n : Nat) (hn : Allowed retryTimes 0 n) :
    ((List.range (n + 1)).flatMap fun i =>
      self.actions method retryTimes (0 + i) (attempts i)) = self.trace method attempts (n + 1) := by
  have hfirst : self.actions method retryTimes (0 + 0) (attempts 0) =
      self.attemptActions method (attempts 0) := by
    simp [RouterSender.actions, RouterSender.attemptActions]
  have hnext : ∀ i ∈ List.range n, self.actions method retryTimes (0 + (i + 1)) (attempts (i + 1))
      = .usleep (1000 * self.betweenMetaConnectErrorMs) ::
        self.attemptActions method (attempts (i + 1)) := by
    intro i hi
    have hpos : retryTimes > 0 := by
      have hin := List.mem_range.mp hi
      have hlt := hn.resolve_left (by omega)
      omega
    simp [RouterSender.actions, RouterSender.attemptActions, hpos]
  rw [RouterSender.trace, List.range_succ_eq_map, List.flatMap_cons, List.flatMap_map, hfirst,
    List.map_cons, List.map_map, intercalate_singleton_cons, List.flatMap_map]
  exact congrArg _ (List.flatMap_congr hnext)

theorem trace_counts (n : Nat) :
    (self.trace method attempts n).countP Action.opens = n ∧
    (self.trace method attempts n).countP Action.waits = n - 1 := by
  cases n with
  | zero => exact ⟨rfl,rfl⟩
  | succ n =>
    have hattempt : ∀ a : Attempt, (self.attemptActions method a).countP Action.opens = 1 ∧
        (self.attemptActions method a).countP Action.waits = 0 := by
      intro a
      cases a <;> exact ⟨rfl,rfl⟩
    rw [RouterSender.trace, List.range_succ_eq_map, List.map_cons, List.map_map,
      intercalate_singleton_cons, List.flatMap_map]
    constructor
    · simp [List.countP_flatMap, hattempt, Function.comp_def, Action.opens, List.map_const',
        Nat.add_comm]
    · simp [List.countP_flatMap, List.countP_cons, hattempt, Function.comp_def, Action.waits,
        List.map_const']

variable (response : KvResponse)

/-- Result and attempts of the loop. The first success among the attempts it has
tries for is returned, with no attempt after it; failing that the loop gives up after
`max 1 retryTimes` attempts. A name that is not a method is refused at once. Between
two attempts it waits, and nowhere else. -/
theorem sendRequest_attempts (retryTimes : Int) :
    (∀ j w, ((j + 1 : Nat) : Int) ≤ max 1 retryTimes →
      (∀ i < j, (attempts i).failed = true) → attempts j = .replies w →
      self.sendRequest method.name response retryTimes attempts =
        ⟨.okStatus,w.parse,self.trace method attempts (j + 1)⟩) ∧
    ((∀ j : Nat, ((j + 1 : Nat) : Int) ≤ max 1 retryTimes → (attempts j).failed = true) →
      self.sendRequest method.name response retryTimes attempts =
        ⟨.deadlineExceededError (deadlineMessage (max 1 retryTimes).toNat retryTimes),response,
          self.trace method attempts (max 1 retryTimes).toNat⟩) ∧
    (∀ n, (self.trace method attempts n).countP Action.opens = n ∧
      (self.trace method attempts n).countP Action.waits = n - 1) ∧
    ∀ name, (∀ m : Method, m.name ≠ name) →
      self.sendRequest name response retryTimes attempts =
        ⟨.invalidArgumentError (text "service name not exist, service:" ++ name),response,[]⟩ := by
  have hstart : self.sendRequest method.name response retryTimes attempts =
      self.sendLoop method retryTimes response attempts 0 := by
    simp only [RouterSender.sendRequest, findMethodByName_name]
  refine ⟨fun j w hj hfail hw => ?_,fun hfail => ?_,trace_counts self method attempts,
    fun name hname => ?_⟩
  · have hallowed : Allowed retryTimes 0 j := by
      unfold Allowed
      omega
    have hdone : turn retryTimes response (0 + j) (attempts (0 + j)) = .done .okStatus w.parse := by
      rw [Nat.zero_add, hw]
      rfl
    rw [hstart, sendLoop_failures self method retryTimes response attempts 0 j hallowed hfail,
      sendLoop_done (h := hdone), ← trace_eq_actions self method attempts retryTimes j hallowed,
      List.range_succ, List.flatMap_append]
    simp [Sent.after]
  · obtain ⟨n,hn⟩ : ∃ n : Nat, max 1 retryTimes = ((n + 1 : Nat) : Int) :=
      ⟨(max 1 retryTimes).toNat - 1,by omega⟩
    have hallowed : Allowed retryTimes 0 n := by
      unfold Allowed
      omega
    have hlast : ¬ ((0 + n + 1 : Nat) : Int) < retryTimes := by omega
    have hdone : turn retryTimes response (0 + n) (attempts (0 + n)) =
        .done (.deadlineExceededError (deadlineMessage (0 + n + 1) retryTimes)) response := by
      rw [turn_failed _ _ _ (hfail (0 + n) (by omega)),if_neg hlast]
    rw [hstart, hn, Int.toNat_natCast,
      sendLoop_failures self method retryTimes response attempts 0 n hallowed
        (fun i hi => hfail i (by omega)),
      sendLoop_done (h := hdone), ← trace_eq_actions self method attempts retryTimes n hallowed,
      List.range_succ, List.flatMap_append]
    simp [Sent.after]
  · have hnone : findMethodByName name = none := by
      rw [findMethodByName, List.find?_eq_none]
      intro m _
      simpa using hname m
    rw [RouterSender.sendRequest, hnone]

end Attempts

end EaHalfHour.SendLoop
