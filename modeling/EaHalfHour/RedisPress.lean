import EaHalfHour.DecimalText
import EaHalfHour.RedisStore

/-! The press of the redis example: what it sets, what its threads then get, and the
checks it makes, when several presses and other clients share one server. -/
namespace EaHalfHour.RedisPress
open LabelledRun AtomicObject KvMessage RedisStore DecimalText

structure Flags where
  key : Bytes := text "hello"
  value : Bytes := text "world"
  threadNum : Int32 := 50
  batch : Int32 := 1
  dontFail : Bool := false
deriving DecidableEq

inductive Outcome where
  | returns (code : Int)
  | aborts
  | goesOn
deriving DecidableEq

/-- `data()` of a reply: a text that is neither a string nor a status has none. -/
def data : RedisReply → Bytes
  | .string value => value
  | .status message => message
  | .error _ | .nil => []

namespace Flags
variable (flags : Flags)

def numbered (name : Bytes) (i : Nat) : Bytes := name ++ 95 :: padded 4 i

def storedKey (i : Nat) : Bytes := numbered flags.key i

def storedValue (i : Nat) : Bytes := numbered flags.value i

def setCommand (i : Nat) : Command := ⟨.set,[text "SET",flags.storedKey i,flags.storedValue i]⟩

def getCommand (i : Nat) : Command := ⟨.get,[text "GET",flags.storedKey i]⟩

/-- How often a loop runs whose bound is this product of ints. -/
def count : Nat := (flags.batch * flags.threadNum).toNatClampNeg

/-- `base_index + i`, where the base index is `thread * batch`. -/
def index (thread i : Nat) : Nat :=
  (Int32.ofNat thread * flags.batch + Int32.ofNat i).toNatClampNeg

def setup : List Command := (List.range flags.count).map flags.setCommand

def request (thread : Nat) : List Command :=
  (List.range flags.batch.toNatClampNeg).map fun i => flags.getCommand (flags.index thread i)

def afterSetup : Option (List RedisReply) → Outcome
  | none => .returns (-1)
  | some replies =>
    if replies.length ≠ flags.count then .returns (-1)
    else if replies.map data = (List.range flags.count).map fun _ => text "OK" then .goesOn
    else .aborts

def afterRequest (thread : Nat) (quitting : Bool) : Option (List RedisReply) → Outcome
  | none => if quitting || !flags.dontFail then .goesOn else .aborts
  | some replies =>
    if replies.length ≠ flags.batch.toNatClampNeg then .aborts
    else if replies.map data = (List.range flags.batch.toNatClampNeg).map fun i =>
      flags.storedValue (flags.index thread i) then .goesOn
    else .aborts

structure Fits : Prop where
  batch : 0 ≤ flags.batch
  threadNum : 0 ≤ flags.threadNum
  product : flags.batch.toNatClampNeg * flags.threadNum.toNatClampNeg < 2^31

variable {flags}

theorem Fits.count_eq (h : flags.Fits) :
    flags.count = flags.batch.toNatClampNeg * flags.threadNum.toNatClampNeg := by
  have hproduct : flags.batch * flags.threadNum =
      Int32.ofNat (flags.batch.toNatClampNeg * flags.threadNum.toNatClampNeg) := by
    rw [Int32.ofNat_mul, Int32.ofNat_toNatClampNeg _ h.batch,
      Int32.ofNat_toNatClampNeg _ h.threadNum]
  rw [count, hproduct, Int32.toNatClampNeg_ofNat_of_lt h.product]

theorem Fits.index_lt (h : flags.Fits) {thread i : Nat}
    (hthread : thread < flags.threadNum.toNatClampNeg) (hi : i < flags.batch.toNatClampNeg) :
    flags.index thread i < flags.count := by
  have hbound : thread * flags.batch.toNatClampNeg + i < flags.count := by
    rw [h.count_eq]
    calc thread * flags.batch.toNatClampNeg + i
      _ < thread * flags.batch.toNatClampNeg + flags.batch.toNatClampNeg :=
          Nat.add_lt_add_left hi _
      _ = (thread + 1) * flags.batch.toNatClampNeg := (Nat.succ_mul ..).symm
      _ ≤ flags.threadNum.toNatClampNeg * flags.batch.toNatClampNeg :=
          Nat.mul_le_mul_right _ hthread
      _ = flags.batch.toNatClampNeg * flags.threadNum.toNatClampNeg := Nat.mul_comm ..
  have hindex : Int32.ofNat thread * flags.batch + Int32.ofNat i =
      Int32.ofNat (thread * flags.batch.toNatClampNeg + i) := by
    rw [Int32.ofNat_add, Int32.ofNat_mul, Int32.ofNat_toNatClampNeg _ h.batch]
  rw [index, hindex, Int32.toNatClampNeg_ofNat_of_lt]
  · exact hbound
  · exact Nat.lt_trans hbound (h.count_eq ▸ h.product)

end Flags

theorem numbered_injective {a b : Bytes} {i j : Nat}
    (h : Flags.numbered a i = Flags.numbered b j) : a = b ∧ i = j := by
  have hsep : ∀ n, (95 : UInt8) ∉ padded 4 n := fun n hmem => by
    have hdigit := isDigit_padded 4 n 95 hmem
    revert hdigit
    decide
  obtain ⟨hname,hnumber⟩ := append_sep_inj (hsep i) (hsep j) h
  exact ⟨hname,padded_injective hnumber⟩

section Server
variable {κ : Type*} [DecidableEq κ] {crc32c : Bytes → UInt32} {presses : List Flags}
  {u v : List (Label κ)} {m s : State κ}

/-- Each press has keys of its own, and nobody else sets them. Whose commands come in
how often and in which order is left open. -/
structure Pressed (presses : List Flags) (es : List (Label κ)) : Prop where
  keys : (presses.map Flags.key).Nodup
  sets : ∀ id c, .arrive id c ∈ es → (∃ p ∈ presses, ∃ i, c = p.setCommand i) ∨
    ∀ p ∈ presses, ∀ i, c.sets (p.storedKey i) = none

/-- The commands came in after the one moment, and were answered by the other. -/
def Answered (m s : State κ) (cs : List Command) (xs : List (κ × RedisReply)) : Prop :=
  List.Forall₂ (fun c x => m.calls x.1 = none ∧ s.calls x.1 = some ⟨c,.replied x.2⟩) cs xs

omit [DecidableEq κ] in
theorem Pressed.sets_own {es : List (Label κ)} (h : Pressed presses es) {p : Flags}
    (hp : p ∈ presses) {id : κ} {c : Command} (hc : .arrive id c ∈ es) {i : Nat} {value : Bytes}
    (hsets : c.sets (p.storedKey i) = some value) : value = p.storedValue i := by
  rcases h.sets id c hc with ⟨q,hq,j,rfl⟩ | hnone
  · have hstored : q.storedKey j = p.storedKey i ∧ q.storedValue j = value := by
      simpa [Flags.setCommand, Command.sets] using hsets
    obtain ⟨hkey,rfl⟩ := numbered_injective hstored.1
    obtain rfl := List.inj_on_of_nodup_map h.keys hq hp hkey
    exact hstored.2.symm
  · rw [hnone p hp i] at hsets
    cases hsets

theorem lastSet_constant {key value : Bytes} {cs : List Command}
    (hall : ∀ c ∈ cs, ∀ w, c.sets key = some w → w = value)
    (hone : ∃ c ∈ cs, c.sets key ≠ none) : lastSet key cs = some value := by
  unfold lastSet
  cases hlast : cs.reverse.findSome? fun c => c.sets key with
  | none =>
    obtain ⟨c,hc,hset⟩ := hone
    exact absurd (List.findSome?_eq_none_iff.mp hlast c (List.mem_reverse.mpr hc)) hset
  | some w =>
    obtain ⟨c,hc,hset⟩ := List.exists_of_findSome?_eq_some hlast
    rw [hall c (List.mem_reverse.mp hc) w hset]

theorem arrived_run (hrun : runFrom (step crc32c) .init u = some s) {id : κ} {call : Call}
    (hcall : s.calls id = some call) : .arrive id call.command ∈ u := by
  let P (es : List (Label κ)) (s : State κ) : Prop :=
    ∀ id call, s.calls id = some call → .arrive id call.command ∈ es
  refine run_invariant (P := P) (fun _ _ hcall => by cases hcall) ?_ u s hrun id call hcall
  intro es m e n hm hP hn id call hcall
  rw [List.mem_append]
  cases step_sound hn with
  | arrive =>
    rcases update_found hcall with ⟨rfl,rfl⟩ | ⟨-,hold⟩
    · exact Or.inr (List.mem_singleton_self _)
    · exact Or.inl (hP id call hold)
  | locked hm _ | refuse hm _ | reply hm =>
    rcases update_found hcall with ⟨rfl,rfl⟩ | ⟨-,hold⟩
    · have hold := hP _ _ hm
      exact Or.inl hold
    · exact Or.inl (hP id call hold)

theorem log_prefix (hrun : runFrom (step crc32c) m v = some s) : m.log <+: s.log := by
  refine run_invariant (P := fun _ s => m.log <+: s.log) (List.prefix_refl _) ?_ v s hrun
  intro _ n e n' _ hgrown hn
  cases step_sound hn with
  | arrive | refuse | reply => exact hgrown
  | locked => exact hgrown.trans (List.prefix_append _ _)

theorem explained_after (hu : runFrom (step crc32c) .init u = some m)
    (hv : runFrom (step crc32c) m v = some s) {id : κ} (hnone : m.calls id = none) {c : Command}
    {l r : List (κ × Command)} (hlog : s.log = l ++ (id,c) :: r) : m.log <+: l := by
  obtain ⟨w,hw⟩ := log_prefix hv
  have hnot : (id,c) ∉ m.log := by
    intro hmem
    obtain ⟨-,stage,hcall,-⟩ := (inv_run hu).logged id c hmem
    rw [hnone] at hcall
    cases hcall
  rcases List.append_eq_append_iff.mp (hw.trans hlog) with ⟨a,rfl,-⟩ | ⟨b,hb,hcons⟩
  · exact List.prefix_append _ _
  · cases b with
    | nil => rw [hb, List.append_nil]
    | cons x b =>
      obtain ⟨rfl,-⟩ := List.cons.inj hcons
      exact absurd (by rw [hb]; simp) hnot

theorem get_answered (hpressed : Pressed presses (u ++ v)) {p : Flags} (hp : p ∈ presses)
    (hu : runFrom (step crc32c) .init u = some m) (hv : runFrom (step crc32c) m v = some s)
    {i : Nat} {j id : κ} {r r' : RedisReply}
    (hset : m.calls j = some ⟨p.setCommand i,.replied r'⟩) (hnone : m.calls id = none)
    (hget : s.calls id = some ⟨p.getCommand i,.replied r⟩) : r = .string (p.storedValue i) := by
  have hrun : runFrom (step crc32c) .init (u ++ v) = some s :=
    (runFrom_append_iff _ _ u v).mpr ⟨m,hu,hv⟩
  have hi := inv_run hrun
  have hexplains : s.Explains id (p.getCommand i) r := by
    rcases hi.replied id _ r hget with ⟨himproper,-⟩ | ⟨-,hexplains⟩
    · exact absurd rfl himproper
    · exact hexplains
  have hstored : (j,p.setCommand i) ∈ m.log := by
    rcases (inv_run hu).replied j _ r' hset with ⟨himproper,-⟩ | ⟨-,l,w,hlog,-⟩
    · exact absurd rfl himproper
    · rw [hlog]
      simp
  obtain ⟨l,w,hlog,rfl⟩ := hexplains
  have hgrown := explained_after hu hv hnone hlog
  have hvalue : contents (l.map Prod.snd) (p.storedKey i) = some (p.storedValue i) := by
    rw [contents_eq_lastSet]
    refine lastSet_constant (fun c hc value hsets => ?_) ⟨p.setCommand i,?_,?_⟩
    · obtain ⟨⟨k,c⟩,hmem,rfl⟩ := List.mem_map.mp hc
      obtain ⟨-,stage,hcall,-⟩ := hi.logged k c (by rw [hlog]; simp [hmem])
      exact hpressed.sets_own hp (arrived_run hrun hcall) hsets
    · exact List.mem_map.mpr ⟨_,hgrown.subset hstored,rfl⟩
    · simp [Flags.setCommand, Command.sets]
  simp only [singleMap, Flags.getCommand, hvalue]

omit [DecidableEq κ] in
theorem Answered.replies {n : Nat} {command : Nat → Command} {xs : List (κ × RedisReply)}
    (h : Answered m s ((List.range n).map command) xs) {reply : Nat → RedisReply}
    (hreply : ∀ i < n, ∀ id r, m.calls id = none → s.calls id = some ⟨command i,.replied r⟩ →
      r = reply i) : xs.map Prod.snd = (List.range n).map reply := by
  have hbounded := (List.forall₂_and_left _ _).mpr
    ⟨fun i hi => List.mem_range.mp hi,List.forall₂_map_left_iff.mp h⟩
  have hequal : List.Forall₂ (fun x y => x = y) ((List.range n).map reply) (xs.map Prod.snd) := by
    rw [List.forall₂_map_left_iff, List.forall₂_map_right_iff]
    exact hbounded.imp fun i x hx => (hreply i hx.1 x.1 x.2 hx.2.1 hx.2.2).symm
  rw [List.forall₂_eq_eq_eq] at hequal
  exact hequal.symm

theorem set_answered (hrun : runFrom (step crc32c) .init u = some s) {p : Flags} {i : Nat} {id : κ}
    {r : RedisReply} (hset : s.calls id = some ⟨p.setCommand i,.replied r⟩) :
    r = .status (text "OK") := by
  rcases (inv_run hrun).replied id _ r hset with ⟨himproper,-⟩ | ⟨-,l,w,-,rfl⟩
  · exact absurd rfl himproper
  · rfl

omit [DecidableEq κ] in
theorem Answered.setup {p : Flags} {ys : List (κ × RedisReply)}
    (h : Answered m s p.setup ys) {i : Nat} (hi : i < p.count) :
    ∃ id r, s.calls id = some ⟨p.setCommand i,.replied r⟩ := by
  have hlength := List.Forall₂.length_eq h
  have hi' : i < p.setup.length := by simpa [Flags.setup] using hi
  have hget := List.Forall₂.get h hi' (by omega)
  exact ⟨(ys.get ⟨i,by omega⟩).1,(ys.get ⟨i,by omega⟩).2,by simpa [Flags.setup] using hget.2⟩

/-- Every check of what comes back passes, when the threads start after the setup was
answered; and only --dont_fail makes an RPC fatal that did not come back. -/
theorem checks_pass (hpressed : Pressed presses (u ++ v)) {p : Flags} (hp : p ∈ presses)
    (hfits : p.Fits) (hu : runFrom (step crc32c) .init u = some m)
    (hv : runFrom (step crc32c) m v = some s) {ys : List (κ × RedisReply)}
    (hsetup : Answered .init m p.setup ys) :
    p.afterSetup (some (ys.map Prod.snd)) = .goesOn ∧
      (∀ thread < p.threadNum.toNatClampNeg, ∀ quitting xs, Answered m s (p.request thread) xs →
        p.afterRequest thread quitting (some (xs.map Prod.snd)) = .goesOn) ∧
      ∀ thread quitting, p.afterRequest thread quitting none = .aborts ↔
        p.dontFail = true ∧ quitting = false := by
  refine ⟨?_,?_,?_⟩
  · rw [Answered.replies hsetup fun i _ id r _ hset => set_answered hu hset]
    simp [Flags.afterSetup, data]
  · intro thread hthread quitting xs hxs
    have hreply : ∀ i < p.batch.toNatClampNeg, ∀ id r, m.calls id = none →
        s.calls id = some ⟨p.getCommand (p.index thread i),.replied r⟩ →
        r = .string (p.storedValue (p.index thread i)) := by
      intro i hi id r hnone hget
      obtain ⟨j,r',hset⟩ := hsetup.setup (hfits.index_lt hthread hi)
      exact get_answered hpressed hp hu hv hset hnone hget
    rw [Answered.replies hxs hreply]
    simp [Flags.afterRequest, data, Function.comp_def]
  · intro thread quitting
    cases quitting <;> cases hfail : p.dontFail <;> simp [Flags.afterRequest, hfail]

end Server

def firstPress : Flags := { threadNum := 1 }
def secondPress : Flags := { key := text "a", value := text "b", threadNum := 1, batch := 2 }

def setZero : Command := ⟨.set,[text "SET",text "a_0000",text "b_0000"]⟩
def setOne : Command := ⟨.set,[text "SET",text "a_0001",text "b_0001"]⟩
def getZero : Command := ⟨.get,[text "GET",text "a_0000"]⟩
def getOne : Command := ⟨.get,[text "GET",text "a_0001"]⟩

theorem padded_four {n : Nat} (h : n < 10) : padded 4 n = [48,48,48,UInt8.ofNat (48+n)] := by
  rw [padded, digits, if_pos h]
  rfl

theorem secondPress_commands : secondPress.setCommand 0 = setZero ∧
    secondPress.setCommand 1 = setOne ∧ secondPress.getCommand 0 = getZero ∧
    secondPress.getCommand 1 = getOne := by
  have h0 := padded_four (show 0 < 10 by decide)
  have h1 := padded_four (show 1 < 10 by decide)
  simp only [Flags.setCommand, Flags.getCommand, Flags.storedKey, Flags.storedValue,
    Flags.numbered, h0, h1]
  decide

def setups : List (Label Nat) :=
  [.arrive 0 setZero,.arrive 1 setOne,.locked 1,
    .arrive 3 ⟨.set,[text "SET",text "a",text "x"]⟩,.locked 0,.reply 0,.reply 1]

def gets : List (Label Nat) :=
  [.locked 3,.arrive 4 getZero,.arrive 6 setOne,.arrive 5 getOne,.locked 5,.locked 6,.locked 4,
    .reply 4,.reply 5]

theorem pressed_gets : Pressed [firstPress,secondPress] (setups ++ gets) := by
  obtain ⟨hzero,hone,-,-⟩ := secondPress_commands
  have hplain : ∀ p i, Command.sets ⟨.set,[text "SET",text "a",text "x"]⟩ (Flags.storedKey p i) =
      none := by
    intro p i
    refine if_neg fun hkey => ?_
    have hsep : (95 : UInt8) ∈ text "a" := by
      rw [hkey]
      simp [Flags.storedKey, Flags.numbered]
    exact absurd hsep (by decide)
  refine ⟨by decide,fun id c hc => ?_⟩
  simp only [setups, gets, List.cons_append, List.nil_append, List.mem_cons, List.not_mem_nil,
    or_false, reduceCtorEq, false_or, Label.arrive.injEq] at hc
  rcases hc with ⟨-,rfl⟩ | ⟨-,rfl⟩ | ⟨-,rfl⟩ | ⟨-,rfl⟩ | ⟨-,rfl⟩ | ⟨-,rfl⟩
  · exact Or.inl ⟨secondPress,by simp,0,hzero.symm⟩
  · exact Or.inl ⟨secondPress,by simp,1,hone.symm⟩
  · exact Or.inr fun p _ i => hplain p i
  · exact Or.inr fun p _ i => rfl
  · exact Or.inl ⟨secondPress,by simp,1,hone.symm⟩
  · exact Or.inr fun p _ i => rfl

def afterSetups : State Nat := (runFrom (step fun _ => 0) .init setups).get (by decide)
def afterGets : State Nat := (runFrom (step fun _ => 0) afterSetups gets).get (by decide)

theorem checks_pass_gets :
    secondPress.afterSetup (some [.status (text "OK"),.status (text "OK")]) = .goesOn ∧
      secondPress.afterRequest 0 false (some [.string (text "b_0000"),.string (text "b_0001")]) =
        .goesOn ∧ secondPress.afterRequest 0 false none ≠ .aborts := by
  obtain ⟨hset₀,hset₁,hget₀,hget₁⟩ := secondPress_commands
  have hsetup : Answered .init afterSetups secondPress.setup
      [(0,.status (text "OK")),(1,.status (text "OK"))] :=
    .cons ⟨rfl,by rw [hset₀]; decide⟩ (.cons ⟨rfl,by rw [hset₁]; decide⟩ .nil)
  have hfirst : afterGets.calls 4 =
      some ⟨secondPress.getCommand 0,.replied (.string (text "b_0000"))⟩ := by
    rw [hget₀]
    decide
  have hsecond : afterGets.calls 5 =
      some ⟨secondPress.getCommand 1,.replied (.string (text "b_0001"))⟩ := by
    rw [hget₁]
    decide
  have hrequest : Answered afterSetups afterGets (secondPress.request 0)
      [(4,.string (text "b_0000")),(5,.string (text "b_0001"))] :=
    .cons ⟨by decide,hfirst⟩ (.cons ⟨by decide,hsecond⟩ .nil)
  have hpass := checks_pass pressed_gets (List.mem_cons_of_mem _ (List.mem_singleton_self _))
    ⟨by decide,by decide,by decide⟩ (Option.some_get (by decide)).symm
    (Option.some_get (by decide)).symm hsetup
  refine ⟨hpass.1,hpass.2.1 0 (by decide) false _ hrequest,fun habort => ?_⟩
  exact absurd ((hpass.2.2 0 false).mp habort).1 (by decide)

end EaHalfHour.RedisPress
