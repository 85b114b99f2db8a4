import Mathlib.Algebra.Group.Nat.Defs
import EaHalfHour.AtomicObject
import EaHalfHour.KvMessage
import EaHalfHour.SlottedMap

/-! The redis server of the melon examples: get and set over a store of 32 slots,
each with its own lock. One locked section is one step; any number of commands
are in progress at once. -/
namespace EaHalfHour.RedisStore
open LabelledRun AtomicObject KvMessage SlottedMap

def kHashSlotNum : Nat := 32

/-- `crc32c::Value(key) % kHashSlotNum`, with the checksum a parameter. -/
def slot (crc32c : Bytes → UInt32) (key : Bytes) : Fin kHashSlotNum :=
  ⟨(crc32c key).toNat % kHashSlotNum,Nat.mod_lt _ (by decide)⟩

structure RedisServiceImpl where
  map : Fin kHashSlotNum → Bytes → Option Bytes

namespace RedisServiceImpl

def empty : RedisServiceImpl := ⟨fun _ _ => none⟩

def set (crc32c : Bytes → UInt32) (self : RedisServiceImpl) (key value : Bytes) :
    RedisServiceImpl :=
  let slot := slot crc32c key
  ⟨Function.update self.map slot (Function.update (self.map slot) key (some value))⟩

/-- The section of Get that holds the slot's lock; none where it returns false. -/
def get (crc32c : Bytes → UInt32) (self : RedisServiceImpl) (key : Bytes) : Option Bytes :=
  self.map (slot crc32c key) key

theorem set_map (crc32c : Bytes → UInt32) (self : RedisServiceImpl) (key value : Bytes) :
    (self.set crc32c key value).map = put (slot crc32c) self.map key value := rfl

end RedisServiceImpl

inductive RedisReply where
  | error (message : Bytes)
  | status (message : Bytes)
  | string (value : Bytes)
  | nil
deriving DecidableEq

/-- `args.size()-1`, in size_t, as `%lu` prints it. -/
def argCount (args : List Bytes) : Bytes :=
  text (toString ((args.length + (2^64 - 1)) % 2^64))

inductive ServiceCall where
  | get (key : Bytes)
  | set (key value : Bytes)
deriving DecidableEq

def ServiceCall.locked (crc32c : Bytes → UInt32) (impl : RedisServiceImpl) :
    ServiceCall → Option Bytes × RedisServiceImpl
  | .get key => (impl.get crc32c key,impl)
  | .set key value => (none,impl.set crc32c key value)

/-! Run of the two handlers, cut where it calls the service: before the call it
checks the arguments, after it it writes the reply. -/

def GetCommandHandler.before (args : List Bytes) : Except Bytes ServiceCall :=
  if args.length ≠ 2 then .error (text "Expect 1 arg for 'get', actually " ++ argCount args)
  else .ok (.get (args.getD 1 []))

def GetCommandHandler.after : Option Bytes → RedisReply
  | some value => .string value
  | none => .nil

def SetCommandHandler.before (args : List Bytes) : Except Bytes ServiceCall :=
  if args.length ≠ 3 then .error (text "Expect 2 args for 'set', actually " ++ argCount args)
  else .ok (.set (args.getD 1 []) (args.getD 2 []))

def SetCommandHandler.after (_ : Option Bytes) : RedisReply := .status (text "OK")

inductive Handler where
  | get | set
deriving DecidableEq

structure Command where
  handler : Handler
  args : List Bytes
deriving DecidableEq

namespace Command

def before (c : Command) : Except Bytes ServiceCall :=
  match c.handler with
  | .get => GetCommandHandler.before c.args
  | .set => SetCommandHandler.before c.args

def after (c : Command) : Option Bytes → RedisReply :=
  match c.handler with
  | .get => GetCommandHandler.after
  | .set => SetCommandHandler.after

def Proper (c : Command) : Prop :=
  c.args.length = match c.handler with
    | .get => 2
    | .set => 3

instance (c : Command) : Decidable c.Proper := inferInstanceAs (Decidable (_ = _))

def complaint (c : Command) : Bytes :=
  match c.handler with
  | .get => text "Expect 1 arg for 'get', actually " ++ argCount c.args
  | .set => text "Expect 2 args for 'set', actually " ++ argCount c.args

theorem shape (c : Command) : (∃ name key, c = ⟨.get,[name,key]⟩) ∨
    (∃ name key value, c = ⟨.set,[name,key,value]⟩) ∨ ¬ c.Proper := by
  obtain ⟨handler,args⟩ := c
  by_cases h : Proper ⟨handler,args⟩
  · cases handler with
    | get =>
      obtain ⟨name,key,rfl⟩ := List.length_eq_two.mp h
      exact Or.inl ⟨name,key,rfl⟩
    | set =>
      obtain ⟨name,key,value,rfl⟩ := List.length_eq_three.mp h
      exact Or.inr (Or.inl ⟨name,key,value,rfl⟩)
  · exact Or.inr (Or.inr h)

theorem before_improper {c : Command} (h : ¬ c.Proper) : c.before = .error c.complaint := by
  obtain ⟨handler,args⟩ := c
  cases handler with
  | get => exact if_pos h
  | set => exact if_pos h

theorem before_proper {c : Command} (h : c.Proper) : ∃ call, c.before = .ok call := by
  rcases c.shape with ⟨name,key,rfl⟩ | ⟨name,key,value,rfl⟩ | himproper
  · exact ⟨.get key,rfl⟩
  · exact ⟨.set key value,rfl⟩
  · exact absurd h himproper

theorem proper_of_before {c : Command} {call : ServiceCall} (h : c.before = .ok call) :
    c.Proper := by
  by_contra himproper
  rw [before_improper himproper] at h
  cases h

theorem improper_of_before {c : Command} {message : Bytes} (h : c.before = .error message) :
    ¬ c.Proper ∧ message = c.complaint := by
  have himproper : ¬ c.Proper := by
    intro hproper
    obtain ⟨call,hcall⟩ := before_proper hproper
    rw [hcall] at h
    cases h
  rw [before_improper himproper] at h
  exact ⟨himproper,(Except.error.inj h).symm⟩

def sets (c : Command) (key : Bytes) : Option Bytes :=
  match c.handler,c.args with
  | .set,[_,k,value] => if k = key then some value else none
  | _,_ => none

theorem sets_improper {c : Command} (h : ¬ c.Proper) (key : Bytes) : c.sets key = none := by
  unfold sets
  split
  · rename_i hhandler hargs
    exact absurd (by simp [Proper, hhandler, hargs]) h
  · rfl

end Command

/-- One map without slots, as a client may picture the store. -/
def singleMap (c : Command) (m : Bytes → Option Bytes) :
    RedisReply × (Bytes → Option Bytes) :=
  match c.handler,c.args with
  | .get,[_,key] =>
    match m key with
    | some value => (.string value,m)
    | none => (.nil,m)
  | .set,[_,key,value] => (.status (text "OK"),Function.update m key (some value))
  | .get,args => (.error (text "Expect 1 arg for 'get', actually " ++ argCount args),m)
  | .set,args => (.error (text "Expect 2 args for 'set', actually " ++ argCount args),m)

theorem singleMap_improper {c : Command} (h : ¬ c.Proper) (m : Bytes → Option Bytes) :
    singleMap c m = (.error c.complaint,m) := by
  obtain ⟨handler,args⟩ := c
  cases handler with
  | get =>
    match args with
    | [_,_] => exact absurd rfl h
    | [] | [_] | _ :: _ :: _ :: _ => rfl
  | set =>
    match args with
    | [_,_,_] => exact absurd rfl h
    | [] | [_] | [_,_] | _ :: _ :: _ :: _ :: _ => rfl

theorem singleMap_find (c : Command) (m : Bytes → Option Bytes) (key : Bytes) :
    (singleMap c m).2 key = (c.sets key).or (m key) := by
  rcases c.shape with ⟨name,k,rfl⟩ | ⟨name,k,value,rfl⟩ | h
  · cases hm : m k <;> simp [singleMap, hm, Command.sets]
  · by_cases hk : k = key
    · subst hk
      simp [singleMap, Command.sets]
    · simp [singleMap, Command.sets, hk, Function.update_of_ne (Ne.symm hk)]
  · rw [singleMap_improper h, Command.sets_improper h, Option.none_or]

def contents (cs : List Command) : Bytes → Option Bytes :=
  (replay singleMap cs fun _ => none).2

def lastSet (key : Bytes) (cs : List Command) : Option Bytes :=
  cs.reverse.findSome? fun c => c.sets key

theorem contents_concat (cs : List Command) (c : Command) :
    contents (cs ++ [c]) = (singleMap c (contents cs)).2 := by
  rw [contents, replay_append]
  rfl

theorem contents_eq_lastSet (cs : List Command) (key : Bytes) :
    contents cs key = lastSet key cs := by
  induction cs using List.reverseRecOn with
  | nil => rfl
  | append_singleton cs c ih =>
    rw [contents_concat, singleMap_find, ih, lastSet, lastSet, List.reverse_append]
    cases hc : c.sets key <;> simp [hc]

inductive Stage where
  | running
  | returned (found : Option Bytes)
  | replied (reply : RedisReply)
deriving DecidableEq

structure Call where
  command : Command
  stage : Stage
deriving DecidableEq

/-- The server. `log` lists the commands whose locked section has run, in the order
of these sections. -/
structure State (κ : Type*) where
  impl : RedisServiceImpl
  calls : κ → Option Call
  log : List (κ × Command)

def State.init {κ : Type*} : State κ := ⟨.empty,fun _ => none,[]⟩

inductive Label (κ : Type*) where
  | arrive (id : κ) (command : Command)
  | locked (id : κ)
  | reply (id : κ)

def Label.id {κ : Type*} : Label κ → κ
  | .arrive id _ | .locked id | .reply id => id

def Label.section? {κ : Type*} : Label κ → Option κ
  | .locked id => some id
  | .arrive _ _ | .reply _ => none

section Server
variable {κ : Type*} [DecidableEq κ] (crc32c : Bytes → UInt32)

def State.place (s : State κ) (id : κ) (command : Command) (stage : Stage) : State κ :=
  { s with calls := Function.update s.calls id (some ⟨command,stage⟩) }

@[simp] theorem State.place_log (s : State κ) (id : κ) (command : Command) (stage : Stage) :
    (s.place id command stage).log = s.log := rfl

theorem State.place_of_ne (s : State κ) {id j : κ} (h : j ≠ id) (command : Command)
    (stage : Stage) : (s.place id command stage).calls j = s.calls j :=
  Function.update_of_ne h ..

def step (s : State κ) : Label κ → Option (State κ)
  | .arrive id command =>
    if s.calls id = none then some (s.place id command .running) else none
  | .locked id =>
    match s.calls id with
    | some ⟨command,.running⟩ =>
      match command.before with
      | .ok call =>
        let r := call.locked crc32c s.impl
        some { s.place id command (.returned r.1) with
          impl := r.2, log := s.log ++ [(id,command)] }
      | .error _ => none
    | _ => none
  | .reply id =>
    match s.calls id with
    | some ⟨command,.running⟩ =>
      match command.before with
      | .ok _ => none
      | .error message => some (s.place id command (.replied (.error message)))
    | some ⟨command,.returned found⟩ =>
      some (s.place id command (.replied (command.after found)))
    | _ => none

inductive Step (s : State κ) : Label κ → State κ → Prop where
  | arrive {id command} : s.calls id = none →
      Step s (.arrive id command) (s.place id command .running)
  | locked {id command call} : s.calls id = some ⟨command,.running⟩ →
      command.before = .ok call →
      Step s (.locked id)
        { s.place id command (.returned (call.locked crc32c s.impl).1) with
          impl := (call.locked crc32c s.impl).2, log := s.log ++ [(id,command)] }
  | refuse {id command message} : s.calls id = some ⟨command,.running⟩ →
      command.before = .error message →
      Step s (.reply id) (s.place id command (.replied (.error message)))
  | reply {id command found} : s.calls id = some ⟨command,.returned found⟩ →
      Step s (.reply id) (s.place id command (.replied (command.after found)))

variable {crc32c} {s s' : State κ} {e : Label κ}

theorem step_sound (h : step crc32c s e = some s') : Step crc32c s e s' := by
  unfold step at h
  split at h
  · split at h
    · rename_i id command hnone
      obtain rfl := Option.some.inj h
      exact .arrive hnone
    · cases h
  · split at h
    · rename_i id _ command hcall
      split at h
      · rename_i call hbefore
        obtain rfl := Option.some.inj h
        exact .locked hcall hbefore
      · cases h
    · cases h
  · split at h
    · rename_i id _ command hcall
      split at h
      · cases h
      · rename_i message hbefore
        obtain rfl := Option.some.inj h
        exact .refuse hcall hbefore
    · rename_i id _ command found hcall
      obtain rfl := Option.some.inj h
      exact .reply hcall
    · cases h

theorem locked_singleMap {c : Command} {call : ServiceCall} (h : c.before = .ok call)
    (impl : RedisServiceImpl) :
    singleMap c (merge (slot crc32c) impl.map) = (c.after (call.locked crc32c impl).1,
      merge (slot crc32c) (call.locked crc32c impl).2.map) := by
  rcases c.shape with ⟨name,key,rfl⟩ | ⟨name,key,value,rfl⟩ | himproper
  · obtain rfl : ServiceCall.get key = call := Except.ok.inj h
    cases hf : impl.map (slot crc32c key) key <;>
      simp [singleMap, merge, hf, ServiceCall.locked, RedisServiceImpl.get, Command.after,
        GetCommandHandler.after]
  · obtain rfl : ServiceCall.set key value = call := Except.ok.inj h
    simp [singleMap, ServiceCall.locked, RedisServiceImpl.set_map, merge_put, Command.after,
      SetCommandHandler.after]
  · rw [Command.before_improper himproper] at h
    cases h

theorem locked_placed (call : ServiceCall) {impl : RedisServiceImpl}
    (h : Placed (slot crc32c) impl.map) :
    Placed (slot crc32c) (call.locked crc32c impl).2.map := by
  cases call with
  | get key => exact h
  | set key value => exact placed_put h key value

/-- The reply is the one the single map gives at the command's place in the log. -/
def State.Explains (s : State κ) (id : κ) (c : Command) (r : RedisReply) : Prop :=
  ∃ u w, s.log = u ++ (id,c) :: w ∧ r = (singleMap c (contents (u.map Prod.snd))).1

variable (crc32c) in
structure Inv (es : List (Label κ)) (s : State κ) : Prop where
  placed : Placed (slot crc32c) s.impl.map
  merged : merge (slot crc32c) s.impl.map = contents (s.log.map Prod.snd)
  order : s.log.map Prod.fst = es.filterMap Label.section?
  once : (s.log.map Prod.fst).Nodup
  logged : ∀ id c, (id,c) ∈ s.log → c.Proper ∧ ∃ stage, s.calls id = some ⟨c,stage⟩ ∧
    stage ≠ .running
  returned : ∀ id c found, s.calls id = some ⟨c,.returned found⟩ →
    s.Explains id c (c.after found)
  replied : ∀ id c r, s.calls id = some ⟨c,.replied r⟩ →
    (¬ c.Proper ∧ r = .error c.complaint) ∨ (c.Proper ∧ s.Explains id c r)

variable {es : List (Label κ)}

omit [DecidableEq κ] in
theorem inv_init : Inv crc32c [] (State.init : State κ) where
  placed _ _ h := absurd rfl h
  merged := rfl
  order := rfl
  once := List.nodup_nil
  logged := by simp [State.init]
  returned := by simp [State.init]
  replied := by simp [State.init]

theorem inv_place (hi : Inv crc32c es s) {id : κ} {command : Command} {stage : Stage}
    (he : e.section? = none)
    (hlog : ∀ c, (id,c) ∈ s.log → c = command ∧ stage ≠ .running)
    (hreturned : ∀ found, stage = .returned found →
      s.Explains id command (command.after found))
    (hreplied : ∀ r, stage = .replied r → (¬ command.Proper ∧ r = .error command.complaint) ∨
      (command.Proper ∧ s.Explains id command r)) :
    Inv crc32c (es ++ [e]) (s.place id command stage) where
  placed := hi.placed
  merged := hi.merged
  order := by simpa [List.filterMap_append, he] using hi.order
  once := hi.once
  logged j c hmem := by
    obtain ⟨hproper,stage',hcall,hstage⟩ := hi.logged j c hmem
    by_cases hj : j = id
    · subst hj
      obtain ⟨rfl,hrunning⟩ := hlog c hmem
      exact ⟨hproper,stage,Function.update_self ..,hrunning⟩
    · exact ⟨hproper,stage',by rw [State.place_of_ne s hj, hcall],hstage⟩
  returned j c found hcall := by
    rcases update_found hcall with ⟨rfl,heq⟩ | ⟨-,hold⟩
    · cases heq
      exact hreturned found rfl
    · exact hi.returned j c found hold
  replied j c r hcall := by
    rcases update_found hcall with ⟨rfl,heq⟩ | ⟨-,hold⟩
    · cases heq
      exact hreplied r rfl
    · exact hi.replied j c r hold

omit [DecidableEq κ] in
theorem Inv.mem_log (hi : Inv crc32c es s) {id : κ} {call : Call} (hcall : s.calls id = some call)
    (hmem : id ∈ s.log.map Prod.fst) :
    (id,call.command) ∈ s.log ∧ call.command.Proper ∧ call.stage ≠ .running := by
  obtain ⟨⟨id,c⟩,hentry,rfl⟩ := List.mem_map.mp hmem
  obtain ⟨hproper,stage,hcall',hstage⟩ := hi.logged id c hentry
  rw [hcall] at hcall'
  cases hcall'
  exact ⟨hentry,hproper,hstage⟩

omit [DecidableEq κ] in
theorem State.Explains.concat {id : κ} {c : Command} {r : RedisReply} {t : State κ}
    {entry : κ × Command} (h : s.Explains id c r) (ht : t.log = s.log ++ [entry]) :
    t.Explains id c r := by
  obtain ⟨u,w,hlog,hr⟩ := h
  exact ⟨u,w ++ [entry],by rw [ht, hlog]; simp,hr⟩

theorem inv_locked (hi : Inv crc32c es s) {id : κ} {command : Command} {call : ServiceCall}
    (hcall : s.calls id = some ⟨command,.running⟩) (hbefore : command.before = .ok call) :
    Inv crc32c (es ++ [.locked id])
      { s.place id command (.returned (call.locked crc32c s.impl).1) with
        impl := (call.locked crc32c s.impl).2, log := s.log ++ [(id,command)] } where
  placed := locked_placed call hi.placed
  merged := by
    have hsingle : singleMap command (merge (slot crc32c) s.impl.map) =
        (command.after (call.locked crc32c s.impl).1,
          merge (slot crc32c) (call.locked crc32c s.impl).2.map) :=
      locked_singleMap hbefore s.impl
    rw [hi.merged] at hsingle
    simp only [List.map_append, List.map_cons, List.map_nil, contents_concat, hsingle]
  order := by simp [List.filterMap_append, hi.order, Label.section?]
  once := by
    have hnew : id ∉ s.log.map Prod.fst := fun hmem => (hi.mem_log hcall hmem).2.2 rfl
    simpa [List.nodup_append] using ⟨hi.once,fun j c hmem he =>
      hnew (he ▸ List.mem_map.mpr ⟨(j,c),hmem,rfl⟩)⟩
  logged j c hmem := by
    rcases List.mem_append.mp hmem with hmem | hmem
    · obtain ⟨hproper,stage,hcall',hstage⟩ := hi.logged j c hmem
      have hj : j ≠ id := by
        rintro rfl
        rw [hcall] at hcall'
        cases hcall'
        exact hstage rfl
      exact ⟨hproper,stage,(s.place_of_ne hj ..).trans hcall',hstage⟩
    · cases List.mem_singleton.mp hmem
      exact ⟨Command.proper_of_before hbefore,_,Function.update_self ..,by simp⟩
  returned j c found hcall' := by
    rcases update_found hcall' with ⟨rfl,heq⟩ | ⟨-,hold⟩
    · cases heq
      refine ⟨s.log,[],rfl,?_⟩
      rw [← hi.merged, locked_singleMap hbefore]
    · exact (hi.returned j c found hold).concat rfl
  replied j c r hcall' := by
    rcases update_found hcall' with ⟨rfl,heq⟩ | ⟨-,hold⟩
    · cases heq
    · exact (hi.replied j c r hold).imp_right fun h => ⟨h.1,h.2.concat rfl⟩

theorem inv_step (hi : Inv crc32c es s) (h : Step crc32c s e s') :
    Inv crc32c (es ++ [e]) s' := by
  cases h with
  | arrive hnone =>
    refine inv_place hi rfl (fun c hmem => ?_) (by simp) (by simp)
    obtain ⟨-,stage,hcall,-⟩ := hi.logged _ c hmem
    rw [hnone] at hcall
    cases hcall
  | locked hcall hbefore => exact inv_locked hi hcall hbefore
  | refuse hcall hbefore =>
    obtain ⟨himproper,rfl⟩ := Command.improper_of_before hbefore
    refine inv_place hi rfl (fun c hmem => ?_) (by simp) (fun r hr => ?_)
    · obtain ⟨hproper,stage,hcall',-⟩ := hi.logged _ c hmem
      rw [hcall] at hcall'
      cases hcall'
      exact absurd hproper himproper
    · exact Or.inl ⟨himproper,(Stage.replied.inj hr).symm⟩
  | reply hcall =>
    obtain ⟨u,w,hlog,-⟩ := hi.returned _ _ _ hcall
    have hproper := (hi.mem_log hcall (by simp [hlog])).2.1
    refine inv_place hi rfl (fun c hmem => ?_) (by simp) (fun r hr => ?_)
    · obtain ⟨-,stage,hcall',-⟩ := hi.logged _ c hmem
      rw [hcall] at hcall'
      cases hcall'
      exact ⟨rfl,by simp⟩
    · rw [← Stage.replied.inj hr]
      exact Or.inr ⟨hproper,hi.returned _ _ _ hcall⟩

theorem inv_run (h : runFrom (step crc32c) State.init es = some s) : Inv crc32c es s :=
  run_invariant (P := Inv crc32c) inv_init
    (fun _ _ _ _ _ hi hn => inv_step hi (step_sound hn)) es s h

variable (crc32c) in
/-- The slots are one map: `log`, the order of the locked sections, explains every
reply, and a command with a wrong number of arguments has no part in it. -/
structure OneMap (es : List (Label κ)) (s : State κ) : Prop where
  placed : ∀ i k, s.impl.map i k ≠ none → i = slot crc32c k
  contents : ∀ k, s.impl.map (slot crc32c k) k = lastSet k (s.log.map Prod.snd)
  order : s.log.map Prod.fst = es.filterMap Label.section?
  once : (s.log.map Prod.fst).Nodup
  logged : ∀ id c, (id,c) ∈ s.log → c.Proper ∧ ∃ stage, s.calls id = some ⟨c,stage⟩
  replies : ∀ id c r, s.calls id = some ⟨c,.replied r⟩ → c.Proper → s.Explains id c r
  gets : ∀ id name key r, s.calls id = some ⟨⟨.get,[name,key]⟩,.replied r⟩ →
    ∃ u w, s.log = u ++ (id,⟨.get,[name,key]⟩) :: w ∧
      r = match lastSet key (u.map Prod.snd) with
        | some value => .string value
        | none => .nil
  refused : ∀ id c r, s.calls id = some ⟨c,.replied r⟩ → ¬ c.Proper →
    r = .error c.complaint ∧ id ∉ s.log.map Prod.fst
  unchanged : ∀ e s' c stage, step crc32c s e = some s' →
    s'.calls e.id = some ⟨c,stage⟩ → ¬ c.Proper → s'.impl = s.impl ∧ s'.log = s.log

theorem oneMap_run (h : runFrom (step crc32c) State.init es = some s) : OneMap crc32c es s := by
  have hi := inv_run h
  have hreplies : ∀ id c r, s.calls id = some ⟨c,.replied r⟩ → c.Proper → s.Explains id c r := by
    intro id c r hcall hproper
    rcases hi.replied id c r hcall with ⟨himproper,-⟩ | ⟨-,hexplains⟩
    · exact absurd hproper himproper
    · exact hexplains
  refine ⟨hi.placed,fun k => ?_,hi.order,hi.once,?_,hreplies,?_,?_,?_⟩
  · rw [← contents_eq_lastSet, ← hi.merged]
    rfl
  · intro id c hentry
    obtain ⟨hproper,stage,hcall,-⟩ := hi.logged id c hentry
    exact ⟨hproper,stage,hcall⟩
  · intro id name key r hcall
    obtain ⟨u,w,hlog,hr⟩ := hreplies id _ r hcall rfl
    refine ⟨u,w,hlog,?_⟩
    rw [hr, ← contents_eq_lastSet]
    simp only [singleMap]
    cases RedisStore.contents (u.map Prod.snd) key <;> rfl
  · intro id c r hcall himproper
    rcases hi.replied id c r hcall with ⟨-,hr⟩ | ⟨hproper,-⟩
    · exact ⟨hr,fun hmem => himproper (hi.mem_log hcall hmem).2.1⟩
    · exact absurd hproper himproper
  · intro e s' c stage hstep hcall himproper
    cases step_sound hstep with
    | arrive | refuse | reply => exact ⟨rfl,rfl⟩
    | locked _ hbefore =>
      have hself := Function.update_self .. |>.symm.trans hcall
      cases hself
      exact absurd (Command.proper_of_before hbefore) himproper

end Server

def oneSlot : List (Label Nat) :=
  [.arrive 0 ⟨.set,[text "set",text "k",text "v"]⟩,.arrive 1 ⟨.get,[text "get",text "k"]⟩,
    .locked 0,.arrive 2 ⟨.set,[text "set",text "k",text "w"]⟩,.locked 1,.locked 2,
    .arrive 3 ⟨.set,[text "set",text "j"]⟩,.reply 2,.reply 3,.reply 1,.reply 0]

theorem oneMap_oneSlot : ∃ s, runFrom (step fun _ => 0) State.init oneSlot = some s ∧
    OneMap (fun _ => 0) oneSlot s ∧
    s.calls 1 = some ⟨⟨.get,[text "get",text "k"]⟩,.replied (.string (text "v"))⟩ := by
  have hsome : ((runFrom (step fun _ => 0) State.init oneSlot).bind fun s => s.calls 1) =
      some ⟨⟨.get,[text "get",text "k"]⟩,.replied (.string (text "v"))⟩ := by decide
  obtain ⟨s,hs,hcall⟩ := Option.bind_eq_some_iff.mp hsome
  exact ⟨s,hs,oneMap_run hs,hcall⟩

end EaHalfHour.RedisStore
