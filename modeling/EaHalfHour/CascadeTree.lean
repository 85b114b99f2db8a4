import EaHalfHour.AtomicObject
import EaHalfHour.Cascade

/-! How the calls of the cascade hang together: what each of them was made for, and
what its outcome is owed to. -/
namespace EaHalfHour.Cascade
open LabelledRun AtomicObject KvMessage

theorem CallId.attempt_inj {id id' : CallId} {t t' : Nat}
    (h : id.attempt t = id'.attempt t') : id = id' ∧ t = t' := by
  obtain ⟨n,l⟩ := id
  obtain ⟨n',l'⟩ := id'
  simp only [CallId.attempt, Prod.mk.injEq, List.cons.injEq] at h
  exact ⟨Prod.ext h.1 h.2.2,h.2.1⟩

theorem CallId.root_ne_attempt (n : Nat) (id : CallId) (t : Nat) : root n ≠ id.attempt t :=
  fun h => List.cons_ne_nil t id.2 (congrArg Prod.snd h).symm

theorem update_grows {α : Type} {R : α → α → Prop} (hrefl : ∀ a, R a a) {f : CallId → Option α}
    {i id : CallId} {x new : α} (hx : f id = some x) (hnew : ∀ old, f i = some old → R old new) :
    ∃ y, Function.update f i (some new) id = some y ∧ R x y := by
  by_cases hid : id = i
  · subst hid
    exact ⟨new,Function.update_self ..,hnew x hx⟩
  · exact ⟨x,by rw [Function.update_of_ne hid, hx],hrefl x⟩

structure Call.Grows (call call' : Call) : Prop where
  request : call'.request = call.request
  attachment : call'.attachment = call.attachment
  attempts : call'.attempts = call.attempts
  sent : call.sent ≤ call'.sent
  result : ∀ reply, call.result = some reply → call'.result = some reply

theorem Call.Grows.refl (call : Call) : call.Grows call :=
  ⟨rfl,rfl,rfl,Nat.le_refl _,fun _ h => h⟩

theorem Call.grows_sent (call : Call) : call.Grows { call with sent := call.sent+1 } :=
  ⟨rfl,rfl,rfl,Nat.le_succ _,fun _ h => h⟩

theorem Call.grows_settled {call : Call} (h : call.result = none) (reply : Reply) :
    call.Grows { call with result := some reply } := by
  refine ⟨rfl,rfl,rfl,Nat.le_refl _,fun reply' hreply => ?_⟩
  rw [h] at hreply
  cases hreply

structure Echo.Grows (echo echo' : Echo) : Prop where
  process : echo'.process = echo.process
  request : echo'.request = echo.request
  attachment : echo'.attachment = echo.attachment
  begun : echo.stage ≠ .entered → echo'.stage ≠ .entered
  returned : ∀ reply, echo.stage = .returned reply → echo'.stage = .returned reply

theorem Echo.Grows.refl (echo : Echo) : echo.Grows echo :=
  ⟨rfl,rfl,rfl,fun h => h,fun _ h => h⟩

theorem Echo.grows_moved {echo : Echo} {stage : Stage}
    (hold : ∀ reply, echo.stage ≠ .returned reply) (hnew : stage ≠ .entered) :
    echo.Grows { echo with stage } :=
  ⟨rfl,rfl,rfl,fun _ => hnew,fun reply h => absurd h (hold reply)⟩

/-- An Echo in this stage was given it by these calls. -/
def Echo.Owed (server : Nat → Server) (s : State) (id : CallId) (echo : Echo) : Prop :=
  match echo.stage with
  | .entered => True
  | .calling => ∃ call, s.call id = some call
  | .returned reply =>
    (¬ 0 < echo.request.getDepth ∧
      reply = .echoed echo.request.message ((server echo.process).attach echo.attachment)) ∨
    ∃ call inner, s.call id = some call ∧ call.result = some inner ∧
      reply = (server echo.process).answer echo.attachment inner

def Call.Owed (told : Error → Error) (tr : List Label) (s : State) (id : CallId) (call : Call) :
    Prop :=
  ∀ reply, call.result = some reply →
    (∃ error, .fail id error ∈ tr ∧ reply = .failed error) ∨
    ∃ t echo inner, s.echo (id.attempt t) = some echo ∧ echo.stage = .returned inner ∧
      reply = inner.told told

structure Inner (server : Nat → Server) (echo : Echo) (call : Call) : Prop where
  begun : echo.stage ≠ .entered
  deeper : 0 < echo.request.getDepth
  request : call.request = echo.request.again
  attachment : call.attachment = []
  attempts : call.attempts = attempts (server echo.process).maxRetry

/-- Each Echo serves an attempt of a call, each call but the client's is made by an Echo,
and each outcome is owed to one below it. -/
structure Nested (server : Nat → Server) (told : Error → Error) (tr : List Label) (s : State) :
    Prop where
  served : ∀ e echo, s.echo e = some echo → ∃ (id : CallId) (t : Nat) (call : Call),
    e = id.attempt t ∧ s.call id = some call ∧ t < call.sent ∧ echo.request = call.request ∧
    echo.attachment = call.attachment
  made : ∀ (id : CallId) t call, s.call (id.attempt t) = some call →
    ∃ echo, s.echo (id.attempt t) = some echo ∧ Inner server echo call
  sent : ∀ id call, s.call id = some call → call.sent ≤ call.attempts ∧ 0 < call.attempts
  begun : ∀ e echo, s.echo e = some echo → echo.stage ≠ .entered → .echo e ∈ tr
  echo : ∀ e echo, s.echo e = some echo → echo.Owed server s e
  call : ∀ id call, s.call id = some call → call.Owed told tr s id

section Steps
variable {server : Nat → Server} {told : Error → Error} {tr : List Label} {s s' : State}
  {l : Label}

theorem Nested.free (h : Nested server told tr s) {e : CallId} {echo : Echo}
    (hecho : s.echo e = some echo) (hstage : echo.stage = .entered) : s.call e = none := by
  obtain ⟨id,t,-,rfl,-⟩ := h.served e echo hecho
  cases hcall : s.call (id.attempt t) with
  | none => rfl
  | some call =>
    obtain ⟨echo',hecho',hinner⟩ := h.made id t call hcall
    obtain rfl := Option.some.inj (hecho.symm.trans hecho')
    exact absurd hstage hinner.begun

theorem echo_grows (hs : Step server told s l s') {e : CallId} {echo : Echo}
    (hecho : s.echo e = some echo) : ∃ echo', s'.echo e = some echo' ∧ echo.Grows echo' := by
  cases hs with
  | send | transmit | reply | fail => exact ⟨echo,hecho,.refl echo⟩
  | deliver process hcall hlt hnone =>
    refine update_grows Echo.Grows.refl hecho fun old hold => ?_
    rw [hnone] at hold
    cases hold
  | again hbegun hstage | last hbegun hstage | finish hbegun _ hstage =>
    refine update_grows Echo.Grows.refl hecho fun old hold => ?_
    obtain rfl := Option.some.inj (hbegun.symm.trans hold)
    exact Echo.grows_moved (by simp [hstage]) (by simp)

theorem call_grows (h : Nested server told tr s) (hs : Step server told s l s') {id : CallId}
    {call : Call} (hcall : s.call id = some call) :
    ∃ call', s'.call id = some call' ∧ call.Grows call' := by
  cases hs with
  | deliver | last | finish => exact ⟨call,hcall,.refl call⟩
  | send hnone =>
    refine update_grows Call.Grows.refl hcall fun old hold => ?_
    rw [hnone] at hold
    cases hold
  | transmit hsent =>
    refine update_grows Call.Grows.refl hcall fun old hold => ?_
    obtain rfl := Option.some.inj (hsent.symm.trans hold)
    exact Call.grows_sent _
  | again hecho hstage =>
    refine update_grows Call.Grows.refl hcall fun old hold => ?_
    rw [h.free hecho hstage] at hold
    cases hold
  | reply hsent _ hresult | fail _ hsent hresult =>
    refine update_grows Call.Grows.refl hcall fun old hold => ?_
    obtain rfl := Option.some.inj (hsent.symm.trans hold)
    exact Call.grows_settled hresult _

theorem echo_before (hs : Step server told s l s') {e : CallId} {echo : Echo}
    (hecho : s'.echo e = some echo) :
    (∃ old, s.echo e = some old ∧ old.Grows echo ∧
      (echo = old ∨ echo.Owed server s' e ∧ (old.stage = .entered → l = .echo e))) ∨
    ∃ (id : CallId) (t process : Nat) (call : Call), l = .deliver id t process ∧
      e = id.attempt t ∧ s.call id = some call ∧ t < call.sent ∧ s.echo e = none ∧
      echo = ⟨process,call.request,call.attachment,.entered⟩ := by
  have hmoved : ∀ {old new : Echo}, s.echo e = some old → s'.echo e = some new →
      new = echo → (new.Owed server s' e ∧ (old.stage = .entered → l = .echo e)) →
      ∃ old, s.echo e = some old ∧ old.Grows echo ∧
        (echo = old ∨ echo.Owed server s' e ∧ (old.stage = .entered → l = .echo e)) := by
    rintro old new hold hnew rfl howed
    obtain ⟨echo',hecho',hgrows⟩ := echo_grows hs hold
    obtain rfl := Option.some.inj (hnew.symm.trans hecho')
    exact ⟨old,hold,hgrows,.inr howed⟩
  cases hs with
  | send | transmit | reply | fail => exact .inl ⟨echo,hecho,.refl echo,.inl rfl⟩
  | @deliver id t call process hcall hlt hnone =>
    rcases update_found hecho with ⟨rfl,rfl⟩ | ⟨-,hold⟩
    · exact .inr ⟨id,t,process,call,rfl,rfl,hcall,hlt,hnone,rfl⟩
    · exact .inl ⟨echo,hold,.refl echo,.inl rfl⟩
  | again hold hstage hdepth =>
    rcases update_found hecho with ⟨rfl,hnew⟩ | ⟨-,hold⟩
    · exact .inl (hmoved hold (Function.update_self ..) hnew
        ⟨⟨_,Function.update_self ..⟩,fun _ => rfl⟩)
    · exact .inl ⟨echo,hold,.refl echo,.inl rfl⟩
  | last hold hstage hdepth =>
    rcases update_found hecho with ⟨rfl,hnew⟩ | ⟨-,hold⟩
    · exact .inl (hmoved hold (Function.update_self ..) hnew
        ⟨.inl ⟨hdepth,rfl⟩,fun _ => rfl⟩)
    · exact .inl ⟨echo,hold,.refl echo,.inl rfl⟩
  | @finish _ old _ _ hold hcall hstage hresult =>
    rcases update_found hecho with ⟨rfl,hnew⟩ | ⟨-,hold⟩
    · refine .inl (hmoved hold (Function.update_self ..) hnew
        ⟨.inr ⟨_,_,hcall,hresult,rfl⟩,fun h => ?_⟩)
      rw [hstage] at h
      cases h
    · exact .inl ⟨echo,hold,.refl echo,.inl rfl⟩

theorem call_before (hs : Step server told s l s') {id : CallId}
    {call : Call} (hcall : s'.call id = some call) :
    (∃ old, s.call id = some old ∧ old.Grows call ∧
      (old.sent ≤ old.attempts → call.sent ≤ call.attempts) ∧
      (call.result = old.result ∨ call.Owed told [l] s' id)) ∨
    (∃ n client, l = .send n client ∧ id = .root n ∧
      call = ⟨client.request,client.attachment,attempts client.maxRetry,0,none⟩) ∨
    (call.sent = 0 ∧ call.result = none ∧
      ∃ echo, s'.echo id = some echo ∧ Inner server echo call) := by
  have hsame : s.call id = some call → ∃ old, s.call id = some old ∧ old.Grows call ∧
      (old.sent ≤ old.attempts → call.sent ≤ call.attempts) ∧
      (call.result = old.result ∨ call.Owed told [l] s' id) :=
    fun hold => ⟨call,hold,.refl call,fun hle => hle,.inl rfl⟩
  cases hs with
  | deliver | last | finish => exact .inl (hsame hcall)
  | @send n client hnone =>
    rcases update_found hcall with ⟨rfl,rfl⟩ | ⟨-,hold⟩
    · exact .inr (.inl ⟨n,client,rfl,rfl,rfl⟩)
    · exact .inl (hsame hold)
  | @transmit _ old hsent hresult hlt =>
    rcases update_found hcall with ⟨rfl,rfl⟩ | ⟨-,hold⟩
    · exact .inl ⟨old,hsent,old.grows_sent,fun _ => hlt,.inl rfl⟩
    · exact .inl (hsame hold)
  | again hecho hstage hdepth =>
    rcases update_found hcall with ⟨rfl,rfl⟩ | ⟨-,hold⟩
    · exact .inr (.inr ⟨rfl,rfl,_,Function.update_self ..,⟨by simp,hdepth,rfl,rfl,rfl⟩⟩)
    · exact .inl (hsame hold)
  | @reply _ t old echo inner hsent hecho hresult hstage =>
    rcases update_found hcall with ⟨rfl,rfl⟩ | ⟨-,hold⟩
    · refine .inl ⟨old,hsent,Call.grows_settled hresult _,fun hle => hle,.inr ?_⟩
      intro reply hreply
      obtain rfl := Option.some.inj hreply
      exact .inr ⟨t,echo,inner,hecho,hstage,rfl⟩
    · exact .inl (hsame hold)
  | @fail _ old error hsent hresult =>
    rcases update_found hcall with ⟨rfl,rfl⟩ | ⟨-,hold⟩
    · refine .inl ⟨old,hsent,Call.grows_settled hresult _,fun hle => hle,.inr ?_⟩
      intro reply hreply
      obtain rfl := Option.some.inj hreply
      exact .inl ⟨error,List.mem_singleton_self _,rfl⟩
    · exact .inl (hsame hold)

theorem Echo.Owed.kept (h : Nested server told tr s) (hs : Step server told s l s') {e : CallId}
    {echo : Echo} (howed : echo.Owed server s e) : echo.Owed server s' e := by
  unfold Echo.Owed at howed ⊢
  split at howed
  · trivial
  · obtain ⟨call,hcall⟩ := howed
    obtain ⟨call',hcall',-⟩ := call_grows h hs hcall
    exact ⟨call',hcall'⟩
  · rcases howed with hlast | ⟨call,inner,hcall,hresult,hreply⟩
    · exact .inl hlast
    · obtain ⟨call',hcall',hgrows⟩ := call_grows h hs hcall
      exact .inr ⟨call',inner,hcall',hgrows.result inner hresult,hreply⟩

theorem Call.Owed.kept (hs : Step server told s l s') {id : CallId} {call call' : Call}
    (hresult : call'.result = call.result) (howed : call.Owed told tr s id) :
    call'.Owed told (tr ++ [l]) s' id := by
  intro reply hreply
  rcases howed reply (hresult ▸ hreply) with ⟨error,hfail,hr⟩ | ⟨t,echo,inner,hecho,hstage,hr⟩
  · exact .inl ⟨error,List.mem_append_left _ hfail,hr⟩
  · obtain ⟨echo',hecho',hgrows⟩ := echo_grows hs hecho
    exact .inr ⟨t,echo',inner,hecho',hgrows.returned inner hstage,hr⟩

theorem Inner.kept {echo echo' : Echo} {call call' : Call} (h : Inner server echo call)
    (hecho : echo.Grows echo') (hcall : call.Grows call') : Inner server echo' call' where
  begun := hecho.begun h.begun
  deeper := by rw [hecho.request]; exact h.deeper
  request := by rw [hcall.request, hecho.request, h.request]
  attachment := by rw [hcall.attachment, h.attachment]
  attempts := by rw [hcall.attempts, hecho.process, h.attempts]

theorem Nested.next (h : Nested server told tr s) (hs : Step server told s l s') :
    Nested server told (tr ++ [l]) s' where
  served e echo hecho := by
    rcases echo_before hs hecho with ⟨old,hold,hgrows,-⟩ | ⟨id,t,process,call,-,rfl,hcall,hlt,-,rfl⟩
    · obtain ⟨id,t,call,he,hcall,hlt,hrequest,hattachment⟩ := h.served e old hold
      obtain ⟨call',hcall',hlater⟩ := call_grows h hs hcall
      refine ⟨id,t,call',he,hcall',Nat.lt_of_lt_of_le hlt hlater.sent,?_,?_⟩
      · rw [hgrows.request, hrequest, hlater.request]
      · rw [hgrows.attachment, hattachment, hlater.attachment]
    · obtain ⟨call',hcall',hlater⟩ := call_grows h hs hcall
      exact ⟨id,t,call',rfl,hcall',Nat.lt_of_lt_of_le hlt hlater.sent,hlater.request.symm,
        hlater.attachment.symm⟩
  made id t call hcall := by
    rcases call_before hs hcall with ⟨old,hold,hgrows,-⟩ | ⟨n,client,-,hroot,-⟩ | ⟨-,-,hmade⟩
    · obtain ⟨echo,hecho,hinner⟩ := h.made id t old hold
      obtain ⟨echo',hecho',hlater⟩ := echo_grows hs hecho
      exact ⟨echo',hecho',hinner.kept hlater hgrows⟩
    · exact absurd hroot.symm (CallId.root_ne_attempt n id t)
    · exact hmade
  sent id call hcall := by
    rcases call_before hs hcall with ⟨old,hold,hgrows,hsent,-⟩ | ⟨n,client,-,-,rfl⟩ |
      ⟨hsent,-,echo,-,hinner⟩
    · obtain ⟨hle,hpos⟩ := h.sent id old hold
      exact ⟨hsent hle,by rw [hgrows.attempts]; exact hpos⟩
    · exact ⟨Nat.zero_le _,Nat.succ_pos _⟩
    · rw [hsent, hinner.attempts]
      exact ⟨Nat.zero_le _,Nat.succ_pos _⟩
  begun e echo hecho hbegun := by
    rcases echo_before hs hecho with ⟨old,hold,-,hsame⟩ | ⟨_,_,_,_,-,-,-,-,-,rfl⟩
    · by_cases hstage : old.stage = .entered
      · rcases hsame with rfl | ⟨-,hl⟩
        · exact absurd hstage hbegun
        · exact List.mem_append_right _ (List.mem_singleton.mpr (hl hstage).symm)
      · exact List.mem_append_left _ (h.begun e old hold hstage)
    · exact absurd rfl hbegun
  echo e echo hecho := by
    rcases echo_before hs hecho with ⟨old,hold,-,rfl | ⟨howed,-⟩⟩ | ⟨_,_,_,_,-,-,-,-,-,rfl⟩
    · exact (h.echo e echo hold).kept h hs
    · exact howed
    · trivial
  call id call hcall := by
    rcases call_before hs hcall with ⟨old,hold,-,-,hsame | howed⟩ | ⟨n,client,-,-,rfl⟩ |
      ⟨-,hresult,-⟩
    · exact (h.call id old hold).kept hs hsame
    · intro reply hreply
      rcases howed reply hreply with ⟨error,hfail,hr⟩ | hreturned
      · exact .inl ⟨error,List.mem_append_right _ hfail,hr⟩
      · exact .inr hreturned
    · intro reply hreply
      cases hreply
    · intro reply hreply
      rw [hresult] at hreply
      cases hreply

theorem nested_run (hrun : runFrom (step server told) .init tr = some s) :
    Nested server told tr s := by
  refine run_invariant (P := Nested server told) ⟨?_,?_,?_,?_,?_,?_⟩ ?_ tr s hrun
  · intro e echo hecho
    cases hecho
  · intro id t call hcall
    cases hcall
  · intro id call hcall
    cases hcall
  · intro e echo hecho
    cases hecho
  · intro e echo hecho
    cases hecho
  · intro id call hcall
    cases hcall
  · intro es m l n _ h hn
    exact h.next (step_sound hn)

end Steps

end EaHalfHour.Cascade
