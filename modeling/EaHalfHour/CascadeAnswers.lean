import Mathlib.Logic.Function.Iterate
import EaHalfHour.CascadeRuns

/-! What the client of the cascade is told, and what must have happened for it. -/
namespace EaHalfHour.Cascade
open LabelledRun KvMessage CallTree

/-- Below the call melon gave up a call with an error of its own, which came up to the
call through as many levels. -/
def Raised (told : Error → Error) (tr : List Label) (id : CallId) (level : Nat) (error : Error) :
    Prop :=
  ∃ (ts : List Nat) (error₀ : Error), ts.length ≤ level ∧ .fail (id.1,ts ++ id.2) error₀ ∈ tr ∧
    error = told^[ts.length] error₀

def Reached (tr : List Label) (id : CallId) (level : Nat) : Prop :=
  ∃ ts : List Nat, ts.length = level + 1 ∧
    ∀ k ≤ level, Label.echo (id.1,ts.drop k ++ id.2) ∈ tr

section Levels
variable {told : Error → Error} {tr : List Label} {id : CallId} {t level : Nat} {error : Error}

theorem Raised.up (h : Raised told tr (id.attempt t) level error) :
    Raised told tr id (level+1) (told error) := by
  obtain ⟨ts,error₀,hlength,hfail,rfl⟩ := h
  refine ⟨ts ++ [t],error₀,?_,?_,?_⟩
  · rw [List.length_append, List.length_singleton]
    omega
  · rw [List.append_assoc]
    exact hfail
  · rw [List.length_append, List.length_singleton, Function.iterate_succ_apply']

theorem Reached.last (h : .echo (id.attempt t) ∈ tr) : Reached tr id 0 := by
  refine ⟨[t],rfl,fun k hk => ?_⟩
  obtain rfl := Nat.le_zero.mp hk
  exact h

theorem Reached.up (h : Reached tr (id.attempt t) level) (hecho : .echo (id.attempt t) ∈ tr) :
    Reached tr id (level+1) := by
  obtain ⟨ts,hlength,hts⟩ := h
  refine ⟨ts ++ [t],by rw [List.length_append, hlength]; rfl,fun k hk => ?_⟩
  rcases Nat.lt_or_ge k (level+1) with hlt | hge
  · rw [List.drop_append_of_le_length (by omega), List.append_assoc]
    exact hts k (Nat.le_of_lt_succ hlt)
  · obtain rfl : k = ts.length := by omega
    rw [List.drop_left]
    exact hecho

end Levels

section Runs
variable {server : Nat → Server} {told : Error → Error} {tr : List Label} {s : State}

theorem Nested.returned (h : Nested server told tr s) {id : CallId} {t : Nat} {call : Call}
    {echo : Echo} {reply : Reply} (hcall : s.call id = some call)
    (hecho : s.echo (id.attempt t) = some echo) (hstage : echo.stage = .returned reply) :
    .echo (id.attempt t) ∈ tr ∧ echo.request = call.request ∧ echo.attachment = call.attachment ∧
      ((call.request.level = 0 ∧
        reply = .echoed call.request.message ((server echo.process).attach call.attachment)) ∨
      ∃ inner innerReply, s.call (id.attempt t) = some inner ∧ inner.result = some innerReply ∧
        inner.request.message = call.request.message ∧
        inner.request.level + 1 = call.request.level ∧
        reply = (server echo.process).answer call.attachment innerReply) := by
  obtain ⟨id',t',call',he,hcall',-,hrequest,hattachment⟩ := h.served _ echo hecho
  obtain ⟨rfl,rfl⟩ := CallId.attempt_inj he
  obtain rfl := Option.some.inj (hcall.symm.trans hcall')
  have hbegun : echo.stage ≠ .entered := by
    rw [hstage]
    exact fun h => by cases h
  refine ⟨h.begun _ echo hecho hbegun,hrequest,hattachment,?_⟩
  have howed := h.echo _ echo hecho
  rw [Echo.Owed, hstage] at howed
  rcases howed with ⟨hlast,hreply⟩ | ⟨inner,innerReply,hinner,hresult,hreply⟩
  · rw [CascadeRequest.level_pos, hrequest] at hlast
    exact .inl ⟨by omega,by rw [hreply, hrequest, hattachment]⟩
  · obtain ⟨echo',hecho',hmade⟩ := h.made id t inner hinner
    obtain rfl := Option.some.inj (hecho.symm.trans hecho')
    have hagain := CascadeRequest.level_again hmade.deeper
    rw [hrequest] at hagain
    exact .inr ⟨inner,innerReply,hinner,hresult,by rw [hmade.request, hrequest]; rfl,
      by rw [hmade.request, hrequest]; exact hagain,by rw [hreply, hattachment]⟩

theorem Nested.echoed (h : Nested server told tr s) {id : CallId} {call : Call}
    {message attachment : Bytes} (hcall : s.call id = some call)
    (hresult : call.result = some (.echoed message attachment)) :
    message = call.request.message ∧ Reached tr id call.request.level ∧
      ∃ t echo, s.echo (id.attempt t) = some echo ∧
        attachment = (server echo.process).attach call.attachment := by
  induction hlevel : call.request.level using Nat.strong_induction_on
    generalizing id call attachment with
  | _ level ih =>
    rcases h.call id call hcall _ hresult with ⟨_,-,hreply⟩ | ⟨t,echo,reply,hecho,hstage,hreply⟩
    · cases hreply
    obtain ⟨hbegun,-,-,⟨hlast,rfl⟩ | ⟨inner,innerReply,hinner,hinnerResult,hmessage,hdeeper,rfl⟩⟩ :=
      h.returned hcall hecho hstage
    · cases hreply
      rw [← hlevel, hlast]
      exact ⟨rfl,.last hbegun,t,echo,hecho,rfl⟩
    · -- the answer of the Echo's own call, one level down, is handed up
      cases innerReply with
      | failed => cases hreply
      | echoed innerMessage innerAttachment =>
        cases hreply
        obtain ⟨hsame,hreached,-⟩ := ih _ (by omega) hinner hinnerResult rfl
        rw [← hlevel, ← hdeeper]
        exact ⟨hsame.trans hmessage,hreached.up hbegun,t,echo,hecho,rfl⟩

theorem Nested.failed (h : Nested server told tr s) {id : CallId} {call : Call} {error : Error}
    (hcall : s.call id = some call) (hresult : call.result = some (.failed error)) :
    Raised told tr id call.request.level error := by
  induction hlevel : call.request.level using Nat.strong_induction_on
    generalizing id call error with
  | _ level ih =>
    rcases h.call id call hcall _ hresult with ⟨error,hfail,hreply⟩ |
      ⟨t,echo,reply,hecho,hstage,hreply⟩
    · cases hreply
      exact ⟨[],error,Nat.zero_le _,hfail,rfl⟩
    obtain ⟨-,-,-,⟨-,rfl⟩ | ⟨inner,innerReply,hinner,hinnerResult,-,hdeeper,rfl⟩⟩ :=
      h.returned hcall hecho hstage
    · cases hreply
    · cases innerReply with
      | echoed => cases hreply
      | failed innerError =>
        cases hreply
        rw [← hlevel, ← hdeeper]
        exact (ih _ (by omega) hinner hinnerResult rfl).up

/-- What the Echoes of a client's RPC are asked, and what the client is told at the end. -/
structure Told (server : Nat → Server) (told : Error → Error) (tr : List Label) (s : State)
    (n : Nat) (client : Client) : Prop where
  asked : ∀ e echo, s.echo e = some echo → e.1 = n →
    echo.request.message = client.message ∧
    echo.request.level + e.2.length = client.depth.toInt.toNat + 1 ∧
    echo.attachment = if e.2.length = 1 then client.attachment else []
  echoed : ∀ root message attachment, s.call (.root n) = some root →
    root.result = some (.echoed message attachment) →
    message = client.message ∧ Reached tr (.root n) client.depth.toInt.toNat ∧
      ∃ t echo, s.echo ((CallId.root n).attempt t) = some echo ∧
        attachment = (server echo.process).attach client.attachment
  failed : ∀ root error, s.call (.root n) = some root → root.result = some (.failed error) →
    Raised told tr (.root n) client.depth.toInt.toNat error

/-- Only an Echo that the client's own attempt reached has the client's attachment. -/
theorem told_run (hrun : runFrom (step server told) .init tr = some s) {n : Nat}
    {client : Client} (hsend : .send n client ∈ tr) : Told server told tr s n client := by
  have h := nested_run hrun
  obtain ⟨root,hroot,hrequest,hattachment,-⟩ := sent_run hrun hsend
  have hlevel : root.request.level = client.depth.toInt.toNat := by
    rw [hrequest, Client.request_level]
  have hmessage : root.request.message = client.message := by
    rw [hrequest]
    rfl
  refine ⟨fun e echo hecho hn => ?_,fun root' message attachment hroot' hresult => ?_,
    fun root' error hroot' hresult => ?_⟩
  · obtain ⟨⟨i,ts⟩,t,call,rfl,hcall,-,hasked,hwith⟩ := h.served e echo hecho
    obtain rfl : i = n := hn
    obtain ⟨root',hroot',hsame,hdeeper⟩ := h.asked hcall
    obtain rfl := Option.some.inj (hroot.symm.trans hroot')
    change _ ∧ _ + (ts.length + 1) = _ ∧ _ = if ts.length + 1 = 1 then _ else _
    refine ⟨by rw [hasked, hsame, hmessage],by rw [hasked, ← hlevel]; omega,?_⟩
    cases ts with
    | nil =>
      obtain rfl := Option.some.inj (hroot.symm.trans hcall)
      rw [hwith, hattachment]
      rfl
    | cons t' ts =>
      obtain ⟨_,_,-,hinner,-⟩ := h.parent hcall
      rw [hwith, hinner.attachment, if_neg (by simp)]
  · obtain rfl := Option.some.inj (hroot.symm.trans hroot')
    obtain ⟨hsame,hreached,hwith⟩ := h.echoed hroot hresult
    rw [hlevel] at hreached
    rw [hattachment] at hwith
    exact ⟨hsame.trans hmessage,hreached,hwith⟩
  · obtain rfl := Option.some.inj (hroot.symm.trans hroot')
    rw [← hlevel]
    exact h.failed hroot hresult

end Runs

theorem told_servedTwice :
    ∃ s, runFrom (step (fun _ => {}) fun error => error) .init servedTwice = some s ∧
      Told (fun _ => {}) (fun error => error) servedTwice s 0 { depth := 1 } := by
  have hsome : (runFrom (step (fun _ => {}) fun error => error) .init servedTwice).isSome := by
    decide
  obtain ⟨s,hs⟩ := Option.isSome_iff_exists.mp hsome
  exact ⟨s,hs,told_run hs (by decide)⟩

example : ((runFrom (step (fun _ => {}) fun error => error) .init servedTwice).bind fun s =>
    (s.call (.root 0)).bind Call.result) = some (.echoed (text "hello world") (text "foo")) := by
  decide

end EaHalfHour.Cascade
