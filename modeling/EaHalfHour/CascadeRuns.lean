import EaHalfHour.CallTree
import EaHalfHour.CascadeTree

/-! Runs of the cascade: how far one RPC can spread over the servers, that it comes to an
end and that it is then answered. -/
namespace EaHalfHour.Cascade
open LabelledRun AtomicObject KvMessage CallTree

inductive Event where
  | sent | transmitted | delivered | begun | settled | finished
deriving DecidableEq

def Event.all : Finset Event := {.sent,.transmitted,.delivered,.begun,.settled,.finished}

theorem Event.mem_all (k : Event) : k ∈ Event.all := by cases k <;> decide

def Label.event : Label → Event × CallId
  | .send n _ => (.sent,.root n)
  | .transmit id t => (.transmitted,id.attempt t)
  | .deliver id t _ => (.delivered,id.attempt t)
  | .echo id => (.begun,id)
  | .reply id _ | .fail id _ => (.settled,id)
  | .finish id => (.finished,id)

def Label.rpc (l : Label) : Nat := l.event.2.1

def Tried (s : State) (id : CallId) (t : Nat) (e : CallId) : Prop :=
  e = id.attempt t ∧ ∃ call, s.call id = some call ∧ t < call.sent

def Happened (s : State) (e : CallId) : Event → Prop
  | .sent => ∃ call, s.call e = some call
  | .transmitted => ∃ id t, Tried s id t e
  | .delivered => ∃ echo, s.echo e = some echo
  | .begun => ∃ echo, s.echo e = some echo ∧ echo.stage ≠ .entered
  | .settled => ∃ call reply, s.call e = some call ∧ call.result = some reply
  | .finished => ∃ echo reply, s.echo e = some echo ∧ echo.stage = .returned reply

/-- Nothing but another client and melon giving a call up can still happen. -/
def Quiet (server : Nat → Server) (told : Error → Error) (s : State) : Prop :=
  ∀ l s', step server told s l = some s' →
    (∃ n client, l = .send n client) ∨ ∃ id error, l = .fail id error

section Runs
variable {server : Nat → Server} {told : Error → Error} {tr : List Label} {s s' : State}
  {l : Label}

theorem Tried.kept (h : Nested server told tr s) (hs : Step server told s l s') {id e : CallId}
    {t : Nat} (htried : Tried s id t e) : Tried s' id t e := by
  obtain ⟨he,call,hcall,hlt⟩ := htried
  obtain ⟨call',hcall',hgrows⟩ := call_grows h hs hcall
  exact ⟨he,call',hcall',Nat.lt_of_lt_of_le hlt hgrows.sent⟩

theorem Happened.kept (h : Nested server told tr s) (hs : Step server told s l s') {e : CallId}
    {k : Event} (hk : Happened s e k) : Happened s' e k := by
  cases k with
  | sent =>
    obtain ⟨call,hcall⟩ := hk
    obtain ⟨call',hcall',-⟩ := call_grows h hs hcall
    exact ⟨call',hcall'⟩
  | transmitted =>
    obtain ⟨id,t,htried⟩ := hk
    exact ⟨id,t,htried.kept h hs⟩
  | delivered =>
    obtain ⟨echo,hecho⟩ := hk
    obtain ⟨echo',hecho',-⟩ := echo_grows hs hecho
    exact ⟨echo',hecho'⟩
  | begun =>
    obtain ⟨echo,hecho,hbegun⟩ := hk
    obtain ⟨echo',hecho',hgrows⟩ := echo_grows hs hecho
    exact ⟨echo',hecho',hgrows.begun hbegun⟩
  | settled =>
    obtain ⟨call,reply,hcall,hresult⟩ := hk
    obtain ⟨call',hcall',hgrows⟩ := call_grows h hs hcall
    exact ⟨call',reply,hcall',hgrows.result reply hresult⟩
  | finished =>
    obtain ⟨echo,reply,hecho,hstage⟩ := hk
    obtain ⟨echo',hecho',hgrows⟩ := echo_grows hs hecho
    exact ⟨echo',reply,hecho',hgrows.returned reply hstage⟩

theorem event_new (hs : Step server told s l s') : ¬ Happened s l.event.2 l.event.1 := by
  cases hs with
  | send hnone =>
    rintro ⟨call,hcall⟩
    cases hnone.symm.trans hcall
  | transmit hcall =>
    rintro ⟨id,t,he,call,hcall',hlt⟩
    obtain ⟨rfl,rfl⟩ := CallId.attempt_inj he
    obtain rfl := Option.some.inj (hcall.symm.trans hcall')
    exact Nat.lt_irrefl _ hlt
  | deliver process hcall hlt hnone =>
    rintro ⟨echo,hecho⟩
    cases hnone.symm.trans hecho
  | again hecho hstage | last hecho hstage =>
    rintro ⟨echo,hecho',hbegun⟩
    obtain rfl := Option.some.inj (hecho.symm.trans hecho')
    exact hbegun hstage
  | reply hcall _ hresult | fail _ hcall hresult =>
    rintro ⟨call,reply,hcall',hresult'⟩
    obtain rfl := Option.some.inj (hcall.symm.trans hcall')
    rw [hresult] at hresult'
    cases hresult'
  | finish hecho _ hstage =>
    rintro ⟨echo,reply,hecho',hstage'⟩
    obtain rfl := Option.some.inj (hecho.symm.trans hecho')
    rw [hstage] at hstage'
    cases hstage'

theorem event_happened (hs : Step server told s l s') : Happened s' l.event.2 l.event.1 := by
  cases hs with
  | send => exact ⟨_,Function.update_self ..⟩
  | transmit => exact ⟨_,_,rfl,_,Function.update_self ..,Nat.lt_succ_self _⟩
  | deliver => exact ⟨_,Function.update_self ..⟩
  | again | last => exact ⟨_,Function.update_self ..,by simp [Echo.returns]⟩
  | reply | fail => exact ⟨_,_,Function.update_self ..,rfl⟩
  | finish => exact ⟨_,_,Function.update_self ..,rfl⟩

theorem events_once (hrun : runFrom (step server told) .init tr = some s) :
    (tr.map Label.event).Nodup ∧ ∀ l ∈ tr, Happened s l.event.2 l.event.1 := by
  refine run_invariant (P := fun tr s => (tr.map Label.event).Nodup ∧
    ∀ l ∈ tr, Happened s l.event.2 l.event.1) ⟨List.nodup_nil,fun l hl => by cases hl⟩ ?_ tr s hrun
  rintro es m l n hm ⟨hnodup,hpast⟩ hn
  have hnested := nested_run hm
  have hs := step_sound hn
  refine ⟨?_,fun l' hl' => ?_⟩
  · rw [List.map_append]
    refine List.nodup_append.mpr ⟨hnodup,List.nodup_singleton _,fun a ha b hb hab => ?_⟩
    obtain ⟨l',hl',rfl⟩ := List.mem_map.mp ha
    obtain rfl := List.mem_singleton.mp hb
    exact event_new hs (hab ▸ hpast l' hl')
  · rcases List.mem_append.mp hl' with hold | hnew
    · exact (hpast l' hold).kept hnested hs
    · obtain rfl := List.mem_singleton.mp hnew
      exact event_happened hs

def CascadeRequest.level (r : CascadeRequest) : Nat := r.getDepth.toInt.toNat

theorem CascadeRequest.level_pos {r : CascadeRequest} : 0 < r.getDepth ↔ 0 < r.level := by
  rw [Int32.lt_iff_toInt_lt, Int32.toInt_zero, level]
  omega

theorem CascadeRequest.level_again {r : CascadeRequest} (h : 0 < r.getDepth) :
    r.again.level + 1 = r.level := by
  have hpos : 0 < r.getDepth.toInt := Int32.lt_iff_toInt_lt.mp h
  have hlt := r.getDepth.toInt_lt
  have hagain : r.again.getDepth.toInt = r.getDepth.toInt - 1 := by
    change (r.getDepth - 1).toInt = _
    rw [Int32.toInt_sub, Int32.toInt_one]
    exact Int.bmod_eq_of_le (by omega) (by omega)
  rw [level, level, hagain]
  omega

theorem Client.request_level (client : Client) :
    client.request.level = client.depth.toInt.toNat := by
  unfold Client.request CascadeRequest.level CascadeRequest.getDepth
  split
  · rfl
  · rename_i h
    rw [Int32.lt_iff_toInt_lt, Int32.toInt_zero] at h
    rw [Option.getD_none, Int32.toInt_zero]
    omega

theorem Nested.parent (h : Nested server told tr s) {n t : Nat} {ts : List Nat} {call : Call}
    (hcall : s.call (n,t :: ts) = some call) :
    ∃ echo parent, s.echo (n,t :: ts) = some echo ∧ Inner server echo call ∧
      s.call (n,ts) = some parent ∧ t < parent.sent ∧ echo.request = parent.request := by
  obtain ⟨echo,hecho,hinner⟩ := h.made (n,ts) t call hcall
  obtain ⟨id,t',parent,he,hparent,hlt,hrequest,-⟩ := h.served _ echo hecho
  have hsame : CallId.attempt (n,ts) t = id.attempt t' := he
  obtain ⟨rfl,rfl⟩ := CallId.attempt_inj hsame
  exact ⟨echo,parent,hecho,hinner,hparent,hlt,hrequest⟩

theorem Nested.asked (h : Nested server told tr s) {n : Nat} {ts : List Nat} {call : Call}
    (hcall : s.call (n,ts) = some call) :
    ∃ root, s.call (.root n) = some root ∧ call.request.message = root.request.message ∧
      call.request.level + ts.length = root.request.level := by
  induction ts generalizing call with
  | nil => exact ⟨call,hcall,rfl,rfl⟩
  | cons t ts ih =>
    obtain ⟨echo,parent,-,hinner,hparent,-,hrequest⟩ := h.parent hcall
    obtain ⟨root,hroot,hmessage,hlevel⟩ := ih hparent
    have hagain := CascadeRequest.level_again hinner.deeper
    refine ⟨root,hroot,?_,?_⟩
    · rw [hinner.request, ← hmessage, ← hrequest]
      rfl
    · rw [hinner.request, List.length_cons]
      rw [hrequest] at hagain ⊢
      omega

theorem Nested.below (h : Nested server told tr s) {n : Nat} {ts : List Nat} {call : Call}
    (hcall : s.call (n,ts) = some call) : Below (Tried s) ts.length (.root n) (n,ts) := by
  induction ts generalizing call with
  | nil => exact .self _
  | cons t ts ih =>
    obtain ⟨-,parent,-,-,hparent,hlt,-⟩ := h.parent hcall
    exact (ih hparent).concat ⟨rfl,parent,hparent,hlt⟩

theorem below_length {k : Nat} {i e : CallId} (h : Below (Tried s) k i e) :
    e.1 = i.1 ∧ e.2.length = i.2.length + k := by
  induction h with
  | self => exact ⟨rfl,rfl⟩
  | step htried _ ih =>
    obtain ⟨rfl,-⟩ := htried
    refine ⟨ih.1,?_⟩
    rw [ih.2, CallId.attempt, List.length_cons]
    omega

theorem sent_run (hrun : runFrom (step server told) .init tr = some s) {n : Nat}
    {client : Client} (hsend : .send n client ∈ tr) :
    ∃ root, s.call (.root n) = some root ∧ root.request = client.request ∧
      root.attachment = client.attachment ∧ root.attempts = attempts client.maxRetry := by
  refine run_invariant (P := fun tr s => ∀ n client, .send n client ∈ tr →
    ∃ root, s.call (.root n) = some root ∧ root.request = client.request ∧
      root.attachment = client.attachment ∧ root.attempts = attempts client.maxRetry)
    (fun n client hmem => by cases hmem) ?_ tr s hrun n client hsend
  intro es m l n hm h hn i client hmem
  have hs := step_sound hn
  rcases List.mem_append.mp hmem with hold | hnew
  · obtain ⟨root,hroot,hrequest,hattachment,hattempts⟩ := h i client hold
    obtain ⟨root',hroot',hgrows⟩ := call_grows (nested_run hm) hs hroot
    exact ⟨root',hroot',hgrows.request.trans hrequest,hgrows.attachment.trans hattachment,
      hgrows.attempts.trans hattempts⟩
  · obtain rfl := List.mem_singleton.mp hnew
    cases hs
    exact ⟨_,Function.update_self ..,rfl,rfl,rfl⟩

/-- How many attempts a call `k` below the RPC has. -/
def limit (a r : Nat) : Nat → Nat
  | 0 => a
  | _+1 => r

theorem prod_limit (a r k : Nat) : ∏ i ∈ Finset.range (k+1), limit a r i = a * r^k := by
  rw [Finset.prod_range_succ', Nat.mul_comm]
  simp [limit]

theorem single_tried : Single (Tried s) := by
  rintro id t e e' ⟨rfl,-⟩ ⟨rfl,-⟩
  rfl

theorem Nested.few (h : Nested server told tr s) {n r : Nat} {root : Call}
    (hroot : s.call (.root n) = some root) (hr : ∀ p, attempts (server p).maxRetry ≤ r) :
    ∀ k i t e, Below (Tried s) k (.root n) i → Tried s i t e → t < limit root.attempts r k := by
  rintro k ⟨i,ts⟩ t e hbelow ⟨-,call,hcall,hlt⟩
  obtain ⟨hle,-⟩ := h.sent _ call hcall
  obtain ⟨hi,hlength⟩ := below_length hbelow
  obtain rfl : i = n := hi
  rw [CallId.root, List.length_nil, Nat.zero_add] at hlength
  cases ts with
  | nil =>
    obtain rfl : 0 = k := hlength
    obtain rfl := Option.some.inj (hroot.symm.trans hcall)
    exact Nat.lt_of_lt_of_le hlt hle
  | cons t' ts =>
    obtain ⟨k,rfl⟩ : ∃ m, k = m+1 := ⟨ts.length,hlength.symm⟩
    obtain ⟨echo,-,-,hinner,-⟩ := h.parent hcall
    have hallowed := hr echo.process
    rw [← hinner.attempts] at hallowed
    exact Nat.lt_of_lt_of_le hlt (hle.trans hallowed)

theorem Nested.tried_below (h : Nested server told tr s) {n : Nat} {root : Call}
    (hroot : s.call (.root n) = some root) {id e : CallId} {t : Nat} (htried : Tried s id t e)
    (hn : e.1 = n) :
    Below (Tried s) e.2.length (.root n) e ∧ e.2.length < root.request.level + 2 := by
  obtain ⟨i,ts⟩ := id
  obtain ⟨rfl,call,hcall,hlt⟩ := htried
  obtain rfl : i = n := hn
  refine ⟨(h.below hcall).concat ⟨rfl,call,hcall,hlt⟩,?_⟩
  obtain ⟨root',hroot',-,hlevel⟩ := h.asked hcall
  obtain rfl := Option.some.inj (hroot.symm.trans hroot')
  change ts.length + 1 < root.request.level + 2
  omega

theorem Nested.echo_tried (h : Nested server told tr s) {e : CallId} {echo : Echo}
    (hecho : s.echo e = some echo) : ∃ id t, Tried s id t e := by
  obtain ⟨id,t,call,he,hcall,hlt,-⟩ := h.served e echo hecho
  exact ⟨id,t,he,call,hcall,hlt⟩

theorem Nested.placed (h : Nested server told tr s) {n : Nat} {root : Call}
    (hroot : s.call (.root n) = some root) {e : CallId} {k : Event} (hk : Happened s e k)
    (hn : e.1 = n) :
    Below (Tried s) e.2.length (.root n) e ∧ e.2.length < root.request.level + 2 := by
  have hcalled : ∀ {call}, s.call e = some call →
      Below (Tried s) e.2.length (.root n) e ∧ e.2.length < root.request.level + 2 := by
    intro call hcall
    obtain ⟨i,ts⟩ := e
    obtain rfl : i = n := hn
    obtain ⟨root',hroot',-,hlevel⟩ := h.asked hcall
    obtain rfl := Option.some.inj (hroot.symm.trans hroot')
    refine ⟨h.below hcall,?_⟩
    change ts.length < root.request.level + 2
    omega
  have hserved : ∀ {echo}, s.echo e = some echo →
      Below (Tried s) e.2.length (.root n) e ∧ e.2.length < root.request.level + 2 := by
    intro echo hecho
    obtain ⟨id,t,htried⟩ := h.echo_tried hecho
    exact h.tried_below hroot htried hn
  cases k with
  | sent =>
    obtain ⟨call,hcall⟩ := hk
    exact hcalled hcall
  | transmitted =>
    obtain ⟨id,t,htried⟩ := hk
    exact h.tried_below hroot htried hn
  | delivered =>
    obtain ⟨echo,hecho⟩ := hk
    exact hserved hecho
  | begun =>
    obtain ⟨echo,hecho,-⟩ := hk
    exact hserved hecho
  | settled =>
    obtain ⟨call,-,hcall,-⟩ := hk
    exact hcalled hcall
  | finished =>
    obtain ⟨echo,-,hecho,-⟩ := hk
    exact hserved hecho

/-- While a call is open, it or a call below it can go on. -/
theorem Nested.settled_of_quiet (h : Nested server told tr s) (hquiet : Quiet server told s)
    {id : CallId} {call : Call} (hcall : s.call id = some call) :
    ∃ reply, call.result = some reply := by
  induction hlevel : call.request.level using Nat.strong_induction_on generalizing id call with
  | _ level ih =>
    have hstuck : ∀ {l s'}, Step server told s l s' → (∀ n client, l ≠ .send n client) →
        (∀ id error, l ≠ .fail id error) → False := by
      intro l s' hs hsend hfail
      rcases hquiet l s' (step_complete hs) with ⟨n,client,hl⟩ | ⟨i,error,hl⟩
      · exact hsend n client hl
      · exact hfail i error hl
    cases hresult : call.result with
    | some reply => exact ⟨reply,rfl⟩
    | none =>
      exfalso
      rcases Nat.eq_zero_or_pos call.sent with hzero | hpos
      · -- the first attempt can still be made
        have hable := (h.sent id call hcall).2
        exact hstuck (.transmit hcall hresult (by omega)) (by simp) (by simp)
      cases hecho : s.echo (id.attempt 0) with
      | none => exact hstuck (.deliver 0 hcall hpos hecho) (by simp) (by simp)
      | some echo =>
        cases hstage : echo.stage with
        | entered =>
          by_cases hdepth : 0 < echo.request.getDepth
          · exact hstuck (.again hecho hstage hdepth) (by simp) (by simp)
          · exact hstuck (.last hecho hstage hdepth) (by simp) (by simp)
        | returned reply => exact hstuck (.reply hcall hecho hresult hstage) (by simp) (by simp)
        | calling =>
          -- the Echo waits for a call that is one level deeper
          have howed := h.echo _ echo hecho
          rw [Echo.Owed, hstage] at howed
          obtain ⟨inner,hinner⟩ := howed
          obtain ⟨echo',parent,hecho',hmade,hparent,-,hrequest⟩ := h.parent hinner
          obtain rfl := Option.some.inj (hecho.symm.trans hecho')
          obtain rfl := Option.some.inj (hcall.symm.trans hparent)
          have hagain := CascadeRequest.level_again hmade.deeper
          obtain ⟨reply,hreply⟩ := ih inner.request.level
            (by rw [hmade.request, ← hlevel, ← hrequest]; omega) hinner rfl
          exact hstuck (.finish hecho hinner hstage hreply) (by simp) (by simp)

/-- What a run may make of one RPC of a client: how many steps it takes, how many Echoes
begin on each level, and that it is answered when nothing more can happen. -/
structure Ends (server : Nat → Server) (told : Error → Error) (tr : List Label) (s : State)
    (n : Nat) (client : Client) : Prop where
  steps : ∀ r, (∀ p, attempts (server p).maxRetry ≤ r) →
    (tr.filter fun l => l.rpc = n).length ≤ 6 * (1 +
      ∑ k ∈ Finset.range (client.depth.toInt.toNat + 1), attempts client.maxRetry * r^k)
  echoes : ∀ r, (∀ p, attempts (server p).maxRetry ≤ r) → ∀ k (S : Finset CallId),
    (∀ e ∈ S, .echo e ∈ tr ∧ e.1 = n ∧ e.2.length = k+1) →
      S.card ≤ attempts client.maxRetry * r^k
  deepest : ∀ e, .echo e ∈ tr → e.1 = n → e.2.length ≤ client.depth.toInt.toNat + 1
  answered : Quiet server told s →
    ∃ root reply, s.call (.root n) = some root ∧ root.result = some reply

theorem ends_run (hrun : runFrom (step server told) .init tr = some s) {n : Nat}
    {client : Client} (hsend : .send n client ∈ tr) : Ends server told tr s n client := by
  classical
  have h := nested_run hrun
  obtain ⟨hnodup,hpast⟩ := events_once hrun
  obtain ⟨root,hroot,hrequest,-,hattempts⟩ := sent_run hrun hsend
  have hlevel : root.request.level = client.depth.toInt.toNat := by
    rw [hrequest, Client.request_level]
  have hplaced : ∀ l ∈ tr, l.rpc = n →
      Below (Tried s) l.event.2.2.length (.root n) l.event.2 ∧
        l.event.2.2.length < client.depth.toInt.toNat + 2 := by
    intro l hl hn
    rw [← hlevel]
    exact h.placed hroot (hpast l hl) hn
  refine ⟨fun r hr => ?_,fun r hr k S hS => ?_,fun e he hn => ?_,fun hquiet => ?_⟩
  · -- each step is another event, and the events are of six kinds at the nodes of the tree
    let events := ((tr.filter fun l => l.rpc = n).map Label.event).toFinset
    have hevents : events.card = (tr.filter fun l => l.rpc = n).length := by
      rw [List.toFinset_card_of_nodup, List.length_map]
      exact hnodup.sublist (List.filter_sublist.map Label.event)
    have hnodes : (events.image Prod.snd).card ≤ ∑ m ∈ Finset.range (client.depth.toInt.toNat + 2),
        ∏ k ∈ Finset.range m, limit root.attempts r k := by
      refine card_le_sum single_tried (h.few hroot hr) _ fun e he => ?_
      obtain ⟨k,hk,rfl⟩ := Finset.mem_image.mp he
      obtain ⟨l,hl,rfl⟩ := List.mem_map.mp (List.mem_toFinset.mp hk)
      obtain ⟨hmem,hn⟩ := List.mem_filter.mp hl
      obtain ⟨hbelow,hlt⟩ := hplaced l hmem (by simpa using hn)
      exact ⟨_,hlt,hbelow⟩
    have hsum : ∑ m ∈ Finset.range (client.depth.toInt.toNat + 2),
        ∏ k ∈ Finset.range m, limit root.attempts r k =
          1 + ∑ k ∈ Finset.range (client.depth.toInt.toNat + 1),
            attempts client.maxRetry * r^k := by
      rw [Finset.sum_range_succ', Nat.add_comm, hattempts]
      simp only [prod_limit, Finset.prod_range_zero]
    calc (tr.filter fun l => l.rpc = n).length = events.card := hevents.symm
      _ ≤ (Event.all ×ˢ events.image Prod.snd).card := Finset.card_le_card fun k hk =>
        Finset.mem_product.mpr ⟨k.1.mem_all,Finset.mem_image_of_mem Prod.snd hk⟩
      _ = 6 * (events.image Prod.snd).card := by rw [Finset.card_product]; rfl
      _ ≤ 6 * (1 + ∑ k ∈ Finset.range (client.depth.toInt.toNat + 1),
          attempts client.maxRetry * r^k) := Nat.mul_le_mul_left 6 (hnodes.trans_eq hsum)
  · have hbelow : ∀ e ∈ S, Below (Tried s) (k+1) (.root n) e := by
      intro e he
      obtain ⟨hecho,hn,hlength⟩ := hS e he
      rw [← hlength]
      exact (hplaced (.echo e) hecho hn).1
    calc S.card ≤ ∏ i ∈ Finset.range (k+1), limit root.attempts r i :=
          card_le_prod single_tried (h.few hroot hr) S hbelow
      _ = attempts client.maxRetry * r^k := by rw [prod_limit, hattempts]
  · exact Nat.lt_succ_iff.mp (hplaced (.echo e) he hn).2
  · obtain ⟨reply,hreply⟩ := h.settled_of_quiet hquiet hroot
    exact ⟨root,reply,hroot,hreply⟩

end Runs

/-- The server calls itself once. Its first attempt is served, but only the reply to the
second one arrives. -/
def servedTwice : List Label :=
  [.send 0 { depth := 1 },.transmit (0,[]) 0,.deliver (0,[]) 0 0,.echo (0,[0]),
    .transmit (0,[0]) 0,.deliver (0,[0]) 0 0,.transmit (0,[0]) 1,.echo (0,[0,0]),
    .deliver (0,[0]) 1 0,.echo (0,[1,0]),.reply (0,[0]) 1,.finish (0,[0]),.reply (0,[]) 0]

theorem ends_servedTwice :
    ∃ s, runFrom (step (fun _ => {}) fun error => error) .init servedTwice = some s ∧
      Ends (fun _ => {}) (fun error => error) servedTwice s 0 { depth := 1 } := by
  have hsome : (runFrom (step (fun _ => {}) fun error => error) .init servedTwice).isSome := by
    decide
  obtain ⟨s,hs⟩ := Option.isSome_iff_exists.mp hsome
  exact ⟨s,hs,ends_run hs (by decide)⟩

end EaHalfHour.Cascade
