import Mathlib.Data.List.Nodup
import Mathlib.Logic.Function.Basic
import EaHalfHour.LabelledRun

/-! Linearizability of concurrent calls on one sequential object, and the
simulation that proves it. The object is any function `apply`; the calls are
named by any type. No particular object or scheduler is assumed. -/
namespace EaHalfHour.AtomicObject
open LabelledRun
variable {κ σ ι ρ : Type*}

theorem update_found [DecidableEq κ] {α : Type*} {f : κ → Option α} {i id : κ} {new x : α}
    (h : Function.update f i (some new) id = some x) :
    (id = i ∧ new = x) ∨ (id ≠ i ∧ f id = some x) := by
  by_cases hid : id = i
  · subst hid
    exact Or.inl ⟨rfl,by simpa using h⟩
  · exact Or.inr ⟨hid,by rwa [Function.update_of_ne hid] at h⟩

def replay (apply : ι → σ → ρ × σ) : List ι → σ → List ρ × σ
  | [], s => ([],s)
  | op :: ops, s =>
    ((apply op s).1 :: (replay apply ops (apply op s).2).1, (replay apply ops (apply op s).2).2)

theorem replay_append (apply : ι → σ → ρ × σ) (u v : List ι) (s : σ) :
    replay apply (u ++ v) s =
      ((replay apply u s).1 ++ (replay apply v (replay apply u s).2).1,
        (replay apply v (replay apply u s).2).2) := by
  induction u generalizing s with
  | nil => rfl
  | cons op u ih => simp [replay, ih]

theorem replay_invariant {apply : ι → σ → ρ × σ} {P : σ → Prop} {ops : List ι}
    (hstep : ∀ op ∈ ops, ∀ s, P s → P (apply op s).2) {s : σ} (h : P s) :
    P (replay apply ops s).2 := by
  induction ops generalizing s with
  | nil => exact h
  | cons op ops ih =>
    have hrest := fun op' hop' => hstep op' (List.mem_cons_of_mem op hop')
    exact ih hrest (hstep op (List.mem_cons_self ..) s h)

theorem replay_related {τ ρ' : Type*} {apply : ι → σ → ρ × σ} {apply' : ι → τ → ρ' × τ}
    {R : σ → τ → Prop} {A : ρ → ρ' → Prop} {ops : List ι}
    (hstep : ∀ op ∈ ops, ∀ s t, R s t →
      A (apply op s).1 (apply' op t).1 ∧ R (apply op s).2 (apply' op t).2)
    {s : σ} {t : τ} (h : R s t) :
    List.Forall₂ A (replay apply ops s).1 (replay apply' ops t).1 ∧
      R (replay apply ops s).2 (replay apply' ops t).2 := by
  induction ops generalizing s t with
  | nil => exact ⟨.nil,h⟩
  | cons op ops ih =>
    obtain ⟨hanswer,hnext⟩ := hstep op (List.mem_cons_self ..) s t h
    obtain ⟨hanswers,hlast⟩ := ih (fun op' hop' => hstep op' (List.mem_cons_of_mem op hop')) hnext
    exact ⟨.cons hanswer hanswers,hlast⟩

theorem replay_simulates {τ : Type*} {apply : ι → σ → ρ × σ} {apply' : ι → τ → ρ × τ} {f : σ → τ}
    (hstep : ∀ op s, apply' op (f s) = ((apply op s).1,f (apply op s).2)) (ops : List ι) (s : σ) :
    replay apply' ops (f s) = ((replay apply ops s).1,f (replay apply ops s).2) := by
  induction ops generalizing s with
  | nil => rfl
  | cons op ops ih => simp only [replay, hstep, ih]

/-- An operation that a second execution leaves the state of alone has its effect
once, however often it is executed in a row, and is answered alike from then on. -/
theorem replay_replicate {apply : ι → σ → ρ × σ} {op : ι} {s : σ}
    (hsettled : (apply op (apply op s).2).2 = (apply op s).2) (n : Nat) :
    replay apply (List.replicate (n+1) op) s =
      ((apply op s).1 :: List.replicate n (apply op (apply op s).2).1,(apply op s).2) := by
  have hrest : replay apply (List.replicate n op) (apply op s).2 =
      (List.replicate n (apply op (apply op s).2).1,(apply op s).2) := by
    induction n with
    | zero => rfl
    | succ n ih => simp only [List.replicate_succ, replay, hsettled, ih]
  simp only [List.replicate_succ, replay, hrest]

inductive Event (κ ι ρ : Type*) where
  | invoke (id : κ) (op : ι)
  | respond (id : κ) (answer : ρ)
deriving DecidableEq

structure Entry (κ ι ρ : Type*) where
  id : κ
  op : ι
  answer : ρ
deriving DecidableEq

def Precedes (h : List (Event κ ι ρ)) (i j : κ) : Prop :=
  ∃ u w op, h = u ++ .invoke j op :: w ∧ ∃ r, .respond i r ∈ u

/-- `order` explains the history `h`: each call is placed once, every returned
call with the answer it gave; replaying the order from `s₀` gives exactly those
answers and ends in `s`; and a call that returned before another was made comes
before it. Calls that have not returned may be placed or left out. -/
structure Linearizes (apply : ι → σ → ρ × σ) (s₀ : σ) (h : List (Event κ ι ρ))
    (order : List (Entry κ ι ρ)) (s : σ) : Prop where
  nodup : (order.map Entry.id).Nodup
  invoked : ∀ e ∈ order, .invoke e.id e.op ∈ h
  answered : ∀ i r, .respond i r ∈ h → ∃ op, ⟨i,op,r⟩ ∈ order
  legal : replay apply (order.map Entry.op) s₀ = (order.map Entry.answer, s)
  realtime : ∀ i j, Precedes h i j → ∀ u e v, order = u ++ e :: v → e.id = j →
    i ∈ u.map Entry.id

inductive Stage (ι ρ : Type*) where
  | idle
  | opened (op : ι)
  | applied (op : ι) (answer : ρ)
  | closed

/-- The canonical atomic object: a call opens, takes effect in one step somewhere
between its invocation and its response, and closes with the answer it got. -/
inductive Atomic [DecidableEq κ] (apply : ι → σ → ρ × σ) (s₀ : σ) :
    List (Event κ ι ρ) → List (Entry κ ι ρ) → (κ → Stage ι ρ) → σ → Prop where
  | init : Atomic apply s₀ [] [] (fun _ => .idle) s₀
  | invoke {h order c s} (i : κ) (op : ι) : Atomic apply s₀ h order c s → c i = .idle →
      Atomic apply s₀ (h ++ [.invoke i op]) order (Function.update c i (.opened op)) s
  | commit {h order c s} (i : κ) (op : ι) : Atomic apply s₀ h order c s → c i = .opened op →
      Atomic apply s₀ h (order ++ [⟨i,op,(apply op s).1⟩])
        (Function.update c i (.applied op (apply op s).1)) (apply op s).2
  | respond {h order c s} (i : κ) (op : ι) (r : ρ) : Atomic apply s₀ h order c s →
      c i = .applied op r →
      Atomic apply s₀ (h ++ [.respond i r]) order (Function.update c i .closed) s

theorem precedes_concat (h : List (Event κ ι ρ)) (x : Event κ ι ρ) (i j : κ) :
    Precedes (h ++ [x]) i j ↔
      Precedes h i j ∨ ((∃ op, x = .invoke j op) ∧ ∃ r, .respond i r ∈ h) := by
  constructor
  · rintro ⟨u,w,op,he,r,hr⟩
    induction w using List.reverseRecOn with
    | nil =>
      obtain ⟨rfl,hx⟩ := List.append_inj' he rfl
      exact Or.inr ⟨⟨op,by simpa using hx⟩,r,hr⟩
    | append_singleton w y _ =>
      have he' : h ++ [x] = (u ++ .invoke j op :: w) ++ [y] := by simpa using he
      obtain ⟨hh,-⟩ := List.append_inj' he' rfl
      exact Or.inl ⟨u,w,op,hh,r,hr⟩
  · rintro (⟨u,w,op,rfl,hr⟩ | ⟨⟨op,rfl⟩,hr⟩)
    · exact ⟨u,w ++ [x],op,by simp,hr⟩
    · exact ⟨h,[],op,rfl,hr⟩

theorem concat_split {α : Type*} {l u v : List α} {x y : α}
    (h : l ++ [x] = u ++ y :: v) :
    (v = [] ∧ l = u ∧ x = y) ∨ ∃ w, v = w ++ [x] ∧ l = u ++ y :: w := by
  induction v using List.reverseRecOn with
  | nil =>
    obtain ⟨hl,hx⟩ := List.append_inj' h rfl
    exact Or.inl ⟨rfl,hl,by simpa using hx⟩
  | append_singleton v z _ =>
    have h' : l ++ [x] = (u ++ y :: v) ++ [z] := by simpa using h
    obtain ⟨hl,hx⟩ := List.append_inj' h' rfl
    exact Or.inr ⟨v,by simpa using hx.symm,hl⟩

section Canonical
variable {apply : ι → σ → ρ × σ} {s₀ s : σ}
  {h : List (Event κ ι ρ)} {order : List (Entry κ ι ρ)} {c : κ → Stage ι ρ}

theorem Linearizes.perm (hl : Linearizes apply s₀ h order s) {calls : List (Entry κ ι ρ)}
    (hnodup : (calls.map Entry.id).Nodup)
    (hinvoked : ∀ i op, .invoke i op ∈ h → ∃ e ∈ calls, e.id = i ∧ e.op = op)
    (hanswered : ∀ e ∈ calls, .respond e.id e.answer ∈ h) : order.Perm calls := by
  have hplaced : ∀ e ∈ calls, e ∈ order := by
    intro e he
    obtain ⟨op,hmem⟩ := hl.answered e.id e.answer (hanswered e he)
    obtain ⟨e',he',hid,hop⟩ := hinvoked e.id op (hl.invoked _ hmem)
    obtain rfl := List.inj_on_of_nodup_map hnodup he' he hid
    rw [← hop] at hmem
    exact hmem
  have hback : ∀ e ∈ order, e ∈ calls := by
    intro e he
    obtain ⟨e',he',hid,-⟩ := hinvoked e.id e.op (hl.invoked e he)
    obtain rfl := List.inj_on_of_nodup_map hl.nodup (hplaced e' he') he hid
    exact he'
  exact (List.perm_ext_iff_of_nodup hl.nodup.of_map hnodup.of_map).mpr
    fun e => ⟨hback e,hplaced e⟩

structure Canon (h : List (Event κ ι ρ)) (order : List (Entry κ ι ρ))
    (c : κ → Stage ι ρ) : Prop where
  opened : ∀ i op, c i = .opened op → .invoke i op ∈ h
  placed : ∀ i, i ∈ order.map Entry.id ↔ (∃ op r, c i = .applied op r) ∨ c i = .closed
  entry : ∀ i op r, c i = .applied op r → ⟨i,op,r⟩ ∈ order

theorem Canon.not_placed (hc : Canon h order c) {i : κ}
    (hi : c i = .idle ∨ ∃ op, c i = .opened op) : i ∉ order.map Entry.id := by
  rw [hc.placed i]
  rcases hi with hi | ⟨op,hi⟩ <;> simp [hi]

variable [DecidableEq κ]

theorem atomic_canon (ha : Atomic apply s₀ h order c s) : Canon h order c := by
  induction ha with
  | init => exact ⟨by simp,by simp,by simp⟩
  | invoke i op _ hi ih =>
    have hnot := ih.not_placed (Or.inl hi)
    refine ⟨fun j op' hj => ?_,fun j => ?_,fun j op' r hj => ?_⟩
    · by_cases hji : j = i
      · subst hji
        have hop : op = op' := by simpa using hj
        simp [hop]
      · exact List.mem_append_left _ (ih.opened j op' (by simpa [hji] using hj))
    · by_cases hji : j = i
      · subst hji
        simpa using hnot
      · simpa [hji] using ih.placed j
    · by_cases hji : j = i
      · subst hji
        simp at hj
      · exact ih.entry j op' r (by simpa [hji] using hj)
  | commit i op _ hi ih =>
    refine ⟨fun j op' hj => ?_,fun j => ?_,fun j op' r hj => ?_⟩
    · by_cases hji : j = i
      · subst hji
        simp at hj
      · exact ih.opened j op' (by simpa [hji] using hj)
    · by_cases hji : j = i
      · subst hji
        simp
      · simpa [hji] using ih.placed j
    · by_cases hji : j = i
      · subst hji
        obtain ⟨rfl,rfl⟩ : op = op' ∧ _ := by simpa using hj
        simp
      · exact List.mem_append_left _ (ih.entry j op' r (by simpa [hji] using hj))
  | respond i op r _ hi ih =>
    refine ⟨fun j op' hj => ?_,fun j => ?_,fun j op' r' hj => ?_⟩
    · by_cases hji : j = i
      · subst hji
        simp at hj
      · exact List.mem_append_left _ (ih.opened j op' (by simpa [hji] using hj))
    · by_cases hji : j = i
      · subst hji
        have := (ih.placed j).mpr (Or.inl ⟨op,r,hi⟩)
        simpa using this
      · simpa [hji] using ih.placed j
    · by_cases hji : j = i
      · subst hji
        simp at hj
      · exact ih.entry j op' r' (by simpa [hji] using hj)

theorem atomic_linearizes (ha : Atomic apply s₀ h order c s) :
    Linearizes apply s₀ h order s := by
  induction ha with
  | init =>
    refine ⟨by simp,by simp,by simp,rfl,?_⟩
    intro i j _ u e v he _
    simp at he
  | invoke i op ha hi ih =>
    have hnot := (atomic_canon ha).not_placed (Or.inl hi)
    refine ⟨ih.nodup,fun e he => List.mem_append_left _ (ih.invoked e he),?_,ih.legal,?_⟩
    · intro j r hr
      exact ih.answered j r (by simpa using hr)
    · intro j k hp u e v he hk
      rcases (precedes_concat _ _ j k).mp hp with hp | ⟨⟨op',hop⟩,_⟩
      · exact ih.realtime j k hp u e v he hk
      · have hik : i = k := (Event.invoke.inj hop).1
        exact absurd (by rw [he]; simp [hik,hk]) hnot
  | commit i op ha hi ih =>
    have hnot := (atomic_canon ha).not_placed (Or.inr ⟨op,hi⟩)
    refine ⟨?_,?_,?_,?_,?_⟩
    · rw [List.map_append,List.nodup_append]
      refine ⟨ih.nodup,by simp,?_⟩
      intro a ha' b hb hab
      simp only [List.map_cons, List.map_nil, List.mem_singleton] at hb
      exact hnot (hb ▸ hab ▸ ha')
    · intro e he
      rcases List.mem_append.mp he with he | he
      · exact ih.invoked e he
      · simp only [List.mem_singleton] at he
        subst he
        exact (atomic_canon ha).opened i op hi
    · intro j r hr
      obtain ⟨op',he⟩ := ih.answered j r hr
      exact ⟨op',List.mem_append_left _ he⟩
    · simp [replay_append,ih.legal,replay]
    · intro j k hp u e v he hk
      rcases concat_split he with ⟨-,rfl,-⟩ | ⟨w,-,he⟩
      · obtain ⟨x,w,op',hh,r,hr⟩ := hp
        obtain ⟨op'',hmem⟩ := ih.answered j r (by rw [hh]; exact List.mem_append_left _ hr)
        exact List.mem_map_of_mem hmem
      · exact ih.realtime j k hp u e w he hk
  | respond i op r ha hi ih =>
    refine ⟨ih.nodup,fun e he => List.mem_append_left _ (ih.invoked e he),?_,ih.legal,?_⟩
    · intro j r' hr
      rcases List.mem_append.mp hr with hr | hr
      · exact ih.answered j r' hr
      · obtain ⟨rfl,rfl⟩ : j = i ∧ r' = r := by simpa using hr
        exact ⟨op,(atomic_canon ha).entry j op r' hi⟩
    · intro j k hp u e v he hk
      rcases (precedes_concat _ _ j k).mp hp with hp | ⟨⟨op',hop⟩,_⟩
      · exact ih.realtime j k hp u e v he hk
      · cases hop

/-- What one step of an implementation may do to the canonical atomic object
that shadows it, given the event a client sees at that step. -/
inductive Move (apply : ι → σ → ρ × σ) :
    Option (Event κ ι ρ) → (κ → Stage ι ρ) → σ → (κ → Stage ι ρ) → σ → Prop where
  | stay (c : κ → Stage ι ρ) (s : σ) : Move apply none c s c s
  | commit (c : κ → Stage ι ρ) (s : σ) (i : κ) (op : ι) : c i = .opened op →
      Move apply none c s (Function.update c i (.applied op (apply op s).1)) (apply op s).2
  | invoke (c : κ → Stage ι ρ) (s : σ) (i : κ) (op : ι) : c i = .idle →
      Move apply (some (.invoke i op)) c s (Function.update c i (.opened op)) s
  | respond (c : κ → Stage ι ρ) (s : σ) (i : κ) (op : ι) (r : ρ) : c i = .applied op r →
      Move apply (some (.respond i r)) c s (Function.update c i .closed) s

section Moves
variable {apply : ι → σ → ρ × σ} {c c' : κ → Stage ι ρ} {s s' : σ} {i : κ}

theorem move_none (h : Move apply none c s c' s') : (c' = c ∧ s' = s) ∨ ∃ i op, c i = .opened op ∧
    c' = Function.update c i (.applied op (apply op s).1) ∧ s' = (apply op s).2 := by
  cases h with
  | stay => exact Or.inl ⟨rfl,rfl⟩
  | commit _ _ i op hi => exact Or.inr ⟨i,op,hi,rfl,rfl⟩

theorem move_invoke {op : ι} (h : Move apply (some (.invoke i op)) c s c' s') :
    c i = .idle ∧ c' = Function.update c i (.opened op) ∧ s' = s := by
  cases h with
  | invoke _ _ _ _ hi => exact ⟨hi,rfl,rfl⟩

theorem move_respond {r : ρ} (h : Move apply (some (.respond i r)) c s c' s') :
    ∃ op, c i = .applied op r ∧ c' = Function.update c i .closed ∧ s' = s := by
  cases h with
  | respond _ _ _ op _ hi => exact ⟨op,hi,rfl,rfl⟩

end Moves

/-- A forward simulation into the canonical atomic object explains every run of
the implementation whose steps pass the guard that the simulation needs. -/
theorem simulation_linearizes {τ ε : Type*} {step : τ → ε → Option τ} {q₀ q : τ}
    (event : ε → Option (Event κ ι ρ)) (ok : τ → ε → Prop)
    (R : τ → (κ → Stage ι ρ) → σ → Prop) (h0 : R q₀ (fun _ => .idle) s₀)
    (hstep : ∀ q c s e q', R q c s → ok q e → step q e = some q' →
      ∃ c' s', Move apply (event e) c s c' s' ∧ R q' c' s')
    {es : List ε} (hrun : runFrom step q₀ es = some q) (hok : Guarded step ok q₀ es) :
    ∃ order c s, Linearizes apply s₀ (es.filterMap event) order s ∧ R q c s := by
  suffices hsim : ∃ order c s, Atomic apply s₀ (es.filterMap event) order c s ∧ R q c s by
    obtain ⟨order,c,s,ha,hR⟩ := hsim
    exact ⟨order,c,s,atomic_linearizes ha,hR⟩
  refine guarded_invariant
    (P := fun es q => ∃ order c s, Atomic apply s₀ (es.filterMap event) order c s ∧ R q c s)
    ⟨[],_,_,Atomic.init,h0⟩ ?_ es q hrun hok
  rintro es m e n _ ⟨order,c,s,ha,hR⟩ he hn
  obtain ⟨c',s',hmove,hR'⟩ := hstep m c s e n hR he hn
  have hone : [e].filterMap event = (event e).toList := by cases he : event e <;> simp [he]
  rw [List.filterMap_append,hone]
  generalize event e = ev at hmove
  cases hmove with
  | stay => exact ⟨order,c,s,by simpa using ha,hR'⟩
  | commit _ _ i op hi => exact ⟨_,_,_,by simpa using Atomic.commit i op ha hi,hR'⟩
  | invoke _ _ i op hi => exact ⟨order,_,s,Atomic.invoke i op ha hi,hR'⟩
  | respond _ _ i op r hi => exact ⟨order,_,s,Atomic.respond i op r ha hi,hR'⟩

end Canonical

section Sharded
variable {β : Type*} [DecidableEq β] (owner : ι → β) (apply : ι → σ → ρ × σ)

def applyAt (op : ι) (f : β → σ) : ρ × (β → σ) :=
  ((apply op (f (owner op))).1, Function.update f (owner op) (apply op (f (owner op))).2)

theorem replay_shard (order : List (Entry κ ι ρ)) {f g : β → σ} (b : β)
    (h : replay (applyAt owner apply) (order.map Entry.op) f = (order.map Entry.answer, g)) :
    replay apply ((order.filter fun e => decide (owner e.op = b)).map Entry.op) (f b) =
      ((order.filter fun e => decide (owner e.op = b)).map Entry.answer, g b) := by
  induction order generalizing f with
  | nil =>
    obtain rfl : f = g := congrArg Prod.snd h
    rfl
  | cons e order ih =>
    simp only [List.map_cons, replay, Prod.mk.injEq, List.cons.injEq] at h
    obtain ⟨⟨hanswer,hanswers⟩,hlast⟩ := h
    have hrest := ih (Prod.ext hanswers hlast)
    by_cases hb : owner e.op = b
    · subst hb
      simp only [applyAt, Function.update_self] at hanswer hrest
      simp [replay, hrest, hanswer]
    · have hne : b ≠ owner e.op := Ne.symm hb
      simp only [applyAt, Function.update_of_ne hne] at hrest
      simp [hb, hrest]

variable {owner apply} {τ ρ' : Type*} {apply' : ι → τ → ρ' × τ} {R : β → σ → τ → Prop}
  {A : ρ → ρ' → Prop}

theorem applyAt_related {op : ι} {f : β → σ} {g : β → τ} (h : ∀ b, R b (f b) (g b))
    (hop : A (apply op (f (owner op))).1 (apply' op (g (owner op))).1 ∧
      R (owner op) (apply op (f (owner op))).2 (apply' op (g (owner op))).2) :
    A (applyAt owner apply op f).1 (applyAt owner apply' op g).1 ∧
      ∀ b, R b ((applyAt owner apply op f).2 b) ((applyAt owner apply' op g).2 b) := by
  refine ⟨hop.1,fun b => ?_⟩
  by_cases hb : b = owner op
  · subst hb
    simpa only [applyAt, Function.update_self] using hop.2
  · simpa only [applyAt, Function.update_of_ne hb] using h b

end Sharded

end EaHalfHour.AtomicObject
