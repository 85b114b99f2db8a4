import Mathlib.Data.Finset.Card
import Mathlib.Data.List.Induction

/-! Finite runs of a system whose step is a partial function of a state and a
label. Nothing here names a program: the step is a parameter. -/
namespace EaHalfHour.LabelledRun
variable {σ ε : Type*} {step : σ → ε → Option σ}

def runFrom (step : σ → ε → Option σ) (s : σ) : List ε → Option σ
  | [] => some s
  | e :: es => (step s e).bind fun t => runFrom step t es

theorem runFrom_append (s : σ) (u v : List ε) :
    runFrom step s (u ++ v) = (runFrom step s u).bind fun t => runFrom step t v := by
  induction u generalizing s with
  | nil => rfl
  | cons e u ih =>
    simp only [List.cons_append, runFrom]
    cases step s e with
    | none => rfl
    | some m => simpa using ih m

theorem runFrom_append_iff (s t : σ) (u v : List ε) :
    runFrom step s (u ++ v) = some t ↔
      ∃ m, runFrom step s u = some m ∧ runFrom step m v = some t := by
  rw [runFrom_append, Option.bind_eq_some_iff]

theorem runFrom_cons_iff (s t : σ) (e : ε) (es : List ε) :
    runFrom step s (e :: es) = some t ↔
      ∃ m, step s e = some m ∧ runFrom step m es = some t := by
  rw [runFrom, Option.bind_eq_some_iff]

theorem runFrom_concat_iff (s t : σ) (es : List ε) (e : ε) :
    runFrom step s (es ++ [e]) = some t ↔
      ∃ m, runFrom step s es = some m ∧ step m e = some t := by
  simp [runFrom_append_iff, runFrom]

def Guarded (step : σ → ε → Option σ) (ok : σ → ε → Prop) (s : σ) (es : List ε) : Prop :=
  ∀ u e v m, es = u ++ e :: v → runFrom step s u = some m → ok m e

theorem guarded_of_forall {ok : ε → Prop} {s : σ} {es : List ε} (h : ∀ e ∈ es, ok e) :
    Guarded step (fun _ => ok) s es := by
  rintro u e v m rfl _
  exact h e (by simp)

theorem Guarded.left {ok : σ → ε → Prop} {s : σ} {u v : List ε}
    (h : Guarded step ok s (u ++ v)) : Guarded step ok s u := by
  rintro u' e v' m rfl hu
  exact h u' e (v' ++ v) m (by simp) hu

/-- The invariant rule for runs that pass a guard. The invariant may speak of the
labels taken so far. -/
theorem guarded_invariant {P : List ε → σ → Prop} {ok : σ → ε → Prop} {s : σ} (h0 : P [] s)
    (hstep : ∀ es m e n, runFrom step s es = some m → P es m → ok m e → step m e = some n →
      P (es ++ [e]) n) :
    ∀ es t, runFrom step s es = some t → Guarded step ok s es → P es t := by
  intro es
  induction es using List.reverseRecOn with
  | nil =>
    intro t h _
    cases h
    exact h0
  | append_singleton es e ih =>
    intro t h hok
    obtain ⟨m,hm,ht⟩ := (runFrom_concat_iff s t es e).mp h
    exact hstep es m e t hm (ih m hm hok.left) (hok es e [] m rfl hm) ht

theorem run_invariant {P : List ε → σ → Prop} {s : σ} (h0 : P [] s)
    (hstep : ∀ es m e n, runFrom step s es = some m → P es m → step m e = some n →
      P (es ++ [e]) n) (es : List ε) (t : σ) (h : runFrom step s es = some t) : P es t :=
  have hok : Guarded step (fun _ _ => True) s es := guarded_of_forall fun _ _ => trivial
  guarded_invariant h0 (fun es m e n hm hP _ hn => hstep es m e n hm hP hn) es t h hok

def Allowed (env : List ε → ε → Prop) : List ε → List ε → Prop
  | _, [] => True
  | past, e :: es => env past e ∧ Allowed env (past ++ [e]) es

instance decidableAllowed (env : List ε → ε → Prop) [∀ past e, Decidable (env past e)] :
    ∀ past es, Decidable (Allowed env past es)
  | _, [] => inferInstanceAs (Decidable True)
  | past, e :: es =>
    have := decidableAllowed env (past ++ [e]) es
    inferInstanceAs (Decidable (_ ∧ _))

theorem allowed_concat {env : List ε → ε → Prop} {past es : List ε} {e : ε} :
    Allowed env past (es ++ [e]) ↔ Allowed env past es ∧ env (past ++ es) e := by
  induction es generalizing past with
  | nil => simp [Allowed]
  | cons e' es ih => simp [Allowed, ih, and_assoc]

/-- The invariant rule for runs in an environment that answers by what went before. -/
theorem allowed_invariant {P : List ε → σ → Prop} {env : List ε → ε → Prop} {s : σ} (h0 : P [] s)
    (hstep : ∀ es m e n, runFrom step s es = some m → Allowed env [] es → P es m → env es e →
      step m e = some n → P (es ++ [e]) n) {es : List ε} {t : σ}
    (h : runFrom step s es = some t) (hallowed : Allowed env [] es) : P es t := by
  refine run_invariant (P := fun es t => Allowed env [] es → P es t) (fun _ => h0) ?_ es t h
    hallowed
  intro es m e n hm hP hn hes
  obtain ⟨hes,he⟩ := allowed_concat.mp hes
  exact hstep es m e n hm hes (hP hes) he hn

theorem run_switch (Q : σ → Prop) {s t : σ} {es : List ε}
    (h : runFrom step s es = some t) (hs : ¬ Q s) (ht : Q t) :
    ∃ u e v m n, es = u ++ e :: v ∧ runFrom step s u = some m ∧
      step m e = some n ∧ runFrom step n v = some t ∧ ¬ Q m ∧ Q n := by
  induction es generalizing s with
  | nil =>
    cases h
    exact absurd ht hs
  | cons e es ih =>
    obtain ⟨m,hm,hrest⟩ := (runFrom_cons_iff s t e es).mp h
    by_cases hq : Q m
    · exact ⟨[],e,es,s,m,rfl,rfl,hm,hrest,hs,hq⟩
    · obtain ⟨u,e',v,m',n',hes,hu,hstep,hv,hnot,hn⟩ := ih hrest hq
      refine ⟨e :: u,e',v,m',n',by rw [hes]; rfl,?_,hstep,hv,hnot,hn⟩
      exact (runFrom_cons_iff s m' e u).mpr ⟨m,hm,hu⟩

theorem run_at {s t : σ} {u v : List ε} {e : ε}
    (h : runFrom step s (u ++ e :: v) = some t) :
    ∃ m n, runFrom step s u = some m ∧ step m e = some n ∧ runFrom step n v = some t := by
  obtain ⟨m,hu,hev⟩ := (runFrom_append_iff s t u (e :: v)).mp h
  obtain ⟨n,he,hv⟩ := (runFrom_cons_iff m t e v).mp hev
  exact ⟨m,n,hu,he,hv⟩

/-- A loop without a test of its own: each pass leaves it or ends in the next state. -/
def Leaves (pass : σ → Option σ) (s : σ) : Prop :=
  ∃ n, runFrom (fun t (_ : Unit) => pass t) s (List.replicate n ()) = none

section Loop
variable {pass : σ → Option σ}

theorem leaves_now {s : σ} (h : pass s = none) : Leaves pass s :=
  ⟨1,by simp [runFrom, h]⟩

theorem leaves_next {s t : σ} (h : pass s = some t) : Leaves pass s ↔ Leaves pass t := by
  constructor
  · rintro ⟨n,hn⟩
    cases n with
    | zero => cases hn
    | succ n => exact ⟨n,by simpa [List.replicate_succ, runFrom, h] using hn⟩
  · rintro ⟨n,hn⟩
    exact ⟨n+1,by simpa [List.replicate_succ, runFrom, h] using hn⟩

theorem not_leaves_of_progress (I : σ → Prop) (hI : ∀ s, I s → ∃ t, pass s = some t ∧ I t)
    {s : σ} (hs : I s) : ¬ Leaves pass s := by
  rintro ⟨n,hn⟩
  induction n generalizing s with
  | zero => cases hn
  | succ n ih =>
    obtain ⟨t,ht,hIt⟩ := hI s hs
    exact ih hIt (by simpa [List.replicate_succ, runFrom, ht] using hn)

theorem leaves_iff {state : Nat → σ} {exits : Nat → Prop}
    (hexit : ∀ n, exits n → pass (state n) = none)
    (hnext : ∀ n, ¬ exits n → pass (state n) = some (state (n+1))) :
    Leaves pass (state 0) ↔ ∃ n, exits n := by
  constructor
  · intro h
    by_contra hnone
    refine not_leaves_of_progress (fun s => ∃ n, s = state n) ?_ ⟨0,rfl⟩ h
    rintro _ ⟨n,rfl⟩
    exact ⟨state (n+1),hnext n fun hn => hnone ⟨n,hn⟩,n+1,rfl⟩
  · rintro ⟨n,hn⟩
    have hall : ∀ m ≤ n, Leaves pass (state (n-m)) := by
      intro m
      induction m with
      | zero => exact fun _ => leaves_now (hexit n hn)
      | succ m ih =>
        intro hm
        by_cases hex : exits (n-(m+1))
        · exact leaves_now (hexit _ hex)
        · rw [leaves_next (hnext _ hex), show n-(m+1)+1 = n-m by omega]
          exact ih (by omega)
    simpa using hall n (Nat.le_refl n)

end Loop

section Finite
variable {ok : ε → Prop} {I : σ → Prop} {rank : σ → Nat}

theorem length_le_rank (hstep : ∀ s e t, I s → ok e → step s e = some t → I t ∧ rank t < rank s)
    {s t : σ} {es : List ε} (hs : I s) (hrun : runFrom step s es = some t)
    (hok : ∀ e ∈ es, ok e) : I t ∧ es.length + rank t ≤ rank s := by
  induction es generalizing s with
  | nil =>
    cases hrun
    exact ⟨hs,by simp⟩
  | cons e es ih =>
    obtain ⟨m,hm,hrest⟩ := (runFrom_cons_iff s t e es).mp hrun
    obtain ⟨hIm,hlt⟩ := hstep s e m hs (hok e (List.mem_cons_self ..)) hm
    obtain ⟨hIt,hle⟩ := ih hIm hrest fun e' he' => hok e' (List.mem_cons_of_mem e he')
    exact ⟨hIt,by rw [List.length_cons]; omega⟩

end Finite

section Endless
variable {s₀ : σ} {state : Nat → σ} {label : Nat → ε} {acts : σ → ε → Prop} {rank : σ → Nat}

structure Endless (step : σ → ε → Option σ) (s₀ : σ) (state : Nat → σ) (label : Nat → ε) :
    Prop where
  start : state 0 = s₀
  next : ∀ n, step (state n) (label n) = some (state (n+1))

theorem Endless.run_until (h : Endless step s₀ state label) (n : Nat) :
    runFrom step s₀ ((List.range n).map label) = some (state n) := by
  induction n with
  | zero => exact congrArg some h.start.symm
  | succ n ih =>
    rw [List.range_succ, List.map_append]
    exact (runFrom_concat_iff _ _ _ _).mpr ⟨state n,ih,h.next n⟩

/-- Steps of a kind that one could take from some moment on are taken at some time. -/
def WeaklyFair (step : σ → ε → Option σ) (acts : σ → ε → Prop) (state : Nat → σ)
    (label : Nat → ε) : Prop :=
  ∀ n, (∀ m, n ≤ m → ∃ l t, acts (state m) l ∧ step (state m) l = some t) →
    ∃ m, n ≤ m ∧ acts (state m) (label m)

theorem reached_of_rank {Q : σ → Prop} (hkeep : ∀ n, rank (state (n+1)) ≤ rank (state n))
    (hdrop : ∀ n, acts (state n) (label n) → rank (state (n+1)) < rank (state n))
    (henabled : ∀ n, ¬ Q (state n) → ∃ l t, acts (state n) l ∧ step (state n) l = some t)
    (hfair : WeaklyFair step acts state label) (n : Nat) : ∃ m, n ≤ m ∧ Q (state m) := by
  induction hr : rank (state n) using Nat.strong_induction_on generalizing n with
  | _ r ih =>
    by_contra hnever
    have hnot : ∀ m, n ≤ m → ¬ Q (state m) := fun m hm hQ => hnever ⟨m,hm,hQ⟩
    obtain ⟨m,hm,hacts⟩ := hfair n fun m hm => henabled m (hnot m hm)
    have hmono : rank (state m) ≤ rank (state n) :=
      antitone_nat_of_succ_le (f := fun k => rank (state k)) hkeep hm
    have hlt : rank (state (m+1)) < r := by
      have hdropped := hdrop m hacts
      omega
    obtain ⟨k,hk,hQ⟩ := ih _ hlt (m+1) rfl
    exact hnot k (by omega) hQ

theorem acts_le_rank (acts : σ → ε → Prop) [∀ s e, Decidable (acts s e)]
    (hkeep : ∀ n, rank (state (n+1)) ≤ rank (state n))
    (hdrop : ∀ n, acts (state n) (label n) → rank (state (n+1)) < rank (state n)) (n : Nat) :
    ((Finset.range n).filter fun m => acts (state m) (label m)).card + rank (state n) ≤
      rank (state 0) := by
  induction n with
  | zero => simp
  | succ n ih =>
    rw [Finset.range_add_one, Finset.filter_insert]
    by_cases hacts : acts (state n) (label n)
    · have hlt := hdrop n hacts
      rw [if_pos hacts, Finset.card_insert_of_notMem (by simp)]
      omega
    · have hle := hkeep n
      rw [if_neg hacts]
      omega

end Endless

end EaHalfHour.LabelledRun
