import Mathlib.Data.Fintype.EquivFin
import Mathlib.Data.Finset.Dedup
import Mathlib.Data.List.Basic

/-! Objects that somebody lends to users, when all that is known of the lender is the
history: what it has given to whom, and whose loans have ended. Nothing here names a
program. -/
namespace EaHalfHour.Loans
variable {ε ι α β : Type*}

structure Lending (ε ι α : Type*) where
  gives : ε → Option (ι × α)
  ends : ε → Option ι

namespace Lending
variable (L : Lending ε ι α) {es : List ε} {l : ε} {u : ι} {a : α}

def given (es : List ε) : List (ι × α) := es.filterMap L.gives

def ended (es : List ε) : List ι := es.filterMap L.ends

/-- A user is given what it had before, if anything, and nothing that another has. -/
structure Fit (es : List ε) (u : ι) (a : α) : Prop where
  steady : ∀ x ∈ L.given es, x.1 = u → x.2 = a
  alone : ∀ x ∈ L.given es, x.2 = a → x.1 = u ∨ x.1 ∈ L.ended es

instance [DecidableEq ι] [DecidableEq α] : Decidable (L.Fit es u a) :=
  decidable_of_iff ((∀ x ∈ L.given es, x.1 = u → x.2 = a) ∧
      ∀ x ∈ L.given es, x.2 = a → x.1 = u ∨ x.1 ∈ L.ended es)
    ⟨fun h => ⟨h.1,h.2⟩,fun h => ⟨h.steady,h.alone⟩⟩

/-- Of two users of one object at least one has ended its loan, and none was given two. -/
structure Apart (es : List ε) : Prop where
  once : ∀ x ∈ L.given es, ∀ y ∈ L.given es, x.2 = y.2 → x.1 ∉ L.ended es →
    y.1 ∉ L.ended es → x.1 = y.1
  steady : ∀ x ∈ L.given es, ∀ y ∈ L.given es, x.1 = y.1 → x.2 = y.2

/-- A user has been given the object of a cell, which holds what it has written there. -/
def Keeps (heap : α → β) (es : List ε) (u : ι) (cell : Option (α × Option β)) : Prop :=
  ∀ a b, cell = some (a,b) → (u,a) ∈ L.given es ∧ ∀ x, b = some x → heap a = x

variable {L}

theorem mem_ended_iff : u ∈ L.ended es ↔ ∃ l ∈ es, L.ends l = some u := List.mem_filterMap

theorem mem_given_concat {x : ι × α} :
    x ∈ L.given (es ++ [l]) ↔ x ∈ L.given es ∨ L.gives l = some x := by
  simp [given, List.filterMap_append, List.filterMap_cons]
  cases L.gives l <;> simp [eq_comm]

theorem mem_ended_concat : u ∈ L.ended (es ++ [l]) ↔ u ∈ L.ended es ∨ L.ends l = some u := by
  simp [ended, List.filterMap_append, List.filterMap_cons]
  cases L.ends l <;> simp [eq_comm]

theorem Apart.nil : L.Apart [] where
  once _ hx := by cases hx
  steady _ hx := by cases hx

theorem Apart.concat (h : L.Apart es) (hl : ∀ u a, L.gives l = some (u,a) → L.Fit es u a) :
    L.Apart (es ++ [l]) where
  once := by
    have hnew : ∀ x y, L.gives l = some x → y ∈ L.given es → x.2 = y.2 →
        y.1 ∉ L.ended (es ++ [l]) → y.1 = x.1 := by
      intro x y hx hy hsame hended
      rcases (hl x.1 x.2 hx).alone y hy hsame.symm with heq | hmem
      · exact heq
      · exact absurd (mem_ended_concat.mpr (.inl hmem)) hended
    intro x hx y hy hsame hxe hye
    rcases mem_given_concat.mp hx with hx | hx <;> rcases mem_given_concat.mp hy with hy | hy
    · exact h.once x hx y hy hsame (fun hm => hxe (mem_ended_concat.mpr (.inl hm)))
        fun hm => hye (mem_ended_concat.mpr (.inl hm))
    · exact hnew y x hy hx hsame.symm hxe
    · exact (hnew x y hx hy hsame hye).symm
    · rw [Option.some.inj (hx.symm.trans hy)]
  steady := by
    intro x hx y hy hsame
    rcases mem_given_concat.mp hx with hx | hx <;> rcases mem_given_concat.mp hy with hy | hy
    · exact h.steady x hx y hy hsame
    · exact (hl y.1 y.2 hy).steady x hx hsame
    · exact ((hl x.1 x.2 hx).steady y hy hsame.symm).symm
    · rw [Option.some.inj (hx.symm.trans hy)]

theorem Apart.fit_of_given (h : L.Apart es) (ha : (u,a) ∈ L.given es) (hopen : u ∉ L.ended es) :
    L.Fit es u a := by
  refine ⟨fun x hx hu => h.steady x hx (u,a) ha hu,fun x hx hxa => ?_⟩
  by_cases hended : x.1 ∈ L.ended es
  · exact .inr hended
  · exact .inl (h.once x hx (u,a) ha hxa hended hopen)

theorem Apart.exists_fit [Infinite α] (h : L.Apart es) (hopen : u ∉ L.ended es) :
    ∃ a, L.Fit es u a := by
  by_cases hgiven : ∃ a, (u,a) ∈ L.given es
  · obtain ⟨a,ha⟩ := hgiven
    exact ⟨a,h.fit_of_given ha hopen⟩
  · classical
    obtain ⟨a,ha⟩ := Infinite.exists_notMem_finset ((L.given es).map Prod.snd).toFinset
    have hfresh : ∀ x ∈ L.given es, x.2 ≠ a := by
      rintro x hx rfl
      exact ha (List.mem_toFinset.mpr (List.mem_map_of_mem hx))
    refine ⟨a,fun x hx hu => ?_,fun x hx hxa => absurd hxa (hfresh x hx)⟩
    exact absurd ⟨x.2,by rw [← hu]; exact hx⟩ hgiven

section Keeps
variable {heap heap' : α → β} {cell : Option (α × Option β)} {b : α} {o : Option β}

theorem Keeps.none : L.Keeps heap es u none := fun _ _ h => by cases h

theorem Keeps.concat (h : L.Keeps heap es u cell)
    (hheap : ∀ a b, cell = some (a,b) → heap' a = heap a) :
    L.Keeps heap' (es ++ [l]) u cell := by
  intro a b hcell
  obtain ⟨hgiven,hwritten⟩ := h a b hcell
  refine ⟨mem_given_concat.mpr (.inl hgiven),fun x hx => ?_⟩
  rw [hheap a b hcell]
  exact hwritten x hx

theorem Keeps.later (h : L.Keeps heap es u cell) : L.Keeps heap (es ++ [l]) u cell :=
  h.concat fun _ _ _ => rfl

theorem Keeps.lent (h : L.gives l = some (u,a)) : L.Keeps heap (es ++ [l]) u (some (a,.none)) := by
  rintro a b ⟨⟩
  exact ⟨mem_given_concat.mpr (.inr h),fun x hx => by cases hx⟩

theorem Keeps.given (h : L.Keeps heap es u (some (a,o))) : (u,a) ∈ L.given es := (h a o rfl).1

theorem Keeps.read {x : β} (h : L.Keeps heap es u (some (a,some x))) : heap a = x :=
  (h a (some x) rfl).2 x rfl

variable [DecidableEq α]

theorem Keeps.write (h : L.Keeps heap es u (some (a,o))) (x : β) :
    L.Keeps (Function.update heap a x) (es ++ [l]) u (some (a,some x)) := by
  rintro a b ⟨⟩
  refine ⟨mem_given_concat.mpr (.inl h.given),fun x hx => ?_⟩
  cases hx
  exact Function.update_self ..

theorem Apart.update_of_ne (h : L.Apart es) {v : ι} (hne : v ≠ u)
    (hu : L.Keeps heap es u (some (b,o))) (huopen : u ∉ L.ended es) (hv : (v,a) ∈ L.given es)
    (hvopen : v ∉ L.ended es) (x : β) : Function.update heap b x a = heap a := by
  refine Function.update_of_ne (fun heq => hne ?_) _ _
  exact h.once (v,a) hv (u,b) hu.given heq hvopen huopen

end Keeps

end Lending

end EaHalfHour.Loans
