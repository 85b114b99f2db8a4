import Mathlib.Dynamics.FixedPoints.Basic
import Mathlib.Data.Finset.Card
import Mathlib.Data.Finset.Image
import Mathlib.Order.Nat
import Mathlib.Data.Nat.Find

/-! Following a map on a finite set until it stops at a fixed point. -/
namespace EaHalfHour.ForwardGraph
open Function
variable {α : Type*} {g : α → α} {S : Finset α} {a : α}

theorem iterate_mem (hmaps : ∀ a ∈ S, g a ∈ S) (ha : a ∈ S) (n : Nat) : g^[n] a ∈ S := by
  induction n with
  | zero => exact ha
  | succ n ih =>
    rw [iterate_succ_apply']
    exact hmaps _ ih

theorem iterate_eq_of_fixed {m n : Nat} (hm : IsFixedPt g (g^[m] a)) (hmn : m ≤ n) :
    g^[n] a = g^[m] a := by
  obtain ⟨k,rfl⟩ := Nat.exists_eq_add_of_le hmn
  rw [Nat.add_comm, iterate_add_apply]
  exact hm.iterate k

theorem fixed_within_card (hmaps : ∀ a ∈ S, g a ∈ S) (ha : a ∈ S)
    (h : ∃ n, IsFixedPt g (g^[n] a)) : ∃ m, m < S.card ∧ IsFixedPt g (g^[m] a) := by
  classical
  let m := Nat.find h
  have hm : IsFixedPt g (g^[m] a) := Nat.find_spec h
  refine ⟨m,?_,hm⟩
  have hinj : Set.InjOn (fun i => g^[i] a) (Finset.range (m + 1)) := by
    have hlt : ∀ i j, i < j → j ≤ m → g^[i] a ≠ g^[j] a := by
      intro i j hij hj he
      have hback : g^[m - j + i] a = g^[m] a := by
        rw [iterate_add_apply, he, ← iterate_add_apply, Nat.sub_add_cancel hj]
      exact Nat.find_min h (m := m - j + i) (by omega) (by rw [hback]; exact hm)
    intro i hi j hj he
    simp only [Finset.coe_range, Set.mem_Iio] at hi hj
    rcases Nat.lt_trichotomy i j with hij | hij | hij
    · exact absurd he (hlt i j hij (by omega))
    · exact hij
    · exact absurd he.symm (hlt j i hij (by omega))
  have hcard := Finset.card_image_of_injOn hinj
  have hsub : (Finset.range (m + 1)).image (fun i => g^[i] a) ⊆ S := by
    intro b hb
    obtain ⟨i,-,rfl⟩ := Finset.mem_image.mp hb
    exact iterate_mem hmaps ha i
  have hle := Finset.card_le_card hsub
  rw [hcard, Finset.card_range] at hle
  omega

/-- All walks from a finite set stop, and at one place, exactly when following
the map as often as the set has members makes it constant. -/
theorem common_stop_iff [Inhabited α] (hmaps : ∀ a ∈ S, g a ∈ S) :
    (∃ d, ∀ a ∈ S, ∃ n, IsFixedPt g (g^[n] a) ∧ g^[n] a = d) ↔
      ∃ d, ∀ a ∈ S, g^[S.card] a = d := by
  constructor
  · rintro ⟨d,hd⟩
    refine ⟨d,fun a ha => ?_⟩
    obtain ⟨n,hn,rfl⟩ := hd a ha
    obtain ⟨m,hm,hfix⟩ := fixed_within_card hmaps ha ⟨n,hn⟩
    rw [iterate_eq_of_fixed hfix hm.le]
    rcases Nat.le_total m n with hmn | hmn
    · exact (iterate_eq_of_fixed hfix hmn).symm
    · exact iterate_eq_of_fixed hn hmn
  · rintro ⟨d,hd⟩
    refine ⟨d,fun a ha => ⟨S.card,?_,hd a ha⟩⟩
    have hnext := hd (g a) (hmaps a ha)
    rw [← iterate_succ_apply, iterate_succ_apply', hd a ha] at hnext
    rw [hd a ha]
    exact hnext

end EaHalfHour.ForwardGraph
