import Mathlib.Algebra.Order.BigOperators.Group.Finset
import Mathlib.Algebra.BigOperators.Intervals

/-! Trees whose nodes make numbered attempts, each with at most one child. How many
nodes there can be so far below one of them. Nothing here names a program. -/
namespace EaHalfHour.CallTree
variable {ι : Type*} {child : ι → Nat → ι → Prop}

inductive Below (child : ι → Nat → ι → Prop) : Nat → ι → ι → Prop where
  | self (i : ι) : Below child 0 i i
  | step {n t : Nat} {i j e : ι} : child i t j → Below child n j e → Below child (n+1) i e

theorem Below.concat {n t : Nat} {i j e : ι} (h : Below child n i j) (hchild : child j t e) :
    Below child (n+1) i e := by
  induction h with
  | self i => exact .step hchild (.self e)
  | step hfirst _ ih => exact .step hfirst (ih hchild)

def Single (child : ι → Nat → ι → Prop) : Prop :=
  ∀ i t j j', child i t j → child i t j' → j = j'

/-- Where a node `k` below the root makes fewer than `b k` attempts, there are at most
`b 0 * .. * b (n-1)` nodes `n` below it. -/
theorem card_le_prod (hsingle : Single child) {b : Nat → Nat} {n : Nat} {root : ι}
    (hfew : ∀ k i t j, Below child k root i → child i t j → t < b k) (S : Finset ι)
    (hS : ∀ e ∈ S, Below child n root e) : S.card ≤ ∏ k ∈ Finset.range n, b k := by
  classical
  induction n generalizing root b S with
  | zero =>
    have hroot : S ⊆ {root} := by
      intro e he
      cases hS e he
      exact Finset.mem_singleton_self _
    exact (Finset.card_le_card hroot).trans_eq (by simp)
  | succ n ih =>
    -- each node is below the child of one of the attempts of the root
    let part (t : Nat) : Finset ι := S.filter fun e => ∃ j, child root t j ∧ Below child n j e
    have hcover : S ⊆ (Finset.range (b 0)).biUnion part := by
      intro e he
      cases hS e he with
      | @step _ t _ j _ hchild hbelow =>
        exact Finset.mem_biUnion.mpr ⟨t,Finset.mem_range.mpr (hfew 0 root t j (.self root) hchild),
          Finset.mem_filter.mpr ⟨he,j,hchild,hbelow⟩⟩
    have hpart : ∀ t ∈ Finset.range (b 0), (part t).card ≤ ∏ k ∈ Finset.range n, b (k+1) := by
      intro t _
      by_cases hchild : ∃ j, child root t j
      · obtain ⟨j,hj⟩ := hchild
        refine ih (fun k i t' j' hi hij => hfew (k+1) i t' j' (.step hj hi) hij) _ fun e he => ?_
        obtain ⟨-,j',hj',hbelow⟩ := Finset.mem_filter.mp he
        rw [hsingle root t j j' hj hj']
        exact hbelow
      · have hnone : part t = ∅ := Finset.filter_eq_empty_iff.mpr fun e _ ⟨j,hj,_⟩ => hchild ⟨j,hj⟩
        rw [hnone, Finset.card_empty]
        exact Nat.zero_le _
    calc S.card ≤ ((Finset.range (b 0)).biUnion part).card := Finset.card_le_card hcover
      _ ≤ (Finset.range (b 0)).card * ∏ k ∈ Finset.range n, b (k+1) :=
        Finset.card_biUnion_le_card_mul _ _ _ hpart
      _ = ∏ k ∈ Finset.range (n+1), b k := by
        rw [Finset.card_range, Finset.prod_range_succ' b n, Nat.mul_comm]

theorem card_le_sum (hsingle : Single child) {b : Nat → Nat} {d : Nat} {root : ι}
    (hfew : ∀ k i t j, Below child k root i → child i t j → t < b k) (S : Finset ι)
    (hS : ∀ e ∈ S, ∃ n < d, Below child n root e) :
    S.card ≤ ∑ n ∈ Finset.range d, ∏ k ∈ Finset.range n, b k := by
  classical
  let level (n : Nat) : Finset ι := S.filter fun e => Below child n root e
  have hcover : S ⊆ (Finset.range d).biUnion level := by
    intro e he
    obtain ⟨n,hn,hbelow⟩ := hS e he
    exact Finset.mem_biUnion.mpr ⟨n,Finset.mem_range.mpr hn,Finset.mem_filter.mpr ⟨he,hbelow⟩⟩
  calc S.card ≤ ((Finset.range d).biUnion level).card := Finset.card_le_card hcover
    _ ≤ ∑ n ∈ Finset.range d, (level n).card := Finset.card_biUnion_le
    _ ≤ ∑ n ∈ Finset.range d, ∏ k ∈ Finset.range n, b k :=
      Finset.sum_le_sum fun n _ => card_le_prod hsingle hfew (level n) fun e he =>
        (Finset.mem_filter.mp he).2

end EaHalfHour.CallTree
