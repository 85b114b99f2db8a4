import Mathlib.Logic.Function.Basic

/-! A map split over slots: each key has one slot, and is looked for only there. -/
namespace EaHalfHour.SlottedMap
variable {β κ V : Type*} [DecidableEq β] [DecidableEq κ]

def put (slot : κ → β) (s : β → κ → Option V) (k : κ) (v : V) : β → κ → Option V :=
  Function.update s (slot k) (Function.update (s (slot k)) k (some v))

omit [DecidableEq β] [DecidableEq κ] in
def merge (slot : κ → β) (s : β → κ → Option V) (k : κ) : Option V := s (slot k) k

/-- Nothing is stored under a key outside the key's slot. -/
def Placed (slot : κ → β) (s : β → κ → Option V) : Prop := ∀ b k, s b k ≠ none → b = slot k

variable {slot : κ → β} {s : β → κ → Option V}

theorem placed_put (h : Placed slot s) (k : κ) (v : V) : Placed slot (put slot s k v) := by
  intro b j hj
  unfold put at hj
  by_cases hb : b = slot k
  · subst hb
    rw [Function.update_self] at hj
    by_cases hjk : j = k
    · rw [hjk]
    · rw [Function.update_of_ne hjk] at hj
      exact h _ j hj
  · rw [Function.update_of_ne hb] at hj
    exact h b j hj

theorem merge_put (k : κ) (v : V) :
    merge slot (put slot s k v) = Function.update (merge slot s) k (some v) := by
  funext j
  unfold merge put
  by_cases hjk : j = k
  · subst hjk
    simp
  · rw [Function.update_of_ne hjk]
    by_cases hslot : slot j = slot k
    · rw [hslot, Function.update_self, Function.update_of_ne hjk]
    · rw [Function.update_of_ne hslot]

end EaHalfHour.SlottedMap
