import Mathlib.Algebra.Group.Int.Defs
import Mathlib.Algebra.Group.Nat.Defs
import EaHalfHour.AtomicObject
import EaHalfHour.KvCache

/-! Cache::init and the number of entries a Cache can come to hold: the capacity is
an int flag, turbo::LRUCache takes a size_t. -/
namespace EaHalfHour.CacheCapacity
open AtomicObject KvMessage KvCache RecencyMap

def sizeT (capacity : Int32) : Nat := (capacity.toInt % 2^64).toNat

/-- The constructor of turbo::LRUCache and what bounds its size. `make` is none where
the constructor throws. -/
class SizedCache (σ : Type*) [LRUCache σ] where
  make : Nat → Option σ
  size : σ → Nat
  limit : σ → Nat
  make_zero : make 0 = none
  make_pos : ∀ n, 0 < n → n < 2^64 → ∃ s, make n = some s ∧ limit s = n
  limit_put : ∀ s k v, limit (LRUCache.put s k v) = limit s
  limit_tryGet : ∀ s k, limit (LRUCache.tryGet s k).2 = limit s
  limit_remove : ∀ s k, limit (LRUCache.remove s k) = limit s
  size_le : ∀ s, size s ≤ limit s

instance : SizedCache (Lru Bytes Bytes) where
  make n := if n = 0 then none else some (Lru.empty n)
  size m := m.entries.length
  limit := Lru.capacity
  make_zero := rfl
  make_pos n hn _ := ⟨Lru.empty n,if_neg hn.ne',rfl⟩
  limit_put _ _ _ := rfl
  limit_tryGet := Lru.touch_capacity
  limit_remove _ _ := rfl
  size_le := Lru.bounded

section Init
open SizedCache
variable {σ : Type*} [LRUCache σ] [SizedCache σ]

/-- None where an exception leaves init. -/
def Cache.init (capacity : Int32) : Option (Status × σ) :=
  (make (sizeT capacity)).map fun cache => (.okStatus,cache)

theorem sizeT_lt (capacity : Int32) : sizeT capacity < 2^64 := by
  have := Int.emod_lt_of_pos capacity.toInt (b := 2^64) (by decide)
  unfold sizeT
  omega

theorem sizeT_of_nonneg {capacity : Int32} (h : 0 ≤ capacity.toInt) :
    (sizeT capacity : Int) = capacity.toInt := by
  have hlt := capacity.toInt_lt
  unfold sizeT
  omega

theorem sizeT_of_neg {capacity : Int32} (h : capacity.toInt < 0) :
    2^64 - 2^31 ≤ sizeT capacity := by
  have hle := capacity.le_toInt
  unfold sizeT
  omega

theorem init_ok {capacity : Int32} {rs : Status} {s : σ}
    (h : Cache.init capacity = some (rs,s)) :
    rs = .okStatus ∧ limit s = sizeT capacity := by
  obtain ⟨cache,hmake,he⟩ := Option.map_eq_some_iff.mp h
  obtain ⟨rfl,rfl⟩ := Prod.mk.inj he
  refine ⟨rfl,?_⟩
  have hpos : 0 < sizeT capacity := by
    refine Nat.pos_of_ne_zero fun hzero => ?_
    rw [hzero, make_zero] at hmake
    cases hmake
  obtain ⟨made,hmade,hlimit⟩ := make_pos (σ := σ) (sizeT capacity) hpos (sizeT_lt capacity)
  rw [hmake] at hmade
  rw [Option.some.inj hmade, hlimit]

theorem init_of_neg {capacity : Int32} (h : capacity.toInt < 0) :
    ∃ s : σ, Cache.init capacity = some (.okStatus,s) := by
  have hle := sizeT_of_neg h
  obtain ⟨s,hs,-⟩ := make_pos (σ := σ) (sizeT capacity) (by omega) (sizeT_lt capacity)
  exact ⟨s,by rw [Cache.init, hs, Option.map_some]⟩

theorem limit_run (op : CacheOp) (s : σ) : limit (op.run s).2 = limit s := by
  cases hm : op.method with
  | set =>
    cases hv : op.request.value with
    | none => rw [run_noValue hm hv]
    | some v => rw [run_stored hm hv, limit_put]
  | get => rw [run_get hm, limit_tryGet]
  | remove =>
    rw [run_remove hm]
    dsimp only
    split
    · exact limit_tryGet s _
    · rw [limit_remove, limit_tryGet]

theorem size_replay_le (ops : List CacheOp) (s : σ) :
    size (replay CacheOp.run ops s).2 ≤ limit s := by
  have hlimit : limit (replay CacheOp.run ops s).2 = limit s :=
    replay_invariant (P := fun t => limit t = limit s)
      (fun op _ t ht => (limit_run op t).trans ht) rfl
  exact (size_le _).trans hlimit.le

variable (σ) in
/-- The capacity that init accepted bounds the number of entries in every state
reached by calls of put, get and remove. -/
def Bounds (capacity : Int32) : Prop :=
  ∀ (rs : Status) (s : σ), Cache.init capacity = some (rs,s) → rs.ok = true →
    ∀ ops : List CacheOp, (size (replay CacheOp.run ops s).2 : Int) ≤ capacity.toInt

theorem bounds_iff (capacity : Int32) : Bounds σ capacity ↔ 0 ≤ capacity.toInt := by
  constructor
  · intro h
    by_contra hneg
    obtain ⟨s,hs⟩ := init_of_neg (σ := σ) (Int.lt_of_not_ge hneg)
    have hle := h .okStatus s hs rfl []
    omega
  · intro h rs s hs _ ops
    have hsize := size_replay_le ops s
    rw [(init_ok hs).2] at hsize
    have hcast := sizeT_of_nonneg h
    omega

end Init

/-- `--cache_size=-1`: one entry where the accepted capacity is less than none. -/
theorem not_bounds_minusOne : ¬ Bounds (Lru Bytes Bytes) (-1) := by
  intro h
  have hle := h .okStatus (Lru.empty (2^64-1)) (by decide) rfl
    [⟨.set,⟨text "k",some (text "v")⟩,{}⟩]
  revert hle
  decide

end EaHalfHour.CacheCapacity
