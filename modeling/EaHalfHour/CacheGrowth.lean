import EaHalfHour.AtomicObject
import EaHalfHour.KvCache

/-! Two caches given the same calls, one with at least the capacity of the other:
what `--cache_size` buys. -/
namespace EaHalfHour.CacheGrowth
open AtomicObject KvMessage KvCache RecencyMap RecencyCache

/-- What a call answers on a larger cache, given its answer `a`: the same, unless
the key was missing. -/
def AtLeast (a b : KvResponse) : Prop := b = a ∨ a.code = some StatusCode.kNotFound.toInt

def isOk (r : KvResponse) : Bool := decide (r.code = some StatusCode.kOk.toInt)

theorem AtLeast.isOk {a b : KvResponse} (h : AtLeast a b) (ha : isOk a = true) :
    isOk b = true := by
  rcases h with rfl | hcode
  · exact ha
  · rw [CacheGrowth.isOk, hcode] at ha
    exact absurd ha (by decide)

theorem countP_le_of_forall₂ {α β : Type*} {R : α → β → Prop} {p : α → Bool} {q : β → Bool}
    (hpq : ∀ a b, R a b → p a = true → q b = true) {l : List α} {l' : List β}
    (h : List.Forall₂ R l l') : l.countP p ≤ l'.countP q := by
  induction h with
  | nil => rfl
  | @cons a b l l' hab _ ih =>
    have hq := hpq a b hab
    rw [List.countP_cons, List.countP_cons]
    cases hp : p a with
    | false => simp only [Bool.false_eq_true, if_false]; omega
    | true => simp only [hq hp, if_true]; omega

section Step
variable {σ τ : Type*} [LRUCache σ] [RecencyCache σ] [LRUCache τ] [RecencyCache τ]

theorem view_run_remove {op : CacheOp} (hm : op.method = .remove) (s : σ) :
    view (op.run s).2 = (view s).erase op.request.key := by
  rw [run_remove hm, RecencyCache.tryGet_fst]
  dsimp only
  split
  · rename_i hmissing
    rw [view_tryGet, Lru.touch_missing hmissing, Lru.erase_missing hmissing]
  · rw [view_remove, view_tryGet, Lru.erase_touch]

theorem looked_atLeast {s : σ} {t : τ} (h : Lru.Includes (view s) (view t)) (k : Bytes)
    (response : KvResponse) :
    AtLeast (fillLooked (LRUCache.tryGet s k).1 response)
      (fillLooked (LRUCache.tryGet t k).1 response) := by
  rw [RecencyCache.tryGet_fst, RecencyCache.tryGet_fst]
  cases hk : (view s).find k with
  | none => exact Or.inr rfl
  | some v => exact Or.inl (by rw [h.find hk])

theorem run_includes (op : CacheOp) {s : σ} {t : τ} (h : Lru.Includes (view s) (view t)) :
    AtLeast (op.run s).1 (op.run t).1 ∧ Lru.Includes (view (op.run s).2) (view (op.run t).2) := by
  cases hm : op.method with
  | set =>
    cases hv : op.request.value with
    | none =>
      rw [run_noValue hm hv, run_noValue hm hv]
      exact ⟨Or.inl rfl,h⟩
    | some v =>
      rw [run_stored hm hv, run_stored hm hv, view_put, view_put]
      exact ⟨Or.inl rfl,h.put op.request.key v⟩
  | get =>
    rw [run_get hm, run_get hm, view_tryGet, view_tryGet]
    exact ⟨looked_atLeast h _ _,h.touch op.request.key⟩
  | remove =>
    rw [view_run_remove hm, view_run_remove hm, run_remove hm, run_remove hm]
    exact ⟨looked_atLeast h _ _,h.erase op.request.key⟩

/-- After these calls: the larger cache has answered each of them as the smaller one
did, or the smaller one did not find its key; so it has had no fewer successes; and it
holds what the smaller one holds, in the same order of use. -/
structure Outgrows (small : σ) (large : τ) (ops : List CacheOp) : Prop where
  answers : List.Forall₂ AtLeast (replay CacheOp.run ops small).1 (replay CacheOp.run ops large).1
  successes : (replay CacheOp.run ops small).1.countP isOk ≤
    (replay CacheOp.run ops large).1.countP isOk
  entries : (view (replay CacheOp.run ops small).2).entries.Sublist
    (view (replay CacheOp.run ops large).2).entries

theorem outgrows_run {small : σ} {large : τ} {a b : Nat} (hsmall : view small = Lru.empty a)
    (hlarge : view large = Lru.empty b) (hab : a ≤ b) (ops : List CacheOp) :
    Outgrows small large ops := by
  have hstart : Lru.Includes (view small) (view large) := by
    rw [hsmall, hlarge]
    exact Lru.includes_empty hab
  obtain ⟨hanswers,hend⟩ := replay_related
    (R := fun (s : σ) (t : τ) => Lru.Includes (view s) (view t))
    (fun op (_ : op ∈ ops) _ _ h => run_includes op h) hstart
  exact ⟨hanswers,countP_le_of_forall₂ (fun _ _ h => h.isOk) hanswers,hend.kept⟩

end Step

def thirdKey : List CacheOp :=
  [⟨.set,⟨text "a",some (text "1")⟩,{}⟩,⟨.set,⟨text "b",some (text "2")⟩,{}⟩,
    ⟨.get,⟨text "a",none⟩,{}⟩,⟨.set,⟨text "c",some (text "3")⟩,{}⟩,
    ⟨.get,⟨text "b",none⟩,{}⟩,⟨.get,⟨text "a",none⟩,{}⟩]

theorem outgrows_thirdKey :
    Outgrows (Lru.empty 2 : Lru Bytes Bytes) (Lru.empty 3 : Lru Bytes Bytes) thirdKey :=
  outgrows_run (show view (Lru.empty 2 : Lru Bytes Bytes) = Lru.empty 2 from rfl)
    (show view (Lru.empty 3 : Lru Bytes Bytes) = Lru.empty 3 from rfl) (by decide) thirdKey

example : (replay CacheOp.run thirdKey (Lru.empty 2 : Lru Bytes Bytes)).1.countP isOk = 5 ∧
    (replay CacheOp.run thirdKey (Lru.empty 3 : Lru Bytes Bytes)).1.countP isOk = 6 := by
  decide

end EaHalfHour.CacheGrowth
