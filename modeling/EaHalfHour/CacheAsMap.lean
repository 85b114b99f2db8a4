import Mathlib.Data.Finset.Card
import EaHalfHour.CacheGrowth

/-! A Cache against the plain map it stands for: any eviction policy loses entries and
does nothing worse, and one in order of last use loses none while the live keys fit. -/
namespace EaHalfHour.CacheAsMap
open AtomicObject KvMessage KvCache RecencyMap RecencyCache CacheGrowth

abbrev Store := Bytes → Option Bytes

def onMap (op : CacheOp) (m : Store) : KvResponse × Store :=
  match op.method with
  | .set =>
    match op.request.value with
    | none => (fillNoValue op.response,m)
    | some value => (fillStored op.response,Function.update m op.request.key (some value))
  | .get => (fillLooked (m op.request.key) op.response,m)
  | .remove => (fillLooked (m op.request.key) op.response,Function.update m op.request.key none)

def stored (ops : List CacheOp) : Store := (replay onMap ops fun _ => none).2

section Calls
variable {op : CacheOp} {m : Store}

theorem onMap_noValue (hm : op.method = .set) (hv : op.request.value = none) :
    onMap op m = (fillNoValue op.response,m) := by
  simp only [onMap, hm, hv]

theorem onMap_stored {value : Bytes} (hm : op.method = .set) (hv : op.request.value = some value) :
    onMap op m = (fillStored op.response,Function.update m op.request.key (some value)) := by
  simp only [onMap, hm, hv]

theorem onMap_get (hm : op.method = .get) :
    onMap op m = (fillLooked (m op.request.key) op.response,m) := by
  simp only [onMap, hm]

theorem onMap_remove (hm : op.method = .remove) :
    onMap op m =
      (fillLooked (m op.request.key) op.response,Function.update m op.request.key none) := by
  simp only [onMap, hm]

theorem stored_concat (ops : List CacheOp) (op : CacheOp) :
    stored (ops ++ [op]) = (onMap op (stored ops)).2 := by
  rw [stored, replay_append]
  rfl

end Calls

section Lossy
open LawfulLRUCache
variable {σ : Type*} [LRUCache σ] [LawfulLRUCache σ]

def Loses (s : σ) (m : Store) : Prop := ∀ k v, find s k = some v → m k = some v

theorem looked_loses {s : σ} {m : Store} (h : Loses s m) (k : Bytes) (response : KvResponse) :
    AtLeast (fillLooked (LRUCache.tryGet s k).1 response) (fillLooked (m k) response) := by
  rw [LawfulLRUCache.tryGet_fst]
  cases hk : find s k with
  | none => exact Or.inr rfl
  | some v => exact Or.inl (by rw [h k v hk])

theorem run_loses (op : CacheOp) {s : σ} {m : Store} (h : Loses s m) :
    AtLeast (op.run s).1 (onMap op m).1 ∧ Loses (op.run s).2 (onMap op m).2 := by
  have htouch : Loses (LRUCache.tryGet s op.request.key).2 m := fun k v hk =>
    h k v (by rwa [find_tryGet] at hk)
  cases hm : op.method with
  | set =>
    cases hv : op.request.value with
    | none =>
      rw [run_noValue hm hv, onMap_noValue hm hv]
      exact ⟨Or.inl rfl,h⟩
    | some value =>
      rw [run_stored hm hv, onMap_stored hm hv]
      refine ⟨Or.inl rfl,fun k v hk => ?_⟩
      have hput := find_put s k op.request.key value v hk
      by_cases hkey : k = op.request.key
      · rw [if_pos hkey] at hput
        rw [hkey, hput]
        exact Function.update_self ..
      · rw [if_neg hkey] at hput
        exact (Function.update_of_ne hkey ..).trans (h k v hput)
  | get =>
    rw [run_get hm, onMap_get hm]
    exact ⟨looked_loses h _ _,htouch⟩
  | remove =>
    rw [run_remove hm, onMap_remove hm]
    refine ⟨looked_loses h _ _,fun k v hk => ?_⟩
    -- the key is gone from both, whether or not the cache still had it
    have hne : k ≠ op.request.key := by
      rintro rfl
      dsimp only at hk
      split at hk
      · rename_i hmissing
        rw [LawfulLRUCache.tryGet_fst] at hmissing
        rw [find_tryGet, hmissing] at hk
        cases hk
      · rw [find_remove, if_pos rfl] at hk
        cases hk
    refine (Function.update_of_ne hne ..).trans (htouch k v ?_)
    dsimp only at hk
    split at hk
    · exact hk
    · rwa [find_remove, if_neg hne] at hk

/-- Whatever a cache evicts, each call is answered as the map would answer it, or its
key is reported missing; and what is left in the cache is what the map holds. -/
theorem loses_run {cache₀ : σ} (hempty : ∀ k, find cache₀ k = none) (ops : List CacheOp) :
    List.Forall₂ AtLeast (replay CacheOp.run ops cache₀).1
        (replay onMap ops fun _ => none).1 ∧
      Loses (replay CacheOp.run ops cache₀).2 (stored ops) :=
  replay_related (R := Loses) (fun op _ _ _ h => run_loses op h) fun k v hk => by
    rw [hempty k] at hk
    cases hk

end Lossy

def live (ops : List CacheOp) : Finset Bytes :=
  (ops.map fun op => op.request.key).toFinset.filter fun k => stored ops k ≠ none

theorem asked_of_stored {ops : List CacheOp} {k : Bytes} (h : stored ops k ≠ none) :
    k ∈ ops.map fun op => op.request.key := by
  induction ops using List.reverseRecOn with
  | nil => exact absurd rfl h
  | append_singleton ops op ih =>
    rw [List.map_append, List.mem_append, List.map_cons, List.map_nil, List.mem_singleton]
    by_cases hk : k = op.request.key
    · exact Or.inr hk
    · refine Or.inl (ih ?_)
      rw [stored_concat] at h
      cases hm : op.method with
      | set =>
        cases hv : op.request.value with
        | none => rwa [onMap_noValue hm hv] at h
        | some value =>
          rw [onMap_stored hm hv] at h
          exact fun hnone => h ((Function.update_of_ne hk ..).trans hnone)
      | get => rwa [onMap_get hm] at h
      | remove =>
        rw [onMap_remove hm] at h
        exact fun hnone => h ((Function.update_of_ne hk ..).trans hnone)

theorem mem_live (ops : List CacheOp) (k : Bytes) : stored ops k ≠ none ↔ k ∈ live ops := by
  rw [live, Finset.mem_filter, List.mem_toFinset]
  exact ⟨fun h => ⟨asked_of_stored h,h⟩,fun h => h.2⟩

theorem live_concat_set {ops : List CacheOp} {op : CacheOp} {value : Bytes}
    (hm : op.method = .set) (hv : op.request.value = some value) :
    live (ops ++ [op]) = insert op.request.key (live ops) := by
  ext k
  rw [Finset.mem_insert, ← mem_live, ← mem_live, stored_concat, onMap_stored hm hv]
  by_cases hk : k = op.request.key
  · subst hk
    simp
  · simp [hk]

section Exact
variable {σ : Type*} [LRUCache σ] [RecencyCache σ]

/-- No call can tell the cache from the map. -/
def Exact (s : σ) (m : Store) : Prop := ∀ op : CacheOp, (op.run s).1 = (onMap op m).1

theorem exact_iff (s : σ) (m : Store) : Exact s m ↔ ∀ k, (view s).find k = m k := by
  constructor
  · intro h k
    have hget := h ⟨.get,⟨k,none⟩,{}⟩
    rw [run_get rfl, onMap_get rfl, RecencyCache.tryGet_fst] at hget
    dsimp only at hget
    cases hs : (view s).find k with
    | none =>
      cases hmk : m k with
      | none => rfl
      | some v => simp [hs, hmk, fillLooked, KvResponse.setCode, KvResponse.setMessage,
          KvResponse.setValue] at hget
    | some v =>
      cases hmk : m k with
      | none => simp [hs, hmk, fillLooked, KvResponse.setCode, KvResponse.setMessage,
          KvResponse.setValue] at hget
      | some w => simpa [hs, hmk, fillLooked, KvResponse.setCode, KvResponse.setMessage,
          KvResponse.setValue] using hget
  · intro h op
    cases hm : op.method with
    | set =>
      cases hv : op.request.value with
      | none => rw [run_noValue hm hv, onMap_noValue hm hv]
      | some value => rw [run_stored hm hv, onMap_stored hm hv]
    | get => rw [run_get hm, onMap_get hm, RecencyCache.tryGet_fst, h]
    | remove => rw [run_remove hm, onMap_remove hm, RecencyCache.tryGet_fst, h]

theorem view_capacity (op : CacheOp) (s : σ) : (view (op.run s).2).capacity = (view s).capacity := by
  cases hm : op.method with
  | set =>
    cases hv : op.request.value with
    | none => rw [run_noValue hm hv]
    | some value =>
      rw [run_stored hm hv, view_put]
      rfl
  | get =>
    rw [run_get hm, view_tryGet]
    exact Lru.touch_capacity _ _
  | remove =>
    rw [view_run_remove hm]
    rfl

theorem exact_run {s : σ} {m : Store} (h : Exact s m) (op : CacheOp)
    (hfits : ∀ value, op.method = .set → op.request.value = some value →
      (view s).Fits op.request.key) : Exact (op.run s).2 (onMap op m).2 := by
  have hfind := (exact_iff s m).mp h
  refine (exact_iff _ _).mpr fun k => ?_
  cases hm : op.method with
  | set =>
    cases hv : op.request.value with
    | none =>
      rw [run_noValue hm hv, onMap_noValue hm hv]
      exact hfind k
    | some value =>
      rw [run_stored hm hv, onMap_stored hm hv, view_put, Lru.find_put_fits (hfits value hm hv),
        hfind]
      exact (Function.update_apply m _ _ k).symm
  | get =>
    rw [run_get hm, onMap_get hm, view_tryGet, Lru.find_touch]
    exact hfind k
  | remove =>
    rw [view_run_remove hm, onMap_remove hm, Lru.find_erase, hfind]
    exact (Function.update_apply m _ _ k).symm

/-- A cache in order of last use is the plain map, at every moment of a sequence of
calls, exactly when there are at no moment more live keys than its capacity. -/
theorem exact_iff_live_fits {cache₀ : σ} {capacity : Nat} (h0 : view cache₀ = Lru.empty capacity)
    (ops : List CacheOp) :
    (∀ u, u <+: ops → Exact (replay CacheOp.run u cache₀).2 (stored u)) ↔
      ∀ u, u <+: ops → (live u).card ≤ capacity := by
  have hcapacity : ∀ u : List CacheOp, (view (replay CacheOp.run u cache₀).2).capacity = capacity :=
    fun u => replay_invariant (P := fun s => (view s).capacity = capacity)
      (fun op _ s hs => (view_capacity op s).trans hs) (by rw [h0]; rfl)
  have hlength : ∀ u : List CacheOp, Exact (replay CacheOp.run u cache₀).2 (stored u) →
      (view (replay CacheOp.run u cache₀).2).entries.length = (live u).card := fun u hu =>
    Lru.length_eq_card fun k => by rw [(exact_iff _ _).mp hu k, mem_live]
  constructor
  · intro h u hu
    rw [← hlength u (h u hu), ← hcapacity u]
    exact (view (replay CacheOp.run u cache₀).2).bounded
  · intro h u
    induction u using List.reverseRecOn with
    | nil => exact fun _ => (exact_iff _ _).mpr fun k => by rw [replay, h0]; rfl
    | append_singleton u op ih =>
      intro hu
      have hexact := ih ((List.prefix_append u [op]).trans hu)
      have hnext : (replay CacheOp.run (u ++ [op]) cache₀).2 =
          (op.run (replay CacheOp.run u cache₀).2).2 := by
        rw [replay_append]
        rfl
      rw [hnext, stored_concat]
      refine exact_run hexact op fun value hm hv => ?_
      by_cases hk : op.request.key ∈ live u
      · refine Or.inl ?_
        rw [(exact_iff _ _).mp hexact]
        exact (mem_live u op.request.key).mpr hk
      · -- the key is new: with it the live keys still fit
        have hcard := h (u ++ [op]) hu
        rw [live_concat_set hm hv, Finset.card_insert_of_notMem hk] at hcard
        exact Or.inr (by rw [hlength u hexact, hcapacity]; omega)

end Exact

theorem loses_thirdKey :
    List.Forall₂ AtLeast (replay CacheOp.run thirdKey (Lru.empty 2 : Lru Bytes Bytes)).1
        (replay onMap thirdKey fun _ => none).1 ∧
      Loses (replay CacheOp.run thirdKey (Lru.empty 2 : Lru Bytes Bytes)).2 (stored thirdKey) :=
  loses_run (fun _ => rfl) thirdKey

/-- "a", "b" and "c" are all there at the end. -/
theorem exact_iff_live_fits_thirdKey : (live thirdKey).card = 3 ∧
    Exact (replay CacheOp.run thirdKey (Lru.empty 3 : Lru Bytes Bytes)).2 (stored thirdKey) := by
  have hfits : ∀ u ∈ thirdKey.inits, (live u).card ≤ 3 := by decide
  have hexact := (exact_iff_live_fits
    (show view (Lru.empty 3 : Lru Bytes Bytes) = Lru.empty 3 from rfl) thirdKey).mpr
    fun u hu => hfits u ((List.mem_inits u thirdKey).mpr hu)
  exact ⟨by decide,hexact thirdKey (List.prefix_refl thirdKey)⟩

end EaHalfHour.CacheAsMap
