import EaHalfHour.AtomicObject
import EaHalfHour.KvCache

/-! What one Cache remembers of the calls made so far, over a turbo::LRUCache that
is a bounded map in order of last use. -/
namespace EaHalfHour.CacheHistory
open AtomicObject KvMessage KvCache RecencyMap RecencyCache

structure Done where
  op : CacheOp
  answer : KvResponse
deriving DecidableEq

namespace Done

def key (d : Done) : Bytes := d.op.request.key

def Ok (d : Done) : Prop := d.answer.code = some StatusCode.kOk.toInt

instance (d : Done) : Decidable d.Ok := inferInstanceAs (Decidable (_ = _))

def Stores (d : Done) (k v : Bytes) : Prop :=
  d.op.method = .set ∧ d.key = k ∧ d.op.request.value = some v ∧ d.Ok

def Removes (d : Done) (k : Bytes) : Prop := d.op.method = .remove ∧ d.key = k ∧ d.Ok

def touched (d : Done) : Option Bytes :=
  if d.op.method ≠ .remove ∧ d.Ok then some d.key else none

theorem touched_eq_some {d : Done} {k : Bytes} (h : d.touched = some k) :
    d.op.method ≠ .remove ∧ d.Ok ∧ d.key = k := by
  unfold touched at h
  split at h
  · rename_i hd
    exact ⟨hd.1,hd.2,Option.some.inj h⟩
  · cases h

end Done

/-- The last accepted put of `k` stored `v`, and no remove has deleted `k` since. -/
def LastPut (h : List Done) (k v : Bytes) : Prop :=
  ∃ u d w, h = u ++ d :: w ∧ d.Stores k v ∧
    ∀ e ∈ w, (∀ v', ¬ e.Stores k v') ∧ ¬ e.Removes k

def others (k : Bytes) (h : List Done) : List Bytes :=
  (h.filterMap Done.touched).filter fun j => decide (j ≠ k)

theorem lastPut_concat {h : List Done} {e : Done} {k v : Bytes} :
    LastPut (h ++ [e]) k v ↔
      e.Stores k v ∨ (LastPut h k v ∧ (∀ v', ¬ e.Stores k v') ∧ ¬ e.Removes k) := by
  constructor
  · rintro ⟨u,d,w,he,hd,hw⟩
    rcases concat_split he with ⟨rfl,rfl,rfl⟩ | ⟨w,rfl,rfl⟩
    · exact Or.inl hd
    · refine Or.inr ⟨⟨u,d,w,rfl,hd,fun e' he' => hw e' (List.mem_append_left _ he')⟩,?_⟩
      exact hw e (by simp)
  · rintro (he | ⟨⟨u,d,w,rfl,hd,hw⟩,hstores,hremoves⟩)
    · exact ⟨h,e,[],rfl,he,by simp⟩
    · refine ⟨u,d,w ++ [e],by simp,hd,fun e' he' => ?_⟩
      rcases List.mem_append.mp he' with he' | he'
      · exact hw e' he'
      · obtain rfl := List.mem_singleton.mp he'
        exact ⟨hstores,hremoves⟩

theorem lastPut_unique {h : List Done} {k v v' : Bytes} (hv : LastPut h k v)
    (hv' : LastPut h k v') : v = v' := by
  induction h using List.reverseRecOn with
  | nil =>
    obtain ⟨u,d,w,he,-⟩ := hv
    simp at he
  | append_singleton h e ih =>
    rcases lastPut_concat.mp hv with he | ⟨hold,hnot,-⟩ <;>
      rcases lastPut_concat.mp hv' with he' | ⟨hold',hnot',-⟩
    · exact Option.some.inj (he.2.2.1.symm.trans he'.2.2.1)
    · exact absurd he (hnot' v)
    · exact absurd he' (hnot v')
    · exact ih hold hold'

theorem others_concat (k : Bytes) (h : List Done) (e : Done) :
    others k h ⊆ others k (h ++ [e]) := by
  intro j hj
  rw [others, List.filterMap_append, List.filter_append]
  exact List.mem_append_left _ hj

theorem mem_others_concat {k j : Bytes} {h : List Done} {e : Done} (he : e.touched = some j)
    (hjk : j ≠ k) : j ∈ others k (h ++ [e]) := by
  simp [others, he, hjk]

inductive Effect (m : Lru Bytes Bytes) (op : CacheOp) (answer : KvResponse) :
    Lru Bytes Bytes → Prop where
  | refused : op.method = .set → op.request.value = none →
      answer.code = some StatusCode.kInvalidArgument.toInt → Effect m op answer m
  | stored {v : Bytes} : op.method = .set → op.request.value = some v →
      answer.code = some StatusCode.kOk.toInt → Effect m op answer (m.put op.request.key v)
  | found {v : Bytes} : op.method = .get → m.find op.request.key = some v →
      answer.code = some StatusCode.kOk.toInt → answer.value = some v →
      Effect m op answer (m.touch op.request.key)
  | removed {v : Bytes} : op.method = .remove → m.find op.request.key = some v →
      answer.code = some StatusCode.kOk.toInt → answer.value = some v →
      Effect m op answer (m.erase op.request.key)
  | missing : op.method ≠ .set → m.find op.request.key = none →
      answer.code = some StatusCode.kNotFound.toInt → Effect m op answer m

section Calls
variable {σ : Type*} [LRUCache σ] [RecencyCache σ]

theorem run_effect (op : CacheOp) (s : σ) :
    Effect (view s) op (op.run s).1 (view (op.run s).2) := by
  cases hm : op.method with
  | set =>
    cases hv : op.request.value with
    | none =>
      rw [run_noValue hm hv]
      exact .refused hm hv rfl
    | some v =>
      rw [run_stored hm hv, view_put]
      exact .stored hm hv rfl
  | get =>
    rw [run_get hm, view_tryGet, RecencyCache.tryGet_fst]
    cases hf : (view s).find op.request.key with
    | none =>
      rw [Lru.touch_missing hf]
      exact .missing (by simp [hm]) hf rfl
    | some v => exact .found hm hf rfl rfl
  | remove =>
    rw [run_remove hm, RecencyCache.tryGet_fst]
    cases hf : (view s).find op.request.key with
    | none =>
      rw [if_pos rfl, view_tryGet, Lru.touch_missing hf]
      exact .missing (by simp [hm]) hf rfl
    | some v =>
      rw [if_neg (by simp), view_remove, view_tryGet, Lru.erase_touch]
      exact .removed hm hf rfl rfl

def record (ops : List CacheOp) (cache : σ) : List Done × σ :=
  ops.foldl (fun r op => (r.1 ++ [⟨op,(op.run r.2).1⟩],(op.run r.2).2)) ([],cache)

omit [RecencyCache σ] in
theorem record_concat (ops : List CacheOp) (op : CacheOp) (cache : σ) :
    record (ops ++ [op]) cache =
      ((record ops cache).1 ++ [⟨op,(op.run (record ops cache).2).1⟩],
        (op.run (record ops cache).2).2) := by
  simp [record, List.foldl_append]

end Calls

/-- What the recency order says about the calls made so far: what is found was put
last, and a key whose last use was followed by few others is found, with only these
ahead of it. -/
structure Remembers (capacity : Nat) (h : List Done) (m : Lru Bytes Bytes) : Prop where
  room : m.capacity = capacity
  lastPut : ∀ k v, m.find k = some v → LastPut h k v
  recent : ∀ u d w k v, h = u ++ d :: w → d.touched = some k → LastPut h k v →
    (others k w).toFinset.card < capacity →
    m.find k = some v ∧ m.ahead k ⊆ others k w

section Steps
variable {capacity : Nat} {h : List Done} {m m' : Lru Bytes Bytes} {op : CacheOp}
  {answer : KvResponse}

theorem effect_capacity (he : Effect m op answer m') : m'.capacity = m.capacity := by
  cases he with
  | refused | missing | stored | removed => rfl
  | found => exact Lru.touch_capacity m op.request.key

theorem lastPut_step (hm : Remembers capacity h m) (he : Effect m op answer m') {k v : Bytes}
    (hf : m'.find k = some v) : LastPut (h ++ [⟨op,answer⟩]) k v := by
  rw [lastPut_concat]
  cases he with
  | refused hset hnone hcode =>
    refine Or.inr ⟨hm.lastPut k v hf,fun v' hs => ?_,fun hr => ?_⟩
    · have hok : answer.code = some StatusCode.kOk.toInt := hs.2.2.2
      rw [hcode] at hok
      cases hok
    · cases hset.symm.trans hr.1
  | @stored v' hset hv hcode =>
    have hput := Lru.find_put hf
    by_cases hk : k = op.request.key
    · rw [if_pos hk] at hput
      exact Or.inl ⟨hset,hk.symm,by rw [hv, hput],hcode⟩
    · rw [if_neg hk] at hput
      refine Or.inr ⟨hm.lastPut k v hput,fun v' hs => hk hs.2.1.symm,fun hr => ?_⟩
      exact hk hr.2.1.symm
  | found hget =>
    rw [Lru.find_touch] at hf
    refine Or.inr ⟨hm.lastPut k v hf,fun v' hs => ?_,fun hr => ?_⟩
    · cases hget.symm.trans hs.1
    · cases hget.symm.trans hr.1
  | removed hremove =>
    rw [Lru.find_erase] at hf
    split at hf
    · cases hf
    · rename_i hk
      refine Or.inr ⟨hm.lastPut k v hf,fun v' hs => ?_,fun hr => hk hr.2.1.symm⟩
      cases hremove.symm.trans hs.1
  | missing hnot hnone hcode =>
    refine Or.inr ⟨hm.lastPut k v hf,fun v' hs => hnot hs.1,fun hr => ?_⟩
    have hok : answer.code = some StatusCode.kOk.toInt := hr.2.2
    rw [hcode] at hok
    cases hok

theorem found_of_touched (he : Effect m op answer m') (hc : 0 < m.capacity) {k : Bytes}
    (hd : Done.touched ⟨op,answer⟩ = some k) : (∃ v, m'.find k = some v) ∧ m'.ahead k = [] := by
  obtain ⟨hnot,hok,rfl⟩ := Done.touched_eq_some hd
  have hcode : answer.code = some StatusCode.kOk.toInt := hok
  cases he with
  | refused _ _ hcode' =>
    rw [hcode'] at hcode
    cases hcode
  | stored => exact ⟨⟨_,Lru.find_put_self hc⟩,Lru.ahead_put_self m _ _⟩
  | found _ hf =>
    exact ⟨⟨_,by rw [Lru.find_touch]; exact hf⟩,Lru.ahead_touch_self hf⟩
  | removed hremove => exact absurd hremove hnot
  | missing _ _ hcode' =>
    rw [hcode'] at hcode
    cases hcode

theorem keeps_of_other (he : Effect m op answer m') {k v : Bytes} {w : List Done}
    (hf : m.find k = some v) (hahead : m.ahead k ⊆ others k w)
    (hcard : (others k (w ++ [⟨op,answer⟩])).toFinset.card < m.capacity)
    (hstores : ∀ v', ¬ Done.Stores ⟨op,answer⟩ k v') (hremoves : ¬ Done.Removes ⟨op,answer⟩ k) :
    m'.find k = some v ∧ m'.ahead k ⊆ others k (w ++ [⟨op,answer⟩]) := by
  have hgrow : m.ahead k ⊆ others k (w ++ [⟨op,answer⟩]) := fun j hj =>
    others_concat k w _ (hahead hj)
  cases he with
  | refused | missing => exact ⟨hf,hgrow⟩
  | @stored v' hset hv hcode =>
    have hjk : op.request.key ≠ k := fun hk => hstores v' ⟨hset,hk,hv,hcode⟩
    have ht : Done.touched ⟨op,answer⟩ = some op.request.key :=
      if_pos ⟨by simp [hset],hcode⟩
    exact Lru.put_keeps hjk hf hgrow (mem_others_concat ht hjk) hcard
  | @found v' hget hf' hcode =>
    have ht : Done.touched ⟨op,answer⟩ = some op.request.key :=
      if_pos ⟨by simp [hget],hcode⟩
    refine ⟨by rw [Lru.find_touch]; exact hf,?_⟩
    by_cases hjk : op.request.key = k
    · rw [hjk, Lru.ahead_touch_self hf]
      exact List.nil_subset _
    · intro j hj
      rcases List.mem_cons.mp (Lru.ahead_touch_subset hjk hj) with rfl | hj
      · exact mem_others_concat ht hjk
      · exact hgrow hj
  | removed hremove _ hcode =>
    have hjk : op.request.key ≠ k := fun hk => hremoves ⟨hremove,hk,hcode⟩
    refine ⟨by rw [Lru.find_erase, if_neg (Ne.symm hjk)]; exact hf,fun j hj => ?_⟩
    exact hgrow (Lru.ahead_erase_subset hjk hj)

theorem remembers_step (hm : Remembers capacity h m) (he : Effect m op answer m') :
    Remembers capacity (h ++ [⟨op,answer⟩]) m' := by
  refine ⟨(effect_capacity he).trans hm.room,fun k v hf => lastPut_step hm he hf,?_⟩
  intro u d w k v hsplit hd hlast hcard
  have hpos : 0 < m.capacity := by
    rw [hm.room]
    exact Nat.lt_of_le_of_lt (Nat.zero_le _) hcard
  -- whatever is found under `k` is what was put last
  have hvalue : ∀ v', m'.find k = some v' → m'.find k = some v := fun v' hf =>
    lastPut_unique (lastPut_step hm he hf) hlast ▸ hf
  rcases concat_split hsplit with ⟨rfl,-,rfl⟩ | ⟨w,rfl,hold⟩
  · obtain ⟨⟨v',hf⟩,hahead⟩ := found_of_touched he hpos hd
    exact ⟨hvalue v' hf,by rw [hahead]; exact List.nil_subset _⟩
  · rcases lastPut_concat.mp hlast with hstores | ⟨hlast',hstores,hremoves⟩
    · have ht : Done.touched ⟨op,answer⟩ = some k :=
        if_pos ⟨by rw [hstores.1]; decide,hstores.2.2.2⟩ |>.trans (congrArg some hstores.2.1)
      obtain ⟨⟨v',hf⟩,hahead⟩ := found_of_touched he hpos ht
      exact ⟨hvalue v' hf,by rw [hahead]; exact List.nil_subset _⟩
    · have hless : (others k w).toFinset.card < capacity := by
        refine Nat.lt_of_le_of_lt (Finset.card_le_card fun j hj => ?_) hcard
        exact List.mem_toFinset.mpr (others_concat k w _ (List.mem_toFinset.mp hj))
      obtain ⟨hf,hahead⟩ := hm.recent u d w k v hold hd hlast' hless
      exact keeps_of_other he hf hahead (by rw [hm.room]; exact hcard) hstores hremoves

end Steps

section Runs
variable {σ : Type*} [LRUCache σ] [RecencyCache σ]

theorem remembers_record {capacity : Nat} {cache₀ : σ} (h0 : view cache₀ = Lru.empty capacity)
    (ops : List CacheOp) :
    Remembers capacity (record ops cache₀).1 (view (record ops cache₀).2) := by
  induction ops using List.reverseRecOn with
  | nil =>
    have hview : view (record [] cache₀).2 = Lru.empty capacity := h0
    rw [hview]
    refine ⟨rfl,fun k v hf => ?_,fun u d w k v he => ?_⟩
    · cases hf
    · simp [record] at he
  | append_singleton ops op ih =>
    rw [record_concat]
    exact remembers_step ih (run_effect op _)

/-- What the calls made so far, `h`, say of a cache `s` of this capacity: a get finds
only what was put last and not removed since; it does find it as long as fewer other
keys than the capacity were put or read since the key's last use; a call that is
refused or finds nothing leaves the entries and their order as they were; and a put
that has a value is accepted. -/
structure Retains (capacity : Nat) (h : List Done) (s : σ) : Prop where
  fresh : ∀ k w response v, (Cache.get ⟨k,w⟩ response s).1.code = some StatusCode.kOk.toInt →
    (Cache.get ⟨k,w⟩ response s).1.value = some v → LastPut h k v
  retained : ∀ u d w k v, h = u ++ d :: w → d.touched = some k → LastPut h k v →
    (others k w).toFinset.card < capacity → ∀ value response,
    (Cache.get ⟨k,value⟩ response s).1.code = some StatusCode.kOk.toInt ∧
      (Cache.get ⟨k,value⟩ response s).1.value = some v
  quiet : ∀ op : CacheOp, (op.run s).1.code = some StatusCode.kInvalidArgument.toInt ∨
    (op.run s).1.code = some StatusCode.kNotFound.toInt → view (op.run s).2 = view s
  accepted : ∀ (op : CacheOp) v, op.method = .set → op.request.value = some v →
    (op.run s).1.code = some StatusCode.kOk.toInt

omit [RecencyCache σ] in
theorem get_answer (k : Bytes) (w : Option Bytes) (response : KvResponse) (s : σ) :
    (Cache.get ⟨k,w⟩ response s).1 = fillLooked (LRUCache.tryGet s k).1 response := by
  change (CacheOp.run ⟨.get,⟨k,w⟩,response⟩ s).1 = _
  rw [run_get rfl]

theorem quiet_of_code {op : CacheOp} {s : σ}
    (hcode : (op.run s).1.code = some StatusCode.kInvalidArgument.toInt ∨
      (op.run s).1.code = some StatusCode.kNotFound.toInt) : view (op.run s).2 = view s := by
  have he := run_effect op s
  generalize view (op.run s).2 = m' at he
  cases he with
  | refused | missing => rfl
  | stored _ _ hok | found _ _ hok | removed _ _ hok =>
    rw [hok] at hcode
    rcases hcode with hcode | hcode <;> cases hcode

theorem retains_record {capacity : Nat} {cache₀ : σ} (h0 : view cache₀ = Lru.empty capacity)
    (ops : List CacheOp) : Retains capacity (record ops cache₀).1 (record ops cache₀).2 := by
  have hm := remembers_record h0 ops
  refine ⟨?_,?_,fun op => quiet_of_code,fun op v hset hv => by rw [run_stored hset hv]; rfl⟩
  · intro k w response v hok hv
    rw [get_answer, RecencyCache.tryGet_fst] at hok hv
    cases hf : (view (record ops cache₀).2).find k with
    | none =>
      rw [hf] at hok
      cases hok
    | some v' =>
      rw [hf] at hv
      obtain rfl : v' = v := Option.some.inj hv
      exact hm.lastPut k v' hf
  · intro u d w k v hsplit hd hlast hcard value response
    obtain ⟨hf,-⟩ := hm.recent u d w k v hsplit hd hlast hcard
    rw [get_answer, RecencyCache.tryGet_fst, hf]
    exact ⟨rfl,rfl⟩

end Runs

/-- Three keys pass through a cache of two entries: "a" is read before the third is
put, so "b" has to go; a remove then makes room. -/
def threeKeys : List CacheOp :=
  [⟨.set,⟨text "a",some (text "1")⟩,{}⟩,⟨.set,⟨text "b",some (text "2")⟩,{}⟩,
    ⟨.get,⟨text "a",none⟩,{}⟩,⟨.set,⟨text "c",some (text "3")⟩,{}⟩,
    ⟨.get,⟨text "b",none⟩,{}⟩,⟨.remove,⟨text "c",none⟩,{}⟩]

theorem retains_threeKeys :
    (record threeKeys (Lru.empty 2 : Lru Bytes Bytes)).1.map Done.answer =
      [⟨some 0,some (text "ok"),none⟩,⟨some 0,some (text "ok"),none⟩,
        ⟨some 0,some (text "ok"),some (text "1")⟩,⟨some 0,some (text "ok"),none⟩,
        ⟨some 5,some (text "not found"),none⟩,⟨some 0,some (text "ok"),some (text "3")⟩] ∧
    Retains 2 (record threeKeys (Lru.empty 2 : Lru Bytes Bytes)).1
      (record threeKeys (Lru.empty 2 : Lru Bytes Bytes)).2 :=
  ⟨by decide,
    retains_record (show view (Lru.empty 2 : Lru Bytes Bytes) = Lru.empty 2 from rfl) threeKeys⟩

end EaHalfHour.CacheHistory
