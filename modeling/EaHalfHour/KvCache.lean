import EaHalfHour.KvMessage
import EaHalfHour.RecencyMap

/-! halakv::Cache over a turbo::LRUCache, as a010 has it, and the a008 server. The three
projects that have a cache.cc differ only in what they lock around the same bodies. -/
namespace EaHalfHour.KvCache
open KvMessage

/-- What cache.cc uses of turbo::LRUCache<std::string, std::string>. A lookup may
move its key, so it returns a cache as well. -/
class LRUCache (σ : Type*) where
  put : σ → Bytes → Bytes → σ
  tryGet : σ → Bytes → Option Bytes × σ
  remove : σ → Bytes → σ

/-- A cache holds at most one value for a key; it may drop a key whenever another
one is put, and does nothing else that was not asked of it. -/
class LawfulLRUCache (σ : Type*) [LRUCache σ] where
  find : σ → Bytes → Option Bytes
  tryGet_fst : ∀ (s : σ) k, (LRUCache.tryGet s k).1 = find s k
  find_tryGet : ∀ (s : σ) j k, find (LRUCache.tryGet s k).2 j = find s j
  find_put : ∀ (s : σ) j k v w, find (LRUCache.put s k v) j = some w →
    if j = k then w = v else find s j = some w
  find_remove : ∀ (s : σ) j k,
    find (LRUCache.remove s k) j = if j = k then none else find s j

/-- A cache that behaves as a bounded map in order of last use, which `view` reads
off it. -/
class RecencyCache (σ : Type*) [LRUCache σ] where
  view : σ → RecencyMap.Lru Bytes Bytes
  view_put : ∀ (s : σ) k v, view (LRUCache.put s k v) = (view s).put k v
  tryGet_fst : ∀ (s : σ) k, (LRUCache.tryGet s k).1 = (view s).find k
  view_tryGet : ∀ (s : σ) k, view (LRUCache.tryGet s k).2 = (view s).touch k
  view_remove : ∀ (s : σ) k, view (LRUCache.remove s k) = (view s).erase k

section Bounded
open RecencyMap

instance : LRUCache (Lru Bytes Bytes) where
  put := Lru.put
  tryGet m k := (m.find k,m.touch k)
  remove := Lru.erase

instance : RecencyCache (Lru Bytes Bytes) where
  view := id
  view_put _ _ _ := rfl
  tryGet_fst _ _ := rfl
  view_tryGet _ _ := rfl
  view_remove _ _ := rfl

instance {σ : Type*} [LRUCache σ] [RecencyCache σ] : LawfulLRUCache σ where
  find s := (RecencyCache.view s).find
  tryGet_fst := RecencyCache.tryGet_fst
  find_tryGet s j k := by rw [RecencyCache.view_tryGet, Lru.find_touch]
  find_put s j k v w h := by
    rw [RecencyCache.view_put] at h
    exact Lru.find_put h
  find_remove s j k := by rw [RecencyCache.view_remove, Lru.find_erase]

end Bounded

variable {σ : Type*} [LRUCache σ]

def Cache.put (request : KvRequest) (response : KvResponse) (cache : σ) : KvResponse × σ :=
  match request.value with
  | none => ((response.setCode .kInvalidArgument).setMessage (text "no value"), cache)
  | some value =>
    ((response.setCode .kOk).setMessage (text "ok"), LRUCache.put cache request.key value)

def Cache.get (request : KvRequest) (response : KvResponse) (cache : σ) : KvResponse × σ :=
  let r := LRUCache.tryGet cache request.key
  match r.1 with
  | some value => (((response.setValue value).setCode .kOk).setMessage (text "ok"), r.2)
  | none => ((response.setCode .kNotFound).setMessage (text "not found"), r.2)

def Cache.remove (request : KvRequest) (response : KvResponse) (cache : σ) :
    KvResponse × σ :=
  let r := LRUCache.tryGet cache request.key
  match r.1 with
  | some value =>
    (((response.setValue value).setCode .kOk).setMessage (text "ok"),
      LRUCache.remove r.2 request.key)
  | none => ((response.setCode .kNotFound).setMessage (text "not found"), r.2)

def Cache.run : Method → KvRequest → KvResponse → σ → KvResponse × σ
  | .set => Cache.put
  | .get => Cache.get
  | .remove => Cache.remove

theorem Cache.run_isInitialized (m : Method) (request : KvRequest) (response : KvResponse)
    (cache : σ) : (Cache.run m request response cache).1.isInitialized = true := by
  cases m with
  | set =>
    change (Cache.put request response cache).1.isInitialized = true
    unfold Cache.put
    split <;> rfl
  | get =>
    change (Cache.get request response cache).1.isInitialized = true
    unfold Cache.get
    dsimp only
    split <;> rfl
  | remove =>
    change (Cache.remove request response cache).1.isInitialized = true
    unfold Cache.remove
    dsimp only
    split <;> rfl

structure CacheOp where
  method : Method
  request : KvRequest
  response : KvResponse := {}
deriving DecidableEq

def CacheOp.run (op : CacheOp) (cache : σ) : KvResponse × σ :=
  Cache.run op.method op.request op.response cache

/-! What the three members write into the response, for code that interleaves them
statement by statement. -/

def fillNoValue (response : KvResponse) : KvResponse :=
  (response.setCode .kInvalidArgument).setMessage (text "no value")

def fillStored (response : KvResponse) : KvResponse :=
  (response.setCode .kOk).setMessage (text "ok")

def fillLooked (found : Option Bytes) (response : KvResponse) : KvResponse :=
  match found with
  | some value => ((response.setValue value).setCode .kOk).setMessage (text "ok")
  | none => (response.setCode .kNotFound).setMessage (text "not found")

theorem Cache.get_eq (request : KvRequest) (response : KvResponse) (cache : σ) :
    Cache.get request response cache =
      (fillLooked (LRUCache.tryGet cache request.key).1 response,
        (LRUCache.tryGet cache request.key).2) := by
  simp only [Cache.get]
  cases (LRUCache.tryGet cache request.key).1 <;> rfl

section Statements
variable {op : CacheOp} {cache : σ}

theorem run_noValue (hm : op.method = .set) (hv : op.request.value = none) :
    op.run cache = (fillNoValue op.response,cache) := by
  simp only [CacheOp.run, hm, Cache.run, Cache.put, hv, fillNoValue]

theorem run_stored {value : Bytes} (hm : op.method = .set) (hv : op.request.value = some value) :
    op.run cache = (fillStored op.response,LRUCache.put cache op.request.key value) := by
  simp only [CacheOp.run, hm, Cache.run, Cache.put, hv, fillStored]

theorem run_get (hm : op.method = .get) :
    op.run cache = (fillLooked (LRUCache.tryGet cache op.request.key).1 op.response,
      (LRUCache.tryGet cache op.request.key).2) := by
  simp only [CacheOp.run, hm, Cache.run, Cache.get_eq]

theorem run_remove (hm : op.method = .remove) :
    op.run cache = (fillLooked (LRUCache.tryGet cache op.request.key).1 op.response,
      if (LRUCache.tryGet cache op.request.key).1 = none
        then (LRUCache.tryGet cache op.request.key).2
        else LRUCache.remove (LRUCache.tryGet cache op.request.key).2 op.request.key) := by
  simp only [CacheOp.run, hm, Cache.run, Cache.remove]
  cases (LRUCache.tryGet cache op.request.key).1 <;> rfl

end Statements

section Outcomes
open LawfulLRUCache
variable [LawfulLRUCache σ] {s s' : σ} {m : Method} {request : KvRequest}
  {response : KvResponse}

inductive Outcome (s : σ) (request : KvRequest) : Method → KvResponse → σ → Prop where
  | noValue : request.value = none →
      Outcome s request .set ⟨some StatusCode.kInvalidArgument.toInt,some (text "no value"),none⟩ s
  | stored {value : Bytes} : request.value = some value →
      Outcome s request .set ⟨some StatusCode.kOk.toInt,some (text "ok"),none⟩
        (LRUCache.put s request.key value)
  | found {value : Bytes} : find s request.key = some value →
      Outcome s request .get ⟨some StatusCode.kOk.toInt,some (text "ok"),some value⟩
        (LRUCache.tryGet s request.key).2
  | removed {value : Bytes} : find s request.key = some value →
      Outcome s request .remove ⟨some StatusCode.kOk.toInt,some (text "ok"),some value⟩
        (LRUCache.remove (LRUCache.tryGet s request.key).2 request.key)
  | missing {m : Method} : m ≠ .set → find s request.key = none →
      Outcome s request m ⟨some StatusCode.kNotFound.toInt,some (text "not found"),none⟩
        (LRUCache.tryGet s request.key).2

theorem Cache.run_outcome (m : Method) (request : KvRequest) (s : σ) :
    Outcome s request m (Cache.run m request {} s).1 (Cache.run m request {} s).2 := by
  cases m with
  | set =>
    cases hv : request.value with
    | none =>
      simp only [Cache.run, Cache.put, hv]
      exact .noValue hv
    | some value =>
      simp only [Cache.run, Cache.put, hv]
      exact .stored hv
  | get =>
    cases hf : find s request.key with
    | none =>
      simp only [Cache.run, Cache.get, tryGet_fst, hf]
      exact .missing (by decide) hf
    | some value =>
      simp only [Cache.run, Cache.get, tryGet_fst, hf]
      exact .found hf
  | remove =>
    cases hf : find s request.key with
    | none =>
      simp only [Cache.run, Cache.remove, tryGet_fst, hf]
      exact .missing (by decide) hf
    | some value =>
      simp only [Cache.run, Cache.remove, tryGet_fst, hf]
      exact .removed hf

theorem Outcome.find_after (h : Outcome s request m response s') {k v : Bytes}
    (hf : find s' k = some v) :
    find s k = some v ∨ (m = .set ∧ request.key = k ∧ request.value = some v) := by
  cases h with
  | noValue => exact Or.inl hf
  | stored hv =>
    have hput := find_put s k request.key _ v hf
    by_cases hk : k = request.key
    · rw [if_pos hk] at hput
      exact Or.inr ⟨rfl,hk.symm,by rw [hv, hput]⟩
    · rw [if_neg hk] at hput
      exact Or.inl hput
  | found | missing => exact Or.inl (by rwa [find_tryGet] at hf)
  | removed =>
    rw [find_remove, find_tryGet] at hf
    by_cases hk : k = request.key
    · rw [if_pos hk] at hf
      cases hf
    · rw [if_neg hk] at hf
      exact Or.inl hf

theorem Outcome.find_same (h : Outcome s request m response s')
    (hm : m = .get ∨ (m = .set ∧ request.value = none) ∨
      response.code = some StatusCode.kNotFound.toInt) (k : Bytes) :
    find s' k = find s k := by
  cases h with
  | noValue => rfl
  | stored hv =>
    rcases hm with hm | ⟨-,hnone⟩ | hcode
    · cases hm
    · rw [hv] at hnone
      cases hnone
    · simp [StatusCode.toInt] at hcode
  | found | missing => exact find_tryGet s k request.key
  | removed =>
    rcases hm with hm | ⟨hm,-⟩ | hcode
    · cases hm
    · cases hm
    · simp [StatusCode.toInt] at hcode

theorem Outcome.of_invalidArgument (h : Outcome s request m response s')
    (hcode : response.code = some StatusCode.kInvalidArgument.toInt) :
    m = .set ∧ request.value = none := by
  cases h with
  | noValue hv => exact ⟨rfl,hv⟩
  | stored | found | removed | missing => simp [StatusCode.toInt] at hcode

theorem Outcome.of_notFound (h : Outcome s request m response s')
    (hcode : response.code = some StatusCode.kNotFound.toInt) : m ≠ .set := by
  cases h with
  | missing hm => exact hm
  | noValue | stored | found | removed => simp [StatusCode.toInt] at hcode

theorem Outcome.remove_ok (h : Outcome s request .remove response s')
    (hcode : response.code = some StatusCode.kOk.toInt) :
    ∃ v, response.value = some v ∧ find s request.key = some v ∧
      find s' request.key = none := by
  cases h with
  | removed hf => exact ⟨_,rfl,hf,by rw [find_remove, if_pos rfl]⟩
  | missing => simp [StatusCode.toInt] at hcode

theorem Outcome.set_ok (h : Outcome s request .set response s')
    (hcode : response.code = some StatusCode.kOk.toInt) {w : Bytes}
    (hf : find s' request.key = some w) : request.value = some w := by
  cases h with
  | noValue => simp [StatusCode.toInt] at hcode
  | stored hv =>
    have hput := find_put s request.key request.key _ w hf
    rw [if_pos rfl] at hput
    rw [hv, hput]
  | missing hm => exact absurd rfl hm

theorem Outcome.get_value (h : Outcome s request .get response s') {v : Bytes}
    (hv : response.value = some v) : find s request.key = some v := by
  cases h with
  | found hf => rw [hf, ← hv]
  | missing => cases hv

theorem Outcome.get_ok (h : Outcome s request .get response s')
    (hcode : response.code = some StatusCode.kOk.toInt) :
    ∃ v, response.value = some v ∧ find s request.key = some v := by
  cases h with
  | found hf => exact ⟨_,rfl,hf⟩
  | missing => simp [StatusCode.toInt] at hcode

theorem Outcome.remove_only (h : Outcome s request .remove response s') (k : Bytes) :
    find s' k = find s k ∨ (k = request.key ∧ find s' k = none) := by
  cases h with
  | removed =>
    rw [find_remove, find_tryGet]
    by_cases hk : k = request.key
    · exact Or.inr ⟨hk,if_pos hk⟩
    · exact Or.inl (if_neg hk)
  | missing => exact Or.inl (find_tryGet s k request.key)

end Outcomes

namespace SingleNode

def Cache.put (request : KvRequest) (response : KvResponse) (cache : σ) : KvResponse × σ :=
  match request.value with
  | none => ((response.setCode .kInvalidArgument).setMessage (text "no value"),cache)
  | some value =>
    ((response.setCode .kOk).setMessage (text "ok"),LRUCache.put cache request.key value)

def Cache.get (request : KvRequest) (response : KvResponse) (cache : σ) : KvResponse × σ :=
  let r := LRUCache.tryGet cache request.key
  match r.1 with
  | some value => (((response.setValue value).setCode .kOk).setMessage (text "ok"),r.2)
  | none => ((response.setCode .kNotFound).setMessage (text "not found"),r.2)

def Cache.remove (request : KvRequest) (response : KvResponse) (cache : σ) : KvResponse × σ :=
  let r := LRUCache.tryGet cache request.key
  match r.1 with
  | some value =>
    (((response.setValue value).setCode .kOk).setMessage (text "ok"),
      LRUCache.remove r.2 request.key)
  | none => ((response.setCode .kNotFound).setMessage (text "not found"),r.2)

def KvServiceimpl.set (request : KvRequest) (response : KvResponse) (cache : σ) :
    KvResponse × σ := Cache.put request response cache
def KvServiceimpl.get (request : KvRequest) (response : KvResponse) (cache : σ) :
    KvResponse × σ := Cache.get request response cache
def KvServiceimpl.remove (request : KvRequest) (response : KvResponse) (cache : σ) :
    KvResponse × σ := Cache.remove request response cache

def serve (call : Method × KvRequest) (cache : σ) : KvResponse × σ :=
  match call.1 with
  | .set => KvServiceimpl.set call.2 {} cache
  | .get => KvServiceimpl.get call.2 {} cache
  | .remove => KvServiceimpl.remove call.2 {} cache

/-- The members of a010 do under their locks what those of a008 do without. -/
theorem serve_eq (call : Method × KvRequest) (cache : σ) :
    serve call cache = KvCache.Cache.run call.1 call.2 {} cache := by
  obtain ⟨m,request⟩ := call
  cases m <;> rfl

end SingleNode

end EaHalfHour.KvCache
