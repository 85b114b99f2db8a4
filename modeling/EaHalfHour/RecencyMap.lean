import Mathlib.Data.List.Nodup
import Mathlib.Data.List.Basic
import Mathlib.Data.List.Perm.Basic
import Mathlib.Data.Set.Defs
import Mathlib.Data.Finset.Card

/-! A bounded map that keeps its entries in order of last use, most recent
first, and drops the least recent one when a new key meets a full map. -/
namespace EaHalfHour.RecencyMap
variable {K V : Type*} [DecidableEq K]

def find (k : K) (l : List (K × V)) : Option V :=
  (l.find? fun e => decide (e.1 = k)).map Prod.snd

def without (k : K) (l : List (K × V)) : List (K × V) :=
  l.filter fun e => decide (e.1 ≠ k)

theorem find_nil (k : K) : find k ([] : List (K × V)) = none := rfl

theorem find_cons (k j : K) (v : V) (l : List (K × V)) :
    find k ((j,v) :: l) = if j = k then some v else find k l := by
  by_cases h : j = k <;> simp [find, h]

theorem without_cons (k j : K) (v : V) (l : List (K × V)) :
    without k ((j,v) :: l) = if j = k then without k l else (j,v) :: without k l := by
  by_cases h : j = k <;> simp [without, h]

theorem find_without (j k : K) (l : List (K × V)) :
    find j (without k l) = if j = k then none else find j l := by
  induction l with
  | nil => simp [without, find]
  | cons e l ih =>
    obtain ⟨i,v⟩ := e
    rw [without_cons, find_cons]
    by_cases hik : i = k
    · subst hik
      by_cases hji : j = i
      · simpa [hji] using ih
      · simp [ih, hji, Ne.symm hji]
    · by_cases hij : i = j
      · subst hij
        simp [find_cons, hik]
      · simp [find_cons, hik, hij, ih]

theorem find_without_self (k : K) (l : List (K × V)) : find k (without k l) = none := by
  rw [find_without, if_pos rfl]

theorem find_take {j : K} {v : V} {n : Nat} {l : List (K × V)}
    (h : find j (l.take n) = some v) : find j l = some v := by
  induction l generalizing n with
  | nil => simpa using h
  | cons e l ih =>
    cases n with
    | zero => simp [find_nil] at h
    | succ n =>
      obtain ⟨i,w⟩ := e
      rw [List.take_succ_cons, find_cons] at h
      rw [find_cons]
      by_cases hij : i = j
      · simpa [hij] using h
      · simpa [hij] using ih (by simpa [hij] using h)

theorem find_eq_none_iff (k : K) (l : List (K × V)) :
    find k l = none ↔ k ∉ l.map Prod.fst := by
  simp only [find, Option.map_eq_none_iff, List.find?_eq_none, decide_eq_true_eq, List.mem_map]
  exact ⟨fun h ⟨e,he,hk⟩ => h e he hk, fun h e he hk => h ⟨e,he,hk⟩⟩

theorem not_mem_without (k : K) (l : List (K × V)) : k ∉ (without k l).map Prod.fst := by
  rw [← find_eq_none_iff, find_without_self]

theorem without_eq_self {k : K} {l : List (K × V)} (h : find k l = none) : without k l = l := by
  refine List.filter_eq_self.mpr fun e he => ?_
  have hkeys := (find_eq_none_iff k l).mp h
  simpa using fun heq : e.1 = k => hkeys (heq ▸ List.mem_map_of_mem he)

theorem nodup_without {l : List (K × V)} (k : K) (h : (l.map Prod.fst).Nodup) :
    ((without k l).map Prod.fst).Nodup :=
  h.sublist (List.filter_sublist.map Prod.fst)

theorem length_without_le (k : K) (l : List (K × V)) : (without k l).length ≤ l.length :=
  List.length_filter_le _ l

theorem length_without_lt {k : K} {l : List (K × V)} (h : find k l ≠ none) :
    (without k l).length < l.length := by
  rw [Ne, find_eq_none_iff, not_not] at h
  obtain ⟨e,he,hk⟩ := List.mem_map.mp h
  exact List.length_filter_lt_length_iff_exists.mpr ⟨e,he,by simp [hk]⟩

theorem length_without {k : K} {l : List (K × V)} (h : (l.map Prod.fst).Nodup) :
    (without k l).length + (if find k l = none then 0 else 1) = l.length := by
  induction l with
  | nil => rfl
  | cons e l ih =>
    obtain ⟨j,v⟩ := e
    obtain ⟨hj,hl⟩ := List.nodup_cons.mp h
    rw [without_cons, find_cons]
    by_cases hjk : j = k
    · subst hjk
      have hnone : find j l = none := (find_eq_none_iff j l).mpr hj
      simp [without_eq_self hnone]
    · have hrest := ih hl
      simp only [if_neg hjk, List.length_cons]
      omega

theorem find_sublist {l l' : List (K × V)} (h : l.Sublist l') (hnodup : (l'.map Prod.fst).Nodup)
    {k : K} {v : V} (hk : find k l = some v) : find k l' = some v := by
  induction h with
  | slnil => exact hk
  | cons e h ih =>
    obtain ⟨j,w⟩ := e
    obtain ⟨hj,hl⟩ := List.nodup_cons.mp hnodup
    have hrest := ih hl hk
    have hjk : j ≠ k := by
      rintro rfl
      rw [(find_eq_none_iff j _).mpr hj] at hrest
      cases hrest
    rw [find_cons, if_neg hjk]
    exact hrest
  | cons_cons e h ih =>
    obtain ⟨j,w⟩ := e
    rw [find_cons] at hk ⊢
    by_cases hjk : j = k
    · rwa [if_pos hjk] at hk ⊢
    · rw [if_neg hjk] at hk ⊢
      exact ih (List.nodup_cons.mp hnodup).2 hk

theorem sublist_take_take {α : Type*} {l l' : List α} (h : l.Sublist l') {a b : Nat}
    (hcut : l'.length + a ≤ l.length + b) : (l.take a).Sublist (l'.take b) := by
  have hdrop : (l.reverse.drop (l.length - a)).Sublist (l'.reverse.drop (l'.length - b)) :=
    (List.drop_sublist_drop_left l.reverse (by omega)).trans (h.reverse.drop _)
  rw [List.drop_reverse, List.drop_reverse, List.reverse_sublist] at hdrop
  have hmin : ∀ n c : Nat, n - (n - c) = min c n := fun n c => by omega
  rwa [hmin, hmin, ← List.take_eq_take_min, ← List.take_eq_take_min] at hdrop

def ahead (k : K) (l : List (K × V)) : List K :=
  (l.map Prod.fst).takeWhile fun j => decide (j ≠ k)

theorem ahead_cons (k j : K) (v : V) (l : List (K × V)) :
    ahead k ((j,v) :: l) = if j = k then [] else j :: ahead k l := by
  by_cases h : j = k <;> simp [ahead, h]

theorem nodup_ahead {l : List (K × V)} (k : K) (h : (l.map Prod.fst).Nodup) :
    (ahead k l).Nodup :=
  h.sublist (List.takeWhile_sublist _)

theorem ahead_without_subset {j k : K} (h : j ≠ k) (l : List (K × V)) :
    ahead k (without j l) ⊆ ahead k l := by
  induction l with
  | nil => simp [without, ahead]
  | cons e l ih =>
    obtain ⟨i,v⟩ := e
    rw [without_cons, ahead_cons]
    by_cases hij : i = j
    · subst hij
      rw [if_pos rfl, if_neg h]
      exact List.subset_cons_of_subset i ih
    · rw [if_neg hij, ahead_cons]
      by_cases hik : i = k
      · simp [hik]
      · simpa [hik] using List.cons_subset_cons i ih

theorem ahead_take_subset (k : K) (n : Nat) (l : List (K × V)) :
    ahead k (l.take n) ⊆ ahead k l := by
  induction l generalizing n with
  | nil => simp [ahead]
  | cons e l ih =>
    cases n with
    | zero => simp [ahead]
    | succ n =>
      obtain ⟨i,v⟩ := e
      rw [List.take_succ_cons, ahead_cons, ahead_cons]
      by_cases hik : i = k
      · simp [hik]
      · simpa [hik] using List.cons_subset_cons i (ih n)

theorem find_take_of_ahead {k : K} {v : V} {n : Nat} {l : List (K × V)}
    (h : find k l = some v) (hn : (ahead k l).length < n) : find k (l.take n) = some v := by
  induction l generalizing n with
  | nil => simp [find_nil] at h
  | cons e l ih =>
    obtain ⟨i,w⟩ := e
    cases n with
    | zero => exact absurd hn (Nat.not_lt_zero _)
    | succ n =>
      rw [find_cons] at h
      rw [ahead_cons] at hn
      rw [List.take_succ_cons, find_cons]
      by_cases hik : i = k
      · simpa [hik] using h
      · rw [if_neg hik] at h hn ⊢
        exact ih h (Nat.lt_of_succ_lt_succ hn)

theorem find_dropLast {j : K} {l : List (K × V)} (h : (l.map Prod.fst).Nodup) :
    find j l.dropLast = if l.getLast?.map Prod.fst = some j then none else find j l := by
  induction l using List.reverseRecOn with
  | nil => rfl
  | append_singleton l e _ =>
    rw [List.dropLast_concat, List.getLast?_concat, Option.map_some]
    by_cases hj : e.1 = j
    · rw [if_pos (congrArg some hj), find_eq_none_iff, ← hj]
      rw [List.map_append, List.nodup_append] at h
      exact fun hmem => h.2.2 e.1 hmem e.1 (by simp) rfl
    · rw [if_neg fun heq => hj (Option.some.inj heq)]
      simp [find, List.find?_append, hj]

/-- The map itself: no key twice, and never more entries than the capacity. -/
structure Lru (K V : Type*) where
  capacity : Nat
  entries : List (K × V)
  nodup : (entries.map Prod.fst).Nodup
  bounded : entries.length ≤ capacity
deriving DecidableEq

namespace Lru

def empty (capacity : Nat) : Lru K V := ⟨capacity,[],by simp,by simp⟩

def find (m : Lru K V) (k : K) : Option V := RecencyMap.find k m.entries

/-- Insert or overwrite, as the most recent entry; what no longer fits is the
least recent one. -/
def put (m : Lru K V) (k : K) (v : V) : Lru K V where
  capacity := m.capacity
  entries := ((k,v) :: without k m.entries).take m.capacity
  nodup := by
    have h : (((k,v) :: without k m.entries).map Prod.fst).Nodup :=
      List.nodup_cons.mpr ⟨not_mem_without k m.entries,nodup_without k m.nodup⟩
    exact h.sublist ((List.take_sublist _ _).map Prod.fst)
  bounded := List.length_take_le _ _

def touch (m : Lru K V) (k : K) : Lru K V :=
  match h : RecencyMap.find k m.entries with
  | none => m
  | some v =>
    { capacity := m.capacity
      entries := (k,v) :: without k m.entries
      nodup := List.nodup_cons.mpr ⟨not_mem_without k m.entries,nodup_without k m.nodup⟩
      bounded := by
        have hlt := length_without_lt (k := k) (l := m.entries) (by simp [h])
        have hb := m.bounded
        simp only [List.length_cons]
        omega }

def erase (m : Lru K V) (k : K) : Lru K V where
  capacity := m.capacity
  entries := without k m.entries
  nodup := nodup_without k m.nodup
  bounded := Nat.le_trans (length_without_le k m.entries) m.bounded

theorem touch_entries (m : Lru K V) (k : K) :
    (m.touch k).entries = match m.find k with
      | none => m.entries
      | some v => (k,v) :: without k m.entries := by
  unfold touch find
  split <;> rename_i h <;> simp [h]

theorem find_touch (m : Lru K V) (j k : K) : (m.touch k).find j = m.find j := by
  rw [find, touch_entries]
  cases h : m.find k with
  | none => rfl
  | some v =>
    by_cases hk : k = j
    · subst hk
      simpa [find_cons] using h.symm
    · simp [find_cons, find_without, hk, Ne.symm hk, find]

theorem find_erase (m : Lru K V) (j k : K) :
    (m.erase k).find j = if j = k then none else m.find j :=
  find_without j k m.entries

theorem find_put {m : Lru K V} {j k : K} {v w : V} (h : (m.put k v).find j = some w) :
    if j = k then w = v else m.find j = some w := by
  have h' := find_take h
  rw [find_cons] at h'
  by_cases hk : j = k
  · subst hk
    simpa [eq_comm] using h'
  · simpa [hk, Ne.symm hk, find_without, find] using h'

omit [DecidableEq K] in
theorem ext {m n : Lru K V} (hc : m.capacity = n.capacity) (he : m.entries = n.entries) :
    m = n := by
  obtain ⟨capacity,entries,_,_⟩ := m
  obtain ⟨capacity',entries',_,_⟩ := n
  obtain rfl : capacity = capacity' := hc
  obtain rfl : entries = entries' := he
  rfl

theorem touch_capacity (m : Lru K V) (k : K) : (m.touch k).capacity = m.capacity := by
  unfold touch
  split <;> rfl

theorem length_touch (m : Lru K V) (k : K) : (m.touch k).entries.length = m.entries.length := by
  have hlength := length_without (k := k) m.nodup
  rw [touch_entries]
  cases hk : m.find k with
  | none => rfl
  | some v =>
    have hk' : RecencyMap.find k m.entries = some v := hk
    rw [if_neg (by simp [hk'])] at hlength
    simpa using hlength

/-- A put that drops nothing: the key is there already, or there is room. -/
def Fits (m : Lru K V) (k : K) : Prop := m.find k ≠ none ∨ m.entries.length < m.capacity

theorem put_entries {m : Lru K V} {k : K} (h : m.Fits k) (v : V) :
    (m.put k v).entries = (k,v) :: without k m.entries := by
  refine List.take_of_length_le ?_
  have hb := m.bounded
  simp only [List.length_cons]
  rcases h with hfound | hroom
  · have hlt := length_without_lt hfound
    omega
  · have hle := length_without_le k m.entries
    omega

theorem find_put_fits {m : Lru K V} {k : K} (h : m.Fits k) (v : V) (j : K) :
    (m.put k v).find j = if j = k then some v else m.find j := by
  rw [find, put_entries h, find_cons, find_without]
  by_cases hjk : j = k
  · simp [hjk]
  · simp [hjk, Ne.symm hjk, find]

theorem length_eq_card {m : Lru K V} {S : Finset K} (h : ∀ k, m.find k ≠ none ↔ k ∈ S) :
    m.entries.length = S.card := by
  have hkeys : (m.entries.map Prod.fst).toFinset = S := by
    ext k
    rw [List.mem_toFinset, ← h k, find, Ne, find_eq_none_iff, not_not]
  rw [← hkeys, List.toFinset_card_of_nodup m.nodup, List.length_map]

theorem fits_of_subset {m : Lru K V} {S : Finset K} (hsub : ∀ j, m.find j ≠ none → j ∈ S) {k : K}
    (hk : k ∈ S) (hcard : S.card ≤ m.capacity) : m.Fits k := by
  by_contra hfull
  obtain ⟨hmissing,hroom⟩ := not_or.mp hfull
  have hkeys : (m.entries.map Prod.fst).toFinset ⊆ S.erase k := by
    intro j hj
    have hfound : m.find j ≠ none := by
      rw [find, Ne, find_eq_none_iff, not_not]
      exact List.mem_toFinset.mp hj
    exact Finset.mem_erase.mpr ⟨fun hjk => hmissing (hjk ▸ hfound),hsub j hfound⟩
  have hle := Finset.card_le_card hkeys
  rw [List.toFinset_card_of_nodup m.nodup, List.length_map, Finset.card_erase_of_mem hk] at hle
  have hpos := Finset.card_pos.mpr ⟨k,hk⟩
  omega

def Evicts (m : Lru K V) (k j : K) : Prop :=
  ¬ m.Fits k ∧ m.entries.getLast?.map Prod.fst = some j

theorem find_of_evicts {m : Lru K V} {j k : K} (h : m.Evicts k j) : m.find j ≠ none := by
  obtain ⟨e,he,rfl⟩ := Option.map_eq_some_iff.mp h.2
  rw [find, Ne, find_eq_none_iff, not_not]
  exact List.mem_map_of_mem (List.mem_of_getLast? he)

theorem find_put_full {m : Lru K V} {j k : K} (hjk : j ≠ k) (h : ¬ m.Fits k) (v : V) :
    (m.put k v).find j = RecencyMap.find j m.entries.dropLast := by
  obtain ⟨hmissing,hroom⟩ := not_or.mp h
  have hwithout : without k m.entries = m.entries := without_eq_self (not_not.mp hmissing)
  have hlength : m.entries.length = m.capacity := Nat.le_antisymm m.bounded (not_lt.mp hroom)
  change RecencyMap.find j (((k,v) :: without k m.entries).take m.capacity) = _
  rw [hwithout, ← hlength, List.dropLast_eq_take]
  cases hentries : m.entries with
  | nil => rfl
  | cons e rest => simp [find_cons, hjk.symm]

theorem find_put_kept {m : Lru K V} {j k : K} (hjk : j ≠ k) (h : ¬ m.Evicts k j) (v : V) :
    (m.put k v).find j = m.find j := by
  by_cases hfits : m.Fits k
  · rw [find_put_fits hfits, if_neg hjk]
  · rw [find_put_full hjk hfits, find_dropLast m.nodup, if_neg fun hlast => h ⟨hfits,hlast⟩, find]

theorem find_put_evicted {m : Lru K V} {j k : K} (hjk : j ≠ k) (h : m.Evicts k j) (v : V) :
    (m.put k v).find j = none := by
  rw [find_put_full hjk h.1, find_dropLast m.nodup, if_pos h.2]

/-! A second operation on the same key finds it where the first one left it. -/

theorem put_put (m : Lru K V) (k : K) (v w : V) : (m.put k v).put k w = m.put k w := by
  refine ext rfl ?_
  change ((k,w) :: without k (((k,v) :: without k m.entries).take m.capacity)).take m.capacity =
    ((k,w) :: without k m.entries).take m.capacity
  cases m.capacity with
  | zero => rfl
  | succ n =>
    have hnone : RecencyMap.find k ((without k m.entries).take n) = none := by
      refine Option.eq_none_iff_forall_ne_some.mpr fun u hu => ?_
      have hfound := find_take hu
      rw [find_without_self] at hfound
      cases hfound
    rw [List.take_succ_cons, List.take_succ_cons, List.take_succ_cons, without_cons, if_pos rfl,
      without_eq_self hnone, List.take_take, Nat.min_self]

theorem touch_missing {m : Lru K V} {k : K} (h : m.find k = none) : m.touch k = m := by
  refine ext (touch_capacity m k) ?_
  rw [touch_entries, h]

theorem touch_touch (m : Lru K V) (k : K) : (m.touch k).touch k = m.touch k := by
  refine ext (touch_capacity _ k) ?_
  rw [touch_entries, find_touch, touch_entries]
  cases m.find k with
  | none => rfl
  | some v => simp only [without_cons, if_true, without_eq_self (find_without_self k m.entries)]

theorem erase_missing {m : Lru K V} {k : K} (h : m.find k = none) : m.erase k = m :=
  ext rfl (without_eq_self h)

/-- The same entries, in the same order of use but for the keys in `S`. -/
structure SameBut (S : Set K) (m n : Lru K V) : Prop where
  capacity : m.capacity = n.capacity
  find : ∀ k, m.find k = n.find k
  order : ∀ P : K → Bool, (∀ k ∈ S, P k = false) →
    m.entries.filter (fun e => P e.1) = n.entries.filter fun e => P e.1

namespace SameBut
variable {S T : Set K} {m n : Lru K V}

theorem refl (S : Set K) (m : Lru K V) : SameBut S m m := ⟨rfl,fun _ => rfl,fun _ _ => rfl⟩

theorem mono (h : SameBut S m n) (hST : S ⊆ T) : SameBut T m n :=
  ⟨h.capacity,h.find,fun P hP => h.order P fun k hk => hP k (hST hk)⟩

theorem eq (h : SameBut S m n) (hS : ∀ k, k ∉ S) : m = n := by
  refine ext h.capacity ?_
  simpa using h.order (fun _ => true) fun k hk => absurd hk (hS k)

theorem length (h : SameBut S m n) : m.entries.length = n.entries.length := by
  have hkeys : (m.entries.map Prod.fst).Perm (n.entries.map Prod.fst) := by
    refine (List.perm_ext_iff_of_nodup m.nodup n.nodup).mpr fun k => ?_
    have hk : RecencyMap.find k m.entries = RecencyMap.find k n.entries := h.find k
    rw [← not_iff_not, ← find_eq_none_iff, ← find_eq_none_iff, hk]
  simpa using hkeys.length_eq

theorem fits (h : SameBut S m n) {k : K} (hf : n.Fits k) : m.Fits k := by
  unfold Fits at hf ⊢
  rwa [h.find, h.length, h.capacity]

end SameBut

section Ordered
variable {S T : Set K} {m n : Lru K V} {k : K} {P : K → Bool}

theorem filter_without (k : K) (P : K → Bool) (l : List (K × V)) :
    (without k l).filter (fun e => P e.1) = without k (l.filter fun e => P e.1) := by
  simp only [without, List.filter_filter, Bool.and_comm]

theorem filter_without_of_not (hP : P k = false) (l : List (K × V)) :
    (without k l).filter (fun e => P e.1) = l.filter fun e => P e.1 := by
  rw [without, List.filter_filter]
  refine List.filter_congr fun e _ => ?_
  by_cases he : e.1 = k
  · simp [he, hP]
  · simp [he]

theorem filter_front (v : V) (h : m.entries.filter (fun e => P e.1) =
      n.entries.filter fun e => P e.1) :
    ((k,v) :: without k m.entries).filter (fun e => P e.1) =
      ((k,v) :: without k n.entries).filter fun e => P e.1 := by
  simp only [List.filter_cons, filter_without, h]

theorem SameBut.touch (h : SameBut S m n) (k : K) : SameBut S (m.touch k) (n.touch k) := by
  refine ⟨by rw [touch_capacity, touch_capacity, h.capacity],fun j => ?_,fun P hP => ?_⟩
  · rw [find_touch, find_touch, h.find]
  · rw [touch_entries, touch_entries, h.find]
    cases n.find k with
    | none => exact h.order P hP
    | some v => exact filter_front v (h.order P hP)

theorem SameBut.touch_right (h : SameBut S m n) (k : K) (hST : S ⊆ T) (hk : k ∈ T) :
    SameBut T m (n.touch k) := by
  refine ⟨by rw [touch_capacity, h.capacity],fun j => by rw [find_touch, h.find],?_⟩
  intro P hP
  rw [touch_entries, h.order P fun j hj => hP j (hST hj)]
  cases n.find k with
  | none => rfl
  | some v => simp [hP k hk, filter_without_of_not (hP k hk)]

theorem SameBut.put (h : SameBut S m n) (hf : n.Fits k) (v : V) :
    SameBut S (m.put k v) (n.put k v) := by
  refine ⟨h.capacity,fun j => ?_,fun P hP => ?_⟩
  · change RecencyMap.find j (m.put k v).entries = RecencyMap.find j (n.put k v).entries
    rw [put_entries (h.fits hf), put_entries hf, find_cons, find_cons, find_without, find_without]
    have hj : RecencyMap.find j m.entries = RecencyMap.find j n.entries := h.find j
    rw [hj]
  · rw [put_entries (h.fits hf), put_entries hf]
    exact filter_front v (h.order P hP)

theorem SameBut.erase (h : SameBut S m n) (k : K) (hST : ∀ j ∈ S, j = k ∨ j ∈ T) :
    SameBut T (m.erase k) (n.erase k) := by
  refine ⟨h.capacity,fun j => by rw [find_erase, find_erase, h.find],fun P hP => ?_⟩
  have hboth := h.order (fun j => P j && decide (j ≠ k)) fun j hj => by
    rcases hST j hj with rfl | hj
    · simp
    · simp [hP j hj]
  simpa only [Lru.erase, without, List.filter_filter] using hboth

theorem erase_touch (m : Lru K V) (k : K) : (m.touch k).erase k = m.erase k := by
  refine ext (touch_capacity m k) ?_
  change without k (m.touch k).entries = without k m.entries
  rw [touch_entries]
  cases m.find k with
  | none => rfl
  | some v => simp [without]

end Ordered

section Recent
variable {m : Lru K V} {j k : K} {v w : V} {T : List K}

def ahead (m : Lru K V) (k : K) : List K := RecencyMap.ahead k m.entries

theorem ahead_put_self (m : Lru K V) (k : K) (v : V) : (m.put k v).ahead k = [] := by
  have h : RecencyMap.ahead k (((k,v) :: without k m.entries).take m.capacity) = [] := by
    cases m.capacity with
    | zero => rfl
    | succ n => rw [List.take_succ_cons, ahead_cons, if_pos rfl]
  exact h

theorem find_put_self (hc : 0 < m.capacity) : (m.put k v).find k = some v := by
  obtain ⟨n,hn⟩ := Nat.exists_eq_succ_of_ne_zero (Nat.ne_of_gt hc)
  simp [find, put, hn, find_cons]

theorem ahead_touch_self (h : m.find k = some v) : (m.touch k).ahead k = [] := by
  simp [ahead, touch_entries, h, ahead_cons]

theorem ahead_touch_subset (hjk : j ≠ k) : (m.touch j).ahead k ⊆ j :: m.ahead k := by
  rw [ahead, touch_entries]
  cases m.find j with
  | none => exact List.subset_cons_self j _
  | some v =>
    rw [ahead_cons, if_neg hjk]
    exact List.cons_subset_cons j (ahead_without_subset hjk m.entries)

theorem ahead_erase_subset (hjk : j ≠ k) : (m.erase j).ahead k ⊆ m.ahead k :=
  ahead_without_subset hjk m.entries

theorem put_keeps (hjk : j ≠ k) (hk : m.find k = some w) (hT : m.ahead k ⊆ T) (hj : j ∈ T)
    (hcard : T.toFinset.card < m.capacity) :
    (m.put j v).find k = some w ∧ (m.put j v).ahead k ⊆ T := by
  have hnodup : (((j,v) :: without j m.entries).map Prod.fst).Nodup :=
    List.nodup_cons.mpr ⟨not_mem_without j m.entries,nodup_without j m.nodup⟩
  have hsubset : RecencyMap.ahead k ((j,v) :: without j m.entries) ⊆ T := by
    rw [ahead_cons, if_neg hjk]
    exact List.cons_subset.mpr ⟨hj,fun i hi => hT (ahead_without_subset hjk m.entries hi)⟩
  refine ⟨find_take_of_ahead ?_ ?_,fun i hi => hsubset (ahead_take_subset k _ _ hi)⟩
  · rw [find_cons, if_neg hjk, find_without, if_neg (Ne.symm hjk)]
    exact hk
  · calc
      (RecencyMap.ahead k ((j,v) :: without j m.entries)).length =
          (RecencyMap.ahead k ((j,v) :: without j m.entries)).toFinset.card :=
        (List.toFinset_card_of_nodup (nodup_ahead k hnodup)).symm
      _ ≤ T.toFinset.card := Finset.card_le_card fun i hi =>
        List.mem_toFinset.mpr (hsubset (List.mem_toFinset.mp hi))
      _ < m.capacity := hcard

end Recent

/-- The smaller map is part of the larger one, in the same order of use, and the
larger one is ahead by no more entries than it has more room. -/
structure Includes (m n : Lru K V) : Prop where
  kept : m.entries.Sublist n.entries
  ahead : n.entries.length + m.capacity ≤ m.entries.length + n.capacity

section Inclusion
variable {m n : Lru K V}

omit [DecidableEq K] in
theorem includes_empty {a b : Nat} (h : a ≤ b) : Includes (empty a : Lru K V) (empty b) :=
  ⟨List.Sublist.refl _,by simpa [empty] using h⟩

theorem Includes.find (h : Includes m n) {k : K} {v : V} (hk : m.find k = some v) :
    n.find k = some v :=
  find_sublist h.kept n.nodup hk

theorem Includes.without (h : Includes m n) (k : K) :
    (without k m.entries).Sublist (without k n.entries) ∧
      (RecencyMap.without k n.entries).length + m.capacity ≤
        (RecencyMap.without k m.entries).length + n.capacity := by
  refine ⟨h.kept.filter _,?_⟩
  have hahead := h.ahead
  have hm := length_without (k := k) m.nodup
  have hn := length_without (k := k) n.nodup
  cases hk : RecencyMap.find k m.entries with
  | none =>
    rw [if_pos hk] at hm
    have hle := length_without_le k n.entries
    omega
  | some v =>
    have hk' : RecencyMap.find k n.entries = some v := h.find hk
    rw [if_neg (by simp [hk])] at hm
    rw [if_neg (by simp [hk'])] at hn
    omega

theorem Includes.erase (h : Includes m n) (k : K) : Includes (m.erase k) (n.erase k) :=
  ⟨(h.without k).1,(h.without k).2⟩

theorem Includes.touch (h : Includes m n) (k : K) : Includes (m.touch k) (n.touch k) := by
  obtain ⟨hsub,hlen⟩ := h.without k
  have hm := length_touch m k
  have hn := length_touch n k
  refine ⟨?_,by rw [hm, hn, touch_capacity, touch_capacity]; exact h.ahead⟩
  rw [touch_entries, touch_entries]
  cases hk : m.find k with
  | some v =>
    rw [h.find hk]
    exact hsub.cons_cons (k,v)
  | none =>
    cases n.find k with
    | none => exact h.kept
    | some v =>
      rw [without_eq_self (show RecencyMap.find k m.entries = none from hk)] at hsub
      exact hsub.cons (k,v)

theorem Includes.put (h : Includes m n) (k : K) (v : V) : Includes (m.put k v) (n.put k v) := by
  obtain ⟨hsub,hlen⟩ := h.without k
  have hcons := hsub.cons_cons (k,v)
  refine ⟨sublist_take_take hcons (by simpa [Nat.add_right_comm] using hlen),?_⟩
  have hle := hcons.length_le
  simp only [Lru.put, List.length_take, List.length_cons] at hle ⊢
  omega

end Inclusion

end Lru

end EaHalfHour.RecencyMap
