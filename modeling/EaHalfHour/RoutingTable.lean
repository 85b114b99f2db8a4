import EaHalfHour.ProxyNode

/-! The routing table KvProxy::initialize leaves, for any address and local peer. -/
namespace EaHalfHour.RoutingTable
open KvMessage KvCache SendLoop ProxyNode

section Pieces
variable {α : Type*}

/-- A stretch of a list without the separator that cannot be extended: it begins at
the start or behind a separator and ends at the end or before one. -/
def IsStretch (sep : α) (l p : List α) : Prop :=
  sep ∉ p ∧ ∃ before after, l = before ++ p ++ after ∧
    (before = [] ∨ ∃ u, before = u ++ [sep]) ∧ (after = [] ∨ ∃ v, after = sep :: v)

theorem IsStretch.behind {sep : α} {l p : List α} (h : IsStretch sep l p) (x : List α) :
    IsStretch sep (x ++ sep :: l) p := by
  obtain ⟨hp,before,after,rfl,hbefore,hafter⟩ := h
  refine ⟨hp,x ++ sep :: before,after,by simp,Or.inr ?_,hafter⟩
  rcases hbefore with rfl | ⟨u,rfl⟩
  · exact ⟨x,rfl⟩
  · exact ⟨x ++ sep :: u,by simp⟩

variable [DecidableEq α]

theorem mem_splitOn_of_isStretch {sep : α} {l p : List α} (h : IsStretch sep l p) :
    p ∈ l.splitOn sep := by
  obtain ⟨hp,before,after,rfl,hbefore,hafter⟩ := h
  have hhead : p ∈ (p ++ after).splitOn sep := by
    rcases hafter with rfl | ⟨v,rfl⟩
    · rw [List.append_nil, List.splitOn_eq_singleton hp]
      exact List.mem_singleton_self p
    · rw [List.splitOn_append_cons_self_of_not_mem hp]
      exact List.mem_cons_self ..
  rcases hbefore with rfl | ⟨u,rfl⟩
  · simpa using hhead
  · have hsplit := List.splitOn_append_cons_self (a := sep) u (p ++ after)
    rw [List.append_assoc, List.append_assoc, List.singleton_append, hsplit]
    exact List.mem_append_right _ hhead

theorem isStretch_of_mem_splitOn {sep : α} {l p : List α} (h : p ∈ l.splitOn sep) :
    IsStretch sep l p := by
  by_cases hsep : sep ∈ l
  · -- cut at the first separator: the piece is the part before it or lies behind it
    obtain ⟨x,y,rfl,hx⟩ := List.eq_append_cons_of_mem hsep
    rw [List.splitOn_append_cons_self_of_not_mem hx, List.mem_cons] at h
    rcases h with rfl | h
    · exact ⟨hx,[],sep :: y,by simp,Or.inl rfl,Or.inr ⟨y,rfl⟩⟩
    · exact (isStretch_of_mem_splitOn h).behind x
  · rw [List.splitOn_eq_singleton hsep, List.mem_singleton] at h
    subst h
    exact ⟨hsep,[],[],by simp,Or.inl rfl,Or.inl rfl⟩
termination_by l.length
decreasing_by subst_vars; simp only [List.length_append, List.length_cons]; omega

theorem mem_splitOn_iff {sep : α} {l p : List α} : p ∈ l.splitOn sep ↔ IsStretch sep l p :=
  ⟨isStretch_of_mem_splitOn,mem_splitOn_of_isStretch⟩

inductive Splits (sep : α) : List α → List (List α) → Prop
  | nil : Splits sep [] []
  | sep {l ps} : Splits sep l ps → Splits sep (sep :: l) ps
  | last {p} : p ≠ [] → sep ∉ p → Splits sep p [p]
  | piece {p l ps} : p ≠ [] → sep ∉ p → Splits sep l ps →
    Splits sep (p ++ sep :: l) (p :: ps)

theorem splitOn_filter_of_splits {sep : α} {l : List α} {ps : List (List α)}
    (h : Splits sep l ps) : (l.splitOn sep).filter (fun p => !p.isEmpty) = ps := by
  induction h with
  | nil => rfl
  | @sep l _ _ ih =>
    have hcut : (sep :: l).splitOn sep = [] :: l.splitOn sep :=
      List.splitOn_append_cons_self_of_not_mem List.not_mem_nil l
    rw [hcut, List.filter_cons_of_neg (by simp), ih]
  | last hp hsep =>
    rw [List.splitOn_eq_singleton hsep, List.filter_cons_of_pos (by simpa using hp),
      List.filter_nil]
  | piece hp hsep _ ih =>
    rw [List.splitOn_append_cons_self_of_not_mem hsep,
      List.filter_cons_of_pos (by simpa using hp), ih]

theorem splits_splitOn (sep : α) (l : List α) :
    Splits sep l ((l.splitOn sep).filter fun p => !p.isEmpty) := by
  by_cases hsep : sep ∈ l
  · obtain ⟨x,y,rfl,hx⟩ := List.eq_append_cons_of_mem hsep
    rw [List.splitOn_append_cons_self_of_not_mem hx]
    have hy := splits_splitOn sep y
    by_cases hnil : x = []
    · subst hnil
      simpa using hy.sep
    · rw [List.filter_cons_of_pos (by simpa using hnil)]
      exact .piece hnil hx hy
  · rw [List.splitOn_eq_singleton hsep]
    by_cases hnil : l = []
    · subst hnil
      exact .nil
    · rw [List.filter_cons_of_pos (by simpa using hnil), List.filter_nil]
      exact .last hnil hsep
termination_by l.length
decreasing_by subst_vars; simp only [List.length_append, List.length_cons]; omega

end Pieces

/-- What str_split promises of a comma and SkipEmpty. -/
theorem splits_iff (address : Bytes) (pieces : List Bytes) :
    Splits 44 address pieces ↔ pieces = strSplit address :=
  ⟨fun h => (splitOn_filter_of_splits h).symm,fun h => h ▸ splits_splitOn 44 address⟩

def IsPiece (address p : Bytes) : Prop := p ≠ [] ∧ IsStretch 44 address p

theorem mem_strSplit_iff (address p : Bytes) : p ∈ strSplit address ↔ IsPiece address p := by
  rw [strSplit, List.mem_filter, mem_splitOn_iff, IsPiece, and_comm]
  simp

structure WellFormed (self : KvProxy) (address localPeer : Bytes) : Prop where
  peers_eq : self.peers = strSplit address
  least : ∃ i, self.peerIndex = some i ∧ self.peers[i]? = some localPeer ∧
    ∀ j < i, self.peers[j]? ≠ some localPeer
  senders_length : self.senders.length = self.peers.length
  senders_target : ∀ i : Nat, self.senders[i]?.map RouterSender.server = self.peers[i]?
  modulus : self.peers.length ≠ 0
  peer_lt : ∀ (hash : Bytes → UInt64) key, self.getPeerIndex hash key < self.peers.length
  sender_lt : ∀ (hash : Bytes → UInt64) key, self.getPeerIndex hash key < self.senders.length

theorem tableOf_least {address localPeer : Bytes} (h : localPeer ∈ strSplit address) :
    ∃ i, (tableOf address localPeer).peerIndex = some i ∧
      (strSplit address)[i]? = some localPeer ∧
      ∀ j < i, (strSplit address)[j]? ≠ some localPeer := by
  have hlt : (strSplit address).idxOf localPeer < (strSplit address).length :=
    List.idxOf_lt_length_of_mem h
  refine ⟨(strSplit address).idxOf localPeer,rfl,?_,fun j hj he => ?_⟩
  · rw [List.getElem?_eq_getElem hlt, List.getElem_idxOf]
  · obtain ⟨hj',he⟩ := List.getElem?_eq_some_iff.mp he
    have hne := List.not_of_lt_findIdx hj
    simp [he] at hne

theorem tableOf_wellFormed {address localPeer : Bytes} (h : localPeer ∈ strSplit address) :
    WellFormed (tableOf address localPeer) address localPeer where
  peers_eq := rfl
  least := tableOf_least h
  senders_length := List.length_map _
  senders_target i := by simp [tableOf, Function.comp_def]
  modulus := List.length_pos_of_mem h |>.ne'
  peer_lt hash key := slot_lt hash address key h
  sender_lt hash key := by
    rw [show (tableOf address localPeer).senders.length = (strSplit address).length from
      List.length_map _]
    exact slot_lt hash address key h

/-- The operations take the table as it is and return none, so what holds when
initialize returns holds in every later call. -/
theorem initialize_wellFormed (address localPeer : Bytes) :
    (( KvProxy.initialize {} address localPeer).1.ok = true ↔ IsPiece address localPeer) ∧
    (( KvProxy.initialize {} address localPeer).1.ok = true →
      WellFormed ( KvProxy.initialize {} address localPeer).2 address localPeer) := by
  refine ⟨(initialize_ok_iff {} address localPeer).trans (mem_strSplit_iff address localPeer),?_⟩
  intro hok
  have hmem := (initialize_ok_iff {} address localPeer).mp hok
  rw [initialize_of_mem {} hmem]
  exact tableOf_wellFormed hmem

end EaHalfHour.RoutingTable
