import Mathlib.Data.List.Perm.Basic
import EaHalfHour.DeliveredRouting

/-! How the peer lists of the running processes decide where a key is executed:
first one list for all of them, then lists that only agree as sets. -/
namespace EaHalfHour.PeerLists
open KvMessage KvCache RecencyMap ProxyNode DeliveredRouting ForwardGraph Function

theorem idxOf_of_first {l : List Bytes} {i : Nat} {b : Bytes} (h : l[i]? = some b)
    (hfirst : b ∉ l.take i) : l.idxOf b = i := by
  obtain ⟨hi,rfl⟩ := List.getElem?_eq_some_iff.mp h
  calc
    l.idxOf l[i] = (l.take i ++ l[i] :: l.drop (i + 1)).idxOf l[i] := by
      rw [List.cons_getElem_drop_succ, List.take_append_drop]
    _ = i := by
      rw [List.idxOf_append_of_notMem hfirst, List.idxOf_cons_self, List.length_take]
      omega

theorem idxOf_lt_of_mem_take {l : List Bytes} {i : Nat} {b : Bytes} (h : b ∈ l.take i) :
    l.idxOf b < i := by
  have hlt := List.idxOf_lt_length_of_mem h
  calc
    l.idxOf b = (l.take i ++ l.drop i).idxOf b := by rw [List.take_append_drop]
    _ = (l.take i).idxOf b := List.idxOf_append_of_mem h
    _ < i := by rw [List.length_take] at hlt; omega

section SharedList
variable (σ : Type) [LRUCache σ] (c : Cluster) (hash : Bytes → UInt64) (key : Bytes)

/-- Single-owner, one-hop routing of one key. -/
structure SingleOwner : Prop where
  executedOnce : ∀ a, (c.proxy a).isSome → ∃ path d, c.Chain hash key a path d ∧
    path.length ≤ 1 ∧ ∀ (method : Method) (request : KvRequest) (caches : Bytes → σ),
      request.key = key → c.call hash method 2 a request {} caches =
        some ((.okStatus,(Cache.run method request {} (caches d)).1),
          update caches d (Cache.run method request {} (caches d)).2)
  receiver : ∀ a b, c.next hash key a = some (.forwards b) → ∃ q, c.proxy b = some q ∧
    some (q.getPeerIndex hash key) = q.peerIndex
  notSelf : ∀ a, c.next hash key a ≠ some (.forwards a)

def FirstAt (address : Bytes) : Prop :=
  ∀ b, (strSplit address)[slot hash address key]? = some b →
    b ∉ (strSplit address).take (slot hash address key)

instance (address : Bytes) : Decidable (FirstAt hash key address) :=
  inferInstanceAs (Decidable (∀ b ∈ (strSplit address)[slot hash address key]?,
    b ∉ (strSplit address).take (slot hash address key)))

variable {σ c} {address : Bytes}

theorem next_shared (hshared : ∀ a flag, c.peersFlag a = some flag → flag = address)
    {a : Bytes} (ha : (c.proxy a).isSome) :
    ∃ b, (strSplit address)[slot hash address key]? = some b ∧ a ∈ strSplit address ∧
      c.next hash key a =
        some (if (strSplit address).idxOf a = slot hash address key then .executes
          else .forwards b) := by
  obtain ⟨p,hp⟩ := Option.isSome_iff_exists.mp ha
  obtain ⟨flag,hflag,rfl⟩ := Cluster.flag_of_proxy hp
  obtain rfl := hshared a flag hflag
  have hmem := Cluster.mem_of_flag hflag
  refine ⟨(tableOf flag a).target hash key,tableOf_target hash flag key hmem,hmem,?_⟩
  simp only [Cluster.next, hp, Option.map_some, tableOf_owns]

variable {hash key}

/-- When all nodes share one list and every address in it has a node, a key is
routed to a single owner in at most one hop exactly when the address at its
position is not a repetition. -/
theorem singleOwner_iff_firstAt
    (hshared : ∀ a flag, c.peersFlag a = some flag → flag = address)
    (hall : ∀ a ∈ strSplit address, (c.proxy a).isSome) :
    SingleOwner σ c hash key ↔ FirstAt hash key address := by
  constructor
  · intro h b hb hmem
    obtain ⟨b',hb',-,hnext⟩ := next_shared hash key hshared
      (hall b (List.mem_of_getElem? hb))
    obtain rfl : b = b' := Option.some.inj (hb.symm.trans hb')
    have hlt := idxOf_lt_of_mem_take hmem
    rw [if_neg (Nat.ne_of_lt hlt)] at hnext
    exact h.notSelf b hnext
  · intro hfirst
    have howner : ∀ b, (strSplit address)[slot hash address key]? = some b →
        c.next hash key b = some .executes := by
      intro b hb
      obtain ⟨b',-,-,hnext⟩ := next_shared hash key hshared
        (hall b (List.mem_of_getElem? hb))
      rw [hnext, if_pos (idxOf_of_first hb (hfirst b hb))]
    refine ⟨?_,?_,?_⟩
    · intro a ha
      obtain ⟨b,hb,hmem,hnext⟩ := next_shared hash key hshared ha
      have hchain : ∃ path d, c.Chain hash key a path d ∧ path.length ≤ 1 := by
        by_cases hown : (strSplit address).idxOf a = slot hash address key
        · rw [if_pos hown] at hnext
          exact ⟨[],a,.here hnext,Nat.zero_le 1⟩
        · rw [if_neg hown] at hnext
          exact ⟨[b],b,.hop hnext (.here (howner b hb)),Nat.le_refl 1⟩
      obtain ⟨path,d,hchain,hlen⟩ := hchain
      exact ⟨path,d,hchain,hlen,fun method request caches hkey =>
        Cluster.call_of_chain hchain method request hkey caches (Nat.lt_succ_of_le hlen)⟩
    · intro a b hnext
      obtain ⟨p,hp,-⟩ := Cluster.next_forwards hnext
      obtain ⟨b',hb',-,hnext'⟩ := next_shared hash key hshared
        (by rw [hp]; rfl : (c.proxy a).isSome)
      rw [hnext] at hnext'
      by_cases hown : (strSplit address).idxOf a = slot hash address key
      · rw [if_pos hown] at hnext'
        cases hnext'
      · rw [if_neg hown] at hnext'
        obtain rfl := Cluster.Hop.forwards.inj (Option.some.inj hnext')
        exact Cluster.next_executes (howner b hb')
    · intro a hnext
      obtain ⟨p,hp,hown,-⟩ := Cluster.next_forwards hnext
      obtain ⟨b,hb,-,hnext'⟩ := next_shared hash key hshared
        (by rw [hp]; rfl : (c.proxy a).isSome)
      have hba := howner b hb
      rw [hnext] at hnext'
      by_cases hidx : (strSplit address).idxOf a = slot hash address key
      · rw [if_pos hidx] at hnext'
        cases hnext'
      · rw [if_neg hidx] at hnext'
        obtain rfl := Cluster.Hop.forwards.inj (Option.some.inj hnext')
        rw [hnext] at hba
        cases hba

theorem singleOwner_twoPeers :
    SingleOwner (Lru Bytes Bytes) (.everyPeer (text "a,b")) (fun _ => 1) (text "k") :=
  (singleOwner_iff_firstAt (Cluster.everyPeer_shared (text "a,b"))
    (Cluster.everyPeer_running (text "a,b"))).mpr (by decide)

/-- In "a,b,a" a key at the third position belongs to nobody: node "b" forwards it
to "a", and "a" forwards it to itself. -/
theorem not_singleOwner_repeatedPeer :
    (∀ a flag, (Cluster.everyPeer (text "a,b,a")).peersFlag a = some flag →
      flag = text "a,b,a") ∧
    (∀ a ∈ strSplit (text "a,b,a"), ((Cluster.everyPeer (text "a,b,a")).proxy a).isSome) ∧
    ¬ SingleOwner (Lru Bytes Bytes) (.everyPeer (text "a,b,a")) (fun _ => 2) (text "k") :=
  ⟨Cluster.everyPeer_shared _,Cluster.everyPeer_running _,
    fun h => h.notSelf (text "a") (by decide)⟩

end SharedList

section MixedLists
variable (c : Cluster) (hash : Bytes → UInt64) (key : Bytes)

def ask (a : Bytes) : Bytes :=
  match c.proxy a with
  | none => a
  | some p => p.target hash key

structure SameAddresses (l : List Bytes) : Prop where
  nodup : l.Nodup
  lists : ∀ a flag, c.peersFlag a = some flag → (strSplit flag).Perm l
  running : ∀ a ∈ l, (c.proxy a).isSome

variable {c} {l : List Bytes}

theorem SameAddresses.next_eq (h : SameAddresses c l) {a : Bytes} (ha : a ∈ l) :
    c.next hash key a =
      some (if ask c hash key a = a then .executes else .forwards (ask c hash key a)) ∧
    ask c hash key a ∈ l := by
  obtain ⟨p,hp⟩ := Option.isSome_iff_exists.mp (h.running a ha)
  obtain ⟨flag,hflag,rfl⟩ := Cluster.flag_of_proxy hp
  have hmem := Cluster.mem_of_flag hflag
  have hnodup := (h.lists a flag hflag).nodup_iff.mpr h.nodup
  have hask : ask c hash key a = (tableOf flag a).target hash key := by simp [ask, hp]
  have hat := tableOf_target hash flag key hmem
  rw [← hask] at hat
  have howns : (tableOf flag a).Owns hash key ↔ ask c hash key a = a := by
    rw [tableOf_owns]
    constructor
    · intro hidx
      rw [← hidx, List.getElem?_idxOf hmem] at hat
      exact (Option.some.inj hat).symm
    · intro hself
      rw [hself] at hat
      obtain ⟨hlt,he⟩ := List.getElem?_eq_some_iff.mp hat
      rw [← hnodup.idxOf_getElem _ hlt, he]
  refine ⟨?_,(h.lists a flag hflag).mem_iff.mp (List.mem_of_getElem? hat)⟩
  simp only [Cluster.next, hp, Option.map_some, howns, ← hask]

variable {hash key}

theorem SameAddresses.chain_iterate (h : SameAddresses c l) {a d : Bytes}
    {path : List Bytes} (ha : a ∈ l) (hc : c.Chain hash key a path d) :
    (ask c hash key)^[path.length] a = d ∧ IsFixedPt (ask c hash key) d ∧
      ∀ m < path.length, ¬ IsFixedPt (ask c hash key) ((ask c hash key)^[m] a) := by
  induction hc with
  | @here a hnext =>
    have hn := (h.next_eq hash key ha).1
    rw [hnext] at hn
    by_cases hself : ask c hash key a = a
    · exact ⟨rfl,hself,fun m hm => absurd hm (Nat.not_lt_zero m)⟩
    · rw [if_neg hself] at hn
      cases hn
  | @hop a b path d hnext _ ih =>
    obtain ⟨hn,hmem⟩ := h.next_eq hash key ha
    rw [hnext] at hn
    by_cases hself : ask c hash key a = a
    · rw [if_pos hself] at hn
      cases hn
    · rw [if_neg hself] at hn
      obtain rfl := Cluster.Hop.forwards.inj (Option.some.inj hn)
      obtain ⟨hd,hfix,hfirst⟩ := ih hmem
      refine ⟨hd,hfix,fun m hm => ?_⟩
      cases m with
      | zero => exact hself
      | succ m => exact hfirst m (Nat.lt_of_succ_lt_succ hm)

theorem SameAddresses.chain_of_fixed (h : SameAddresses c l) {a : Bytes} (ha : a ∈ l)
    {n : Nat} (hn : IsFixedPt (ask c hash key) ((ask c hash key)^[n] a)) :
    ∃ path, c.Chain hash key a path ((ask c hash key)^[n] a) ∧ path.length ≤ n := by
  induction n generalizing a with
  | zero =>
    have hself : ask c hash key a = a := hn
    have hnext := (h.next_eq hash key ha).1
    rw [if_pos hself] at hnext
    exact ⟨[],.here hnext,Nat.le_refl 0⟩
  | succ n ih =>
    obtain ⟨hnext,hmem⟩ := h.next_eq hash key ha
    by_cases hself : ask c hash key a = a
    · rw [if_pos hself] at hnext
      have hstay : (ask c hash key)^[n + 1] a = a := iterate_fixed hself (n + 1)
      rw [hstay]
      exact ⟨[],.here hnext,Nat.zero_le _⟩
    · rw [if_neg hself] at hnext
      obtain ⟨path,hchain,hlen⟩ := ih hmem hn
      exact ⟨_ :: path,.hop hnext hchain,Nat.succ_le_succ hlen⟩

theorem SameAddresses.chain_short (h : SameAddresses c l) {a d : Bytes} {path : List Bytes}
    (ha : a ∈ l) (hc : c.Chain hash key a path d) : path.length < l.length := by
  obtain ⟨hd,hfix,hfirst⟩ := h.chain_iterate ha hc
  obtain ⟨m,hm,hmfix⟩ := fixed_within_card (S := l.toFinset)
    (fun b hb => by
      rw [List.mem_toFinset] at hb ⊢
      exact (h.next_eq hash key hb).2)
    (List.mem_toFinset.mpr ha) ⟨path.length,by rw [hd]; exact hfix⟩
  rw [List.toFinset_card_of_nodup h.nodup] at hm
  exact Nat.lt_of_le_of_lt (Nat.le_of_not_lt fun hlt => hfirst m hlt hmfix) hm

/-- Every entry node's chain ends, and at one node, exactly when asking as often
as there are addresses leads from every node to the same address. A chain that
ends takes fewer hops than there are addresses; and when the nodes agree on the
address at the key's position, each takes at most one. -/
theorem common_executor_iff (h : SameAddresses c l) :
    ((∃ d, ∀ a ∈ l, ∃ path, c.Chain hash key a path d) ↔
      ∃ d, ∀ a ∈ l, (ask c hash key)^[l.length] a = d) ∧
    (∀ a ∈ l, ∀ path d, c.Chain hash key a path d → path.length < l.length) ∧
    ((∀ a ∈ l, ∀ b ∈ l, ask c hash key a = ask c hash key b) →
      ∀ a ∈ l, ∃ path, c.Chain hash key a path (ask c hash key a) ∧ path.length ≤ 1) := by
  have hmaps : ∀ a ∈ l.toFinset, ask c hash key a ∈ l.toFinset := fun a ha =>
    List.mem_toFinset.mpr (h.next_eq hash key (List.mem_toFinset.mp ha)).2
  have hstop := common_stop_iff hmaps
  simp only [List.mem_toFinset, List.toFinset_card_of_nodup h.nodup] at hstop
  refine ⟨?_,fun a ha path d hc => h.chain_short ha hc,fun hagree a ha => ?_⟩
  · rw [← hstop]
    constructor
    · rintro ⟨d,hd⟩
      refine ⟨d,fun a ha => ?_⟩
      obtain ⟨path,hc⟩ := hd a ha
      obtain ⟨he,hfix,-⟩ := h.chain_iterate ha hc
      exact ⟨path.length,by rw [he]; exact hfix,he⟩
    · rintro ⟨d,hd⟩
      refine ⟨d,fun a ha => ?_⟩
      obtain ⟨n,hfix,rfl⟩ := hd a ha
      obtain ⟨path,hc,-⟩ := h.chain_of_fixed ha hfix
      exact ⟨path,hc⟩
  · have hfix : IsFixedPt (ask c hash key) (ask c hash key a) :=
      hagree _ (h.next_eq hash key ha).2 a ha
    exact h.chain_of_fixed (n := 1) ha hfix

def crossedLists : Cluster :=
  .launch fun a => if a = text "a" then some (text "a,b") else
    if a = text "b" then some (text "b,a") else none

theorem crossedLists_sameAddresses : SameAddresses crossedLists [text "a",text "b"] := by
  refine ⟨by decide,?_,by decide⟩
  intro a flag h
  have hflag : (if a = text "a" then some (text "a,b") else
      if a = text "b" then some (text "b,a") else none) = some flag :=
    (Option.filter_eq_some_iff.mp h).1
  by_cases ha : a = text "a"
  · rw [if_pos ha] at hflag
    obtain rfl := Option.some.inj hflag
    decide
  · rw [if_neg ha] at hflag
    by_cases hb : a = text "b"
    · rw [if_pos hb] at hflag
      obtain rfl := Option.some.inj hflag
      decide
    · rw [if_neg hb] at hflag
      cases hflag

theorem no_executor_crossedLists :
    SameAddresses crossedLists [text "a",text "b"] ∧
    ¬ ∃ d, ∀ a ∈ [text "a",text "b"],
      ∃ path, crossedLists.Chain (fun _ => 1) (text "k") a path d := by
  refine ⟨crossedLists_sameAddresses,?_⟩
  rintro ⟨d,hd⟩
  have hturn : ∀ a path d, crossedLists.Chain (fun _ => 1) (text "k") a path d →
      a ≠ text "a" ∧ a ≠ text "b" := by
    intro a path d hc
    induction hc with
    | here hnext =>
      exact ⟨by rintro rfl; revert hnext; decide,by rintro rfl; revert hnext; decide⟩
    | hop hnext _ ih =>
      constructor
      · rintro rfl
        have hb : crossedLists.next (fun _ => 1) (text "k") (text "a") =
          some (.forwards (text "b")) := by decide
        rw [hb] at hnext
        exact ih.2 (Cluster.Hop.forwards.inj (Option.some.inj hnext)).symm
      · rintro rfl
        have ha : crossedLists.next (fun _ => 1) (text "k") (text "b") =
          some (.forwards (text "a")) := by decide
        rw [ha] at hnext
        exact ih.1 (Cluster.Hop.forwards.inj (Option.some.inj hnext)).symm
  obtain ⟨path,hc⟩ := hd (text "a") (by simp)
  exact (hturn _ _ _ hc).1 rfl

def turnedLists : Cluster :=
  .launch fun a => if a = text "a" then some (text "a,b,c") else
    if a = text "b" then some (text "b,c,a") else
    if a = text "c" then some (text "a,c,b") else none

theorem turnedLists_sameAddresses :
    SameAddresses turnedLists [text "a",text "b",text "c"] := by
  refine ⟨by decide,?_,by decide⟩
  intro a flag h
  have hflag := (Option.filter_eq_some_iff.mp h).1
  dsimp only at hflag
  have hlists : flag = text "a,b,c" ∨ flag = text "b,c,a" ∨ flag = text "a,c,b" := by
    split_ifs at hflag
    · exact .inl (Option.some.inj hflag).symm
    · exact .inr (.inl (Option.some.inj hflag).symm)
    · exact .inr (.inr (Option.some.inj hflag).symm)
  rcases hlists with rfl | rfl | rfl <;> decide

theorem common_executor_turnedLists :
    turnedLists.Chain (fun _ => 1) (text "k") (text "a") [text "b",text "c"] (text "c") ∧
    (∃ d, ∀ a ∈ [text "a",text "b",text "c"],
      ∃ path, turnedLists.Chain (fun _ => 1) (text "k") a path d) ∧
    ∀ a ∈ [text "a",text "b",text "c"], ∀ path d,
      turnedLists.Chain (fun _ => 1) (text "k") a path d → path.length < 3 := by
  exact ⟨.hop (by decide) (.hop (by decide) (.here (by decide))),
    (common_executor_iff turnedLists_sameAddresses).1.mpr ⟨text "c",by decide⟩,
    (common_executor_iff turnedLists_sameAddresses).2.1⟩

end MixedLists

end EaHalfHour.PeerLists
