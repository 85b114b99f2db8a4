import Mathlib.Data.Nat.ModEq
import Mathlib.Data.Nat.Periodic
import EaHalfHour.PeerLists

/-! A cluster whose --peers list is being changed: every running node has been given the
old list or already the new one. Which nodes were restarted first decides what becomes
of a key whose owner changes. -/
namespace EaHalfHour.RollingUpgrade
open KvMessage KvCache RecencyMap ProxyNode DeliveredRouting
variable (c : Cluster) (hash : Bytes → UInt64) (key : Bytes) (old new : Bytes)

def ownerIn (address : Bytes) : Option Bytes := (strSplit address)[slot hash address key]?

/-- A change of the list under way: all nodes of both lists run. -/
structure Rolling : Prop where
  nodupOld : (strSplit old).Nodup
  nodupNew : (strSplit new).Nodup
  lists : ∀ a flag, c.peersFlag a = some flag → flag = old ∨ flag = new
  running : ∀ a, a ∈ strSplit old ∨ a ∈ strSplit new → (c.proxy a).isSome

variable {c hash key old new}

theorem next_of_flag {a b flag : Bytes} (hflag : c.peersFlag a = some flag)
    (hnodup : (strSplit flag).Nodup) (hb : ownerIn hash key flag = some b) :
    c.next hash key a = some (if a = b then .executes else .forwards b) := by
  have hmem := Cluster.mem_of_flag hflag
  have hat := tableOf_target hash flag key hmem
  rw [show (strSplit flag)[slot hash flag key]? = some b from hb] at hat
  have howns : (tableOf flag a).Owns hash key ↔ a = b := by
    rw [tableOf_owns]
    obtain ⟨hlt,rfl⟩ := List.getElem?_eq_some_iff.mp hb
    constructor
    · intro hidx
      simp only [← hidx, List.getElem_idxOf]
    · rintro rfl
      exact hnodup.idxOf_getElem _ hlt
  simp only [Cluster.next, Cluster.proxy_of_flag hflag, Option.map_some, howns,
    Option.some.inj hat]

section Fate
variable {O N : Bytes}

theorem Rolling.flag_of_running (h : Rolling c old new) {a : Bytes} (ha : (c.proxy a).isSome) :
    c.peersFlag a = some old ∨ c.peersFlag a = some new := by
  obtain ⟨p,hp⟩ := Option.isSome_iff_exists.mp ha
  obtain ⟨flag,hflag,-⟩ := Cluster.flag_of_proxy hp
  rcases h.lists a flag hflag with rfl | rfl
  · exact Or.inl hflag
  · exact Or.inr hflag

theorem Rolling.next_old (h : Rolling c old new) (hO : ownerIn hash key old = some O)
    {a : Bytes} (ha : c.peersFlag a = some old) :
    c.next hash key a = some (if a = O then .executes else .forwards O) :=
  next_of_flag ha h.nodupOld hO

theorem Rolling.next_new (h : Rolling c old new) (hN : ownerIn hash key new = some N)
    {a : Bytes} (ha : c.peersFlag a = some new) :
    c.next hash key a = some (if a = N then .executes else .forwards N) :=
  next_of_flag ha h.nodupNew hN

theorem chain_through {a b d : Bytes} {path : List Bytes}
    (hnext : c.next hash key a = some (if a = b then .executes else .forwards b))
    (hb : c.Chain hash key b path d) :
    ∃ path', c.Chain hash key a path' d ∧ path'.length ≤ path.length + 1 := by
  by_cases hab : a = b
  · subst hab
    exact ⟨path,hb,Nat.le_succ _⟩
  · rw [if_neg hab] at hnext
    exact ⟨b :: path,.hop hnext hb,le_refl _⟩

theorem Rolling.chain_old (h : Rolling c old new) (hO : ownerIn hash key old = some O)
    (hflag : c.peersFlag O = some old) : c.Chain hash key O [] O :=
  .here (by rw [h.next_old hO hflag, if_pos rfl])

theorem Rolling.chain_new (h : Rolling c old new) (hN : ownerIn hash key new = some N)
    (hflag : c.peersFlag N = some new) : c.Chain hash key N [] N :=
  .here (by rw [h.next_new hN hflag, if_pos rfl])

theorem Rolling.not_chain (h : Rolling c old new) (hO : ownerIn hash key old = some O)
    (hN : ownerIn hash key new = some N) (hne : O ≠ N) (hflagO : c.peersFlag O = some new)
    (hflagN : c.peersFlag N = some old) {a d : Bytes} {path : List Bytes} :
    ¬ c.Chain hash key a path d := by
  have hnextO : c.next hash key O = some (.forwards N) := by
    rw [h.next_new hN hflagO, if_neg hne]
  have hnextN : c.next hash key N = some (.forwards O) := by
    rw [h.next_old hO hflagN, if_neg hne.symm]
  have hpair : ∀ {b path}, b = O ∨ b = N → ¬ c.Chain hash key b path d :=
    Cluster.not_chain_of_closed (S := fun b => b = O ∨ b = N) (by
      rintro b (rfl | rfl)
      · exact ⟨N,Or.inr rfl,hnextO⟩
      · exact ⟨O,Or.inl rfl,hnextN⟩)
  intro hchain
  by_cases ha : a = O ∨ a = N
  · exact hpair ha hchain
  · obtain ⟨haO,haN⟩ := not_or.mp ha
    have hnext : c.next hash key a = some (.forwards O) ∨
        c.next hash key a = some (.forwards N) := by
      rcases h.flag_of_running hchain.running with hflag | hflag
      · exact Or.inl (by rw [h.next_old hO hflag, if_neg haO])
      · exact Or.inr (by rw [h.next_new hN hflag, if_neg haN])
    cases hchain with
    | here hnext' => rcases hnext with hn | hn <;> rw [hnext'] at hn <;> cases hn
    | hop hnext' hrest =>
      rcases hnext with hn | hn
      · rw [hnext'] at hn
        obtain rfl := Cluster.Hop.forwards.inj (Option.some.inj hn)
        exact hpair (Or.inl rfl) hrest
      · rw [hnext'] at hn
        obtain rfl := Cluster.Hop.forwards.inj (Option.some.inj hn)
        exact hpair (Or.inr rfl) hrest

theorem Rolling.to_old (h : Rolling c old new) (hO : ownerIn hash key old = some O) {a d : Bytes}
    {path : List Bytes} (ha : c.peersFlag a = some old) (hend : c.Chain hash key O path d) :
    ∃ path', c.Chain hash key a path' d ∧ path'.length ≤ path.length + 1 :=
  chain_through (h.next_old hO ha) hend

theorem Rolling.to_new (h : Rolling c old new) (hN : ownerIn hash key new = some N) {a d : Bytes}
    {path : List Bytes} (ha : c.peersFlag a = some new) (hend : c.Chain hash key N path d) :
    ∃ path', c.Chain hash key a path' d ∧ path'.length ≤ path.length + 1 :=
  chain_through (h.next_new hN ha) hend

theorem Rolling.to_oldOwner (h : Rolling c old new) (hO : ownerIn hash key old = some O)
    (hflag : c.peersFlag O = some old) {a : Bytes} (ha : c.peersFlag a = some old) :
    ∃ path, c.Chain hash key a path O ∧ path.length ≤ 1 :=
  h.to_old hO ha (h.chain_old hO hflag)

theorem Rolling.to_newOwner (h : Rolling c old new) (hN : ownerIn hash key new = some N)
    (hflag : c.peersFlag N = some new) {a : Bytes} (ha : c.peersFlag a = some new) :
    ∃ path, c.Chain hash key a path N ∧ path.length ≤ 1 :=
  h.to_new hN ha (h.chain_new hN hflag)

theorem Rolling.all_to_old (h : Rolling c old new) (hO : ownerIn hash key old = some O)
    (hN : ownerIn hash key new = some N) (hflagO : c.peersFlag O = some old)
    (hflagN : c.peersFlag N = some old) {a : Bytes} (ha : (c.proxy a).isSome) :
    ∃ path, c.Chain hash key a path O ∧ path.length ≤ 2 := by
  rcases h.flag_of_running ha with ha | ha
  · obtain ⟨path,hchain,hlen⟩ := h.to_oldOwner hO hflagO ha
    exact ⟨path,hchain,by omega⟩
  · obtain ⟨path,hchain,hlen⟩ := h.to_oldOwner hO hflagO hflagN
    obtain ⟨path',hchain',hlen'⟩ := h.to_new hN ha hchain
    exact ⟨path',hchain',by omega⟩

theorem Rolling.all_to_new (h : Rolling c old new) (hO : ownerIn hash key old = some O)
    (hN : ownerIn hash key new = some N) (hflagO : c.peersFlag O = some new)
    (hflagN : c.peersFlag N = some new) {a : Bytes} (ha : (c.proxy a).isSome) :
    ∃ path, c.Chain hash key a path N ∧ path.length ≤ 2 := by
  rcases h.flag_of_running ha with ha | ha
  · obtain ⟨path,hchain,hlen⟩ := h.to_newOwner hN hflagN hflagO
    obtain ⟨path',hchain',hlen'⟩ := h.to_old hO ha hchain
    exact ⟨path',hchain',by omega⟩
  · obtain ⟨path,hchain,hlen⟩ := h.to_newOwner hN hflagN ha
    exact ⟨path,hchain,by omega⟩

theorem Rolling.chain_ends (h : Rolling c old new) (hO : ownerIn hash key old = some O)
    (hN : ownerIn hash key new = some N)
    (hends : c.peersFlag O = some old ∨ c.peersFlag N = some new) {a : Bytes}
    (ha : (c.proxy a).isSome) :
    ∃ path d, c.Chain hash key a path d ∧ (d = O ∨ d = N) ∧ path.length ≤ 2 := by
  have hrunO := h.flag_of_running (h.running O (Or.inl (List.mem_of_getElem? hO)))
  have hrunN := h.flag_of_running (h.running N (Or.inr (List.mem_of_getElem? hN)))
  by_cases hflagO : c.peersFlag O = some old
  · by_cases hflagN : c.peersFlag N = some new
    · rcases h.flag_of_running ha with ha | ha
      · obtain ⟨path,hchain,hlen⟩ := h.to_oldOwner hO hflagO ha
        exact ⟨path,O,hchain,Or.inl rfl,by omega⟩
      · obtain ⟨path,hchain,hlen⟩ := h.to_newOwner hN hflagN ha
        exact ⟨path,N,hchain,Or.inr rfl,by omega⟩
    · obtain ⟨path,hchain,hlen⟩ :=
        h.all_to_old hO hN hflagO (hrunN.resolve_right hflagN) ha
      exact ⟨path,O,hchain,Or.inl rfl,hlen⟩
  · obtain ⟨path,hchain,hlen⟩ :=
      h.all_to_new hO hN (hrunO.resolve_left hflagO) (hends.resolve_left hflagO) ha
    exact ⟨path,N,hchain,Or.inr rfl,hlen⟩

/-- From which nodes a key is executed where, while its owner changes from `O` to `N`. -/
structure Fate (c : Cluster) (hash : Bytes → UInt64) (key old new O N : Bytes) : Prop where
  within : ∀ a path d, c.Chain hash key a path d → (d = O ∨ d = N) ∧ path.length ≤ 2
  oneExecutor : (∃ d, ∀ a, (c.proxy a).isSome → ∃ path, c.Chain hash key a path d) ↔
    O = N ∨ c.peersFlag O = c.peersFlag N
  served : (∀ a, (c.proxy a).isSome → ∃ path d, c.Chain hash key a path d) ↔
    c.peersFlag O = some old ∨ c.peersFlag N = some new
  lost : ¬ (c.peersFlag O = some old ∨ c.peersFlag N = some new) →
    ∀ a path d, ¬ c.Chain hash key a path d
  split : c.peersFlag O = some old → c.peersFlag N = some new →
    (∀ a, c.peersFlag a = some old → ∃ path, c.Chain hash key a path O) ∧
      ∀ a, c.peersFlag a = some new → ∃ path, c.Chain hash key a path N

/-- While a list is changed, a key is executed at its old or its new owner, in at most
two hops. All nodes agree on which exactly when there is one owner or both owners have
the same list; it is served from everywhere as long as its old owner was not restarted
before its new one, and from nowhere otherwise. -/
theorem fate_of_rolling (h : Rolling c old new) (hO : ownerIn hash key old = some O)
    (hN : ownerIn hash key new = some N) : Fate c hash key old new O N := by
  have hsomeO := h.running O (Or.inl (List.mem_of_getElem? hO))
  have hsomeN := h.running N (Or.inr (List.mem_of_getElem? hN))
  have hrunO := h.flag_of_running hsomeO
  have hrunN := h.flag_of_running hsomeN
  have hsame : O = N → c.peersFlag O = some old ∨ c.peersFlag N = some new := by
    rintro rfl
    exact hrunO
  have hlost : ¬ (c.peersFlag O = some old ∨ c.peersFlag N = some new) →
      ∀ a path d, ¬ c.Chain hash key a path d := by
    intro hnot a path d
    obtain ⟨hflagO,hflagN⟩ := not_or.mp hnot
    exact h.not_chain hO hN (fun he => hnot (hsame he)) (hrunO.resolve_left hflagO)
      (hrunN.resolve_right hflagN)
  refine ⟨?_,⟨?_,?_⟩,⟨?_,?_⟩,hlost,?_⟩
  · intro a path d hchain
    by_cases hends : c.peersFlag O = some old ∨ c.peersFlag N = some new
    · obtain ⟨path',d',hchain',hd,hlen⟩ := h.chain_ends hO hN hends hchain.running
      obtain ⟨rfl,rfl⟩ := hchain.unique hchain'
      exact ⟨hd,hlen⟩
    · exact absurd hchain (hlost hends a path d)
  · rintro ⟨d,hd⟩
    by_contra hdiffer
    obtain ⟨hne,hflags⟩ := not_or.mp hdiffer
    obtain ⟨pathO,hchainO⟩ := hd O hsomeO
    obtain ⟨pathN,hchainN⟩ := hd N hsomeN
    rcases hrunO with hflagO | hflagO
    · rcases hrunN with hflagN | hflagN
      · exact hflags (hflagO.trans hflagN.symm)
      · obtain ⟨-,rfl⟩ := hchainO.unique (h.chain_old hO hflagO)
        obtain ⟨-,rfl⟩ := hchainN.unique (h.chain_new hN hflagN)
        exact hne rfl
    · rcases hrunN with hflagN | hflagN
      · exact h.not_chain hO hN hne hflagO hflagN hchainO
      · exact hflags (hflagO.trans hflagN.symm)
  · intro hagree
    by_cases hone : O = N
    · subst hone
      refine ⟨O,fun a ha => ?_⟩
      obtain ⟨path,d,hchain,hd,-⟩ := h.chain_ends hO hN hrunO ha
      rw [or_self] at hd
      exact ⟨path,hd ▸ hchain⟩
    · have hflags := hagree.resolve_left hone
      rcases hrunO with hflagO | hflagO
      · refine ⟨O,fun a ha => ?_⟩
        obtain ⟨path,hchain,-⟩ := h.all_to_old hO hN hflagO (hflags ▸ hflagO) ha
        exact ⟨path,hchain⟩
      · refine ⟨N,fun a ha => ?_⟩
        obtain ⟨path,hchain,-⟩ := h.all_to_new hO hN hflagO (hflags ▸ hflagO) ha
        exact ⟨path,hchain⟩
  · intro hserved
    by_contra hnot
    obtain ⟨path,d,hchain⟩ := hserved O hsomeO
    exact hlost hnot O path d hchain
  · intro hends a ha
    obtain ⟨path,d,hchain,-⟩ := h.chain_ends hO hN hends ha
    exact ⟨path,d,hchain⟩
  · intro hflagO hflagN
    refine ⟨fun a ha => ?_,fun a ha => ?_⟩
    · obtain ⟨path,hchain,-⟩ := h.to_oldOwner hO hflagO ha
      exact ⟨path,hchain⟩
    · obtain ⟨path,hchain,-⟩ := h.to_newOwner hN hflagN ha
      exact ⟨path,hchain⟩

end Fate

section Growth

theorem mod_succ_iff {n : Nat} (hn : 0 < n) (x : Nat) :
    x % n = x % (n+1) ↔ x % (n * (n+1)) < n := by
  have hcoprime : Nat.Coprime n (n+1) := Nat.coprime_self_add_right.mpr (Nat.coprime_one_right n)
  constructor
  · intro hx
    have hlt : x % n < n := Nat.mod_lt x hn
    have hboth : x ≡ x % n [MOD n * (n+1)] :=
      (Nat.modEq_and_modEq_iff_modEq_mul hcoprime).mp
        ⟨(Nat.mod_modEq x n).symm,hx ▸ (Nat.mod_modEq x (n+1)).symm⟩
    have hsmall : x % n < n * (n+1) := hlt.trans_le (Nat.le_mul_of_pos_right n n.succ_pos)
    have heq : x % (n * (n+1)) = x % n := by
      rw [hboth, Nat.mod_eq_of_lt hsmall]
    omega
  · intro hx
    rw [← Nat.mod_mul_right_mod x n (n+1), ← Nat.mod_mul_left_mod x n (n+1),
      Nat.mod_eq_of_lt hx, Nat.mod_eq_of_lt (hx.trans n.lt_succ_self)]

theorem card_kept {n : Nat} (hn : 0 < n) (m : Nat) :
    ((Finset.Ico m (m + n * (n+1))).filter fun x => x % n = x % (n+1)).card = n := by
  have hperiodic : Function.Periodic (fun x => x % n = x % (n+1)) (n * (n+1)) := by
    intro x
    simp only [Nat.add_mul_mod_self_left, Nat.add_mul_mod_self_right]
  rw [Nat.filter_Ico_card_eq_of_periodic m _ _ hperiodic, Nat.count_eq_card_filter_range]
  have hrange : ((Finset.range (n * (n+1))).filter fun x => x % n = x % (n+1)) =
      Finset.range n := by
    ext x
    have hle : n ≤ n * (n+1) := Nat.le_mul_of_pos_right n n.succ_pos
    rw [Finset.mem_filter, Finset.mem_range, Finset.mem_range, mod_succ_iff hn]
    constructor
    · rintro ⟨hx,hkept⟩
      rwa [Nat.mod_eq_of_lt hx] at hkept
    · intro hx
      exact ⟨by omega,by rwa [Nat.mod_eq_of_lt (by omega)]⟩
  rw [hrange, Finset.card_range]

theorem strSplit_append {address p : Bytes} (hp : p ≠ []) (hcomma : 44 ∉ p) :
    strSplit (address ++ 44 :: p) = strSplit address ++ [p] := by
  rw [strSplit, List.splitOn_append_cons_self, List.filter_append, List.splitOn_eq_singleton hcomma]
  simp [strSplit, hp]

structure Grown (hash : Bytes → UInt64) (address p : Bytes) (n : Nat) : Prop where
  kept : ∀ key, ownerIn hash key (address ++ 44 :: p) = ownerIn hash key address ↔
    (hash key).toNat % n = (hash key).toNat % (n+1)
  toNew : ∀ key, ownerIn hash key (address ++ 44 :: p) = some p ↔ (hash key).toNat % (n+1) = n
  counted : ∀ m, ((Finset.Ico m (m + n * (n+1))).filter fun x => x % n = x % (n+1)).card = n

/-- A peer appended to the list takes over one key in `n + 1`, and most other keys change
their owner as well: `n` of any `n * (n + 1)` consecutive hash values keep it. -/
theorem grown_of_append {address p : Bytes} (hp : p ≠ []) (hcomma : 44 ∉ p)
    (hsome : strSplit address ≠ []) (hnodup : (strSplit (address ++ 44 :: p)).Nodup) :
    Grown hash address p (strSplit address).length := by
  have hn : 0 < (strSplit address).length := List.length_pos_of_ne_nil hsome
  have hlist : strSplit (address ++ 44 :: p) = strSplit address ++ [p] := strSplit_append hp hcomma
  have hlength : (strSplit (address ++ 44 :: p)).length = (strSplit address).length + 1 := by
    rw [hlist, List.length_append, List.length_singleton]
  have hslot : ∀ key, slot hash (address ++ 44 :: p) key =
      (hash key).toNat % ((strSplit address).length + 1) := fun key => by rw [slot, hlength]
  have hlt : ∀ key, slot hash address key < (strSplit address).length := fun key =>
    Nat.mod_lt _ hn
  have hlt' : ∀ key, slot hash (address ++ 44 :: p) key < (strSplit (address ++ 44 :: p)).length :=
    fun key => Nat.mod_lt _ (by omega)
  have hold : ∀ key, ownerIn hash key address =
      (strSplit (address ++ 44 :: p))[slot hash address key]? := fun key => by
    rw [ownerIn, hlist, List.getElem?_append_left (hlt key)]
  have hlast : (strSplit (address ++ 44 :: p))[(strSplit address).length]? = some p := by
    rw [hlist, List.getElem?_append_right (le_refl _), Nat.sub_self, List.getElem?_cons_zero]
  refine ⟨fun key => ?_,fun key => ?_,card_kept hn⟩
  · rw [hold, ownerIn, List.getElem?_inj (hlt' key) hnodup, hslot]
    exact eq_comm
  · rw [ownerIn, ← hlast, List.getElem?_inj (hlt' key) hnodup, hslot]

theorem grown_twoPeers :
    Grown (fun _ => 2) (text "a,b") (text "c") (strSplit (text "a,b")).length :=
  grown_of_append (by decide) (by decide) (by decide) (by decide)

end Growth

/-- "c" is being added to "a,b": nodes "b" and "c" have the new list, "a" the old one. -/
def addingPeer : Cluster :=
  .launch fun a => if a = text "a" then some (text "a,b") else
    if a = text "b" ∨ a = text "c" then some (text "a,b,c") else none

theorem addingPeer_rolling : Rolling addingPeer (text "a,b") (text "a,b,c") := by
  have hrunning : ∀ a ∈ strSplit (text "a,b") ++ strSplit (text "a,b,c"),
      (addingPeer.proxy a).isSome := by decide
  refine ⟨by decide,by decide,fun a flag h => ?_,fun a ha => hrunning a (List.mem_append.mpr ha)⟩
  have hflag : (if a = text "a" then some (text "a,b") else
      if a = text "b" ∨ a = text "c" then some (text "a,b,c") else none) = some flag :=
    (Option.filter_eq_some_iff.mp h).1
  split at hflag
  · exact Or.inl (Option.some.inj hflag).symm
  · split at hflag
    · exact Or.inr (Option.some.inj hflag).symm
    · cases hflag

theorem fate_addingPeer :
    Fate addingPeer (fun _ => 2) (text "k") (text "a,b") (text "a,b,c") (text "a") (text "c") :=
  fate_of_rolling addingPeer_rolling (by decide) (by decide)

end EaHalfHour.RollingUpgrade
