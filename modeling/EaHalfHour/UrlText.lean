import EaHalfHour.Utf8Text
import Mathlib.Data.List.DropRight

/-! What a URL parser makes of the text of an http URL with a query: the text is
cleaned, cut at its fragment, and the query is percent-encoded. -/
namespace EaHalfHour.UrlText
open Utf8Text

def isC0OrSpace (c : Char) : Bool := decide (c.toNat ≤ 32)

def isTabOrNewline (c : Char) : Bool := c.toNat == 9 || c.toNat == 10 || c.toNat == 13

/-- Controls and spaces go at both ends, tabs and newlines everywhere. -/
def clean (u : List Char) : List Char :=
  ((u.dropWhile isC0OrSpace).rdropWhile isC0OrSpace).filter fun c => !isTabOrNewline c

def isFragmentMark (c : Char) : Bool := c.toNat == 35

def endsAuthority (c : Char) : Bool := c.toNat == 47 || c.toNat == 92 || c.toNat == 63

def isQueryMark (c : Char) : Bool := c.toNat == 63

structure Parts where
  authority : List Char
  path : List Char
  query : List Char
deriving DecidableEq

def parts (scheme u : List Char) : Parts :=
  let rest := ((clean u).takeWhile fun c => !isFragmentMark c).drop scheme.length
  let behind := rest.dropWhile fun c => !endsAuthority c
  { authority := rest.takeWhile fun c => !endsAuthority c
    path := behind.takeWhile fun c => !isQueryMark c
    query := (behind.dropWhile fun c => !isQueryMark c).drop 1 }

def upperHex (n : Nat) : UInt8 := if n < 10 then UInt8.ofNat (48+n) else UInt8.ofNat (55+n)

def percentEncodeByte (b : UInt8) : List UInt8 :=
  [37,upperHex (b.toNat/16),upperHex (b.toNat%16)]

/-- The special-query percent-encode set. -/
def inQuerySet (c : Char) : Bool :=
  decide (c.toNat ≤ 32 ∨ 126 < c.toNat ∨ c.toNat ∈ [34,35,39,60,62])

def percentEncodeChar (c : Char) : List UInt8 :=
  if inQuerySet c then (String.utf8EncodeChar c).flatMap percentEncodeByte
  else String.utf8EncodeChar c

def percentEncode (cs : List Char) : List UInt8 := cs.flatMap percentEncodeChar

def queryEnd (k : List Char) : List Char :=
  ((k.rdropWhile isC0OrSpace).filter fun c => !isTabOrNewline c).takeWhile
    fun c => !isFragmentMark c

def Free (p : Char → Bool) (cs : List Char) : Prop := ∀ c ∈ cs, p c = false

instance (p : Char → Bool) (cs : List Char) : Decidable (Free p cs) :=
  List.decidableBAll (fun c => p c = false) cs

def Kept (cs : List Char) : Prop := ∀ c ∈ cs, isC0OrSpace c = false ∧ isFragmentMark c = false

instance (cs : List Char) : Decidable (Kept cs) :=
  List.decidableBAll (fun c => isC0OrSpace c = false ∧ isFragmentMark c = false) cs

theorem Kept.append {a b : List Char} (ha : Kept a) (hb : Kept b) : Kept (a ++ b) := by
  intro c hc
  exact (List.mem_append.mp hc).elim (ha c) (hb c)

theorem Kept.filter {a : List Char} (h : Kept a) : a.filter (fun c => !isTabOrNewline c) = a := by
  refine List.filter_eq_self.mpr fun c hc => ?_
  have hspace := (h c hc).1
  simp only [isC0OrSpace, decide_eq_false_iff_not] at hspace
  simp only [isTabOrNewline, Bool.not_eq_true', Bool.or_eq_false_iff, beq_eq_false_iff_ne]
  omega

theorem Kept.rdropWhile {a : List Char} (h : Kept a) : a.rdropWhile isC0OrSpace = a := by
  refine List.rdropWhile_eq_self_iff.mpr fun hne => ?_
  simp [(h _ (List.getLast_mem hne)).1]

theorem Kept.queryEnd {k : List Char} (h : Kept k) : queryEnd k = k := by
  rw [UrlText.queryEnd, h.rdropWhile, h.filter, List.takeWhile_eq_self_iff]
  intro c hc
  simp [(h c hc).2]

theorem clean_append {a : List Char} (h : Kept a) (hne : a ≠ []) (k : List Char) :
    clean (a ++ k) = a ++ (k.rdropWhile isC0OrSpace).filter fun c => !isTabOrNewline c := by
  have hfront : (a ++ k).dropWhile isC0OrSpace = a ++ k := by
    obtain ⟨c,rest,rfl⟩ := List.exists_cons_of_ne_nil hne
    simp [(h c (List.mem_cons_self ..)).1]
  have hback : (a ++ k).rdropWhile isC0OrSpace = a ++ k.rdropWhile isC0OrSpace := by
    have hstop : a.reverse.dropWhile isC0OrSpace = a.reverse := by
      rw [← List.reverse_inj, List.reverse_reverse]
      exact h.rdropWhile
    rw [List.rdropWhile, List.reverse_append, List.dropWhile_append, hstop]
    split
    · rename_i hempty
      simp [List.rdropWhile, List.isEmpty_iff.mp hempty]
    · simp [List.rdropWhile]
  rw [clean, hfront, hback, List.filter_append, h.filter]

theorem parts_append {scheme server path name : List Char} {slash : Char}
    (hscheme : Kept scheme) (hserver : Kept server)
    (hauthority : Free endsAuthority server) (hpath : Kept (slash :: path))
    (hslash : endsAuthority slash = true) (hmark : Free isQueryMark (slash :: path))
    (hname : Kept name) (k : List Char) :
    parts scheme (scheme ++ server ++ slash :: path ++ '?' :: name ++ k) =
      ⟨server,slash :: path,name ++ queryEnd k⟩ := by
  have hkept : Kept (scheme ++ server ++ slash :: path ++ '?' :: name) :=
    ((hscheme.append hserver).append hpath).append (Kept.append (a := ['?']) (by decide) hname)
  have hcut : (clean (scheme ++ server ++ slash :: path ++ '?' :: name ++ k)).takeWhile
      (fun c => !isFragmentMark c) =
        scheme ++ (server ++ (slash :: path ++ '?' :: (name ++ queryEnd k))) := by
    rw [clean_append hkept (by simp), List.takeWhile_append_of_pos]
    · simp [queryEnd]
    · intro c hc
      simp [(hkept c hc).2]
  have hbehind : ∀ c ∈ server, (!endsAuthority c) = true := fun c hc => by simp [hauthority c hc]
  have hquery : ∀ c ∈ slash :: path, (!isQueryMark c) = true := fun c hc => by simp [hmark c hc]
  have hq : isQueryMark '?' = true := by decide
  have hstop (r : List Char) : (slash :: path ++ r).takeWhile (fun c => !endsAuthority c) = [] ∧
      (slash :: path ++ r).dropWhile (fun c => !endsAuthority c) = slash :: path ++ r := by
    simp [hslash]
  unfold parts
  dsimp only
  rw [hcut, List.drop_left, List.takeWhile_append_of_pos hbehind,
    List.dropWhile_append_of_pos hbehind, (hstop _).1, (hstop _).2,
    List.takeWhile_append_of_pos hquery, List.dropWhile_append_of_pos hquery]
  simp [hq]

/-- A value of a query, as it is taken by a reader that decodes nothing: up to the
next separator or the fragment. -/
def firstValue (q : List UInt8) : List UInt8 := q.takeWhile fun b => decide (b ≠ 38 ∧ b ≠ 35)

def sentValue (k : List Char) : List UInt8 := firstValue (percentEncode (queryEnd k))

/-- The codes that a query carries as they are, less the separator: none of a space or
a control, and none of `"#&'<>`. -/
def IsPlain (n : Nat) : Prop := 33 ≤ n ∧ n ≤ 126 ∧ n ∉ [34,35,38,39,60,62]

instance (n : Nat) : Decidable (IsPlain n) := inferInstanceAs (Decidable (_ ∧ _))

def Plain (cs : List Char) : Prop := ∀ c ∈ cs, IsPlain c.toNat

instance (cs : List Char) : Decidable (Plain cs) :=
  List.decidableBAll (fun c : Char => IsPlain c.toNat) cs

theorem Plain.kept {cs : List Char} (h : Plain cs) : Kept cs := by
  intro c hc
  obtain ⟨hlow,-,hset⟩ := h c hc
  simp only [List.mem_cons, List.not_mem_nil, or_false, not_or] at hset
  constructor
  · simp only [isC0OrSpace, decide_eq_false_iff_not]
    omega
  · simp only [isFragmentMark, beq_eq_false_iff_ne]
    omega

theorem percentEncode_of_plain {cs : List Char} (h : Plain cs) :
    percentEncode cs = encode cs := by
  refine List.flatMap_congr fun c hc => ?_
  obtain ⟨hlow,hhigh,hset⟩ := h c hc
  have hnot : inQuerySet c = false := by
    simp only [List.mem_cons, List.not_mem_nil, or_false, not_or] at hset
    simp only [inQuerySet, List.mem_cons, List.not_mem_nil, or_false, decide_eq_false_iff_not]
    omega
  rw [percentEncodeChar, hnot, if_neg Bool.false_ne_true]

theorem plain_iff (cs : List Char) : (∀ b ∈ encode cs, IsPlain b.toNat) ↔ Plain cs := by
  have hchar (c : Char) : (∀ b ∈ String.utf8EncodeChar c, IsPlain b.toNat) ↔ IsPlain c.toNat := by
    by_cases hc : c.toNat < 128
    · have hnat : (UInt8.ofNat c.toNat).toNat = c.toNat := by
        rw [UInt8.toNat_ofNat', Nat.mod_eq_of_lt (by omega)]
      simp [utf8EncodeChar_of_lt hc, hnat]
    · constructor
      · intro h
        have hne : String.utf8EncodeChar c ≠ [] := by simp
        obtain ⟨b,hb⟩ := List.exists_mem_of_ne_nil _ hne
        have hhigh := UInt8.le_iff_toNat_le.mp (utf8EncodeChar_high hc b hb)
        have hplain := (h b hb).2.1
        simp only [UInt8.reduceToNat] at hhigh
        omega
      · intro h
        have hplain := h.2.1
        omega
  simp only [encode, List.mem_flatMap, Plain, ← hchar]
  constructor
  · intro h c hc b hb
    exact h b ⟨c,hc,hb⟩
  · rintro h b ⟨c,hc,hb⟩
    exact h c hc b hb

theorem isPlain_of_mem_percentEncodeByte {d b : UInt8} (h : b ∈ percentEncodeByte d) :
    IsPlain b.toNat := by
  have hhex : ∀ n : Fin 16, IsPlain (upperHex n).toNat := by decide
  have hd := UInt8.toNat_lt d
  simp only [percentEncodeByte, List.mem_cons, List.not_mem_nil, or_false] at h
  rcases h with rfl | rfl | rfl
  · decide
  · exact hhex ⟨d.toNat/16,by omega⟩
  · exact hhex ⟨d.toNat%16,by omega⟩

theorem isPlain_of_mem_percentEncode {cs : List Char} {b : UInt8} (h : b ∈ percentEncode cs) :
    IsPlain b.toNat ∨ b = 38 := by
  obtain ⟨c,-,hb⟩ := List.mem_flatMap.mp h
  unfold percentEncodeChar at hb
  split at hb
  · obtain ⟨d,-,hd⟩ := List.mem_flatMap.mp hb
    exact Or.inl (isPlain_of_mem_percentEncodeByte hd)
  · rename_i hnot
    simp only [inQuerySet, List.mem_cons, List.not_mem_nil, or_false, decide_eq_true_eq] at hnot
    rw [utf8EncodeChar_of_lt (by omega), List.mem_singleton] at hb
    have hnat : b.toNat = c.toNat := by
      rw [hb, UInt8.toNat_ofNat', Nat.mod_eq_of_lt (by omega)]
    by_cases hamp : c.toNat = 38
    · exact Or.inr (by rw [hb, hamp]; rfl)
    · refine Or.inl ?_
      rw [IsPlain, hnat]
      simp only [List.mem_cons, List.not_mem_nil, or_false]
      omega

theorem isPlain_of_mem_sentValue {k : List Char} {b : UInt8} (h : b ∈ sentValue k) :
    IsPlain b.toNat := by
  have hsep := List.mem_takeWhile_imp h
  simp only [decide_eq_true_eq] at hsep
  exact (isPlain_of_mem_percentEncode ((List.takeWhile_sublist _).mem h)).resolve_right hsep.1

theorem sentValue_eq_iff (k : List Char) : sentValue k = encode k ↔ Plain k := by
  constructor
  · intro h
    refine (plain_iff k).mp fun b hb => ?_
    rw [← h] at hb
    exact isPlain_of_mem_sentValue hb
  · intro h
    rw [sentValue, h.kept.queryEnd, percentEncode_of_plain h, firstValue,
      List.takeWhile_eq_self_iff]
    intro b hb
    have hset := ((plain_iff k).mpr h b hb).2.2
    simp only [decide_eq_true_eq]
    constructor
    · rintro rfl
      exact hset (by decide)
    · rintro rfl
      exact hset (by decide)

theorem exists_plain_sentValue (k : List Char) : ∃ k', Plain k' ∧ sentValue k' = sentValue k := by
  have hascii : ∀ b ∈ sentValue k, b < 128 := by
    intro b hb
    have hhigh := (isPlain_of_mem_sentValue hb).2.1
    exact UInt8.lt_iff_toNat_lt.mpr (Nat.lt_of_le_of_lt hhigh (by decide))
  obtain ⟨k',hk'⟩ := (validUtf8_iff _).mp (validUtf8_ascii hascii)
  have hplain : Plain k' := (plain_iff k').mp fun b hb => isPlain_of_mem_sentValue (hk' ▸ hb)
  exact ⟨k',hplain,by rw [(sentValue_eq_iff k').mpr hplain, hk']⟩

end EaHalfHour.UrlText
