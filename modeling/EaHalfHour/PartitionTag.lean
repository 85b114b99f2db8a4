import EaHalfHour.DecimalText
import EaHalfHour.KvMessage

/-! MyPartitionParser::ParseFromTag of the partition client. -/
namespace EaHalfHour.PartitionTag
open DecimalText KvMessage

structure Partition where
  index : Int32
  numPartitionKinds : Int32
deriving DecidableEq

def intOfLong (n : Int) : Int32 := Int32.ofInt n

/-- The text `tag`, and `out` as the call finds it. An `endptr` is kept as how far it
is behind the start of the text strtol was given. -/
def MyPartitionParser.parseFromTag (tag : Bytes) (out : Partition) : Bool × Partition :=
  match tag.findIdx? (· == 47) with
  | none => (false,out)
  | some pos =>
    let (value,endptr) := strtol tag
    let out := { out with index := intOfLong value }
    if endptr ≠ pos then (false,out)
    else
      let (value,endptr) := strtol (tag.drop (pos+1))
      let out := { out with numPartitionKinds := intOfLong value }
      if pos + 1 + endptr ≠ tag.length then (false,out)
      else (true,out)

def FitsInt (n : Int) : Prop := -2^31 ≤ n ∧ n < 2^31

/-- The tag is `A/B`, where A and B are integer literals with these values, which an
int can hold. -/
def Names (tag : Bytes) (a b : Int) : Prop :=
  ∃ l r, tag = l ++ 47 :: r ∧ IsLiteral l a ∧ IsLiteral r b ∧ FitsInt a ∧ FitsInt b

def ParsedExactly (tag : Bytes) : Prop :=
  ∀ out, ((MyPartitionParser.parseFromTag tag out).1 = true ↔ ∃ a b, Names tag a b) ∧
    ((MyPartitionParser.parseFromTag tag out).1 = true → ∀ a b, Names tag a b →
      (MyPartitionParser.parseFromTag tag out).2.index.toInt = a ∧
      (MyPartitionParser.parseFromTag tag out).2.numPartitionKinds.toInt = b)

def Side (s : Bytes) : Prop := s = [] ∨ ∃ n, IsLiteral s n

def Proper (s : Bytes) : Prop := ∃ n, IsLiteral s n ∧ FitsInt n

theorem literal_no_slash {s : Bytes} {n : Int} (h : IsLiteral s n) : 47 ∉ s := by
  obtain ⟨space,sign,digits,negative,rfl,hspace,hsign,-,hdigits,-⟩ := h
  intro hmem
  rcases List.mem_append.mp hmem with hmem | hmem
  · exact absurd (hspace 47 hmem) (by decide)
  rcases List.mem_append.mp hmem with hmem | hmem
  · cases hsign <;> simp at hmem
  · exact absurd (hdigits 47 hmem) (by decide)

theorem stops_slash (r : Bytes) : Stops (47 :: r) := by
  intro c hc
  obtain rfl := Option.some.inj hc
  decide

theorem stops_nil : Stops [] := by
  intro c hc
  cases hc

theorem findIdx?_slash {l r : Bytes} (h : 47 ∉ l) :
    (l ++ 47 :: r).findIdx? (· == 47) = some l.length := by
  have hl : l.findIdx? (· == 47) = none := by
    simp only [List.findIdx?_eq_none_iff]
    intro c hc
    simpa using fun he : c = 47 => h (he ▸ hc)
  simp [List.findIdx?_append, hl, List.findIdx?_cons]

theorem strtol_side_iff (s : Bytes) : (strtol s).2 = s.length ↔ Side s := by
  simpa [Side] using strtol_ends_iff (s := s) stops_nil

section Split
variable {l r : Bytes} (hl : 47 ∉ l) (out : Partition)
include hl

theorem parseFromTag_accepts :
    (MyPartitionParser.parseFromTag (l ++ 47 :: r) out).1 = true ↔ Side l ∧ Side r := by
  have hfirst : (strtol (l ++ 47 :: r)).2 = l.length ↔ Side l := strtol_ends_iff (stops_slash r)
  have hdrop : (l ++ 47 :: r).drop (l.length+1) = r := by simp
  have hsecond : l.length + 1 + (strtol r).2 = (l ++ 47 :: r).length ↔ Side r := by
    rw [← strtol_side_iff]
    simp only [List.length_append, List.length_cons]
    omega
  simp only [MyPartitionParser.parseFromTag, findIdx?_slash hl, hdrop, ← hfirst, ← hsecond]
  split_ifs <;> simp_all

theorem parseFromTag_values {a b : Int} (ha : IsLiteral l a) (hb : IsLiteral r b) :
    (MyPartitionParser.parseFromTag (l ++ 47 :: r) out).2 =
      ⟨intOfLong (clampLong a),intOfLong (clampLong b)⟩ := by
  have hfirst := strtol_literal ha (stops_slash r).digit
  have hsecond := strtol_literal hb stops_nil.digit
  rw [List.append_nil] at hsecond
  have hdrop : (l ++ 47 :: r).drop (l.length+1) = r := by simp
  simp only [MyPartitionParser.parseFromTag, findIdx?_slash hl, hdrop, hfirst, hsecond]
  split_ifs <;> simp_all

end Split

theorem intOfLong_clampLong {n : Int} (h : FitsInt n) : (intOfLong (clampLong n)).toInt = n := by
  obtain ⟨hle,hlt⟩ := h
  have hclamp : clampLong n = n := by
    unfold clampLong
    omega
  rw [hclamp, intOfLong, Int32.toInt_ofInt_of_le hle hlt]

theorem split_unique {l r l' r' : Bytes} (h : l ++ 47 :: r = l' ++ 47 :: r') (hl : 47 ∉ l)
    (hl' : 47 ∉ l') : l = l' ∧ r = r' := by
  have hlen : l.length = l'.length := by
    have hidx := findIdx?_slash (r := r) hl
    rw [h, findIdx?_slash hl'] at hidx
    exact (Option.some.inj hidx).symm
  obtain ⟨rfl,hr⟩ := List.append_inj h hlen
  exact ⟨rfl,(List.cons.inj hr).2⟩

theorem Side.no_slash {s : Bytes} (h : Side s) : 47 ∉ s := by
  rcases h with rfl | ⟨n,hn⟩
  · simp
  · exact literal_no_slash hn

theorem parseFromTag_true_iff (tag : Bytes) (out : Partition) :
    (MyPartitionParser.parseFromTag tag out).1 = true ↔
      ∃ l r, tag = l ++ 47 :: r ∧ Side l ∧ Side r := by
  constructor
  · intro h
    have hmem : 47 ∈ tag := by
      by_contra hno
      have hnone : tag.findIdx? (· == 47) = none := by
        simp only [List.findIdx?_eq_none_iff]
        intro c hc
        simpa using fun he : c = 47 => hno (he ▸ hc)
      simp [MyPartitionParser.parseFromTag, hnone] at h
    obtain ⟨l,r,rfl,hl⟩ := List.eq_append_cons_of_mem hmem
    exact ⟨l,r,rfl,(parseFromTag_accepts hl out).mp h⟩
  · rintro ⟨l,r,rfl,hl,hr⟩
    exact (parseFromTag_accepts hl.no_slash out).mpr ⟨hl,hr⟩

/-- A tag is parsed exactly unless both sides are read to their ends though one of them
is empty or does not fit an int. -/
theorem parsedExactly_iff (tag : Bytes) : ParsedExactly tag ↔
    ∀ l r, tag = l ++ 47 :: r → Side l → Side r → Proper l ∧ Proper r := by
  constructor
  · rintro h l r rfl hl hr
    have hout := (h ⟨0,0⟩).1
    rw [parseFromTag_true_iff] at hout
    obtain ⟨a,b,l',r',he,ha,hb,hfita,hfitb⟩ := hout.mp ⟨l,r,rfl,hl,hr⟩
    obtain ⟨rfl,rfl⟩ := split_unique he hl.no_slash (literal_no_slash ha)
    exact ⟨⟨a,ha,hfita⟩,b,hb,hfitb⟩
  · intro h out
    constructor
    · rw [parseFromTag_true_iff]
      constructor
      · rintro ⟨l,r,rfl,hl,hr⟩
        obtain ⟨⟨a,ha,hfita⟩,b,hb,hfitb⟩ := h l r rfl hl hr
        exact ⟨a,b,l,r,rfl,ha,hb,hfita,hfitb⟩
      · rintro ⟨a,b,l,r,rfl,ha,hb,-,-⟩
        exact ⟨l,r,rfl,Or.inr ⟨a,ha⟩,Or.inr ⟨b,hb⟩⟩
    · rintro - a b ⟨l,r,rfl,ha,hb,hfita,hfitb⟩
      rw [parseFromTag_values (literal_no_slash ha) out ha hb]
      exact ⟨intOfLong_clampLong hfita,intOfLong_clampLong hfitb⟩

theorem not_parsedExactly_noIndex : ¬ ParsedExactly (text "/3") := by
  intro h
  have haccepts : MyPartitionParser.parseFromTag (text "/3") ⟨7,7⟩ = (true,⟨0,3⟩) := by decide
  obtain ⟨a,b,l,r,he,hl,-⟩ := (h ⟨7,7⟩).1.mp (by rw [haccepts])
  have hempty : text "/3" = [] ++ 47 :: text "3" := by decide
  obtain ⟨rfl,-⟩ := split_unique (hempty.symm.trans he) (by simp) (literal_no_slash hl)
  obtain ⟨space,sign,digits,negative,hparts,-,-,hne,-⟩ := hl
  exact hne (List.append_eq_nil_iff.mp (List.append_eq_nil_iff.mp hparts.symm).2).2

end EaHalfHour.PartitionTag
