import Mathlib.Data.List.Basic

/-! UTF-8 over byte lists: the encoding is that of Lean's strings. -/
namespace EaHalfHour.Utf8Text

def encode (cs : List Char) : List UInt8 := cs.flatMap String.utf8EncodeChar

def ValidUtf8 (s : List UInt8) : Prop := s.toByteArray.IsValidUTF8

instance (s : List UInt8) : Decidable (ValidUtf8 s) :=
  inferInstanceAs (Decidable s.toByteArray.IsValidUTF8)

theorem validUtf8_iff (s : List UInt8) : ValidUtf8 s ↔ ∃ cs, s = encode cs := by
  constructor
  · rintro ⟨cs,hcs⟩
    exact ⟨cs,List.toByteArray_inj.mp hcs⟩
  · rintro ⟨cs,rfl⟩
    exact ⟨cs,rfl⟩

theorem ValidUtf8.append {s t : List UInt8} (hs : ValidUtf8 s) (ht : ValidUtf8 t) :
    ValidUtf8 (s ++ t) := by
  rw [ValidUtf8, List.toByteArray_append]
  exact ByteArray.IsValidUTF8.append hs ht

theorem utf8EncodeChar_of_lt {c : Char} (h : c.toNat < 128) :
    String.utf8EncodeChar c = [UInt8.ofNat c.toNat] := by
  have hval : c.val.toNat ≤ 127 := Nat.le_of_lt_succ h
  simp only [String.utf8EncodeChar, hval, if_true]
  rfl

theorem utf8EncodeChar_ascii {c : UInt8} (h : c < 128) :
    String.utf8EncodeChar (Char.ofNat c.toNat) = [c] := by
  have hall : ∀ d : Fin 128, (Char.ofNat d).toNat = d := by decide
  have hlt : c.toNat < 128 := UInt8.lt_iff_toNat_lt.mp h
  have hchar : (Char.ofNat c.toNat).toNat = c.toNat := hall ⟨c.toNat,hlt⟩
  rw [utf8EncodeChar_of_lt (by omega), hchar, UInt8.ofNat_toNat]

theorem validUtf8_ascii {s : List UInt8} (h : ∀ c ∈ s, c < 128) : ValidUtf8 s := by
  induction s with
  | nil => exact ⟨[],rfl⟩
  | cons c s ih =>
    have hc : ValidUtf8 [c] := by
      refine (validUtf8_iff [c]).mpr ⟨[Char.ofNat c.toNat],?_⟩
      simp [encode, utf8EncodeChar_ascii (h c (List.mem_cons_self ..))]
    exact hc.append (ih fun d hd => h d (List.mem_cons_of_mem c hd))

theorem utf8EncodeChar_high {c : Char} (h : ¬ c.toNat < 128) :
    ∀ b ∈ String.utf8EncodeChar c, 128 ≤ b := by
  intro b hb
  have hval : ¬ c.val.toNat ≤ 127 := fun hle => h (Nat.lt_succ_of_le hle)
  simp only [String.utf8EncodeChar, hval, if_false] at hb
  have hbyte (n m : Nat) (hm : 128 ≤ m) (hsum : n+m < 256) : 128 ≤ UInt8.ofNat (n+m) := by
    rw [UInt8.le_iff_toNat_le, UInt8.toNat_ofNat', Nat.mod_eq_of_lt hsum]
    exact Nat.le_trans hm (Nat.le_add_left m n)
  split_ifs at hb
  · simp only [List.mem_cons, List.not_mem_nil, or_false] at hb
    rcases hb with rfl | rfl <;> exact hbyte _ _ (by decide) (by omega)
  · simp only [List.mem_cons, List.not_mem_nil, or_false] at hb
    rcases hb with rfl | rfl | rfl <;> exact hbyte _ _ (by decide) (by omega)
  · simp only [List.mem_cons, List.not_mem_nil, or_false] at hb
    rcases hb with rfl | rfl | rfl | rfl <;> exact hbyte _ _ (by decide) (by omega)

theorem encode_injective {cs ds : List Char} (h : encode cs = encode ds) : cs = ds := by
  have hbytes : (String.ofList cs).toByteArray = (String.ofList ds).toByteArray :=
    congrArg List.toByteArray h
  simpa using congrArg String.toList (String.toByteArray_inj.mp hbytes)

end EaHalfHour.Utf8Text
