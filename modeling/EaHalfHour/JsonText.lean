import EaHalfHour.DecimalText
import EaHalfHour.Utf8Text

/-! JSON documents that are flat objects of numbers and strings. The library that writes
and reads them is a parameter; the one at the end is for examples. Strings are bytes. -/
namespace EaHalfHour.JsonText
open DecimalText Utf8Text

inductive Scalar where
  | num (n : Int)
  | str (s : List UInt8)
deriving DecidableEq

/-- The members of an object, in the order they are written. -/
abbrev Fields := List (List UInt8 × Scalar)

def Scalar.Valid : Scalar → Prop
  | .num _ => True
  | .str s => ValidUtf8 s

def Fields.Valid (fields : Fields) : Prop := ∀ f ∈ fields, ValidUtf8 f.1 ∧ f.2.Valid

structure Json where
  dump : Fields → Option (List UInt8)
  parse : List UInt8 → Option Fields

/-- The writer throws on strings that are not UTF-8 and on nothing else, and each member
of what it writes is read with its value. -/
structure Json.Documented (json : Json) : Prop where
  dump_isSome_iff : ∀ fields, (json.dump fields).isSome = true ↔ Fields.Valid fields
  parse_dump : ∀ fields doc, (fields.map Prod.fst).Nodup → json.dump fields = some doc →
    ∃ read, json.parse doc = some read ∧ ∀ name, read.lookup name = fields.lookup name

/-! A library of that kind that writes no blanks and reads what it writes. -/

def hexDigit (n : Nat) : UInt8 := if n < 10 then UInt8.ofNat (48+n) else UInt8.ofNat (87+n)

/-- How one byte of a string is written when other characters than the ones that must
be escaped are left as they are. -/
def escapeByte (c : UInt8) : List UInt8 :=
  if c = 8 then [92,98]
  else if c = 9 then [92,116]
  else if c = 10 then [92,110]
  else if c = 12 then [92,102]
  else if c = 13 then [92,114]
  else if c = 34 then [92,34]
  else if c = 92 then [92,92]
  else if c < 32 then [92,117,48,48,hexDigit (c.toNat/16),hexDigit (c.toNat%16)]
  else [c]

def dumpString (s : List UInt8) : Option (List UInt8) :=
  if ValidUtf8 s then some (34 :: (s.flatMap escapeByte ++ [34])) else none

def dumpInt (n : Int) : List UInt8 := if n < 0 then 45 :: digits n.natAbs else digits n.natAbs

def Scalar.dump : Scalar → Option (List UInt8)
  | .num n => some (dumpInt n)
  | .str s => dumpString s

def dumpMembers : Fields → Option (List UInt8)
  | [] => some [125]
  | (key,value) :: fields => do
    let k ← dumpString key
    let v ← value.dump
    let rest ← dumpMembers fields
    some (k ++ 58 :: (v ++ if fields = [] then rest else 44 :: rest))

def dump (fields : Fields) : Option (List UInt8) := (dumpMembers fields).map (123 :: ·)

def hexValue (c : UInt8) : Option Nat :=
  if 48 ≤ c ∧ c ≤ 57 then some (c.toNat-48)
  else if 65 ≤ c ∧ c ≤ 70 then some (c.toNat-55)
  else if 97 ≤ c ∧ c ≤ 102 then some (c.toNat-87)
  else none

def unescape (c : UInt8) : Option UInt8 :=
  if c = 34 ∨ c = 92 ∨ c = 47 then some c
  else if c = 98 then some 8
  else if c = 102 then some 12
  else if c = 110 then some 10
  else if c = 114 then some 13
  else if c = 116 then some 9
  else none

def before (s : List UInt8) (r : Option (List UInt8 × List UInt8)) :
    Option (List UInt8 × List UInt8) :=
  r.map fun p => (s ++ p.1,p.2)

def parseChars : List UInt8 → Option (List UInt8 × List UInt8)
  | [] => none
  | c :: s =>
    if c = 34 then some ([],s)
    else if c = 92 then
      match s with
      | 117 :: 48 :: 48 :: h₁ :: h₂ :: t =>
        match hexValue h₁, hexValue h₂ with
        | some x, some y => before [UInt8.ofNat (x*16+y)] (parseChars t)
        | _, _ => none
      | e :: t =>
        match unescape e with
        | none => none
        | some b => before [b] (parseChars t)
      | [] => none
    else if c < 32 then none
    else before [c] (parseChars s)

def parseNumber (negative : Bool) (s : List UInt8) : Option (Scalar × List UInt8) :=
  let ds := s.takeWhile isDigit
  -- no number begins with a zero that it can do without
  if digits (ofDigits ds) = ds then some (.num (signed negative (ofDigits ds)),s.dropWhile isDigit)
  else none

def parseScalar : List UInt8 → Option (Scalar × List UInt8)
  | 34 :: s => (parseChars s).map fun p => (.str p.1,p.2)
  | 45 :: s => parseNumber true s
  | s => parseNumber false s

/-- The members from behind the opening brace or a comma on. The first argument bounds
how many there are. -/
def parseMembers : Nat → List UInt8 → Option Fields
  | 0, _ => none
  | n+1, 34 :: s =>
    match parseChars s with
    | some (key,58 :: s) =>
      match parseScalar s with
      | some (value,[125]) => some [(key,value)]
      | some (value,44 :: s) => (parseMembers n s).map ((key,value) :: ·)
      | _ => none
    | _ => none
  | _+1, _ => none

def parse : List UInt8 → Option Fields
  | [123,125] => some []
  | 123 :: s => parseMembers s.length s
  | _ => none

def plainJson : Json := ⟨dump,parse⟩

theorem hexValue_hexDigit {n : Nat} (h : n < 16) : hexValue (hexDigit n) = some n := by
  have hall : ∀ d : Fin 16, hexValue (hexDigit d) = some d.val := by decide
  exact hall ⟨n,h⟩

theorem parseChars_escapeByte (c : UInt8) (t : List UInt8) :
    parseChars (escapeByte c ++ t) = before [c] (parseChars t) := by
  unfold escapeByte
  split_ifs with h8 h9 h10 h12 h13 h34 h92 h32
  · subst h8; rfl
  · subst h9; rfl
  · subst h10; rfl
  · subst h12; rfl
  · subst h13; rfl
  · subst h34; rfl
  · subst h92; rfl
  · have hlt : c.toNat < 32 := UInt8.lt_iff_toNat_lt.mp h32
    have hsum : c.toNat/16*16 + c.toNat%16 = c.toNat := by omega
    have hhigh := hexValue_hexDigit (show c.toNat/16 < 16 by omega)
    have hlow := hexValue_hexDigit (show c.toNat%16 < 16 by omega)
    rw [List.cons_append, parseChars.eq_def]
    simp [hhigh, hlow, hsum]
  · rw [List.singleton_append, parseChars.eq_def]
    simp [h34, h92, h32]

theorem parseChars_escape (s t : List UInt8) :
    parseChars (s.flatMap escapeByte ++ 34 :: t) = some (s,t) := by
  induction s with
  | nil =>
    rw [List.flatMap_nil, List.nil_append, parseChars.eq_def]
    simp
  | cons c s ih =>
    rw [List.flatMap_cons, List.append_assoc, parseChars_escapeByte, ih]
    rfl

theorem parseNumber_digits (negative : Bool) (n : Nat) {r : List UInt8} (hr : Ends isDigit r) :
    parseNumber negative (digits n ++ r) = some (.num (signed negative n),r) := by
  obtain ⟨htake,hdrop⟩ := span_of_ends (isDigit_digits n) hr
  simp only [parseNumber, htake, hdrop, ofDigits_digits, if_true]

theorem parseScalar_digits (n : Nat) {r : List UInt8} (hr : Ends isDigit r) :
    parseScalar (digits n ++ r) = some (.num n,r) := by
  have hread := parseNumber_digits false n hr
  obtain ⟨d,ds,hds⟩ := List.exists_cons_of_ne_nil (digits_ne_nil n)
  have hd : isDigit d = true := isDigit_digits n d (by rw [hds]; exact List.mem_cons_self ..)
  rw [hds, List.cons_append] at hread ⊢
  unfold parseScalar
  split
  · rename_i heq
    rw [(List.cons.inj heq).1] at hd
    exact absurd hd (by decide)
  · rename_i heq
    rw [(List.cons.inj heq).1] at hd
    exact absurd hd (by decide)
  · exact hread

theorem parseScalar_dump {v : Scalar} {d r : List UInt8} (h : v.dump = some d)
    (hr : Ends isDigit r) : parseScalar (d ++ r) = some (v,r) := by
  cases v with
  | num n =>
    obtain rfl := Option.some.inj h
    unfold dumpInt
    split
    · change parseNumber true (digits n.natAbs ++ r) = _
      rw [parseNumber_digits true n.natAbs hr, signed, if_pos rfl,
        show -(n.natAbs : Int) = n by omega]
    · rw [parseScalar_digits n.natAbs hr, show (n.natAbs : Int) = n by omega]
  | str s =>
    rw [Scalar.dump, dumpString] at h
    split at h
    · obtain rfl := Option.some.inj h
      simp [parseScalar, parseChars_escape]
    · cases h

theorem dumpMembers_cons {key : List UInt8} {value : Scalar} {fields : Fields} {d : List UInt8}
    (h : dumpMembers ((key,value) :: fields) = some d) :
    ∃ v rest, ValidUtf8 key ∧ value.dump = some v ∧ dumpMembers fields = some rest ∧
      d = 34 :: (key.flatMap escapeByte ++ 34 :: 58 ::
        (v ++ if fields = [] then rest else 44 :: rest)) := by
  simp only [dumpMembers, Option.bind_eq_bind, Option.bind_eq_some_iff, Option.some.injEq] at h
  obtain ⟨k,hk,v,hv,rest,hrest,rfl⟩ := h
  unfold dumpString at hk
  split at hk
  · rename_i hvalid
    obtain rfl := Option.some.inj hk
    exact ⟨v,rest,hvalid,hv,hrest,by simp⟩
  · cases hk

theorem length_dumpMembers {fields : Fields} {d : List UInt8} (h : dumpMembers fields = some d) :
    fields.length < d.length := by
  induction fields generalizing d with
  | nil =>
    obtain rfl := Option.some.inj h
    simp
  | cons f fields ih =>
    obtain ⟨v,rest,-,-,hrest,rfl⟩ := dumpMembers_cons h
    have hlt := ih hrest
    split <;> simp <;> omega

theorem parseMembers_dump {fields : Fields} {d : List UInt8} {n : Nat} (hne : fields ≠ [])
    (h : dumpMembers fields = some d) (hn : fields.length ≤ n) :
    parseMembers n d = some fields := by
  induction fields generalizing d n with
  | nil => exact absurd rfl hne
  | cons f fields ih =>
    obtain ⟨key,value⟩ := f
    obtain ⟨v,rest,-,hv,hrest,rfl⟩ := dumpMembers_cons h
    obtain ⟨n,rfl⟩ := Nat.exists_eq_add_of_lt (show 0 < n by simp at hn; omega)
    simp only [Nat.zero_add, parseMembers, parseChars_escape]
    by_cases hlast : fields = []
    · subst hlast
      obtain rfl := Option.some.inj hrest
      have hend : Ends isDigit [125] := by
        intro c hc
        obtain rfl := Option.some.inj hc
        decide
      simp only [if_true, parseScalar_dump hv hend]
    · have hend : Ends isDigit (44 :: rest) := by
        intro c hc
        obtain rfl := Option.some.inj hc
        decide
      have hread := ih hlast hrest (n := n) (by simp at hn; omega)
      simp only [hlast, if_false, parseScalar_dump hv hend, hread, Option.map_some]

theorem parse_dump {fields : Fields} {doc : List UInt8} (h : dump fields = some doc) :
    parse doc = some fields := by
  obtain ⟨d,hd,rfl⟩ := Option.map_eq_some_iff.mp h
  cases fields with
  | nil =>
    obtain rfl := Option.some.inj hd
    rfl
  | cons f fields =>
    have hread := parseMembers_dump (List.cons_ne_nil f fields) hd (length_dumpMembers hd).le
    obtain ⟨v,rest,-,-,-,rfl⟩ := dumpMembers_cons hd
    exact hread

theorem Scalar.dump_isSome (v : Scalar) : v.dump.isSome = true ↔ v.Valid := by
  cases v with
  | num n => simp [Scalar.dump, Scalar.Valid]
  | str s =>
    simp only [Scalar.dump, dumpString, Scalar.Valid]
    split <;> simp_all

theorem dump_isSome (fields : Fields) : (dump fields).isSome = true ↔ Fields.Valid fields := by
  rw [dump, Option.isSome_map, Fields.Valid]
  induction fields with
  | nil => simp [dumpMembers]
  | cons f fields ih =>
    obtain ⟨key,value⟩ := f
    rw [List.forall_mem_cons, ← ih, ← Scalar.dump_isSome]
    by_cases hkey : ValidUtf8 key
    · cases hv : value.dump <;> cases hrest : dumpMembers fields <;>
        simp [dumpMembers, dumpString, hkey, hv, hrest]
    · simp [dumpMembers, dumpString, hkey]

theorem plainJson_parse {fields : Fields} {doc : List UInt8}
    (h : plainJson.dump fields = some doc) : plainJson.parse doc = some fields := parse_dump h

theorem plainJson_documented : plainJson.Documented where
  dump_isSome_iff := dump_isSome
  parse_dump _ _ _ h := ⟨_,plainJson_parse h,fun _ => rfl⟩

end EaHalfHour.JsonText
