import Mathlib.Algebra.Group.Int.Defs
import Mathlib.Data.List.TakeWhile
import Mathlib.Data.List.Basic
import Mathlib.Data.List.Induction

/-! Decimal numbers in byte strings: the literals strtol accepts in base 10, the
function itself, and the digits of a natural number. -/
namespace EaHalfHour.DecimalText

def isSpace (c : UInt8) : Bool := c == 32 || (9 ≤ c && c ≤ 13)

def isDigit (c : UInt8) : Bool := 48 ≤ c && c ≤ 57

def ofDigits (ds : List UInt8) : Nat := ds.foldl (fun n d => 10*n + (d.toNat-48)) 0

theorem ofDigits_concat (ds : List UInt8) (d : UInt8) :
    ofDigits (ds ++ [d]) = 10 * ofDigits ds + (d.toNat-48) := by
  simp [ofDigits]

inductive Sign : List UInt8 → Bool → Prop where
  | absent : Sign [] false
  | plus : Sign [43] false
  | minus : Sign [45] true

def signed (negative : Bool) (n : Nat) : Int := if negative then -n else n

def IsLiteral (s : List UInt8) (n : Int) : Prop :=
  ∃ space sign digits negative, s = space ++ (sign ++ digits) ∧
    (∀ c ∈ space, isSpace c = true) ∧ Sign sign negative ∧ digits ≠ [] ∧
    (∀ c ∈ digits, isDigit c = true) ∧ n = signed negative (ofDigits digits)

/-- What a long can hold, and the nearest end of its range otherwise. -/
def clampLong (n : Int) : Int := max (-2^63) (min n (2^63-1))

def splitSign : List UInt8 → Bool × List UInt8
  | 43 :: s => (false,s)
  | 45 :: s => (true,s)
  | s => (false,s)

/-- `strtol(nptr, &endptr, 10)`: the value, and how far behind nptr endptr points.
Where nothing can be converted it points at nptr. A byte 0 ends the text as any
other byte does that is no digit. -/
def strtol (s : List UInt8) : Int × Nat :=
  let t := s.dropWhile isSpace
  let u := (splitSign t).2
  let digits := u.takeWhile isDigit
  if digits = [] then (0,0)
  else (clampLong (signed (splitSign t).1 (ofDigits digits)),
    s.length - (u.dropWhile isDigit).length)

def Ends (p : UInt8 → Bool) (s : List UInt8) : Prop := ∀ c, s.head? = some c → p c = false

theorem span_of_ends {p : UInt8 → Bool} {l r : List UInt8} (hl : ∀ c ∈ l, p c = true)
    (hr : Ends p r) : (l ++ r).takeWhile p = l ∧ (l ++ r).dropWhile p = r := by
  rw [List.takeWhile_append_of_pos hl, List.dropWhile_append_of_pos hl]
  cases r with
  | nil => simp
  | cons c r =>
    have hc := hr c rfl
    simp [hc]

theorem ends_dropWhile (p : UInt8 → Bool) (s : List UInt8) : Ends p (s.dropWhile p) := by
  intro c hc
  have h := List.head?_dropWhile_not p s
  simpa [hc] using h

theorem splitSign_sign (t : List UInt8) :
    ∃ sign, t = sign ++ (splitSign t).2 ∧ Sign sign (splitSign t).1 := by
  unfold splitSign
  split
  · exact ⟨[43],rfl,.plus⟩
  · exact ⟨[45],rfl,.minus⟩
  · exact ⟨[],rfl,.absent⟩

theorem splitSign_append {sign s : List UInt8} {negative : Bool} (h : Sign sign negative)
    (hs : Ends (fun c => c == 43 || c == 45) s) : splitSign (sign ++ s) = (negative,s) := by
  cases h with
  | plus | minus => rfl
  | absent =>
    unfold splitSign
    split
    · rename_i heq
      exact absurd (hs 43 (by rw [List.nil_append] at heq; rw [heq]; rfl)) (by decide)
    · rename_i heq
      exact absurd (hs 45 (by rw [List.nil_append] at heq; rw [heq]; rfl)) (by decide)
    · rfl

def Stops (s : List UInt8) : Prop :=
  Ends (fun c => isSpace c || isDigit c || c == 43 || c == 45) s

theorem Stops.digit {s : List UInt8} (h : Stops s) : Ends isDigit s := by
  intro c hc
  have hall := h c hc
  simp only [Bool.or_eq_false_iff] at hall
  exact hall.1.1.2

theorem strtol_literal {s r : List UInt8} {n : Int} (hs : IsLiteral s n) (hr : Ends isDigit r) :
    strtol (s ++ r) = (clampLong n,s.length) := by
  obtain ⟨space,sign,digits,negative,rfl,hspace,hsign,hne,hdigits,rfl⟩ := hs
  obtain ⟨d,ds,rfl⟩ := List.exists_cons_of_ne_nil hne
  have hd : isDigit d = true := hdigits d (by simp)
  have hnotSpace : Ends isSpace (sign ++ (d :: ds ++ r)) := by
    intro c hc
    cases hsign with
    | plus | minus =>
      obtain rfl := Option.some.inj hc
      decide
    | absent =>
      obtain rfl := Option.some.inj hc
      revert hd
      simp only [isDigit, isSpace]
      grind
  have hnotSign : Ends (fun c => c == 43 || c == 45) (d :: ds ++ r) := by
    intro c hc
    obtain rfl := Option.some.inj hc
    revert hd
    simp only [isDigit]
    grind
  have hassoc : space ++ (sign ++ d :: ds) ++ r = space ++ (sign ++ (d :: ds ++ r)) := by simp
  have hread := (span_of_ends hspace hnotSpace).2
  obtain ⟨htake,hdrop⟩ := span_of_ends hdigits hr
  simp only [strtol, hassoc, hread, splitSign_append hsign hnotSign, htake, hdrop]
  simp only [hne, if_false, List.length_append, Prod.mk.injEq, true_and]
  omega

theorem strtol_cases (s : List UInt8) : strtol s = (0,0) ∨
    ∃ l r n, s = l ++ r ∧ IsLiteral l n ∧ strtol s = (clampLong n,l.length) := by
  by_cases hdigits : (splitSign (s.dropWhile isSpace)).2.takeWhile isDigit = []
  · exact Or.inl (by simp only [strtol, hdigits, if_true])
  · obtain ⟨sign,hsplit,hsign⟩ := splitSign_sign (s.dropWhile isSpace)
    have hs : s = s.takeWhile isSpace ++ (sign ++
        (splitSign (s.dropWhile isSpace)).2.takeWhile isDigit) ++
        (splitSign (s.dropWhile isSpace)).2.dropWhile isDigit := by
      rw [List.append_assoc, List.append_assoc, List.takeWhile_append_dropWhile, ← hsplit,
        List.takeWhile_append_dropWhile]
    have hliteral : IsLiteral (s.takeWhile isSpace ++ (sign ++
        (splitSign (s.dropWhile isSpace)).2.takeWhile isDigit)) _ :=
      ⟨_,sign,_,_,rfl,fun c hc => List.mem_takeWhile_imp hc,hsign,hdigits,
        fun c hc => List.mem_takeWhile_imp hc,rfl⟩
    have hread := strtol_literal hliteral
      (ends_dropWhile isDigit (splitSign (s.dropWhile isSpace)).2)
    rw [← hs] at hread
    exact Or.inr ⟨_,_,_,hs,hliteral,hread⟩

theorem IsLiteral.not_stops {l r : List UInt8} {n : Int} (h : IsLiteral l n) :
    ¬ Stops (l ++ r) := by
  obtain ⟨space,sign,digits,negative,rfl,hspace,hsign,hne,hdigits,rfl⟩ := h
  intro hstops
  cases space with
  | cons c space =>
    have hc := hstops c rfl
    simp [hspace c (by simp)] at hc
  | nil =>
    cases hsign with
    | plus => exact absurd (hstops 43 rfl) (by decide)
    | minus => exact absurd (hstops 45 rfl) (by decide)
    | absent =>
      obtain ⟨d,ds,rfl⟩ := List.exists_cons_of_ne_nil hne
      have hd := hstops d rfl
      simp [hdigits d (by simp)] at hd

theorem strtol_stops {s : List UInt8} (h : Stops s) : strtol s = (0,0) := by
  rcases strtol_cases s with h0 | ⟨l,r,n,rfl,hl,-⟩
  · exact h0
  · exact absurd h hl.not_stops

/-- The conversion ends where `r` begins exactly when nothing stands before `r`, or
a literal. -/
theorem strtol_ends_iff {s r : List UInt8} (hr : Stops r) :
    (strtol (s ++ r)).2 = s.length ↔ s = [] ∨ ∃ n, IsLiteral s n := by
  constructor
  · intro h
    rcases strtol_cases (s ++ r) with h0 | ⟨l,r',n,he,hl,hread⟩
    · rw [h0] at h
      exact Or.inl (List.length_eq_zero_iff.mp h.symm)
    · rw [hread] at h
      obtain ⟨rfl,-⟩ := List.append_inj he h.symm
      exact Or.inr ⟨n,hl⟩
  · rintro (rfl | ⟨n,hn⟩)
    · rw [List.nil_append, strtol_stops hr]
      rfl
    · rw [strtol_literal hn hr.digit]

def digits (n : Nat) : List UInt8 :=
  if n < 10 then [UInt8.ofNat (48+n)] else digits (n/10) ++ [UInt8.ofNat (48+n%10)]

theorem isDigit_ofNat {d : Nat} (hd : d < 10) :
    isDigit (UInt8.ofNat (48+d)) = true ∧ (UInt8.ofNat (48+d)).toNat - 48 = d := by
  have hall : ∀ e : Fin 10, isDigit (UInt8.ofNat (48+e)) = true ∧
      (UInt8.ofNat (48+e)).toNat - 48 = e := by decide
  exact hall ⟨d,hd⟩

theorem isDigit_digits (n : Nat) : ∀ c ∈ digits n, isDigit c = true := by
  intro c hc
  rw [digits] at hc
  split at hc
  · rw [List.mem_singleton.mp hc]
    exact (isDigit_ofNat (by omega)).1
  · rcases List.mem_append.mp hc with hc | hc
    · exact isDigit_digits (n/10) c hc
    · rw [List.mem_singleton.mp hc]
      exact (isDigit_ofNat (by omega)).1

theorem ofDigits_digits (n : Nat) : ofDigits (digits n) = n := by
  rw [digits]
  split
  · simpa [ofDigits] using (isDigit_ofNat (by omega)).2
  · rw [ofDigits_concat, ofDigits_digits (n/10), (isDigit_ofNat (by omega)).2]
    omega

theorem digits_ne_nil (n : Nat) : digits n ≠ [] := by
  rw [digits]
  split <;> simp

/-- The digits with zeros in front, up to a width, as `%0*d` prints them. -/
def padded (width n : Nat) : List UInt8 :=
  List.replicate (width - (digits n).length) 48 ++ digits n

theorem isDigit_padded (width n : Nat) : ∀ c ∈ padded width n, isDigit c = true := by
  intro c hc
  rcases List.mem_append.mp hc with hc | hc
  · rw [List.eq_of_mem_replicate hc]
    decide
  · exact isDigit_digits n c hc

theorem ofDigits_zeros (k : Nat) (ds : List UInt8) :
    ofDigits (List.replicate k 48 ++ ds) = ofDigits ds := by
  induction k with
  | zero => rfl
  | succ k ih =>
    rw [List.replicate_succ, List.cons_append]
    exact ih

theorem padded_injective {width m n : Nat} (h : padded width m = padded width n) : m = n := by
  have hvalue := congrArg ofDigits h
  rwa [padded, padded, ofDigits_zeros, ofDigits_zeros, ofDigits_digits, ofDigits_digits] at hvalue

theorem append_sep_inj {sep : UInt8} {a b d e : List UInt8} (hd : sep ∉ d) (he : sep ∉ e)
    (h : a ++ sep :: d = b ++ sep :: e) : a = b ∧ d = e := by
  have hsplit : ∀ {x y : List UInt8}, sep ∉ y →
      (x ++ sep :: y).reverse.takeWhile (· != sep) = y.reverse ∧
        (x ++ sep :: y).reverse.dropWhile (· != sep) = sep :: x.reverse := by
    intro x y hy
    have hrev : (x ++ sep :: y).reverse = y.reverse ++ sep :: x.reverse := by simp
    rw [hrev]
    refine span_of_ends (fun c hc => ?_) fun c hc => ?_
    · have hne : c ≠ sep := fun hsep => hy (hsep ▸ List.mem_reverse.mp hc)
      simpa using hne
    · obtain rfl := Option.some.inj hc
      simp
  obtain ⟨hbehind,hfront⟩ := hsplit (x := a) hd
  rw [h, (hsplit he).2] at hfront
  rw [h, (hsplit he).1] at hbehind
  exact ⟨List.reverse_injective (List.cons.inj hfront).2.symm,
    List.reverse_injective hbehind.symm⟩

end EaHalfHour.DecimalText
