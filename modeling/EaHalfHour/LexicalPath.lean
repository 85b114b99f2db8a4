import Mathlib.Data.List.Induction
import Mathlib.Data.List.Basic

/-! File paths up to their lexical normal form, and when a path followed from a
directory stays below it. Nothing here reads a file system. -/
namespace EaHalfHour.LexicalPath

inductive Seg (α : Type*) where
  | up
  | into (name : α)
deriving DecidableEq

inductive Base where
  | root
  | above (ups : Nat)
deriving DecidableEq

def Base.climb : Base → Nat → Base
  | .root, _ => .root
  | .above n, k => .above (n+k)

structure Place (α : Type*) where
  base : Base
  names : List α
deriving DecidableEq

structure Relative (α : Type*) where
  ups : Nat
  names : List α
deriving DecidableEq

section Names
variable {α : Type*}

def Place.step (p : Place α) : Seg α → Place α
  | .into name => { p with names := p.names ++ [name] }
  | .up => if p.names = [] then { p with base := p.base.climb 1 }
    else { p with names := p.names.dropLast }

def Place.follow (p : Place α) (segs : List (Seg α)) : Place α := segs.foldl Place.step p

def Relative.step (r : Relative α) : Seg α → Relative α
  | .into name => { r with names := r.names ++ [name] }
  | .up => if r.names = [] then { r with ups := r.ups+1 }
    else { r with names := r.names.dropLast }

def relative (segs : List (Seg α)) : Relative α := segs.foldl Relative.step ⟨0,[]⟩

/-- First up, then down. -/
def Place.append (p : Place α) (r : Relative α) : Place α where
  base := p.base.climb (r.ups - p.names.length)
  names := p.names.take (p.names.length - r.ups) ++ r.names

def Below (root p : Place α) : Prop := root.base = p.base ∧ root.names <+: p.names

instance [DecidableEq α] (root p : Place α) : Decidable (Below root p) :=
  inferInstanceAs (Decidable (_ ∧ _))

theorem Base.climb_climb (b : Base) (m n : Nat) : (b.climb m).climb n = b.climb (m+n) := by
  cases b with
  | root => rfl
  | above k => exact congrArg Base.above (Nat.add_assoc k m n)

theorem Base.climb_zero (b : Base) : b.climb 0 = b := by
  cases b <;> rfl

theorem Base.climb_eq_iff (b : Base) (n : Nat) : b = b.climb n ↔ b = .root ∨ n = 0 := by
  cases b with
  | root => simp [Base.climb]
  | above k => simp [Base.climb]

theorem Place.append_step (p : Place α) (r : Relative α) (s : Seg α) :
    (p.append r).step s = p.append (r.step s) := by
  cases s with
  | into name => simp [Place.step, Relative.step, Place.append]
  | up =>
    by_cases hr : r.names = []
    · by_cases hlt : r.ups < p.names.length
      · -- the last name that is left of the directory goes
        have htake : p.names.take (p.names.length - r.ups) ≠ [] := by
          simp only [ne_eq, List.take_eq_nil_iff, not_or]
          exact ⟨by omega,fun h => by simp [h] at hlt⟩
        have hdrop : (p.names.take (p.names.length - r.ups)).dropLast =
            p.names.take (p.names.length - (r.ups+1)) := by
          rw [List.dropLast_eq_take, List.take_take, List.length_take]
          congr 1
          omega
        have hups : r.ups + 1 - p.names.length = r.ups - p.names.length := by omega
        simp [Place.step, Relative.step, Place.append, hr, htake, hdrop, hups]
      · have htake : p.names.length - r.ups = 0 := by omega
        have htake' : p.names.length - (r.ups+1) = 0 := by omega
        have hups : r.ups + 1 - p.names.length = r.ups - p.names.length + 1 := by omega
        simp [Place.step, Relative.step, Place.append, hr, htake, htake', hups, Base.climb_climb]
    · have hne : p.names.take (p.names.length - r.ups) ++ r.names ≠ [] := by simp [hr]
      simp [Place.step, Relative.step, Place.append, hr, hne, List.dropLast_append_of_ne_nil hr]

theorem Place.follow_eq (p : Place α) (segs : List (Seg α)) :
    p.follow segs = p.append (relative segs) := by
  induction segs using List.reverseRecOn with
  | nil => simp [Place.follow, relative, Place.append, Base.climb_zero]
  | append_singleton segs s ih =>
    rw [Place.follow, List.foldl_append, List.foldl_cons, List.foldl_nil]
    rw [Place.follow] at ih
    rw [ih, Place.append_step, relative, relative, List.foldl_append]
    rfl

theorem relative_ups_eq_zero {segs : List (Seg α)} (h : Seg.up ∉ segs) :
    (relative segs).ups = 0 := by
  induction segs using List.reverseRecOn with
  | nil => rfl
  | append_singleton segs s ih =>
    simp only [List.mem_append, List.mem_singleton, not_or] at h
    rw [relative, List.foldl_append]
    cases s with
    | up => exact absurd rfl h.2
    | into name => exact ih h.1

theorem Place.follow_append (p : Place α) (u v : List (Seg α)) :
    p.follow (u ++ v) = (p.follow u).follow v :=
  List.foldl_append

/-- A normal path stays below the directory it is followed from exactly when it does not
climb out of it, or comes back through the names it climbed over. -/
theorem below_append_iff (root : Place α) (r : Relative α) : Below root (root.append r) ↔
    (root.base = .root ∨ r.ups ≤ root.names.length) ∧
      root.names.drop (root.names.length - r.ups) <+: r.names := by
  unfold Below Place.append
  refine and_congr ?_ ?_
  · rw [Base.climb_eq_iff]
    exact or_congr_right Nat.sub_eq_zero_iff_le
  · conv_lhs => arg 1; rw [← List.take_append_drop (root.names.length - r.ups) root.names]
    exact List.prefix_append_right_inj _

end Names

/-! The same for paths as byte strings, with `/` between the segments. -/

def isAbsolute (p : List UInt8) : Bool := p.head? == some 47

def seg? (s : List UInt8) : Option (Seg (List UInt8)) :=
  if s = [] ∨ s = [46] then none
  else if s = [46,46] then some .up
  else some (.into s)

def segs (p : List UInt8) : List (Seg (List UInt8)) := (p.splitOn 47).filterMap seg?

def lexicallyNormal (p : List UInt8) : Place (List UInt8) :=
  (⟨if isAbsolute p then .root else .above 0,[]⟩ : Place _).follow (segs p)

/-- `operator/` of std::filesystem::path. An absolute right side replaces the left one;
a separator is put between them unless the left one is empty or ends in one. -/
def join (p q : List UInt8) : List UInt8 :=
  if isAbsolute q then q
  else if p.getLast?.all (· == 47) then p ++ q
  else p ++ 47 :: q

def filename (p : List UInt8) : List UInt8 := (p.reverse.takeWhile (· != 47)).reverse

/-- From the last dot of the file name on; a dot at its beginning starts none. -/
def extension (p : List UInt8) : List UInt8 :=
  let name := filename p
  match name.reverse.findIdx? (· == 46) with
  | none => []
  | some i => if name = [46,46] ∨ i + 1 = name.length then [] else name.drop (name.length-1-i)

theorem segs_slash (p q : List UInt8) : segs (p ++ 47 :: q) = segs p ++ segs q := by
  simp [segs, List.splitOn_append_cons_self]

theorem segs_join {q : List UInt8} (hq : isAbsolute q = false) (p : List UInt8) :
    segs (join p q) = segs p ++ segs q := by
  unfold join
  rw [if_neg (by simp [hq])]
  rcases List.eq_nil_or_concat' p with rfl | ⟨p,c,rfl⟩
  · rfl
  · by_cases hc : c = 47
    · subst hc
      have hempty : segs [] = [] := by decide
      simp [segs_slash, hempty]
    · simpa [hc] using segs_slash (p ++ [c]) q

theorem isAbsolute_join {q : List UInt8} (hq : isAbsolute q = false) (p : List UInt8) :
    isAbsolute (join p q) = isAbsolute p := by
  unfold join
  rw [if_neg (by simp [hq])]
  cases p with
  | nil => exact hq
  | cons c p => split <;> rfl

theorem lexicallyNormal_join {q : List UInt8} (hq : isAbsolute q = false) (p : List UInt8) :
    lexicallyNormal (join p q) = (lexicallyNormal p).append (relative (segs q)) := by
  rw [lexicallyNormal, isAbsolute_join hq, segs_join hq, Place.follow_append, Place.follow_eq]
  rfl

theorem lexicallyNormal_absolute {q : List UInt8} (hq : isAbsolute q = true) :
    lexicallyNormal q = ⟨.root,(relative (segs q)).names⟩ := by
  rw [lexicallyNormal, hq, Place.follow_eq]
  simp [Place.append, Base.climb]

end EaHalfHour.LexicalPath
