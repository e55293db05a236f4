import Mathlib.Data.List.Pairwise
import Mathlib.Data.Option.Basic

/-! Maps from positions to places, given by segments that keep their order. -/
namespace Segments

/-- Positions `first`, `first + 1`, .. are at `place`, `place + 1`, .. -/
structure Segment where
  first : Nat
  size : Nat
  place : Nat

def Segment.Covers (s : Segment) (p : Nat) : Prop := s.first ≤ p ∧ p < s.first + s.size

instance (s : Segment) (p : Nat) : Decidable (s.Covers p) := inferInstanceAs (Decidable (_ ∧ _))

def find (l : List Segment) (p : Nat) : Option Nat :=
  (l.find? fun s => s.Covers p).map fun s => s.place + (p - s.first)

/-- Segments one after another, possibly with gaps. -/
def Sorted (l : List Segment) : Prop := l.Pairwise fun a b => a.first + a.size ≤ b.first

/-- The end of the last segment. -/
def bound : List Segment → Nat
  | [] => 0
  | s :: l => max (s.first + s.size) (bound l)

/-- Segments from `a` to `b` without a gap. -/
def Tiles (a : Nat) : List Segment → Nat → Prop
  | [], b => a = b
  | s :: l, b => s.first = a ∧ Tiles (a + s.size) l b

variable {s : Segment} {l : List Segment} {a b p : Nat}

theorem find_covered (covers : s.Covers p) : find (s :: l) p = some (s.place + (p - s.first)) := by
  simp [find,covers]

theorem find_other (other : ¬s.Covers p) : find (s :: l) p = find l p := by
  simp [find,other]

theorem find_isSome : (find l p).isSome ↔ ∃ s ∈ l, s.Covers p := by
  simp [find]

theorem Segment.Covers.lt_bound (member : s ∈ l) (covers : s.Covers p) : p < bound l := by
  induction l with
  | nil => cases member
  | cons t l ih =>
    rw [bound]
    rcases List.mem_cons.mp member with rfl | member
    · have := covers.2
      omega
    · have := ih member
      omega

/-- The first segment covers what is covered before its end. -/
theorem Sorted.covers_first (sorted : Sorted (s :: l)) (found : (find (s :: l) p).isSome)
    (before : p < s.first + s.size) : s.Covers p := by
  obtain ⟨t,member,covers⟩ := find_isSome.mp found
  rcases List.mem_cons.mp member with rfl | member
  · exact covers
  · have := (List.pairwise_cons.mp sorted).1 t member
    have := covers.1
    omega

theorem Tiles.le (tiles : Tiles a l b) : a ≤ b := by
  induction l generalizing a with
  | nil => exact Nat.le_of_eq tiles
  | cons s l ih =>
    have := ih tiles.2
    omega

theorem Tiles.first_ge (tiles : Tiles a l b) (member : s ∈ l) : a ≤ s.first := by
  induction l generalizing a with
  | nil => cases member
  | cons t l ih =>
    rcases List.mem_cons.mp member with rfl | member
    · exact Nat.le_of_eq tiles.1.symm
    · have := ih tiles.2 member
      omega

theorem Tiles.sorted (tiles : Tiles a l b) : Sorted l := by
  induction l generalizing a with
  | nil => exact .nil
  | cons s l ih =>
    refine List.pairwise_cons.mpr ⟨fun t member => ?_,ih tiles.2⟩
    rw [tiles.1]
    exact tiles.2.first_ge member

theorem Tiles.find (tiles : Tiles a l b) (lower : a ≤ p) (upper : p < b) :
    (find l p).isSome := by
  induction l generalizing a with
  | nil =>
    have : a = b := tiles
    omega
  | cons s l ih =>
    by_cases covers : s.Covers p
    · rw [find_covered covers]
      rfl
    · rw [find_other covers]
      refine ih tiles.2 ?_
      have := tiles.1
      simp only [Segment.Covers,not_and] at covers
      omega

theorem Tiles.bound (tiles : Tiles 0 l b) : bound l = b := by
  have general : ∀ a, Tiles a l b → max a (Segments.bound l) = b := by
    clear tiles
    induction l with
    | nil =>
      intro a tiles
      have : a = b := tiles
      rw [Segments.bound]
      omega
    | cons s l ih =>
      intro a tiles
      have := ih _ tiles.2
      have := tiles.1
      rw [Segments.bound]
      omega
  have := general 0 tiles
  omega

end Segments
