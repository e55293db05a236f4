import Mathlib.Order.Basic
import Mathlib.Order.Nat
import Mathlib.Data.List.Pairwise
import Mathlib.Algebra.GroupWithZero.Nat

/-! Things that lie in a range one behind another, with gaps between them. -/
namespace Intervals

variable {ι α : Type} (start stop : ι → α)

/-- Everything of the list lies between `lo` and `hi`, in the order of the list. -/
def Within [Preorder α] : α → List ι → α → Prop
  | lo, [], hi => lo ≤ hi
  | lo, b :: l, hi => lo ≤ start b ∧ start b ≤ stop b ∧ Within (stop b) l hi

/-- The end of what lies in front of a gap. -/
def edge : α → List ι → α
  | lo, [] => lo
  | _, b :: l => edge (stop b) l

/-- The beginning of what lies behind it. -/
def head (hi : α) : List ι → α
  | [] => hi
  | b :: _ => start b

@[simp] theorem edge_nil (lo : α) : edge stop lo [] = lo := rfl
@[simp] theorem head_nil (hi : α) : head start hi [] = hi := rfl
@[simp] theorem head_cons (hi : α) (b : ι) (l : List ι) : head start hi (b :: l) = start b := rfl

theorem edge_concat (lo : α) (l : List ι) (b : ι) : edge stop lo (l ++ [b]) = stop b := by
  induction l generalizing lo with
  | nil => rfl
  | cons c l ih => exact ih (stop c)

variable [Preorder α] {start stop} {lo hi : α} {front back l : List ι} {a b n : ι}

theorem Within.le (within : Within start stop lo l hi) : lo ≤ hi := by
  induction l generalizing lo with
  | nil => exact within
  | cons b l ih => exact within.1.trans (within.2.1.trans (ih within.2.2))

theorem Within.suffix (within : Within start stop lo (front ++ back) hi) :
    Within start stop (edge stop lo front) back hi := by
  induction front generalizing lo with
  | nil => exact within
  | cons b front ih => exact ih within.2.2

theorem Within.member (within : Within start stop lo l hi) (member : b ∈ l) :
    lo ≤ start b ∧ start b ≤ stop b ∧ stop b ≤ hi := by
  induction l generalizing lo with
  | nil => cases member
  | cons c l ih =>
    obtain ⟨first,size,rest⟩ := within
    rcases List.mem_cons.mp member with rfl | later
    · exact ⟨first,size,rest.le⟩
    · obtain ⟨lower,there⟩ := ih rest later
      exact ⟨first.trans (size.trans lower),there⟩

theorem Within.pairwise (within : Within start stop lo l hi) : l.Pairwise fun a b => stop a ≤ start b := by
  induction l generalizing lo with
  | nil => exact .nil
  | cons b l ih => exact .cons (fun c later => (within.2.2.member later).1) (ih within.2.2)

/-- Something that fits into a gap. -/
theorem Within.insert (within : Within start stop lo (front ++ back) hi) (after : edge stop lo front ≤ start n)
    (size : start n ≤ stop n) (before : stop n ≤ head start hi back) :
    Within start stop lo (front ++ n :: back) hi := by
  induction front generalizing lo with
  | nil =>
    refine ⟨after,size,?_⟩
    cases back with
    | nil => exact before
    | cons b back => exact ⟨before,within.2⟩
  | cons b front ih => exact ⟨within.1,within.2.1,ih within.2.2 after⟩

theorem Within.remove (within : Within start stop lo (front ++ n :: back) hi) :
    Within start stop lo (front ++ back) hi := by
  induction front generalizing lo with
  | nil =>
    obtain ⟨first,size,rest⟩ := within
    cases back with
    | nil => exact first.trans (size.trans rest)
    | cons b back => exact ⟨first.trans (size.trans rest.1),rest.2⟩
  | cons b front ih => exact ⟨within.1,within.2.1,ih within.2.2⟩

/-- Other things in the same places. -/
theorem Within.congr {l' : List ι} (within : Within start stop lo l hi) (starts : l'.map start = l.map start)
    (stops : l'.map stop = l.map stop) : Within start stop lo l' hi := by
  induction l generalizing lo l' with
  | nil =>
    obtain rfl := List.map_eq_nil_iff.mp starts
    exact within
  | cons b l ih =>
    obtain ⟨b',l',rfl,first,rest⟩ := List.map_eq_cons_iff.mp starts
    obtain ⟨last,behind⟩ := List.cons.inj stops
    obtain ⟨lower,size,tail⟩ := within
    refine ⟨first ▸ lower,?_,?_⟩
    · rw [first,last]
      exact size
    · rw [last]
      exact ih tail rest behind

/-- What lies in a range is not larger than the range. -/
theorem Within.sum_le {start stop : ι → Nat} {lo hi : Nat} (within : Within start stop lo l hi) :
    lo + (l.map fun b => stop b - start b).sum ≤ hi := by
  induction l generalizing lo with
  | nil => exact within
  | cons b l ih =>
    obtain ⟨first,size,rest⟩ := within
    have tail := ih rest
    rw [List.map_cons,List.sum_cons]
    omega

end Intervals
