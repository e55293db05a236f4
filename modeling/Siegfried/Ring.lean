import Mathlib.Data.List.Cycle
import Mathlib.Logic.Function.Basic

/-! Circular singly linked lists: a successor function that leads once around a cycle. -/
namespace Ring

variable {α : Type} {next : α → α} {a b s x y : α} {l mid : List α}

def Around (next : α → α) (c : Cycle α) : Prop := c.Nodup ∧ c.Chain fun a b => next a = b

theorem around_cons : Around next (x :: l : List α) ↔
    (x :: l).Nodup ∧ (x :: (l ++ [x])).IsChain fun a b => next a = b := by
  rw [Around,Cycle.nodup_coe_iff,Cycle.chain_coe_cons]

theorem Around.next_mem {c : Cycle α} (around : Around next c) (member : a ∈ c) : next a ∈ c := by
  induction c using Quotient.inductionOn with | _ l
  obtain ⟨front,back,rfl⟩ := List.append_of_mem (Cycle.mem_coe_iff.mp member)
  have rotated : ((front ++ a :: back : List α) : Cycle α) = (a :: (back ++ front) : List α) :=
    Cycle.coe_eq_coe.mpr ⟨front.length,by simp⟩
  change Around next ((front ++ a :: back : List α) : Cycle α) at around
  change next a ∈ ((front ++ a :: back : List α) : Cycle α)
  rw [rotated] at around ⊢
  have chain := (around_cons.mp around).2
  rw [Cycle.mem_coe_iff]
  cases rest : back ++ front with
  | nil =>
    rw [rest,List.nil_append,List.isChain_cons_cons] at chain
    exact List.mem_singleton.mpr chain.1
  | cons b rest' =>
    rw [rest,List.cons_append,List.isChain_cons_cons] at chain
    simp [← chain.1]

variable [DecidableEq α]

/-- The element before `y`, looked for from an element on. -/
def before (next : α → α) (y : α) : Nat → α → Option α
  | 0, _ => none
  | fuel+1, x => if next x = y then some x else before next y fuel (next x)

theorem before_chain (chain : (x :: (mid ++ [y])).IsChain fun a b => next a = b)
    (fresh : y ∉ mid) : before next y (mid.length + 1) x = some (mid.getLastD x) := by
  induction mid generalizing x with
  | nil =>
    rw [List.nil_append,List.isChain_cons_cons] at chain
    rw [before,if_pos chain.1,List.getLastD_nil]
  | cons a mid ih =>
    rw [List.cons_append,List.isChain_cons_cons] at chain
    have other : next x ≠ y := by
      rw [chain.1]
      exact fun same => fresh (same ▸ List.mem_cons_self ..)
    rw [before,if_neg other,chain.1,List.getLastD_cons]
    exact ih chain.2 fun member => fresh (List.mem_cons_of_mem _ member)

/-- From anywhere in a ring the element before a member is found. -/
theorem Around.before (around : Around next (x :: l : List α)) (start : s ∈ x :: l) :
    ∃ fuel, before next x fuel s = some (l.getLastD x) := by
  obtain ⟨nodup,chain⟩ := around_cons.mp around
  have fresh : x ∉ l := (List.nodup_cons.mp nodup).1
  rcases List.mem_cons.mp start with rfl | member
  · exact ⟨_,before_chain chain fresh⟩
  · obtain ⟨front,back,rfl⟩ := List.append_of_mem member
    have rest : (s :: (back ++ [x])).IsChain fun a b => next a = b :=
      chain.suffix ⟨x :: front,by simp⟩
    have last : (front ++ s :: back).getLastD x = back.getLastD s := by
      simp [List.getLastD_eq_getLast?,List.getLast?_append,List.getLast?_cons]
    rw [last]
    exact ⟨_,before_chain rest fun m => fresh (by simp [m])⟩

/-- A walk that stays among others never finds `y`. -/
theorem before_none {p : α → Prop} (closed : ∀ a, p a → next a ≠ y ∧ p (next a)) (start : p x)
    (fuel : Nat) : Ring.before next y fuel x = none := by
  induction fuel generalizing x with
  | zero => rfl
  | succ fuel ih =>
    rw [Ring.before,if_neg (closed x start).1]
    exact ih (closed x start).2

theorem before_mono {fuel fuel' : Nat} (le : fuel ≤ fuel')
    (found : Ring.before next y fuel x = some a) : Ring.before next y fuel' x = some a := by
  induction fuel generalizing x fuel' with
  | zero => cases found
  | succ fuel ih =>
    cases fuel' with
    | zero => cases le
    | succ fuel' =>
      rw [Ring.before] at found ⊢
      split at found
      · next last => rw [if_pos last,found]
      · next other => rw [if_neg other,ih (Nat.le_of_succ_le_succ le) found]

theorem before_unique {fuel fuel' : Nat} (found : Ring.before next y fuel x = some a)
    (found' : Ring.before next y fuel' x = some b) : a = b := by
  have lower := before_mono (Nat.le_max_left fuel fuel') found
  rw [before_mono (Nat.le_max_right fuel fuel') found'] at lower
  exact (Option.some.inj lower).symm

omit [DecidableEq α] in
theorem getLastD_mem (a : α) (l : List α) : l.getLastD a ∈ a :: l := by
  induction l generalizing a with
  | nil => exact List.mem_cons_self ..
  | cons b l ih =>
    rw [List.getLastD_cons]
    exact List.mem_cons_of_mem _ (ih b)

/-- Leading the last of a chain elsewhere. -/
theorem chain_redirect (b : α) (chain : (a :: (l ++ [x])).IsChain fun a b => next a = b)
    (nodup : (a :: l).Nodup) :
    (a :: (l ++ [b])).IsChain fun c d => Function.update next (l.getLastD a) b c = d := by
  induction l generalizing a with
  | nil =>
    rw [List.nil_append,List.isChain_pair,List.getLastD_nil,Function.update_self]
  | cons c l ih =>
    rw [List.cons_append,List.isChain_cons_cons] at chain ⊢
    obtain ⟨fresh,nodup⟩ := List.nodup_cons.mp nodup
    rw [List.getLastD_cons]
    refine ⟨?_,ih chain.2 nodup⟩
    rw [Function.update_of_ne (ne_of_mem_of_not_mem (getLastD_mem c l) fresh).symm,chain.1]

/-- Unlinking `x` leaves a ring of the others. -/
theorem Around.unlink (around : Around next (x :: l : List α)) (others : l ≠ []) :
    Around (Function.update next (l.getLastD x) (next x)) (l : Cycle α) := by
  obtain ⟨nodup,chain⟩ := around_cons.mp around
  cases l with
  | nil => exact absurd rfl others
  | cons a l =>
    rw [List.cons_append,List.isChain_cons_cons] at chain
    have nodup := (List.nodup_cons.mp nodup).2
    rw [List.getLastD_cons,chain.1]
    exact around_cons.mpr ⟨nodup,chain_redirect a chain.2 nodup⟩

/-- Linking `y` in before `x`. -/
theorem Around.link (around : Around next (x :: l : List α)) (fresh : y ∉ x :: l) :
    Around (Function.update (Function.update next (l.getLastD x) y) y x)
      (x :: (l ++ [y]) : List α) := by
  obtain ⟨nodup,chain⟩ := around_cons.mp around
  have nodup' : (x :: (l ++ [y])).Nodup := by
    rw [← List.cons_append]
    exact nodup.append (List.nodup_singleton y) (by simpa [List.disjoint_singleton] using fresh)
  have linked := chain_redirect y chain nodup
  refine around_cons.mpr ⟨nodup',?_⟩
  generalize Function.update next (l.getLastD x) y = f at linked ⊢
  have extended : (x :: ((l ++ [y]) ++ [f y])).IsChain fun c d => f c = d := by
    rw [← List.cons_append]
    refine List.isChain_append.mpr ⟨linked,List.isChain_singleton _,?_⟩
    intro c last d first
    rw [← List.cons_append,List.getLast?_concat] at last
    cases last
    exact Option.some.inj first
  have closed := chain_redirect x extended nodup'
  rwa [List.getLastD_concat] at closed

end Ring
