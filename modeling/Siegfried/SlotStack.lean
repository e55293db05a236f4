import Mathlib.Data.List.Perm.Basic
import Mathlib.Logic.Function.Basic

/-! A stack of free slots kept in an array: the slots in `[top, limit)` are free, and
taking one moves `top` up. -/
namespace SlotStack

structure Stack where
  top : Nat
  limit : Nat
  slot : Nat → Nat

variable {s : Stack} {live all : List Nat} {x : Nat}

def Stack.free (s : Stack) : List Nat := (List.range' s.top (s.limit - s.top)).map s.slot

def Stack.pop (s : Stack) : Stack := { s with top := s.top + 1 }

def Stack.push (s : Stack) (x : Nat) : Stack :=
  { s with top := s.top - 1, slot := Function.update s.slot (s.top - 1) x }

theorem free_pop (room : s.top < s.limit) : s.free = s.slot s.top :: s.pop.free := by
  have size : s.limit - s.top = (s.limit - (s.top + 1)) + 1 := by omega
  simp only [Stack.free,Stack.pop,size,List.range'_succ,List.map_cons]

theorem free_push (used : 0 < s.top) (within : s.top ≤ s.limit) :
    (s.push x).free = x :: s.free := by
  have size : s.limit - (s.top - 1) = (s.limit - s.top) + 1 := by omega
  have next : s.top - 1 + 1 = s.top := by omega
  simp only [Stack.free,Stack.push,size,List.range'_succ,next,List.map_cons,Function.update_self]
  congr 1
  apply List.map_congr_left
  intro i member
  have := (List.mem_range'_1.mp member).1
  rw [Function.update_of_ne (by omega)]

/-- The free and the live slots together are `all`, each once. -/
def Covers (s : Stack) (live all : List Nat) : Prop := (s.free ++ live).Perm all

theorem Covers.pop (covers : Covers s live all) (room : s.top < s.limit) :
    Covers s.pop (s.slot s.top :: live) all := by
  unfold Covers at covers ⊢
  rw [free_pop room] at covers
  exact List.perm_middle.trans covers

theorem Covers.push (covers : Covers s (x :: live) all) (used : 0 < s.top)
    (within : s.top ≤ s.limit) : Covers (s.push x) live all := by
  unfold Covers at covers ⊢
  rw [free_push used within]
  exact List.perm_middle.symm.trans covers

theorem Covers.perm {other : List Nat} (covers : Covers s live all) (same : live.Perm other) :
    Covers s other all :=
  (List.Perm.append_left _ same.symm).trans covers

/-- As many slots are live as the stack is short of full. -/
theorem Covers.length (covers : Covers s live all) :
    (s.limit - s.top) + live.length = all.length := by
  simpa [Stack.free] using covers.length_eq

end SlotStack
