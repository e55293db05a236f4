import Siegfried.HeapGrowth
import Siegfried.UserPages
import Siegfried.FrameRun

/-! The pages left in the page heap when it grows are enough for the page tables that growth
asks for. -/
namespace Siegfried

section Alloc
variable (outOfMemory : Kernel → Option (Kernel × Nat))

end Alloc

/-- The first block has been extended, and has `n` pages left. -/
def Heap.Spare (n : Nat) (h : Heap) : Prop :=
  h.bsize = 4096 ∧ ∃ b rest, h.blocks = b :: rest ∧ b.extended = true ∧ b.top + n ≤ b.max

section Spare
variable {h : Heap} {n : Nat}

theorem Heap.Spare.less (spare : h.Spare (n + 1)) : h.Spare n := by
  obtain ⟨bsize,b,rest,blocks,extended,left⟩ := spare
  exact ⟨bsize,b,rest,blocks,extended,by omega⟩

theorem Heap.Spare.clear (spare : h.Spare n) (lo hi : Nat) : (h.clear lo hi).Spare n := by
  obtain ⟨bsize,b,rest,blocks,extended,left⟩ := spare
  refine ⟨bsize,b.clear lo hi,rest.map (Block.clear lo hi),?_,extended,left⟩
  rw [Heap.clear,blocks]
  rfl

/-- Such a block serves the next page and is not extended for it. -/
theorem Heap.Spare.take (spare : h.Spare (n + 1)) :
    ∃ t, h.take = some t ∧ t.grows = false ∧ t.rest.Spare n := by
  obtain ⟨bsize,b,rest,blocks,extended,left⟩ := spare
  have room : b.top ≠ b.max := by omega
  have taken : h.take = some ⟨(b.take 4096).ptr,(b.take 4096).grows,
      { h with blocks := (b.take 4096).rest :: rest, out := (b.take 4096).ptr :: h.out }⟩ := by
    rw [Heap.take,bsize,blocks,takeFrom,if_pos room]
    rfl
  have low : (b.take 4096).grows = false := by simp [Block.take,extended]
  have flag : (b.take 4096).rest.extended = (b.extended || (b.take 4096).grows) := rfl
  have top : (b.take 4096).rest.top = b.top + 1 := rfl
  refine ⟨_,taken,low,bsize,_,_,rfl,?_,?_⟩
  · rw [flag,extended,Bool.true_or]
  · rw [top]
    have max : (b.take 4096).rest.max = b.max := rfl
    omega

/-- Between calls the first block serves the next page; when it is extended for it, two are
left. -/
theorem PageobjRun.spare {cond : Heap → Prop} (run : PageobjRun cond h []) :
    ∃ t, h.take = some t ∧ (t.grows = true → t.rest.Spare 2) := by
  obtain ⟨grown,_,head⟩ := run.grown
  obtain ⟨b,rest,blocks,flag⟩ := head rfl
  have hb : b ∈ h.blocks := by rw [blocks]; exact List.mem_cons_self ..
  have plenty := grown.flagged b hb flag
  have room : b.top ≠ b.max := by omega
  have bsize := grown.inv.bsize
  have taken : h.take = some ⟨(b.take 4096).ptr,(b.take 4096).grows,
      { h with blocks := (b.take 4096).rest :: rest, out := (b.take 4096).ptr :: h.out }⟩ := by
    rw [Heap.take,bsize,blocks,takeFrom,if_pos room]
    rfl
  refine ⟨_,taken,fun high => ?_⟩
  have high : (b.take 4096).grows = true := high
  have three := ((Block.take_grows (grown.inv.ok b hb) (grown.flagged b hb) room).1.mp high).2
  have flags : (b.take 4096).rest.extended = (b.extended || (b.take 4096).grows) := rfl
  have top : (b.take 4096).rest.top = b.top + 1 := rfl
  have max : (b.take 4096).rest.max = b.max := rfl
  refine ⟨bsize,_,_,rfl,?_,?_⟩
  · rw [flags,high,Bool.or_true]
  · rw [top,max]
    omega

end Spare

section Tables
variable {root : Nat} {bufs roots : List Nat} {k k' : Kernel}

variable {alloc : Kernel → Option (Kernel × Nat)} {h : Heap}

end Tables

end Siegfried
