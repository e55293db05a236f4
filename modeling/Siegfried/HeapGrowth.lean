import Siegfried.PageHeap
import Mathlib.Algebra.BigOperators.Group.List.Basic
import Mathlib.Algebra.Order.BigOperators.Group.List
import Mathlib.Algebra.GroupWithZero.Nat

/-! When the page heap grows, over runs of `k_pageobj_alloc` and `k_pageobj_free` in which
the calls that growth makes itself come in between. -/
namespace Siegfried

/-- The free pages of a block. -/
def Block.left (b : Block) : Nat := b.max - b.top

def Heap.left (h : Heap) : Nat := (h.blocks.map Block.left).sum

/-- The heap that `k_pageobj_heap_setup` leaves, after calls that satisfy `cond`, each in the
heap before it. `pending` are the pages, with the sizes asked for, of calls that are extending
the heap: `page_find_and_alloc(2)` has been called and may call `k_pageobj_alloc`. -/
inductive PageobjRun (cond : Heap → Prop) : Heap → List (Nat × Nat) → Prop where
  | setup {base : Nat} (region : (kPageobjInitHeap 4096).Region base 0x800000) :
      PageobjRun cond (kPageobjAddHeapblk (kPageobjInitHeap 4096) base 0x800000) []
  | alloc {h : Heap} {pending : List (Nat × Nat)} {t : Taken Heap} {size : Nat}
      (before : PageobjRun cond h pending) (ok : cond h) (small : size ≤ 4096)
      (taken : h.take = some t) (low : t.grows = false) :
      PageobjRun cond (t.rest.clear t.ptr (t.ptr + size)) pending
  | grow {h : Heap} {pending : List (Nat × Nat)} {t : Taken Heap} {size : Nat}
      (before : PageobjRun cond h pending) (ok : cond h) (small : size ≤ 4096)
      (taken : h.take = some t) (low : t.grows = true) :
      PageobjRun cond t.rest ((t.ptr,size) :: pending)
  | extend {h : Heap} {pending : List (Nat × Nat)} {ptr size addr : Nat}
      (before : PageobjRun cond h ((ptr,size) :: pending)) (region : h.Region addr (2097152 * 2)) :
      PageobjRun cond ((kPageobjAddHeapblk h addr (2097152 * 2)).clear ptr (ptr + size)) pending
  | free {h : Heap} {p : Nat} (before : PageobjRun cond h []) (live : p ∈ h.out) :
      PageobjRun cond (h.free p) []

/-- A call that extends the heap leaves fewer than 3 pages free in all blocks. -/
def GrowsLast (h : Heap) : Prop := ∀ t, h.take = some t → t.grows = true → t.rest.left < 3

/-- When the block that the next page comes from has three left, and has not been extended,
the blocks behind it are full. -/
def LastBlock (h : Heap) : Prop :=
  ∀ before b after, h.blocks = before ++ b :: after → (∀ c ∈ before, c.top = c.max) →
    b.extended = false → b.top + 3 = b.max → ∀ c ∈ after, c.top = c.max

/-- What holds of the blocks over every run: a block with fewer than three pages left has
been extended. -/
structure Heap.Grown (h : Heap) : Prop where
  inv : h.Inv
  sizes : ∀ b ∈ h.blocks, b.size = 0x800000 ∨ b.size = 0x400000
  flagged : ∀ b ∈ h.blocks, b.extended = false → b.top + 3 ≤ b.max

section Block
variable {out : List Nat} {b : Block}

theorem Block.Ok.small (ok : b.Ok out) : b.max < 2^32 := by
  have := ok.fits
  omega

/-- The call extends the heap when it leaves two pages. -/
theorem Block.take_grows (ok : b.Ok out) (flagged : b.extended = false → b.top + 3 ≤ b.max)
    (room : b.top ≠ b.max) :
    ((b.take 4096).grows = true ↔ b.extended = false ∧ b.top + 3 = b.max) ∧
      ((b.take 4096).rest.extended = false → b.top + 1 + 3 ≤ b.max) := by
  have upper := ok.upper
  have small := ok.small
  have left : (b.max + 2^32 - (b.top + 1)) % 2^32 = b.max - (b.top + 1) := by omega
  cases extended : b.extended with
  | true => simp [Block.take,extended]
  | false =>
    have plenty := flagged extended
    simp only [Block.take,extended,left,Bool.not_false,Bool.and_true,Bool.false_or,decide_eq_true_eq,
      decide_eq_false_iff_not,true_and]
    omega

/-- A block has as many pages as its free ones and its live ones. -/
theorem Block.Ok.count (ok : b.Ok out) :
    b.left + (b.offsets out).length = b.max - slotres 4096 b.max := by
  have count := ok.covers.length
  simpa only [Block.slots,Block.range,Block.left,List.length_map,List.length_range'] using count

end Block

section Heap
variable {h : Heap} {t : Taken Heap} {p : Nat}

theorem Heap.Grown.take (grown : h.Grown) (taken : h.take = some t) : t.rest.Grown := by
  have inv := grown.inv.take taken
  obtain ⟨blocks,bsize,out⟩ := h
  obtain rfl : bsize = 4096 := grown.inv.bsize
  obtain ⟨before,b,after,split,_,room,rfl⟩ := take_some taken
  have member : b ∈ blocks := by rw [show blocks = _ from split]; simp
  have others (c : Block) (hc : c ∈ before ++ (b.take 4096).rest :: after) :
      c ∈ blocks ∨ c = (b.take 4096).rest := by
    rw [show blocks = _ from split]
    simp only [List.mem_append,List.mem_cons] at hc ⊢
    rcases hc with hc | rfl | hc
    · exact .inl (.inl hc)
    · exact .inr rfl
    · exact .inl (.inr (.inr hc))
  refine ⟨inv,fun c hc => ?_,fun c hc => ?_⟩
  · rcases others c hc with hc | rfl
    · exact grown.sizes c hc
    · exact grown.sizes b member
  · rcases others c hc with hc | rfl
    · exact grown.flagged c hc
    · exact (Block.take_grows (grown.inv.ok b member) (grown.flagged b member) room).2

theorem Heap.Grown.clear (grown : h.Grown) (member : p ∈ h.out) {size : Nat} (small : size ≤ 4096) :
    (h.clear p (p + size)).Grown := by
  refine ⟨grown.inv.clear member small,fun c hc => ?_,fun c hc => ?_⟩
  · obtain ⟨d,hd,rfl⟩ := List.mem_map.mp hc
    exact grown.sizes d hd
  · obtain ⟨d,hd,rfl⟩ := List.mem_map.mp hc
    exact grown.flagged d hd

theorem Heap.Grown.add (grown : h.Grown) {addr size : Nat} (region : h.Region addr size)
    (of_size : size = 0x800000 ∨ size = 0x400000) : (kPageobjAddHeapblk h addr size).Grown := by
  have bsize := grown.inv.bsize
  have fits : Fits size := by
    rcases of_size with rfl | rfl <;> decide
  have room : slotres 4096 ((size + 2^64 - 4096) % 2^64 / 4096 % 2^32) + 3 ≤
      (size + 2^64 - 4096) % 2^64 / 4096 % 2^32 := by
    rcases of_size with rfl | rfl <;> decide
  rw [← bsize] at room
  exact ⟨grown.inv.add region fits,List.forall_mem_cons.mpr ⟨of_size,grown.sizes⟩,
    List.forall_mem_cons.mpr ⟨fun _ => room,grown.flagged⟩⟩

/-- Giving a page back takes no block away. -/
theorem Heap.Grown.free_blocks (grown : h.Grown) (live : p ∈ h.out) : ∃ before b after,
    h.blocks = before ++ b :: after ∧ 0 < b.top ∧
      (h.free p).blocks = resetHead (before ++ b.give 4096 p :: after) := by
  obtain ⟨blocks,bsize,out⟩ := h
  obtain rfl : bsize = 4096 := grown.inv.bsize
  obtain ⟨b,hb,holds⟩ := grown.inv.within p live
  obtain ⟨before,after,split⟩ := List.append_of_mem hb
  have any : blocks.any (·.holds p) = true := List.any_eq_true.mpr ⟨b,hb,holds⟩
  have loose : (b.give 4096 p).empties = false := by
    have size : (b.give 4096 p).size = b.size := rfl
    simp only [Block.empties,size,Bool.and_eq_false_iff,decide_eq_false_iff_not]
    rcases grown.sizes b hb with same | same <;> exact .inl (by rw [same]; decide)
  have target : (giveTo 4096 p blocks).1 = before ++ b.give 4096 p :: after := by
    rw [show blocks = before ++ b :: after from split,giveTo_split (grown.inv.holder split holds).1 holds,
      loose]
    rfl
  refine ⟨before,b,after,split,?_,?_⟩
  · have lower := (grown.inv.ok b hb).lower
    have reserved : 0 < slotres 4096 b.max := by
      rw [(grown.inv.ok b hb).max]
      rcases grown.sizes b hb with same | same <;> rw [same] <;> decide
    omega
  · simp only [Heap.free,any,if_true,target]

theorem resetHead_mem {bs : List Block} {c : Block} (hc : c ∈ resetHead bs) :
    ∃ d ∈ bs, c.size = d.size ∧ c.top = d.top ∧ c.max = d.max ∧
      (c.extended = d.extended ∨ 3 ≤ (d.max + 2^32 - d.top) % 2^32) := by
  cases bs with
  | nil => cases hc
  | cons b bs =>
    simp only [resetHead] at hc
    rcases List.mem_cons.mp hc with rfl | hc
    · refine ⟨b,List.mem_cons_self ..,?_⟩
      split
      · next plenty => exact ⟨rfl,rfl,rfl,.inr plenty⟩
      · exact ⟨rfl,rfl,rfl,.inl rfl⟩
    · exact ⟨c,List.mem_cons_of_mem _ hc,rfl,rfl,rfl,.inl rfl⟩

theorem Heap.Grown.free (grown : h.Grown) (live : p ∈ h.out) : (h.free p).Grown := by
  have inv := grown.inv.free live
  obtain ⟨before,b,after,split,some,blocks⟩ := grown.free_blocks live
  have member : b ∈ h.blocks := by rw [split]; simp
  have given : (b.give 4096 p).top = b.top - 1 := if_neg (by omega)
  have before_reset (d : Block) (hd : d ∈ before ++ b.give 4096 p :: after) :
      (d.size = 0x800000 ∨ d.size = 0x400000) ∧ (d.extended = false → d.top + 3 ≤ d.max) := by
    simp only [List.mem_append,List.mem_cons] at hd
    rcases hd with hd | rfl | hd
    · have hd : d ∈ h.blocks := by rw [split]; simp [hd]
      exact ⟨grown.sizes d hd,grown.flagged d hd⟩
    · refine ⟨grown.sizes b member,fun extended => ?_⟩
      have plenty := grown.flagged b member extended
      rw [given]
      exact Nat.le_trans (by omega) plenty
    · have hd : d ∈ h.blocks := by rw [split]; simp [hd]
      exact ⟨grown.sizes d hd,grown.flagged d hd⟩
  refine ⟨inv,fun c hc => ?_,fun c hc extended => ?_⟩
  · rw [blocks] at hc
    obtain ⟨d,hd,size,_⟩ := resetHead_mem hc
    rw [size]
    exact (before_reset d hd).1
  · have ok := inv.ok c hc
    rw [blocks] at hc
    obtain ⟨d,hd,_,top,max,flag⟩ := resetHead_mem hc
    rcases flag with same | plenty
    · rw [top,max]
      exact (before_reset d hd).2 (same.symm.trans extended)
    · rw [← top,← max] at plenty
      have upper := ok.upper
      have small := ok.small
      omega

/-- Every page is free, or live in one block. -/
theorem Heap.Inv.count (inv : h.Inv) :
    h.left + h.out.length = (h.blocks.map fun b => b.max - slotres 4096 b.max).sum := by
  have once (p : Nat) (hp : p ∈ h.out) : h.blocks.countP (·.holds p) = 1 := by
    obtain ⟨b,hb,holds⟩ := inv.within p hp
    obtain ⟨before,after,split⟩ := List.append_of_mem hb
    obtain ⟨front,back⟩ := inv.holder split holds
    rw [split,List.countP_append,List.countP_cons,holds,
      List.countP_eq_zero.mpr fun c hc => by simp [front c hc],
      List.countP_eq_zero.mpr fun c hc => by simp [back c hc]]
    rfl
  have counted (p : Nat) (bs : List Block) :
      (bs.map fun b => if b.holds p then 1 else 0).sum = bs.countP (·.holds p) := by
    induction bs with
    | nil => rfl
    | cons b bs ih => rw [List.map_cons,List.sum_cons,List.countP_cons,ih,Nat.add_comm]
  have live (out : List Nat) (bs : List Block) (once : ∀ p ∈ out, bs.countP (·.holds p) = 1) :
      (bs.map fun b => (b.offsets out).length).sum = out.length := by
    induction out with
    | nil => simp [Block.offsets]
    | cons p out ih =>
      have more (b : Block) : (b.offsets (p :: out)).length =
          (b.offsets out).length + if b.holds p then 1 else 0 := by
        cases holds : b.holds p <;> simp [Block.offsets,holds]
      simp only [more,List.sum_map_add]
      rw [ih fun q hq => once q (List.mem_cons_of_mem _ hq),List.length_cons,counted,
        once p (List.mem_cons_self ..)]
  rw [Heap.left,← live h.out h.blocks once,← List.sum_map_add]
  exact congrArg List.sum (List.map_congr_left fun b hb => (inv.ok b hb).count)

/-- A block of the page heap has room for 1021 pages at least. -/
theorem Heap.Grown.capacity (grown : h.Grown) : h.blocks.length * 1021 ≤ h.left + h.out.length := by
  rw [grown.inv.count]
  have each (b : Block) (hb : b ∈ h.blocks) : 1021 ≤ b.max - slotres 4096 b.max := by
    rw [(grown.inv.ok b hb).max]
    rcases grown.sizes b hb with same | same <;> rw [same]
    · exact Nat.le_of_ble_eq_true rfl
    · exact Nat.le_of_ble_eq_true rfl
  generalize h.blocks = bs at each
  induction bs with
  | nil => exact Nat.le_of_eq (Nat.zero_mul 1021)
  | cons b bs ih =>
    have first := each b (List.mem_cons_self ..)
    have rest := ih fun c hc => each c (List.mem_cons_of_mem _ hc)
    rw [List.length_cons,List.map_cons,List.sum_cons,Nat.add_mul,Nat.one_mul,Nat.add_comm]
    exact Nat.add_le_add first rest

theorem left_full {bs : List Block} (full : ∀ c ∈ bs, c.top = c.max) : (bs.map Block.left).sum = 0 := by
  refine List.sum_eq_zero fun n hn => ?_
  obtain ⟨c,hc,rfl⟩ := List.mem_map.mp hn
  rw [Block.left,full c hc,Nat.sub_self]

/-- A call that extends the heap leaves as few pages as it should when the blocks behind the
one it takes the page from are full, and only then. -/
theorem growsLast_iff (grown : h.Grown) : GrowsLast h ↔ LastBlock h := by
  have bsize := grown.inv.bsize
  constructor
  · intro grows before b after split front extended three c hc
    have hb : b ∈ h.blocks := by rw [split]; simp
    have room : b.top ≠ b.max := by omega
    have taken : h.take = some ⟨(b.take 4096).ptr,(b.take 4096).grows,
        { h with blocks := before ++ (b.take 4096).rest :: after, out := (b.take 4096).ptr :: h.out }⟩ := by
      have search : takeFrom 4096 (before ++ b :: after) = some ⟨(b.take 4096).ptr,(b.take 4096).grows,
          before ++ (b.take 4096).rest :: after⟩ := by
        clear split
        induction before with
        | nil => rw [List.nil_append,takeFrom,if_pos room]; rfl
        | cons d before ih =>
          have full : ¬d.top ≠ d.max := fun other => other (front d (List.mem_cons_self ..))
          rw [List.cons_append,takeFrom,if_neg full,ih fun e he => front e (List.mem_cons_of_mem _ he)]
          rfl
      rw [Heap.take,bsize,split,search]
      rfl
    have few := grows _ taken
      ((Block.take_grows (grown.inv.ok b hb) (grown.flagged b hb) room).1.mpr ⟨extended,three⟩)
    have two : (b.take 4096).rest.left = 2 := by
      simp only [Block.left,Block.take]
      omega
    simp only [Heap.left,List.map_append,List.map_cons,List.sum_append,List.sum_cons,two] at few
    have none : c.left ≤ (after.map Block.left).sum := by
      obtain ⟨front,back,rfl⟩ := List.append_of_mem hc
      simp only [List.map_append,List.map_cons,List.sum_append,List.sum_cons]
      omega
    have upper := (grown.inv.ok c (by rw [split]; simp [hc])).upper
    simp only [Block.left] at none few
    omega
  · intro last t taken grows
    obtain ⟨before,b,after,split,front,room,rfl⟩ := take_some taken
    have hb : b ∈ h.blocks := by rw [split]; simp
    rw [bsize] at grows
    obtain ⟨extended,three⟩ := (Block.take_grows (grown.inv.ok b hb) (grown.flagged b hb) room).1.mp grows
    have back := last before b after split front extended three
    have two : (b.take 4096).rest.left = 2 := by
      simp only [Block.left,Block.take]
      omega
    simp only [Heap.left,bsize,List.map_append,List.map_cons,List.sum_append,List.sum_cons,two,left_full front,
      left_full back]
    omega

end Heap

section Run
variable {cond : Heap → Prop} {h : Heap} {pending : List (Nat × Nat)}

/-- Over every run the blocks are in order; between calls the first has not been extended. -/
theorem PageobjRun.grown (run : PageobjRun cond h pending) : h.Grown ∧
    (∀ q ∈ pending, q.1 ∈ h.out ∧ q.2 ≤ 4096) ∧
    (pending = [] → ∃ b rest, h.blocks = b :: rest ∧ b.extended = false) := by
  induction run with
  | setup region =>
    have empty : (kPageobjInitHeap 4096).Grown :=
      ⟨HeapRun.init.inv,fun _ hb => absurd hb List.not_mem_nil,fun _ hb => absurd hb List.not_mem_nil⟩
    exact ⟨empty.add region (.inl rfl),fun _ hq => absurd hq List.not_mem_nil,fun _ => ⟨_,_,rfl,rfl⟩⟩
  | @alloc h pending t size before ok small taken low ih =>
    obtain ⟨grown,inside,head⟩ := ih
    have out := take_out taken
    refine ⟨(grown.take taken).clear (out ▸ List.mem_cons_self ..) small,fun q hq => ?_,fun none => ?_⟩
    · exact ⟨out ▸ List.mem_cons_of_mem _ (inside q hq).1,(inside q hq).2⟩
    · obtain ⟨b,rest,blocks,flag⟩ := head none
      have hb : b ∈ h.blocks := by rw [blocks]; exact List.mem_cons_self ..
      have plenty := grown.flagged b hb flag
      have room : b.top ≠ b.max := by omega
      simp only [Heap.take,blocks,takeFrom,if_pos room,Option.map_some,Option.some.injEq] at taken
      subst taken
      refine ⟨_,_,rfl,?_⟩
      have low : (b.take h.bsize).grows = false := low
      have kept : (b.take h.bsize).rest.extended = (b.extended || (b.take h.bsize).grows) := rfl
      show (b.take h.bsize).rest.extended = false
      rw [kept,flag,low]
      rfl
  | @grow h pending t size before ok small taken high ih =>
    obtain ⟨grown,inside,_⟩ := ih
    have out := take_out taken
    refine ⟨grown.take taken,List.forall_mem_cons.mpr ⟨⟨out ▸ List.mem_cons_self ..,small⟩,fun q hq => ?_⟩,
      fun none => absurd none (List.cons_ne_nil _ _)⟩
    exact ⟨out ▸ List.mem_cons_of_mem _ (inside q hq).1,(inside q hq).2⟩
  | @extend h pending ptr size addr before region ih =>
    obtain ⟨grown,inside,_⟩ := ih
    obtain ⟨member,small⟩ := inside (ptr,size) (List.mem_cons_self ..)
    exact ⟨(grown.add region (.inr rfl)).clear member small,fun q hq => inside q (List.mem_cons_of_mem _ hq),
      fun _ => ⟨_,_,rfl,rfl⟩⟩
  | @free h p before live ih =>
    obtain ⟨grown,_,head⟩ := ih
    refine ⟨grown.free live,fun _ hq => absurd hq List.not_mem_nil,fun _ => ?_⟩
    obtain ⟨b,rest,blocks,flag⟩ := head rfl
    obtain ⟨front,c,after,split,_,after_free⟩ := grown.free_blocks live
    have reset (d : Block) (ds : List Block) (unset : d.extended = false) :
        ∃ b rest, resetHead (d :: ds) = b :: rest ∧ b.extended = false := by
      refine ⟨_,_,rfl,?_⟩
      split
      · rfl
      · exact unset
    rw [after_free]
    rw [blocks] at split
    cases front with
    | nil =>
      obtain ⟨rfl,rfl⟩ := List.cons.inj split
      exact reset _ _ flag
    | cons d front =>
      obtain ⟨rfl,_⟩ := List.cons.inj split
      exact reset _ _ flag

theorem added_length (h : Heap) (addr size : Nat) :
    (kPageobjAddHeapblk h addr size).blocks.length = h.blocks.length + 1 := rfl

theorem clear_length (h : Heap) (lo hi : Nat) : (h.clear lo hi).blocks.length = h.blocks.length :=
  List.length_map ..

/-- While a call extends the heap, the free pages are in blocks that have been extended, when
each call that does so finds the other blocks full; and no block is added for fewer live
pages than the blocks there are can hold, but for two. -/
theorem PageobjRun.blocks_le {limit : Nat}
    (run : PageobjRun (fun h => LastBlock h ∧ h.out.length < limit) h pending) :
    (pending ≠ [] → ∀ b ∈ h.blocks, b.top = b.max ∨ b.extended = true) ∧ pending.length ≤ 1 ∧
      h.blocks.length + pending.length ≤ (limit + 2) / 1021 + 1 := by
  induction run with
  | setup region =>
    refine ⟨fun none => absurd rfl none,Nat.zero_le _,?_⟩
    rw [added_length]
    exact Nat.le_add_left 1 _
  | @alloc h pending t size before ok small taken low ih =>
    obtain ⟨full,one,few⟩ := ih
    obtain ⟨front,b,after,split,_,room,rfl⟩ := take_some taken
    refine ⟨fun some c hc => ?_,one,?_⟩
    · obtain ⟨d,hd,rfl⟩ := List.mem_map.mp hc
      simp only [List.mem_append,List.mem_cons] at hd
      have old := full some
      rw [split] at old
      rcases hd with hd | rfl | hd
      · exact old d (by simp [hd])
      · refine .inr ?_
        show (b.extended || (b.take h.bsize).grows) = true
        rcases old b (by simp) with same | same
        · exact absurd same room
        · rw [same,Bool.true_or]
      · exact old d (by simp [hd])
    · rw [clear_length]
      simpa [split] using few
  | @grow h pending t size before ok small taken high ih =>
    obtain ⟨full,_,few⟩ := ih
    obtain ⟨grown,_⟩ := before.grown
    have bsize := grown.inv.bsize
    have many : t.rest.blocks.length ≤ (limit + 2) / 1021 := by
      have left := (growsLast_iff grown).mpr ok.1 t taken high
      have capacity := (grown.take taken).capacity
      have live := ok.2
      rw [take_out taken,List.length_cons] at capacity
      rw [Nat.le_div_iff_mul_le (by decide)]
      omega
    obtain ⟨front,b,after,split,front_full,room,rfl⟩ := take_some taken
    have hb : b ∈ h.blocks := by rw [split]; simp
    rw [bsize] at high
    obtain ⟨extended,three⟩ := (Block.take_grows (grown.inv.ok b hb) (grown.flagged b hb) room).1.mp high
    have back := ok.1 front b after split front_full extended three
    have none : pending = [] := by
      by_contra some
      rcases full some b hb with same | same
      · exact room same
      · rw [same] at extended
        cases extended
    subst none
    refine ⟨fun _ c hc => ?_,Nat.le_refl 1,?_⟩
    · simp only [List.mem_append,List.mem_cons] at hc
      rcases hc with hc | rfl | hc
      · exact .inl (front_full c hc)
      · refine .inr ?_
        have kept : (b.take h.bsize).rest.extended = (b.extended || (b.take h.bsize).grows) := rfl
        rw [kept,bsize,high,Bool.or_true]
      · exact .inl (back c hc)
    · exact Nat.succ_le_succ many
  | @extend h pending ptr size addr before region ih =>
    obtain ⟨_,one,few⟩ := ih
    rw [List.length_cons] at one
    refine ⟨fun some => ?_,by omega,?_⟩
    · exact absurd (List.length_eq_zero_iff.mp (by omega)) some
    · rw [clear_length,added_length,Nat.add_assoc,Nat.add_comm 1]
      exact few
  | @free h p before live ih =>
    obtain ⟨_,_,few⟩ := ih
    obtain ⟨grown,_⟩ := before.grown
    obtain ⟨front,c,after,split,_,after_free⟩ := grown.free_blocks live
    have reset (bs : List Block) : (resetHead bs).length = bs.length := by
      cases bs with
      | nil => rfl
      | cons b bs => rw [resetHead,List.length_cons,List.length_cons]
    refine ⟨fun none => absurd rfl none,Nat.zero_le _,?_⟩
    rw [after_free,reset]
    simpa [split] using few

/-- Where a block lies and how far its stack has been popped. -/
def Block.place (b : Block) : Nat × Nat × Nat × Nat := (b.addr,b.size,b.top,b.max)

/-- The head block serves page after page down to its last three, and the others stay as they
are. -/
theorem PageobjRun.takes (all : ∀ h, cond h) (run : PageobjRun cond h []) {b : Block} {bs : List Block}
    (blocks : h.blocks = b :: bs) (flag : b.extended = false) (n : Nat) (plenty : b.top + 3 + n ≤ b.max) :
    ∃ k c cs, PageobjRun cond k [] ∧ k.blocks = c :: cs ∧ c.extended = false ∧
      c.place = (b.addr,b.size,b.top + n,b.max) ∧ cs.map Block.place = bs.map Block.place := by
  induction n with
  | zero => exact ⟨h,b,bs,run,blocks,flag,rfl,rfl⟩
  | succ n ih =>
    obtain ⟨k,c,cs,run,blocks,flag,place,others⟩ := ih (by omega)
    simp only [Block.place,Prod.mk.injEq] at place
    obtain ⟨addr,size,top,max⟩ := place
    have grown := run.grown.1
    have hc : c ∈ k.blocks := by rw [blocks]; exact List.mem_cons_self ..
    have room : c.top ≠ c.max := by omega
    have taken : k.take = some ⟨(c.take 4096).ptr,(c.take 4096).grows,
        { k with blocks := (c.take 4096).rest :: cs, out := (c.take 4096).ptr :: k.out }⟩ := by
      rw [Heap.take,grown.inv.bsize,blocks,takeFrom,if_pos room]
      rfl
    have low : (c.take 4096).grows = false := by
      refine Bool.eq_false_iff.mpr fun grows => ?_
      have three := ((Block.take_grows (grown.inv.ok c hc) (grown.flagged c hc) room).1.mp grows).2
      omega
    have flags : (c.take 4096).rest.extended = (c.extended || (c.take 4096).grows) := rfl
    refine ⟨_,_,_,run.alloc (all k) (Nat.zero_le 4096) taken low,rfl,?_,?_,?_⟩
    · show (c.take 4096).rest.extended = false
      rw [flags,flag,low]
      rfl
    · show (c.addr,c.size,c.top + 1,c.max) = _
      rw [addr,size,top,max]
      rfl
    · rw [← others,List.map_map]
      rfl

/-- A call extends the heap when its head block has three pages left, in a heap with a block
behind it that was extended. -/
theorem PageobjRun.again (all : ∀ h, cond h) (run : PageobjRun cond h []) {b : Block} {bs : List Block}
    (blocks : h.blocks = b :: bs) (flag : b.extended = false) (three : b.top + 3 = b.max) {addr : Nat}
    (region : h.Region addr (2097152 * 2)) :
    ∃ k c d ds, PageobjRun cond k [] ∧ k.blocks = c :: d :: ds ∧ c.extended = false ∧ c.top = 2 ∧
      c.max = 1023 ∧ d.top + 2 = d.max := by
  have grown := run.grown.1
  have hb : b ∈ h.blocks := by rw [blocks]; exact List.mem_cons_self ..
  have room : b.top ≠ b.max := by omega
  have taken : h.take = some ⟨(b.take 4096).ptr,(b.take 4096).grows,
      { h with blocks := (b.take 4096).rest :: bs, out := (b.take 4096).ptr :: h.out }⟩ := by
    rw [Heap.take,grown.inv.bsize,blocks,takeFrom,if_pos room]
    rfl
  have high := (Block.take_grows (grown.inv.ok b hb) (grown.flagged b hb) room).1.mpr ⟨flag,three⟩
  have open_run := run.grow (all h) (Nat.zero_le 4096) taken high
  have free : Heap.Region { h with blocks := (b.take 4096).rest :: bs, out := (b.take 4096).ptr :: h.out }
      addr (2097152 * 2) := by
    refine ⟨region.aligned,region.pages,region.start,region.finish,List.forall_mem_cons.mpr ⟨?_,fun c hc => ?_⟩⟩
    · exact region.disjoint b hb
    · exact region.disjoint c (by rw [blocks]; exact List.mem_cons_of_mem _ hc)
  have next := open_run.extend free
  have bsize := grown.inv.bsize
  refine ⟨_,_,_,_,next,rfl,rfl,?_,?_,?_⟩
  · show slotres h.bsize ((2097152 * 2 + 2^64 - h.bsize) % 2^64 / h.bsize % 2^32) = 2
    rw [bsize]
    decide
  · show (2097152 * 2 + 2^64 - h.bsize) % 2^64 / h.bsize % 2^32 = 1023
    rw [bsize]
    decide
  · show b.top + 1 + 2 = b.max
    omega

/-- **k_pageobj_alloc.** The call extends the heap with fewer than 3 pages free in all blocks if
and only if the blocks behind the one it takes the page from are full, and in a run of calls
that all find it so the number of blocks is bounded by that of the live pages. -/
theorem k_pageobj_alloc_grows_last (limit : Nat) (h : Heap) (pending : List (Nat × Nat)) :
    (PageobjRun (fun _ => True) h pending → (GrowsLast h ↔ LastBlock h)) ∧
      (PageobjRun (fun h => LastBlock h ∧ h.out.length < limit) h pending →
        h.blocks.length ≤ (limit + 2) / 1021 + 1) :=
  ⟨fun run => growsLast_iff run.grown.1,fun run => Nat.le_of_add_right_le run.blocks_le.2.2⟩

theorem k_pageobj_alloc_grows_last_setup :
    (GrowsLast (kPageobjAddHeapblk (kPageobjInitHeap 4096) 0x200000 0x800000) ↔
      LastBlock (kPageobjAddHeapblk (kPageobjInitHeap 4096) 0x200000 0x800000)) ∧
      (kPageobjAddHeapblk (kPageobjInitHeap 4096) 0x200000 0x800000).blocks.length ≤ (1 + 2) / 1021 + 1 := by
  have region : (kPageobjInitHeap 4096).Region 0x200000 0x800000 :=
    ⟨by decide,by decide,by decide,by decide,fun _ hb => absurd hb List.not_mem_nil⟩
  obtain ⟨grows,few⟩ := k_pageobj_alloc_grows_last 1
    (kPageobjAddHeapblk (kPageobjInitHeap 4096) 0x200000 0x800000) []
  exact ⟨grows (.setup region),few (.setup region)⟩

/-- A call extends a heap whose other block has two pages left: 2040 pages of the first block,
one more, and 1018 of the block that was added for it. -/
theorem k_pageobj_alloc_grows_early :
    ¬∀ h pending, PageobjRun (fun _ => True) h pending → GrowsLast h := by
  intro always
  have all : ∀ _ : Heap, True := fun _ => trivial
  have region : (kPageobjInitHeap 4096).Region 0x200000 0x800000 :=
    ⟨by decide,by decide,by decide,by decide,fun _ hb => absurd hb List.not_mem_nil⟩
  have setup : PageobjRun (fun _ => True) _ [] := .setup region
  obtain ⟨h,b,bs,run,blocks,flag,place,others⟩ := setup.takes all rfl rfl 2040 (Nat.le_of_ble_eq_true rfl)
  simp only [Block.place,Prod.mk.injEq] at place
  obtain ⟨addr,size,top,max⟩ := place
  cases List.map_eq_nil_iff.mp others
  have more : h.Region 0xA00000 (2097152 * 2) := by
    refine ⟨by decide,by decide,by decide,by decide,fun c hc => ?_⟩
    rw [blocks] at hc
    obtain rfl := List.mem_singleton.mp hc
    rw [addr,size]
    exact .inr (Nat.le_of_ble_eq_true rfl)
  obtain ⟨k,c,d,ds,run,blocks,flag,top,max,two⟩ := run.again all blocks flag (by rw [top,max]; rfl) more
  obtain ⟨k,e,es,run,blocks,flag,place,others⟩ := run.takes all blocks flag 1018 (by rw [top,max])
  simp only [Block.place,Prod.mk.injEq] at place
  obtain ⟨-,-,etop,emax⟩ := place
  have last := (growsLast_iff run.grown.1).mp (always k [] run) [] e es blocks
    (fun _ hx => absurd hx List.not_mem_nil) flag (by rw [etop,emax,top,max])
  cases es with
  | nil => cases others
  | cons f fs =>
    simp only [List.map_cons,List.cons.injEq,Block.place,Prod.mk.injEq] at others
    have full := last f (List.mem_cons_self ..)
    omega

end Run

end Siegfried
