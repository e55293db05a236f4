import Siegfried.Boot

/-! The page heap's first block and the addresses that are handed out after boot. -/
namespace Siegfried

/-- A call that maps `pgs` pages from the page of `addr` on. -/
inductive Grant : Kernel → Kernel → Nat → Nat → Prop where
  | findAndAlloc {k k' : Kernel} {addr pgs n : Nat}
      (h : pageFindAndAlloc (kPageobjAlloc n) k pgs = some (k',addr)) : Grant k k' addr pgs
  | mapPaddr {k k' : Kernel} {paddr addr pgs n : Nat} (found : pageVirtFindAddr k pgs ≠ 0xDEAD)
      (h : pageMapPaddr (kPageobjAlloc n) k paddr pgs = some (k',addr)) : Grant k k' addr pgs
  | mapPaddrMmio {k k' : Kernel} {paddr addr pgs n : Nat} (found : pageVirtFindAddr k pgs ≠ 0xDEAD)
      (h : pageMapPaddrMmio (kPageobjAlloc n) k paddr pgs = some (k',addr)) : Grant k k' addr pgs

/-- Every state after calls of this kind. -/
inductive Grants (start : Kernel) : Kernel → Prop where
  | nil : Grants start start
  | step {k k' : Kernel} {addr pgs : Nat} (before : Grants start k) (grant : Grant k k' addr pgs) :
      Grants start k'

/-- The addresses returned keep clear of the blocks there are, and every page a block
manages is mapped. -/
def KeepsApart (start : Kernel) : Prop :=
  ∀ k, Grants start k →
    (∀ k' addr pgs, Grant k k' addr pgs →
      k.pageHeap.Avoids (addr - addr % 2097152) (addr - addr % 2097152 + pgs * 2097152)) ∧
    ∀ b ∈ k.pageHeap.blocks, ∀ x, slotres k.pageHeap.bsize b.max ≤ x → x < b.max →
      (k.mapping k.pml4Table (b.addr + k.pageHeap.bsize + x * k.pageHeap.bsize)).isSome = true

section Boot
variable {image : Image} {k : Kernel} {n : Nat} {mem : Forest.Store Nat (Fin 512) Entry}
  {ram : Nat → UInt8}

/-- The block that boot registers. -/
theorem krnlMain_block (h : krnlMain (kPageobjAlloc n) image (image.entry mem ram) = some k) :
    ∃ b ∈ k.pageHeap.blocks, b.addr = image.heapBase ∧ b.max = 2047 := by
  obtain ⟨booted,_⟩ := krnlMain_booted h
  have region : (image.heapBase,0x800000) ∈ k.pageHeap.regions := by
    rw [booted.regions]
    exact List.mem_singleton.mpr rfl
  obtain ⟨b,hb,same⟩ := List.mem_map.mp region
  obtain ⟨addr,size⟩ := Prod.mk.inj same
  have max := (booted.pool.good.inv.ok b hb).max
  rw [size] at max
  exact ⟨b,hb,addr,max⟩

/-- Past the end of what `krnl_main` maps the kernel's table maps nothing. -/
theorem Booted.unmapped {root : Nat} {regions : List (Nat × Nat)}
    (booted : Booted root regions image.frames k) {v : Nat} (past : image.bootEnd ≤ v)
    (low : v < 2^48) : k.mapping root v = none := by
  have absent : page v ∉ image.frames := by
    intro member
    simp only [Image.bootEnd] at past
    rcases Image.frames_spec.mp member with first | ⟨_,last⟩
    · simp only [page] at first
      omega
    · simp only [page] at last
      omega
  have none := booted.maps v
  rw [if_neg absent] at none
  exact Option.map_eq_none_iff.mp none

section Claim

/-- Whatever `_krnl_end` is, the last page of the heap is not mapped when boot is over. -/
theorem boot_heap_not_apart
    (h : krnlMain (kPageobjAlloc n) image (image.entry mem ram) = some k) : ¬KeepsApart k := by
  intro apart
  obtain ⟨booted,_,low⟩ := krnlMain_booted h
  obtain ⟨b,hb,addr,max⟩ := krnlMain_block h
  have reserved : slotres 4096 2047 = 4 := by decide
  have mapped := (apart k .nil).2 b hb 2046
  rw [booted.pool.good.inv.bsize,max,addr,booted.pml4Table,reserved] at mapped
  have absent := booted.unmapped (v := image.heapBase + 4096 + 2046 * 4096)
    (by simp only [Image.bootEnd,Image.heapBase]; omega) (by omega)
  rw [absent] at mapped
  cases mapped (by decide) (by decide)

end Claim

/-- A kernel of 20 MB. -/
def Image.twenty : Image where
  krnlEnd := 0x2400000
  pml4Table := 0x2300000
  dummyPage := 0x1001000
  aligned := by decide
  start := by decide
  order := by decide
  inside := by decide
  canonical := by decide

theorem boots : (krnlMain (kPageobjAlloc 1) .twenty
    (Image.twenty.entry (fun _ _ => .zero) fun _ => 0)).isSome = true := by
  decide +kernel

section Claim

theorem boot_heap_not_apart_twenty : ∃ k, krnlMain (kPageobjAlloc 1) .twenty
    (Image.twenty.entry (fun _ _ => .zero) fun _ => 0) = some k ∧ ¬KeepsApart k := by
  obtain ⟨k,h⟩ := Option.isSome_iff_exists.mp boots
  exact ⟨k,h,boot_heap_not_apart h⟩

/-- With `_krnl_end` at 36 MB. -/
theorem boot_heap_overlap : ¬∀ (image : Image) (mem : Forest.Store Nat (Fin 512) Entry)
    (ram : Nat → UInt8) (n : Nat) (k : Kernel),
    krnlMain (kPageobjAlloc n) image (image.entry mem ram) = some k → KeepsApart k := by
  intro all
  obtain ⟨k,h⟩ := Option.isSome_iff_exists.mp boots
  have apart := (all .twenty _ _ 1 k h k .nil).2
  have unmapped : (krnlMain (kPageobjAlloc 1) .twenty
      (Image.twenty.entry (fun _ _ => .zero) fun _ => 0)).any (fun k =>
        k.pageHeap.blocks.any fun b => b.max == 2047 && k.pageHeap.bsize == 4096 &&
          (k.mapping k.pml4Table (b.addr + k.pageHeap.bsize + 2046 * k.pageHeap.bsize)).isNone)
      = true := by decide +kernel
  rw [h,Option.any_some,List.any_eq_true] at unmapped
  obtain ⟨b,hb,facts⟩ := unmapped
  simp only [Bool.and_eq_true,beq_iff_eq,Option.isNone_iff_eq_none] at facts
  obtain ⟨⟨max,bsize⟩,absent⟩ := facts
  have mapped := apart b hb 2046 (by rw [max,bsize]; decide) (by rw [max]; decide)
  rw [absent] at mapped
  cases mapped

end Claim

end Boot

end Siegfried
