import Siegfried.PagePool
import Siegfried.VirtSearch

/-! `page_find_and_alloc`, `page_find_and_alloc_user` and the functions that map given
frames, and `k_pageobj_alloc` with its growth branch. -/
namespace Siegfried

def pageMarkAvailableMemRange (k : Kernel) (addr len : Nat) : Kernel :=
  if len < 0x200000 then k else { k with availMem := k.availMem ++ [⟨addr,len⟩] }

/-- `page_physmemmap_is_used`; it hangs unless the kernel's table is current. -/
def pagePhysmemmapIsUsed (k : Kernel) (paddr : Nat) : Option Bool :=
  if k.cr3 ≠ k.pml4Table then none
  else if k.availMem.isEmpty ||
      k.availMem.any (fun it => decide (it.paddr < paddr ∧ paddr + 0x200000 < it.paddr + it.len))
    then some (k.physMemMap (paddr / 2097152))
  else some true

/-- The first of `n` frames from `f` on that is not used. -/
def nextFree (k : Kernel) : Nat → Nat → Option Nat
  | 0, _ => none
  | n + 1, f => do
    if ← pagePhysmemmapIsUsed k (f * 2097152) then nextFree k n (f + 1) else some f

/-- How many frames the outer loop looks at for a run of pages. Above 2^27 pages its bound
wraps, and no frame is free behind the bitmap. -/
def frameBound (pgs : Nat) : Nat := if pgs ≤ 2^27 then 2^27 - pgs else 2^27

/-- The loop over `pi`, from `off = i + pi` on; skipping a used frame moves `i`. The
bitmap ends at frame `2^27`. -/
def allocPages (page : Kernel → Nat → Nat → Option Kernel) (addr : Nat) :
    Nat → Nat → Kernel → Nat → Option Kernel
  | 0, _, k, _ => some k
  | n + 1, pi, k, off => do
    let off ← nextFree k (2^27 - off) off
    let k ← page k (off * 2097152) (addr + pi * 2097152)
    allocPages page addr n (pi + 1) k (off + 1)

/-- The test `page_lookup_pdei_tab(..)->present && page_lookup_pdei_tab(..)->isuser`. -/
def isMappedUser (k : Kernel) (tab vir : Nat) : Bool :=
  let e := k.tables (pageLookupPdeiTab k tab vir).1 (pageLookupPdeiTab k tab vir).2
  e.present && e.isuser

def canonical (v : Nat) : Bool := decide (v < 2^47) || decide (2^64 - 2^47 ≤ v ∧ v < 2^64)

/-- Zero `[lo,hi)` through `tab`, page by page from page `w` on. A page that is not
mapped faults; one that is not the user's leaves the model. -/
def zeroUser (tab lo hi : Nat) : Nat → Nat → Kernel → Option Kernel
  | 0, _, k => some k
  | n + 1, w, k => do
    let e ← k.mapping tab (w * 2097152)
    if !canonical (w * 2097152) || !e.isuser then none
    else
      let start := e.frame * 2097152 + (max lo (w * 2097152) - w * 2097152)
      let stop := e.frame * 2097152 + (min hi (w * 2097152 + 2097152) - w * 2097152)
      let ram := fun a => if start ≤ a ∧ a < stop then 0 else k.ram a
      zeroUser tab lo hi n (w + 1) { k with ram := ram }

section Functions
variable (alloc : Kernel → Option (Kernel × Nat)) (k : Kernel)

/-- With no page asked for, the bound of the test loop wraps and the loop runs
through all of memory. -/
def pageFindAndAlloc (pgs : Nat) : Option (Kernel × Nat) := do
  let i ← nextFree k (2^27 - pgs) 0
  let addr := pageVirtFindAddr k pgs
  let k ← allocPages (pageAlloc alloc) addr pgs 0 k i
  if pgs = 0 || !canonical (addr + pgs * 2097152 - 1) then none
  else some (k.clear addr (addr + 0x200000 * pgs),addr)

def pageFindAndAllocUser (tab vaddr pgs : Nat) : Option (Kernel × Nat) := do
  let oldTab := k.cr3
  let k := { k with cr3 := k.pml4Table }
  let i ← nextFree k (frameBound pgs) 0
  if isMappedUser k tab vaddr then some ({ k with cr3 := oldTab },vaddr)
  else if pgs = 0 then none
  else
    let k ← allocPages (fun k => pageAllocTab alloc k tab) vaddr pgs 0 k i
    let first := vaddr / 2097152
    let last := (vaddr + pgs * 2097152 - 1) / 2097152
    let k ← zeroUser tab vaddr (vaddr + pgs * 2097152) (last + 1 - first) first
      { k with cr3 := tab }
    some ({ k with cr3 := oldTab },vaddr)

/-- `page_map_paddr` and `page_map_paddr_mmio`, which differ in how they map a page. -/
def mapPaddr (style : MapStyle) (paddr pgs : Nat) : Option (Kernel × Nat) :=
  let off := paddr % 0x200000
  let paddr := paddr - off
  let vaddr := pageVirtFindAddr k pgs
  if vaddr = 0xDEAD then some (k,0)
  else do
    let k ← (List.range pgs).foldlM
      (fun k i => mapPage style alloc k k.pml4Table (paddr + i * 2097152) (vaddr + i * 2097152)) k
    some (k,vaddr + off)

def pageMapPaddr (paddr pgs : Nat) : Option (Kernel × Nat) := mapPaddr alloc k krnlStyle paddr pgs
def pageMapPaddrMmio (paddr pgs : Nat) : Option (Kernel × Nat) := mapPaddr alloc k mmioStyle paddr pgs

end Functions

/-- `k_pageobj_alloc(&page_heap, 4096)`, with growth nested at most `n` deep. -/
def kPageobjAlloc : Nat → Kernel → Option (Kernel × Nat)
  | 0, k => takePage k
  | n + 1, k => kPageobjAllocWith (fun k => pageFindAndAlloc (kPageobjAlloc n) k 2) k 4096

end Siegfried
