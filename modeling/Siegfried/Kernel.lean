import Siegfried.Forest
import Siegfried.PageEntry
import Siegfried.PageHeap
import Mathlib.Data.List.FinRange

/-! The state that `page.c` works on. Kernel memory is named by the pointers the code
uses; a frame is a physical address divided by 2 MB. -/
namespace Siegfried

/-- `page_available_mem_ent`. -/
structure AvailMem where
  paddr : Nat
  len : Nat

/-- `tables` is kernel memory read as page tables, by page and index; `ram` is the
memory behind user mappings, by physical address; `pml4Table` is `&pml4_table`, which
`krnl_tab_addr` equals. -/
structure Kernel where
  tables : Forest.Store Nat (Fin 512) Entry
  pageHeap : Heap
  physMemMap : Nat → Bool
  availMem : List AvailMem
  cr3 : Nat
  pml4Table : Nat
  ram : Nat → UInt8

def pml4i (vir : Nat) : Fin 512 := ⟨vir / 2^39 % 512,Nat.mod_lt _ (by decide)⟩
def pdptei (vir : Nat) : Fin 512 := ⟨vir / 2^30 % 512,Nat.mod_lt _ (by decide)⟩
def pdei (vir : Nat) : Fin 512 := ⟨vir / 2^21 % 512,Nat.mod_lt _ (by decide)⟩

/-- The number of the 2 MB page of an address. -/
def page (vir : Nat) : Nat := vir / 2^21 % 2^27

theorem page_eq_iff {v w : Nat} :
    page v = page w ↔ pml4i v = pml4i w ∧ pdptei v = pdptei w ∧ pdei v = pdei w := by
  simp only [page,pml4i,pdptei,pdei,Fin.mk.injEq]
  omega

namespace Kernel
variable {k : Kernel}

def setEntry (k : Kernel) (p : Nat) (i : Fin 512) (e : Entry) : Kernel :=
  { k with tables := Forest.put k.tables p i e }

@[simp] theorem setEntry_tables (p : Nat) (i : Fin 512) (e : Entry) :
    (k.setEntry p i e).tables = Forest.put k.tables p i e := rfl
@[simp] theorem setEntry_pageHeap (p : Nat) (i : Fin 512) (e : Entry) :
    (k.setEntry p i e).pageHeap = k.pageHeap := rfl

/-- The large-page entry the processor finds for an address, when it is present. -/
def mapping (k : Kernel) (tab vir : Nat) : Option Entry :=
  (Forest.read Entry.child k.tables tab [pml4i vir,pdptei vir] (pdei vir)).filter (·.present)

/-- Presence and physical target of an address in a table. -/
def translate (k : Kernel) (tab vir : Nat) : Option Nat := (k.mapping tab vir).map Entry.frame

/-- Zeroing `[lo,hi)` through kernel addresses. -/
def clear (k : Kernel) (lo hi : Nat) : Kernel :=
  { k with
    tables := fun p i => if lo ≤ p + 8 * i ∧ p + 8 * i + 8 ≤ hi then .zero else k.tables p i
    pageHeap := k.pageHeap.clear lo hi }

end Kernel

/-- `page_lookup_pdei_tab`. `NULL` is the entry at address 0. -/
def pageLookupPdeiTab (k : Kernel) (tab vir : Nat) : Nat × Fin 512 :=
  let pdptTable := (k.tables tab (pml4i vir)).getPaddr
  if pdptTable = 0 then (0,0)
  else
    let pdeiTable := (k.tables pdptTable (pdptei vir)).getPaddr
    if pdeiTable = 0 then (0,0) else (pdeiTable,pdei vir)

section Alloc
variable (pageFindAndAlloc : Kernel → Option (Kernel × Nat)) (k : Kernel)

/-- The growth branch of `k_pageobj_alloc`: `page_find_and_alloc(2)`, `page_flush`,
`k_pageobj_add_heapblk`. -/
def extendHeap : Option Kernel := do
  let (k,addr) ← pageFindAndAlloc k
  let k := { k with cr3 := k.pml4Table }
  some { k with pageHeap := kPageobjAddHeapblk k.pageHeap addr (2097152 * 2) }

/-- `k_pageobj_alloc`, with `page_find_and_alloc(2)` as a parameter. An access to an
address that the current table does not map ends the run. -/
def kPageobjAllocWith (size : Nat) : Option (Kernel × Nat) :=
  if k.pageHeap.bsize < size then none
  else do
    let t ← k.pageHeap.take
    let k := { k with pageHeap := t.rest }
    let k ← (if t.grows then extendHeap pageFindAndAlloc k else some k)
    if (k.mapping k.cr3 t.ptr).isSome then some (k.clear t.ptr (t.ptr + size),t.ptr) else none

end Alloc

end Siegfried
