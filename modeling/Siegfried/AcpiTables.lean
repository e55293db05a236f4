import Siegfried.VirtFit
import Siegfried.FrameAlloc
import Siegfried.Bytes
import Siegfried.UserPages
import Mathlib.Algebra.GroupWithZero.Nat

/-! `acpiman_setup` of `acpiman.c`: the tables that the XSDT names, mapped one by one. -/
namespace Siegfried

namespace Kernel
variable (k : Kernel) (v n : Nat)

/-- The physical address behind an address of the current table. -/
def physical : Option Nat :=
  if canonical v then (k.translate k.cr3 v).map fun f => f * 2097152 + v % 2097152 else none

def loadBytes : Option (List UInt8) := (List.range n).mapM fun i => (k.physical (v + i)).map k.ram

def load : Option Nat := (k.loadBytes v n).map fun bytes => Bytes.read (fun i => bytes.getD i 0) 0 n

def store (value : Nat) : Option Kernel :=
  (List.range n).foldlM (fun k i => (k.physical (v + i)).map fun a =>
    { k with ram := Function.update k.ram a (.ofNat (value / 256^i)) }) k

end Kernel

/-- The sum ends in a zero byte. -/
def acpimanIsvalid (bytes : List UInt8) : Bool := (bytes.map UInt8.toNat).sum % 256 == 0

section Setup
variable (alloc : Kernel → Option (Kernel × Nat)) (xsdtPaddr xsdtAddr : Nat)

/-- A table in the 2 MB of the XSDT is reached through the mapping of that. -/
def acpimanMapTab (k : Kernel) (h : Nat) : Option (Kernel × Nat) :=
  if h / 2097152 ≠ xsdtPaddr / 2097152 then pageMapPaddr alloc k h 1
  else some (k,xsdtAddr / 2097152 * 2097152 + h % 2097152)

/-- The loop over `tabs_ptr`, with what each entry was and what it is then. -/
def acpimanMapTabs : Nat → Nat → Kernel → Option (Kernel × List (Nat × Nat))
  | 0, _, k => some (k,[])
  | n + 1, i, k => do
    let h ← k.load (xsdtAddr + 36 + 8 * i) 8
    let (k,p) ← acpimanMapTab alloc xsdtPaddr xsdtAddr k h
    let k ← k.store (xsdtAddr + 36 + 8 * i) 8 p
    let _ ← k.load p 4
    let (k,ents) ← acpimanMapTabs n (i + 1) k
    some (k,(h,p) :: ents)

end Setup

def rsdpMagic : List UInt8 := [0x52,0x53,0x44,0x20,0x50,0x54,0x52,0x20]
def xsdtMagic : List UInt8 := [0x58,0x53,0x44,0x54]

/-- `xsdt_addr` of the descriptor. -/
def rsdpXsdt (rsdp : List UInt8) : Nat := Bytes.read (fun i => rsdp.getD i 0) 24 8

/-- `acpiman_setup`, up to the reset register; `i` is an `unsigned int`, and a size below 36 wraps. -/
def acpimanSetup (alloc : Kernel → Option (Kernel × Nat)) (k : Kernel) (rsdp : List UInt8) :
    Option (Kernel × List (Nat × Nat)) :=
  if rsdp.take 8 ≠ rsdpMagic then some (k,[])
  else if !acpimanIsvalid (rsdp.take 20) then some (k,[])
  else if !acpimanIsvalid (rsdp.take 36) then some (k,[])
  else do
    let (k,xsdt) ← pageMapPaddr alloc k (rsdpXsdt rsdp) 2
    let sz ← k.load (xsdt + 4) 4
    let bytes ← k.loadBytes xsdt sz
    let magic ← k.loadBytes xsdt 4
    if !acpimanIsvalid bytes then some (k,[])
    else if magic ≠ xsdtMagic then some (k,[])
    else
      let ptrs := (sz + (2^64 - 36)) % 2^64 / 8
      if 2^32 ≤ ptrs then none else acpimanMapTabs alloc (rsdpXsdt rsdp) xsdt ptrs 0 k

/-- Every byte of a table is behind its pointer. -/
def TableMapped (k : Kernel) (h p sz : Nat) : Prop := ∀ i < sz, k.physical (p + i) = some (h + i)

/-- A table ends in the 2 MB in which it begins or, for one that begins with the XSDT, in the next. -/
def TableFits (xsdtPaddr h sz : Nat) : Prop :=
  h % 2097152 + sz ≤ (if h / 2097152 = xsdtPaddr / 2097152 then 2 else 1) * 2097152 ∧ h + sz ≤ 2^48

/-- So many pages of the lower half are not mapped. -/
def Kernel.FreePages (k : Kernel) (root n : Nat) : Prop :=
  ∃ ws : List Nat, ws.Nodup ∧ n ≤ ws.length ∧ ∀ w ∈ ws, w < 2^26 ∧ k.mapping root (w * 2097152) = none

section Mapping
variable {root : Nat} {bufs roots : List Nat} {k k' m : Kernel} {paddr pgs addr v p h sz n : Nat}

/-- Pages in a row, mapped to frames in a row. -/
def RowMapped (k : Kernel) (root addr pgs f : Nat) : Prop :=
  ∀ j < pgs, k.translate root (addr + j * 2097152) = some ((f + j) % 2^27)

theorem RowMapped.kept (row : RowMapped k root addr pgs p)
    (kept : ∀ v f, k.translate root v = some f → k'.translate root v = some f) : RowMapped k' root addr pgs p :=
  fun j inside => kept _ _ (row j inside)

/-- The bytes of a table behind such a row. -/
theorem RowMapped.table (row : RowMapped k root addr pgs (h / 2097152)) (current : k.cr3 = root)
    (aligned : addr % 2097152 = 0) (low : addr + pgs * 2097152 ≤ 2^47)
    (fits : h % 2097152 + sz ≤ pgs * 2097152 ∧ h + sz ≤ 2^48) :
    TableMapped k h (addr + h % 2097152) sz := by
  intro i inside
  have page_ : page (addr + h % 2097152 + i) = page (addr + (h % 2097152 + i) / 2097152 * 2097152) := by
    rw [page,page]
    omega
  have low_ : canonical (addr + h % 2097152 + i) = true := by
    rw [canonical,Bool.or_eq_true,decide_eq_true_eq]
    exact .inl (by omega)
  rw [Kernel.physical,if_pos low_,current,Kernel.translate,Kernel.mapping_page page_,← Kernel.translate,
    row _ (by omega),Option.map_some]
  refine congrArg some ?_
  have wrap : (h / 2097152 + (h % 2097152 + i) / 2097152) % 2^27 = (h + i) / 2097152 := by omega
  rw [wrap]
  omega

variable (pool : Pool root bufs roots k) (at_root : k.pml4Table = root) (current : k.cr3 = root) (hr : root ∈ roots)
include pool at_root hr

/-- What mapping physical memory at a run of pages that is found does. -/
theorem mapPaddr_row {style : MapStyle} (ok : style.Ok) (few : pgs < 512)
    (found : pageVirtFindAddr k pgs ≠ 0xDEAD) (ran : mapPaddr takePage k style paddr pgs = some (k',addr)) :
    addr = pageVirtFindAddr k pgs + paddr % 2097152 ∧
    RowMapped k' root (pageVirtFindAddr k pgs) pgs (paddr / 2097152) := by
  simp only [mapPaddr,found,if_false,Option.bind_eq_bind,Option.bind_eq_some_iff,Option.some.injEq,
    Prod.mk.injEq] at ran
  obtain ⟨m,loop,rfl,rfl⟩ := ran
  refine ⟨rfl,?_⟩
  have last := Fold.foldlM_rest (fun l m => l.Nodup ∧ (∀ i ∈ l, i < pgs) ∧ Pool root bufs roots m ∧
    m.pml4Table = root ∧ ∀ j < pgs, j ∉ l →
      m.translate root (pageVirtFindAddr k pgs + j * 2097152) = some ((paddr / 2097152 + j) % 2^27)) ?_
    ⟨List.nodup_range,fun i => List.mem_range.mp,pool,at_root,fun j inside out =>
      absurd (List.mem_range.mpr inside) out⟩ loop
  · exact fun j inside => last.2.2.2.2 j inside List.not_mem_nil
  · rintro i l m m' ⟨nodup,bound,inv,same,done⟩ mapped
    obtain ⟨new,nodup⟩ := List.nodup_cons.mp nodup
    have here := bound i List.mem_cons_self
    rw [same] at mapped
    obtain ⟨inv',⟨e,there⟩,others⟩ := mapPage_mapping (takePage_pool ..) ok inv hr mapped
    obtain ⟨_,kept⟩ := mapPage_kept (takePage_pool ..) takePage_steady ok inv hr mapped
    refine ⟨nodup,fun j hj => bound j (List.mem_cons_of_mem _ hj),inv',kept.pml4Table.trans same,fun j inside out => ?_⟩
    by_cases this : j = i
    · subst this
      rw [Kernel.translate,there,Option.map_some,(ok.pde _ e).2.1]
      refine congrArg some ?_
      omega
    · rw [Kernel.translate,others root hr _ fun named => page_ne this (by omega) named.2,← Kernel.translate]
      exact done j inside fun member => (List.mem_cons.mp member).elim this out

/-- Pages that were mapped stay so, and of the others only those of the run are. -/
theorem mapPaddr_stays {style : MapStyle} (ok : style.Ok) (few : pgs < 512) (current : k.cr3 = root)
    (found : pageVirtFindAddr k pgs ≠ 0xDEAD) (ran : mapPaddr takePage k style paddr pgs = some (k',addr)) :
    Pool root bufs roots k' ∧ k'.pml4Table = root ∧ k'.cr3 = root ∧
    (∀ v f, k.translate root v = some f → k'.translate root v = some f) ∧
    ∀ v, (∀ j < pgs, page v ≠ page (pageVirtFindAddr k pgs + j * 2097152)) → k'.mapping root v = k.mapping root v := by
  obtain ⟨pool',kept⟩ := mapPaddr_kept pool at_root hr ok found ran
  obtain ⟨_,_,absent⟩ := pageVirtFindAddr_spec (takePage_pool ..) pool hr few at_root current found
  refine ⟨pool',kept.pml4Table.trans at_root,kept.cr3.trans current,fun v f there => ?_,fun v out => ?_⟩
  · rw [Kernel.translate,kept.mapping root hr v ?_]
    · exact there
    · rintro ⟨_,j,inside,same⟩
      rw [Kernel.translate,Kernel.mapping_page same,absent j inside] at there
      cases there
  · apply kept.mapping root hr v
    rintro ⟨_,j,inside,same⟩
    exact out j inside same

omit pool at_root hr

/-- A run of pages takes as many of the free ones at most. -/
theorem Kernel.FreePages.lose (free : k.FreePages root (n + pgs))
    (others : ∀ v, (∀ j < pgs, page v ≠ page (addr + j * 2097152)) → k'.mapping root v = k.mapping root v) :
    k'.FreePages root n := by
  obtain ⟨ws,nodup,many,absent⟩ := free
  let run := (List.range pgs).map fun j => page (addr + j * 2097152)
  refine ⟨ws.filter (· ∉ run),nodup.filter _,?_,fun w member => ?_⟩
  · have split := List.length_eq_length_filter_add (l := ws) (· ∈ run)
    have lost : (ws.filter (· ∈ run)).length ≤ run.length :=
      (List.subperm_of_subset (nodup.filter _) fun w member => by simpa using (List.mem_filter.mp member).2).length_le
    have few : run.length = pgs := by rw [List.length_map,List.length_range]
    have same : ws.filter (fun w => !decide (w ∈ run)) = ws.filter (· ∉ run) :=
      List.filter_congr fun w _ => by simp
    rw [same] at split
    omega
  · obtain ⟨there,out⟩ := List.mem_filter.mp member
    obtain ⟨low,absent⟩ := absent w there
    refine ⟨low,?_⟩
    rw [others,absent]
    intro j inside same
    refine of_decide_eq_true out (List.mem_map.mpr ⟨j,List.mem_range.mpr inside,?_⟩)
    rw [← same,page]
    omega

theorem Kernel.FreePages.fewer {fewer : Nat} (free : k.FreePages root n) (le : fewer ≤ n) : k.FreePages root fewer := by
  obtain ⟨ws,nodup,many,absent⟩ := free
  exact ⟨ws,nodup,Nat.le_trans le many,absent⟩

theorem Kernel.FreePages.some_page (free : k.FreePages root (n + 1)) :
    ∃ w < 2^26, k.mapping root (w * 2097152) = none := by
  obtain ⟨ws,_,many,absent⟩ := free
  obtain ⟨w,member⟩ := List.exists_mem_of_length_pos (Nat.lt_of_lt_of_le (Nat.succ_pos n) many)
  exact ⟨w,absent w member⟩

/-- Writing memory leaves the tables and the heap alone. -/
theorem Kernel.store_ram {value : Nat} (stored : k.store v n value = some k') : k' = { k with ram := k'.ram } := by
  refine Fold.foldlM_rest (fun _ m => m = { k with ram := m.ram }) ?_ rfl stored
  intro i l m m' same step
  obtain ⟨a,_,rfl⟩ := Option.map_eq_some_iff.mp step
  rw [same]

theorem TableMapped.kept (mapped : TableMapped k h p sz) (same : k'.cr3 = k.cr3)
    (kept : ∀ v f, k.translate k.cr3 v = some f → k'.translate k.cr3 v = some f) : TableMapped k' h p sz := by
  intro i inside
  have here := mapped i inside
  rw [Kernel.physical] at here ⊢
  split at here
  · obtain ⟨f,there,value⟩ := Option.map_eq_some_iff.mp here
    rw [if_pos ‹_›,same,kept _ f there,Option.map_some,value]
  · cases here

/-- What a kernel is after some of the tables are mapped. -/
structure Working (root : Nat) (bufs roots : List Nat) (k : Kernel) : Prop where
  pool : Pool root bufs roots k
  at_root : k.pml4Table = root
  current : k.cr3 = root

/-- One table. -/
theorem acpimanMapTab_mapped {x xsdt : Nat} (work : Working root bufs roots k) (hr : root ∈ roots)
    (row : RowMapped k root v 2 (x / 2097152)) (aligned : v % 2097152 = 0) (low : v + 2 * 2097152 ≤ 2^47)
    (at_xsdt : xsdt = v + x % 2097152) (free : k.FreePages root (n + 1))
    (ran : acpimanMapTab takePage x xsdt k h = some (k',p)) :
    Working root bufs roots k' ∧ (∀ v f, k.translate root v = some f → k'.translate root v = some f) ∧
    k'.FreePages root n ∧ ∀ sz, TableFits x h sz → TableMapped k' h p sz := by
  rw [acpimanMapTab] at ran
  by_cases other : h / 2097152 ≠ x / 2097152
  · rw [if_pos other] at ran
    obtain ⟨w,below,empty⟩ := free.some_page
    have one : ∀ j < 1, k.mapping root (w * 2097152 + j * 2097152) = none := by
      intro j inside
      rw [Nat.lt_one_iff.mp inside,Nat.zero_mul,Nat.add_zero]
      exact empty
    have few : 1 < 512 := by decide
    obtain ⟨first,found⟩ := pageVirtFindAddr_le (takePage_pool ..) work.pool hr few work.at_root work.current
      (Nat.mul_mod_left w 2097152) (by omega) one
    obtain ⟨rfl,here⟩ := mapPaddr_row work.pool work.at_root hr krnlStyle_ok few found ran
    obtain ⟨pool',root',current',stays,others⟩ := mapPaddr_stays work.pool work.at_root hr krnlStyle_ok few
      work.current found ran
    refine ⟨⟨pool',root',current'⟩,stays,.lose free others,fun sz fits => ?_⟩
    rw [TableFits,if_neg other] at fits
    exact here.table current' (pageVirtFindAddr_aligned found) (by omega) fits
  · rw [if_neg other] at ran
    cases ran
    have begin_ : (v + x % 2097152) / 2097152 * 2097152 = v := by omega
    refine ⟨work,fun _ _ there => there,free.fewer (Nat.le_succ n),fun sz fits => ?_⟩
    rw [TableFits,if_pos (not_not.mp other)] at fits
    rw [at_xsdt,begin_]
    rw [← not_not.mp other] at row
    exact row.table work.current aligned low fits

/-- All of them. -/
theorem acpimanMapTabs_mapped {x xsdt i : Nat} {ents : List (Nat × Nat)} (work : Working root bufs roots k)
    (hr : root ∈ roots) (row : RowMapped k root v 2 (x / 2097152)) (aligned : v % 2097152 = 0)
    (low : v + 2 * 2097152 ≤ 2^47) (at_xsdt : xsdt = v + x % 2097152) (free : k.FreePages root ents.length)
    (ran : acpimanMapTabs takePage x xsdt n i k = some (k',ents)) :
    k'.cr3 = root ∧ (∀ v f, k.translate root v = some f → k'.translate root v = some f) ∧
    ∀ e ∈ ents, ∀ sz, TableFits x e.1 sz → TableMapped k' e.1 e.2 sz := by
  induction n generalizing k i ents with
  | zero =>
    cases ran
    exact ⟨work.current,fun _ _ there => there,fun e member => absurd member List.not_mem_nil⟩
  | succ n ih =>
    simp only [acpimanMapTabs,Option.bind_eq_bind,Option.bind_eq_some_iff,Option.some.injEq,Prod.mk.injEq] at ran
    obtain ⟨h,_,⟨k1,p⟩,mapped,k2,stored,_,_,⟨k3,more⟩,rest,rfl,rfl⟩ := ran
    obtain ⟨work1,stays,free1,here⟩ := acpimanMapTab_mapped work hr row aligned low at_xsdt free mapped
    have written := Kernel.store_ram stored
    obtain ⟨current,later,others⟩ := ih (k := k2)
      (by rw [written]; exact ⟨⟨work1.pool.good,work1.pool.valid,work1.pool.flat⟩,work1.at_root,work1.current⟩)
      (by rw [written]; exact row.kept stays) (by rw [written]; exact free1) rest
    rw [written] at later
    refine ⟨current,fun v f there => later v f (stays v f there),List.forall_mem_cons.mpr ⟨fun sz fits => ?_,others⟩⟩
    refine (here sz fits).kept (current.trans work1.current.symm) ?_
    rw [work1.current]
    exact later

/-- With room for the XSDT and for every table, a table is behind its pointer with every byte as
long as it ends in the pages that are mapped for it. -/
theorem acpi_tables_mapped {rsdp : List UInt8} {ents : List (Nat × Nat)} (work : Working root bufs roots k)
    (hr : root ∈ roots) (pair : ∃ w, w + 1 < 2^26 ∧ k.mapping root (w * 2097152) = none ∧
      k.mapping root (w * 2097152 + 2097152) = none)
    (free : k.FreePages root (ents.length + 2)) (ran : acpimanSetup takePage k rsdp = some (k',ents)) :
    ∀ e ∈ ents, ∀ sz, TableFits (rsdpXsdt rsdp) e.1 sz → TableMapped k' e.1 e.2 sz := by
  rw [acpimanSetup] at ran
  have none_ {out : Kernel} (ended : some (out,[]) = some (k',ents)) :
      ∀ e ∈ ents, ∀ sz, TableFits (rsdpXsdt rsdp) e.1 sz → TableMapped k' e.1 e.2 sz := by
    cases ended
    exact fun e member => absurd member List.not_mem_nil
  split at ran
  · exact none_ ran
  split at ran
  · exact none_ ran
  split at ran
  · exact none_ ran
  obtain ⟨⟨k1,xsdt⟩,mapped,ran⟩ := Option.bind_eq_some_iff.mp ran
  obtain ⟨sz,_,ran⟩ := Option.bind_eq_some_iff.mp ran
  obtain ⟨bytes,_,ran⟩ := Option.bind_eq_some_iff.mp ran
  obtain ⟨magic,_,ran⟩ := Option.bind_eq_some_iff.mp ran
  split at ran
  · exact none_ ran
  split at ran
  · exact none_ ran
  dsimp only at ran
  split at ran
  · cases ran
  have few : 2 < 512 := by decide
  obtain ⟨w,below,first,second⟩ := pair
  have run : ∀ j < 2, k.mapping root (w * 2097152 + j * 2097152) = none := by
    intro j inside
    obtain rfl | rfl : j = 0 ∨ j = 1 := by omega
    · rw [Nat.zero_mul,Nat.add_zero,first]
    · rw [Nat.one_mul,second]
  obtain ⟨bound,found⟩ := pageVirtFindAddr_le (takePage_pool ..) work.pool hr few work.at_root work.current
    (Nat.mul_mod_left w 2097152) (by omega) run
  obtain ⟨at_xsdt,row⟩ := mapPaddr_row work.pool work.at_root hr krnlStyle_ok few found mapped
  obtain ⟨pool',root',current',_,others⟩ := mapPaddr_stays work.pool work.at_root hr krnlStyle_ok few
    work.current found mapped
  exact (acpimanMapTabs_mapped ⟨pool',root',current'⟩ hr row (pageVirtFindAddr_aligned found) (by omega) at_xsdt
    (.lose free others) ran).2.2

end Mapping

/-- An XSDT at 0x201000 with one table, at 0x5ff000. -/
def acpiRsdp : List UInt8 := rsdpMagic ++ [0xe1] ++ List.replicate 15 0 ++ [0x00,0x10,0x20] ++
  List.replicate 5 0 ++ [0xd0] ++ List.replicate 3 0

def acpiRam (a : Nat) : UInt8 :=
  if a < 0x201000 then 0
  else (xsdtMagic ++ [44,0,0,0,0,0x42] ++ List.replicate 26 0 ++ [0x00,0xf0,0x5f]).getD (a - 0x201000) 0

/-- A kernel with its first page mapped. -/
theorem acpiKernel : ∃ k k', Working 0x1000 [] [0x1000] k ∧ (∀ v, page v ≠ 0 → k.mapping 0x1000 v = none) ∧
    k.FreePages 0x1000 ([(0x5ff000,0x7ff000)].length + 2) ∧
    acpimanSetup takePage k acpiRsdp = some (k',[(0x5ff000,0x7ff000)]) ∧ k'.physical 0x800000 = none := by
  have there : (pageAlloc takePage bareKernel 0 0).any (fun k =>
      (acpimanSetup takePage { k with cr3 := 0x1000, ram := acpiRam } acpiRsdp).any fun r =>
        r.2 == [(0x5ff000,0x7ff000)] && r.1.physical 0x800000 == none) = true := by decide +kernel
  obtain ⟨k,mapped,run⟩ := (Option.any_eq_true _ _).mp there
  obtain ⟨⟨k',ents⟩,ran,facts⟩ := (Option.any_eq_true _ _).mp run
  obtain ⟨same,absent⟩ := Bool.and_eq_true_iff.mp facts
  have root : 0x1000 ∈ [0x1000] := List.mem_singleton.mpr rfl
  obtain ⟨pool,_,others⟩ := mapPage_mapping (takePage_pool 0x1000 []) krnlStyle_ok bareKernel_pool root mapped
  obtain ⟨still,_⟩ := mapPage_still takePage_steady mapped
  have unmapped (v : Nat) (other : page v ≠ 0) : k.mapping 0x1000 v = none :=
    (others 0x1000 root v fun same => other same.2).trans (bareKernel_mapping v)
  refine ⟨{ k with cr3 := 0x1000, ram := acpiRam },k',⟨⟨pool.good,pool.valid,pool.flat⟩,still.pml4Table,rfl⟩,
    unmapped,⟨[1,2,3],by decide,Nat.le_refl 3,fun w member => ?_⟩,?_,beq_iff_eq.mp absent⟩
  · have small : w = 1 ∨ w = 2 ∨ w = 3 := by simpa using member
    refine ⟨by omega,unmapped _ ?_⟩
    rcases small with rfl | rfl | rfl <;> decide
  · rw [ran]
    exact congrArg (fun l => some (k',l)) (beq_iff_eq.mp same)

/-- The first half of the table, whatever its size. -/
theorem acpi_tables_mapped_one : ∃ k', TableMapped k' 0x5ff000 0x7ff000 0x1000 := by
  obtain ⟨k,k',work,absent,free,ran,_⟩ := acpiKernel
  have root : 0x1000 ∈ [0x1000] := List.mem_singleton.mpr rfl
  refine ⟨k',acpi_tables_mapped work root ⟨1,by decide,absent _ (by decide),absent _ (by decide)⟩ free ran
    (0x5ff000,0x7ff000) (List.mem_singleton.mpr rfl) 0x1000 ⟨by decide,by decide⟩⟩

/-- A table of 8 KB there goes on in the next 2 MB, which are not mapped. -/
theorem acpi_tables_crossing : ¬∀ (k k' : Kernel) (root : Nat) (bufs roots : List Nat) (rsdp : List UInt8)
    (ents : List (Nat × Nat)), Working root bufs roots k → root ∈ roots → k.FreePages root (ents.length + 2) →
    (∃ w, w + 1 < 2^26 ∧ k.mapping root (w * 2097152) = none ∧ k.mapping root (w * 2097152 + 2097152) = none) →
    acpimanSetup takePage k rsdp = some (k',ents) →
    ∀ e ∈ ents, ∀ sz, e.1 + sz ≤ 2^48 → TableMapped k' e.1 e.2 sz := by
  intro all
  obtain ⟨k,k',work,absent,free,ran,behind⟩ := acpiKernel
  have mapped := all k k' 0x1000 [] [0x1000] acpiRsdp _ work (List.mem_singleton.mpr rfl) free
    ⟨1,by decide,absent _ (by decide),absent _ (by decide)⟩ ran (0x5ff000,0x7ff000) (List.mem_singleton.mpr rfl)
    0x2000 (by decide) 0x1000 (by decide)
  rw [behind] at mapped
  cases mapped

end Siegfried
