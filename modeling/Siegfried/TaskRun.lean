import Siegfried.PagePool

/-! Histories of task tables: clones, mappings, unmappings and tables given back, over
any source and sink of table pages. -/
namespace Siegfried

inductive TabOp where
  | allocTab (tab phy vir : Nat)
  | freeFoundUser (tab vaddr pgs : Nat)
  | clone
  | freeTab (tab : Nat)

/-- The pages an operation is asked to change. -/
def TabOp.names (op : TabOp) (s v : Nat) : Prop :=
  match op with
  | .allocTab tab _ vir => s = tab ∧ page v = page vir
  | .freeFoundUser tab vaddr pgs => s = tab ∧ ∃ i < pgs, page v = page (vaddr + i * 2097152)
  | .clone => False
  | .freeTab _ => False

/-- One call, on live tables `tabs`; a task's table is a page of the heap that
`page_clone_krnl_tab` has filled. -/
inductive TabStep (alloc : Kernel → Option (Kernel × Nat)) (free : Kernel → Nat → Kernel) :
    Kernel → List Nat → TabOp → Kernel → List Nat → Prop where
  | allocTab {k k' : Kernel} {tabs : List Nat} {tab phy vir : Nat} (live : tab ∈ tabs)
      (h : pageAllocTab alloc k tab phy vir = some k') :
      TabStep alloc free k tabs (.allocTab tab phy vir) k' tabs
  | freeFoundUser {k : Kernel} {tabs : List Nat} {tab vaddr pgs : Nat} (live : tab ∈ tabs)
      (mapped : ∀ i < pgs, k.translate tab (vaddr + i * 2097152) ≠ none) :
      TabStep alloc free k tabs (.freeFoundUser tab vaddr pgs)
        (pageFreeFoundUser k tab vaddr pgs) tabs
  | clone {k k1 k' : Kernel} {tabs : List Nat} {dest : Nat} (taken : alloc k = some (k1,dest))
      (h : pageCloneKrnlTab alloc k1 dest = some k') :
      TabStep alloc free k tabs .clone k' (dest :: tabs)
  | freeTab {k : Kernel} {tabs : List Nat} {tab : Nat} (live : tab ∈ tabs) :
      TabStep alloc free k tabs (.freeTab tab) (pageFreeTab free k tab) (tabs.filter (· ≠ tab))

inductive TabRun (good : Heap → Prop) (alloc : Kernel → Option (Kernel × Nat))
    (free : Kernel → Nat → Kernel) : Kernel → List Nat → Prop where
  | start {k : Kernel} (ready : good k.pageHeap) : TabRun good alloc free k []
  | step {k k' : Kernel} {tabs tabs' : List Nat} {op : TabOp} (before : TabRun good alloc free k tabs)
      (step : TabStep alloc free k tabs op k' tabs') : TabRun good alloc free k' tabs'

section Run
variable {good : Heap → Prop} {owns : Heap → Nat → Prop} {alloc : Kernel → Option (Kernel × Nat)}
  {free : Kernel → Nat → Kernel} {k k' : Kernel} {tabs tabs' : List Nat} {op : TabOp}

/-- A clone builds below a root of its own. -/
theorem clone_built (source : PageSource good owns alloc) (inv : Tabs good owns tabs k) {k1 : Kernel}
    {dest : Nat} (taken : alloc k = some (k1,dest)) (h : pageCloneKrnlTab alloc k1 dest = some k') :
    Built good owns (dest :: tabs) dest dest k1 k' := by
  have served := source.served inv.good taken
  have blank (i : Fin 512) : (k1.tables dest i).child = none := by
    rw [served.zeroed]; rfl
  have rooted : Tabs good owns (dest :: tabs) k1 := by
    have agreed := inv.agree served.good (fun q hq => (served.owned q).mpr (.inl hq)) served.kept
    refine ⟨served.good,((inv.valid.agree served.kept).add_root served.fresh blank).mono
      fun q hq => (served.owned q).mpr hq,?_⟩
    intro s hs a p reach i
    rcases List.mem_cons.mp hs with rfl | hs
    · simp [Forest.walk_cons,blank] at reach
    · exact agreed.flat s hs a p reach i
  exact pageClonePageTab_built source rooted (List.mem_cons_self ..)
    (fun i => by rw [served.zeroed]; rfl) h

/-- A clone adds a root and disturbs none. -/
theorem clone_mapping (source : PageSource good owns alloc) (inv : Tabs good owns tabs k) {k1 : Kernel}
    {dest : Nat} (taken : alloc k = some (k1,dest)) (h : pageCloneKrnlTab alloc k1 dest = some k') :
    Tabs good owns (dest :: tabs) k' ∧ ∀ s ∈ tabs, ∀ v, k'.mapping s v = k.mapping s v := by
  have served := source.served inv.good taken
  have built := clone_built source inv taken h
  refine ⟨built.tabs,fun s hs v => ?_⟩
  have other : s ≠ dest := fun same => served.fresh (same ▸ inv.valid.root hs)
  rw [built.mapping s (List.mem_cons_of_mem _ hs) other v]
  exact inv.mapping_agree served.kept hs v

theorem TabStep.mapping (source : PageSource good owns alloc)
    (sink : PageSink good owns (fun _ => False) free) (inv : Tabs good owns tabs k)
    (step : TabStep alloc free k tabs op k' tabs') : Tabs good owns tabs' k' ∧
      ∀ s ∈ tabs, s ∈ tabs' → ∀ v, ¬op.names s v → k'.mapping s v = k.mapping s v := by
  cases step with
  | allocTab live h =>
    obtain ⟨after,_,others⟩ := mapPage_mapping source userStyle_ok inv live h
    exact ⟨after,fun s hs _ v other => others s hs v other⟩
  | freeFoundUser live mapped =>
    obtain ⟨after,others⟩ := pageFreeFoundUser_mapping source inv live mapped
    exact ⟨after,fun s hs _ v other => others s hs v other⟩
  | clone taken h =>
    obtain ⟨after,others⟩ := clone_mapping source inv taken h
    exact ⟨after,fun s hs _ v _ => others s hs v⟩
  | @freeTab _ tab live =>
    have apart (s : Nat) (hs : s ∈ tabs.filter (· ≠ tab)) : s ∈ tabs ∧ s ≠ tab := by
      simpa using hs
    obtain ⟨after,others⟩ := pageFreeTab_mapping source sink inv live (fun _ _ h => h) apart
    exact ⟨after,fun s _ hs v _ => others s hs v⟩

theorem TabRun.inv (source : PageSource good owns alloc)
    (sink : PageSink good owns (fun _ => False) free) (run : TabRun good alloc free k tabs) :
    Tabs good owns tabs k := by
  induction run with
  | start ready => exact ⟨ready,⟨fun _ _ hr => absurd hr List.not_mem_nil,
      fun _ hr => absurd hr List.not_mem_nil⟩,fun _ hr => absurd hr List.not_mem_nil⟩
  | step _ step ih => exact (step.mapping source sink ih).1

end Run

/-- A kernel whose own table maps nothing, running on one that maps the heap. -/
def bareKernel : Kernel where
  tables p i :=
    if p = 0x2000 ∧ i.val = 0 then { Entry.zero.setPaddr 0x3000 with present := true }
    else if p = 0x3000 ∧ i.val = 0 then { Entry.zero.setPaddr 0x4000 with present := true }
    else if p = 0x4000 then { Entry.zero.setPaddrPde (i * 2^21) with present := true, ps := true }
    else .zero
  pageHeap := kPageobjAddHeapblk (kPageobjInitHeap 4096) 0x400000 0x800000
  physMemMap _ := false
  availMem := []
  cr3 := 0x2000
  pml4Table := 0x1000
  ram _ := 0

theorem bareKernel_heap : HeapAt 0x1000 [] bareKernel.pageHeap where
  inv := by
    have region : (kPageobjInitHeap 4096).Region 0x400000 0x800000 :=
      ⟨by decide,by decide,by decide,by decide,by simp [kPageobjInitHeap]⟩
    have added : HeapRun Fits _ := HeapRun.init.add region (by decide)
    exact added.inv
  low := by decide
  small := by decide
  apart := by decide
  aligned := by decide
  start := by decide
  root_low := by decide
  bufs := by simp

end Siegfried
