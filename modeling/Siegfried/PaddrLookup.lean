import Siegfried.PageSlot
import Siegfried.Anchored

/-! `page_lookup_paddr` and `page_lookup_paddr_tab` behind the four functions that map a page,
over whole histories of the page tables. -/
namespace Siegfried

/-- The functions that map a page to a given frame. -/
inductive Mapper where
  | pageAlloc
  | pageAllocMmio
  | pageAllocDev
  | pageAllocTab
  deriving DecidableEq

def Mapper.style : Mapper → MapStyle
  | .pageAlloc => krnlStyle
  | .pageAllocMmio => mmioStyle
  | .pageAllocDev => devStyle
  | .pageAllocTab => userStyle

/-- `tab` counts for `page_alloc_tab`; the others map in the kernel's table. -/
def Mapper.run (m : Mapper) (alloc : Kernel → Option (Kernel × Nat)) (k : Kernel) (tab phy vir : Nat) :
    Option Kernel :=
  match m with
  | .pageAlloc => Siegfried.pageAlloc alloc k phy vir
  | .pageAllocMmio => Siegfried.pageAllocMmio alloc k phy vir
  | .pageAllocDev => Siegfried.pageAllocDev alloc k phy vir
  | .pageAllocTab => Siegfried.pageAllocTab alloc k tab phy vir

def Mapper.tab (m : Mapper) (root tab : Nat) : Nat := if m = .pageAllocTab then tab else root

/-- The lookup that goes with it. -/
def Mapper.lookup (m : Mapper) (krnlEnd : Nat) (k : Kernel) (tab vir : Nat) : Option (Kernel × Nat) :=
  if m = .pageAllocTab then pageLookupPaddrTab k tab vir else pageLookupPaddr krnlEnd k vir

def pageUnmapVaddr (k : Kernel) (vaddr : Nat) : Kernel :=
  let pd := pdeiTable k k.pml4Table vaddr
  k.setEntry pd (pdei vaddr) { k.tables pd (pdei vaddr) with present := false }

/-- The kernel with the pages of the heap that are out as buffers, and the page tables in
use, the kernel's among them. -/
structure Maps where
  krnl : Kernel
  bufs : List Nat
  roots : List Nat

inductive MapOp where
  | map (m : Mapper) (tab phy vir : Nat)
  | freeFound (vaddr pgs : Nat)
  | freeFoundUser (tab vaddr pgs : Nat)
  | unmapVaddr (vaddr : Nat)
  | clone
  | freeTab (tab : Nat)
  | take
  | give (p : Nat)

/-- Maps the page again, or gives the table back. -/
def MapOp.renews (root tab v : Nat) : MapOp → Prop
  | .map m tab' _ vir => m.tab root tab' = tab ∧ page vir = page v
  | .freeTab tab' => tab' = tab
  | _ => False

/-- One call. Pages are unmapped where their tables exist, and the heap does not grow. -/
inductive MapStep : Maps → MapOp → Maps → Prop where
  | map {w : Maps} {k' : Kernel} {m : Mapper} {tab phy vir : Nat} (live : m.tab w.krnl.pml4Table tab ∈ w.roots)
    (h : m.run takePage w.krnl tab phy vir = some k') : MapStep w (.map m tab phy vir) { w with krnl := k' }
  | freeFound {w : Maps} {vaddr pgs : Nat}
    (there : ∀ i < pgs, w.krnl.region w.krnl.pml4Table (vaddr + i * 2097152)) :
    MapStep w (.freeFound vaddr pgs) { w with krnl := pageFreeFound w.krnl vaddr pgs }
  | freeFoundUser {w : Maps} {tab vaddr pgs : Nat} (live : tab ∈ w.roots)
    (there : ∀ i < pgs, w.krnl.region tab (vaddr + i * 2097152)) :
    MapStep w (.freeFoundUser tab vaddr pgs) { w with krnl := pageFreeFoundUser w.krnl tab vaddr pgs }
  | unmapVaddr {w : Maps} {vaddr : Nat} (there : w.krnl.region w.krnl.pml4Table vaddr) :
    MapStep w (.unmapVaddr vaddr) { w with krnl := pageUnmapVaddr w.krnl vaddr }
  | clone {w : Maps} {k1 k' : Kernel} {dest : Nat} (taken : takePage w.krnl = some (k1,dest))
    (h : pageCloneKrnlTab takePage k1 dest = some k') :
    MapStep w .clone { w with krnl := k', roots := dest :: w.roots }
  | freeTab {w : Maps} {tab : Nat} (live : tab ∈ w.roots) (other : tab ≠ w.krnl.pml4Table) :
    MapStep w (.freeTab tab)
      { w with krnl := pageFreeTab kPageobjFree w.krnl tab, roots := w.roots.filter (· ≠ tab) }
  | take {w : Maps} {k' : Kernel} {p : Nat} (taken : takePage w.krnl = some (k',p)) :
    MapStep w .take { w with krnl := k', bufs := p :: w.bufs }
  | give {w : Maps} {p : Nat} (out : p ∈ w.bufs) :
    MapStep w (.give p) { w with krnl := kPageobjFree w.krnl p, bufs := w.bufs.erase p }

inductive MapRun : Maps → List MapOp → Maps → Prop where
  | nil (w : Maps) : MapRun w [] w
  | step {w w' w'' : Maps} {ops : List MapOp} {op : MapOp} (before : MapRun w ops w') (step : MapStep w' op w'') :
    MapRun w (ops ++ [op]) w''

/-- The kernel's table is the only one and has no entry. -/
structure Maps.Blank (w : Maps) : Prop where
  heap : HeapAt w.krnl.pml4Table [] w.krnl.pageHeap
  empty : ∀ i, w.krnl.tables w.krnl.pml4Table i = .zero
  bufs : w.bufs = []
  roots : w.roots = [w.krnl.pml4Table]

/-- Page tables and page heap in order. -/
structure Maps.Ok (w : Maps) : Prop where
  pool : Pool w.krnl.pml4Table w.bufs w.roots w.krnl
  once : w.bufs.Nodup
  root : w.krnl.pml4Table ∈ w.roots

theorem Mapper.run_eq (m : Mapper) (alloc : Kernel → Option (Kernel × Nat)) (k : Kernel) (tab phy vir : Nat) :
    m.run alloc k tab phy vir = mapPage m.style alloc k (m.tab k.pml4Table tab) phy vir := by
  cases m <;> rfl

theorem Mapper.style_ok (m : Mapper) : m.style.Ok := by
  cases m
  · exact krnlStyle_ok
  · exact mmioStyle_ok
  · exact devStyle_ok
  · exact userStyle_ok

variable {w w' w'' : Maps} {op : MapOp} {ops : List MapOp}

theorem Maps.Blank.ok (blank : w.Blank) : w.Ok := by
  obtain ⟨heap,empty,bufs,roots⟩ := blank
  have absent (i : Fin 512) : (w.krnl.tables w.krnl.pml4Table i).child = none := by
    rw [empty]
    rfl
  have stuck {q : List (Fin 512)} {p : Nat}
      (reach : Forest.walk Entry.child w.krnl.tables w.krnl.pml4Table q = some p) :
      q = [] ∧ p = w.krnl.pml4Table := by
    cases q with
    | nil => exact ⟨rfl,(Option.some.inj reach).symm⟩
    | cons i q => simp [Forest.walk_cons,absent i] at reach
  refine ⟨⟨bufs ▸ heap,⟨?_,?_⟩,?_⟩,bufs ▸ .nil,by simp [roots]⟩
  · intro r s hr hs a b p _ _ wa wb
    rw [roots,List.mem_singleton] at hr hs
    subst hr hs
    exact ⟨rfl,(stuck wa).1.trans (stuck wb).1.symm⟩
  · intro r hr a p _ wa
    rw [roots,List.mem_singleton] at hr
    subst hr
    exact .inl (stuck wa).2
  · intro r hr a p wa
    rw [roots,List.mem_singleton] at hr
    subst hr
    cases (stuck wa).1

theorem cloneKrnlTab_root {alloc : Kernel → Option (Kernel × Nat)} (steady : Steady alloc) {k k' : Kernel}
    {dest : Nat} (h : pageCloneKrnlTab alloc k dest = some k') : k'.pml4Table = k.pml4Table := by
  have inner (p src : Nat) (i : Fin 512) (m m' : Kernel) (root : m.pml4Table = k.pml4Table)
      (step : clonePdpte alloc p src m i = some m') : m'.pml4Table = k.pml4Table := by
    simp only [clonePdpte] at step
    split at step
    · simp only [Option.bind_eq_bind,Option.bind_eq_some_iff,Option.some.injEq] at step
      obtain ⟨⟨m1,c⟩,taken,rfl⟩ := step
      exact (steady taken).pml4Table.trans root
    · cases step
      exact root
  have outer (i : Fin 512) (m m' : Kernel) (root : m.pml4Table = k.pml4Table)
      (step : clonePml4e alloc dest k.pml4Table m i = some m') : m'.pml4Table = k.pml4Table := by
    simp only [clonePml4e] at step
    split at step
    · simp only [Option.bind_eq_bind,Option.bind_eq_some_iff] at step
      obtain ⟨⟨m1,c⟩,taken,loop⟩ := step
      exact Fold.foldlM_rest (fun _ m => m.pml4Table = k.pml4Table)
        (fun i _ m m' inv step => inner _ _ i m m' inv step) ((steady taken).pml4Table.trans root) loop
    · cases step
      exact root
  simp only [pageCloneKrnlTab,pageClonePageTab,Option.bind_eq_bind,Option.bind_eq_some_iff,
    Option.some.injEq] at h
  obtain ⟨k1,loop,rfl⟩ := h
  exact Fold.foldlM_rest (fun _ m => m.pml4Table = k.pml4Table)
    (fun i _ m m' inv step => outer i m m' inv step) rfl loop

/-- A call keeps the tables in order, the kernel's table where it is, and the address in each
slot that it does not renew. -/
theorem MapStep.keeps (ok : w.Ok) (step : MapStep w op w') : w'.Ok ∧
    w'.krnl.pml4Table = w.krnl.pml4Table ∧
    ∀ s ∈ w.roots, ∀ v a, ¬op.renews w.krnl.pml4Table s v → w.krnl.paddrAt s v = some a →
      s ∈ w'.roots ∧ w'.krnl.paddrAt s v = some a := by
  have source := takePage_pool w.krnl.pml4Table w.bufs
  obtain ⟨pool,once,root⟩ := ok
  cases step with
  | @map k' m tab phy vir live h =>
    rw [Mapper.run_eq] at h
    have same := (mapPage_still takePage_steady h).1.pml4Table
    have same : k'.pml4Table = w.krnl.pml4Table := same
    obtain ⟨after,_,_⟩ := mapPage_mapping source m.style_ok pool live h
    refine ⟨⟨same ▸ after,once,same ▸ root⟩,same,fun s hs v a quiet slot => ⟨hs,?_⟩⟩
    obtain ⟨e,found,rfl⟩ := Option.map_eq_some_iff.mp slot
    have kept := (mapPage_slot source m.style_ok pool live h).2 s hs v
      (fun named => quiet ⟨named.1.symm,named.2.symm⟩) e found
    rw [Kernel.paddrAt,kept]
    rfl
  | @freeFound vaddr pgs there =>
    have start : Pool w.krnl.pml4Table w.bufs w.roots { w.krnl with cr3 := w.krnl.pml4Table } :=
      ⟨pool.good,pool.valid,pool.flat⟩
    obtain ⟨after,paddr⟩ := freePages_paddrAt source start root there
    have same : (pageFreeFound w.krnl vaddr pgs).pml4Table = w.krnl.pml4Table := (freePages_same _ _ _).2.1
    refine ⟨⟨?_,once,same ▸ root⟩,same,fun s hs v a _ slot => ⟨hs,(paddr s hs v).trans slot⟩⟩
    rw [same]
    exact ⟨after.good,after.valid,after.flat⟩
  | @freeFoundUser tab vaddr pgs live there =>
    have start : Pool w.krnl.pml4Table w.bufs w.roots { w.krnl with cr3 := w.krnl.pml4Table } :=
      ⟨pool.good,pool.valid,pool.flat⟩
    obtain ⟨after,paddr⟩ := freePages_paddrAt source start live there
    have same : (pageFreeFoundUser w.krnl tab vaddr pgs).pml4Table = w.krnl.pml4Table :=
      (freePages_same _ _ _).2.1
    refine ⟨⟨?_,once,same ▸ root⟩,same,fun s hs v a _ slot => ⟨hs,(paddr s hs v).trans slot⟩⟩
    rw [same]
    exact ⟨after.good,after.valid,after.flat⟩
  | @unmapVaddr vaddr there =>
    obtain ⟨pd,reach⟩ := there
    have found := pool.pdeiTable source root reach
    have after := (pool.leaf root reach { w.krnl.tables pd (pdei vaddr) with present := false }).1
    rw [← found] at after
    refine ⟨⟨after,once,root⟩,rfl,fun s hs v a _ slot => ⟨hs,?_⟩⟩
    have kept := pool.paddrAt_absent root reach hs v
    rw [← found] at kept
    exact kept.trans slot
  | @clone k1 k' dest taken h =>
    have same : k'.pml4Table = w.krnl.pml4Table :=
      (cloneKrnlTab_root takePage_steady h).trans (takePage_steady taken).pml4Table
    have after := (clone_built source pool taken h).tabs
    refine ⟨⟨same ▸ after,once,same ▸ List.mem_cons_of_mem _ root⟩,same,fun s hs v a _ slot => ?_⟩
    exact ⟨List.mem_cons_of_mem _ hs,(clone_paddrAt source pool taken h hs v).trans slot⟩
  | @freeTab tab live other =>
    have sink := kPageobjFree_sink w.krnl.pml4Table (· = w.krnl.pml4Table) w.bufs
    have loose (p : Nat) (reach : Forest.Reach Entry.child w.krnl.tables 2 tab p) :
        p ≠ w.krnl.pml4Table := by
      rintro rfl
      obtain ⟨path,short,reach⟩ := reach
      exact other (pool.valid.separated live root short (by simp) reach (Forest.walk_nil _)).1
    have same : (pageFreeTab kPageobjFree w.krnl tab).pml4Table = w.krnl.pml4Table :=
      (pageFreeTab_fewer pool.good.small tab).still.pml4Table
    have sub (s : Nat) (hs : s ∈ w.roots.filter (· ≠ tab)) : s ∈ w.roots ∧ s ≠ tab := by simpa using hs
    obtain ⟨after,_⟩ := pageFreeTab_mapping source sink pool live loose sub
    have paddr (s : Nat) (hs : s ∈ w.roots) (away : s ≠ tab) (v : Nat) :=
      pageFreeTab_paddrAt source sink pool live loose hs away v
    generalize pageFreeTab kPageobjFree w.krnl tab = k' at same after paddr ⊢
    refine ⟨⟨same ▸ after,once,?_⟩,same,fun s hs v a quiet slot => ?_⟩
    · exact List.mem_filter.mpr ⟨same ▸ root,by simpa [same] using Ne.symm other⟩
    · have away : s ≠ tab := fun named => quiet named.symm
      exact ⟨List.mem_filter.mpr ⟨hs,by simpa using away⟩,(paddr s hs away v).trans slot⟩
  | @take k' p taken =>
    have same := (takePage_steady taken).pml4Table
    have served := source.served pool.good taken
    obtain ⟨after,_,fresh⟩ := takePage_buf pool taken
    refine ⟨⟨same ▸ after,List.nodup_cons.mpr ⟨fresh,once⟩,same ▸ root⟩,same,fun s hs v a _ slot => ⟨hs,?_⟩⟩
    rw [Kernel.paddrAt,pool.slot_agree served.kept hs]
    exact slot
  | @give p out =>
    have plain := kPageobjFree_plain pool.good.small p
    have same : (kPageobjFree w.krnl p).pml4Table = w.krnl.pml4Table := by rw [plain]
    obtain ⟨after,_⟩ := kPageobjFree_buf pool out once
    refine ⟨⟨same ▸ after,once.erase p,same ▸ root⟩,same,fun s hs v a _ slot => ⟨hs,?_⟩⟩
    have tables : (kPageobjFree w.krnl p).tables = w.krnl.tables := by rw [plain]
    rw [Kernel.paddrAt,pool.slot_agree (fun q _ => congrFun tables q) hs]
    exact slot

theorem MapRun.keeps (ok : w.Ok) (run : MapRun w ops w') : w'.Ok ∧ w'.krnl.pml4Table = w.krnl.pml4Table ∧
    ∀ s ∈ w.roots, ∀ v a, (∀ op ∈ ops, ¬op.renews w.krnl.pml4Table s v) → w.krnl.paddrAt s v = some a →
      s ∈ w'.roots ∧ w'.krnl.paddrAt s v = some a := by
  induction run with
  | nil => exact ⟨ok,rfl,fun s hs v a _ slot => ⟨hs,slot⟩⟩
  | @step w' w'' ops op before step ih =>
    obtain ⟨ok',same,kept⟩ := ih
    obtain ⟨ok'',same',kept'⟩ := step.keeps ok'
    refine ⟨ok'',same'.trans same,fun s hs v a quiet slot => ?_⟩
    obtain ⟨hs',slot'⟩ := kept s hs v a (fun op member => quiet op (List.mem_append_left _ member)) slot
    exact kept' s hs' v a (same ▸ quiet op (by simp)) slot'

theorem bareKernel_blank : Maps.Blank ⟨bareKernel,[],[0x1000]⟩ := ⟨bareKernel_heap,fun _ => rfl,rfl,rfl⟩

end Siegfried
