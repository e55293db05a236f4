import Siegfried.BootHeap

/-! Histories of the kernel's page allocator: which calls have been made, what they
returned and what has been given back. -/
namespace Siegfried

/-- An allocation that has not been freed: `pgs` pages from `vaddr` on, in `tab`. -/
structure Live where
  tab : Nat
  vaddr : Nat
  pgs : Nat
  deriving DecidableEq

def Live.pages (l : Live) : List (Nat × Nat) := places l.tab l.vaddr 0 l.pgs

/-- No function reads the lists: they record the allocations not yet freed, the tables of
the tasks there are and the pages of the page heap that are out for something else. -/
structure History where
  krnl : Kernel
  live : List Live
  tasks : List Nat
  bufs : List Nat

/-- `startTask` is what `task_start_func` does before it asks for a stack, `cleanup` what
`task_cleanup_zombie` does after it has freed the stack. -/
inductive Call where
  | findAndAlloc (pgs : Nat)
  | findAndAllocUser (tab vaddr pgs : Nat)
  | freeFound (l : Live)
  | freeFoundUser (l : Live)
  | startTask
  | cleanup (tab : Nat) (segs : List (Nat × Nat))
  | pageobjAlloc
  | pageobjFree (p : Nat)
  | mapPaddr (paddr pgs : Nat)
  | mapPaddrMmio (paddr pgs : Nat)
  | markAvailable (addr len : Nat)
  | switchTab (tab : Nat)

def pageUnmarkPhysMemMap (k : Kernel) (pa pgs : Nat) : Kernel :=
  let clear := fun (map : Nat → Bool) i => Function.update map (pa / 2097152 + i) false
  { k with physMemMap := (List.range pgs).foldl clear k.physMemMap }

/-- The calls that take back name an allocation, a table or a page that is out. -/
def History.call (alloc : Kernel → Option (Kernel × Nat)) (w : History) : Call → Option History
  | .findAndAlloc pgs => do
    let (k,addr) ← pageFindAndAlloc alloc w.krnl pgs
    some { w with krnl := k, live := ⟨w.krnl.pml4Table,addr,pgs⟩ :: w.live }
  | .findAndAllocUser tab vaddr pgs =>
    if tab ∈ w.tasks then do
      let (k,addr) ← pageFindAndAllocUser alloc w.krnl tab vaddr pgs
      some { w with krnl := k, live := ⟨tab,addr,pgs⟩ :: w.live }
    else none
  | .freeFound l =>
    if l ∈ w.live ∧ l.tab = w.krnl.pml4Table then
      some { w with krnl := pageFreeFound w.krnl l.vaddr l.pgs, live := w.live.erase l }
    else none
  | .freeFoundUser l =>
    if l ∈ w.live ∧ l.tab ∈ w.tasks then
      some { w with krnl := pageFreeFoundUser w.krnl l.tab l.vaddr l.pgs, live := w.live.erase l }
    else none
  | .startTask => do
    let (k,tab) ← alloc w.krnl
    let k ← pageCloneKrnlTab alloc k tab
    some { w with krnl := k, tasks := tab :: w.tasks }
  | .cleanup tab segs =>
    if tab ∈ w.tasks then
      let k := segs.foldl (fun k s => pageUnmarkPhysMemMap k s.1 s.2) w.krnl
      some { w with
        krnl := pageFreeTab kPageobjFree k tab
        tasks := w.tasks.filter (· ≠ tab)
        live := w.live.filter (·.tab ≠ tab) }
    else none
  | .pageobjAlloc => do
    let (k,p) ← alloc w.krnl
    some { w with krnl := k, bufs := p :: w.bufs }
  | .pageobjFree p =>
    if p ∈ w.bufs then some { w with krnl := kPageobjFree w.krnl p, bufs := w.bufs.erase p }
    else none
  | .mapPaddr paddr pgs => do
    let (k,_) ← pageMapPaddr alloc w.krnl paddr pgs
    some { w with krnl := k }
  | .mapPaddrMmio paddr pgs => do
    let (k,_) ← pageMapPaddrMmio alloc w.krnl paddr pgs
    some { w with krnl := k }
  | .markAvailable addr len => some { w with krnl := pageMarkAvailableMemRange w.krnl addr len }
  | .switchTab tab =>
    if tab = w.krnl.pml4Table ∨ tab ∈ w.tasks then some { w with krnl := { w.krnl with cr3 := tab } }
    else none

/-- Every state after boot and calls that satisfy `cond`, with the page heap growing at
most `n` deep. -/
inductive History.Run (image : Image) (n : Nat) (cond : History → Call → Prop) : History → Prop where
  | boot {mem : Forest.Store Nat (Fin 512) Entry} {ram : Nat → UInt8} {k : Kernel}
      (h : krnlMain (kPageobjAlloc n) image (image.entry mem ram) = some k) :
      History.Run image n cond ⟨k,[],[],[]⟩
  | call {w w' : History} {c : Call} (before : History.Run image n cond w) (ok : cond w c)
      (h : w.call (kPageobjAlloc n) c = some w') : History.Run image n cond w'

/-- The pages mapped for allocations that are live. Every block of the page heap but
the first, which boot registers, is one of `page_find_and_alloc(2)`. -/
def History.mappings (w : History) : List (Nat × Nat) :=
  w.live.flatMap Live.pages ++
    w.krnl.pageHeap.regions.dropLast.flatMap fun b => places w.krnl.pml4Table b.1 0 2

/-- No two live mappings share a frame. -/
def History.Sole (w : History) : Prop :=
  ∀ p ∈ w.mappings, ∀ q ∈ w.mappings, ∀ f, w.krnl.translate p.1 p.2 = some f →
    w.krnl.translate q.1 q.2 = some f → p.1 = q.1 ∧ page p.2 = page q.2

/-- The calls in turn. -/
def History.calls (alloc : Kernel → Option (Kernel × Nat)) (w : History) (cs : List Call) :
    Option History := cs.foldlM (History.call alloc) w

theorem History.Run.calls {image : Image} {n : Nat} {w w' : History} {cs : List Call}
    (run : History.Run image n (fun _ _ => True) w) (h : w.calls (kPageobjAlloc n) cs = some w') :
    History.Run image n (fun _ _ => True) w' :=
  Fold.foldlM_rest (fun _ w => History.Run image n (fun _ _ => True) w)
    (fun _ _ _ _ run step => run.call trivial step) run h

end Siegfried
