import Siegfried.FrameRun
import Siegfried.TaskRun
import Mathlib.Data.List.Flatten

/-! Which calls keep every live allocation on frames of its own. -/
namespace Siegfried

section User
variable {root : Nat} {bufs roots : List Nat} {k k' : Kernel} {tab vaddr pgs addr : Nat}

theorem pageFindAndAllocUser_addr (h : pageFindAndAllocUser takePage k tab vaddr pgs = some (k',addr)) :
    addr = vaddr := by
  simp only [pageFindAndAllocUser,Option.bind_eq_bind,Option.bind_eq_some_iff] at h
  obtain ⟨_,_,h⟩ := h
  split at h
  · cases h
    rfl
  split at h
  · cases h
  simp only [Option.bind_eq_some_iff,Option.some.injEq,Prod.mk.injEq] at h
  obtain ⟨_,_,_,_,_,rfl⟩ := h
  rfl

theorem pageFindAndAllocUser_anchored (pool : Pool root bufs roots k) (top : root ∈ roots)
    (hr : tab ∈ roots) (at_root : k.pml4Table = root) (anchored : Anchored root k)
    (h : pageFindAndAllocUser takePage k tab vaddr pgs = some (k',addr)) : Anchored root k' := by
  have pool0 : Pool root bufs roots { k with cr3 := k.pml4Table } :=
    pool.agree pool.good (fun _ hq => hq) fun _ _ => rfl
  have anchored0 : Anchored root { k with cr3 := k.pml4Table } := ⟨anchored.table,anchored.heap⟩
  simp only [pageFindAndAllocUser,Option.bind_eq_bind,Option.bind_eq_some_iff] at h
  obtain ⟨_,_,h⟩ := h
  split at h
  · cases h
    exact ⟨anchored.table,anchored.heap⟩
  split at h
  · cases h
  simp only [Option.bind_eq_some_iff,Option.some.injEq,Prod.mk.injEq] at h
  obtain ⟨m,mapped,n,zeroed,rfl,_⟩ := h
  obtain ⟨ram,rfl⟩ := zeroUser_ram zeroed
  have after := allocPages_anchored (k := { k with cr3 := k.pml4Table }) top hr userStyle_ok
    (fun _ _ _ _ => rfl) at_root pool0 anchored0 mapped
  exact ⟨after.table,after.heap⟩

theorem mapPaddr_anchored (pool : Pool root bufs roots k) (top : root ∈ roots)
    (at_root : k.pml4Table = root) (current : k.cr3 = root) {style : MapStyle} (ok : style.Ok)
    {paddr : Nat} (found : pageVirtFindAddr k pgs ≠ 0xDEAD) (anchored : Anchored root k)
    (h : mapPaddr takePage k style paddr pgs = some (k',addr)) : Anchored root k' := by
  simp only [mapPaddr,found,if_false,Option.bind_eq_bind,Option.bind_eq_some_iff,
    Option.some.injEq,Prod.mk.injEq] at h
  obtain ⟨m,loop,rfl,_⟩ := h
  have last := Fold.foldlM_rest (fun _ m => Pool root bufs roots m ∧ m.pml4Table = root ∧
    m.cr3 = root ∧ Anchored root m) ?_ ⟨pool,at_root,current,anchored⟩ loop
  · exact last.2.2.2
  · rintro i l m m' ⟨inv,table,cr3,before⟩ mapped
    rw [table] at mapped
    obtain ⟨inv',kept⟩ := mapPage_kept (takePage_pool ..) takePage_steady ok inv top mapped
    exact ⟨inv',kept.pml4Table.trans table,kept.cr3.trans cr3,
      mapPage_anchored inv top top cr3 ok before mapped⟩

theorem Tabs.subset {good : Heap → Prop} {owns : Heap → Nat → Prop} {fewer : List Nat}
    (tabs : Tabs good owns roots k) (sub : ∀ s ∈ fewer, s ∈ roots) : Tabs good owns fewer k :=
  ⟨tabs.good,tabs.valid.subset sub,fun s hs => tabs.flat s (sub s hs)⟩

end User

/-- The loop of `task_cleanup_zombie` over the segments changes marks only. -/
theorem unmark_spec (k : Kernel) (segs : List (Nat × Nat)) : ∃ map,
    segs.foldl (fun k s => pageUnmarkPhysMemMap k s.1 s.2) k = { k with physMemMap := map } ∧
      ∀ f, k.physMemMap f = true → (∀ s ∈ segs, ∀ i < s.2, f ≠ s.1 / 2097152 + i) → map f = true := by
  have clears (pa : Nat) (l : List Nat) (map : Nat → Bool) (f : Nat) (mark : map f = true)
      (out : ∀ i ∈ l, f ≠ pa / 2097152 + i) : l.foldl (fun (map : Nat → Bool) i =>
        Function.update map (pa / 2097152 + i) false) map f = true := by
    induction l generalizing map with
    | nil => exact mark
    | cons i l ih =>
      refine ih _ ?_ fun j hj => out j (List.mem_cons_of_mem _ hj)
      exact (Function.update_of_ne (out i (List.mem_cons_self ..)) ..).trans mark
  induction segs generalizing k with
  | nil => exact ⟨k.physMemMap,rfl,fun _ mark _ => mark⟩
  | cons s segs ih =>
    obtain ⟨map,same,marks⟩ := ih (pageUnmarkPhysMemMap k s.1 s.2)
    refine ⟨map,same,fun f mark out => marks f ?_ fun s' hs => out s' (List.mem_cons_of_mem _ hs)⟩
    exact clears s.1 _ k.physMemMap f mark fun i hi =>
      out s (List.mem_cons_self ..) i (List.mem_range.mp hi)

/-- The frames of an allocation lie below 8 TiB, where `get_paddr` reads them back. -/
def History.Low (w : History) (l : Live) : Prop :=
  ∀ i < l.pgs, ∀ f, w.krnl.translate l.tab (l.vaddr + i * 2097152) = some f → f < 2^22

/-- The call ends without extending the page heap. -/
def History.Calm (w : History) (c : Call) : Prop := (w.call takePage c).isSome = true

/-- The kernel's table maps the page that the heap gives next, as the current table does. -/
def Kernel.Reached (k : Kernel) (t : Taken Heap) : Prop :=
  (k.translate k.pml4Table t.ptr).isSome = true ∧
    k.translate k.cr3 t.ptr = k.translate k.pml4Table t.ptr

/-- What a call must find in the state before it. -/
def Careful (w : History) (c : Call) : Prop :=
  match c with
  | .findAndAlloc pgs => w.Calm c ∧ w.krnl.Free pgs
  | .findAndAllocUser tab vaddr pgs => w.Calm c ∧ isMappedUser w.krnl tab vaddr = false ∧
      ∀ i < pgs, ∀ e, w.krnl.mapping tab (vaddr + i * 2097152) = some e → e.isuser = false
  | .freeFound l => w.Low l ∧ ∀ a,
      (w.krnl.pml4Table ≤ a ∧ a < w.krnl.pml4Table + 4096 ∨ w.krnl.pageHeap.uses a) →
        ∀ i < l.pgs, page a ≠ page (l.vaddr + i * 2097152)
  | .freeFoundUser l => w.Low l
  | .startTask => w.Calm c ∧ w.krnl.cr3 = w.krnl.pml4Table
  | .cleanup tab segs => ∀ s ∈ segs, ∀ i < s.2, ∀ p ∈ w.mappings, p.1 ≠ tab →
      w.krnl.translate p.1 p.2 ≠ some (s.1 / 2097152 + i)
  | .pageobjAlloc => ∀ t, w.krnl.pageHeap.take = some t → w.krnl.Reached t ∧
      (t.grows = true → ({ w.krnl with pageHeap := t.rest } : Kernel).GrowsApart)
  | .pageobjFree _ => True
  | .mapPaddr _ pgs | .mapPaddrMmio _ pgs => pageVirtFindAddr w.krnl pgs ≠ 0xDEAD → w.Calm c ∧
      w.krnl.cr3 = w.krnl.pml4Table ∧
      ∀ i < pgs, w.krnl.mapping w.krnl.pml4Table (pageVirtFindAddr w.krnl pgs + i * 2097152) = none
  | .markAvailable _ _ => True
  | .switchTab _ => True

/-- The page tables and the page heap are in order, the allocator's own memory is mapped,
and the live allocations have frames of their own. -/
structure History.Inv (root : Nat) (w : History) : Prop where
  at_root : w.krnl.pml4Table = root
  pool : Pool root w.bufs (root :: w.tasks) w.krnl
  other : root ∉ w.tasks
  once : w.bufs.Nodup
  tables : ∀ l ∈ w.live, l.tab ∈ root :: w.tasks
  blocks : w.krnl.pageHeap.regions ≠ []
  anchored : Anchored root w.krnl
  backed : Backed w.krnl w.mappings

section Step
variable {root : Nat} {w w' : History} {k : Kernel}

section Mappings
variable (w : History) (tasks bufs : List Nat) {k : Kernel}
  (regions : k.pageHeap.regions = w.krnl.pageHeap.regions) (table : k.pml4Table = w.krnl.pml4Table)
include regions table

theorem History.mappings_same :
    (⟨k,w.live,tasks,bufs⟩ : History).mappings = w.mappings := by
  simp only [History.mappings,regions,table]

theorem History.mappings_cons (l : Live) :
    (⟨k,l :: w.live,tasks,bufs⟩ : History).mappings = l.pages ++ w.mappings := by
  simp only [History.mappings,regions,table,List.flatMap_cons,List.append_assoc]

theorem History.mappings_erase {l : Live} (member : l ∈ w.live) :
    w.mappings.Perm (l.pages ++ (⟨k,w.live.erase l,tasks,bufs⟩ : History).mappings) := by
  have moved := ((List.perm_cons_erase member).flatMap_right Live.pages).append_right
    (w.krnl.pageHeap.regions.dropLast.flatMap fun b => places w.krnl.pml4Table b.1 0 2)
  rw [List.flatMap_cons,List.append_assoc] at moved
  simpa only [History.mappings,regions,table] using moved

end Mappings

namespace History.Inv
variable (inv : w.Inv root)
include inv

theorem inside (p : Nat × Nat) (hp : p ∈ w.mappings) : p.1 ∈ root :: w.tasks := by
  rcases List.mem_append.mp hp with hp | hp
  · obtain ⟨l,hl,hp⟩ := List.mem_flatMap.mp hp
    obtain ⟨_,_,_,rfl⟩ := mem_places.mp hp
    exact inv.tables l hl
  · obtain ⟨b,_,hp⟩ := List.mem_flatMap.mp hp
    obtain ⟨_,_,_,rfl⟩ := mem_places.mp hp
    rw [inv.at_root]
    exact List.mem_cons_self ..

theorem findAndAlloc {pgs : Nat} (careful : Careful w (.findAndAlloc pgs))
    (h : w.call takePage (.findAndAlloc pgs) = some w') : w'.Inv root := by
  have top := List.mem_cons_self (a := root) (l := w.tasks)
  simp only [History.call,Option.bind_eq_bind,Option.bind_eq_some_iff,Option.some.injEq] at h
  obtain ⟨⟨k,addr⟩,found,rfl⟩ := h
  obtain ⟨rfl,_,pool,backed,kept,anchored⟩ := pageFindAndAlloc_free inv.pool inv.at_root top
    inv.inside inv.backed inv.anchored careful.2 found
  refine ⟨kept.pml4Table.trans inv.at_root,pool,inv.other,inv.once,?_,?_,anchored,?_⟩
  · exact List.forall_mem_cons.mpr ⟨inv.at_root ▸ top,inv.tables⟩
  · exact kept.regions ▸ inv.blocks
  · rw [w.mappings_cons _ _ kept.regions kept.pml4Table,Live.pages,inv.at_root]
    exact backed

theorem findAndAllocUser {tab vaddr pgs : Nat} (careful : Careful w (.findAndAllocUser tab vaddr pgs))
    (h : w.call takePage (.findAndAllocUser tab vaddr pgs) = some w') : w'.Inv root := by
  simp only [History.call] at h
  split at h
  swap
  · cases h
  next task =>
  simp only [Option.bind_eq_bind,Option.bind_eq_some_iff,Option.some.injEq] at h
  obtain ⟨⟨k,addr⟩,found,rfl⟩ := h
  have hr : tab ∈ root :: w.tasks := List.mem_cons_of_mem _ task
  have other : tab ≠ root := fun same => inv.other (same ▸ task)
  obtain ⟨_,fresh,unused⟩ := careful
  obtain rfl := pageFindAndAllocUser_addr found
  obtain ⟨pool,backed,kept⟩ := pageFindAndAllocUser_backed inv.pool inv.at_root hr other inv.inside
    inv.backed fresh unused found
  have anchored := pageFindAndAllocUser_anchored inv.pool (List.mem_cons_self ..) hr inv.at_root
    inv.anchored found
  refine ⟨kept.pml4Table.trans inv.at_root,pool,inv.other,inv.once,?_,?_,anchored,?_⟩
  · exact List.forall_mem_cons.mpr ⟨hr,inv.tables⟩
  · exact kept.regions ▸ inv.blocks
  · rw [w.mappings_cons _ _ kept.regions kept.pml4Table,Live.pages]
    exact backed

/-- Both functions that free a run of pages, whatever they leave in CR3. -/
theorem freed {l : Live} (member : l ∈ w.live) (low : w.Low l) (cr3 : Nat)
    (uncovered : l.tab = root → ∀ a, (w.krnl.pml4Table ≤ a ∧ a < w.krnl.pml4Table + 4096 ∨
      w.krnl.pageHeap.uses a) → ∀ i < l.pgs, page a ≠ page (l.vaddr + i * 2097152))
    (same : k = { (List.range l.pgs).foldl (freePage l.tab l.vaddr)
      { w.krnl with cr3 := w.krnl.pml4Table } with cr3 := cr3 }) :
    (⟨k,w.live.erase l,w.tasks,w.bufs⟩ : History).Inv root := by
  have hr := inv.tables l member
  obtain ⟨heap,table,_⟩ :=
    freePages_same (k := { w.krnl with cr3 := w.krnl.pml4Table }) l.tab l.vaddr (List.range l.pgs)
  have regions : k.pageHeap.regions = w.krnl.pageHeap.regions := by
    rw [same]
    exact congrArg Heap.regions heap
  have table : k.pml4Table = w.krnl.pml4Table := by
    rw [same]
    exact table
  have moved := w.mappings_erase w.tasks w.bufs regions table member
  have inside (p : Nat × Nat) (hp : p ∈ (⟨k,w.live.erase l,w.tasks,w.bufs⟩ : History).mappings) :
      p.1 ∈ root :: w.tasks :=
    inv.inside p (moved.mem_iff.mpr (List.mem_append_right _ hp))
  have pool : Pool root w.bufs (root :: w.tasks) { w.krnl with cr3 := w.krnl.pml4Table } :=
    inv.pool.agree inv.pool.good (fun _ hq => hq) fun _ _ => rfl
  have backed : Backed { w.krnl with cr3 := w.krnl.pml4Table }
      (places l.tab l.vaddr 0 l.pgs ++ (⟨k,w.live.erase l,w.tasks,w.bufs⟩ : History).mappings) :=
    (inv.backed.perm moved).congr rfl (fun _ _ => rfl) fun _ _ _ _ mark => mark
  obtain ⟨pool',backed',others⟩ := freePages_backed pool hr inside backed low
  have mapping (v : Nat) (out : ¬Covered l.tab l.vaddr l.pgs root v) :
      k.mapping root v = w.krnl.mapping root v := by
    rw [same]
    exact others root (List.mem_cons_self ..) v out
  have away (a : Nat) (used : w.krnl.pml4Table ≤ a ∧ a < w.krnl.pml4Table + 4096 ∨
      w.krnl.pageHeap.uses a) : k.mapping root a = w.krnl.mapping root a :=
    mapping a fun ⟨here,i,hi,hit⟩ => uncovered here.symm a used i hi hit
  refine ⟨table.trans inv.at_root,?_,inv.other,inv.once,?_,?_,⟨?_,?_⟩,?_⟩
  · rw [same]
    exact pool'.agree pool'.good (fun _ hq => hq) fun _ _ => rfl
  · exact fun l' hl => inv.tables l' (List.mem_of_mem_erase hl)
  · exact fun none => inv.blocks (regions.symm.trans none)
  · intro a lower upper
    rw [away a (.inl ⟨inv.at_root ▸ lower,inv.at_root ▸ upper⟩)]
    exact inv.anchored.table a lower upper
  · intro a uses
    have before : w.krnl.pageHeap.uses a := by
      rw [same] at uses
      rw [show ({ (List.range l.pgs).foldl (freePage l.tab l.vaddr)
        { w.krnl with cr3 := w.krnl.pml4Table } with cr3 := cr3 } : Kernel).pageHeap = _ from heap] at uses
      exact uses
    rw [away a (.inr before)]
    exact inv.anchored.heap a before
  · subst same
    exact backed'.congr rfl (fun _ _ => rfl) fun _ _ _ _ mark => mark

theorem freeFound {l : Live} (careful : Careful w (.freeFound l))
    (h : w.call takePage (.freeFound l) = some w') : w'.Inv root := by
  simp only [History.call] at h
  split at h
  · next ok =>
    cases h
    refine inv.freed ok.1 careful.1 w.krnl.pml4Table (fun _ => careful.2) ?_
    rw [pageFreeFound,ok.2]
  · cases h

theorem freeFoundUser {l : Live} (careful : Careful w (.freeFoundUser l))
    (h : w.call takePage (.freeFoundUser l) = some w') : w'.Inv root := by
  simp only [History.call] at h
  split at h
  · next ok =>
    cases h
    exact inv.freed ok.1 careful w.krnl.cr3 (fun here => absurd (here ▸ ok.2) inv.other) rfl
  · cases h

theorem startTask (careful : Careful w .startTask)
    (h : w.call takePage .startTask = some w') : w'.Inv root := by
  have top := List.mem_cons_self (a := root) (l := w.tasks)
  have current : w.krnl.cr3 = root := careful.2.trans inv.at_root
  simp only [History.call,Option.bind_eq_bind,Option.bind_eq_some_iff,Option.some.injEq] at h
  obtain ⟨⟨k1,tab⟩,taken,k,cloned,rfl⟩ := h
  obtain ⟨tabs,mapping⟩ := clone_mapping (takePage_pool ..) inv.pool taken cloned
  have start : Copying root w.bufs w.krnl w.krnl :=
    ⟨inv.pool.good,fun _ hq => hq,fun _ _ => rfl,fun _ uses => .inl uses,.refl _⟩
  obtain ⟨copying1,fresh⟩ := start.take inv.pool top current taken
  have copying := pageCloneKrnlTab_copying inv.pool top current inv.at_root copying1 fresh cloned
  have table := copying.still.pml4Table
  have regions := copying.still.regions
  have inside (p : Nat × Nat) (hp : p ∈ w.mappings) : k.mapping p.1 p.2 = w.krnl.mapping p.1 p.2 :=
    mapping p.1 (inv.inside p hp) p.2
  refine ⟨table.trans inv.at_root,tabs.subset ?_,?_,inv.once,?_,?_,
    copying.anchored inv.pool top inv.anchored,?_⟩
  · intro s hs
    rcases List.mem_cons.mp hs with rfl | hs
    · exact .tail _ (.head _)
    · rcases List.mem_cons.mp hs with rfl | hs
      · exact .head _
      · exact .tail _ (.tail _ hs)
  · rintro (_ | ⟨_,member⟩)
    · exact fresh (.inl rfl)
    · exact inv.other member
  · intro l hl
    rcases List.mem_cons.mp (inv.tables l hl) with same | task
    · exact same ▸ .head _
    · exact .tail _ (.tail _ task)
  · exact regions ▸ inv.blocks
  · rw [w.mappings_same _ _ regions table]
    exact inv.backed.congr table inside fun _ _ _ _ mark => by rw [copying.still.physMemMap,mark]

theorem pageobjAlloc {n : Nat} (careful : Careful w .pageobjAlloc)
    (h : w.call (kPageobjAlloc n) .pageobjAlloc = some w') : w'.Inv root := by
  have top := List.mem_cons_self (a := root) (l := w.tasks)
  simp only [History.call,Option.bind_eq_bind,Option.bind_eq_some_iff,Option.some.injEq] at h
  obtain ⟨⟨k,p⟩,taken,rfl⟩ := h
  obtain ⟨t,took⟩ : ∃ t, w.krnl.pageHeap.take = some t := by
    cases none : w.krnl.pageHeap.take with
    | some t => exact ⟨t,rfl⟩
    | none =>
      cases n <;> simp [kPageobjAlloc,takePage,kPageobjAllocWith,none] at taken
  obtain ⟨⟨mapped,reached⟩,grows⟩ := careful t took
  rw [inv.at_root] at mapped reached
  cases low : t.grows with
  | false =>
    rw [kPageobjAlloc_low took low] at taken
    obtain ⟨pool,kept,unused⟩ := takePage_buf inv.pool taken
    obtain ⟨t',took',rfl,_,_,_⟩ := takePage_some taken
    rw [took] at took'
    cases took'
    have aligned := (takePage_heap inv.pool.good taken).1.page
      (by rw [(takePage_heap inv.pool.good taken).2]; exact List.mem_cons_self ..)
    have here (a : Nat) (lower : t.ptr ≤ a) (upper : a < t.ptr + 4096) :
        (w.krnl.mapping root a).isSome = true := by
      rw [Kernel.translate,Option.isSome_map] at mapped
      rwa [Kernel.mapping_page (page_near aligned.1 lower upper)]
    refine ⟨kept.pml4Table.trans inv.at_root,pool,inv.other,List.nodup_cons.mpr ⟨unused,inv.once⟩,
      inv.tables,kept.regions ▸ inv.blocks,takePage_anchored inv.pool top here inv.anchored taken,?_⟩
    rw [w.mappings_same _ _ kept.regions kept.pml4Table]
    exact inv.backed.kept inv.inside kept fun _ _ h => h
  | true =>
    obtain ⟨addr,regions,table,pool,unused,anchored,backed⟩ := kPageobjAlloc_grows inv.pool inv.at_root
      top inv.inside inv.backed inv.anchored took low mapped (grows low) taken
    refine ⟨table,pool,inv.other,List.nodup_cons.mpr ⟨unused,inv.once⟩,inv.tables,?_,anchored,?_⟩
    · simp [regions]
    · refine backed.perm ?_
      simp only [History.mappings,regions,table,inv.at_root,List.dropLast_cons_of_ne_nil inv.blocks,
        List.flatMap_cons]
      exact List.perm_append_comm_assoc ..

theorem pageobjFree {p : Nat} (h : w.call takePage (.pageobjFree p) = some w') : w'.Inv root := by
  have top := List.mem_cons_self (a := root) (l := w.tasks)
  simp only [History.call] at h
  split at h
  · next member =>
    cases h
    obtain ⟨pool,kept⟩ := kPageobjFree_buf inv.pool member inv.once
    have fewer := kPageobjFree_fewer inv.pool.good.small p
    refine ⟨kept.pml4Table.trans inv.at_root,pool,inv.other,inv.once.erase p,inv.tables,
      kept.regions ▸ inv.blocks,inv.anchored.congr kept.regions fewer.out fun v =>
        kept.mapping root top v fun h => h,?_⟩
    rw [w.mappings_same _ _ kept.regions kept.pml4Table]
    exact inv.backed.kept inv.inside kept fun _ _ h => h
  · cases h

/-- `page_map_paddr` and `page_map_paddr_mmio`. -/
theorem mapped {style : MapStyle} (ok : style.Ok) {paddr pgs addr : Nat}
    (careful : pageVirtFindAddr w.krnl pgs ≠ 0xDEAD → w.krnl.cr3 = w.krnl.pml4Table ∧
      ∀ i < pgs, w.krnl.mapping w.krnl.pml4Table (pageVirtFindAddr w.krnl pgs + i * 2097152) = none)
    (h : mapPaddr takePage w.krnl style paddr pgs = some (k,addr)) :
    ({ w with krnl := k } : History).Inv root := by
  have top := List.mem_cons_self (a := root) (l := w.tasks)
  by_cases found : pageVirtFindAddr w.krnl pgs = 0xDEAD
  · simp only [mapPaddr,found,if_true,Option.some.injEq,Prod.mk.injEq] at h
    rw [← h.1]
    exact inv
  obtain ⟨current,free⟩ := careful found
  obtain ⟨pool,kept⟩ := mapPaddr_kept inv.pool inv.at_root top ok found h
  have anchored := mapPaddr_anchored inv.pool top inv.at_root (current.trans inv.at_root) ok found
    inv.anchored h
  refine ⟨kept.pml4Table.trans inv.at_root,pool,inv.other,inv.once,inv.tables,
    kept.regions ▸ inv.blocks,anchored,?_⟩
  rw [w.mappings_same _ _ kept.regions kept.pml4Table]
  refine inv.backed.kept inv.inside kept ?_
  rintro p hp ⟨table,i,hi,same⟩
  obtain ⟨e,holds⟩ := inv.backed.holds p hp
  have mapping := holds.mapping
  rw [Kernel.mapping_page same,table,← inv.at_root,free i hi] at mapping
  cases mapping

theorem cleanup {tab : Nat} {segs : List (Nat × Nat)} (careful : Careful w (.cleanup tab segs))
    (h : w.call takePage (.cleanup tab segs) = some w') : w'.Inv root := by
  have top := List.mem_cons_self (a := root) (l := w.tasks)
  simp only [History.call] at h
  split at h
  swap
  · cases h
  next task =>
  simp only [Option.some.injEq] at h
  subst h
  have hr : tab ∈ root :: w.tasks := List.mem_cons_of_mem _ task
  have other : tab ≠ root := fun same => inv.other (same ▸ task)
  obtain ⟨map,unmarked,marks⟩ := unmark_spec w.krnl segs
  rw [unmarked]
  have pool0 : Pool root w.bufs (root :: w.tasks) { w.krnl with physMemMap := map } :=
    inv.pool.agree inv.pool.good (fun _ hq => hq) fun _ _ => rfl
  have loose (p : Nat) (reach : Forest.Reach Entry.child w.krnl.tables 2 tab p) : ¬p = root := by
    rintro rfl
    obtain ⟨path,short,reach⟩ := reach
    exact other (inv.pool.valid.separated hr top short (b := []) (by simp) reach (Forest.walk_nil p)).1
  have sub (s : Nat) (hs : s ∈ root :: w.tasks.filter (· ≠ tab)) : s ∈ root :: w.tasks ∧ s ≠ tab := by
    rcases List.mem_cons.mp hs with rfl | hs
    · exact ⟨top,other.symm⟩
    · obtain ⟨member,different⟩ := List.mem_filter.mp hs
      exact ⟨List.mem_cons_of_mem _ member,by simpa using different⟩
  obtain ⟨pool,mapping⟩ := pageFreeTab_mapping (takePage_pool ..)
    (kPageobjFree_sink root (· = root) w.bufs) pool0 hr loose sub
  have fewer := pageFreeTab_fewer (k := { w.krnl with physMemMap := map }) inv.pool.good.small tab
  have table := fewer.still.pml4Table
  have regions := fewer.still.regions
  generalize pageFreeTab kPageobjFree { w.krnl with physMemMap := map } tab = k at *
  have kept : (⟨k,w.live.filter (·.tab ≠ tab),w.tasks.filter (· ≠ tab),w.bufs⟩ :
      History).mappings.Sublist w.mappings := by
    have sub := (List.filter_sublist (p := fun l : Live => l.tab ≠ tab) (l := w.live)).flatMap Live.pages
    have regions : k.pageHeap.regions = w.krnl.pageHeap.regions := regions
    have table : k.pml4Table = w.krnl.pml4Table := table
    simp only [History.mappings,regions,table]
    exact sub.append (List.Sublist.refl _)
  have away (p : Nat × Nat) (hp : p ∈ (⟨k,w.live.filter (·.tab ≠ tab),w.tasks.filter (· ≠ tab),w.bufs⟩ :
      History).mappings) : p.1 ∈ root :: w.tasks.filter (· ≠ tab) := by
    rcases List.mem_append.mp hp with hp | hp
    · obtain ⟨l,hl,hp⟩ := List.mem_flatMap.mp hp
      obtain ⟨member,different⟩ := List.mem_filter.mp hl
      obtain ⟨_,_,_,rfl⟩ := mem_places.mp hp
      rcases List.mem_cons.mp (inv.tables l member) with same | member
      · exact same ▸ List.mem_cons_self ..
      · exact List.mem_cons_of_mem _ (List.mem_filter.mpr ⟨member,different⟩)
    · obtain ⟨b,_,hp⟩ := List.mem_flatMap.mp hp
      obtain ⟨_,_,_,rfl⟩ := mem_places.mp hp
      rw [show k.pml4Table = root from table.trans inv.at_root]
      exact List.mem_cons_self ..
  refine ⟨table.trans inv.at_root,pool,?_,inv.once,?_,?_,?_,?_⟩
  · exact fun member => inv.other (List.mem_filter.mp member).1
  · intro l hl
    obtain ⟨member,different⟩ := List.mem_filter.mp hl
    rcases List.mem_cons.mp (inv.tables l member) with same | member
    · exact same ▸ List.mem_cons_self ..
    · exact List.mem_cons_of_mem _ (List.mem_filter.mpr ⟨member,different⟩)
  · exact fun none => inv.blocks (regions.symm.trans none)
  · exact inv.anchored.congr regions fewer.out (mapping root (List.mem_cons_self ..))
  · refine (inv.backed.sublist kept).congr table (fun p hp => mapping p.1 (away p hp) p.2) ?_
    intro p hp e holds mark
    rw [fewer.still.physMemMap]
    refine marks e.frame mark fun s hs i hi same => ?_
    refine careful s hs i hi p (kept.subset hp) (sub p.1 (away p hp)).2 ?_
    rw [Kernel.translate,holds,Option.map_some,same]

end History.Inv

/-- A calm call ends the same way whether or not the heap may grow. -/
theorem History.Calm.call {c : Call} {n : Nat} (calm : w.Calm c)
    (h : w.call (kPageobjAlloc n) c = some w') : w.call takePage c = some w' := by
  obtain ⟨v,hv⟩ := Option.isSome_iff_exists.mp calm
  have same := (w.call_agrees (takePage_finer n) c).result v hv
  rw [hv,← same,h]

theorem History.Inv.call {c : Call} {n : Nat} (inv : w.Inv root) (careful : Careful w c)
    (h : w.call (kPageobjAlloc n) c = some w') : w'.Inv root := by
  cases c with
  | findAndAlloc pgs => exact inv.findAndAlloc careful (careful.1.call h)
  | findAndAllocUser tab vaddr pgs => exact inv.findAndAllocUser careful (careful.1.call h)
  | freeFound l => exact inv.freeFound careful h
  | freeFoundUser l => exact inv.freeFoundUser careful h
  | startTask => exact inv.startTask careful (careful.1.call h)
  | cleanup tab segs => exact inv.cleanup careful h
  | pageobjAlloc => exact inv.pageobjAlloc careful h
  | pageobjFree p => exact inv.pageobjFree h
  | mapPaddr paddr pgs =>
    by_cases found : pageVirtFindAddr w.krnl pgs = 0xDEAD
    · simp only [History.call,pageMapPaddr,mapPaddr,found,if_true,Option.bind_eq_bind,
        Option.bind_some,Option.some.injEq] at h
      exact h ▸ inv
    · have h := (careful found).1.call h
      simp only [History.call,Option.bind_eq_bind,Option.bind_eq_some_iff,Option.some.injEq] at h
      obtain ⟨⟨k,addr⟩,mapped,rfl⟩ := h
      exact inv.mapped krnlStyle_ok (fun found => (careful found).2) mapped
  | mapPaddrMmio paddr pgs =>
    by_cases found : pageVirtFindAddr w.krnl pgs = 0xDEAD
    · simp only [History.call,pageMapPaddrMmio,mapPaddr,found,if_true,Option.bind_eq_bind,
        Option.bind_some,Option.some.injEq] at h
      exact h ▸ inv
    · have h := (careful found).1.call h
      simp only [History.call,Option.bind_eq_bind,Option.bind_eq_some_iff,Option.some.injEq] at h
      obtain ⟨⟨k,addr⟩,mapped,rfl⟩ := h
      exact inv.mapped mmioStyle_ok (fun found => (careful found).2) mapped
  | markAvailable addr len =>
    simp only [History.call,Option.some.injEq] at h
    subst h
    have kept : ∃ avail, pageMarkAvailableMemRange w.krnl addr len = { w.krnl with availMem := avail } := by
      simp only [pageMarkAvailableMemRange]
      split
      · exact ⟨w.krnl.availMem,rfl⟩
      · exact ⟨_,rfl⟩
    obtain ⟨avail,same⟩ := kept
    rw [same]
    exact { inv with
      pool := inv.pool.agree inv.pool.good (fun _ hq => hq) fun _ _ => rfl
      anchored := ⟨inv.anchored.table,inv.anchored.heap⟩
      backed := inv.backed.congr rfl (fun _ _ => rfl) fun _ _ _ _ mark => mark }
  | switchTab tab =>
    simp only [History.call] at h
    split at h
    · cases h
      exact { inv with
        pool := inv.pool.agree inv.pool.good (fun _ hq => hq) fun _ _ => rfl
        anchored := ⟨inv.anchored.table,inv.anchored.heap⟩
        backed := inv.backed.congr rfl (fun _ _ => rfl) fun _ _ _ _ mark => mark }
    · cases h

theorem History.Inv.boot {image : Image} {n : Nat} {mem : Forest.Store Nat (Fin 512) Entry}
    {ram : Nat → UInt8} (h : krnlMain (kPageobjAlloc n) image (image.entry mem ram) = some k) :
    (⟨k,[],[],[]⟩ : History).Inv image.pml4Table := by
  obtain ⟨booted,_⟩ := krnlMain_booted h
  have none : (⟨k,[],[],[]⟩ : History).mappings = [] := by
    simp [History.mappings,booted.regions]
  refine ⟨booted.pml4Table,booted.pool,List.not_mem_nil,List.nodup_nil,
    fun _ hl => absurd hl List.not_mem_nil,?_,krnlMain_anchored h,?_⟩
  · simp [booted.regions]
  · rw [none]
    exact .nil k

theorem History.Run.inv {image : Image} {n : Nat} (run : History.Run image n Careful w) :
    w.Inv image.pml4Table := by
  induction run with
  | boot h => exact .boot h
  | call _ careful h ih => exact ih.call careful h

/-- Pages on frames of their own share none. -/
theorem Backed.sole {held : List (Nat × Nat)} (backed : Backed k held) {p q : Nat × Nat}
    (hp : p ∈ held) (hq : q ∈ held) {f : Nat} (first : k.translate p.1 p.2 = some f)
    (second : k.translate q.1 q.2 = some f) : p = q := by
  by_contra different
  have symm : Std.Symm fun p q : Nat × Nat => k.translate p.1 p.2 ≠ k.translate q.1 q.2 :=
    ⟨fun _ _ h => h.symm⟩
  exact backed.distinct.forall hp hq different (first.trans second.symm)

end Step

/-- What a test that was run on a result found. -/
theorem exists_of_any {α : Type} {p : α → Bool} {x : Option α} (h : x.any p = true) :
    ∃ a, x = some a ∧ p a = true := by
  cases x with
  | none => cases h
  | some a => exact ⟨a,rfl,h⟩

/-- Boot, with memory all zero, and the calls in turn. -/
def Image.history (image : Image) (cs : List Call) : Option History := do
  let k ← krnlMain (kPageobjAlloc 1) image (image.entry (fun _ _ => .zero) fun _ => 0)
  (⟨k,[],[],[]⟩ : History).calls (kPageobjAlloc 1) cs

theorem Image.history_run {image : Image} {cs : List Call} {w : History}
    (h : image.history cs = some w) : History.Run image 1 (fun _ _ => True) w := by
  simp only [Image.history,Option.bind_eq_bind,Option.bind_eq_some_iff] at h
  obtain ⟨k,booted,calls⟩ := h
  exact History.Run.calls (.boot booted) calls

section Claim

/-- After careful calls every page of a live allocation is mapped, to a frame that is
marked and that no other live mapping has. -/
theorem live_mappings_sole {image : Image} {n : Nat} {w : History}
    (run : History.Run image n Careful w) : w.Sole ∧
      ∀ p ∈ w.mappings, ∃ f, w.krnl.translate p.1 p.2 = some f ∧ w.krnl.physMemMap f = true := by
  have backed := run.inv.backed
  refine ⟨fun p hp q hq f first second => ?_,fun p hp => ?_⟩
  · obtain rfl := backed.sole hp hq first second
    exact ⟨rfl,rfl⟩
  · obtain ⟨e,holds⟩ := backed.holds p hp
    exact ⟨e.frame,by rw [Kernel.translate,holds.mapping]; rfl,holds.marked⟩

/-- A task whose table is at 0x240c000 has a page at 1 GB + 2 MB and then two at 1 GB,
the second over the first page; the first allocation is freed, then the other. -/
def overlapping : List Call :=
  let first : Live := ⟨0x240c000,0x40200000,1⟩
  let second : Live := ⟨0x240c000,0x40000000,2⟩
  [.startTask,.findAndAllocUser first.tab first.vaddr first.pgs,
    .findAndAllocUser second.tab second.vaddr second.pgs,.freeFoundUser first,.findAndAlloc 1,
    .freeFoundUser second,.findAndAlloc 1,.findAndAlloc 1]

/-- Two pages of the kernel end up on frame 3. -/
theorem live_mappings_shared : ¬∀ (image : Image) (n : Nat) (w : History),
    History.Run image n (fun _ _ => True) w → w.Sole := by
  intro all
  have shared : (Image.twenty.history overlapping).any (fun w =>
      w.mappings.contains (0x2300000,0x200000) && w.mappings.contains (0x2300000,0x600000) &&
        w.krnl.translate 0x2300000 0x200000 == some 3 &&
        w.krnl.translate 0x2300000 0x600000 == some 3) = true := by decide +kernel
  obtain ⟨w,ran,facts⟩ := exists_of_any shared
  simp only [Bool.and_eq_true,List.contains_iff_mem,beq_iff_eq] at facts
  obtain ⟨⟨⟨first,second⟩,here⟩,there⟩ := facts
  have same := (all .twenty 1 w (Image.history_run ran) _ first _ second 3 here there).2
  exact absurd same (by decide)

/-- Two pages after boot. -/
theorem live_mappings_sole_two : ∃ w, History.Run .twenty 1 Careful w ∧
    w.live = [⟨0x2300000,0x200000,2⟩] ∧ w.Sole ∧
      ∀ p ∈ w.mappings, ∃ f, w.krnl.translate p.1 p.2 = some f ∧ w.krnl.physMemMap f = true := by
  have facts : (krnlMain (kPageobjAlloc 1) .twenty
      (Image.twenty.entry (fun _ _ => .zero) fun _ => 0)).any (fun k =>
        pageVirtFindAddr k 2 == 0x200000 && (k.mapping k.pml4Table 0x200000).isNone &&
          (k.mapping k.pml4Table 0x400000).isNone &&
          k.pageHeap.regions.all (fun b => decide (0x600000 ≤ b.1)) &&
          ((⟨k,[],[],[]⟩ : History).call takePage (.findAndAlloc 2)).any fun w =>
            w.live == [⟨0x2300000,0x200000,2⟩]) = true := by decide +kernel
  obtain ⟨k,booted,facts⟩ := exists_of_any facts
  simp only [Bool.and_eq_true,beq_iff_eq,Option.isNone_iff_eq_none,List.all_eq_true,
    decide_eq_true_eq] at facts
  obtain ⟨⟨⟨⟨found,first⟩,second⟩,above⟩,called⟩ := facts
  obtain ⟨w,called,live⟩ := exists_of_any called
  have free : k.Free 2 := by
    refine ⟨by rw [found]; decide,fun i hi => ?_,.inl fun b hb => .inl ?_⟩
    · rw [found]
      match i, hi with
      | 0, _ => exact first
      | 1, _ => exact second
    · rw [found]
      exact above b hb
  have careful : Careful ⟨k,[],[],[]⟩ (.findAndAlloc 2) := ⟨by rw [History.Calm,called]; rfl,free⟩
  have more := (History.call_agrees (takePage_finer 1) ⟨k,[],[],[]⟩ (.findAndAlloc 2)).result w called
  have run : History.Run .twenty 1 Careful w := (History.Run.boot booted).call careful more
  exact ⟨w,run,eq_of_beq live,live_mappings_sole run⟩

end Claim

end Siegfried
