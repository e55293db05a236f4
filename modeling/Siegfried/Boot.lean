import Siegfried.FrameAlloc

/-! The page tables and the page heap as `krnl_main` sets them up. -/
namespace Siegfried

/-- Where the linker puts what the page code uses. `dummy_page` of `boot.S` is text and
`pml4_table` is data, both behind `_krnl_start`. -/
structure Image where
  krnlEnd : Nat
  pml4Table : Nat
  dummyPage : Nat
  aligned : pml4Table % 4096 = 0 ∧ dummyPage % 4096 = 0
  start : 0x1000000 ≤ dummyPage
  order : dummyPage + 0x4000 ≤ pml4Table
  inside : pml4Table + 4096 ≤ krnlEnd
  canonical : krnlEnd < 2^47

/-- The tables that `boot.S` fills in: the first 128 MB, each page at its own address. -/
def dummyTables (dummyPage : Nat) (mem : Forest.Store Nat (Fin 512) Entry) :
    Forest.Store Nat (Fin 512) Entry := fun p i =>
  if p = dummyPage then
    if i.val = 0 then { Entry.zero.setPaddr (dummyPage + 0x1000) with present := true, rw := true }
    else .zero
  else if p = dummyPage + 0x1000 then
    if i.val = 0 then { Entry.zero.setPaddr (dummyPage + 0x2000) with present := true, rw := true }
    else .zero
  else if p = dummyPage + 0x2000 then
    if i.val < 0x40 then
      { Entry.zero.setPaddrPde (i * 2^21) with present := true, rw := true, ps := true }
    else .zero
  else mem p i

/-- The state in which `krnl_main` starts, on memory of any content. -/
def Image.entry (image : Image) (mem : Forest.Store Nat (Fin 512) Entry) (ram : Nat → UInt8) :
    Kernel where
  tables := dummyTables image.dummyPage mem
  pageHeap := kPageobjInitHeap 4096
  physMemMap _ := false
  availMem := []
  cr3 := image.dummyPage
  pml4Table := image.pml4Table
  ram := ram

def Image.heapBase (image : Image) : Nat := (image.krnlEnd + 0x5000) / 4096 * 4096

def kPageobjHeapSetup (image : Image) (k : Kernel) : Kernel :=
  { k with pageHeap := kPageobjAddHeapblk (kPageobjInitHeap 4096) image.heapBase 0x800000 }

def pageInitMap (k : Kernel) : Kernel :=
  { k with
    physMemMap := fun _ => false
    tables := Forest.fill k.tables k.pml4Table fun _ => .zero }

/-- The frames `krnl_main` maps at their own addresses: frame 0 and those from
`_krnl_start` to two past the one of `_krnl_end`. -/
def Image.frames (image : Image) : List Nat :=
  0 :: List.range' (0x1000000 / 0x200000) (image.krnlEnd / 0x200000 + 2 - 0x1000000 / 0x200000)

/-- `krnl_main` up to its first `page_flush`. -/
def krnlMain (alloc : Kernel → Option (Kernel × Nat)) (image : Image) (k : Kernel) :
    Option Kernel := do
  let k := pageInitMap (kPageobjHeapSetup image k)
  let k ← image.frames.foldlM (fun k i => pageAlloc alloc k (0x200000 * i) (0x200000 * i)) k
  some { k with cr3 := k.pml4Table }

/-- The first address behind the kernel that `krnl_main` does not map. -/
def Image.bootEnd (image : Image) : Nat := (image.krnlEnd / 0x200000 + 2) * 0x200000

def Image.pages (image : Image) : List (Nat × Nat) :=
  image.frames.map fun i => (image.pml4Table,0x200000 * i)

variable {image : Image} {k k' : Kernel} {n : Nat}

theorem Image.frames_spec {i : Nat} : i ∈ image.frames ↔
    i = 0 ∨ 8 ≤ i ∧ i < image.krnlEnd / 0x200000 + 2 := by
  have := image.start
  have := image.order
  have := image.inside
  simp only [Image.frames,List.mem_cons,List.mem_range'_1]
  omega

theorem Image.frames_nodup (image : Image) : image.frames.Nodup := by
  refine List.nodup_cons.mpr ⟨fun member => ?_,List.nodup_range'⟩
  have := (List.mem_range'_1.mp member).1
  omega

theorem Image.frames_lt {i : Nat} (member : i ∈ image.frames) : i < 2^27 := by
  have := image.canonical
  have := Image.frames_spec.mp member
  omega

/-- `page_physmemmap_is_used` hangs unless the kernel's table is current. -/
theorem nextFree_away (other : k.cr3 ≠ k.pml4Table) (n f : Nat) : nextFree k n f = none := by
  cases n with
  | zero => rfl
  | succ n => simp only [nextFree,pagePhysmemmapIsUsed,if_pos other,Option.bind_eq_bind,Option.bind_none]

/-- While the table of `boot.S` is current the growth branch of `k_pageobj_alloc` hangs. -/
theorem kPageobjAlloc_booting (other : k.cr3 ≠ k.pml4Table) (n : Nat) :
    kPageobjAlloc n k = takePage k := by
  cases n with
  | zero => rfl
  | succ n =>
    have hangs (m : Kernel) (away : m.cr3 ≠ m.pml4Table) :
        extendHeap (fun k => pageFindAndAlloc (kPageobjAlloc n) k 2) m = none := by
      simp only [extendHeap,pageFindAndAlloc,nextFree_away away,Option.bind_eq_bind,Option.bind_none]
    simp only [kPageobjAlloc,takePage,kPageobjAllocWith]
    split
    · rfl
    · refine Option.bind_congr fun t _ => ?_
      have stuck := hangs { k with pageHeap := t.rest } other
      simp only [stuck]
      rfl

theorem openTable_congr {alloc other : Kernel → Option (Kernel × Nat)} {missing : Entry → Bool}
    {fresh flags : Entry → Entry} {p : Nat} {i : Fin 512} (same : alloc k = other k) :
    openTable alloc missing fresh flags k p i = openTable other missing fresh flags k p i := by
  simp only [openTable,same]

theorem pageAlloc_booting (other : k.cr3 ≠ k.pml4Table) (n phy vir : Nat) :
    pageAlloc (kPageobjAlloc n) k phy vir = pageAlloc takePage k phy vir := by
  simp only [pageAlloc,mapPage]
  rw [openTable_congr (kPageobjAlloc_booting other n)]
  refine Option.bind_congr fun m first => ?_
  have still := openTable_still takePage_steady first
  rw [openTable_congr (kPageobjAlloc_booting (by rwa [still.cr3,still.pml4Table]) n)]

theorem mapFrames_booting (n : Nat) (l : List Nat) (other : k.cr3 ≠ k.pml4Table) :
    l.foldlM (fun k i => pageAlloc (kPageobjAlloc n) k (0x200000 * i) (0x200000 * i)) k =
      l.foldlM (fun k i => pageAlloc takePage k (0x200000 * i) (0x200000 * i)) k := by
  induction l generalizing k with
  | nil => rw [List.foldlM_nil,List.foldlM_nil]
  | cons i l ih =>
    rw [List.foldlM_cons,List.foldlM_cons,pageAlloc_booting other n]
    refine Option.bind_congr fun m first => ih ?_
    have still := (mapPage_still takePage_steady first).1
    rwa [still.cr3,still.pml4Table]

/-- The heap cannot grow during boot. -/
theorem krnlMain_booting (start : k.cr3 ≠ k.pml4Table) (n : Nat) :
    krnlMain (kPageobjAlloc n) image k = krnlMain takePage image k := by
  have away : (pageInitMap (kPageobjHeapSetup image k)).cr3 ≠
      (pageInitMap (kPageobjHeapSetup image k)).pml4Table := start
  rw [krnlMain,krnlMain,mapFrames_booting n image.frames away]

/-- The kernel's table maps exactly the frames `done`, each at its own address. -/
structure Booted (root : Nat) (regions : List (Nat × Nat)) (done : List Nat) (k : Kernel) : Prop where
  pml4Table : k.pml4Table = root
  regions : k.pageHeap.regions = regions
  availMem : k.availMem = []
  pool : Pool root [] [root] k
  marks : ∀ f, k.physMemMap f = decide (f ∈ done)
  maps : ∀ v, k.translate root v = if page v ∈ done then some (page v) else none
  backed : Backed k (done.map fun i => (root,0x200000 * i))

theorem page_mul {i : Nat} (small : i < 2^27) : page (0x200000 * i) = i := by
  simp only [page]
  omega

theorem Booted.step {root : Nat} {regions : List (Nat × Nat)} {done : List Nat} {i : Nat}
    (booted : Booted root regions done k) (small : ∀ j ∈ i :: done, j < 2^27) (fresh : i ∉ done)
    (h : pageAlloc takePage k (0x200000 * i) (0x200000 * i) = some k') :
    Booted root regions (i :: done) k' := by
  have here := small i (List.mem_cons_self ..)
  have hr : root ∈ [root] := List.mem_singleton.mpr rfl
  rw [pageAlloc,booted.pml4Table] at h
  obtain ⟨still,marked⟩ := mapPage_still takePage_steady h
  obtain ⟨pool,⟨e,mapped⟩,others⟩ :=
    mapPage_mapping (takePage_pool root []) krnlStyle_ok booted.pool hr h
  have target : k'.translate root (0x200000 * i) = some i := by
    have frame := (krnlStyle_ok.pde (0x200000 * i) e).2.1
    rw [Kernel.translate,mapped,Option.map_some,frame]
    congr 1
    omega
  rw [Nat.mul_div_cancel_left i (by decide)] at marked
  refine ⟨still.pml4Table.trans booted.pml4Table,still.regions.trans booted.regions,
    still.availMem.trans booted.availMem,pool,?_,?_,?_⟩
  · intro f
    rw [marked,Function.update_apply,booted.marks]
    by_cases same : f = i <;> simp [same]
  · intro v
    by_cases same : page v = i
    · rw [if_pos (by simp [same]),same,← target,Kernel.translate,Kernel.translate,
        Kernel.mapping_page (w := 0x200000 * i) (by rw [same,page_mul here])]
    · rw [Kernel.translate,others root hr v fun named => same (named.2.trans (page_mul here)),
        ← Kernel.translate,booted.maps]
      simp [same]
  · have style : krnlStyle.Plain (decide (root ≠ k.pml4Table)) := by
      simpa [booted.pml4Table] using krnlStyle_plain
    have unused : k.physMemMap i = false := by
      rw [booted.marks]
      exact decide_eq_false fresh
    rw [show mapPage krnlStyle takePage k root (0x200000 * i) (0x200000 * i) =
      mapPage krnlStyle takePage k root (i * 2097152) (0x200000 * i) by rw [Nat.mul_comm i]] at h
    refine mapPage_backed (takePage_pool root []) takePage_steady style booted.pool hr ?_
      booted.backed unused here ?_ h
    · intro p hp
      obtain ⟨_,_,rfl⟩ := List.mem_map.mp hp
      exact hr
    · intro p hp _
      obtain ⟨j,hj,rfl⟩ := List.mem_map.mp hp
      rw [page_mul here,page_mul (small j (List.mem_cons_of_mem _ hj))]
      exact fun same => fresh (same ▸ hj)

theorem Booted.perm {root : Nat} {regions : List (Nat × Nat)} {done other : List Nat}
    (booted : Booted root regions done k) (same : done.Perm other) : Booted root regions other k where
  pml4Table := booted.pml4Table
  regions := booted.regions
  availMem := booted.availMem
  pool := booted.pool
  marks f := by simp only [booted.marks,same.mem_iff]
  maps v := by simp only [booted.maps,same.mem_iff]
  backed := booted.backed.perm (same.map _)

/-- The heap that `k_pageobj_heap_setup` leaves. -/
theorem Image.heapAt (image : Image) (low : image.heapBase + 0x800000 ≤ 2^43) :
    HeapAt image.pml4Table []
      (kPageobjAddHeapblk (kPageobjInitHeap 4096) image.heapBase 0x800000) := by
  have start := image.start
  have order := image.order
  have inside := image.inside
  have above : image.pml4Table + 4096 ≤ image.heapBase := by
    simp only [Image.heapBase]
    omega
  have region : (kPageobjInitHeap 4096).Region image.heapBase 0x800000 :=
    ⟨Nat.mul_mod_left ..,by decide,by omega,by omega,by simp [kPageobjInitHeap]⟩
  have only (b : Nat × Nat)
      (hb : b ∈ (kPageobjAddHeapblk (kPageobjInitHeap 4096) image.heapBase 0x800000).regions) :
      b = (image.heapBase,0x800000) := List.mem_singleton.mp hb
  have added : HeapRun Fits _ := HeapRun.init.add region (by decide)
  refine ⟨added.inv,?_,?_,?_,image.aligned.1,by omega,by omega,by simp⟩
  · rintro b hb
    rw [only b hb]
    exact low
  · rintro b hb
    rw [only b hb]
    exact show (0x800000 : Nat) ≠ 0x2000000 by decide
  · rintro b hb
    rw [only b hb]
    exact .inl above

/-- Before `krnl_main` maps anything. -/
theorem Image.booted (image : Image) (low : image.heapBase + 0x800000 ≤ 2^43)
    (root : k.pml4Table = image.pml4Table) (avail : k.availMem = []) :
    Booted image.pml4Table [(image.heapBase,0x800000)] []
      (pageInitMap (kPageobjHeapSetup image k)) := by
  have blank (i : Fin 512) :
      (pageInitMap (kPageobjHeapSetup image k)).tables image.pml4Table i = .zero := by
    simp [pageInitMap,kPageobjHeapSetup,root,Forest.fill]
  have bare (v : Nat) :
      (pageInitMap (kPageobjHeapSetup image k)).mapping image.pml4Table v = none := by
    simp [Kernel.mapping,Forest.read,Forest.walk_cons,blank]
  refine ⟨root,rfl,avail,⟨image.heapAt low,?_,?_⟩,fun _ => rfl,fun v => ?_,Backed.nil _⟩
  · have none : Forest.Valid Entry.child (pageInitMap (kPageobjHeapSetup image k)).tables 2 []
        fun _ => False :=
      ⟨fun _ _ hr => absurd hr List.not_mem_nil,fun _ hr => absurd hr List.not_mem_nil⟩
    refine (none.add_root (c := image.pml4Table) (fun h => h) fun j => ?_).mono fun q hq => ?_
    · rw [blank]; rfl
    · exact .inl (hq.resolve_left fun h => h)
  · intro r hr a p reach i
    rw [List.mem_singleton.mp hr,Forest.walk_cons,blank] at reach
    cases reach
  · rw [Kernel.translate,bare]
    simp

/-- The table of `boot.S` maps nothing past 128 MB. -/
theorem dummy_mapping {dummyPage v : Nat} (aligned : dummyPage % 4096 = 0) (low : dummyPage < 2^47)
    {mem : Forest.Store Nat (Fin 512) Entry}
    (same : ∀ p, dummyPage ≤ p → p ≤ dummyPage + 0x2000 → k.tables p = dummyTables dummyPage mem p)
    (mapped : (k.mapping dummyPage v).isSome = true) : page v < 0x40 := by
  have next (a : Nat) (ha : a % 2^12 = 0) (hb : a < 2^48) :
      ({ Entry.zero.setPaddr a with present := true, rw := true } : Entry).child = some a :=
    Entry.child_some.mpr ⟨rfl,Entry.next_setPaddr .zero ha hb⟩
  obtain ⟨e,he⟩ := Option.isSome_iff_exists.mp mapped
  obtain ⟨there,present⟩ := Option.filter_eq_some_iff.mp he
  obtain ⟨pd,reach,rfl⟩ := Option.map_eq_some_iff.mp there
  have top : pml4i v = 0 := by
    apply Fin.ext
    by_contra other
    have other : (pml4i v).val ≠ 0 := other
    rw [Forest.walk_cons,same dummyPage (Nat.le_refl _) (by omega)] at reach
    simp [dummyTables,other] at reach
  have first : (k.tables dummyPage 0).child = some (dummyPage + 0x1000) := by
    rw [same dummyPage (Nat.le_refl _) (by omega)]
    simp only [dummyTables,Fin.val_zero,if_true]
    exact next _ (by omega) (by omega)
  rw [top,Forest.walk_cons,first,Option.bind_some,Forest.walk_cons] at reach
  have middle : pdptei v = 0 := by
    apply Fin.ext
    by_contra other
    have other : (pdptei v).val ≠ 0 := other
    rw [same (dummyPage + 0x1000) (by omega) (by omega)] at reach
    simp [dummyTables,other] at reach
  have second : (k.tables (dummyPage + 0x1000) 0).child = some (dummyPage + 0x2000) := by
    rw [same (dummyPage + 0x1000) (by omega) (by omega)]
    simp only [dummyTables,Fin.val_zero,if_true]
    rw [if_neg (by omega)]
    exact next _ (by omega) (by omega)
  rw [middle,second] at reach
  cases reach
  have bottom : (pdei v).val < 0x40 := by
    by_contra other
    rw [same (dummyPage + 0x2000) (by omega) (by omega)] at present
    simp [dummyTables,other,Entry.zero] at present
  have value : (pml4i v).val = 0 ∧ (pdptei v).val = 0 ∧ (pdei v).val < 0x40 :=
    ⟨congrArg Fin.val top,congrArg Fin.val middle,bottom⟩
  simp only [pml4i,pdptei,pdei] at value
  simp only [page]
  omega

/-- Boot goes through only where the heap starts below 128 MB. -/
theorem Image.low (image : Image) {mem : Forest.Store Nat (Fin 512) Entry} {ram : Nat → UInt8}
    (h : krnlMain takePage image (image.entry mem ram) = some k) :
    image.heapBase + 0x5000 < 2^27 := by
  have canonical := image.canonical
  have inside := image.inside
  have order := image.order
  have base : image.heapBase + 0x5000 < 2^48 := by
    simp only [Image.heapBase]
    omega
  simp only [krnlMain,Image.frames,List.foldlM_cons,Option.bind_eq_bind,Option.bind_eq_some_iff] at h
  obtain ⟨_,⟨m,mapped,_⟩,_⟩ := h
  simp only [pageAlloc,mapPage,Option.bind_eq_bind,Option.bind_eq_some_iff] at mapped
  obtain ⟨_,opened,_⟩ := mapped
  generalize hk : pageInitMap (kPageobjHeapSetup image (image.entry mem ram)) = k0 at opened
  have absent : (k0.tables k0.pml4Table (pml4i (0x200000 * 0))).present = false := by
    rw [← hk]
    simp [pageInitMap,Forest.fill,Entry.zero]
  simp only [openTable,absent,Bool.not_false,if_true,Option.bind_eq_bind,Option.bind_eq_some_iff,
    Option.some.injEq,exists_eq_left'] at opened
  obtain ⟨⟨k1,p⟩,taken,_⟩ := opened
  obtain ⟨t,take,ptr,_,_,there⟩ := takePage_some taken
  obtain ⟨t',take',_,ptr',_⟩ := take_added (kPageobjInitHeap 4096) image.heapBase 0x800000 2047 rfl
    (by decide) (by decide)
  have heap : k0.pageHeap = kPageobjAddHeapblk (kPageobjInitHeap 4096) image.heapBase 0x800000 := by
    rw [← hk]; rfl
  rw [heap,take'] at take
  cases take
  have first : p = image.heapBase + 0x5000 := by
    have reserved : slotres 4096 2047 = 4 := by decide
    omega
  have current : k0.cr3 = image.dummyPage := by
    rw [← hk]; rfl
  rw [current,first] at there
  have same : ∀ q, image.dummyPage ≤ q → q ≤ image.dummyPage + 0x2000 →
      k0.tables q = dummyTables image.dummyPage mem q := by
    intro q _ above
    rw [← hk]
    simp only [pageInitMap,kPageobjHeapSetup,Image.entry,Forest.fill]
    rw [if_neg (by omega)]
  have small := dummy_mapping image.aligned.2 (by omega) same there
  simp only [page] at small
  omega

/-- What `krnl_main` leaves. -/
theorem krnlMain_booted {mem : Forest.Store Nat (Fin 512) Entry} {ram : Nat → UInt8}
    (h : krnlMain (kPageobjAlloc n) image (image.entry mem ram) = some k) :
    Booted image.pml4Table [(image.heapBase,0x800000)] image.frames k ∧ k.cr3 = k.pml4Table ∧
      image.heapBase + 0x5000 < 2^27 := by
  have order := image.order
  have start : (image.entry mem ram).cr3 ≠ (image.entry mem ram).pml4Table := by
    simp only [Image.entry]
    omega
  rw [krnlMain_booting start] at h
  have low := image.low h
  simp only [krnlMain,Option.bind_eq_bind,Option.bind_eq_some_iff,Option.some.injEq] at h
  obtain ⟨m,loop,rfl⟩ := h
  have last := Fold.foldlM_rest (fun l m => ∃ done, (done ++ l).Perm image.frames ∧
    Booted image.pml4Table [(image.heapBase,0x800000)] done m) ?_
    ⟨[],.refl _,image.booted (by omega) rfl rfl⟩ loop
  · obtain ⟨done,same,booted⟩ := last
    rw [List.append_nil] at same
    have booted := booted.perm same
    exact ⟨⟨booted.pml4Table,booted.regions,booted.availMem,
      booted.pool.agree booted.pool.good (fun _ hq => hq) (fun _ _ => rfl),booted.marks,booted.maps,
      booted.backed.congr rfl (fun _ _ => rfl) fun _ _ _ _ mark => mark⟩,rfl,low⟩
  · rintro i l m m' ⟨done,same,booted⟩ mapped
    have moved : (i :: done ++ l).Perm image.frames := List.perm_middle.symm.trans same
    have nodup := moved.nodup_iff.mpr image.frames_nodup
    rw [List.cons_append,List.nodup_cons] at nodup
    refine ⟨i :: done,moved,booted.step (fun j hj => ?_) (fun hi => nodup.1 ?_) mapped⟩
    · exact Image.frames_lt (moved.mem_iff.mp (List.mem_append_left l hj))
    · exact List.mem_append_left l hi

end Siegfried
