import Siegfried.Anchored
import Siegfried.Finer

/-! Frames over whole histories: which calls keep every live allocation on frames of its
own. -/
namespace Siegfried

/-- The heap that boot registers, after `n` pages have been taken from it: they were
handed out in order. -/
structure Heap.Fresh (base n : Nat) (h : Heap) : Prop where
  bsize : h.bsize = 4096
  out : ∀ p ∈ h.out, base + 0x5000 ≤ p ∧ p < base + 0x5000 + n * 4096
  block : ∃ stack, h.blocks = [⟨base,4 + n,2047,0x800000,false,stack⟩] ∧
    ∀ x, 4 + n ≤ x → x < 2047 → stack x = x * 4096

theorem Heap.fresh_added (base : Nat) :
    (kPageobjAddHeapblk (kPageobjInitHeap 4096) base 0x800000).Fresh base 0 := by
  have reserved : slotres 4096 2047 = 4 := by decide
  refine ⟨rfl,fun p hp => absurd hp List.not_mem_nil,_,rfl,fun x lower upper => ?_⟩
  have inside : slotres 4096 2047 ≤ x ∧ x < 2047 := by omega
  exact if_pos inside

theorem Heap.Fresh.take {h : Heap} {base n : Nat} (fresh : h.Fresh base n) (small : n < 2000)
    {t : Taken Heap} (taken : h.take = some t) :
    (t.rest.clear t.ptr (t.ptr + 4096)).Fresh base (n + 1) := by
  obtain ⟨stack,blocks,order⟩ := fresh.block
  have room : 4 + n ≠ 2047 := by omega
  have plenty : ¬(2047 + 2^32 - (4 + n + 1)) % 2^32 < 3 := by omega
  have ptr : t.ptr = base + 0x5000 + n * 4096 := by
    simp only [Heap.take,takeFrom,blocks,if_pos room,Option.map_some,Option.some.injEq] at taken
    rw [← taken]
    simp only [Block.take,fresh.bsize,order (4 + n) (Nat.le_refl _) (by omega)]
    omega
  have out : (t.rest.clear t.ptr (t.ptr + 4096)).out = t.ptr :: h.out := take_out taken
  refine ⟨?_,fun p hp => ?_,?_⟩
  · obtain ⟨_,_,_,_,_,_,rfl⟩ := take_some taken
    exact fresh.bsize
  · rw [out,ptr] at hp
    rcases List.mem_cons.mp hp with rfl | hp
    · omega
    · obtain ⟨lower,upper⟩ := fresh.out p hp
      exact ⟨lower,upper.trans (by omega)⟩
  · rw [ptr]
    simp only [Heap.take,takeFrom,blocks,if_pos room,Option.map_some,Option.some.injEq] at taken
    subst taken
    simp only [Heap.clear,Block.take,Block.clear,decide_eq_false plenty,Bool.false_and,Bool.or_false,
      List.map_cons,List.map_nil]
    refine ⟨_,rfl,fun x lower upper => ?_⟩
    rw [if_pos upper,clearWord,if_pos (by omega),order x (by omega) upper]

section Boot
variable {image : Image} {k k' : Kernel} {n : Nat}

theorem openTable_fresh {base n : Nat} (fresh : k.pageHeap.Fresh base n) (small : n < 2000)
    {missing : Entry → Bool} {new flags : Entry → Entry} {p : Nat} {i : Fin 512}
    (h : openTable takePage missing new flags k p i = some k') :
    k'.pageHeap.Fresh base n ∨ k'.pageHeap.Fresh base (n + 1) := by
  cases absent : missing (k.tables p i) with
  | false =>
    simp only [openTable,absent] at h
    cases h
    exact .inl fresh
  | true =>
    simp only [openTable,absent,if_true,Option.bind_eq_bind,Option.bind_eq_some_iff,
      Option.some.injEq,exists_eq_left'] at h
    obtain ⟨⟨m,c⟩,taken,rfl⟩ := h
    obtain ⟨t,took,rfl,_,rfl,_⟩ := takePage_some taken
    exact .inr (fresh.take small took)

/-- The first page that is mapped takes at most two pages of the heap. -/
theorem mapPage_fresh {base : Nat} (fresh : k.pageHeap.Fresh base 0) {style : MapStyle}
    {tab phy vir : Nat} (h : mapPage style takePage k tab phy vir = some k') :
    ∃ n ≤ 2, k'.pageHeap.Fresh base n := by
  simp only [mapPage,Option.bind_eq_bind,Option.bind_eq_some_iff,Option.some.injEq] at h
  obtain ⟨k1,first,k2,second,rfl⟩ := h
  rcases openTable_fresh fresh (by decide) first with fresh | fresh
  · rcases openTable_fresh fresh (by decide) second with fresh | fresh
    · exact ⟨0,by decide,fresh⟩
    · exact ⟨1,by decide,fresh⟩
  · rcases openTable_fresh fresh (by decide) second with fresh | fresh
    · exact ⟨1,by decide,fresh⟩
    · exact ⟨2,by decide,fresh⟩

theorem Kernel.region_of_mapping {tab v : Nat} (mapped : (k.mapping tab v).isSome = true) :
    k.region tab v := by
  by_contra absent
  rw [Kernel.mapping_none absent] at mapped
  cases mapped

theorem Booted.anchored {n : Nat}
    (booted : Booted image.pml4Table [(image.heapBase,0x800000)] image.frames k)
    (fresh : k.pageHeap.Fresh image.heapBase n) (few : n ≤ 2)
    (low : image.heapBase + 0x5000 < 2^27) : Anchored image.pml4Table k := by
  have start := image.start
  have order := image.order
  have inside := image.inside
  have mapped (a : Nat) (lower : 0x1000000 ≤ a) (upper : a < image.krnlEnd + 0x10000) :
      (k.mapping image.pml4Table a).isSome = true := by
    have base : image.krnlEnd < 2^27 := by
      simp only [Image.heapBase] at low
      omega
    have there : page a ∈ image.frames := by
      refine Image.frames_spec.mpr (.inr ?_)
      simp only [page]
      omega
    have target := booted.maps a
    rw [if_pos there,Kernel.translate] at target
    obtain ⟨e,he,_⟩ := Option.map_eq_some_iff.mp target
    rw [he]
    rfl
  refine ⟨fun a lower upper => mapped a (by omega) (by omega),fun a uses => ?_⟩
  have above : image.krnlEnd ≤ image.heapBase ∧ image.heapBase ≤ image.krnlEnd + 0x5000 := by
    simp only [Image.heapBase]
    omega
  rcases uses with ⟨b,hb,lower,upper⟩ | ⟨p,hp,lower,upper⟩
  · rw [booted.regions,List.mem_singleton] at hb
    subst hb
    exact mapped a (by dsimp only at lower; omega) (by dsimp only at upper; omega)
  · obtain ⟨first,last⟩ := fresh.out p hp
    exact mapped a (by omega) (by omega)

/-- What the allocator works in is mapped when boot is over. -/
theorem krnlMain_anchored {mem : Forest.Store Nat (Fin 512) Entry} {ram : Nat → UInt8}
    (h : krnlMain (kPageobjAlloc n) image (image.entry mem ram) = some k) :
    Anchored image.pml4Table k := by
  obtain ⟨booted,_,low⟩ := krnlMain_booted h
  have order := image.order
  have away : (image.entry mem ram).cr3 ≠ (image.entry mem ram).pml4Table := by
    simp only [Image.entry]
    omega
  rw [krnlMain_booting away] at h
  simp only [krnlMain,Image.frames,List.foldlM_cons,Option.bind_eq_bind,Option.bind_eq_some_iff,
    Option.some.injEq] at h
  obtain ⟨m,⟨m0,first,loop⟩,rfl⟩ := h
  have hr : image.pml4Table ∈ [image.pml4Table] := List.mem_singleton.mpr rfl
  have start : Booted image.pml4Table [(image.heapBase,0x800000)] []
      (pageInitMap (kPageobjHeapSetup image (image.entry mem ram))) := image.booted (by omega) rfl rfl
  have booted0 := start.step (i := 0) (by simp) (by simp) first
  rw [pageAlloc,start.pml4Table] at first
  obtain ⟨n,few,fresh⟩ := mapPage_fresh (Heap.fresh_added image.heapBase) first
  obtain ⟨_,⟨e,here⟩,_⟩ := mapPage_mapping (takePage_pool ..) krnlStyle_ok start.pool hr first
  have region : m0.region image.pml4Table 0 := Kernel.region_of_mapping (by rw [here]; rfl)
  have small (i : Nat) (hi : i ∈ List.range' (0x1000000 / 0x200000)
      (image.krnlEnd / 0x200000 + 2 - 0x1000000 / 0x200000)) : 0 < i ∧ i < 512 := by
    have range := List.mem_range'_1.mp hi
    simp only [Image.heapBase] at low
    omega
  -- all other pages lie in the same 1 GB, whose tables are there now
  have last := Fold.foldlM_rest (fun l m => (∀ i ∈ l, 0 < i ∧ i < 512) ∧ l.Nodup ∧
    m.pageHeap = m0.pageHeap ∧ m.region image.pml4Table 0 ∧ ∃ done, (∀ i ∈ done, i < 512 ∧ i ∉ l) ∧
      Booted image.pml4Table [(image.heapBase,0x800000)] done m) ?_
    ⟨small,List.nodup_range',rfl,region,[0],by
      intro i hi
      obtain rfl := List.mem_singleton.mp hi
      exact ⟨by decide,fun member => absurd (small 0 member).1 (by decide)⟩,booted0⟩ loop
  · have fresh : ({ m with cr3 := m.pml4Table } : Kernel).pageHeap.Fresh image.heapBase n :=
      last.2.2.1 ▸ fresh
    exact booted.anchored fresh few low
  · rintro i l m m' ⟨bound,nodup,heap,there,done,small,before⟩ mapped
    obtain ⟨pos,lt⟩ := bound i (List.mem_cons_self ..)
    obtain ⟨out,nodup⟩ := List.nodup_cons.mp nodup
    have after := before.step (i := i) (fun j hj => ?_) (fun hi => ?_) mapped
    · rw [pageAlloc,before.pml4Table] at mapped
      have above : m.region image.pml4Table (0x200000 * i) :=
        (Kernel.region_congr (by omega)).mpr there
      obtain ⟨same,regions⟩ := mapPage_region (takePage_pool ..) krnlStyle_ok before.pool hr above mapped
      refine ⟨fun j hj => bound j (List.mem_cons_of_mem _ hj),nodup,same.trans heap,
        (regions 0).mpr there,i :: done,fun j hj => ?_,after⟩
      rcases List.mem_cons.mp hj with rfl | hj
      · exact ⟨lt,out⟩
      · exact ⟨(small j hj).1,fun member => (small j hj).2 (List.mem_cons_of_mem _ member)⟩
    · rcases List.mem_cons.mp hj with rfl | hj
      · omega
      · have := (small j hj).1
        omega
    · exact (small i hi).2 (List.mem_cons_self ..)

end Boot

section Grow
variable {root : Nat} {bufs roots : List Nat} {k k' : Kernel} {held : List (Nat × Nat)} {p : Nat}

/-- What must hold of the heap's state `k` in its growth branch, when the page to be
returned is already out, for the new block to be one like the others: the call for it does
not grow the heap itself, and the run it finds is apart from the blocks there are and within
reach of the entries of page tables. -/
structure Kernel.GrowsApart (k : Kernel) : Prop where
  calm : (pageFindAndAlloc takePage k 2).isSome = true
  found : pageVirtFindAddr k 2 ≠ 0xDEAD
  start : 0 < pageVirtFindAddr k 2
  low : pageVirtFindAddr k 2 + 0x400000 ≤ 2^43
  avoids : k.pageHeap.Avoids (pageVirtFindAddr k 2) (pageVirtFindAddr k 2 + 0x400000)

theorem kPageobjAlloc_low {t : Taken Heap} (taken : k.pageHeap.take = some t)
    (low : t.grows = false) (n : Nat) : kPageobjAlloc n k = takePage k := by
  cases n with
  | zero => rfl
  | succ n =>
    simp only [kPageobjAlloc,takePage,kPageobjAllocWith,taken,low,Option.bind_eq_bind,Option.bind_some,
      Bool.false_eq_true,if_false]

/-- Zeroing a page that is out, but not as a page table. -/
theorem clear_buf (pool : Pool root (p :: bufs) roots k) :
    Pool root (p :: bufs) roots (k.clear p (p + 4096)) ∧
      ∀ s ∈ roots, ∀ v, (k.clear p (p + 4096)).mapping s v = k.mapping s v := by
  have member := pool.good.bufs p (List.mem_cons_self ..)
  have aligned := (pool.good.page member).1
  have away (q : Nat) (held : holdsPage (· = root) (p :: bufs) k.pageHeap q) :
      (k.clear p (p + 4096)).tables q = k.tables q := by
    have page := pool.good.holds (fun _ same => same) held
    have other : q ≠ p := by
      rintro rfl
      rcases held with is_root | ⟨_,loose⟩
      · exact (pool.good.page member).2.2.2 is_root
      · exact loose (List.mem_cons_self ..)
    funext i
    have := i.isLt
    simp only [Kernel.clear]
    rw [if_neg (by omega)]
  have good : HeapAt root (p :: bufs) (k.pageHeap.clear p (p + 4096)) :=
    pool.good.congr (pool.good.inv.clear member (Nat.le_refl _)) (clear_regions ..) pool.good.bufs
  exact ⟨pool.agree good (fun _ hq => hq) away,fun s hs v => pool.mapping_agree away hs v⟩

/-- A page that has been taken off its block but not been zeroed. -/
theorem take_buf (pool : Pool root bufs roots k) (anchored : Anchored root k) {t : Taken Heap}
    (taken : k.pageHeap.take = some t) (mapped : (k.translate root t.ptr).isSome = true) :
    Pool root (t.ptr :: bufs) roots { k with pageHeap := t.rest } ∧ t.ptr ∉ bufs ∧
      Anchored root { k with pageHeap := t.rest } := by
  have out := take_out taken
  have inv := pool.good.inv.take taken
  have distinct := inv.distinct
  rw [out] at distinct
  have unused := (List.nodup_cons.mp distinct).1
  have good : HeapAt root bufs t.rest := pool.good.congr inv (take_regions taken) fun q hq =>
    out ▸ List.mem_cons_of_mem _ (pool.good.bufs q hq)
  have more (q : Nat) (hq : q ∈ t.ptr :: bufs) : q ∈ t.rest.out := by
    rcases List.mem_cons.mp hq with rfl | hq
    · exact out ▸ List.mem_cons_self ..
    · exact good.bufs q hq
  refine ⟨pool.agree { good with bufs := more } ?_ fun _ _ => rfl,
    fun hp => unused (pool.good.bufs _ hp),anchored.step (fun a uses => ?_) fun _ mapped => mapped⟩
  · rintro q (is_root | ⟨member,loose⟩)
    · exact .inl is_root
    · refine .inr ⟨out ▸ List.mem_cons_of_mem _ member,fun hq => ?_⟩
      rcases List.mem_cons.mp hq with rfl | hq
      · exact unused member
      · exact loose hq
  · rcases uses with ⟨b,hb,bounds⟩ | ⟨q,hq,lower,upper⟩
    · exact .inl (.inl ⟨b,take_regions taken ▸ hb,bounds⟩)
    · rw [show ({ k with pageHeap := t.rest } : Kernel).pageHeap.out = _ from out] at hq
      rcases List.mem_cons.mp hq with rfl | hq
      · have aligned := (good.page (p := t.ptr) (out ▸ List.mem_cons_self ..)).1
        rw [Kernel.translate,Option.isSome_map] at mapped
        exact .inr (by rwa [Kernel.mapping_page (page_near aligned lower upper)])
      · exact .inl (.inr ⟨q,hq,lower,upper⟩)

/-- The growth branch adds a block to a heap in order. -/
theorem extendHeap_block (pool : Pool root bufs roots k) (at_root : k.pml4Table = root)
    (hr : root ∈ roots) (inside : ∀ p ∈ held, p.1 ∈ roots) (backed : Backed k held)
    (anchored : Anchored root k) (apart : k.GrowsApart)
    (h : extendHeap (fun k => pageFindAndAlloc takePage k 2) k = some k') :
    ∃ addr, k'.pageHeap.regions = (addr,0x400000) :: k.pageHeap.regions ∧ k'.pml4Table = root ∧
      Pool root bufs roots k' ∧ Anchored root k' ∧ Backed k' (places root addr 0 2 ++ held) := by
  simp only [extendHeap,Option.bind_eq_bind,Option.bind_eq_some_iff,Option.some.injEq] at h
  obtain ⟨⟨m,addr⟩,nested,rfl⟩ := h
  have current : k.cr3 = root := by
    simp only [pageFindAndAlloc,Option.bind_eq_bind,Option.bind_eq_some_iff] at nested
    obtain ⟨_,found,_⟩ := nested
    exact (nextFree_spec found).2.2.2.trans at_root
  have spec := (pageVirtFindAddr_spec (takePage_pool ..) pool hr (by decide) at_root current
    apart.found).2.2
  have free : k.Free 2 := ⟨apart.found,at_root.symm ▸ spec,.inl apart.avoids⟩
  have aligned := pageVirtFindAddr_aligned apart.found
  have outside := free.apart_table at_root anchored (by decide)
  obtain ⟨rfl,_,pool1,backed1,kept,anchored1⟩ :=
    pageFindAndAlloc_free pool at_root hr inside backed anchored free nested
  have start := apart.start
  have bound := apart.low
  have avoids := apart.avoids
  generalize pageVirtFindAddr k 2 = addr at *
  have region : m.pageHeap.Region addr 0x400000 := by
    refine ⟨by omega,by decide,start,by omega,fun b hb => ?_⟩
    exact avoids (b.addr,b.size) (kept.regions ▸ List.mem_map_of_mem hb)
  have mapped (a : Nat) (lower : addr ≤ a) (upper : a < addr + 0x200000) :
      (m.mapping root a).isSome = true := by
    obtain ⟨e,holds⟩ := backed1.holds (root,addr + 0 * 2097152)
      (List.mem_append_left _ (mem_places.mpr ⟨0,by decide,by decide,rfl⟩))
    have same : page a = page (addr + 0 * 2097152) := by
      simp only [page]
      omega
    rw [Kernel.mapping_page same,holds.mapping]
    rfl
  have good : HeapAt root bufs (kPageobjAddHeapblk m.pageHeap addr 0x400000) := by
    have before := pool1.good
    refine ⟨before.inv.add region (by decide),?_,?_,?_,before.aligned,before.start,before.root_low,
      before.bufs⟩
    · exact List.forall_mem_cons.mpr ⟨bound,before.low⟩
    · exact List.forall_mem_cons.mpr ⟨show (0x400000 : Nat) ≠ 0x2000000 by decide,before.small⟩
    · exact List.forall_mem_cons.mpr ⟨outside.symm,before.apart⟩
  refine ⟨addr,congrArg ((addr,0x400000) :: ·) kept.regions,kept.pml4Table.trans at_root,
    pool1.agree good (fun _ hq => hq) fun _ _ => rfl,
    anchored1.step (fun a uses => ?_) fun _ mapped => mapped,
    backed1.congr rfl (fun _ _ => rfl) fun _ _ _ _ mark => mark⟩
  rcases uses with ⟨b,hb,lower,upper⟩ | ⟨q,hq,bounds⟩
  · rcases List.mem_cons.mp hb with rfl | hb
    · exact .inr (mapped a lower (by dsimp only at upper; omega))
    · exact .inl (.inl ⟨b,hb,lower,upper⟩)
  · exact .inl (.inr ⟨q,hq,bounds⟩)

/-- `k_pageobj_alloc` when it extends the heap. -/
theorem kPageobjAlloc_grows {n : Nat} (pool : Pool root bufs roots k) (at_root : k.pml4Table = root)
    (hr : root ∈ roots) (inside : ∀ p ∈ held, p.1 ∈ roots) (backed : Backed k held)
    (anchored : Anchored root k) {t : Taken Heap} (taken : k.pageHeap.take = some t)
    (low : t.grows = true) (mapped : (k.translate root t.ptr).isSome = true)
    (apart : ({ k with pageHeap := t.rest } : Kernel).GrowsApart)
    (h : kPageobjAlloc n k = some (k',p)) :
    ∃ addr, k'.pageHeap.regions = (addr,0x400000) :: k.pageHeap.regions ∧ k'.pml4Table = root ∧
      Pool root (p :: bufs) roots k' ∧ p ∉ bufs ∧ Anchored root k' ∧
      Backed k' (places root addr 0 2 ++ held) := by
  cases n with
  | zero =>
    obtain ⟨t',taken',_,same,_,_⟩ := takePage_some h
    rw [taken] at taken'
    cases taken'
    rw [low] at same
    cases same
  | succ n =>
    simp only [kPageobjAlloc,kPageobjAllocWith] at h
    split at h
    · cases h
    simp only [taken,low,if_true,Option.bind_eq_bind,Option.bind_some,Option.bind_eq_some_iff] at h
    obtain ⟨m,extended,h⟩ := h
    split at h
    swap
    · cases h
    cases h
    obtain ⟨pool0,unused,anchored0⟩ := take_buf pool anchored taken mapped
    have backed0 : Backed { k with pageHeap := t.rest } held :=
      backed.congr rfl (fun _ _ => rfl) fun _ _ _ _ mark => mark
    -- the call for the new block does not grow the heap in turn
    have calm : extendHeap (fun k => pageFindAndAlloc takePage k 2) { k with pageHeap := t.rest } =
        some m := by
      obtain ⟨r,calm⟩ := Option.isSome_iff_exists.mp apart.calm
      have same := (pageFindAndAlloc_agrees (takePage_finer n) _ _).result r calm
      simp only [extendHeap,same,Option.bind_eq_bind,Option.bind_some] at extended
      simp only [extendHeap,calm,Option.bind_eq_bind,Option.bind_some]
      exact extended
    obtain ⟨addr,regions,root',pool1,anchored1,backed1⟩ :=
      extendHeap_block pool0 at_root hr inside backed0 anchored0 apart calm
    obtain ⟨pool2,same⟩ := clear_buf pool1
    refine ⟨addr,?_,root',pool2,unused,?_,?_⟩
    · rw [← take_regions taken]
      exact (clear_regions ..).trans regions
    · exact anchored1.congr (clear_regions ..) (fun _ hq => hq) (same root hr)
    · refine backed1.congr rfl (fun q hq => same q.1 ?_ q.2) fun _ _ _ _ mark => mark
      rcases List.mem_append.mp hq with hq | hq
      · obtain ⟨_,_,_,rfl⟩ := mem_places.mp hq
        exact hr
      · exact inside q hq

end Grow

end Siegfried
