import Siegfried.Frames

/-! What the functions that hand out and take back runs of pages do to the frames of
other pages, as long as the page heap does not grow on the way. -/
namespace Siegfried

/-- The pages an allocation covers. -/
def Covered (tab vaddr pgs s v : Nat) : Prop :=
  s = tab ∧ ∃ i < pgs, page v = page (vaddr + i * 2097152)

/-- No block meets `[lo,hi)`. -/
def Heap.Avoids (h : Heap) (lo hi : Nat) : Prop := ∀ b ∈ h.regions, hi ≤ b.1 ∨ b.1 + b.2 ≤ lo

/-- Page tables in order, on a page heap in order, with the kernel's table at `root`. -/
abbrev Pool (root : Nat) (bufs roots : List Nat) (k : Kernel) : Prop :=
  Tabs (HeapAt root bufs) (holdsPage (· = root) bufs) roots k

/-- What a page of the heap can still be found to be after a run of pages is chosen:
the run is found, and keeps clear of the heap and of the kernel's table. -/
structure Kernel.Room (k : Kernel) (pgs : Nat) : Prop where
  few : pgs < 512
  found : pageVirtFindAddr k pgs ≠ 0xDEAD
  avoids : k.pageHeap.Avoids (pageVirtFindAddr k pgs) (pageVirtFindAddr k pgs + pgs * 2097152)
  apart : pageVirtFindAddr k pgs + pgs * 2097152 ≤ k.pml4Table ∨
    k.pml4Table + 4096 ≤ pageVirtFindAddr k pgs

section Pool
variable {root : Nat} {bufs roots : List Nat} {k k' : Kernel} {held : List (Nat × Nat)} {tab : Nat}

theorem takePage_pool (root : Nat) (bufs : List Nat) :
    PageSource (HeapAt root bufs) (holdsPage (· = root) bufs) takePage :=
  takePage_source fun _ same => same

theorem Backed.kept {named : Nat → Nat → Prop} (backed : Backed k held)
    (inside : ∀ p ∈ held, p.1 ∈ roots) (kept : Kept roots named k k')
    (clear : ∀ p ∈ held, ¬named p.1 p.2) : Backed k' held :=
  backed.congr kept.pml4Table (fun p hp => kept.mapping p.1 (inside p hp) p.2 (clear p hp))
    fun _ _ _ _ mark => kept.marks _ mark

/-- Zeroing memory that no block of the heap meets. -/
theorem HeapAt.clear {h : Heap} (at_root : HeapAt root bufs h) {lo hi : Nat}
    (avoids : h.Avoids lo hi) : HeapAt root bufs (h.clear lo hi) := by
  have inv := at_root.inv
  refine at_root.congr ⟨inv.bsize,?_,?_,?_⟩ (clear_regions ..) at_root.bufs
  · intro c hc
    obtain ⟨d,hd,rfl⟩ := List.mem_map.mp hc
    have ok := inv.ok d hd
    have max := ok.max
    have pages := ok.pages
    have inside : d.max ≤ (d.size - 4096) / 4096 := by rw [max]; exact Nat.mod_le _ _
    refine ok.clear ?_
    rcases avoids (d.addr,d.size) (List.mem_map_of_mem hd) with below | above
    · exact .inr below
    · dsimp only at above
      omega
  · exact List.pairwise_map.mpr inv.apart
  · intro q hq
    obtain ⟨c,hc,held⟩ := inv.within q hq
    exact ⟨c.clear lo hi,List.mem_map_of_mem hc,held⟩

theorem clear_kept (pool : Pool root bufs roots k) {lo hi : Nat} (avoids : k.pageHeap.Avoids lo hi)
    (apart : hi ≤ root ∨ root + 4096 ≤ lo) :
    Pool root bufs roots (k.clear lo hi) ∧ Kept roots (fun _ _ => False) k (k.clear lo hi) := by
  have away (q : Nat) (held : holdsPage (· = root) bufs k.pageHeap q) :
      (k.clear lo hi).tables q = k.tables q := by
    have outside : hi ≤ q ∨ q + 4096 ≤ lo := by
      rcases held with rfl | ⟨member,_⟩
      · exact apart
      · obtain ⟨b,hb,_,_,start,_,finish⟩ := pool.good.inv.page member
        have := avoids (b.addr,b.size) (List.mem_map_of_mem hb)
        dsimp only at this
        omega
    funext i
    have := i.isLt
    simp only [Kernel.clear]
    rw [if_neg (by omega)]
  refine ⟨pool.agree (pool.good.clear avoids) (fun _ hq => hq) away,?_⟩
  exact ⟨fun s hs v _ => pool.mapping_agree away hs v,fun _ mark => mark,rfl,rfl,rfl,clear_regions ..⟩

/-- A page out of the heap, kept for something other than a page table. -/
theorem takePage_buf (pool : Pool root bufs roots k) {p : Nat} (h : takePage k = some (k',p)) :
    Pool root (p :: bufs) roots k' ∧ Kept roots (fun _ _ => False) k k' ∧ p ∉ bufs := by
  obtain ⟨after,out⟩ := takePage_heap pool.good h
  have served := (takePage_pool root bufs).served pool.good h
  have distinct := after.inv.distinct
  rw [out] at distinct
  have unused := (List.nodup_cons.mp distinct).1
  refine ⟨pool.agree { after with bufs := ?_ } ?_ served.kept,?_,?_⟩
  · intro q hq
    rcases List.mem_cons.mp hq with rfl | hq
    · exact out ▸ List.mem_cons_self ..
    · exact after.bufs q hq
  · rintro q (is_root | ⟨member,loose⟩)
    · exact .inl is_root
    · refine .inr ⟨out ▸ List.mem_cons_of_mem _ member,fun hq => ?_⟩
      rcases List.mem_cons.mp hq with rfl | hq
      · exact unused member
      · exact loose hq
  · exact (takePage_steady h).kept fun s hs v => pool.mapping_agree served.kept hs v
  · exact fun hp => unused (pool.good.bufs p hp)

/-- A page that was kept goes back. -/
theorem kPageobjFree_buf (pool : Pool root bufs roots k) {p : Nat} (hp : p ∈ bufs)
    (once : bufs.Nodup) : Pool root (bufs.erase p) roots (kPageobjFree k p) ∧
      Kept roots (fun _ _ => False) k (kPageobjFree k p) := by
  have at_root := pool.good
  have member := at_root.bufs p hp
  have out := free_out at_root.inv member
  have plain := kPageobjFree_plain at_root.small p
  have good : HeapAt root (bufs.erase p) (k.pageHeap.free p) := by
    have fewer : HeapAt root (bufs.erase p) k.pageHeap :=
      { at_root with bufs := fun q hq => at_root.bufs q (List.mem_of_mem_erase hq) }
    refine fewer.congr (at_root.inv.free member) (free_regions at_root.small p) fun q hq => ?_
    rw [out,at_root.inv.distinct.mem_erase_iff]
    exact ⟨((once.mem_erase_iff).mp hq).1,at_root.bufs q (List.mem_of_mem_erase hq)⟩
  rw [plain]
  refine ⟨pool.agree good ?_ fun _ _ => rfl,?_⟩
  · rintro q (is_root | ⟨there,loose⟩)
    · exact .inl is_root
    · refine .inr ⟨?_,fun hq => loose (List.mem_of_mem_erase hq)⟩
      rw [out,at_root.inv.distinct.mem_erase_iff]
      exact ⟨fun same => loose (same ▸ hp),there⟩
  · exact ⟨fun s hs v _ => pool.mapping_agree (fun _ _ => rfl) hs v,fun _ mark => mark,rfl,rfl,rfl,
      free_regions at_root.small p⟩

theorem runs_unmapped (pool : Pool root bufs roots k) (at_root : k.pml4Table = root)
    (hr : root ∈ roots) (current : k.cr3 = root) {pgs : Nat} (room : k.Room pgs) {s v : Nat}
    (covered : Covered root (pageVirtFindAddr k pgs) pgs s v) : k.mapping s v = none := by
  obtain ⟨rfl,i,hi,same⟩ := covered
  rw [Kernel.mapping_page same]
  exact (pageVirtFindAddr_spec (takePage_pool ..) pool hr room.few at_root current room.found).2.2 i hi

theorem pageFindAndAlloc_backed (pool : Pool root bufs roots k) (at_root : k.pml4Table = root)
    (hr : root ∈ roots) (inside : ∀ p ∈ held, p.1 ∈ roots) (backed : Backed k held) {pgs addr : Nat}
    (room : k.Room pgs) (h : pageFindAndAlloc takePage k pgs = some (k',addr)) :
    addr = pageVirtFindAddr k pgs ∧ k.cr3 = root ∧ Pool root bufs roots k' ∧
      Backed k' (places root addr 0 pgs ++ held) ∧ Kept roots (Covered root addr pgs) k k' := by
  simp only [pageFindAndAlloc,Option.bind_eq_bind,Option.bind_eq_some_iff] at h
  obtain ⟨i,found,m,mapped,h⟩ := h
  split at h
  · cases h
  cases h
  obtain ⟨_,_,_,current⟩ := nextFree_spec found
  rw [at_root] at current
  have few := room.few
  have style : krnlStyle.Plain (decide (root ≠ root)) := by simpa using krnlStyle_plain
  have clear (p : Nat × Nat) (hp : p ∈ held) (table : p.1 = root) (i : Nat) (_ : 0 ≤ i)
      (hi : i < 0 + pgs) : page p.2 ≠ page (pageVirtFindAddr k pgs + i * 2097152) := by
    intro same
    obtain ⟨e,holds⟩ := backed.holds p hp
    have none := runs_unmapped pool at_root hr current room ⟨table,i,by omega,same⟩
    rw [holds.mapping] at none
    cases none
  have body (k : Kernel) (phy vir : Nat) (same : k.pml4Table = root) :
      pageAlloc takePage k phy vir = mapPage krnlStyle takePage k root phy vir := by
    rw [pageAlloc,same]
  obtain ⟨pool',backed',kept⟩ := allocPages_backed (takePage_pool ..) takePage_steady style body
    at_root (by omega) pool hr inside backed clear mapped
  have avoids : m.pageHeap.Avoids (pageVirtFindAddr k pgs)
      (pageVirtFindAddr k pgs + 0x200000 * pgs) := by
    rw [Heap.Avoids,kept.regions,Nat.mul_comm]
    exact room.avoids
  have apart := room.apart
  rw [at_root,Nat.mul_comm] at apart
  obtain ⟨pool'',still⟩ := clear_kept pool' avoids apart
  refine ⟨rfl,current,pool'',?_,(kept.trans still).weaken ?_⟩
  · refine backed'.kept (fun p hp => ?_) still fun _ _ h => h
    rcases List.mem_append.mp hp with hp | hp
    · obtain ⟨_,_,_,rfl⟩ := mem_places.mp hp
      exact hr
    · exact inside p hp
  · rintro s v (⟨table,i,_,hi,same⟩ | none)
    · exact ⟨table,i,by omega,same⟩
    · exact none.elim

theorem zeroUser_ram {lo hi n w : Nat} (h : zeroUser tab lo hi n w k = some k') :
    ∃ ram, k' = { k with ram := ram } := by
  induction n generalizing k w with
  | zero =>
    cases h
    exact ⟨_,rfl⟩
  | succ n ih =>
    simp only [zeroUser,Option.bind_eq_bind,Option.bind_eq_some_iff] at h
    obtain ⟨e,_,h⟩ := h
    split at h
    · cases h
    · obtain ⟨ram,rfl⟩ := ih h
      exact ⟨ram,rfl⟩

/-- `page_find_and_alloc_user`, unless the first page is the user's already, when the
pages it is to map are not. -/
theorem pageFindAndAllocUser_backed (pool : Pool root bufs roots k) (at_root : k.pml4Table = root)
    (hr : tab ∈ roots) (other : tab ≠ root) (inside : ∀ p ∈ held, p.1 ∈ roots)
    (backed : Backed k held) {vaddr pgs addr : Nat} (fresh : isMappedUser k tab vaddr = false)
    (unused : ∀ i < pgs, ∀ e, k.mapping tab (vaddr + i * 2097152) = some e → e.isuser = false)
    (h : pageFindAndAllocUser takePage k tab vaddr pgs = some (k',addr)) :
    Pool root bufs roots k' ∧ Backed k' (places tab vaddr 0 pgs ++ held) ∧
      Kept roots (Covered tab vaddr pgs) k k' := by
  have absent : isMappedUser { k with cr3 := k.pml4Table } tab vaddr = false := fresh
  simp only [pageFindAndAllocUser,absent,Option.bind_eq_bind,Option.bind_eq_some_iff] at h
  obtain ⟨i,found,h⟩ := h
  simp only [Bool.false_eq_true,if_false] at h
  split at h
  · cases h
  simp only [Option.bind_eq_some_iff,Option.some.injEq,Prod.mk.injEq] at h
  obtain ⟨m,mapped,n,zeroed,rfl,rfl⟩ := h
  obtain ⟨ram,rfl⟩ := zeroUser_ram zeroed
  have few := allocPages_few mapped
  have style : userStyle.Plain (decide (tab ≠ root)) := by simpa [other] using userStyle_plain
  have pool0 : Pool root bufs roots { k with cr3 := k.pml4Table } := pool.agree pool.good
    (fun _ hq => hq) fun _ _ => rfl
  have backed0 : Backed { k with cr3 := k.pml4Table } held :=
    backed.congr rfl (fun _ _ => rfl) fun _ _ _ _ mark => mark
  have clear (p : Nat × Nat) (hp : p ∈ held) (table : p.1 = tab) (i : Nat) (_ : 0 ≤ i)
      (hi : i < 0 + pgs) : page p.2 ≠ page (vaddr + i * 2097152) := by
    intro same
    obtain ⟨e,holds⟩ := backed.holds p hp
    have mapping := holds.mapping
    rw [table,Kernel.mapping_page same] at mapping
    have user := holds.isuser
    rw [unused i (by omega) e mapping,table,at_root] at user
    simp [other] at user
  obtain ⟨pool',backed',kept⟩ := allocPages_backed (k := { k with cr3 := k.pml4Table })
    (takePage_pool ..) takePage_steady style (fun _ _ _ _ => rfl) at_root (by omega) pool0 hr inside backed0 clear mapped
  refine ⟨pool'.agree pool'.good (fun _ hq => hq) fun _ _ => rfl,
    backed'.congr rfl (fun _ _ => rfl) fun _ _ _ _ mark => mark,?_⟩
  refine ⟨fun s hs v out => ?_,kept.marks,kept.availMem,rfl,kept.pml4Table,kept.regions⟩
  refine kept.mapping s hs v fun ⟨table,i,_,hi,same⟩ => out ⟨table,i,by omega,same⟩

/-- The loop of `page_free_found` and `page_free_found_user`, on pages that are held. -/
theorem freePages_backed (pool : Pool root bufs roots k) (hr : tab ∈ roots)
    (inside : ∀ p ∈ held, p.1 ∈ roots) {vaddr pgs : Nat}
    (backed : Backed k (places tab vaddr 0 pgs ++ held))
    (low : ∀ i < pgs, ∀ f, k.translate tab (vaddr + i * 2097152) = some f → f < 2^22) :
    Pool root bufs roots ((List.range pgs).foldl (freePage tab vaddr) k) ∧
      Backed ((List.range pgs).foldl (freePage tab vaddr) k) held ∧
      ∀ s ∈ roots, ∀ v, ¬Covered tab vaddr pgs s v →
        ((List.range pgs).foldl (freePage tab vaddr) k).mapping s v = k.mapping s v := by
  have last := Fold.foldl_rest (g := freePage tab vaddr)
    (fun l m => (∀ i ∈ l, i < pgs ∧ m.mapping tab (vaddr + i * 2097152) =
        k.mapping tab (vaddr + i * 2097152)) ∧ Pool root bufs roots m ∧
      Backed m ((l.map fun i => (tab,vaddr + i * 2097152)) ++ held) ∧
      ∀ s ∈ roots, ∀ v, ¬Covered tab vaddr pgs s v → m.mapping s v = k.mapping s v) ?_
    (l := List.range pgs) (s := k) ⟨fun i hi => ⟨List.mem_range.mp hi,rfl⟩,pool,?_,fun _ _ _ _ => rfl⟩
  · exact ⟨last.2.1,last.2.2.1,last.2.2.2⟩
  · rintro i l m ⟨rest,inv,backed,mapping⟩
    obtain ⟨here,same⟩ := rest i (List.mem_cons_self ..)
    have all (p : Nat × Nat) (hp : p ∈ (l.map fun i => (tab,vaddr + i * 2097152)) ++ held) :
        p.1 ∈ roots := by
      rcases List.mem_append.mp hp with hp | hp
      · obtain ⟨_,_,rfl⟩ := List.mem_map.mp hp
        exact hr
      · exact inside p hp
    have frame (f : Nat) (target : m.translate tab (vaddr + i * 2097152) = some f) : f < 2^22 := by
      rw [Kernel.translate,same] at target
      exact low i here f target
    obtain ⟨inv',backed',others⟩ := freePage_backed (takePage_pool ..) inv hr all backed frame
    refine ⟨fun j hj => ?_,inv',backed',fun s hs v out => ?_⟩
    · obtain ⟨bound,before⟩ := rest j (List.mem_cons_of_mem _ hj)
      refine ⟨bound,(others tab hr _ fun named => ?_).trans before⟩
      have member : (tab,vaddr + j * 2097152) ∈ (l.map fun i => (tab,vaddr + i * 2097152)) ++ held :=
        List.mem_append_left _ (List.mem_map.mpr ⟨j,hj,rfl⟩)
      exact backed.page_ne member rfl named.2
    · rw [others s hs v fun named => out ⟨named.1,i,here,named.2⟩]
      exact mapping s hs v out
  · rwa [List.range_eq_range']

/-- Mapping given frames at a run that is found keeps every page that is held. -/
theorem mapPaddr_kept (pool : Pool root bufs roots k) (at_root : k.pml4Table = root)
    (hr : root ∈ roots) {style : MapStyle} (ok : style.Ok) {paddr pgs addr : Nat}
    (found : pageVirtFindAddr k pgs ≠ 0xDEAD)
    (h : mapPaddr takePage k style paddr pgs = some (k',addr)) :
    Pool root bufs roots k' ∧ Kept roots (Covered root (pageVirtFindAddr k pgs) pgs) k k' := by
  simp only [mapPaddr,found,if_false,Option.bind_eq_bind,Option.bind_eq_some_iff,
    Option.some.injEq,Prod.mk.injEq] at h
  obtain ⟨m,loop,rfl,_⟩ := h
  have last := Fold.foldlM_rest (fun l m => (∀ i ∈ l, i < pgs) ∧ Pool root bufs roots m ∧
    Kept roots (Covered root (pageVirtFindAddr k pgs) pgs) k m) ?_
    ⟨fun i hi => List.mem_range.mp hi,pool,⟨fun _ _ _ _ => rfl,fun _ mark => mark,rfl,rfl,rfl,rfl⟩⟩ loop
  · exact ⟨last.2.1,last.2.2⟩
  · rintro i l m m' ⟨bound,inv,kept⟩ mapped
    have here := bound i (List.mem_cons_self ..)
    have same : m.pml4Table = root := kept.pml4Table.trans at_root
    rw [same] at mapped
    obtain ⟨inv',kept'⟩ := mapPage_kept (takePage_pool ..) takePage_steady ok inv hr mapped
    refine ⟨fun j hj => bound j (List.mem_cons_of_mem _ hj),inv',(kept.trans kept').weaken ?_⟩
    rintro s v (covered | ⟨table,same⟩)
    · exact covered
    · exact ⟨table,i,here,same⟩

end Pool

end Siegfried
