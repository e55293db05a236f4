import Siegfried.PageAlloc

/-! Which frames back which pages: what mapping and unmapping runs of pages does to
pages whose frames are marked in `phys_mem_map`. -/
namespace Siegfried

/-- Only page tables and the free pages of the heap differ. -/
structure Kernel.Still (k k' : Kernel) : Prop where
  physMemMap : k'.physMemMap = k.physMemMap
  availMem : k'.availMem = k.availMem
  cr3 : k'.cr3 = k.cr3
  pml4Table : k'.pml4Table = k.pml4Table
  ram : k'.ram = k.ram
  regions : k'.pageHeap.regions = k.pageHeap.regions

/-- A source of pages that does not map any. -/
def Steady (alloc : Kernel → Option (Kernel × Nat)) : Prop :=
  ∀ ⦃k k' p⦄, alloc k = some (k',p) → k.Still k'

theorem Kernel.Still.refl (k : Kernel) : k.Still k := ⟨rfl,rfl,rfl,rfl,rfl,rfl⟩

theorem Kernel.Still.trans {k m n : Kernel} (first : k.Still m) (second : m.Still n) : k.Still n :=
  ⟨second.physMemMap.trans first.physMemMap,second.availMem.trans first.availMem,
    second.cr3.trans first.cr3,second.pml4Table.trans first.pml4Table,second.ram.trans first.ram,
    second.regions.trans first.regions⟩

theorem Kernel.still_setEntry (k : Kernel) (p : Nat) (i : Fin 512) (e : Entry) :
    k.Still (k.setEntry p i e) := ⟨rfl,rfl,rfl,rfl,rfl,rfl⟩

theorem takePage_steady : Steady takePage := by
  intro k k' p h
  obtain ⟨t,taken,_,_,rfl,_⟩ := takePage_some h
  refine ⟨rfl,rfl,rfl,rfl,rfl,?_⟩
  simp [Kernel.clear,take_regions taken]

section Steady
variable {alloc : Kernel → Option (Kernel × Nat)} {k k' : Kernel}

theorem openTable_still (steady : Steady alloc) {missing : Entry → Bool} {fresh flags : Entry → Entry}
    {p : Nat} {i : Fin 512} (h : openTable alloc missing fresh flags k p i = some k') :
    k.Still k' := by
  cases absent : missing (k.tables p i) with
  | false =>
    simp only [openTable,absent] at h
    cases h
    exact k.still_setEntry ..
  | true =>
    simp only [openTable,absent,if_true,Option.bind_eq_bind,Option.bind_eq_some_iff,
      Option.some.injEq,exists_eq_left'] at h
    obtain ⟨⟨m,c⟩,taken,rfl⟩ := h
    exact ((steady taken).trans (m.still_setEntry ..)).trans (Kernel.still_setEntry ..)

/-- Mapping a page marks its frame. -/
theorem mapPage_still (steady : Steady alloc) {style : MapStyle} {tab phy vir : Nat}
    (h : mapPage style alloc k tab phy vir = some k') :
    k.Still { k' with physMemMap := k.physMemMap } ∧
      k'.physMemMap = Function.update k.physMemMap (phy / 2097152) true := by
  simp only [mapPage,Option.bind_eq_bind,Option.bind_eq_some_iff,Option.some.injEq] at h
  obtain ⟨k1,first,k2,second,rfl⟩ := h
  obtain ⟨map,avail,cr3,root,ram,regions⟩ :=
    (openTable_still steady first).trans (openTable_still steady second)
  exact ⟨⟨rfl,avail,cr3,root,ram,regions⟩,by rw [← map]; rfl⟩

end Steady

/-- A page of a table, mapped to a frame that is in use, as `page_alloc` and
`page_alloc_tab` map one. -/
structure Kernel.Holds (k : Kernel) (p : Nat × Nat) (e : Entry) : Prop where
  mapping : k.mapping p.1 p.2 = some e
  attr : e.attr = 0
  rsvd8 : e.rsvd8 = 0
  isuser : e.isuser = decide (p.1 ≠ k.pml4Table)
  marked : k.physMemMap e.frame = true

/-- The pages `held`, given by table and address, are mapped to frames of their own. -/
structure Backed (k : Kernel) (held : List (Nat × Nat)) : Prop where
  holds : ∀ p ∈ held, ∃ e, k.Holds p e
  distinct : held.Pairwise fun p q => k.translate p.1 p.2 ≠ k.translate q.1 q.2

theorem Kernel.mapping_page {k : Kernel} {tab v w : Nat} (same : page v = page w) :
    k.mapping tab v = k.mapping tab w := by
  obtain ⟨top,middle,bottom⟩ := page_eq_iff.mp same
  rw [Kernel.mapping,Kernel.mapping,top,middle,bottom]

section Backed
variable {k k' : Kernel} {held : List (Nat × Nat)} {tab vir : Nat}

theorem Backed.nil (k : Kernel) : Backed k [] := ⟨fun _ hp => absurd hp List.not_mem_nil,.nil⟩

theorem Backed.sublist {fewer : List (Nat × Nat)} (backed : Backed k held)
    (sub : fewer.Sublist held) : Backed k fewer :=
  ⟨fun p hp => backed.holds p (sub.subset hp),backed.distinct.sublist sub⟩

theorem Backed.perm {other : List (Nat × Nat)} (backed : Backed k held) (same : held.Perm other) :
    Backed k other :=
  ⟨fun p hp => backed.holds p (same.mem_iff.mpr hp),
    same.pairwise backed.distinct fun h => h.symm⟩

/-- Only the mappings of the pages and the marks of their frames matter. -/
theorem Backed.congr (backed : Backed k held) (root : k'.pml4Table = k.pml4Table)
    (same : ∀ p ∈ held, k'.mapping p.1 p.2 = k.mapping p.1 p.2)
    (marks : ∀ p ∈ held, ∀ e, k.mapping p.1 p.2 = some e → k.physMemMap e.frame = true →
      k'.physMemMap e.frame = true) : Backed k' held := by
  refine ⟨fun p hp => ?_,?_⟩
  · obtain ⟨e,holds⟩ := backed.holds p hp
    exact ⟨e,(same p hp).trans holds.mapping,holds.attr,holds.rsvd8,root ▸ holds.isuser,
      marks p hp e holds.mapping holds.marked⟩
  · refine backed.distinct.imp_of_mem fun hp hq different => ?_
    simp only [Kernel.translate,same _ hp,same _ hq]
    exact different

/-- One more page, on a frame that was not in use. -/
theorem Backed.cons (backed : Backed k held) (root : k'.pml4Table = k.pml4Table)
    (same : ∀ p ∈ held, k'.mapping p.1 p.2 = k.mapping p.1 p.2) {p : Nat × Nat} {e : Entry}
    (holds : k'.Holds p e) (unused : k.physMemMap e.frame = false)
    (marks : ∀ f, k.physMemMap f = true → k'.physMemMap f = true) : Backed k' (p :: held) := by
  have before := backed.congr root same fun _ _ _ _ mark => marks _ mark
  refine ⟨fun q hq => ?_,List.pairwise_cons.mpr ⟨fun q hq shared => ?_,before.distinct⟩⟩
  · rcases List.mem_cons.mp hq with rfl | hq
    · exact ⟨e,holds⟩
    · exact before.holds q hq
  · obtain ⟨e',other⟩ := backed.holds q hq
    simp only [Kernel.translate,holds.mapping,same q hq,other.mapping,Option.map_some,
      Option.some.injEq] at shared
    rw [shared,other.marked] at unused
    cases unused

/-- A page whose frame is its own is not one of the other pages. -/
theorem Backed.page_ne {p q : Nat × Nat} (backed : Backed k (p :: held)) (hq : q ∈ held)
    (table : q.1 = p.1) : page q.2 ≠ page p.2 := by
  intro same
  apply (List.pairwise_cons.mp backed.distinct).1 q hq
  rw [Kernel.translate,Kernel.translate,table,Kernel.mapping_page same]

end Backed

/-- The first `n` pages from the page at `vaddr + pi * 2 MB` on. -/
def places (tab vaddr pi n : Nat) : List (Nat × Nat) :=
  (List.range' pi n).map fun i => (tab,vaddr + i * 2097152)

theorem places_succ (tab vaddr pi n : Nat) :
    places tab vaddr pi (n + 1) = (tab,vaddr + pi * 2097152) :: places tab vaddr (pi + 1) n := by
  simp [places,List.range'_succ]

theorem mem_places {tab vaddr pi n : Nat} {p : Nat × Nat} : p ∈ places tab vaddr pi n ↔
    ∃ i, pi ≤ i ∧ i < pi + n ∧ p = (tab,vaddr + i * 2097152) := by
  simp only [places,List.mem_map,List.mem_range'_1]
  constructor
  · rintro ⟨i,⟨lower,upper⟩,rfl⟩
    exact ⟨i,lower,upper,rfl⟩
  · rintro ⟨i,lower,upper,rfl⟩
    exact ⟨i,⟨lower,upper⟩,rfl⟩

/-- Pages less than 2^27 apart differ. -/
theorem page_ne {vaddr i j : Nat} (different : i ≠ j) (near : i < j + 2^27 ∧ j < i + 2^27) :
    page (vaddr + i * 2097152) ≠ page (vaddr + j * 2097152) := by
  simp only [page]
  omega

theorem nextFree_spec {k : Kernel} {n f g : Nat} (h : nextFree k n f = some g) :
    f ≤ g ∧ g < f + n ∧ k.physMemMap g = false ∧ k.cr3 = k.pml4Table := by
  induction n generalizing f with
  | zero => cases h
  | succ n ih =>
    simp only [nextFree,Option.bind_eq_bind,Option.bind_eq_some_iff] at h
    obtain ⟨used,test,h⟩ := h
    cases used with
    | true =>
      obtain ⟨lower,upper,free,current⟩ := ih h
      exact ⟨by omega,by omega,free,current⟩
    | false =>
      cases h
      simp only [pagePhysmemmapIsUsed] at test
      split at test
      · cases test
      · next current =>
        split at test
        · simp only [Nat.mul_div_cancel _ (show 0 < 2097152 by decide),Option.some.injEq] at test
          exact ⟨Nat.le_refl _,by omega,test,Decidable.not_not.mp current⟩
        · cases test

/-- The frames of a run of pages lie in the bitmap. -/
theorem allocPages_few {page' : Kernel → Nat → Nat → Option Kernel} {k k' : Kernel} {addr n pi off : Nat}
    (h : allocPages page' addr n pi k off = some k') : n = 0 ∨ off + n ≤ 2^27 := by
  induction n generalizing k pi off with
  | zero => exact .inl rfl
  | succ n ih =>
    simp only [allocPages,Option.bind_eq_bind,Option.bind_eq_some_iff] at h
    obtain ⟨g,found,m,_,rest⟩ := h
    obtain ⟨lower,upper,_,_⟩ := nextFree_spec found
    have := ih rest
    omega

section Source
variable {good : Heap → Prop} {owns : Heap → Nat → Prop} {alloc : Kernel → Option (Kernel × Nat)}
  {roots : List Nat} {k k' : Kernel} {held : List (Nat × Nat)} {tab : Nat}

/-- How `page_alloc` and `page_alloc_tab` write the entry of a page in the table `tab`. -/
structure MapStyle.Plain (style : MapStyle) (user : Bool) : Prop extends style.Ok where
  attr : ∀ phy e, (style.pde phy e).attr = 0
  isuser : ∀ phy e, (style.pde phy e).isuser = user

theorem krnlStyle_plain : krnlStyle.Plain false := ⟨krnlStyle_ok,fun _ _ => rfl,fun _ _ => rfl⟩

theorem userStyle_plain : userStyle.Plain true := ⟨userStyle_ok,fun _ _ => rfl,fun _ _ => rfl⟩

/-- What stays as it was when pages of `tab` are mapped. -/
structure Kept (roots : List Nat) (named : Nat → Nat → Prop) (k k' : Kernel) : Prop where
  mapping : ∀ s ∈ roots, ∀ v, ¬named s v → k'.mapping s v = k.mapping s v
  marks : ∀ f, k.physMemMap f = true → k'.physMemMap f = true
  availMem : k'.availMem = k.availMem
  cr3 : k'.cr3 = k.cr3
  pml4Table : k'.pml4Table = k.pml4Table
  regions : k'.pageHeap.regions = k.pageHeap.regions

theorem Kept.trans {named other : Nat → Nat → Prop} {m : Kernel} (first : Kept roots named k m)
    (second : Kept roots other m k') : Kept roots (fun s v => named s v ∨ other s v) k k' where
  mapping s hs v out :=
    (second.mapping s hs v fun h => out (.inr h)).trans (first.mapping s hs v fun h => out (.inl h))
  marks f mark := second.marks f (first.marks f mark)
  availMem := second.availMem.trans first.availMem
  cr3 := second.cr3.trans first.cr3
  pml4Table := second.pml4Table.trans first.pml4Table
  regions := second.regions.trans first.regions

theorem Kept.weaken {named other : Nat → Nat → Prop} (kept : Kept roots named k k')
    (sub : ∀ s v, named s v → other s v) : Kept roots other k k' :=
  { kept with mapping := fun s hs v out => kept.mapping s hs v fun h => out (sub s v h) }

theorem Kernel.Still.kept {named : Nat → Nat → Prop} (still : k.Still k')
    (mapping : ∀ s ∈ roots, ∀ v, k'.mapping s v = k.mapping s v) : Kept roots named k k' :=
  ⟨fun s hs v _ => mapping s hs v,fun f mark => by rw [still.physMemMap,mark],still.availMem,
    still.cr3,still.pml4Table,still.regions⟩

/-- Mapping any page leaves everything else in place. -/
theorem mapPage_kept (source : PageSource good owns alloc) (steady : Steady alloc) {style : MapStyle}
    (ok : style.Ok) (tabs : Tabs good owns roots k) (hr : tab ∈ roots) {phy vir : Nat}
    (h : mapPage style alloc k tab phy vir = some k') :
    Tabs good owns roots k' ∧ Kept roots (fun s v => s = tab ∧ page v = page vir) k k' := by
  obtain ⟨after,_,others⟩ := mapPage_mapping source ok tabs hr h
  obtain ⟨still,marked⟩ := mapPage_still steady h
  refine ⟨after,others,fun f mark => ?_,still.availMem,still.cr3,still.pml4Table,still.regions⟩
  rw [marked]
  simp only [Function.update_apply,mark,ite_self]

/-- Mapping a page that is not held to a frame that is not in use. -/
theorem mapPage_backed (source : PageSource good owns alloc) (steady : Steady alloc)
    {style : MapStyle} (ok : style.Plain (decide (tab ≠ k.pml4Table))) (tabs : Tabs good owns roots k)
    (hr : tab ∈ roots) (inside : ∀ p ∈ held, p.1 ∈ roots) (backed : Backed k held) {off vir : Nat}
    (unused : k.physMemMap off = false) (small : off < 2^27)
    (clear : ∀ p ∈ held, p.1 = tab → page p.2 ≠ page vir)
    (h : mapPage style alloc k tab (off * 2097152) vir = some k') : Backed k' ((tab,vir) :: held) := by
  obtain ⟨_,⟨e,here⟩,_⟩ := mapPage_mapping source ok.toOk tabs hr h
  obtain ⟨_,kept⟩ := mapPage_kept source steady ok.toOk tabs hr h
  have marked := (mapPage_still steady h).2
  rw [Nat.mul_div_cancel off (by decide)] at marked
  have frame : (style.pde (off * 2097152) e).frame = off := by
    rw [(ok.pde _ e).2.1]
    omega
  refine backed.cons kept.pml4Table ?_ ⟨here,ok.attr _ e,(ok.pde _ e).2.2,?_,?_⟩
    (by rw [frame,unused]) kept.marks
  · exact fun p hp => kept.mapping p.1 (inside p hp) p.2 fun named => clear p hp named.1 named.2
  · rw [ok.isuser,kept.pml4Table]
  · rw [marked,frame,Function.update_self]

/-- The loop that maps a run of pages to free frames. -/
theorem allocPages_backed (source : PageSource good owns alloc) (steady : Steady alloc)
    {style : MapStyle} {root : Nat} (ok : style.Plain (decide (tab ≠ root)))
    {page' : Kernel → Nat → Nat → Option Kernel}
    (body : ∀ k phy vir, k.pml4Table = root → page' k phy vir = mapPage style alloc k tab phy vir)
    {addr n pi off : Nat} (at_root : k.pml4Table = root) (few : pi + n ≤ 2^27)
    (tabs : Tabs good owns roots k) (hr : tab ∈ roots)
    (inside : ∀ p ∈ held, p.1 ∈ roots) (backed : Backed k held)
    (clear : ∀ p ∈ held, p.1 = tab → ∀ i, pi ≤ i → i < pi + n →
      page p.2 ≠ page (addr + i * 2097152))
    (h : allocPages page' addr n pi k off = some k') :
    Tabs good owns roots k' ∧ Backed k' (places tab addr pi n ++ held) ∧
      Kept roots (fun s v => s = tab ∧ ∃ i, pi ≤ i ∧ i < pi + n ∧ page v = page (addr + i * 2097152))
        k k' := by
  induction n generalizing k held pi off with
  | zero =>
    cases h
    exact ⟨tabs,backed,⟨fun _ _ _ _ => rfl,fun _ mark => mark,rfl,rfl,rfl,rfl⟩⟩
  | succ n ih =>
    simp only [allocPages,Option.bind_eq_bind,Option.bind_eq_some_iff] at h
    obtain ⟨g,found,m,mapped,rest⟩ := h
    obtain ⟨lower,upper,unused,_⟩ := nextFree_spec found
    rw [body k _ _ at_root] at mapped
    obtain ⟨tabs',kept⟩ := mapPage_kept source steady ok.toOk tabs hr mapped
    have backed' := mapPage_backed source steady (at_root ▸ ok) tabs hr inside backed unused
      (by omega) (fun p hp table => clear p hp table pi (Nat.le_refl pi) (by omega)) mapped
    have apart (p : Nat × Nat) (hp : p ∈ (tab,addr + pi * 2097152) :: held) (table : p.1 = tab)
        (i : Nat) (lower : pi + 1 ≤ i) (upper : i < pi + 1 + n) :
        page p.2 ≠ page (addr + i * 2097152) := by
      rcases List.mem_cons.mp hp with rfl | hp
      · exact page_ne (by omega) (by omega)
      · exact clear p hp table i (by omega) (by omega)
    obtain ⟨tabs'',backed'',kept'⟩ := ih (kept.pml4Table.trans at_root) (by omega) tabs'
      (List.forall_mem_cons.mpr ⟨hr,inside⟩) backed' apart rest
    refine ⟨tabs'',?_,(kept.trans kept').weaken ?_⟩
    · rw [places_succ]
      exact backed''.perm List.perm_middle
    · rintro s v (⟨table,same⟩ | ⟨table,i,lower,upper,same⟩)
      · exact ⟨table,pi,Nat.le_refl pi,by omega,same⟩
      · exact ⟨table,i,by omega,by omega,same⟩

/-- Unmapping a page gives back its frame and no other. -/
theorem freePage_backed (source : PageSource good owns alloc) (tabs : Tabs good owns roots k)
    {vaddr i : Nat} (hr : tab ∈ roots) (inside : ∀ p ∈ held, p.1 ∈ roots)
    (backed : Backed k ((tab,vaddr + i * 2097152) :: held))
    (low : ∀ f, k.translate tab (vaddr + i * 2097152) = some f → f < 2^22) :
    Tabs good owns roots (freePage tab vaddr k i) ∧ Backed (freePage tab vaddr k i) held ∧
      ∀ s ∈ roots, ∀ v, ¬(s = tab ∧ page v = page (vaddr + i * 2097152)) →
        (freePage tab vaddr k i).mapping s v = k.mapping s v := by
  obtain ⟨e,holds⟩ := backed.holds _ (List.mem_cons_self ..)
  have mapped : k.mapping tab (vaddr + i * 2097152) = some e := holds.mapping
  obtain ⟨pd,reach,entry⟩ : ∃ pd, Forest.walk Entry.child k.tables tab
      [pml4i (vaddr + i * 2097152),pdptei (vaddr + i * 2097152)] = some pd ∧
      k.tables pd (pdei (vaddr + i * 2097152)) = e := by
    rw [Kernel.mapping,Forest.read] at mapped
    obtain ⟨there,_⟩ := Option.filter_eq_some_iff.mp mapped
    obtain ⟨pd,reach,entry⟩ := Option.map_eq_some_iff.mp there
    exact ⟨pd,reach,entry⟩
  obtain ⟨after,others,_⟩ := freePage_mapping source tabs hr reach
  refine ⟨after,?_,others⟩
  have same (p : Nat × Nat) (hp : p ∈ held) :
      (freePage tab vaddr k i).mapping p.1 p.2 = k.mapping p.1 p.2 :=
    others p.1 (inside p hp) p.2 fun named => backed.page_ne hp named.1 named.2
  have rest := backed.sublist (List.sublist_cons_self ..)
  refine rest.congr rfl same fun p hp e' other mark => ?_
  have target : k.translate tab (vaddr + i * 2097152) = some e.frame := by
    rw [Kernel.translate,mapped]; rfl
  have bound := low _ target
  have found := tabs.pdeiTable source hr reach
  have paddr : (k.tables pd (pdei (vaddr + i * 2097152))).getPaddr % 2^48 / 2097152 = e.frame := by
    rw [entry,Entry.getPaddr_frame holds.attr holds.rsvd8 bound]
    omega
  have different : e'.frame ≠ e.frame := by
    intro shared
    apply (List.pairwise_cons.mp backed.distinct).1 p hp
    rw [target,Kernel.translate,other,Option.map_some,shared]
  simp only [freePage,found,paddr]
  rw [Function.update_of_ne different,mark]

end Source

end Siegfried
