import Siegfried.FrameAlloc

/-! The memory the page allocator works in itself, the kernel's table and what the page
heap uses, stays mapped, so a run of pages that is not mapped keeps clear of it. -/
namespace Siegfried

/-- The header and the offset stack of a block, and the pages that are out. -/
def Heap.uses (h : Heap) (a : Nat) : Prop :=
  (∃ b ∈ h.regions, b.1 ≤ a ∧ a < b.1 + 32 + 8 * ((b.2 - 4096) / 4096)) ∨
    ∃ p ∈ h.out, p ≤ a ∧ a < p + 4096

/-- The kernel's table maps its own page and what the page heap uses. -/
structure Anchored (root : Nat) (k : Kernel) : Prop where
  table : ∀ a, root ≤ a → a < root + 4096 → (k.mapping root a).isSome = true
  heap : ∀ a, k.pageHeap.uses a → (k.mapping root a).isSome = true

section Pool
variable {root : Nat} {bufs roots : List Nat} {k k' : Kernel} {tab : Nat}

theorem Heap.uses_mono {h h' : Heap} (regions : h'.regions = h.regions) (out : ∀ p ∈ h'.out, p ∈ h.out)
    {a : Nat} (uses : h'.uses a) : h.uses a := by
  rcases uses with ⟨b,hb,inside⟩ | ⟨p,hp,inside⟩
  · exact .inl ⟨b,regions ▸ hb,inside⟩
  · exact .inr ⟨p,out p hp,inside⟩

theorem page_near {p a : Nat} (aligned : p % 4096 = 0) (lower : p ≤ a) (upper : a < p + 4096) :
    page a = page p := by
  simp only [page]
  omega

theorem Anchored.step (anchored : Anchored root k)
    (used : ∀ a, k'.pageHeap.uses a → k.pageHeap.uses a ∨ (k.mapping root a).isSome = true)
    (kept : ∀ a, (k.mapping root a).isSome = true → (k'.mapping root a).isSome = true) :
    Anchored root k' := by
  refine ⟨fun a lower upper => kept a (anchored.table a lower upper),fun a uses => kept a ?_⟩
  rcases used a uses with before | mapped
  · exact anchored.heap a before
  · exact mapped

/-- Only the mapping of the kernel's table and the heap matter. -/
theorem Anchored.congr (anchored : Anchored root k) (regions : k'.pageHeap.regions = k.pageHeap.regions)
    (out : ∀ p ∈ k'.pageHeap.out, p ∈ k.pageHeap.out)
    (same : ∀ v, k'.mapping root v = k.mapping root v) : Anchored root k' :=
  anchored.step (fun _ uses => .inl (Heap.uses_mono regions out uses)) fun a mapped => same a ▸ mapped

/-- Zeroing memory that the heap does not use. -/
theorem HeapAt.clear_unused {h : Heap} (at_root : HeapAt root bufs h) {lo hi : Nat} (some : lo < hi)
    (unused : ∀ a, lo ≤ a → a < hi → ¬h.uses a) : HeapAt root bufs (h.clear lo hi) := by
  have inv := at_root.inv
  refine at_root.congr ⟨inv.bsize,?_,List.pairwise_map.mpr inv.apart,?_⟩ (clear_regions ..) at_root.bufs
  · intro c hc
    obtain ⟨d,hd,rfl⟩ := List.mem_map.mp hc
    have ok := inv.ok d hd
    have inside : d.max ≤ (d.size - 4096) / 4096 := by rw [ok.max]; exact Nat.mod_le _ _
    refine ok.clear (Decidable.byContradiction fun overlap => ?_)
    -- the first byte that both have
    refine unused (max lo d.addr) (Nat.le_max_left ..) (by omega) (.inl ?_)
    exact ⟨(d.addr,d.size),List.mem_map_of_mem hd,Nat.le_max_right ..,by dsimp only; omega⟩
  · intro q hq
    obtain ⟨c,hc,held⟩ := inv.within q hq
    exact ⟨c.clear lo hi,List.mem_map_of_mem hc,held⟩

theorem clear_unused (pool : Pool root bufs roots k) {lo hi : Nat} (some : lo < hi)
    (unused : ∀ a, lo ≤ a → a < hi → ¬k.pageHeap.uses a) (apart : hi ≤ root ∨ root + 4096 ≤ lo) :
    Pool root bufs roots (k.clear lo hi) ∧ Kept roots (fun _ _ => False) k (k.clear lo hi) := by
  have away (q : Nat) (held : holdsPage (· = root) bufs k.pageHeap q) :
      (k.clear lo hi).tables q = k.tables q := by
    have outside : hi ≤ q ∨ q + 4096 ≤ lo := by
      rcases held with rfl | ⟨member,_⟩
      · exact apart
      · refine Decidable.byContradiction fun overlap => ?_
        exact unused (max lo q) (Nat.le_max_left ..) (by omega)
          (.inr ⟨q,member,Nat.le_max_right ..,by omega⟩)
    funext i
    have := i.isLt
    simp only [Kernel.clear]
    rw [if_neg (by omega)]
  refine ⟨pool.agree (pool.good.clear_unused some unused) (fun _ hq => hq) away,?_⟩
  exact ⟨fun s hs v _ => pool.mapping_agree away hs v,fun _ mark => mark,rfl,rfl,rfl,clear_regions ..⟩

/-- What a page that is taken adds is mapped by the table that is current. -/
theorem takePage_uses (at_root : HeapAt root bufs k.pageHeap) {p a : Nat}
    (h : takePage k = some (k',p)) (uses : k'.pageHeap.uses a) :
    k.pageHeap.uses a ∨ (k.mapping k.cr3 a).isSome = true := by
  obtain ⟨after,out⟩ := takePage_heap at_root h
  obtain ⟨_,_,_,_,_,mapped⟩ := takePage_some h
  rcases uses with ⟨b,hb,inside⟩ | ⟨q,hq,lower,upper⟩
  · exact .inl (.inl ⟨b,(takePage_steady h).regions ▸ hb,inside⟩)
  · rw [out] at hq
    rcases List.mem_cons.mp hq with rfl | hq
    · have aligned := (after.page (p := q) (by rw [out]; exact List.mem_cons_self ..)).1
      exact .inr (by rwa [Kernel.mapping_page (page_near aligned lower upper)])
    · exact .inl (.inr ⟨q,hq,lower,upper⟩)

theorem openTable_uses (at_root : HeapAt root bufs k.pageHeap) {missing : Entry → Bool}
    {fresh flags : Entry → Entry} {p a : Nat} {i : Fin 512}
    (h : openTable takePage missing fresh flags k p i = some k') (uses : k'.pageHeap.uses a) :
    k.pageHeap.uses a ∨ (k.mapping k.cr3 a).isSome = true := by
  cases absent : missing (k.tables p i) with
  | false =>
    simp only [openTable,absent] at h
    cases h
    exact .inl uses
  | true =>
    simp only [openTable,absent,if_true,Option.bind_eq_bind,Option.bind_eq_some_iff,
      Option.some.injEq,exists_eq_left'] at h
    obtain ⟨⟨m,c⟩,taken,rfl⟩ := h
    exact takePage_uses at_root taken uses

/-- The mapping functions keep the allocator's memory mapped, under the kernel's table. -/
theorem mapPage_anchored (pool : Pool root bufs roots k) (top : root ∈ roots) (hr : tab ∈ roots)
    (current : k.cr3 = root) {style : MapStyle} (ok : style.Ok) (anchored : Anchored root k)
    {phy vir : Nat} (h : mapPage style takePage k tab phy vir = some k') : Anchored root k' := by
  obtain ⟨_,⟨e,here⟩,others⟩ := mapPage_mapping (takePage_pool ..) ok pool hr h
  simp only [mapPage,Option.bind_eq_bind,Option.bind_eq_some_iff,Option.some.injEq] at h
  obtain ⟨k1,first,k2,second,last⟩ := h
  have upper := openTable_opened (takePage_pool ..) pool hr (Forest.walk_nil tab) (by decide)
    (fun e absent => by simp [absent]) (fun e there _ => by simp [there]) (fun _ => ⟨rfl,rfl⟩)
    ok.pml4e (by simp) first
  refine anchored.step (fun a uses => ?_) fun a mapped => ?_
  · have uses : k2.pageHeap.uses a := by rw [← last] at uses; exact uses
    have still := openTable_still takePage_steady first
    rcases openTable_uses upper.tabs.good second uses with before | mapped
    · have before := openTable_uses pool.good first before
      rwa [current] at before
    · rw [still.cr3,current,upper.mapping root top] at mapped
      exact .inr mapped
  · by_cases named : root = tab ∧ page a = page vir
    · rw [named.1,Kernel.mapping_page named.2,here]
      rfl
    · rwa [others root top a named]

theorem allocPages_anchored (top : root ∈ roots) (hr : tab ∈ roots) {style : MapStyle} (ok : style.Ok)
    {page' : Kernel → Nat → Nat → Option Kernel}
    (body : ∀ k phy vir, k.pml4Table = root → page' k phy vir = mapPage style takePage k tab phy vir)
    {addr n pi off : Nat} (at_root : k.pml4Table = root) (pool : Pool root bufs roots k)
    (anchored : Anchored root k) (h : allocPages page' addr n pi k off = some k') :
    Anchored root k' := by
  induction n generalizing k pi off with
  | zero =>
    cases h
    exact anchored
  | succ n ih =>
    simp only [allocPages,Option.bind_eq_bind,Option.bind_eq_some_iff] at h
    obtain ⟨g,found,m,mapped,rest⟩ := h
    have current := (nextFree_spec found).2.2.2
    rw [body k _ _ at_root] at mapped
    obtain ⟨pool',kept⟩ := mapPage_kept (takePage_pool ..) takePage_steady ok pool hr mapped
    exact ih (kept.pml4Table.trans at_root) pool'
      (mapPage_anchored pool top hr (current.trans at_root) ok anchored mapped) rest

end Pool

section Region
variable {good : Heap → Prop} {owns : Heap → Nat → Prop} {alloc : Kernel → Option (Kernel × Nat)}
  {roots : List Nat} {k k' : Kernel} {r p : Nat} {q : List (Fin 512)} {i : Fin 512}

/-- An entry that names a table only gets its flags. -/
theorem openTable_there (source : PageSource good owns alloc) (tabs : Tabs good owns roots k)
    (hr : r ∈ roots) (reach : Forest.walk Entry.child k.tables r q = some p) (inner : q.length < 2)
    {missing : Entry → Bool} {fresh flags : Entry → Entry}
    (there : ∀ e : Entry, e.present = true → 0 < e.getPaddr → missing e = false)
    (flags_child : ∀ e, (flags e).child = some e.next) {c : Nat}
    (names : (k.tables p i).child = some c)
    (h : openTable alloc missing fresh flags k p i = some k') : k'.pageHeap = k.pageHeap ∧
      ∀ s path, Forest.walk Entry.child k'.tables s path = Forest.walk Entry.child k.tables s path := by
  obtain ⟨present,next⟩ := Entry.child_some.mp names
  obtain ⟨_,start,paddr,_⟩ := tabs.getPaddr source hr reach inner names
  have found := there _ present (by omega)
  simp only [openTable,found] at h
  cases h
  refine ⟨rfl,fun s path => Forest.walk_put_child ?_ s path⟩
  rw [flags_child,next,names]

/-- Under tables that are there, mapping a page takes none from the heap. -/
theorem mapPage_region (source : PageSource good owns alloc) {style : MapStyle} (ok : style.Ok)
    (tabs : Tabs good owns roots k) {tab phy vir : Nat} (hr : tab ∈ roots) (region : k.region tab vir)
    (h : mapPage style alloc k tab phy vir = some k') :
    k'.pageHeap = k.pageHeap ∧ ∀ v, k'.region tab v ↔ k.region tab v := by
  obtain ⟨pd,walked⟩ := region
  simp only [mapPage,Option.bind_eq_bind,Option.bind_eq_some_iff,Option.some.injEq] at h
  obtain ⟨k1,first,k2,second,rfl⟩ := h
  have split : [pml4i vir,pdptei vir] = [pml4i vir] ++ [pdptei vir] := rfl
  have upper := openTable_opened source tabs hr (Forest.walk_nil tab) (by decide)
    (fun e absent => by simp [absent]) (fun e there _ => by simp [there]) (fun _ => ⟨rfl,rfl⟩)
    ok.pml4e (by simp) first
  have middle := openTable_opened source upper.tabs hr upper.walk (by simp) ok.absent ok.there
    ok.fresh (fun e => (ok.pdpte e).1) (fun _ e => (ok.pdpte e).2) second
  have names : ∃ c, (k.tables tab (pml4i vir)).child = some c := by
    rw [Forest.walk_cons] at walked
    obtain ⟨c,hc,_⟩ := Option.bind_eq_some_iff.mp walked
    exact ⟨c,hc⟩
  obtain ⟨c,names⟩ := names
  obtain ⟨heap,same⟩ := openTable_there source tabs hr (Forest.walk_nil tab) (by decide)
    (fun e there _ => by simp [there]) ok.pml4e names first
  have below : (k1.tables (k1.tables tab (pml4i vir)).getPaddr (pdptei vir)).child = some pd := by
    have top := upper.walk
    rw [List.nil_append] at top
    rw [← same tab,split,Forest.walk_snoc,top] at walked
    exact walked
  obtain ⟨heap',same'⟩ := openTable_there source upper.tabs hr upper.walk (by simp) ok.there
    (fun e => (ok.pdpte e).1) below second
  refine ⟨heap'.trans heap,fun v => ?_⟩
  have leaf (e : Entry) := middle.tabs.valid.walk_leaf hr rfl middle.walk
    (fun x hx => Forest.put_page k2.tables (pdei vir) e hx) hr (a := [pml4i v,pdptei v]) (by simp)
  refine iff_of_eq (congrArg (fun walk => ∃ pd, walk = some pd) ?_)
  exact (leaf _).trans ((same' tab _).trans (same tab _))

theorem allocPages_region (source : PageSource good owns alloc) {style : MapStyle} (ok : style.Ok)
    {tab root : Nat} (steady : Steady alloc) {page' : Kernel → Nat → Nat → Option Kernel}
    (body : ∀ k phy vir, k.pml4Table = root → page' k phy vir = mapPage style alloc k tab phy vir)
    {addr n pi off : Nat} (at_root : k.pml4Table = root) (tabs : Tabs good owns roots k)
    (hr : tab ∈ roots) (region : ∀ i, pi ≤ i → i < pi + n → k.region tab (addr + i * 2097152))
    (h : allocPages page' addr n pi k off = some k') : k'.pageHeap = k.pageHeap := by
  induction n generalizing k pi off with
  | zero =>
    cases h
    rfl
  | succ n ih =>
    simp only [allocPages,Option.bind_eq_bind,Option.bind_eq_some_iff] at h
    obtain ⟨g,_,m,mapped,rest⟩ := h
    rw [body k _ _ at_root] at mapped
    obtain ⟨tabs',kept⟩ := mapPage_kept source steady ok tabs hr mapped
    obtain ⟨heap,same⟩ := mapPage_region source ok tabs hr (region pi (Nat.le_refl pi) (by omega)) mapped
    refine (ih (kept.pml4Table.trans at_root) tabs' (fun i lower upper => ?_) rest).trans heap
    exact (same _).mpr (region i (by omega) (by omega))

end Region

section Pool
variable {root : Nat} {bufs roots : List Nat} {k k' : Kernel} {held : List (Nat × Nat)} {tab : Nat}

/-- What must hold of the run that `page_virt_find_addr` names for it to be a run of free
pages: the kernel's table does not map it, and where it meets a block of the page heap,
which can lie unmapped, the tables above it are there. -/
structure Kernel.Free (k : Kernel) (pgs : Nat) : Prop where
  found : pageVirtFindAddr k pgs ≠ 0xDEAD
  unmapped : ∀ i < pgs, k.mapping k.pml4Table (pageVirtFindAddr k pgs + i * 2097152) = none
  apart : k.pageHeap.Avoids (pageVirtFindAddr k pgs) (pageVirtFindAddr k pgs + pgs * 2097152) ∨
    ∀ i < pgs, k.region k.pml4Table (pageVirtFindAddr k pgs + i * 2097152)

/-- An address in a run of pages from a page boundary on. -/
theorem page_run {addr pgs a : Nat} (aligned : addr % 2097152 = 0) (lower : addr ≤ a)
    (upper : a < addr + pgs * 2097152) : ∃ i < pgs, page a = page (addr + i * 2097152) := by
  refine ⟨(a - addr) / 2097152,by omega,?_⟩
  simp only [page]
  omega

/-- What the kernel's table maps is not in the run. -/
theorem Kernel.Free.outside {pgs : Nat} (free : k.Free pgs) (at_root : k.pml4Table = root) {a : Nat}
    (mapped : (k.mapping root a).isSome = true) (lower : pageVirtFindAddr k pgs ≤ a) :
    pageVirtFindAddr k pgs + pgs * 2097152 ≤ a := by
  by_contra upper
  obtain ⟨i,hi,same⟩ := page_run (pageVirtFindAddr_aligned free.found) lower (Nat.lt_of_not_le upper)
  rw [Kernel.mapping_page same,← at_root,free.unmapped i hi] at mapped
  cases mapped

theorem Kernel.Free.apart_table {pgs : Nat} (free : k.Free pgs) (at_root : k.pml4Table = root)
    (anchored : Anchored root k) (some : 0 < pgs) :
    pageVirtFindAddr k pgs + pgs * 2097152 ≤ root ∨ root + 4096 ≤ pageVirtFindAddr k pgs := by
  by_contra overlap
  have := free.outside at_root (anchored.table (max (pageVirtFindAddr k pgs) root)
    (Nat.le_max_right ..) (by omega)) (Nat.le_max_left ..)
  omega

/-- The heap's blocks hold all it uses. -/
theorem HeapAt.uses_region {h : Heap} (at_root : HeapAt root bufs h) {a : Nat} (uses : h.uses a) :
    ∃ b ∈ h.regions, b.1 ≤ a ∧ a < b.1 + b.2 := by
  rcases uses with ⟨b,hb,lower,upper⟩ | ⟨p,hp,lower,upper⟩
  · obtain ⟨c,hc,rfl⟩ := List.mem_map.mp hb
    have pages := (at_root.inv.ok c hc).pages
    exact ⟨_,hb,lower,by dsimp only at upper ⊢; omega⟩
  · obtain ⟨c,hc,_,_,start,_,finish⟩ := at_root.inv.page hp
    exact ⟨(c.addr,c.size),List.mem_map_of_mem hc,by dsimp only; omega,by dsimp only; omega⟩

/-- Zeroing the run once it is mapped: what the allocator works in was mapped before, so it is
not in the run. -/
theorem Kernel.Free.clear {pgs off : Nat} {m : Kernel} (free : k.Free pgs) (any : 0 < pgs)
    (pool : Pool root bufs roots k) (at_root : k.pml4Table = root) (hr : root ∈ roots)
    (anchored : Anchored root k)
    (body : ∀ k phy vir, k.pml4Table = root →
      pageAlloc takePage k phy vir = mapPage krnlStyle takePage k root phy vir)
    (mapped : allocPages (pageAlloc takePage) (pageVirtFindAddr k pgs) pgs 0 k off = some m)
    (pool' : Pool root bufs roots m) (regions : m.pageHeap.regions = k.pageHeap.regions) :
    Pool root bufs roots (m.clear (pageVirtFindAddr k pgs) (pageVirtFindAddr k pgs + 0x200000 * pgs)) ∧
      Kept roots (fun _ _ => False) m
        (m.clear (pageVirtFindAddr k pgs) (pageVirtFindAddr k pgs + 0x200000 * pgs)) := by
  have unused (a : Nat) (lower : pageVirtFindAddr k pgs ≤ a)
      (upper : a < pageVirtFindAddr k pgs + 0x200000 * pgs) : ¬m.pageHeap.uses a := by
    intro uses
    rcases free.apart with avoids | region
    · obtain ⟨b,hb,start,finish⟩ := pool'.good.uses_region uses
      rw [regions] at hb
      have := avoids b hb
      omega
    · rw [allocPages_region (takePage_pool ..) krnlStyle_ok takePage_steady body at_root pool hr
        (fun i _ hi => at_root ▸ region i (by omega)) mapped] at uses
      have := free.outside at_root (anchored.heap a uses) lower
      omega
  have apart := free.apart_table at_root anchored any
  rw [Nat.mul_comm] at apart
  exact clear_unused pool' (by omega) unused apart

theorem pageFindAndAlloc_free (pool : Pool root bufs roots k) (at_root : k.pml4Table = root)
    (hr : root ∈ roots) (inside : ∀ p ∈ held, p.1 ∈ roots) (backed : Backed k held)
    (anchored : Anchored root k) {pgs addr : Nat} (free : k.Free pgs)
    (h : pageFindAndAlloc takePage k pgs = some (k',addr)) :
    addr = pageVirtFindAddr k pgs ∧ k.cr3 = root ∧ Pool root bufs roots k' ∧
      Backed k' (places root addr 0 pgs ++ held) ∧ Kept roots (Covered root addr pgs) k k' ∧
      Anchored root k' := by
  simp only [pageFindAndAlloc,Option.bind_eq_bind,Option.bind_eq_some_iff] at h
  obtain ⟨i,found,m,mapped,h⟩ := h
  split at h
  · cases h
  next shape =>
  cases h
  obtain ⟨_,bound,_,current⟩ := nextFree_spec found
  obtain ⟨some,_⟩ : 0 < pgs ∧ _ := by simpa [Nat.pos_iff_ne_zero] using shape
  rw [at_root] at current
  have style : krnlStyle.Plain (decide (root ≠ root)) := by simpa using krnlStyle_plain
  have body (k : Kernel) (phy vir : Nat) (same : k.pml4Table = root) :
      pageAlloc takePage k phy vir = mapPage krnlStyle takePage k root phy vir := by
    rw [pageAlloc,same]
  have clear (p : Nat × Nat) (hp : p ∈ held) (table : p.1 = root) (i : Nat) (_ : 0 ≤ i)
      (hi : i < 0 + pgs) : page p.2 ≠ page (pageVirtFindAddr k pgs + i * 2097152) := by
    intro same
    obtain ⟨e,holds⟩ := backed.holds p hp
    have mapping := holds.mapping
    rw [Kernel.mapping_page same,table,← at_root,free.unmapped i (by omega)] at mapping
    cases mapping
  obtain ⟨pool',backed',kept⟩ := allocPages_backed (takePage_pool ..) takePage_steady style body
    at_root (by omega) pool hr inside backed clear mapped
  have anchored' := allocPages_anchored hr hr style.toOk body at_root pool anchored mapped
  obtain ⟨pool'',still⟩ := free.clear some pool at_root hr anchored body mapped pool' kept.regions
  refine ⟨rfl,current,pool'',?_,(kept.trans still).weaken ?_,?_⟩
  · refine backed'.kept (fun p hp => ?_) still fun _ _ h => h
    rcases List.mem_append.mp hp with hp | hp
    · obtain ⟨_,_,_,rfl⟩ := mem_places.mp hp
      exact hr
    · exact inside p hp
  · rintro s v (⟨table,i,_,hi,same⟩ | none)
    · exact ⟨table,i,by omega,same⟩
    · exact none.elim
  · exact anchored'.congr (clear_regions ..) (fun _ hp => hp) fun v =>
      still.mapping root hr v fun h => h

theorem takePage_anchored (pool : Pool root bufs roots k) (top : root ∈ roots) {p : Nat}
    (here : ∀ a, p ≤ a → a < p + 4096 → (k.mapping root a).isSome = true)
    (anchored : Anchored root k) (h : takePage k = some (k',p)) : Anchored root k' := by
  have served := (takePage_pool root bufs).served pool.good h
  refine anchored.step (fun a uses => ?_) fun a mapped => ?_
  · rcases uses with ⟨b,hb,inside⟩ | ⟨q,hq,lower,upper⟩
    · exact .inl (.inl ⟨b,(takePage_steady h).regions ▸ hb,inside⟩)
    · rw [(takePage_heap pool.good h).2] at hq
      rcases List.mem_cons.mp hq with rfl | hq
      · exact .inr (here a lower upper)
      · exact .inl (.inr ⟨q,hq,lower,upper⟩)
  · rwa [pool.mapping_agree served.kept top]

/-- Work on pages that no table of `k` uses, with pages of the heap taken for it. -/
structure Copying (root : Nat) (bufs : List Nat) (k m : Kernel) : Prop where
  good : HeapAt root bufs m.pageHeap
  out : ∀ q ∈ k.pageHeap.out, q ∈ m.pageHeap.out
  kept : ∀ q, holdsPage (· = root) bufs k.pageHeap q → m.tables q = k.tables q
  uses : ∀ a, m.pageHeap.uses a → k.pageHeap.uses a ∨ (k.mapping root a).isSome = true
  still : k.Still m

section Copying
variable {m m' : Kernel}

theorem Copying.write (copying : Copying root bufs k m) {p : Nat}
    (fresh : ¬holdsPage (· = root) bufs k.pageHeap p) {tables : Forest.Store Nat (Fin 512) Entry}
    (same : ∀ q, q ≠ p → tables q = m.tables q) :
    Copying root bufs k { m with tables := tables } := by
  obtain ⟨good,out,kept,uses,still⟩ := copying
  refine ⟨good,out,fun q hq => ?_,uses,still.trans ⟨rfl,rfl,rfl,rfl,rfl,rfl⟩⟩
  have other : q ≠ p := fun h => fresh (h ▸ hq)
  exact (same q other).trans (kept q hq)

theorem Copying.put (copying : Copying root bufs k m) {p : Nat}
    (fresh : ¬holdsPage (· = root) bufs k.pageHeap p) (i : Fin 512) (e : Entry) :
    Copying root bufs k (m.setEntry p i e) :=
  copying.write fresh fun _ other => Forest.put_page _ _ _ other

theorem Copying.take (copying : Copying root bufs k m) (pool : Pool root bufs roots k)
    (top : root ∈ roots) (current : k.cr3 = root) {c : Nat} (h : takePage m = some (m',c)) :
    Copying root bufs k m' ∧ ¬holdsPage (· = root) bufs k.pageHeap c := by
  have served := (takePage_pool root bufs).served copying.good h
  have owned (q : Nat) (hq : holdsPage (· = root) bufs k.pageHeap q) :
      holdsPage (· = root) bufs m.pageHeap q := by
    rcases hq with is_root | ⟨member,loose⟩
    · exact .inl is_root
    · exact .inr ⟨copying.out q member,loose⟩
  have more := (takePage_heap copying.good h).2
  refine ⟨⟨served.good,fun q hq => ?_,fun q hq => ?_,fun a uses => ?_,?_⟩,fun hc => ?_⟩
  · exact more ▸ List.mem_cons_of_mem _ (copying.out q hq)
  · exact (served.kept q (owned q hq)).trans (copying.kept q hq)
  · rcases takePage_uses copying.good h uses with before | mapped
    · exact copying.uses a before
    · rw [copying.still.cr3,current,pool.mapping_agree copying.kept top] at mapped
      exact .inr mapped
  · exact copying.still.trans (takePage_steady h)
  · exact served.fresh (owned c hc)

theorem clonePdpte_copying (pool : Pool root bufs roots k) (top : root ∈ roots)
    (current : k.cr3 = root) (copying : Copying root bufs k m) {dest src : Nat} {i : Fin 512}
    (fresh : ¬holdsPage (· = root) bufs k.pageHeap dest)
    (h : clonePdpte takePage dest src m i = some m') : Copying root bufs k m' := by
  simp only [clonePdpte] at h
  split at h
  · simp only [Option.bind_eq_bind,Option.bind_eq_some_iff,Option.some.injEq] at h
    obtain ⟨⟨n,c⟩,taken,rfl⟩ := h
    obtain ⟨copying',other⟩ := (copying.put fresh i _).take pool top current taken
    exact (copying'.put fresh i _).write other fun _ hq => Forest.fill_other _ _ hq
  · cases h
    exact copying.put fresh i _

theorem clonePml4e_copying (pool : Pool root bufs roots k) (top : root ∈ roots)
    (current : k.cr3 = root) (copying : Copying root bufs k m) {dest src : Nat} {i : Fin 512}
    (fresh : ¬holdsPage (· = root) bufs k.pageHeap dest)
    (h : clonePml4e takePage dest src m i = some m') : Copying root bufs k m' := by
  simp only [clonePml4e] at h
  split at h
  · simp only [Option.bind_eq_bind,Option.bind_eq_some_iff] at h
    obtain ⟨⟨n,c⟩,taken,loop⟩ := h
    obtain ⟨copying',other⟩ := (copying.put fresh i _).take pool top current taken
    exact Fold.foldlM_rest (fun _ m => Copying root bufs k m)
      (fun _ _ _ _ inv step => clonePdpte_copying pool top current inv other step)
      (copying'.put fresh i _) loop
  · cases h
    exact copying.put fresh i _

/-- `page_clone_krnl_tab` takes pages that the kernel's table maps, and changes no page
table there was. -/
theorem pageCloneKrnlTab_copying (pool : Pool root bufs roots k) (top : root ∈ roots)
    (current : k.cr3 = root) (at_root : k.pml4Table = root) (copying : Copying root bufs k m)
    {dest : Nat} (fresh : ¬holdsPage (· = root) bufs k.pageHeap dest)
    (h : pageCloneKrnlTab takePage m dest = some m') : Copying root bufs k m' := by
  simp only [pageCloneKrnlTab,pageClonePageTab,Option.bind_eq_bind,Option.bind_eq_some_iff,
    Option.some.injEq] at h
  obtain ⟨n,loop,rfl⟩ := h
  have cr3 : m.cr3 = m.pml4Table := by
    rw [copying.still.cr3,copying.still.pml4Table,current,at_root]
  have start : { m with cr3 := m.pml4Table } = m := congrArg (fun c => { m with cr3 := c }) cr3.symm
  rw [start] at loop
  have last := Fold.foldlM_rest (fun _ m => Copying root bufs k m)
    (fun _ _ _ _ inv step => clonePml4e_copying pool top current inv fresh step) copying loop
  have same : { n with cr3 := m.cr3 } = n :=
    congrArg (fun c => { n with cr3 := c }) (copying.still.cr3.trans last.still.cr3.symm)
  rwa [same]

theorem Copying.anchored (copying : Copying root bufs k m) (pool : Pool root bufs roots k)
    (top : root ∈ roots) (anchored : Anchored root k) : Anchored root m :=
  anchored.step copying.uses fun a mapped => by rwa [pool.mapping_agree copying.kept top]

end Copying

/-- The loop of `page_free_found` writes one table. -/
theorem freePages_same (tab vaddr : Nat) (l : List Nat) :
    (l.foldl (freePage tab vaddr) k).pageHeap = k.pageHeap ∧
      (l.foldl (freePage tab vaddr) k).pml4Table = k.pml4Table ∧
      (l.foldl (freePage tab vaddr) k).availMem = k.availMem :=
  Fold.foldl_rest (fun _ m => m.pageHeap = k.pageHeap ∧ m.pml4Table = k.pml4Table ∧
    m.availMem = k.availMem) (g := freePage tab vaddr) (fun _ _ _ inv => inv) (s := k) ⟨rfl,rfl,rfl⟩

/-- What giving pages back leaves of the heap. -/
structure Fewer (k m : Kernel) : Prop where
  still : k.Still m
  out : ∀ p ∈ m.pageHeap.out, p ∈ k.pageHeap.out

theorem Fewer.refl (k : Kernel) : Fewer k k := ⟨.refl k,fun _ hp => hp⟩

theorem kPageobjFree_fewer (small : ∀ b ∈ k.pageHeap.regions, b.2 ≠ 0x2000000) (p : Nat) :
    Fewer k (kPageobjFree k p) := by
  rw [kPageobjFree_plain small]
  refine ⟨⟨rfl,rfl,rfl,rfl,rfl,free_regions small p⟩,fun q hq => ?_⟩
  dsimp only [Heap.free] at hq
  split at hq
  · exact List.mem_of_mem_erase hq
  · exact hq

theorem Fewer.give {m : Kernel} (fewer : Fewer k m)
    (small : ∀ b ∈ k.pageHeap.regions, b.2 ≠ 0x2000000) (p : Nat) :
    Fewer k (kPageobjFree m p) := by
  have next := kPageobjFree_fewer (k := m) (fewer.still.regions ▸ small) p
  exact ⟨fewer.still.trans next.still,fun q hq => fewer.out q (next.out q hq)⟩

theorem pageFreeTab_fewer (small : ∀ b ∈ k.pageHeap.regions, b.2 ≠ 0x2000000) (tab : Nat) :
    Fewer k (pageFreeTab kPageobjFree k tab) := by
  have inner (p : Nat) (i : Fin 512) (m : Kernel) (fewer : Fewer k m) :
      Fewer k (freePdpte kPageobjFree p m i) := by
    simp only [freePdpte]
    split
    · exact fewer.give small _
    · exact fewer
  have outer (i : Fin 512) (m : Kernel) (fewer : Fewer k m) :
      Fewer k (freePml4e kPageobjFree tab m i) := by
    simp only [freePml4e]
    split
    · have last := Fold.foldl_rest (fun _ m => Fewer k m) (g := freePdpte kPageobjFree
        (m.tables tab i).getPaddr) (fun i _ m inv => inner _ i m inv) (l := List.finRange 512) fewer
      exact last.give small _
    · exact fewer
  have last := Fold.foldl_rest (fun _ m => Fewer k m) (g := freePml4e kPageobjFree tab)
    (fun i _ m inv => outer i m inv) (l := List.finRange 512) (.refl k)
  rw [pageFreeTab]
  exact last.give small tab

end Pool

end Siegfried
