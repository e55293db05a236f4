import Siegfried.CurrentTab
import Siegfried.Frames
import Siegfried.TaskRun

/-! The `pde` of an address in a page table, present or not: what mapping, unmapping and
copying leave of it. -/
namespace Siegfried

/-- The entry at the end of the tables above an address. -/
def Kernel.slot (k : Kernel) (tab vir : Nat) : Option Entry :=
  Forest.read Entry.child k.tables tab [pml4i vir,pdptei vir] (pdei vir)

theorem Kernel.slot_page {k : Kernel} {tab v w : Nat} (same : page v = page w) :
    k.slot tab v = k.slot tab w := by
  obtain ⟨top,middle,bottom⟩ := page_eq_iff.mp same
  rw [Kernel.slot,Kernel.slot,top,middle,bottom]

section Slot
variable {good : Heap → Prop} {owns : Heap → Nat → Prop} {alloc : Kernel → Option (Kernel × Nat)}
  {roots : List Nat} {k k' : Kernel} {r s p : Nat} {q : List (Fin 512)} {i : Fin 512}

/-- Memory outside the tables in use does not matter. -/
theorem Tabs.slot_agree (tabs : Tabs good owns roots k)
    (agree : ∀ q, owns k.pageHeap q → k'.tables q = k.tables q) (hs : s ∈ roots) (v : Nat) :
    k'.slot s v = k.slot s v := by
  have walks := tabs.valid.walk_agree agree hs (q := [pml4i v,pdptei v]) (by simp)
  rw [Kernel.slot,Kernel.slot,Forest.read,Forest.read,walks]
  cases reached : Forest.walk Entry.child k.tables s [pml4i v,pdptei v] with
  | none => rfl
  | some x => simp only [Option.map_some,agree x (tabs.valid.inside hs (by simp) reached)]

/-- Opening a table loses no entry below. -/
theorem openTable_slot (source : PageSource good owns alloc) (tabs : Tabs good owns roots k)
    (hr : r ∈ roots) (reach : Forest.walk Entry.child k.tables r q = some p) (inner : q.length < 2)
    {missing : Entry → Bool} {fresh flags : Entry → Entry}
    (absent : ∀ e : Entry, e.present = false → missing e = true)
    (there : ∀ e : Entry, e.present = true → 0 < e.getPaddr → missing e = false)
    (fresh_next : ∀ e, (fresh e).next = e.next)
    (flags_child : ∀ e, (flags e).child = some e.next)
    (h : openTable alloc missing fresh flags k p i = some k') (hs : s ∈ roots) {v : Nat} {e : Entry}
    (slot : k.slot s v = some e) : k'.slot s v = some e := by
  cases present : (k.tables p i).present with
  | true =>
    have names : (k.tables p i).child = some (k.tables p i).next := by simp [Entry.child,present]
    obtain ⟨_,start,paddr,_⟩ := tabs.getPaddr source hr reach inner names
    have found := there _ present (by omega)
    simp only [openTable,found] at h
    cases h
    have same : (flags (k.tables p i)).child = (k.tables p i).child := (flags_child _).trans names.symm
    exact (tabs.valid.read_put_child hr inner reach same hs rfl (pdei v)).trans slot
  | false =>
    simp only [openTable,absent _ present,if_true,Option.bind_eq_bind,Option.bind_eq_some_iff,
      Option.some.injEq,exists_eq_left'] at h
    obtain ⟨⟨k1,c⟩,h,rfl⟩ := h
    have served := source.served tabs.good h
    obtain ⟨_,aligned,bound,_⟩ := source.usable served.good ((served.owned c).mpr (.inr rfl))
    have names : (flags (fresh ((k1.tables p i).setPaddr c))).child = some c := by
      rw [flags_child,fresh_next,Entry.next_setPaddr _ aligned bound]
    have walks : Forest.walk Entry.child k1.tables r q = some p := by
      rw [tabs.valid.walk_agree served.kept hr (by omega),reach]
    have unnamed : (k1.tables p i).child = none := by
      rw [served.kept p (tabs.valid.inside hr (by omega) reach)]
      exact Entry.child_none.mpr present
    have empty (j : Fin 512) : (k1.tables c j).child = none := by
      rw [served.zeroed j]
      rfl
    have kept : k1.slot s v = some e := (tabs.slot_agree served.kept hs v).trans slot
    have hung := (tabs.valid.agree served.kept).read_install hr walks inner unnamed names served.fresh
      empty hs (a := [pml4i v,pdptei v]) rfl (pdei v)
    have other : ¬(s = r ∧ [pml4i v,pdptei v] = q ++ [i]) := by
      rintro ⟨rfl,path⟩
      rw [Kernel.slot,Forest.read,path,Forest.walk_snoc,walks,Option.bind_some,unnamed] at kept
      cases kept
    rw [if_neg other] at hung
    have written : ((k1.setEntry p i (fresh ((k1.tables p i).setPaddr c))).setEntry p i
        (flags ((k1.setEntry p i (fresh ((k1.tables p i).setPaddr c))).tables p i))).tables =
        Forest.put k1.tables p i (flags (fresh ((k1.tables p i).setPaddr c))) := by
      simp [Kernel.setEntry]
    rw [Kernel.slot,written,hung]
    exact kept

/-- Writing an entry at the bottom of the tree of `r`. -/
theorem Tabs.slot_leaf (tabs : Tabs good owns roots k) (hr : r ∈ roots) {vir : Nat}
    (reach : Forest.walk Entry.child k.tables r [pml4i vir,pdptei vir] = some p) (e : Entry) :
    (k.setEntry p (pdei vir) e).slot r vir = some e ∧
      ∀ s ∈ roots, ∀ v, ¬(s = r ∧ page v = page vir) →
        (k.setEntry p (pdei vir) e).slot s v = k.slot s v := by
  have elsewhere (x : Nat) (hx : x ≠ p) : (k.setEntry p (pdei vir) e).tables x = k.tables x :=
    Forest.put_page _ _ _ hx
  have walks {s : Nat} (hs : s ∈ roots) (v : Nat) :=
    tabs.valid.walk_leaf hr rfl reach elsewhere hs (a := [pml4i v,pdptei v]) (by simp)
  constructor
  · rw [Kernel.slot,Forest.read,walks hr,reach]
    simp only [Option.map_some,Kernel.setEntry_tables,Forest.put_same]
  · intro s hs v other
    by_cases same : s = r ∧ [pml4i v,pdptei v] = [pml4i vir,pdptei vir]
    · obtain ⟨rfl,path⟩ := same
      have index : ¬pdei v = pdei vir := by
        intro same
        simp only [List.cons.injEq,and_true] at path
        exact other ⟨rfl,page_eq_iff.mpr ⟨path.1,path.2,same⟩⟩
      rw [Kernel.slot,Kernel.slot,Forest.read,Forest.read,walks hs,path,reach]
      simp only [Option.map_some,Kernel.setEntry_tables]
      rw [Forest.put_other _ _ (by simp [index])]
    · exact tabs.valid.read_leaf hr rfl reach elsewhere hs (by simp) same (pdei v)

/-- Mapping a page fills its slot and loses no other. -/
theorem mapPage_slot (source : PageSource good owns alloc) {style : MapStyle} (ok : style.Ok)
    (tabs : Tabs good owns roots k) {tab phy vir : Nat} (hr : tab ∈ roots)
    (h : mapPage style alloc k tab phy vir = some k') :
    (∃ e, k'.slot tab vir = some (style.pde phy e)) ∧
      ∀ s ∈ roots, ∀ v, ¬(s = tab ∧ page v = page vir) → ∀ e, k.slot s v = some e → k'.slot s v = some e := by
  simp only [mapPage,Option.bind_eq_bind,Option.bind_eq_some_iff,Option.some.injEq] at h
  obtain ⟨k1,first,k2,second,rfl⟩ := h
  have top := openTable_opened source tabs hr (Forest.walk_nil tab) (by decide)
    (fun e absent => by simp [absent]) (fun e there _ => by simp [there]) (fun _ => ⟨rfl,rfl⟩)
    ok.pml4e (by simp) first
  have middle := openTable_opened source top.tabs hr top.walk (by simp) ok.absent ok.there ok.fresh
    (fun e => (ok.pdpte e).1) (fun _ e => (ok.pdpte e).2) second
  generalize hpd : (k2.tables (k1.tables tab (pml4i vir)).getPaddr (pdptei vir)).getPaddr = pd
  have reach : Forest.walk Entry.child k2.tables tab [pml4i vir,pdptei vir] = some pd := hpd ▸ middle.walk
  obtain ⟨here,others⟩ := middle.tabs.slot_leaf hr reach (style.pde phy (k2.tables pd (pdei vir)))
  refine ⟨⟨_,here⟩,?_⟩
  intro s hs v other e slot
  have slot1 := openTable_slot source tabs hr (Forest.walk_nil tab) (by decide)
    (fun e absent => by simp [absent]) (fun e there _ => by simp [there]) (fun _ => rfl) ok.pml4e first hs slot
  have slot2 := openTable_slot source top.tabs hr top.walk (by simp) ok.absent ok.there
    (fun e => (ok.fresh e).1) (fun e => (ok.pdpte e).1) second hs slot1
  exact (others s hs v other).trans slot2

/-- What `get_paddr` makes of the slot of an address. -/
def Kernel.paddrAt (k : Kernel) (tab vir : Nat) : Option Nat := (k.slot tab vir).map Entry.getPaddr

/-- Clearing the present bit of a slot leaves its address there. -/
theorem Tabs.paddrAt_absent (tabs : Tabs good owns roots k) (hr : r ∈ roots) {vir : Nat}
    (reach : Forest.walk Entry.child k.tables r [pml4i vir,pdptei vir] = some p) (hs : s ∈ roots) (v : Nat) :
    (k.setEntry p (pdei vir) { k.tables p (pdei vir) with present := false }).paddrAt s v = k.paddrAt s v := by
  obtain ⟨here,others⟩ := tabs.slot_leaf hr reach { k.tables p (pdei vir) with present := false }
  by_cases same : s = r ∧ page v = page vir
  · obtain ⟨rfl,same⟩ := same
    have before : k.slot s vir = some (k.tables p (pdei vir)) := by
      rw [Kernel.slot,Forest.read,reach]
      rfl
    rw [Kernel.paddrAt,Kernel.paddrAt,Kernel.slot_page same,here,Kernel.slot_page same,before]
    rfl
  · rw [Kernel.paddrAt,Kernel.paddrAt,others s hs v same]

/-- Unmapping pages whose tables exist. -/
theorem freePages_paddrAt (source : PageSource good owns alloc) (tabs : Tabs good owns roots k)
    (hr : r ∈ roots) {vaddr pgs : Nat} (there : ∀ i < pgs, k.region r (vaddr + i * 2097152)) :
    Tabs good owns roots ((List.range pgs).foldl (freePage r vaddr) k) ∧
      ∀ s ∈ roots, ∀ v, ((List.range pgs).foldl (freePage r vaddr) k).paddrAt s v = k.paddrAt s v := by
  have last := Fold.foldl_rest (g := freePage r vaddr)
    (fun l m => (∀ i ∈ l, i < pgs) ∧ Tabs good owns roots m ∧
      (∀ s ∈ roots, ∀ v, m.paddrAt s v = k.paddrAt s v) ∧
      ∀ v, Forest.walk Entry.child m.tables r [pml4i v,pdptei v] =
        Forest.walk Entry.child k.tables r [pml4i v,pdptei v]) ?_
    (l := List.range pgs) (s := k)
    ⟨fun i hi => List.mem_range.mp hi,tabs,fun _ _ _ => rfl,fun _ => rfl⟩
  · exact ⟨last.2.1,last.2.2.1⟩
  · rintro i l m ⟨bound,inv,paddr,same⟩
    obtain ⟨pd,reach⟩ := there i (bound i (List.mem_cons_self ..))
    have reach := (same _).trans reach
    obtain ⟨inv',_,same'⟩ := freePage_mapping source inv hr reach
    refine ⟨fun j hj => bound j (List.mem_cons_of_mem _ hj),inv',?_,fun v => (same' v).trans (same v)⟩
    intro s hs v
    have step := inv.paddrAt_absent hr reach hs v
    have found := inv.pdeiTable source hr reach
    rw [← found] at step
    exact step.trans (paddr s hs v)

/-- A copy of the kernel's table leaves the tables in use alone. -/
theorem clone_paddrAt (source : PageSource good owns alloc) (tabs : Tabs good owns roots k) {k1 : Kernel}
    {dest : Nat} (taken : alloc k = some (k1,dest)) (h : pageCloneKrnlTab alloc k1 dest = some k')
    (hs : s ∈ roots) (v : Nat) : k'.paddrAt s v = k.paddrAt s v := by
  have served := source.served tabs.good taken
  have built := clone_built source tabs taken h
  have agree (q : Nat) (hq : owns k.pageHeap q) : k'.tables q = k.tables q := by
    have other : q ≠ dest := fun same => served.fresh (same ▸ hq)
    exact (built.kept q ((served.owned q).mpr (.inl hq)) other).trans (served.kept q hq)
  rw [Kernel.paddrAt,Kernel.paddrAt,tabs.slot_agree agree hs]

/-- Giving a table back leaves the others alone. -/
theorem pageFreeTab_paddrAt {fixed : Nat → Prop} {free : Kernel → Nat → Kernel}
    (source : PageSource good owns alloc) (sink : PageSink good owns fixed free)
    (tabs : Tabs good owns roots k) (hr : r ∈ roots)
    (loose : ∀ p, Forest.Reach Entry.child k.tables 2 r p → ¬fixed p) (hs : s ∈ roots) (other : s ≠ r)
    (v : Nat) : (pageFreeTab free k r).paddrAt s v = k.paddrAt s v := by
  have freed := pageFreeTab_freeing source sink tabs hr loose
  have sub : ∀ t ∈ [s], t ∈ roots ∧ t ≠ r := by simp [hs,other]
  have left := tabs.valid.drop_root hr sub
  have agree (q : Nat) (hq : owns k.pageHeap q ∧ ¬Forest.Reach Entry.child k.tables 2 r q) :
      (pageFreeTab free k r).tables q = k.tables q := by
    refine freed.kept q ((freed.owned q).mpr ⟨hq.1,?_⟩)
    rintro ⟨path,_,short,reach⟩
    exact hq.2 ⟨path,short,reach⟩
  have single : s ∈ [s] := List.mem_singleton.mpr rfl
  have walks := left.walk_agree agree single (q := [pml4i v,pdptei v]) (by simp)
  rw [Kernel.paddrAt,Kernel.paddrAt,Kernel.slot,Kernel.slot,Forest.read,Forest.read,walks]
  cases reached : Forest.walk Entry.child k.tables s [pml4i v,pdptei v] with
  | none => rfl
  | some x => simp only [Option.map_some,agree x (left.inside single (by simp) reached)]

/-- What the lookups read, where there is a slot. -/
theorem lookupPaddr_slot (source : PageSource good owns alloc) (tabs : Tabs good owns roots k)
    (hr : r ∈ roots) {vir unmapped a : Nat} (slot : k.paddrAt r vir = some a) :
    lookupPaddr k r vir unmapped = some (k,(a + vir % 0x200000) % 2^64) := by
  obtain ⟨e,found,rfl⟩ := Option.map_eq_some_iff.mp slot
  obtain ⟨pd,reach,rfl⟩ := Option.map_eq_some_iff.mp found
  rw [show [pml4i vir,pdptei vir] = [pml4i vir] ++ [pdptei vir] from rfl,Forest.walk_snoc] at reach
  obtain ⟨pdpt,first,second⟩ := Option.bind_eq_some_iff.mp reach
  obtain ⟨_,start,top,_⟩ := tabs.getPaddr source hr (Forest.walk_nil r) (by simp)
    (show (k.tables r (pml4i vir)).child = some pdpt by simpa [Forest.walk_cons] using first)
  obtain ⟨_,start',bottom,_⟩ := tabs.getPaddr source hr first (by simp) second
  have table : pdpt ≠ 0 := Nat.ne_of_gt start
  have table' : pd ≠ 0 := Nat.ne_of_gt start'
  simp only [lookupPaddr,top,bottom,if_neg table,if_neg table']

end Slot

end Siegfried
