import Siegfried.Kernel

/-! Mapping one 2 MB page: `page_alloc`, `page_alloc_tab`, `page_alloc_dev` and
`page_alloc_mmio`, over any source of table pages. -/
namespace Siegfried

/-- How the four mapping functions differ: when they take the entry of a
`pdpte` to name no table, the flags they set on each level, and the entry they write. -/
structure MapStyle where
  missing : Entry → Bool
  pml4e : Entry → Entry
  fresh : Entry → Entry
  pdpte : Entry → Entry
  pde : Nat → Entry → Entry

/-- Make an entry name a table, taking a page for it where it names none. -/
def openTable (alloc : Kernel → Option (Kernel × Nat)) (missing : Entry → Bool)
    (fresh flags : Entry → Entry) (k : Kernel) (p : Nat) (i : Fin 512) : Option Kernel := do
  let k ← if missing (k.tables p i) then do
      let (k,paddr) ← alloc k
      some (k.setEntry p i (fresh ((k.tables p i).setPaddr paddr)))
    else some k
  some (k.setEntry p i (flags (k.tables p i)))

def mapPage (style : MapStyle) (alloc : Kernel → Option (Kernel × Nat)) (k : Kernel)
    (tab phy vir : Nat) : Option Kernel := do
  let k ← openTable alloc (fun e => !e.present) id style.pml4e k tab (pml4i vir)
  let pdptTable := (k.tables tab (pml4i vir)).getPaddr
  let k ← openTable alloc style.missing style.fresh style.pdpte k pdptTable (pdptei vir)
  let pdeiTable := (k.tables pdptTable (pdptei vir)).getPaddr
  let k := k.setEntry pdeiTable (pdei vir) (style.pde phy (k.tables pdeiTable (pdei vir)))
  some { k with physMemMap := Function.update k.physMemMap (phy / 2097152) true }

def krnlStyle : MapStyle where
  missing e := decide (e.getPaddr = 0) || !e.present
  pml4e e := { e with present := true, rw := true, isuser := true, dirty := true }
  fresh e := { e with isuser := false }
  pdpte e := { e with present := true, rw := true, dirty := true }
  pde phy e := { e.setPaddrPde phy with
    present := true, rw := true, ps := true, attr := 0, isuser := false, isKrnlPg := true }

def userStyle : MapStyle where
  missing e := decide (e.getPaddr = 0) || !e.present
  pml4e e := { e with present := true, rw := true, isuser := true, noexec := false }
  fresh e := e
  pdpte e := { e with
    present := true, rw := true, isuser := true, dirty := false, noexec := false }
  pde phy e := { e.setPaddrPde phy with
    present := true, rw := true, ps := true, attr := 0, isuser := true, isKrnlPg := false
    noexec := false }

def devStyle : MapStyle where
  missing e := !e.present
  pml4e e := { e with
    present := true, rw := true, writeThrough := false, ps := false, rsvd4 := 0 }
  fresh e := e
  pdpte e := { e with present := true, rw := true, writeThrough := false, rsvd4 := 0 }
  pde phy e := { e.setPaddr phy with
    present := true, rw := true, ps := true, rsvd8 := 0, rsvd4 := 0, attr := 1, nocache := true }

def mmioStyle : MapStyle where
  missing e := !e.present
  pml4e e := { e with present := true, rw := true, ps := false, rsvd4 := 0 }
  fresh e := e
  pdpte e := { e with present := true, rw := true, rsvd4 := 0 }
  pde phy e := { e.setPaddr phy with
    present := true, rw := true, ps := true, rsvd8 := 0, rsvd4 := 0, attr := 0, nocache := true }

section Functions
variable (alloc : Kernel → Option (Kernel × Nat)) (k : Kernel)

def pageAlloc (phy vir : Nat) : Option Kernel := mapPage krnlStyle alloc k k.pml4Table phy vir
def pageAllocTab (tab phy vir : Nat) : Option Kernel := mapPage userStyle alloc k tab phy vir
def pageAllocDev (phy vir : Nat) : Option Kernel := mapPage devStyle alloc k k.pml4Table phy vir
def pageAllocMmio (phy vir : Nat) : Option Kernel := mapPage mmioStyle alloc k k.pml4Table phy vir

end Functions

/-- What the four styles have in common. -/
structure MapStyle.Ok (style : MapStyle) : Prop where
  absent : ∀ e : Entry, e.present = false → style.missing e = true
  there : ∀ e : Entry, e.present = true → 0 < e.getPaddr → style.missing e = false
  pml4e : ∀ e, (style.pml4e e).child = some e.next
  fresh : ∀ e, (style.fresh e).next = e.next ∧ (style.fresh e).ps = e.ps
  pdpte : ∀ e, (style.pdpte e).child = some e.next ∧ (style.pdpte e).ps = e.ps
  pde : ∀ phy e, (style.pde phy e).present = true ∧
    (style.pde phy e).frame = phy / 2^21 % 2^27 ∧ (style.pde phy e).rsvd8 = 0

theorem krnlStyle_ok : krnlStyle.Ok where
  absent e h := by simp [krnlStyle,h]
  there e h start := by simp [krnlStyle,h,Nat.ne_of_gt start]
  pml4e e := rfl
  fresh e := ⟨rfl,rfl⟩
  pdpte e := ⟨rfl,rfl⟩
  pde phy e := ⟨rfl,Entry.frame_setPaddrPde e phy,rfl⟩

theorem userStyle_ok : userStyle.Ok where
  absent e h := by simp [userStyle,h]
  there e h start := by simp [userStyle,h,Nat.ne_of_gt start]
  pml4e e := rfl
  fresh e := ⟨rfl,rfl⟩
  pdpte e := ⟨rfl,rfl⟩
  pde phy e := ⟨rfl,Entry.frame_setPaddrPde e phy,rfl⟩

theorem devStyle_ok : devStyle.Ok where
  absent e h := by simp [devStyle,h]
  there e h _ := by simp [devStyle,h]
  pml4e e := rfl
  fresh e := ⟨rfl,rfl⟩
  pdpte e := ⟨rfl,rfl⟩
  pde phy e := ⟨rfl,Entry.frame_setPaddr e phy,rfl⟩

theorem mmioStyle_ok : mmioStyle.Ok where
  absent e h := by simp [mmioStyle,h]
  there e h _ := by simp [mmioStyle,h]
  pml4e e := rfl
  fresh e := ⟨rfl,rfl⟩
  pdpte e := ⟨rfl,rfl⟩
  pde phy e := ⟨rfl,Entry.frame_setPaddr e phy,rfl⟩

/-- What a successful request for a table page does. `owns` are the pages held by
page tables, as far as the heap records them, and `good` is the invariant of the heap. -/
structure Served (good : Heap → Prop) (owns : Heap → Nat → Prop) (k k' : Kernel) (p : Nat) :
    Prop where
  good : good k'.pageHeap
  fresh : ¬owns k.pageHeap p
  owned : ∀ q, owns k'.pageHeap q ↔ owns k.pageHeap q ∨ q = p
  zeroed : ∀ i, k'.tables p i = .zero
  kept : ∀ q, owns k.pageHeap q → k'.tables q = k.tables q

/-- A source of zeroed pages that are not in use and can be reached through the
entries that name them. -/
structure PageSource (good : Heap → Prop) (owns : Heap → Nat → Prop)
    (alloc : Kernel → Option (Kernel × Nat)) : Prop where
  served : ∀ ⦃k k' p⦄, good k.pageHeap → alloc k = some (k',p) → Served good owns k k' p
  usable : ∀ ⦃h q⦄, good h → owns h q → 0 < q ∧ Addressable q

/-- The page tables with these roots are apart, all their pages are owned, and no
`pdpte` maps a 1 GB page. -/
structure Tabs (good : Heap → Prop) (owns : Heap → Nat → Prop) (roots : List Nat) (k : Kernel) :
    Prop where
  good : good k.pageHeap
  valid : Forest.Valid Entry.child k.tables 2 roots (owns k.pageHeap)
  flat : ∀ r ∈ roots, ∀ a p, Forest.walk Entry.child k.tables r [a] = some p →
    ∀ i, (k.tables p i).present = true → (k.tables p i).ps = false

section Source
variable {good : Heap → Prop} {owns : Heap → Nat → Prop} {alloc : Kernel → Option (Kernel × Nat)}
  {roots : List Nat} {k k' : Kernel} {r s p : Nat} {q : List (Fin 512)} {i : Fin 512}

/-- Memory outside the tables in use does not matter. -/
theorem Tabs.mapping_agree (tabs : Tabs good owns roots k)
    (agree : ∀ q, owns k.pageHeap q → k'.tables q = k.tables q) (hs : s ∈ roots) (v : Nat) :
    k'.mapping s v = k.mapping s v := by
  have walks := tabs.valid.walk_agree agree hs (q := [pml4i v,pdptei v]) (by simp)
  simp only [Kernel.mapping,Forest.read,walks]
  cases reached : Forest.walk Entry.child k.tables s [pml4i v,pdptei v] with
  | none => rfl
  | some x => simp only [Option.map_some,agree x (tabs.valid.inside hs (by simp) reached)]

theorem Tabs.agree {after : Heap → Prop} {owns' : Heap → Nat → Prop} (tabs : Tabs good owns roots k)
    (good' : after k'.pageHeap) (sub : ∀ q, owns k.pageHeap q → owns' k'.pageHeap q)
    (agree : ∀ q, owns k.pageHeap q → k'.tables q = k.tables q) : Tabs after owns' roots k' := by
  refine ⟨good',(tabs.valid.agree agree).mono sub,fun r hr a p reach i => ?_⟩
  rw [tabs.valid.walk_agree agree hr (by simp)] at reach
  rw [agree p (tabs.valid.inside hr (by simp) reach)]
  exact tabs.flat r hr a p reach i

theorem Tabs.served (source : PageSource good owns alloc) (tabs : Tabs good owns roots k)
    (h : alloc k = some (k',p)) : Tabs good owns roots k' ∧
      ∀ s ∈ roots, ∀ v, k'.mapping s v = k.mapping s v := by
  have served := source.served tabs.good h
  exact ⟨tabs.agree served.good (fun q hq => (served.owned q).mpr (.inl hq)) served.kept,
    fun s hs v => tabs.mapping_agree served.kept hs v⟩

/-- What a table page of the tree is to the software: the address it reads. -/
theorem Tabs.getPaddr (source : PageSource good owns alloc) (tabs : Tabs good owns roots k)
    (hr : r ∈ roots) (reach : Forest.walk Entry.child k.tables r q = some p) (short : q.length < 2)
    {c : Nat} (names : (k.tables p i).child = some c) :
    owns k.pageHeap c ∧ 0 < c ∧ (k.tables p i).getPaddr = c ∧
      Forest.walk Entry.child k.tables r (q ++ [i]) = some c := by
  have walked : Forest.walk Entry.child k.tables r (q ++ [i]) = some c := by
    rw [Forest.walk_snoc,reach]
    exact names
  have held := tabs.valid.inside hr (by simp; omega) walked
  obtain ⟨start,_,_,decode⟩ := source.usable tabs.good held
  exact ⟨held,start,decode _ (Entry.child_some.mp names).2,walked⟩

/-- What opening a table below `r` leaves: the trees are apart, every address maps
as before, and the entry names a table that the software finds. -/
structure Opened (good : Heap → Prop) (owns : Heap → Nat → Prop) (roots : List Nat) (r : Nat)
    (q : List (Fin 512)) (p : Nat) (i : Fin 512) (k k' : Kernel) : Prop where
  tabs : Tabs good owns roots k'
  mapping : ∀ s ∈ roots, ∀ v, k'.mapping s v = k.mapping s v
  walk : Forest.walk Entry.child k'.tables r (q ++ [i]) = some (k'.tables p i).getPaddr

theorem Kernel.mapping_congr {v : Nat} (same : Forest.read Entry.child k'.tables s
    [pml4i v,pdptei v] (pdei v) = Forest.read Entry.child k.tables s [pml4i v,pdptei v] (pdei v)) :
    k'.mapping s v = k.mapping s v := by
  rw [Kernel.mapping,same]; rfl

/-- Writing an entry that names what the old one named. -/
theorem Tabs.rewrite (tabs : Tabs good owns roots k) (hr : r ∈ roots)
    (reach : Forest.walk Entry.child k.tables r q = some p) (inner : q.length < 2) {e : Entry}
    (same : e.child = (k.tables p i).child)
    (small : q.length = 1 → e.present = true → e.ps = false) :
    Tabs good owns roots (k.setEntry p i e) ∧
      ∀ s ∈ roots, ∀ v, (k.setEntry p i e).mapping s v = k.mapping s v := by
  refine ⟨⟨tabs.good,tabs.valid.put_child same,?_⟩,fun _ hs v =>
    Kernel.mapping_congr (tabs.valid.read_put_child hr inner reach same hs rfl (pdei v))⟩
  intro s hs a x reached j
  rw [Kernel.setEntry_tables,Forest.walk_put_child same] at reached
  by_cases at_entry : x = p ∧ j = i
  · obtain ⟨rfl,rfl⟩ := at_entry
    have paths := (tabs.valid.separated hs hr (by simp) (by omega) reached reach).2
    rw [Kernel.setEntry_tables,Forest.put_same]
    exact small (by rw [← paths]; rfl)
  · rw [Kernel.setEntry_tables,Forest.put_other _ _ at_entry]
    exact tabs.flat s hs a x reached j

/-- Setting flags on an entry that names a table. -/
theorem Tabs.reflag (source : PageSource good owns alloc) (tabs : Tabs good owns roots k)
    (hr : r ∈ roots) (reach : Forest.walk Entry.child k.tables r q = some p) (inner : q.length < 2)
    {c : Nat} (names : (k.tables p i).child = some c) {e : Entry} (kept : e.child = some c)
    (size : e.ps = (k.tables p i).ps ∨ q.length ≠ 1) :
    Opened good owns roots r q p i k (k.setEntry p i e) := by
  have same : e.child = (k.tables p i).child := kept.trans names.symm
  obtain ⟨held,_,_,walked⟩ := tabs.getPaddr source hr reach inner names
  obtain ⟨_,_,_,decode⟩ := source.usable tabs.good held
  have small (one : q.length = 1) (_ : e.present = true) : e.ps = false := by
    obtain ⟨a,rfl⟩ := List.length_eq_one_iff.mp one
    rw [size.resolve_right fun other => other one]
    exact tabs.flat r hr a p reach i (Entry.child_some.mp names).1
  obtain ⟨tabs',mapping⟩ := tabs.rewrite hr reach inner same small
  refine ⟨tabs',mapping,?_⟩
  rw [Kernel.setEntry_tables,Forest.walk_put_child same,Forest.put_same,walked]
  rw [decode e (Entry.child_some.mp kept).2]

/-- Hanging a page just served under an entry that named none. -/
theorem Tabs.hang (source : PageSource good owns alloc) (tabs : Tabs good owns roots k)
    (hr : r ∈ roots) (reach : Forest.walk Entry.child k.tables r q = some p) (inner : q.length < 2)
    (absent : (k.tables p i).present = false) {c : Nat} (served : Served good owns k k' c)
    {e : Entry} (names : e.child = some c) (small : q.length = 1 → e.ps = false) :
    Opened good owns roots r q p i k (k'.setEntry p i e) := by
  have held := tabs.valid.inside hr (by omega) reach
  have walks : Forest.walk Entry.child k'.tables r q = some p := by
    rw [tabs.valid.walk_agree served.kept hr (by omega),reach]
  have agreed := tabs.agree served.good (fun q hq => (served.owned q).mpr (.inl hq)) served.kept
  have valid := tabs.valid.agree served.kept
  have unnamed : (k'.tables p i).child = none := by
    rw [served.kept p held]
    exact Entry.child_none.mpr absent
  have empty (j : Fin 512) : (k'.tables c j).child = none := by
    rw [served.zeroed j]; rfl
  have newly := (served.owned c).mpr (.inr rfl)
  obtain ⟨_,_,_,decode⟩ := source.usable served.good newly
  refine ⟨⟨served.good,?_,?_⟩,?_,?_⟩
  · exact (valid.install hr walks inner unnamed names served.fresh empty).mono
      fun q hq => (served.owned q).mpr hq
  · intro s hs a x reached j
    rw [Kernel.setEntry_tables,
      valid.walk_install hr walks inner unnamed names served.fresh empty hs (by simp)] at reached
    have distinct : c ≠ p := fun same => served.fresh (same ▸ held)
    split at reached
    · cases reached
      rw [Kernel.setEntry_tables,Forest.put_page _ _ _ distinct,served.zeroed]
      exact fun present => nomatch present
    · by_cases at_entry : x = p ∧ j = i
      · obtain ⟨rfl,rfl⟩ := at_entry
        have paths := (valid.separated hs hr (by simp) (by omega) reached walks).2
        rw [Kernel.setEntry_tables,Forest.put_same]
        exact fun _ => small (by rw [← paths]; rfl)
      · rw [Kernel.setEntry_tables,Forest.put_other _ _ at_entry]
        exact agreed.flat s hs a x reached j
  · intro s hs v
    rw [← tabs.mapping_agree served.kept hs v]
    simp only [Kernel.mapping,Kernel.setEntry_tables]
    rw [valid.read_install hr walks inner unnamed names served.fresh empty hs rfl]
    split
    · next on =>
      -- nothing was mapped under the absent entry and nothing is in the empty table
      have before : Forest.walk Entry.child k'.tables s [pml4i v,pdptei v] = none := by
        rw [on.1,on.2,Forest.walk_snoc,walks]
        exact unnamed
      simp [Forest.read,before,served.zeroed,Entry.zero]
    · rfl
  · rw [Kernel.setEntry_tables,Forest.put_same,decode e (Entry.child_some.mp names).2]
    rw [valid.walk_install hr walks inner unnamed names served.fresh empty hr (by simp; omega)]
    simp

theorem openTable_opened (source : PageSource good owns alloc) (tabs : Tabs good owns roots k)
    (hr : r ∈ roots) (reach : Forest.walk Entry.child k.tables r q = some p) (inner : q.length < 2)
    {missing : Entry → Bool} {fresh flags : Entry → Entry}
    (absent : ∀ e : Entry, e.present = false → missing e = true)
    (there : ∀ e : Entry, e.present = true → 0 < e.getPaddr → missing e = false)
    (fresh_next : ∀ e, (fresh e).next = e.next ∧ (fresh e).ps = e.ps)
    (flags_child : ∀ e, (flags e).child = some e.next)
    (flags_ps : q.length = 1 → ∀ e, (flags e).ps = e.ps)
    (h : openTable alloc missing fresh flags k p i = some k') :
    Opened good owns roots r q p i k k' := by
  cases present : (k.tables p i).present with
  | true =>
    have names : (k.tables p i).child = some (k.tables p i).next := by simp [Entry.child,present]
    obtain ⟨_,start,paddr,_⟩ := tabs.getPaddr source hr reach inner names
    have found := there _ present (by omega)
    simp only [openTable,found] at h
    cases h
    by_cases one : q.length = 1
    · exact tabs.reflag source hr reach inner names (flags_child _) (.inl (flags_ps one _))
    · exact tabs.reflag source hr reach inner names (flags_child _) (.inr one)
  | false =>
    simp only [openTable,absent _ present,if_true,Option.bind_eq_bind,Option.bind_eq_some_iff,
      Option.some.injEq,exists_eq_left'] at h
    obtain ⟨⟨k1,c⟩,h,rfl⟩ := h
    have served := source.served tabs.good h
    obtain ⟨_,aligned,bound,_⟩ := source.usable served.good ((served.owned c).mpr (.inr rfl))
    have names : (flags (fresh ((k1.tables p i).setPaddr c))).child = some c := by
      rw [flags_child,(fresh_next _).1,Entry.next_setPaddr _ aligned bound]
    have hung := tabs.hang source hr reach inner present served names
      fun one => by rw [flags_ps one,(fresh_next _).2]; rfl
    simpa [Kernel.setEntry] using hung

/-- Changing a table at the bottom of the tree of `r`. -/
theorem Tabs.bottom (tabs : Tabs good owns roots k) (hr : r ∈ roots) (deep : q.length = 2)
    (reach : Forest.walk Entry.child k.tables r q = some p) {tables : Forest.Store Nat (Fin 512) Entry}
    (same : ∀ x, x ≠ p → tables x = k.tables x) :
    Tabs good owns roots { k with tables := tables } := by
  refine ⟨tabs.good,tabs.valid.leaf hr deep reach same,fun s hs a x reached j => ?_⟩
  have before := tabs.valid.walk_leaf hr deep reach same hs (a := [a]) (by simp)
  rw [before] at reached
  have elsewhere : x ≠ p := by
    rintro rfl
    have paths := (tabs.valid.separated hs hr (by simp) (by omega) reached reach).2
    rw [← paths] at deep
    cases deep
  simp only [same x elsewhere]
  exact tabs.flat s hs a x reached j

/-- Writing a present entry at the bottom of the tree of `r` maps one page of `r`
and changes no other page. -/
theorem Tabs.leaf (tabs : Tabs good owns roots k) (hr : r ∈ roots) {vir : Nat}
    (reach : Forest.walk Entry.child k.tables r [pml4i vir,pdptei vir] = some p) (e : Entry) :
    Tabs good owns roots (k.setEntry p (pdei vir) e) ∧
      (k.setEntry p (pdei vir) e).mapping r vir = (some e).filter (·.present) ∧
      ∀ s ∈ roots, ∀ v, ¬(s = r ∧ page v = page vir) →
        (k.setEntry p (pdei vir) e).mapping s v = k.mapping s v := by
  have elsewhere (x : Nat) (hx : x ≠ p) : (k.setEntry p (pdei vir) e).tables x = k.tables x :=
    Forest.put_page _ _ _ hx
  have walks {s : Nat} (hs : s ∈ roots) (v : Nat) :=
    tabs.valid.walk_leaf hr rfl reach elsewhere hs (a := [pml4i v,pdptei v]) (by simp)
  refine ⟨tabs.bottom hr rfl reach elsewhere,?_,?_⟩
  · rw [Kernel.mapping,Forest.read,walks hr,reach]
    simp only [Option.map_some,Kernel.setEntry_tables,Forest.put_same]
  · intro s hs v other
    by_cases same : s = r ∧ [pml4i v,pdptei v] = [pml4i vir,pdptei vir]
    · obtain ⟨rfl,path⟩ := same
      have index : ¬pdei v = pdei vir := by
        intro same
        simp only [List.cons.injEq,and_true] at path
        exact other ⟨rfl,page_eq_iff.mpr ⟨path.1,path.2,same⟩⟩
      rw [Kernel.mapping,Kernel.mapping,Forest.read,Forest.read,walks hs,path,reach]
      simp only [Option.map_some,Kernel.setEntry_tables]
      rw [Forest.put_other _ _ (by simp [index])]
    · exact Kernel.mapping_congr
        (tabs.valid.read_leaf hr rfl reach elsewhere hs (by simp) same (pdei v))

/-- The four mapping functions map the page they are given and change no other page
of any table. -/
theorem mapPage_mapping (source : PageSource good owns alloc) {style : MapStyle} (ok : style.Ok)
    (tabs : Tabs good owns roots k) {tab phy vir : Nat} (hr : tab ∈ roots)
    (h : mapPage style alloc k tab phy vir = some k') :
    Tabs good owns roots k' ∧ (∃ e, k'.mapping tab vir = some (style.pde phy e)) ∧
      ∀ s ∈ roots, ∀ v, ¬(s = tab ∧ page v = page vir) → k'.mapping s v = k.mapping s v := by
  simp only [mapPage,Option.bind_eq_bind,Option.bind_eq_some_iff,Option.some.injEq] at h
  obtain ⟨k1,first,k2,second,rfl⟩ := h
  have top := openTable_opened source tabs hr (Forest.walk_nil tab) (by decide)
    (fun e absent => by simp [absent]) (fun e there _ => by simp [there]) (fun _ => ⟨rfl,rfl⟩)
    ok.pml4e (by simp) first
  have middle := openTable_opened source top.tabs hr top.walk (by simp) ok.absent ok.there ok.fresh
    (fun e => (ok.pdpte e).1) (fun _ e => (ok.pdpte e).2) second
  generalize hpd : (k2.tables (k1.tables tab (pml4i vir)).getPaddr (pdptei vir)).getPaddr = pd
  have reach : Forest.walk Entry.child k2.tables tab [pml4i vir,pdptei vir] = some pd :=
    hpd ▸ middle.walk
  generalize he : k2.tables pd (pdei vir) = e
  obtain ⟨tabs',here,others⟩ := middle.tabs.leaf hr reach (style.pde phy e)
  refine ⟨⟨tabs'.good,tabs'.valid,tabs'.flat⟩,⟨e,?_⟩,?_⟩
  · refine here.trans ?_
    simp [(ok.pde phy e).1]
  · intro s hs v other
    exact (others s hs v other).trans ((middle.mapping s hs v).trans (top.mapping s hs v))

end Source

end Siegfried
