import Siegfried.Fold
import Siegfried.PageTable

/-! The tables of tasks: copying the kernel's, giving one back, unmapping pages in one. -/
namespace Siegfried

section Functions
variable (alloc : Kernel → Option (Kernel × Nat)) (free : Kernel → Nat → Kernel)

/-- The inner loop of `page_clone_page_tab`. -/
def clonePdpte (pdptTableDest pdptTableSrc : Nat) (k : Kernel) (pdpti : Fin 512) :
    Option Kernel := do
  let k := k.setEntry pdptTableDest pdpti { k.tables pdptTableSrc pdpti with isuser := true }
  if (k.tables pdptTableDest pdpti).present then
    let pdeiTableSrc := (k.tables pdptTableSrc pdpti).getPaddr
    let (k,pdeiTableDest) ← alloc k
    let k := k.setEntry pdptTableDest pdpti ((k.tables pdptTableDest pdpti).setPaddr pdeiTableDest)
    let copy := fun pdei => { k.tables pdeiTableSrc pdei with isuser := false }
    some { k with tables := Forest.fill k.tables pdeiTableDest copy }
  else some k

/-- The outer loop of `page_clone_page_tab`. -/
def clonePml4e (dest src : Nat) (k : Kernel) (pml4i : Fin 512) : Option Kernel := do
  let k := k.setEntry dest pml4i (k.tables src pml4i)
  if (k.tables dest pml4i).present then
    let (k,pdptTableDest) ← alloc k
    let k := k.setEntry dest pml4i ((k.tables dest pml4i).setPaddr pdptTableDest)
    let pdptTableSrc := (k.tables src pml4i).getPaddr
    (List.finRange 512).foldlM (clonePdpte alloc pdptTableDest pdptTableSrc) k
  else some k

def pageClonePageTab (k : Kernel) (dest src : Nat) : Option Kernel := do
  let oldPhy := k.cr3
  let k ← (List.finRange 512).foldlM (clonePml4e alloc dest src) { k with cr3 := k.pml4Table }
  some { k with cr3 := oldPhy }

def pageCloneKrnlTab (k : Kernel) (dest : Nat) : Option Kernel :=
  pageClonePageTab alloc k dest k.pml4Table

def freePdpte (pdptTable : Nat) (k : Kernel) (pdpti : Fin 512) : Kernel :=
  if (k.tables pdptTable pdpti).present then free k (k.tables pdptTable pdpti).getPaddr else k

def freePml4e (tab : Nat) (k : Kernel) (pml4i : Fin 512) : Kernel :=
  if (k.tables tab pml4i).present then
    let pdptTable := (k.tables tab pml4i).getPaddr
    free ((List.finRange 512).foldl (freePdpte free pdptTable) k) pdptTable
  else k

def pageFreeTab (k : Kernel) (tab : Nat) : Kernel :=
  free ((List.finRange 512).foldl (freePml4e free tab) k) tab

end Functions

/-- The `pde` of an address, by the addresses the software reads on the way. -/
def pdeiTable (k : Kernel) (tab vir : Nat) : Nat :=
  (k.tables (k.tables tab (pml4i vir)).getPaddr (pdptei vir)).getPaddr

/-- The loop body of `page_free_found` and `page_free_found_user`. -/
def freePage (tab inVaddr : Nat) (k : Kernel) (i : Nat) : Kernel :=
  let vir := inVaddr + i * 2097152
  let e := k.tables (pdeiTable k tab vir) (pdei vir)
  let pa := e.getPaddr % 2^48
  { k.setEntry (pdeiTable k tab vir) (pdei vir) { e with present := false } with
    physMemMap := Function.update k.physMemMap (pa / 2097152) false }

def pageFreeFoundUser (k : Kernel) (tab inVaddr pgs : Nat) : Kernel :=
  { (List.range pgs).foldl (freePage tab inVaddr) { k with cr3 := k.pml4Table } with cr3 := k.cr3 }

/-- Afterwards `page_flush` loads the kernel's table, whichever was current before. -/
def pageFreeFound (k : Kernel) (inVaddr pgs : Nat) : Kernel :=
  { (List.range pgs).foldl (freePage k.pml4Table inVaddr) { k with cr3 := k.pml4Table } with
    cr3 := k.pml4Table }

/-- Giving back a page that is not `fixed` takes it, and no other, out of use. -/
structure PageSink (good : Heap → Prop) (owns : Heap → Nat → Prop) (fixed : Nat → Prop)
    (free : Kernel → Nat → Kernel) : Prop where
  stays : ∀ ⦃k p⦄, good k.pageHeap → owns k.pageHeap p → ¬fixed p → good (free k p).pageHeap
  owned : ∀ ⦃k p⦄, good k.pageHeap → owns k.pageHeap p → ¬fixed p →
    ∀ q, owns (free k p).pageHeap q ↔ owns k.pageHeap q ∧ q ≠ p
  kept : ∀ ⦃k p⦄, good k.pageHeap → owns k.pageHeap p → ¬fixed p →
    ∀ q, owns k.pageHeap q → q ≠ p → (free k p).tables q = k.tables q

section Clone
variable {good : Heap → Prop} {owns : Heap → Nat → Prop} {alloc : Kernel → Option (Kernel × Nat)}
  {roots : List Nat} {k k' k'' : Kernel} {r p src : Nat} {i : Fin 512}

/-- Building below `r`: of the tables in use only `p` is written, and no other
root's mapping changes. -/
structure Built (good : Heap → Prop) (owns : Heap → Nat → Prop) (roots : List Nat) (r p : Nat)
    (k k' : Kernel) : Prop where
  tabs : Tabs good owns roots k'
  mapping : ∀ s ∈ roots, s ≠ r → ∀ v, k'.mapping s v = k.mapping s v
  mono : ∀ q, owns k.pageHeap q → owns k'.pageHeap q
  kept : ∀ q, owns k.pageHeap q → q ≠ p → k'.tables q = k.tables q

theorem Built.trans (a : Built good owns roots r p k k') (b : Built good owns roots r p k' k'') :
    Built good owns roots r p k k'' :=
  ⟨b.tabs,fun s hs other v => (b.mapping s hs other v).trans (a.mapping s hs other v),
    fun q hq => b.mono q (a.mono q hq),
    fun q hq other => (b.kept q (a.mono q hq) other).trans (a.kept q hq other)⟩

/-- Work on a table that was not in use before goes unnoticed. -/
theorem Built.trans_fresh {c : Nat} (a : Built good owns roots r p k k')
    (b : Built good owns roots r c k' k'') (fresh : ¬owns k.pageHeap c) :
    Built good owns roots r p k k'' := by
  refine ⟨b.tabs,fun s hs other v => (b.mapping s hs other v).trans (a.mapping s hs other v),
    fun q hq => b.mono q (a.mono q hq),?_⟩
  intro q hq other
  have elsewhere : q ≠ c := fun same => fresh (same ▸ hq)
  exact (b.kept q (a.mono q hq) elsewhere).trans (a.kept q hq other)

/-- One round of a copying loop, at entry `i` of the table `p` of the tree of `r`. -/
structure Round (good : Heap → Prop) (owns : Heap → Nat → Prop) (roots : List Nat) (r p : Nat)
    (i : Fin 512) (k k' : Kernel) : Prop extends Built good owns roots r p k k' where
  rest : ∀ j, j ≠ i → k'.tables p j = k.tables p j

/-- Taking a page and hanging it under `i` of `p`, when the entry meanwhile held a copy. -/
theorem Tabs.hang_copy (source : PageSource good owns alloc) (tabs : Tabs good owns roots k)
    {q : List (Fin 512)} (hr : r ∈ roots) (reach : Forest.walk Entry.child k.tables r q = some p)
    (inner : q.length < 2) (absent : (k.tables p i).present = false) {c : Nat} {copy e : Entry}
    (h : alloc (k.setEntry p i copy) = some (k',c)) (names : e.child = some c)
    (small : q.length = 1 → e.ps = false) :
    Round good owns roots r p i k (k'.setEntry p i e) ∧ ¬owns k.pageHeap c ∧
      (∀ j, (k'.setEntry p i e).tables c j = .zero) ∧
      Forest.walk Entry.child (k'.setEntry p i e).tables r (q ++ [i]) = some c := by
  have served := source.served (k := k.setEntry p i copy) tabs.good h
  have held := tabs.valid.inside hr (by omega) reach
  have distinct : c ≠ p := by
    rintro rfl
    exact served.fresh held
  -- with the old entry restored the page was simply served
  have restored : Served good owns k (k'.setEntry p i (k.tables p i)) c := by
    refine ⟨served.good,served.fresh,served.owned,?_,?_⟩
    · intro j
      rw [Kernel.setEntry_tables,Forest.put_page _ _ _ distinct,served.zeroed]
    · intro x hx
      funext j
      by_cases same : x = p ∧ j = i
      · obtain ⟨rfl,rfl⟩ := same
        simp
      · rw [Kernel.setEntry_tables,Forest.put_other _ _ same,served.kept x hx]
        exact Forest.put_other _ _ same
  have hung := tabs.hang source hr reach inner absent restored names small
  have shape : (k'.setEntry p i (k.tables p i)).setEntry p i e = k'.setEntry p i e := by
    simp [Kernel.setEntry]
  rw [shape] at hung
  obtain ⟨_,_,_,decode⟩ := source.usable served.good ((served.owned c).mpr (.inr rfl))
  refine ⟨⟨⟨hung.tabs,fun s hs _ v => hung.mapping s hs v,
    fun x hx => (served.owned x).mpr (.inl hx),?_⟩,?_⟩,served.fresh,?_,?_⟩
  · intro x hx other
    rw [Kernel.setEntry_tables,Forest.put_page _ _ _ other,served.kept x hx]
    exact Forest.put_page _ _ _ other
  · intro j other
    have elsewhere : ¬(p = p ∧ j = i) := fun same => other same.2
    rw [Kernel.setEntry_tables,Forest.put_other _ _ elsewhere,served.kept p held]
    exact Forest.put_other _ _ elsewhere
  · intro j
    rw [Kernel.setEntry_tables,Forest.put_page _ _ _ distinct,served.zeroed]
  · rw [hung.walk,Kernel.setEntry_tables,Forest.put_same,decode e (Entry.child_some.mp names).2]

/-- Filling a fresh table at the bottom of the tree of `r`. -/
theorem Tabs.fill (tabs : Tabs good owns roots k) {q : List (Fin 512)} (hr : r ∈ roots) {c : Nat}
    (deep : q.length = 2) (reach : Forest.walk Entry.child k.tables r q = some c)
    (t : Fin 512 → Entry) :
    Built good owns roots r c k { k with tables := Forest.fill k.tables c t } := by
  have elsewhere (x : Nat) (hx : x ≠ c) : Forest.fill k.tables c t x = k.tables x :=
    Forest.fill_other _ t hx
  refine ⟨tabs.bottom hr deep reach elsewhere,?_,fun _ hq => hq,fun x _ hx => elsewhere x hx⟩
  intro s hs other v
  exact Kernel.mapping_congr (tabs.valid.read_leaf hr deep reach elsewhere hs (by simp)
    (fun same => other same.1) (pdei v))

/-- Copying an entry that names no table. -/
theorem Tabs.copy_absent (tabs : Tabs good owns roots k) {q : List (Fin 512)} (hr : r ∈ roots)
    (reach : Forest.walk Entry.child k.tables r q = some p) (inner : q.length < 2)
    (absent : (k.tables p i).present = false) {e : Entry} (copied : e.present = false) :
    Round good owns roots r p i k (k.setEntry p i e) := by
  have same : e.child = (k.tables p i).child :=
    (Entry.child_none.mpr copied).trans (Entry.child_none.mpr absent).symm
  obtain ⟨tabs',mapping⟩ := tabs.rewrite hr reach inner same fun _ present =>
    absurd present (by rw [copied]; simp)
  exact ⟨⟨tabs',fun s hs _ v => mapping s hs v,fun _ hq => hq,
    fun x _ hx => Forest.put_page _ _ _ hx⟩,fun j hj => Forest.put_other _ _ fun at_i => hj at_i.2⟩

theorem clonePdpte_round (source : PageSource good owns alloc) (tabs : Tabs good owns roots k)
    {a : Fin 512} (hr : r ∈ roots) (reach : Forest.walk Entry.child k.tables r [a] = some p)
    (absent : (k.tables p i).present = false) (h : clonePdpte alloc p src k i = some k') :
    Round good owns roots r p i k k' := by
  simp only [clonePdpte,Kernel.setEntry_tables,Forest.put_same] at h
  by_cases copied : (k.tables src i).present = true
  · simp only [copied,if_true,Option.bind_eq_bind,Option.bind_eq_some_iff,Option.some.injEq] at h
    obtain ⟨⟨k1,c⟩,taken,rfl⟩ := h
    have served := source.served (k := k.setEntry p i _) tabs.good taken
    obtain ⟨_,aligned,bound,_⟩ := source.usable served.good ((served.owned c).mpr (.inr rfl))
    have held := tabs.valid.inside hr (by simp) reach
    have shown : (k1.tables p i).present = true := by
      rw [served.kept p held]
      simp
    have names : ((k1.tables p i).setPaddr c).child = some c :=
      Entry.child_some.mpr ⟨shown,Entry.next_setPaddr _ aligned bound⟩
    obtain ⟨hung,fresh,_,walked⟩ := tabs.hang_copy source hr reach (by simp) absent taken names
      fun _ => rfl
    have elsewhere : p ≠ c := fun same => fresh (same ▸ held)
    exact ⟨hung.toBuilt.trans_fresh (hung.tabs.fill hr rfl walked _) fresh,fun j hj =>
      (congrFun (Forest.fill_other _ _ elsewhere) j).trans (hung.rest j hj)⟩
  · simp only [copied,Bool.false_eq_true,if_false,Option.some.injEq] at h
    subst h
    refine tabs.copy_absent hr reach (by simp) absent ?_
    simp

/-- A table one step below a root stays there while only it is written. -/
theorem Built.walk_one (built : Built good owns roots r p k k') (tabs : Tabs good owns roots k)
    {a : Fin 512} (hr : r ∈ roots) (reach : Forest.walk Entry.child k.tables r [a] = some p) :
    Forest.walk Entry.child k'.tables r [a] = some p := by
  have other : r ≠ p := by
    rintro rfl
    have paths := (tabs.valid.separated hr hr (by simp) (by simp) reach (Forest.walk_nil r)).2
    cases paths
  rw [← reach,Forest.walk_cons,Forest.walk_cons,built.kept r (tabs.valid.root hr) other]
  rfl

/-- The inner loop builds below the table it fills. -/
theorem clonePdptes_built (source : PageSource good owns alloc) (tabs : Tabs good owns roots k)
    {a : Fin 512} (hr : r ∈ roots) (reach : Forest.walk Entry.child k.tables r [a] = some p)
    (absent : ∀ i, (k.tables p i).present = false)
    (h : (List.finRange 512).foldlM (clonePdpte alloc p src) k = some k') :
    Built good owns roots r p k k' := by
  have start : Built good owns roots r p k k := ⟨tabs,fun _ _ _ _ => rfl,fun _ h => h,fun _ _ _ => rfl⟩
  have last := Fold.foldlM_rest (fun l m => l.Nodup ∧ Built good owns roots r p k m ∧
    ∀ i ∈ l, (m.tables p i).present = false) ?_ ⟨List.nodup_finRange 512,start,fun i _ => absent i⟩ h
  · exact last.2.1
  · rintro i l m m' ⟨nodup,built,rest⟩ step
    obtain ⟨out,nodup⟩ := List.nodup_cons.mp nodup
    have round := clonePdpte_round source built.tabs hr (built.walk_one tabs hr reach)
      (rest i (List.mem_cons_self ..)) step
    refine ⟨nodup,built.trans round.toBuilt,fun j hj => ?_⟩
    have other : j ≠ i := fun same => out (same ▸ hj)
    rw [round.rest j other]
    exact rest j (List.mem_cons_of_mem _ hj)

theorem clonePml4e_round (source : PageSource good owns alloc) (tabs : Tabs good owns roots k)
    (hr : r ∈ roots) (absent : (k.tables r i).present = false)
    (h : clonePml4e alloc r src k i = some k') : Round good owns roots r r i k k' := by
  simp only [clonePml4e,Kernel.setEntry_tables,Forest.put_same] at h
  by_cases copied : (k.tables src i).present = true
  · simp only [copied,if_true,Option.bind_eq_bind,Option.bind_eq_some_iff] at h
    obtain ⟨⟨k1,c⟩,taken,loop⟩ := h
    have served := source.served (k := k.setEntry r i _) tabs.good taken
    obtain ⟨_,aligned,bound,_⟩ := source.usable served.good ((served.owned c).mpr (.inr rfl))
    have held := tabs.valid.root hr
    have shown : (k1.tables r i).present = true := by
      rw [served.kept r held]
      simp [copied]
    have names : ((k1.tables r i).setPaddr c).child = some c :=
      Entry.child_some.mpr ⟨shown,Entry.next_setPaddr _ aligned bound⟩
    obtain ⟨hung,fresh,zeroed,walked⟩ :=
      tabs.hang_copy source hr (Forest.walk_nil r) (by simp) absent taken names
        fun _ => rfl
    have elsewhere : r ≠ c := fun same => fresh (same ▸ held)
    have built := clonePdptes_built source hung.tabs hr walked (fun j => by rw [zeroed]; rfl) loop
    exact ⟨hung.toBuilt.trans_fresh built fresh,fun j hj =>
      (congrFun (built.kept r (hung.tabs.valid.root hr) elsewhere) j).trans (hung.rest j hj)⟩
  · simp only [copied,Bool.false_eq_true,if_false,Option.some.injEq] at h
    subst h
    refine tabs.copy_absent hr (Forest.walk_nil r) (by simp) absent ?_
    simpa using copied

/-- `page_clone_page_tab` into an empty root builds that root only. -/
theorem pageClonePageTab_built (source : PageSource good owns alloc)
    (tabs : Tabs good owns roots k) (hr : r ∈ roots) (absent : ∀ i, (k.tables r i).present = false)
    (h : pageClonePageTab alloc k r src = some k') : Built good owns roots r r k k' := by
  simp only [pageClonePageTab,Option.bind_eq_bind,Option.bind_eq_some_iff,Option.some.injEq] at h
  obtain ⟨k1,loop,rfl⟩ := h
  have start : Built good owns roots r r k { k with cr3 := k.pml4Table } :=
    ⟨⟨tabs.good,tabs.valid,tabs.flat⟩,fun _ _ _ _ => rfl,fun _ h => h,fun _ _ _ => rfl⟩
  have last := Fold.foldlM_rest (fun l m => l.Nodup ∧ Built good owns roots r r k m ∧
    ∀ i ∈ l, (m.tables r i).present = false) ?_ ⟨List.nodup_finRange 512,start,fun i _ => absent i⟩
    loop
  · have built := last.2.1
    exact ⟨⟨built.tabs.good,built.tabs.valid,built.tabs.flat⟩,built.mapping,built.mono,built.kept⟩
  · rintro i l m m' ⟨nodup,built,rest⟩ step
    obtain ⟨out,nodup⟩ := List.nodup_cons.mp nodup
    have round := clonePml4e_round source built.tabs hr (rest i (List.mem_cons_self ..)) step
    refine ⟨nodup,built.trans round.toBuilt,fun j hj => ?_⟩
    have other : j ≠ i := fun same => out (same ▸ hj)
    rw [round.rest j other]
    exact rest j (List.mem_cons_of_mem _ hj)

end Clone

section Free
variable {good : Heap → Prop} {owns : Heap → Nat → Prop} {alloc : Kernel → Option (Kernel × Nat)}
  {fixed : Nat → Prop} {free : Kernel → Nat → Kernel} {roots : List Nat} {k k0 : Kernel} {r : Nat}

/-- The software finds the table the processor walks to. -/
theorem Tabs.pdeiTable (source : PageSource good owns alloc) (tabs : Tabs good owns roots k)
    (hr : r ∈ roots) {vir pd : Nat}
    (reach : Forest.walk Entry.child k.tables r [pml4i vir,pdptei vir] = some pd) :
    pdeiTable k r vir = pd := by
  rw [show [pml4i vir,pdptei vir] = [pml4i vir] ++ [pdptei vir] from rfl,Forest.walk_snoc] at reach
  obtain ⟨pdpt,first,second⟩ := Option.bind_eq_some_iff.mp reach
  obtain ⟨_,_,top,_⟩ := tabs.getPaddr source hr (Forest.walk_nil r) (by simp)
    (show (k.tables r (pml4i vir)).child = some pdpt by simpa [Forest.walk_cons] using first)
  obtain ⟨_,_,bottom,_⟩ := tabs.getPaddr source hr first (by simp) second
  rw [Siegfried.pdeiTable,top,bottom]

/-- Unmapping a page whose tables exist unmaps it in that table only. -/
theorem freePage_mapping (source : PageSource good owns alloc) (tabs : Tabs good owns roots k)
    (hr : r ∈ roots) {vaddr i pd : Nat} (reach : Forest.walk Entry.child k.tables r
      [pml4i (vaddr + i * 2097152),pdptei (vaddr + i * 2097152)] = some pd) :
    Tabs good owns roots (freePage r vaddr k i) ∧
      (∀ s ∈ roots, ∀ v, ¬(s = r ∧ page v = page (vaddr + i * 2097152)) →
        (freePage r vaddr k i).mapping s v = k.mapping s v) ∧
      ∀ v, Forest.walk Entry.child (freePage r vaddr k i).tables r [pml4i v,pdptei v] =
        Forest.walk Entry.child k.tables r [pml4i v,pdptei v] := by
  generalize hv : vaddr + i * 2097152 = vir at reach ⊢
  have found := tabs.pdeiTable source hr reach
  have written := tabs.leaf hr reach { k.tables pd (pdei vir) with present := false }
  have elsewhere (x : Nat) (hx : x ≠ pd) : (freePage r vaddr k i).tables x = k.tables x := by
    simp only [freePage,hv,found]
    exact Forest.put_page _ _ _ hx
  refine ⟨?_,?_,?_⟩
  · simp only [freePage,hv,found]
    exact ⟨written.1.good,written.1.valid,written.1.flat⟩
  · intro s hs v other
    simp only [freePage,hv,found]
    exact written.2.2 s hs v other
  · exact fun v => tabs.valid.walk_leaf hr rfl reach elsewhere hr (by simp)

/-- `page_free_found_user` on a range whose tables exist. -/
theorem pageFreeFoundUser_mapping (source : PageSource good owns alloc)
    (tabs : Tabs good owns roots k) (hr : r ∈ roots) {vaddr pgs : Nat}
    (mapped : ∀ i < pgs, k.translate r (vaddr + i * 2097152) ≠ none) :
    Tabs good owns roots (pageFreeFoundUser k r vaddr pgs) ∧
      ∀ s ∈ roots, ∀ v, ¬(s = r ∧ ∃ i < pgs, page v = page (vaddr + i * 2097152)) →
        (pageFreeFoundUser k r vaddr pgs).mapping s v = k.mapping s v := by
  have walks (i : Nat) (hi : i < pgs) : ∃ pd, Forest.walk Entry.child k.tables r
      [pml4i (vaddr + i * 2097152),pdptei (vaddr + i * 2097152)] = some pd := by
    have some := mapped i hi
    cases reach : Forest.walk Entry.child k.tables r
        [pml4i (vaddr + i * 2097152),pdptei (vaddr + i * 2097152)] with
    | none => simp [Kernel.translate,Kernel.mapping,Forest.read,reach] at some
    | some pd => exact ⟨pd,rfl⟩
  have last := Fold.foldl_rest (g := freePage r vaddr)
    (fun l m => (∀ i ∈ l, i < pgs) ∧ Tabs good owns roots m ∧
      (∀ s ∈ roots, ∀ v, ¬(s = r ∧ ∃ i < pgs, page v = page (vaddr + i * 2097152)) →
        m.mapping s v = k.mapping s v) ∧
      ∀ v, Forest.walk Entry.child m.tables r [pml4i v,pdptei v] =
        Forest.walk Entry.child k.tables r [pml4i v,pdptei v]) ?_
    (l := List.range pgs) (s := { k with cr3 := k.pml4Table })
    ⟨fun i hi => List.mem_range.mp hi,⟨tabs.good,tabs.valid,tabs.flat⟩,fun _ _ _ _ => rfl,fun _ => rfl⟩
  · exact ⟨⟨last.2.1.good,last.2.1.valid,last.2.1.flat⟩,last.2.2.1⟩
  · rintro i l m ⟨bound,inv,mapping,same⟩
    have here := bound i (List.mem_cons_self ..)
    obtain ⟨pd,reach⟩ := walks i here
    obtain ⟨inv',mapping',same'⟩ := freePage_mapping source inv hr ((same _).trans reach)
    refine ⟨fun j hj => bound j (List.mem_cons_of_mem _ hj),inv',?_,fun v => (same' v).trans (same v)⟩
    intro s hs v other
    rw [mapping' s hs v fun named => other ⟨named.1,i,here,named.2⟩]
    exact mapping s hs v other

/-- Part of the tree of `r` has been given back: the tables on the paths `gone`. -/
structure Freeing (good : Heap → Prop) (owns : Heap → Nat → Prop) (k0 : Kernel) (r : Nat)
    (gone : List (Fin 512) → Prop) (k : Kernel) : Prop where
  good : good k.pageHeap
  owned : ∀ q, owns k.pageHeap q ↔ owns k0.pageHeap q ∧
    ¬∃ path, gone path ∧ path.length ≤ 2 ∧ Forest.walk Entry.child k0.tables r path = some q
  kept : ∀ q, owns k.pageHeap q → k.tables q = k0.tables q

/-- Giving back the table on one more path. -/
theorem Freeing.give (sink : PageSink good owns fixed free) (tabs : Tabs good owns roots k0)
    (hr : r ∈ roots) (loose : ∀ p, Forest.Reach Entry.child k0.tables 2 r p → ¬fixed p) {gone : List (Fin 512) → Prop} (freeing : Freeing good owns k0 r gone k)
    {path : List (Fin 512)} {p : Nat} (short : path.length ≤ 2) (there : ¬gone path)
    (reach : Forest.walk Entry.child k0.tables r path = some p) :
    Freeing good owns k0 r (fun q => gone q ∨ q = path) (free k p) := by
  have held : owns k.pageHeap p := by
    refine (freeing.owned p).mpr ⟨tabs.valid.inside hr short reach,?_⟩
    rintro ⟨other,hgone,hshort,hreach⟩
    exact there ((tabs.valid.separated hr hr hshort short hreach reach).2 ▸ hgone)
  have loose := loose p ⟨path,short,reach⟩
  refine ⟨sink.stays freeing.good held loose,?_,?_⟩
  · intro q
    rw [sink.owned freeing.good held loose,freeing.owned]
    constructor
    · rintro ⟨⟨own,left⟩,other⟩
      refine ⟨own,?_⟩
      rintro ⟨_,hgone | rfl,hshort,hreach⟩
      · exact left ⟨_,hgone,hshort,hreach⟩
      · exact other (Option.some.inj (hreach.symm.trans reach))
    · rintro ⟨own,left⟩
      refine ⟨⟨own,fun ⟨other,hgone,hshort,hreach⟩ => left ⟨other,.inl hgone,hshort,hreach⟩⟩,?_⟩
      rintro rfl
      exact left ⟨path,.inr rfl,short,reach⟩
  · intro q hq
    obtain ⟨own,other⟩ := (sink.owned freeing.good held loose q).mp hq
    rw [sink.kept freeing.good held loose q own other,freeing.kept q own]

/-- Paths that lead nowhere may count as given back. -/
theorem Freeing.skip {gone : List (Fin 512) → Prop} (extra : List (Fin 512) → Prop)
    (freeing : Freeing good owns k0 r gone k)
    (nowhere : ∀ path, extra path → Forest.walk Entry.child k0.tables r path = none) :
    Freeing good owns k0 r (fun q => gone q ∨ extra q) k := by
  refine ⟨freeing.good,fun q => ?_,freeing.kept⟩
  rw [freeing.owned]
  refine and_congr_right fun _ => not_congr ⟨fun ⟨p,h,t⟩ => ⟨p,.inl h,t⟩,?_⟩
  rintro ⟨p,h | h,short,reach⟩
  · exact ⟨p,h,short,reach⟩
  · rw [nowhere p h] at reach
    cases reach

theorem Freeing.congr {gone other : List (Fin 512) → Prop} (freeing : Freeing good owns k0 r gone k)
    (same : ∀ q, gone q ↔ other q) : Freeing good owns k0 r other k :=
  (funext fun q => propext (same q) : gone = other) ▸ freeing

/-- A table not given back yet reads as before. -/
theorem Freeing.tables (tabs : Tabs good owns roots k0) (hr : r ∈ roots)
    {gone : List (Fin 512) → Prop} (freeing : Freeing good owns k0 r gone k)
    {path : List (Fin 512)} {p : Nat} (short : path.length ≤ 2) (there : ¬gone path)
    (reach : Forest.walk Entry.child k0.tables r path = some p) : k.tables p = k0.tables p := by
  refine freeing.kept p ((freeing.owned p).mpr ⟨tabs.valid.inside hr short reach,?_⟩)
  rintro ⟨other,hgone,hshort,hreach⟩
  exact there ((tabs.valid.separated hr hr hshort short hreach reach).2 ▸ hgone)

theorem freePdptes_freeing (source : PageSource good owns alloc)
    (sink : PageSink good owns fixed free) (tabs : Tabs good owns roots k0) (hr : r ∈ roots)
    (loose : ∀ p, Forest.Reach Entry.child k0.tables 2 r p → ¬fixed p)
    {gone : List (Fin 512) → Prop}
    (freeing : Freeing good owns k0 r gone k) {a : Fin 512} {p : Nat} (top : ¬gone [a])
    (there : ∀ j, ¬gone [a,j]) (reach : Forest.walk Entry.child k0.tables r [a] = some p) :
    Freeing good owns k0 r (fun q => gone q ∨ ∃ j, q = [a,j])
      ((List.finRange 512).foldl (freePdpte free p) k) := by
  have last := Fold.foldl_rest (g := freePdpte free p)
    (fun l m => l.Nodup ∧ Freeing good owns k0 r (fun q => gone q ∨ ∃ j, j ∉ l ∧ q = [a,j]) m) ?_
    (l := List.finRange 512) (s := k) ⟨List.nodup_finRange 512,freeing.congr (by simp)⟩
  · exact last.2.congr (by simp)
  · rintro i l m ⟨nodup,before⟩
    obtain ⟨out,nodup⟩ := List.nodup_cons.mp nodup
    have same (q : List (Fin 512)) : ((gone q ∨ ∃ j, j ∉ i :: l ∧ q = [a,j]) ∨ q = [a,i]) ↔
        gone q ∨ ∃ j, j ∉ l ∧ q = [a,j] := by
      constructor
      · rintro ((h | ⟨j,hj,rfl⟩) | rfl)
        · exact .inl h
        · exact .inr ⟨j,fun h => hj (List.mem_cons_of_mem _ h),rfl⟩
        · exact .inr ⟨i,out,rfl⟩
      · rintro (h | ⟨j,hj,rfl⟩)
        · exact .inl (.inl h)
        · by_cases at_i : j = i
          · exact .inr (by rw [at_i])
          · exact .inl (.inr ⟨j,by simp [at_i,hj],rfl⟩)
    refine ⟨nodup,?_⟩
    have table := before.tables tabs hr (by simp) (by simp [top]) reach
    have next : Forest.walk Entry.child k0.tables r [a,i] = (k0.tables p i).child := by
      rw [show [a,i] = [a] ++ [i] from rfl,Forest.walk_snoc,reach]
      rfl
    cases names : (k0.tables p i).child with
    | none =>
      have absent : (m.tables p i).present = false := by
        rw [table]
        exact Entry.child_none.mp names
      simp only [freePdpte,absent]
      refine (before.skip (fun q => q = [a,i]) ?_).congr same
      rintro _ rfl
      rw [next,names]
    | some c =>
      obtain ⟨_,_,paddr,walked⟩ := tabs.getPaddr source hr reach (by simp) names
      have present : (k0.tables p i).present = true := (Entry.child_some.mp names).1
      simp only [freePdpte,table,present,if_true,paddr]
      exact (before.give sink tabs hr loose (by simp) (by simp [there]) walked).congr same

/-- `page_free_tab` gives back exactly the tables of the tree. -/
theorem pageFreeTab_freeing (source : PageSource good owns alloc)
    (sink : PageSink good owns fixed free) (tabs : Tabs good owns roots k0) (hr : r ∈ roots)
    (loose : ∀ p, Forest.Reach Entry.child k0.tables 2 r p → ¬fixed p) :
    Freeing good owns k0 r (fun q => q.length ≤ 2) (pageFreeTab free k0 r) := by
  have start : Freeing good owns k0 r (fun _ => False) k0 :=
    ⟨tabs.good,fun q => by simp,fun _ _ => rfl⟩
  have last := Fold.foldl_rest (g := freePml4e free r)
    (fun l m => l.Nodup ∧ Freeing good owns k0 r
      (fun q => ∃ i, i ∉ l ∧ (q = [i] ∨ ∃ j, q = [i,j])) m) ?_
    (l := List.finRange 512) (s := k0) ⟨List.nodup_finRange 512,start.congr (by simp)⟩
  · have given := last.2.give sink tabs hr loose (by simp) (by simp) (Forest.walk_nil r)
    refine ⟨given.good,fun q => ?_,given.kept⟩
    rw [pageFreeTab,given.owned]
    refine and_congr_right fun _ => not_congr (exists_congr fun path => ?_)
    refine ⟨fun ⟨_,short,reach⟩ => ⟨short,short,reach⟩,fun ⟨short,_,reach⟩ => ⟨?_,short,reach⟩⟩
    match path with
    | [] => exact .inr rfl
    | [i] => exact .inl ⟨i,by simp,.inl rfl⟩
    | [i,j] => exact .inl ⟨i,by simp,.inr ⟨j,rfl⟩⟩
    | _ :: _ :: _ :: _ => simp at short
  · rintro i l m ⟨nodup,before⟩
    obtain ⟨out,nodup⟩ := List.nodup_cons.mp nodup
    have same (q : List (Fin 512)) : (((∃ x, x ∉ i :: l ∧ (q = [x] ∨ ∃ j, q = [x,j])) ∨
        ∃ j, q = [i,j]) ∨ q = [i]) ↔ ∃ x, x ∉ l ∧ (q = [x] ∨ ∃ j, q = [x,j]) := by
      constructor
      · rintro ((⟨x,hx,h⟩ | ⟨j,rfl⟩) | rfl)
        · exact ⟨x,fun h => hx (List.mem_cons_of_mem _ h),h⟩
        · exact ⟨i,out,.inr ⟨j,rfl⟩⟩
        · exact ⟨i,out,.inl rfl⟩
      · rintro ⟨x,hx,h⟩
        by_cases at_i : x = i
        · subst at_i
          exact h.elim .inr fun h => .inl (.inr h)
        · exact .inl (.inl ⟨x,by simp [at_i,hx],h⟩)
    refine ⟨nodup,?_⟩
    have table := before.tables tabs hr (by simp) (by simp) (Forest.walk_nil r)
    have next : Forest.walk Entry.child k0.tables r [i] = (k0.tables r i).child := by
      rw [show [i] = [] ++ [i] from rfl,Forest.walk_snoc,Forest.walk_nil]
      rfl
    cases names : (k0.tables r i).child with
    | none =>
      have absent : (m.tables r i).present = false := by
        rw [table]
        exact Entry.child_none.mp names
      simp only [freePml4e,absent]
      refine ((before.skip (fun q => ∃ j, q = [i,j]) ?_).skip (fun q => q = [i]) ?_).congr same
      · rintro _ ⟨j,rfl⟩
        rw [show [i,j] = [i] ++ [j] from rfl,Forest.walk_snoc,next,names]
        rfl
      · rintro _ rfl
        rw [next,names]
    | some c =>
      obtain ⟨_,_,paddr,walked⟩ := tabs.getPaddr source hr (Forest.walk_nil r) (by simp) names
      have present : (k0.tables r i).present = true := (Entry.child_some.mp names).1
      simp only [freePml4e,table,present,if_true,paddr]
      have inner := freePdptes_freeing source sink tabs hr loose before (by simp) (by simp) walked
      exact (inner.give sink tabs hr loose (by simp) (by simp) walked).congr same

/-- The other tables live on as they were. -/
theorem pageFreeTab_mapping (source : PageSource good owns alloc)
    (sink : PageSink good owns fixed free) (tabs : Tabs good owns roots k0) (hr : r ∈ roots)
    (loose : ∀ p, Forest.Reach Entry.child k0.tables 2 r p → ¬fixed p) {fewer : List Nat}
    (sub : ∀ s ∈ fewer, s ∈ roots ∧ s ≠ r) : Tabs good owns fewer (pageFreeTab free k0 r) ∧
      ∀ s ∈ fewer, ∀ v, (pageFreeTab free k0 r).mapping s v = k0.mapping s v := by
  have freed := pageFreeTab_freeing source sink tabs hr loose
  have left := tabs.valid.drop_root hr sub
  have owned (q : Nat) : owns (pageFreeTab free k0 r).pageHeap q ↔
      owns k0.pageHeap q ∧ ¬Forest.Reach Entry.child k0.tables 2 r q := by
    rw [freed.owned]
    refine and_congr_right fun _ => not_congr (exists_congr fun path => ?_)
    exact ⟨fun h => h.2,fun h => ⟨h.1,h⟩⟩
  have agree (q : Nat) (hq : owns k0.pageHeap q ∧ ¬Forest.Reach Entry.child k0.tables 2 r q) :
      (pageFreeTab free k0 r).tables q = k0.tables q := freed.kept q ((owned q).mpr hq)
  refine ⟨⟨freed.good,(left.agree agree).mono fun q hq => (owned q).mpr hq,?_⟩,?_⟩
  · intro s hs a p reach i
    rw [left.walk_agree agree hs (by simp)] at reach
    rw [agree p (left.inside hs (by simp) reach)]
    exact tabs.flat s (sub s hs).1 a p reach i
  · intro s hs v
    have walks := left.walk_agree agree hs (q := [pml4i v,pdptei v]) (by simp)
    rw [Kernel.mapping,Kernel.mapping,Forest.read,Forest.read,walks]
    cases reached : Forest.walk Entry.child k0.tables s [pml4i v,pdptei v] with
    | none => rfl
    | some x => simp only [Option.map_some,agree x (left.inside hs (by simp) reached)]

end Free

end Siegfried
