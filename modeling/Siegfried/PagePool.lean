import Siegfried.TaskTable

/-! The page heap as the source and sink of table pages, as long as it does not grow. -/
namespace Siegfried

/-- `k_pageobj_alloc` when its growth branch is cut off. -/
def takePage (k : Kernel) : Option (Kernel × Nat) := kPageobjAllocWith (fun _ => none) k 4096

/-- `k_pageobj_free`; only a block of 32 MB is ever handed to `page_free_found`. -/
def kPageobjFree (k : Kernel) (ptr : Nat) : Kernel :=
  let k' := { k with pageHeap := k.pageHeap.free ptr }
  match k.pageHeap.unlinked ptr with
  | none => k'
  | some b => pageFreeFound k' b.addr (b.size / 2097152)

def Heap.regions (h : Heap) : List (Nat × Nat) := h.blocks.map fun b => (b.addr,b.size)

theorem take_regions {h : Heap} {t : Taken Heap} (taken : h.take = some t) :
    t.rest.regions = h.regions := by
  obtain ⟨before,b,after,split,_,_,rfl⟩ := take_some taken
  simp [Heap.regions,split,Block.take]

@[simp] theorem clear_regions (h : Heap) (lo hi : Nat) : (h.clear lo hi).regions = h.regions := by
  simp [Heap.regions,Heap.clear,Block.clear]

theorem giveTo_kept {bsize ptr : Nat} {bs : List Block} (small : ∀ b ∈ bs, b.size ≠ 0x2000000) :
    (giveTo bsize ptr bs).2 = none ∧ ((giveTo bsize ptr bs).1.map fun b => (b.addr,b.size)) =
      bs.map fun b => (b.addr,b.size) := by
  induction bs with
  | nil => exact ⟨rfl,rfl⟩
  | cons b bs ih =>
    have other : (b.give bsize ptr).empties = false := by
      simp only [Block.empties,Bool.and_eq_false_iff,decide_eq_false_iff_not]
      exact .inl (small b (List.mem_cons_self ..))
    obtain ⟨none,same⟩ := ih fun c hc => small c (List.mem_cons_of_mem _ hc)
    simp only [giveTo,other,Bool.false_eq_true,if_false]
    split
    · exact ⟨rfl,rfl⟩
    · exact ⟨none,congrArg ((b.addr,b.size) :: ·) same⟩

theorem resetHead_regions (bs : List Block) :
    (resetHead bs).map (fun b => (b.addr,b.size)) = bs.map fun b => (b.addr,b.size) := by
  cases bs with
  | nil => rfl
  | cons b bs =>
    simp only [resetHead]
    split <;> rfl

theorem free_regions {h : Heap} (small : ∀ b ∈ h.regions, b.2 ≠ 0x2000000) (ptr : Nat) :
    (h.free ptr).regions = h.regions := by
  rw [Heap.free]
  split
  · simp only [Heap.regions,resetHead_regions]
    exact (giveTo_kept fun b hb => small _ (List.mem_map_of_mem hb)).2
  · rfl

/-- A heap in working order whose blocks lie below 8 TiB, apart from the page of
the table `root`, and none of which is unlinked when it empties. The pages `bufs` are
out, but not as page tables. -/
structure HeapAt (root : Nat) (bufs : List Nat) (h : Heap) : Prop where
  inv : h.Inv
  low : ∀ b ∈ h.regions, b.1 + b.2 ≤ 2^43
  small : ∀ b ∈ h.regions, b.2 ≠ 0x2000000
  apart : ∀ b ∈ h.regions, root + 4096 ≤ b.1 ∨ b.1 + b.2 ≤ root
  aligned : root % 4096 = 0
  start : 0 < root
  root_low : root < 2^43
  bufs : ∀ p ∈ bufs, p ∈ h.out

/-- The pages page tables may hold: those that are out for them, and those that are
not the heap's. -/
def holdsPage (fixed : Nat → Prop) (bufs : List Nat) (h : Heap) (p : Nat) : Prop :=
  fixed p ∨ p ∈ h.out ∧ p ∉ bufs

section Pool
variable {root : Nat} {fixed : Nat → Prop} {bufs : List Nat} {h : Heap} {k k' : Kernel} {p : Nat}

theorem HeapAt.congr {h' : Heap} (at_root : HeapAt root bufs h) (inv : h'.Inv)
    (regions : h'.regions = h.regions) (kept : ∀ p ∈ bufs, p ∈ h'.out) : HeapAt root bufs h' :=
  ⟨inv,regions ▸ at_root.low,regions ▸ at_root.small,regions ▸ at_root.apart,at_root.aligned,
    at_root.start,at_root.root_low,kept⟩

/-- A page that is out is a page address, and not the root. -/
theorem HeapAt.page (at_root : HeapAt root bufs h) (member : p ∈ h.out) :
    p % 4096 = 0 ∧ 0 < p ∧ p < 2^43 ∧ p ≠ root := by
  obtain ⟨b,hb,_,aligned,start,_,finish⟩ := at_root.inv.page member
  have region : (b.addr,b.size) ∈ h.regions := List.mem_map_of_mem hb
  have low := at_root.low _ region
  have apart := at_root.apart _ region
  dsimp only at low apart
  omega

theorem HeapAt.holds (at_root : HeapAt root bufs h) (only : ∀ p, fixed p → p = root)
    (held : holdsPage fixed bufs h p) : p % 4096 = 0 ∧ 0 < p ∧ p < 2^43 := by
  rcases held with is_root | ⟨member,_⟩
  · rw [only p is_root]
    exact ⟨at_root.aligned,at_root.start,at_root.root_low⟩
  · have page := at_root.page member
    exact ⟨page.1,page.2.1,page.2.2.1⟩

/-- What a page taken without growth is. -/
theorem takePage_some (h : takePage k = some (k',p)) : ∃ t, k.pageHeap.take = some t ∧ t.ptr = p ∧
    t.grows = false ∧ k' = ({ k with pageHeap := t.rest } : Kernel).clear p (p + 4096) ∧
    (k.mapping k.cr3 p).isSome = true := by
  simp only [takePage,kPageobjAllocWith] at h
  split at h
  · cases h
  · simp only [Option.bind_eq_bind,Option.bind_eq_some_iff] at h
    obtain ⟨t,taken,k1,grown,zeroed⟩ := h
    cases low : t.grows with
    | true => simp [low,extendHeap] at grown
    | false =>
      simp only [low,Bool.false_eq_true,if_false,Option.some.injEq] at grown
      subst grown
      split at zeroed
      · next mapped =>
        cases zeroed
        exact ⟨t,taken,rfl,low,rfl,mapped⟩
      · cases zeroed

theorem takePage_heap (at_root : HeapAt root bufs k.pageHeap) (h : takePage k = some (k',p)) :
    HeapAt root bufs k'.pageHeap ∧ k'.pageHeap.out = p :: k.pageHeap.out := by
  obtain ⟨t,taken,rfl,_,rfl,_⟩ := takePage_some h
  have out := take_out taken
  have inv := at_root.inv.take taken
  have cleared := inv.clear (p := t.ptr) (by rw [out]; exact List.mem_cons_self ..) (Nat.le_refl 4096)
  refine ⟨at_root.congr cleared ?_ ?_,out⟩
  · simp only [Kernel.clear,clear_regions,take_regions taken]
  · intro q hq
    exact out ▸ List.mem_cons_of_mem _ (at_root.bufs q hq)

theorem takePage_source (only : ∀ p, fixed p → p = root) :
    PageSource (HeapAt root bufs) (holdsPage fixed bufs) takePage where
  served k k' p at_root h := by
    obtain ⟨after,out⟩ := takePage_heap at_root h
    obtain ⟨t,_,rfl,_,rfl,_⟩ := takePage_some h
    have taken := after.page (p := t.ptr) (by rw [out]; exact List.mem_cons_self ..)
    have distinct := after.inv.distinct
    rw [out] at distinct
    have unused := (List.nodup_cons.mp distinct).1
    have fresh : ¬holdsPage fixed bufs k.pageHeap t.ptr := by
      rintro (is_root | ⟨member,_⟩)
      · exact taken.2.2.2 (only _ is_root)
      · exact unused member
    have private_page : t.ptr ∉ bufs := fun member => unused (at_root.bufs _ member)
    refine ⟨after,fresh,?_,?_,?_⟩
    · intro q
      simp only [holdsPage,out,List.mem_cons]
      by_cases same : q = t.ptr
      · subst same
        simp [private_page]
      · simp [same]
    · intro i
      have := i.isLt
      simp only [Kernel.clear]
      rw [if_pos (by omega)]
    · intro q held
      have page := at_root.holds only held
      have other : q ≠ t.ptr := fun same => fresh (same ▸ held)
      funext i
      have := i.isLt
      simp only [Kernel.clear]
      rw [if_neg (by omega)]
  usable h q at_root held := by
    obtain ⟨aligned,start,low⟩ := at_root.holds only held
    exact ⟨start,addressable_of_lt aligned low⟩

theorem kPageobjFree_plain (small : ∀ b ∈ k.pageHeap.regions, b.2 ≠ 0x2000000) (p : Nat) :
    kPageobjFree k p = { k with pageHeap := k.pageHeap.free p } := by
  rw [kPageobjFree,Heap.unlinked,(giveTo_kept fun b hb => small _ (List.mem_map_of_mem hb)).1]

theorem free_out {p : Nat} (inv : h.Inv) (member : p ∈ h.out) : (h.free p).out = h.out.erase p := by
  obtain ⟨b,hb,holds⟩ := inv.within p member
  have any : h.blocks.any (·.holds p) = true := List.any_eq_true.mpr ⟨b,hb,holds⟩
  simp only [Heap.free,any,if_true]

theorem kPageobjFree_heap (at_root : HeapAt root bufs k.pageHeap) {p : Nat}
    (member : p ∈ k.pageHeap.out) (unused : p ∉ bufs) :
    HeapAt root bufs (kPageobjFree k p).pageHeap := by
  rw [kPageobjFree_plain at_root.small]
  refine at_root.congr (at_root.inv.free member) (free_regions at_root.small _) fun q hq => ?_
  rw [free_out at_root.inv member,at_root.inv.distinct.mem_erase_iff]
  exact ⟨fun same => unused (same ▸ hq),at_root.bufs q hq⟩

theorem kPageobjFree_sink (root : Nat) (fixed : Nat → Prop) (bufs : List Nat) :
    PageSink (HeapAt root bufs) (holdsPage fixed bufs) fixed kPageobjFree := by
  constructor
  · intro k p at_root held loose
    obtain ⟨member,unused⟩ := held.resolve_left loose
    exact kPageobjFree_heap at_root member unused
  · intro k p at_root held loose q
    obtain ⟨member,unused⟩ := held.resolve_left loose
    rw [kPageobjFree_plain at_root.small]
    simp only [holdsPage,free_out at_root.inv member]
    rw [at_root.inv.distinct.mem_erase_iff]
    constructor
    · rintro (is_fixed | ⟨⟨other,there⟩,not_buf⟩)
      · exact ⟨.inl is_fixed,fun same => loose (same ▸ is_fixed)⟩
      · exact ⟨.inr ⟨there,not_buf⟩,other⟩
    · rintro ⟨is_fixed | ⟨there,not_buf⟩,other⟩
      · exact .inl is_fixed
      · exact .inr ⟨⟨other,there⟩,not_buf⟩
  · intro k p at_root _ _ q _ _
    rw [kPageobjFree_plain at_root.small]

end Pool

end Siegfried
