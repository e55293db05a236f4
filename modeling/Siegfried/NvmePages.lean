import Siegfried.PagePool
import Siegfried.NvmeTransfer

/-! The pages that `nvme_send_io_cmd` takes from `page_heap`, and those that it gives back
(`nvme.c`). -/
namespace Siegfried

/-- `k_pageobj_alloc(&page_heap, 4096)` called again and again: the pages it returned, and
those that growth took for page tables in between. -/
inductive Takes : Heap → List Nat → List Nat → Heap → Prop where
  | nil (h : Heap) : Takes h [] [] h
  | plain {h h' : Heap} {t : Taken Heap} {pages tables : List Nat} (taken : h.take = some t)
    (low : t.grows = false) (tail : Takes (t.rest.clear t.ptr (t.ptr + 4096)) pages tables h') :
    Takes h (t.ptr :: pages) tables h'
  | grow {h mid h' : Heap} {t : Taken Heap} {nested deeper pages tables : List Nat} {addr : Nat}
    (taken : h.take = some t) (low : t.grows = true) (inner : Takes t.rest nested deeper mid)
    (region : mid.Region addr (2097152 * 2))
    (tail : Takes ((kPageobjAddHeapblk mid addr (2097152 * 2)).clear t.ptr (t.ptr + 4096)) pages tables h') :
    Takes h (t.ptr :: pages) (nested ++ deeper ++ tables) h'

/-- How many pages are behind `prp2_vm`. -/
def numListed (numSects : UInt64) : Nat := if 8 ≤ numSects then (listEnts numSects).toNat else 0

/-- The loop over `prp2_vm`; behind the last page there is a zero. -/
def freeListed : List Nat → Int → List Nat
  | [], _ => []
  | p :: ps, left => if p ≠ 0 ∧ 0 < left then p :: freeListed ps (left - 4096) else []

/-- The calls of `k_pageobj_free`. -/
def givesBack (numSects : UInt64) (prp1 prp2Vm prp2 : Nat) (listed : List Nat) : List Nat :=
  prp1 :: ((if 8 ≤ numSects then
    if numSects - 8 = 1 then [] else freeListed listed (toLong (numSects * 512 - 4096))
  else []) ++ [prp2,prp2Vm])

/-- The pages that commands took, that they gave back and that growth took, and the heap
behind them. -/
structure IoPages where
  taken : List Nat
  given : List Nat
  tables : List Nat
  heap : Heap

/-- Commands with their numbers of sectors one after another, on `page_heap`. After a list
of more than 512 pages has been stored in the pages for it nothing is known. -/
inductive DiskReads (h : Heap) : List UInt64 → Option IoPages → Prop where
  | nil : DiskReads h [] (some ⟨[],[],[],h⟩)
  | cmd {nums : List UInt64} {numSects : UInt64} {s : IoPages} {h' : Heap} {prp1 prp2Vm prp2 : Nat}
    {listed tables : List Nat} (before : DiskReads h nums (some s)) (short : numListed numSects ≤ 512)
    (length : listed.length = numListed numSects)
    (takes : Takes s.heap (prp1 :: prp2Vm :: prp2 :: listed) tables h') :
    DiskReads h (nums ++ [numSects]) (some ⟨s.taken ++ prp1 :: prp2Vm :: prp2 :: listed,
      s.given ++ givesBack numSects prp1 prp2Vm prp2 listed,s.tables ++ tables,
      (givesBack numSects prp1 prp2Vm prp2 listed).foldl Heap.free h'⟩)
  | stray {nums : List UInt64} {numSects : UInt64} {s : IoPages} (before : DiskReads h nums (some s))
    (long : 512 < numListed numSects) : DiskReads h (nums ++ [numSects]) none

/-- Each page that was taken has been given back once, and the pages that are out are the
ones that were out before and those of page tables. -/
def PagesReturned (h : Heap) (o : Option IoPages) : Prop :=
  ∃ s, o = some s ∧ s.given.Perm s.taken ∧ s.heap.out.Perm (s.tables ++ h.out)

/-- As many pages are out as before. -/
def PagesUnchanged (h : Heap) (o : Option IoPages) : Prop :=
  ∃ s, o = some s ∧ s.heap.out.length = h.out.length

/-- Up to 7 sectors, or a list of at most 512 pages with a last one that is not full; but not
9. Only the lower 55 bits count for the list. -/
def Balances (numSects : UInt64) : Prop :=
  numSects.toNat < 8 ∨ numSects.toNat ≠ 9 ∧ 8 ≤ numSects.toNat % 2^55 ∧ numSects.toNat % 2^55 ≤ 4103 ∧
    numSects.toNat % 8 ≠ 0

instance (numSects : UInt64) : Decidable (Balances numSects) := inferInstanceAs (Decidable (_ ∨ _))

variable {h h' : Heap} {pages tables listed : List Nat} {numSects : UInt64} {nums : List UInt64}
  {o : Option IoPages}

/-- The calls keep the heap invariant and add what they take to the pages that are out. -/
theorem Takes.out (takes : Takes h pages tables h') (inv : h.Inv) :
    h'.Inv ∧ h'.out.Perm (pages ++ tables ++ h.out) := by
  induction takes with
  | nil h => exact ⟨inv,.refl _⟩
  | @plain h h' t pages tables taken low tail ih =>
    have out := take_out taken
    have cleared := (inv.take taken).clear (out ▸ List.mem_cons_self ..) (Nat.le_refl 4096)
    obtain ⟨inv',perm⟩ := ih cleared
    have perm : h'.out.Perm (pages ++ tables ++ (t.ptr :: h.out)) := out ▸ perm
    exact ⟨inv',perm.trans List.perm_middle⟩
  | @grow h mid h' t nested deeper pages tables addr taken low inner region tail ihInner ihTail =>
    have out := take_out taken
    obtain ⟨midInv,midOut⟩ := ihInner (inv.take taken)
    have midOut : mid.out.Perm (nested ++ deeper ++ (t.ptr :: h.out)) := out ▸ midOut
    have here : t.ptr ∈ mid.out := midOut.mem_iff.mpr (by simp)
    obtain ⟨inv',perm⟩ := ihTail ((midInv.add region (by decide)).clear here (Nat.le_refl 4096))
    have perm : h'.out.Perm (pages ++ tables ++ mid.out) := perm
    refine ⟨inv',List.perm_iff_count.mpr fun p => ?_⟩
    have all := perm.count_eq p
    have before := midOut.count_eq p
    simp only [List.count_append,List.count_cons] at all before ⊢
    omega

/-- Pages that are out are no longer out when they have been given back. -/
theorem frees_out {rest : List Nat} (inv : h.Inv) (out : h.out.Perm (pages ++ rest)) :
    (pages.foldl Heap.free h).Inv ∧ (pages.foldl Heap.free h).out.Perm rest := by
  induction pages generalizing h with
  | nil => exact ⟨inv,out⟩
  | cons p pages ih =>
    have member : p ∈ h.out := out.mem_iff.mpr List.mem_cons_self
    apply ih (inv.free member)
    rw [free_out inv member]
    have erased := out.erase p
    rwa [List.cons_append,List.erase_cons_head] at erased

/-- The loop stops with the bytes that are left. -/
theorem freeListed_take (pages : ∀ p ∈ listed, p ≠ 0) (left : Int) :
    freeListed listed left = listed.take ((left + 4095) / 4096).toNat := by
  induction listed generalizing left with
  | nil => rw [freeListed,List.take_nil]
  | cons p ps ih =>
    rw [freeListed]
    by_cases more : 0 < left
    · have next : ((left + 4095) / 4096).toNat = ((left - 4096 + 4095) / 4096).toNat + 1 := by omega
      rw [if_pos ⟨pages p List.mem_cons_self,more⟩,next,List.take_succ_cons,
        ih fun q member => pages q (List.mem_cons_of_mem _ member)]
    · have last : ((left + 4095) / 4096).toNat = 0 := by omega
      rw [if_neg fun both => more both.2,last,List.take_zero]

/-- The bytes behind the first page. -/
theorem left_toNat (big : 8 ≤ numSects.toNat % 2^55) :
    (numSects * 512 - 4096).toNat = numSects.toNat % 2^55 * 512 - 4096 := by
  have bytes : (numSects * 512).toNat = numSects.toNat % 2^55 * 512 := by
    rw [UInt64.toNat_mul,toNat_512]
    omega
  have page : (4096 : UInt64).toNat = 4096 := rfl
  rw [UInt64.toNat_sub_of_le _ _ (UInt64.le_iff_toNat_le.mpr (by rw [bytes,page]; omega)),bytes,page]

theorem left_wraps (small : numSects.toNat % 2^55 < 8) :
    (numSects * 512 - 4096).toNat = 2^64 - 4096 + numSects.toNat % 2^55 * 512 := by
  have bytes : (numSects * 512).toNat = numSects.toNat % 2^55 * 512 := by
    rw [UInt64.toNat_mul,toNat_512]
    omega
  have page : (4096 : UInt64).toNat = 4096 := rfl
  rw [UInt64.toNat_sub,bytes,page]
  omega

/-- How many pages a list has that fits into a page. -/
theorem numListed_short (big : 8 ≤ numSects) : numListed numSects ≤ 512 ↔
    8 ≤ numSects.toNat % 2^55 ∧ numSects.toNat % 2^55 ≤ 4103 := by
  have page : (4096 : UInt64).toNat = 4096 := rfl
  have one : (1 : UInt64).toNat = 1 := rfl
  rw [numListed,if_pos big,listEnts,UInt64.toNat_add,UInt64.toNat_div,page,one]
  by_cases enough : 8 ≤ numSects.toNat % 2^55
  · rw [left_toNat enough]
    omega
  · rw [left_wraps (Nat.not_le.mp enough)]
    omega

theorem numListed_eq (big : 8 ≤ numSects) (enough : 8 ≤ numSects.toNat % 2^55) :
    numListed numSects = (numSects.toNat % 2^55 - 8) / 8 + 1 := by
  have page : (4096 : UInt64).toNat = 4096 := rfl
  have one : (1 : UInt64).toNat = 1 := rfl
  rw [numListed,if_pos big,listEnts,UInt64.toNat_add,UInt64.toNat_div,page,one,left_toNat enough]
  omega

theorem givesBack_small (small : ¬ 8 ≤ numSects) (prp1 prp2Vm prp2 : Nat) (listed : List Nat) :
    givesBack numSects prp1 prp2Vm prp2 listed = [prp1,prp2,prp2Vm] := by
  rw [givesBack,if_neg small]
  rfl

theorem givesBack_nine (nine : numSects = 9) (prp1 prp2Vm prp2 : Nat) (listed : List Nat) :
    givesBack numSects prp1 prp2Vm prp2 listed = [prp1,prp2,prp2Vm] := by
  subst nine
  rfl

/-- The rounded number of pages that the loop reaches. -/
theorem givesBack_listed (big : 8 ≤ numSects) (nine : numSects.toNat ≠ 9)
    (enough : 8 ≤ numSects.toNat % 2^55) (short : numSects.toNat % 2^55 ≤ 4103)
    (pages : ∀ p ∈ listed, p ≠ 0) (prp1 prp2Vm prp2 : Nat) :
    givesBack numSects prp1 prp2Vm prp2 listed =
      prp1 :: (listed.take ((numSects.toNat % 2^55 - 1) / 8) ++ [prp2,prp2Vm]) := by
  have eight : (8 : UInt64).toNat = 8 := rfl
  have one : (1 : UInt64).toNat = 1 := rfl
  have other : ¬ numSects - 8 = 1 := by
    intro same
    have value := congrArg UInt64.toNat same
    rw [UInt64.toNat_sub_of_le _ _ big,eight,one] at value
    have least := UInt64.le_iff_toNat_le.mp big
    rw [eight] at least
    omega
  have bytes := left_toNat enough
  have left : toLong (numSects * 512 - 4096) = ((numSects.toNat % 2^55 * 512 - 4096 : Nat) : Int) := by
    rw [toLong,bytes]
    exact if_pos (by omega)
  have reached : ((toLong (numSects * 512 - 4096) + 4095) / 4096).toNat =
      (numSects.toNat % 2^55 - 1) / 8 := by
    rw [left]
    omega
  rw [givesBack,if_pos big,if_neg other,freeListed_take pages,reached]

/-- What a command does not give back of the pages behind `prp2_vm`. -/
theorem givesBack_leaves (short : numListed numSects ≤ 512) (length : listed.length = numListed numSects)
    (all : ∀ p ∈ listed, p ≠ 0) (prp1 prp2Vm prp2 : Nat) : ∃ lost,
      (prp1 :: prp2Vm :: prp2 :: listed).Perm (givesBack numSects prp1 prp2Vm prp2 listed ++ lost) ∧
      (lost = [] ↔ Balances numSects) := by
  have eight : (8 : UInt64).toNat = 8 := rfl
  by_cases big : 8 ≤ numSects
  · have least := UInt64.le_iff_toNat_le.mp big
    rw [eight] at least
    have ⟨enough,upper⟩ := (numListed_short big).mp short
    have many := numListed_eq big enough
    by_cases nine : numSects.toNat = 9
    · refine ⟨listed,?_,?_⟩
      · rw [givesBack_nine (UInt64.toNat_inj.mp nine)]
        exact (List.Perm.swap ..).cons prp1
      · rw [Balances,← List.length_eq_zero_iff,length,many]
        omega
    · refine ⟨listed.drop ((numSects.toNat % 2^55 - 1) / 8),?_,?_⟩
      · rw [givesBack_listed big nine enough upper all]
        have parts := List.take_append_drop ((numSects.toNat % 2^55 - 1) / 8) listed
        refine List.perm_iff_count.mpr fun p => ?_
        have count := congrArg (List.count p) parts
        simp only [List.count_append,List.count_cons,List.count_nil] at count ⊢
        omega
      · rw [List.drop_eq_nil_iff,length,many,Balances]
        omega
  · have below : numSects.toNat < 8 := by
      rw [UInt64.le_iff_toNat_le,eight] at big
      omega
    have none : listed = [] := List.length_eq_zero_iff.mp (by rw [length,numListed,if_neg big])
    refine ⟨[],?_,⟨fun _ => .inl below,fun _ => rfl⟩⟩
    rw [givesBack_small big,none]
    exact (List.Perm.swap ..).cons prp1

/-- The pages that were not given back, after any number of commands. -/
theorem diskReads_lost (inv : h.Inv) (reads : DiskReads h nums o) : ∀ s, o = some s → s.heap.Inv ∧
    ∃ lost, s.taken.Perm (s.given ++ lost) ∧ s.heap.out.Perm (lost ++ s.tables ++ h.out) ∧
      (lost = [] ↔ ∀ n ∈ nums, Balances n) := by
  induction reads with
  | nil =>
    rintro s ⟨⟩
    exact ⟨inv,[],.refl _,.refl _,by simp⟩
  | @cmd nums numSects s h' prp1 prp2Vm prp2 listed tables before short length takes ih =>
    rintro s' ⟨⟩
    obtain ⟨inv',lost,kept,out,every⟩ := ih s rfl
    obtain ⟨takenInv,takenOut⟩ := takes.out inv'
    have pages : ∀ p ∈ listed, p ≠ 0 := by
      intro p member
      have there : p ∈ h'.out := takenOut.mem_iff.mpr (by simp [member])
      obtain ⟨_,_,_,_,start,_⟩ := takenInv.page there
      omega
    obtain ⟨left,leaves,balanced⟩ := givesBack_leaves short length pages prp1 prp2Vm prp2
    have apart : h'.out.Perm (givesBack numSects prp1 prp2Vm prp2 listed ++
        (left ++ tables ++ s.heap.out)) := by
      refine takenOut.trans (List.perm_iff_count.mpr fun p => ?_)
      have count := leaves.count_eq p
      simp only [List.count_append] at count ⊢
      omega
    obtain ⟨freeInv,freeOut⟩ := frees_out takenInv apart
    refine ⟨freeInv,lost ++ left,?_,?_,?_⟩
    · refine List.perm_iff_count.mpr fun p => ?_
      have first := kept.count_eq p
      have second := leaves.count_eq p
      simp only [List.count_append] at first second ⊢
      omega
    · refine freeOut.trans (List.perm_iff_count.mpr fun p => ?_)
      have count := out.count_eq p
      simp only [List.count_append] at count ⊢
      omega
    · rw [List.append_eq_nil_iff,every,balanced]
      constructor
      · rintro ⟨earlier,last⟩ n member
        rcases List.mem_append.mp member with old | new
        · exact earlier n old
        · rwa [List.mem_singleton.mp new]
      · intro each
        exact ⟨fun n member => each n (List.mem_append_left _ member),each numSects (by simp)⟩
  | stray before long ih => rintro s ⟨⟩

/-- A list that needs more than one page does not balance. -/
theorem diskReads_stray (reads : DiskReads h nums o) (none : o = none) : ∃ n ∈ nums, ¬ Balances n := by
  cases reads with
  | nil => cases none
  | cmd => cases none
  | @stray nums numSects s before long =>
    refine ⟨numSects,by simp,fun balances => ?_⟩
    by_cases big : 8 ≤ numSects
    · have upper := (numListed_short big).not.mp (Nat.not_le.mpr long)
      have least := UInt64.le_iff_toNat_le.mp big
      have eight : (8 : UInt64).toNat = 8 := rfl
      rw [eight] at least
      rcases balances with small | ⟨_,enough,short,_⟩
      · omega
      · exact upper ⟨enough,short⟩
    · rw [numListed,if_neg big] at long
      omega

/-- Any sequence of commands returns its pages exactly when each of its numbers of sectors
balances; then the number of pages that are out changes only with the page tables of growth. -/
theorem disk_reads_return_iff (run : HeapRun Fits h) (reads : DiskReads h nums o) :
    (PagesReturned h o ↔ ∀ n ∈ nums, Balances n) ∧
    (PagesUnchanged h o ↔ (∀ n ∈ nums, Balances n) ∧ ∀ s, o = some s → s.tables = []) := by
  cases found : o with
  | none =>
    obtain ⟨n,member,not⟩ := diskReads_stray reads found
    constructor <;> constructor
    · rintro ⟨s,same,_⟩
      cases same
    · exact fun each => absurd (each n member) not
    · rintro ⟨s,same,_⟩
      cases same
    · exact fun each => absurd (each.1 n member) not
  | some s =>
    obtain ⟨_,lost,kept,out,every⟩ := diskReads_lost run.inv reads s found
    rw [← every]
    constructor <;> constructor
    · rintro ⟨s',same,all,_⟩
      cases same
      have count := kept.length_eq
      rw [List.length_append,all.length_eq] at count
      exact List.length_eq_zero_iff.mp (by omega)
    · rintro rfl
      rw [List.append_nil] at kept
      exact ⟨s,rfl,kept.symm,out⟩
    · rintro ⟨s',same,number⟩
      cases same
      have count := out.length_eq
      rw [number,List.length_append,List.length_append] at count
      refine ⟨List.length_eq_zero_iff.mp (by omega),?_⟩
      rintro _ ⟨⟩
      exact List.length_eq_zero_iff.mp (by omega)
    · rintro ⟨rfl,none⟩
      have count := out.length_eq
      rw [none s rfl] at count
      exact ⟨s,rfl,count⟩

/-- A block with free slots serves calls without growth. -/
theorem takes_room {b : Block} {bs : List Block} (blocks : h.blocks = b :: bs) {n : Nat}
    (room : b.top + n + 2 < b.max) (small : b.max < 2^32) :
    ∃ pages h', pages.length = n ∧ Takes h pages [] h' := by
  induction n generalizing h b bs with
  | zero => exact ⟨[],h,rfl,.nil h⟩
  | succ n ih =>
    have more : b.top ≠ b.max := by omega
    have plenty : ¬(b.max + 2^32 - (b.top + 1)) % 2^32 < 3 := by omega
    let rest : Heap := { h with
      blocks := (b.take h.bsize).rest :: bs
      out := (b.take h.bsize).ptr :: h.out }
    have taken : h.take = some ⟨(b.take h.bsize).ptr,(b.take h.bsize).grows,rest⟩ := by
      rw [Heap.take,blocks,takeFrom,if_pos more]
      rfl
    have low : (b.take h.bsize).grows = false := by
      simp only [Block.take,decide_eq_false plenty,Bool.false_and]
    have after : b.top + 1 + n + 2 < b.max := by omega
    obtain ⟨pages,h',length,tail⟩ :=
      ih (h := rest.clear (b.take h.bsize).ptr ((b.take h.bsize).ptr + 4096)) rfl after small
    exact ⟨_,h',congrArg (· + 1) length,.plain taken low tail⟩

/-- The heap of the boot code, before its first page. -/
def bootHeap : Heap := kPageobjAddHeapblk (kPageobjInitHeap 4096) 0x1800000 0x800000

theorem bootHeap_run : HeapRun Fits bootHeap :=
  HeapRun.init.add ⟨by decide,by decide,by decide,by decide,by simp [kPageobjInitHeap]⟩ (by decide)

theorem bootHeap_takes {n : Nat} (few : n ≤ 100) :
    ∃ pages h', pages.length = n ∧ Takes bootHeap pages [] h' := by
  have slots : slotres 4096 2047 = 4 := by decide
  refine takes_room rfl (?_ : slotres 4096 2047 + n + 2 < 2047) (by decide : 2047 < 2^32)
  omega

theorem numListed_one : numListed 1 = 0 := if_neg (by decide)

theorem balances_one : ∀ n ∈ [] ++ [(1 : UInt64)], Balances n :=
  List.forall_mem_singleton.mpr (.inl (show (1 : UInt64).toNat < 8 by decide))

theorem numListed_eight : numListed 8 = 1 := numListed_eq (by decide) (by decide)

/-- A command for one sector. -/
theorem disk_reads_return_one : ∃ o, DiskReads bootHeap [1] o ∧ PagesReturned bootHeap o ∧
    PagesUnchanged bootHeap o := by
  obtain ⟨pages,h',length,takes⟩ := bootHeap_takes (n := 3) (by decide)
  match pages,length,takes with
  | [prp1,prp2Vm,prp2],_,takes =>
    have reads : DiskReads bootHeap ([] ++ [1]) _ :=
      .cmd .nil (by decide) (show List.length ([] : List Nat) = numListed 1 from numListed_one.symm) takes
    obtain ⟨returned,unchanged⟩ := disk_reads_return_iff bootHeap_run reads
    refine ⟨_,reads,returned.mpr balances_one,unchanged.mpr ⟨balances_one,?_⟩⟩
    rintro s ⟨⟩
    rfl

/-- A command for eight sectors takes a page for the list that it never gives back. -/
theorem disk_reads_keep_page : ¬∀ h nums o, HeapRun Fits h → (∀ n ∈ nums, 1 ≤ n) → DiskReads h nums o →
    PagesReturned h o := by
  intro all
  have eight : (1 : UInt64) ≤ 8 := by decide
  obtain ⟨pages,h',length,takes⟩ := bootHeap_takes (n := 4) (by decide)
  match pages,length,takes with
  | [prp1,prp2Vm,prp2,p],_,takes =>
    have reads : DiskReads bootHeap ([] ++ [8]) _ :=
      .cmd .nil (by decide) (show [p].length = numListed 8 from numListed_eight.symm) takes
    obtain ⟨s,same,given,_⟩ := all bootHeap _ _ bootHeap_run (List.forall_mem_singleton.mpr eight) reads
    cases same
    have stops : freeListed [p] (toLong (8 * 512 - 4096)) = [] :=
      if_neg fun more => absurd more.2 (by decide)
    have back : givesBack 8 prp1 prp2Vm prp2 [p] = [prp1,prp2,prp2Vm] := by
      change prp1 :: (freeListed [p] (toLong (8 * 512 - 4096)) ++ [prp2,prp2Vm]) = _
      rw [stops]
      rfl
    have count := given.length_eq
    rw [back] at count
    cases count

end Siegfried
