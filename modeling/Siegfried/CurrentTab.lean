import Siegfried.PageAlloc
import Siegfried.VirtTurns

/-! Which table is in CR3 behind the functions of `page.c` that switch to the kernel's, and
the lookup of a physical address. -/
namespace Siegfried

open Loops

/-- The part that the two lookups share; `unmapped` is returned when there is no table of
`pde`s. They hang when there is none of `pdpte`s. -/
def lookupPaddr (k : Kernel) (tab vir unmapped : Nat) : Option (Kernel × Nat) :=
  let oldPhy := k.cr3
  let k := { k with cr3 := k.pml4Table }
  let off := vir % 0x200000
  let pdptTable := (k.tables tab (pml4i vir)).getPaddr
  if pdptTable = 0 then none
  else
    let pdeiTable := (k.tables pdptTable (pdptei vir)).getPaddr
    if pdeiTable = 0 then some (k,unmapped)
    else some ({ k with cr3 := oldPhy },((k.tables pdeiTable (pdei vir)).getPaddr + off) % 2^64)

def pageLookupPaddr (krnlEnd : Nat) (k : Kernel) (vir : Nat) : Option (Kernel × Nat) :=
  if vir < krnlEnd + 0x400000 then some (k,vir) else lookupPaddr k k.pml4Table vir vir

def pageLookupPaddrTab (k : Kernel) (tab vir : Nat) : Option (Kernel × Nat) :=
  if tab = 0 then none else lookupPaddr k tab vir 0

/-- The calls that switch to the kernel's table. -/
inductive PageCall where
  | lookupPaddr (vir : Nat)
  | lookupPaddrTab (tab vir : Nat)
  | virtFindAddr (pgs : Nat)
  | virtFindAddrUser (tab pgs : Nat)
  | findAndAllocUser (tab vaddr pgs : Nat)
  | freeFound (inVaddr pgs : Nat)
  | freeFoundUser (tab inVaddr pgs : Nat)

/-- The kernel when the call returns. -/
def PageCall.run (krnlEnd fuel : Nat) (alloc : Kernel → Option (Kernel × Nat)) (k : Kernel) :
    PageCall → Option Kernel
  | .lookupPaddr vir => (pageLookupPaddr krnlEnd k vir).map (·.1)
  | .lookupPaddrTab tab vir => (pageLookupPaddrTab k tab vir).map (·.1)
  | .virtFindAddr pgs => (Wide.pageVirtFindAddr fuel k pgs).map (·.1)
  | .virtFindAddrUser tab pgs => (Wide.pageVirtFindAddrUser fuel k tab pgs).map (·.1)
  | .findAndAllocUser tab vaddr pgs => (pageFindAndAllocUser alloc k tab vaddr pgs).map (·.1)
  | .freeFound inVaddr pgs => some (pageFreeFound k inVaddr pgs)
  | .freeFoundUser tab inVaddr pgs => some (pageFreeFoundUser k tab inVaddr pgs)

/-- The entry for the table of `pde`s has the address of one. -/
def HasPdeTable (k : Kernel) (tab vir : Nat) : Prop :=
  (k.tables (k.tables tab (pml4i vir)).getPaddr (pdptei vir)).getPaddr ≠ 0

/-- The search comes to no page for which a table is missing, or is for so many pages that
it skips what is missing. -/
def NoGap (k : Kernel) (tab pgs : Nat) : Prop :=
  ∀ addr addr2, Comes (virtTurn k tab tab pgs) (.outer 0) (.inner addr addr2) →
    addr2 < pgs * 2097152 % 2^64 →
      (look k tab tab ((addr + addr2) % 2^64) = .noTable → 512 * 512 ≤ pgs) ∧
      (look k tab tab ((addr + addr2) % 2^64) = .noPdpt → 512 ≤ pgs)

/-- The kernel's table is current, or no exit without a switch back is taken. -/
def PageCall.Restores (krnlEnd : Nat) (k : Kernel) (call : PageCall) : Prop :=
  k.cr3 = k.pml4Table ∨ match call with
  | .lookupPaddr vir => vir < krnlEnd + 0x400000 ∨ HasPdeTable k k.pml4Table vir
  | .lookupPaddrTab tab vir => HasPdeTable k tab vir
  | .virtFindAddr _ => True
  | .virtFindAddrUser tab pgs => NoGap k tab pgs
  | .findAndAllocUser _ _ _ => True
  | .freeFound _ _ => False
  | .freeFoundUser _ _ _ => True

variable {krnlEnd fuel tab vir unmapped pgs vaddr p addr : Nat} {alloc : Kernel → Option (Kernel × Nat)}
  {k k' : Kernel} {call : PageCall} {r : Kernel × Nat}

theorem lookupPaddr_cr3 (returned : lookupPaddr k tab vir unmapped = some r) :
    r.1.cr3 = k.cr3 ↔ k.cr3 = k.pml4Table ∨ HasPdeTable k tab vir := by
  simp only [lookupPaddr] at returned
  split at returned
  · cases returned
  · split at returned
    · next none =>
      cases returned
      constructor
      · exact fun same => .inl same.symm
      · rintro (same | has)
        · exact same.symm
        · exact absurd none has
    · next has =>
      cases returned
      exact iff_of_true rfl (.inr has)

/-- The turn at which the search returns early. -/
theorem virtTurn_early {q : VirtPos} : virtTurn k tab tab pgs q = .inr (.early addr) ↔
    ∃ addr2, q = .inner addr addr2 ∧ addr2 < pgs * 2097152 % 2^64 ∧
      (look k tab tab ((addr + addr2) % 2^64) = .noTable ∧ pgs < 512 * 512 ∨
        look k tab tab ((addr + addr2) % 2^64) = .noPdpt ∧ pgs < 512) := by
  cases q with
  | outer a =>
    simp only [virtTurn]
    constructor
    · intro stop
      split at stop <;> cases stop
    · rintro ⟨_,same,_⟩
      cases same
  | inner a addr2 =>
    by_cases done : pgs * 2097152 % 2^64 ≤ addr2
    · rw [virtTurn,if_pos done]
      constructor
      · rintro ⟨⟩
      · rintro ⟨_,same,more,_⟩
        cases same
        omega
    rw [virtTurn,if_neg done]
    constructor
    · intro stop
      cases found : look k tab tab ((a + addr2) % 2^64) with
      | noTable =>
        rw [found] at stop
        by_cases few : pgs < 512 * 512
        · cases (if_pos few).symm.trans stop
          exact ⟨addr2,rfl,Nat.lt_of_not_le done,.inl ⟨found,few⟩⟩
        · cases (if_neg few).symm.trans stop
      | noPdpt =>
        rw [found] at stop
        by_cases few : pgs < 512
        · cases (if_pos few).symm.trans stop
          exact ⟨addr2,rfl,Nat.lt_of_not_le done,.inr ⟨found,few⟩⟩
        · cases (if_neg few).symm.trans stop
      | large | taken | free =>
        rw [found] at stop
        cases stop
    · rintro ⟨_,same,_,missing⟩
      cases same
      rcases missing with ⟨found,few⟩ | ⟨found,few⟩
      · rw [found]
        exact if_pos few
      · rw [found]
        exact if_pos few

theorem noGap_iff : NoGap k tab pgs ↔
    ∀ q addr, Comes (virtTurn k tab tab pgs) (.outer 0) q → virtTurn k tab tab pgs q ≠ .inr (.early addr) := by
  constructor
  · intro none q addr comes stop
    obtain ⟨addr2,rfl,more,missing⟩ := virtTurn_early.mp stop
    have gap := none addr addr2 comes more
    rcases missing with ⟨found,few⟩ | ⟨found,few⟩
    · exact absurd (gap.1 found) (Nat.not_le.mpr few)
    · exact absurd (gap.2 found) (Nat.not_le.mpr few)
  · intro none addr addr2 comes more
    have never := none _ addr comes
    constructor
    · intro found
      by_contra few
      exact never (virtTurn_early.mpr ⟨addr2,rfl,more,.inl ⟨found,by omega⟩⟩)
    · intro found
      by_contra few
      exact never (virtTurn_early.mpr ⟨addr2,rfl,more,.inr ⟨found,by omega⟩⟩)

theorem pageVirtFindAddr_cr3 (returned : Wide.pageVirtFindAddr fuel k pgs = some r) :
    r.1.cr3 = k.cr3 := by
  obtain ⟨e,_,rfl⟩ := Option.map_eq_some_iff.mp returned
  cases e <;> rfl

theorem pageVirtFindAddrUser_cr3 (returned : Wide.pageVirtFindAddrUser fuel k tab pgs = some r) :
    r.1.cr3 = k.cr3 ↔ k.cr3 = k.pml4Table ∨ NoGap k tab pgs := by
  obtain ⟨e,ends,rfl⟩ := Option.map_eq_some_iff.mp returned
  have same : virtTurn { k with cr3 := k.pml4Table } tab tab pgs = virtTurn k tab tab pgs := virtTurn_congr rfl
  rw [same] at ends
  -- the loop has one end
  have only (q : VirtPos) (e' : VirtEnd) (comes : Comes (virtTurn k tab tab pgs) (.outer 0) q)
      (stop : virtTurn k tab tab pgs q = .inr e') : e = e' := by
    obtain ⟨fuel',ends'⟩ := run_iff.mpr ⟨q,comes,stop⟩
    exact run_unique ends ends'
  cases e with
  | dead =>
    refine iff_of_true rfl (.inr (noGap_iff.mpr fun q addr comes stop => ?_))
    cases only q _ comes stop
  | free a =>
    refine iff_of_true rfl (.inr (noGap_iff.mpr fun q addr comes stop => ?_))
    cases only q _ comes stop
  | early a =>
    obtain ⟨q,comes,stop⟩ := run_comes ends
    constructor
    · exact fun same => .inl same.symm
    · rintro (same | none)
      · exact same.symm
      · exact absurd stop (noGap_iff.mp none q a comes)

theorem pageFindAndAllocUser_cr3 (returned : pageFindAndAllocUser alloc k tab vaddr pgs = some r) :
    r.1.cr3 = k.cr3 := by
  simp only [pageFindAndAllocUser,Option.bind_eq_bind,Option.bind_eq_some_iff] at returned
  obtain ⟨_,_,returned⟩ := returned
  split at returned
  · cases returned
    rfl
  · split at returned
    · cases returned
    · simp only [Option.bind_eq_some_iff] at returned
      obtain ⟨_,_,_,_,returned⟩ := returned
      cases returned
      rfl

/-- A call that returns leaves CR3 as it was exactly when the kernel's table was current or
no exit without a switch back is taken. -/
theorem cr3_restored_iff (returned : call.run krnlEnd fuel alloc k = some k') :
    k'.cr3 = k.cr3 ↔ call.Restores krnlEnd k := by
  cases call with
  | lookupPaddr vir =>
    obtain ⟨r,ran,rfl⟩ := Option.map_eq_some_iff.mp returned
    rw [pageLookupPaddr] at ran
    split at ran
    · next low =>
      cases ran
      exact iff_of_true rfl (.inr (.inl low))
    · next high =>
      rw [lookupPaddr_cr3 ran,PageCall.Restores]
      simp [high]
  | lookupPaddrTab tab vir =>
    obtain ⟨r,ran,rfl⟩ := Option.map_eq_some_iff.mp returned
    rw [pageLookupPaddrTab] at ran
    split at ran
    · cases ran
    · exact lookupPaddr_cr3 ran
  | virtFindAddr pgs =>
    obtain ⟨r,ran,rfl⟩ := Option.map_eq_some_iff.mp returned
    exact iff_of_true (pageVirtFindAddr_cr3 ran) (.inr trivial)
  | virtFindAddrUser tab pgs =>
    obtain ⟨r,ran,rfl⟩ := Option.map_eq_some_iff.mp returned
    exact pageVirtFindAddrUser_cr3 ran
  | findAndAllocUser tab vaddr pgs =>
    obtain ⟨r,ran,rfl⟩ := Option.map_eq_some_iff.mp returned
    exact iff_of_true (pageFindAndAllocUser_cr3 ran) (.inr trivial)
  | freeFound inVaddr pgs =>
    cases returned
    constructor
    · exact fun same => .inl same.symm
    · rintro (same | never)
      · exact same.symm
      · exact never.elim
  | freeFoundUser tab inVaddr pgs =>
    cases returned
    exact iff_of_true rfl (.inr trivial)

/-- No table has an entry; the one at 0x9000 is current, the kernel's is at 0x1000. -/
def blankKernel : Kernel where
  tables := fun _ _ => .zero
  pageHeap := kPageobjInitHeap 4096
  physMemMap := fun _ => false
  availMem := []
  cr3 := 0x9000
  pml4Table := 0x1000
  ram := fun _ => 0

/-- 2^18 pages are looked for, so what is missing is skipped. -/
theorem cr3_restored_iff_many : ∃ k', (PageCall.virtFindAddrUser 0x9000 (512 * 512)).run 0 4 (fun _ => none)
    blankKernel = some k' ∧ (k'.cr3 = blankKernel.cr3 ↔
      (PageCall.virtFindAddrUser 0x9000 (512 * 512)).Restores 0 blankKernel) := by
  have returned : (PageCall.virtFindAddrUser 0x9000 (512 * 512)).run 0 4 (fun _ => none) blankKernel =
      some blankKernel := rfl
  exact ⟨blankKernel,returned,cr3_restored_iff returned⟩

/-- A search for one page in a table without entries leaves the kernel's table in CR3. -/
theorem cr3_lost : ¬∀ krnlEnd fuel alloc k k' (call : PageCall),
    call.run krnlEnd fuel alloc k = some k' → k'.cr3 = k.cr3 := by
  intro all
  have returned : (PageCall.virtFindAddrUser 0x9000 1).run 0 2 (fun _ => none) blankKernel =
      some { blankKernel with cr3 := 0x1000 } := rfl
  exact absurd (all 0 2 (fun _ => none) blankKernel _ _ returned) (by decide)

end Siegfried
