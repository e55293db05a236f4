import Siegfried.PageTable

/-! `page_virt_find_addr` and `page_virt_find_addr_user`: the first-fit search for a run
of virtual pages. -/
namespace Siegfried

/-- How one pass of the inner loop ends: a present page was met, the run is free, or
the loop was left early because a whole table is missing. -/
inductive Probe where
  | taken (addr : Nat)
  | free (addr : Nat)
  | early (addr : Nat)

/-- The inner loop. `top` is the table whose `pml4e`s are tested for presence and `tab`
the one whose `pdpte`s are read. Every round adds at least 2 MB to `addr2`, so `pgs`
rounds end it. -/
def probe (k : Kernel) (top tab pgs : Nat) : Nat → Nat → Nat → Probe
  | 0, addr, _ => .free addr
  | n + 1, addr, addr2 =>
    if pgs * 2097152 ≤ addr2 then .free addr
    else
      let targ2 := addr + addr2
      if !(k.tables top (pml4i targ2)).present then
        if pgs < 512 * 512 then .early addr
        else probe k top tab pgs n addr (addr2 + (549755813888 - addr2 % 549755813888))
      else
        let pdptTable := (k.tables tab (pml4i targ2)).getPaddr
        let pdpte := k.tables pdptTable (pdptei targ2)
        if !pdpte.present then
          if pgs < 512 then .early addr
          else probe k top tab pgs n addr (addr2 + (1073741824 - addr2 % 1073741824))
        else if pdpte.ps then
          probe k top tab pgs n (addr + (1073741824 - addr % 1073741824)) (addr2 + 2097152)
        else if (k.tables pdpte.getPaddr (pdei targ2)).present then .taken addr
        else probe k top tab pgs n addr (addr2 + 2097152)

/-- The outer loop. Every round adds at least 2 MB to `addr`, so `2^27` rounds end it. -/
def search (k : Kernel) (top tab pgs : Nat) : Nat → Nat → Probe
  | 0, _ => .free 0xDEAD
  | n + 1, addr =>
    if 0xFFFFFFFFFFFF ≤ addr then .free 0xDEAD
    else match probe k top tab pgs pgs addr 0 with
      | .taken addr => search k top tab pgs n (addr + 2097152)
      | result => result

/-- The table in CR3 is switched to the kernel's and back, but the `pdpte`s are those
of the table that was current. -/
def pageVirtFindAddr (k : Kernel) (pgs : Nat) : Nat :=
  match search k k.pml4Table k.cr3 pgs (2^27) 0 with
  | .taken addr | .free addr | .early addr => addr

/-- The early exits leave the kernel's table in CR3. -/
def pageVirtFindAddrUser (k : Kernel) (tab pgs : Nat) : Kernel × Nat :=
  match search k tab tab pgs (2^27) 0 with
  | .taken addr | .free addr => (k,addr)
  | .early addr => ({ k with cr3 := k.pml4Table },addr)

def Probe.addr : Probe → Nat
  | .taken addr | .free addr | .early addr => addr

theorem probe_aligned (k : Kernel) (top tab pgs n addr addr2 : Nat) (aligned : addr % 2097152 = 0) :
    (probe k top tab pgs n addr addr2).addr % 2097152 = 0 := by
  induction n generalizing addr addr2 with
  | zero => exact aligned
  | succ n ih =>
    simp only [probe]
    repeat' split
    · exact aligned
    · exact aligned
    · exact ih _ _ aligned
    · exact aligned
    · exact ih _ _ aligned
    · exact ih _ _ (by omega)
    · exact aligned
    · exact ih _ _ aligned

theorem search_aligned (k : Kernel) (top tab pgs n addr : Nat) (aligned : addr % 2097152 = 0) :
    (search k top tab pgs n addr).addr = 0xDEAD ∨
      (search k top tab pgs n addr).addr % 2097152 = 0 := by
  induction n generalizing addr with
  | zero => exact .inl rfl
  | succ n ih =>
    have inner := probe_aligned k top tab pgs pgs addr 0 aligned
    simp only [search]
    split
    · exact .inl rfl
    · cases result : probe k top tab pgs pgs addr 0 with
      | taken addr =>
        rw [result] at inner
        have inner : addr % 2097152 = 0 := inner
        exact ih _ (by omega)
      | free addr => exact .inr (by rwa [result] at inner)
      | early addr => exact .inr (by rwa [result] at inner)

theorem pageVirtFindAddr_aligned {k : Kernel} {pgs : Nat} (found : pageVirtFindAddr k pgs ≠ 0xDEAD) :
    pageVirtFindAddr k pgs % 2097152 = 0 := by
  have value : pageVirtFindAddr k pgs = (search k k.pml4Table k.cr3 pgs (2^27) 0).addr := by
    rw [pageVirtFindAddr]
    cases search k k.pml4Table k.cr3 pgs (2^27) 0 <;> rfl
  rw [value] at found ⊢
  exact (search_aligned k k.pml4Table k.cr3 pgs (2^27) 0 rfl).resolve_left found

section Search
variable {good : Heap → Prop} {owns : Heap → Nat → Prop} {alloc : Kernel → Option (Kernel × Nat)}
  {roots : List Nat} {k : Kernel} {r : Nat}

/-- Both upper levels are present at an address. -/
def Kernel.region (k : Kernel) (tab v : Nat) : Prop :=
  ∃ pd, Forest.walk Entry.child k.tables tab [pml4i v,pdptei v] = some pd

theorem Kernel.region_congr {tab v w : Nat} (same : v / 2^30 = w / 2^30) :
    k.region tab v ↔ k.region tab w := by
  have top : pml4i v = pml4i w := Fin.ext (by simp only [pml4i]; omega)
  have middle : pdptei v = pdptei w := Fin.ext (by simp only [pdptei]; omega)
  rw [Kernel.region,Kernel.region,top,middle]

theorem Kernel.mapping_none {tab v : Nat} (absent : ¬k.region tab v) : k.mapping tab v = none := by
  have walk : Forest.walk Entry.child k.tables tab [pml4i v,pdptei v] = none := by
    cases reached : Forest.walk Entry.child k.tables tab [pml4i v,pdptei v] with
    | none => rfl
    | some pd => exact absurd ⟨pd,reached⟩ absent
  simp [Kernel.mapping,Forest.read,walk]

/-- What the software reads at an address of a table in working order. -/
theorem Tabs.lookup (source : PageSource good owns alloc) (tabs : Tabs good owns roots k)
    (hr : r ∈ roots) (v : Nat) :
    let pml4e := k.tables r (pml4i v)
    let pdpte := k.tables pml4e.getPaddr (pdptei v)
    (pml4e.present = false ∧ ¬k.region r v) ∨
    (pml4e.present = true ∧ pdpte.present = false ∧ ¬k.region r v) ∨
    (pml4e.present = true ∧ pdpte.present = true ∧ pdpte.ps = false ∧ k.region r v ∧
      k.mapping r v = (some (k.tables pdpte.getPaddr (pdei v))).filter (·.present)) := by
  intro pml4e pdpte
  cases top : pml4e.present with
  | false =>
    refine .inl ⟨rfl,?_⟩
    rintro ⟨pd,reach⟩
    simp [Forest.walk_cons,Entry.child_none.mpr (show (k.tables r (pml4i v)).present = false from top)]
      at reach
  | true =>
    have names : (k.tables r (pml4i v)).child = some (k.tables r (pml4i v)).next :=
      Entry.child_some.mpr ⟨top,rfl⟩
    obtain ⟨_,_,paddr,walked⟩ := tabs.getPaddr source hr (Forest.walk_nil r) (by simp) names
    rw [List.nil_append,← paddr] at walked
    have both : Forest.walk Entry.child k.tables r [pml4i v,pdptei v] = pdpte.child := by
      rw [show [pml4i v,pdptei v] = [pml4i v] ++ [pdptei v] from rfl,Forest.walk_snoc,walked]
      rfl
    cases middle : pdpte.present with
    | false =>
      refine .inr (.inl ⟨rfl,rfl,?_⟩)
      rintro ⟨pd,reach⟩
      rw [both,Entry.child_none.mpr middle] at reach
      cases reach
    | true =>
      have names : pdpte.child = some pdpte.next := Entry.child_some.mpr ⟨middle,rfl⟩
      obtain ⟨_,_,paddr,_⟩ := tabs.getPaddr source hr walked (by simp) names
      have paddr : pdpte.getPaddr = pdpte.next := paddr
      refine .inr (.inr ⟨rfl,rfl,tabs.flat r hr _ _ walked _ middle,⟨_,both.trans names⟩,?_⟩)
      rw [Kernel.mapping,Forest.read,both,names,paddr]
      rfl

section Small
variable (source : PageSource good owns alloc) (tabs : Tabs good owns roots k) (hr : r ∈ roots)
  {pgs : Nat} (small : pgs < 512)
include source tabs hr small

/-- `n` is enough fuel; the pages before `addr2` are free, and the page before the
one probed lies under a `pdpte` that is present. -/
theorem probe_spec (n addr addr2 : Nat) (fuel : pgs * 2097152 ≤ addr2 + n * 2097152)
    (aligned : addr % 2097152 = 0 ∧ addr2 % 2097152 = 0)
    (edge : addr + addr2 = 0 ∨ k.region r (addr + addr2 - 2097152))
    (start : addr2 = 0 ∨ k.region r addr)
    (clear : ∀ j, j * 2097152 < addr2 → k.mapping r (addr + j * 2097152) = none) :
    (probe k r r pgs n addr addr2 = .taken addr ∧ k.region r addr) ∨
    ((probe k r r pgs n addr addr2 = .free addr ∨ probe k r r pgs n addr addr2 = .early addr) ∧
      ∀ j < pgs, k.mapping r (addr + j * 2097152) = none) := by
  induction n generalizing addr2 with
  | zero => exact .inr ⟨.inl rfl,fun j hj => clear j (by omega)⟩
  | succ n ih =>
    by_cases done : pgs * 2097152 ≤ addr2
    · exact .inr ⟨.inl (by simp [probe,done]),fun j hj => clear j (by omega)⟩
    -- a missing table starts at the page probed, so it covers the rest of the run
    have rest (absent : ¬k.region r (addr + addr2)) (j : Nat) (hj : j < pgs) :
        k.mapping r (addr + j * 2097152) = none := by
      by_cases before : j * 2097152 < addr2
      · exact clear j before
      · have boundary : (addr + addr2) % 2^30 = 0 := by
          by_contra inside
          rcases edge with zero | region
          · omega
          · exact absent ((Kernel.region_congr (by omega)).mp region)
        apply Kernel.mapping_none
        exact fun region => absent ((Kernel.region_congr (by omega)).mp region)
    have large : pgs < 512 * 512 := by omega
    rcases tabs.lookup source hr (addr + addr2) with ⟨top,absent⟩ | ⟨top,middle,absent⟩ |
      ⟨top,middle,flat,region,mapping⟩
    · exact .inr ⟨.inr (by simp [probe,done,top,large]),rest absent⟩
    · exact .inr ⟨.inr (by simp [probe,done,top,middle,small]),rest absent⟩
    · have here : k.region r addr := by
        rcases start with zero | region
        · simpa [zero] using region
        · exact region
      cases bottom : (k.tables (k.tables (k.tables r (pml4i (addr + addr2))).getPaddr
          (pdptei (addr + addr2))).getPaddr (pdei (addr + addr2))).present with
      | true => exact .inl ⟨by simp [probe,done,top,middle,flat,bottom],here⟩
      | false =>
        have next : probe k r r pgs (n + 1) addr addr2 =
            probe k r r pgs n addr (addr2 + 2097152) := by
          simp [probe,done,top,middle,flat,bottom]
        rw [next]
        refine ih _ (by omega) ⟨aligned.1,by omega⟩ (.inr ?_) (.inr here) ?_
        · rwa [← Nat.add_assoc,Nat.add_sub_cancel]
        · intro j hj
          by_cases before : j * 2097152 < addr2
          · exact clear j before
          · rw [show addr + j * 2097152 = addr + addr2 by omega,mapping]
            simp [bottom]

theorem search_spec (n addr : Nat) (aligned : addr % 2097152 = 0)
    (edge : addr = 0 ∨ k.region r (addr - 2097152)) :
    ∃ a, (search k r r pgs n addr = .free a ∨ search k r r pgs n addr = .early a) ∧
      (a = 0xDEAD ∨ a % 2097152 = 0 ∧ a < 2^48 ∧
        ∀ j < pgs, k.mapping r (a + j * 2097152) = none) := by
  induction n generalizing addr with
  | zero => exact ⟨_,.inl rfl,.inl rfl⟩
  | succ n ih =>
    by_cases last : 0xFFFFFFFFFFFF ≤ addr
    · exact ⟨0xDEAD,.inl (by simp [search,last]),.inl rfl⟩
    rcases probe_spec source tabs hr small pgs addr 0 (by omega) ⟨aligned,rfl⟩ edge (.inl rfl)
      (by omega) with ⟨result,region⟩ | ⟨result,free⟩
    · have next : search k r r pgs (n + 1) addr = search k r r pgs n (addr + 2097152) := by
        simp [search,last,result]
      rw [next]
      exact ih _ (by omega) (.inr (by rwa [Nat.add_sub_cancel]))
    · refine ⟨addr,?_,.inr ⟨aligned,by omega,free⟩⟩
      rcases result with result | result <;> simp [search,last,result]

/-- Below 512 pages the search finds a run that the table does not map. -/
theorem pageVirtFindAddr_spec (root : k.pml4Table = r) (current : k.cr3 = r)
    (found : pageVirtFindAddr k pgs ≠ 0xDEAD) :
    pageVirtFindAddr k pgs % 2097152 = 0 ∧ pageVirtFindAddr k pgs < 2^48 ∧
      ∀ j < pgs, k.mapping r (pageVirtFindAddr k pgs + j * 2097152) = none := by
  obtain ⟨a,result,spec⟩ := search_spec source tabs hr small (2^27) 0 rfl (.inl rfl)
  have value : pageVirtFindAddr k pgs = a := by
    rw [pageVirtFindAddr,root,current]
    rcases result with result | result <;> rw [result]
  rw [value] at found ⊢
  exact spec.resolve_left found

end Small

end Search

end Siegfried
