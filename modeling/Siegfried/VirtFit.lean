import Siegfried.VirtSearch

/-! Below 512 pages `page_virt_find_addr` finds the first run: nothing that is free is passed over. -/
namespace Siegfried

section Fit
variable {good : Heap → Prop} {owns : Heap → Nat → Prop} {alloc : Kernel → Option (Kernel × Nat)}
  {roots : List Nat} {k : Kernel} {r pgs c : Nat}
  (source : PageSource good owns alloc) (tabs : Tabs good owns roots k) (hr : r ∈ roots) (small : pgs < 512)
include source tabs hr small

/-- A run is given up for a page of it that is mapped, and only moves on with the outer loop. -/
theorem probe_taken (n addr addr2 : Nat) (aligned : addr2 % 2097152 = 0) :
    (probe k r r pgs n addr addr2).addr = addr ∧
    ∀ a, probe k r r pgs n addr addr2 = .taken a → ∃ j < pgs, k.mapping r (addr + j * 2097152) ≠ none := by
  induction n generalizing addr2 with
  | zero => exact ⟨rfl,fun a taken => by cases taken⟩
  | succ n ih =>
    have large : pgs < 512 * 512 := by omega
    by_cases done : pgs * 2097152 ≤ addr2
    · have free : probe k r r pgs (n + 1) addr addr2 = .free addr := by simp [probe,done]
      rw [free]
      exact ⟨rfl,fun a taken => by cases taken⟩
    rcases tabs.lookup source hr (addr + addr2) with ⟨top,_⟩ | ⟨top,middle,_⟩ | ⟨top,middle,flat,_,mapping⟩
    · have early : probe k r r pgs (n + 1) addr addr2 = .early addr := by simp [probe,done,top,large]
      rw [early]
      exact ⟨rfl,fun a taken => by cases taken⟩
    · have early : probe k r r pgs (n + 1) addr addr2 = .early addr := by
        simp [probe,done,top,middle,small]
      rw [early]
      exact ⟨rfl,fun a taken => by cases taken⟩
    · cases bottom : (k.tables (k.tables (k.tables r (pml4i (addr + addr2))).getPaddr
          (pdptei (addr + addr2))).getPaddr (pdei (addr + addr2))).present with
      | true =>
        have taken : probe k r r pgs (n + 1) addr addr2 = .taken addr := by
          simp [probe,done,top,middle,flat,bottom]
        rw [taken]
        refine ⟨rfl,fun _ _ => ⟨addr2 / 2097152,by omega,?_⟩⟩
        rw [show addr2 / 2097152 * 2097152 = addr2 by omega,mapping]
        simp [bottom]
      | false =>
        have next : probe k r r pgs (n + 1) addr addr2 = probe k r r pgs n addr (addr2 + 2097152) := by
          simp [probe,done,top,middle,flat,bottom]
        rw [next]
        exact ih _ (by omega)

/-- With a free run at `c` the search ends there at the latest. -/
theorem search_le (n addr : Nat) (fuel : c < addr + n * 2097152) (aligned : addr % 2097152 = 0 ∧ c % 2097152 = 0)
    (ahead : addr ≤ c) (below : c < 2^48) (free : ∀ j < pgs, k.mapping r (c + j * 2097152) = none) :
    ∃ a ≤ c, a % 2097152 = 0 ∧ (search k r r pgs n addr = .free a ∨ search k r r pgs n addr = .early a) := by
  induction n generalizing addr with
  | zero => omega
  | succ n ih =>
    have last : ¬0xFFFFFFFFFFFF ≤ addr := by omega
    obtain ⟨here,given⟩ := probe_taken source tabs hr small pgs addr 0 rfl
    cases result : probe k r r pgs pgs addr 0 with
    | taken a =>
      obtain ⟨j,inside,there⟩ := given a result
      obtain rfl : a = addr := by rwa [result] at here
      have next : search k r r pgs (n + 1) a = search k r r pgs n (a + 2097152) := by
        simp [search,last,result]
      have passed : a ≠ c := by
        rintro rfl
        exact there (free j inside)
      rw [next]
      exact ih _ (by omega) ⟨by omega,aligned.2⟩ (by omega)
    | free a =>
      obtain rfl : a = addr := by rwa [result] at here
      exact ⟨a,ahead,aligned.1,.inl (by simp [search,last,result])⟩
    | early a =>
      obtain rfl : a = addr := by rwa [result] at here
      exact ⟨a,ahead,aligned.1,.inr (by simp [search,last,result])⟩

/-- The address found is the first. -/
theorem pageVirtFindAddr_le (root : k.pml4Table = r) (current : k.cr3 = r) (aligned : c % 2097152 = 0)
    (below : c < 2^48) (free : ∀ j < pgs, k.mapping r (c + j * 2097152) = none) :
    pageVirtFindAddr k pgs ≤ c ∧ pageVirtFindAddr k pgs ≠ 0xDEAD := by
  obtain ⟨a,first,even,result⟩ := search_le source tabs hr small (2^27) 0 (by omega) ⟨rfl,aligned⟩
    (Nat.zero_le c) below free
  have value : pageVirtFindAddr k pgs = a := by
    rw [pageVirtFindAddr,root,current]
    rcases result with result | result <;> rw [result]
  rw [value]
  exact ⟨first,by omega⟩

end Fit

end Siegfried
