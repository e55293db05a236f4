import Siegfried.Loops
import Siegfried.VirtSearch

/-! `page_virt_find_addr` and `page_virt_find_addr_user` turn by turn, with the arithmetic
of an `unsigned long` and with CR3. -/
namespace Siegfried

open Loops

/-- What the inner loop finds at an address. -/
inductive Look where
  | noTable
  | noPdpt
  | large
  | taken
  | free
  deriving DecidableEq

/-- `top` is the table whose `pml4e`s are tested and `tab` the one whose `pdpte`s are read. -/
def look (k : Kernel) (top tab v : Nat) : Look :=
  if !(k.tables top (pml4i v)).present then .noTable
  else
    let pdpte := k.tables (k.tables tab (pml4i v)).getPaddr (pdptei v)
    if !pdpte.present then .noPdpt
    else if pdpte.ps then .large
    else if (k.tables pdpte.getPaddr (pdei v)).present then .taken
    else .free

/-- At the head of the outer loop, or of the inner one. -/
inductive VirtPos where
  | outer (addr : Nat)
  | inner (addr addr2 : Nat)

inductive VirtEnd where
  | dead
  | free (addr : Nat)
  | early (addr : Nat)

/-- One turn. An early return is one for a missing table. -/
def virtTurn (k : Kernel) (top tab pgs : Nat) : VirtPos → VirtPos ⊕ VirtEnd
  | .outer addr => if addr < 0xFFFFFFFFFFFF then .inl (.inner addr 0) else .inr .dead
  | .inner addr addr2 =>
    if pgs * 2097152 % 2^64 ≤ addr2 then .inr (.free addr)
    else match look k top tab ((addr + addr2) % 2^64) with
      | .noTable =>
        if pgs < 512 * 512 then .inr (.early addr)
        else .inl (.inner addr ((addr2 + (549755813888 - addr2 % 549755813888)) % 2^64))
      | .noPdpt =>
        if pgs < 512 then .inr (.early addr)
        else .inl (.inner addr ((addr2 + (1073741824 - addr2 % 1073741824)) % 2^64))
      | .large => .inl (.inner ((addr + (1073741824 - addr % 1073741824)) % 2^64) ((addr2 + 2097152) % 2^64))
      | .taken => .inl (.outer ((addr + 2097152) % 2^64))
      | .free => .inl (.inner addr ((addr2 + 2097152) % 2^64))

namespace Wide

/-- Every return switches back. -/
def pageVirtFindAddr (fuel : Nat) (k : Kernel) (pgs : Nat) : Option (Kernel × Nat) :=
  let tab := k.cr3
  let k := { k with cr3 := k.pml4Table }
  (run (virtTurn k k.pml4Table tab pgs) fuel (.outer 0)).map fun
    | .dead => ({ k with cr3 := tab },0xDEAD)
    | .free addr | .early addr => ({ k with cr3 := tab },addr)

/-- An early return does not. -/
def pageVirtFindAddrUser (fuel : Nat) (k : Kernel) (tab pgs : Nat) : Option (Kernel × Nat) :=
  let tee := k.cr3
  let k := { k with cr3 := k.pml4Table }
  (run (virtTurn k tab tab pgs) fuel (.outer 0)).map fun
    | .dead => ({ k with cr3 := tee },0xDEAD)
    | .free addr => ({ k with cr3 := tee },addr)
    | .early addr => (k,addr)

end Wide

variable {k k' : Kernel} {top tab pgs addr addr2 fuel n v : Nat} {p : VirtPos} {e : VirtEnd}

theorem look_congr (same : k'.tables = k.tables) : look k' top tab v = look k top tab v := by
  simp only [look,same]

/-- The turns are those over the page tables; CR3 does not matter. -/
theorem virtTurn_congr (same : k'.tables = k.tables) : virtTurn k' top tab pgs = virtTurn k top tab pgs := by
  funext p
  cases p with
  | outer addr => rfl
  | inner addr addr2 => simp only [virtTurn,look_congr same]

theorem look_mod : look k top tab (v % 2^64) = look k top tab v := by
  have first : pml4i (v % 2^64) = pml4i v := Fin.ext (by simp only [pml4i]; omega)
  have second : pdptei (v % 2^64) = pdptei v := Fin.ext (by simp only [pdptei]; omega)
  have third : pdei (v % 2^64) = pdei v := Fin.ext (by simp only [pdei]; omega)
  rw [look,look,first,second,third]

/-- The position that a probe stands for, and the end of it. -/
def Probe.Ends (turn : VirtPos → VirtPos ⊕ VirtEnd) (p : VirtPos) : Probe → Prop
  | .taken addr => Comes turn p (.outer ((addr + 2097152) % 2^64))
  | .free addr => ∃ q, Comes turn p q ∧ turn q = .inr (.free addr)
  | .early addr => ∃ q, Comes turn p q ∧ turn q = .inr (.early addr)

theorem Probe.Ends.head {turn : VirtPos → VirtPos ⊕ VirtEnd} {p q : VirtPos} {result : Probe}
    (go : turn p = .inl q) (ends : result.Ends turn q) : result.Ends turn p := by
  cases result with
  | taken addr => exact Comes.head go ends
  | free addr =>
    obtain ⟨last,comes,stop⟩ := ends
    exact ⟨last,comes.head go,stop⟩
  | early addr =>
    obtain ⟨last,comes,stop⟩ := ends
    exact ⟨last,comes.head go,stop⟩

/-- A probe goes by what it finds. -/
theorem probe_look (k : Kernel) (top tab pgs n addr addr2 : Nat) :
    probe k top tab pgs (n + 1) addr addr2 =
      if pgs * 2097152 ≤ addr2 then .free addr
      else match look k top tab (addr + addr2) with
        | .noTable =>
          if pgs < 512 * 512 then .early addr
          else probe k top tab pgs n addr (addr2 + (549755813888 - addr2 % 549755813888))
        | .noPdpt =>
          if pgs < 512 then .early addr
          else probe k top tab pgs n addr (addr2 + (1073741824 - addr2 % 1073741824))
        | .large => probe k top tab pgs n (addr + (1073741824 - addr % 1073741824)) (addr2 + 2097152)
        | .taken => .taken addr
        | .free => probe k top tab pgs n addr (addr2 + 2097152) := by
  rw [probe,look]
  dsimp only
  cases (k.tables top (pml4i (addr + addr2))).present with
  | false => rfl
  | true =>
    generalize k.tables (k.tables tab (pml4i (addr + addr2))).getPaddr (pdptei (addr + addr2)) = pdpte
    cases pdpte.present with
    | false => rfl
    | true =>
      cases pdpte.ps with
      | true => rfl
      | false => cases (k.tables pdpte.getPaddr (pdei (addr + addr2))).present <;> rfl

theorem probe_low (k : Kernel) (top tab pgs n addr addr2 : Nat) :
    (probe k top tab pgs n addr addr2).addr ≤ addr + n * 1073741824 := by
  induction n generalizing addr addr2 with
  | zero =>
    change addr ≤ addr + 0 * 1073741824
    exact Nat.le_add_right addr _
  | succ n ih =>
    have more : n * 1073741824 ≤ (n + 1) * 1073741824 := Nat.mul_le_mul_right _ (Nat.le_succ n)
    have next (addr2 : Nat) : (probe k top tab pgs n addr addr2).addr ≤ addr + (n + 1) * 1073741824 :=
      Nat.le_trans (ih addr addr2) (Nat.add_le_add_left more addr)
    have here : addr ≤ addr + (n + 1) * 1073741824 := Nat.le_add_right ..
    rw [probe_look]
    by_cases done : pgs * 2097152 ≤ addr2
    · rwa [if_pos done]
    rw [if_neg done]
    cases look k top tab (addr + addr2) with
    | noTable =>
      dsimp only
      split
      · exact here
      · exact next _
    | noPdpt =>
      dsimp only
      split
      · exact here
      · exact next _
    | large =>
      have jump := ih (addr + (1073741824 - addr % 1073741824)) (addr2 + 2097152)
      dsimp only
      omega
    | taken => exact here
    | free => exact next _

theorem probe_le (k : Kernel) (top tab pgs n addr addr2 : Nat) :
    addr ≤ (probe k top tab pgs n addr addr2).addr := by
  induction n generalizing addr addr2 with
  | zero => exact Nat.le_refl addr
  | succ n ih =>
    rw [probe_look]
    by_cases done : pgs * 2097152 ≤ addr2
    · rw [if_pos done]
      exact Nat.le_refl addr
    rw [if_neg done]
    cases look k top tab (addr + addr2) with
    | noTable =>
      dsimp only
      split
      · exact Nat.le_refl addr
      · exact ih _ _
    | noPdpt =>
      dsimp only
      split
      · exact Nat.le_refl addr
      · exact ih _ _
    | large => exact Nat.le_trans (Nat.le_add_right ..) (ih _ _)
    | taken => exact Nat.le_refl addr
    | free => exact ih _ _

/-- While nothing wraps, a probe is turns of the inner loop. -/
theorem probe_ends (k : Kernel) (top tab : Nat) (few : pgs ≤ 2^33) (n addr addr2 : Nat) (fuel : pgs * 2097152 ≤ addr2 + n * 2097152)
    (low : addr + n * 1073741824 < 2^64) (aligned : addr2 % 2097152 = 0) :
    (probe k top tab pgs n addr addr2).Ends (virtTurn k top tab pgs) (.inner addr addr2) := by
  have bound : pgs * 2097152 % 2^64 = pgs * 2097152 := Nat.mod_eq_of_lt (by omega)
  have kept {x : Nat} (small : x < 2^64) : x % 2^64 = x := Nat.mod_eq_of_lt small
  induction n generalizing addr addr2 with
  | zero =>
    refine ⟨_,.start,?_⟩
    rw [virtTurn,bound,if_pos (by omega)]
  | succ n ih =>
    rw [probe_look]
    by_cases done : pgs * 2097152 ≤ addr2
    · rw [if_pos done]
      refine ⟨_,.start,?_⟩
      rw [virtTurn,bound,if_pos done]
    rw [if_neg done]
    have more : n * 1073741824 ≤ (n + 1) * 1073741824 := Nat.mul_le_mul_right _ (Nat.le_succ n)
    have same : addr2 + (n + 1) * 2097152 = addr2 + 2097152 + n * 2097152 := by
      rw [Nat.add_one_mul,Nat.add_comm _ 2097152,Nat.add_assoc]
    have room : pgs * 2097152 ≤ addr2 + 2097152 + n * 2097152 := le_of_le_of_eq fuel same
    have lower : addr + n * 1073741824 < 2^64 := Nat.lt_of_le_of_lt (Nat.add_le_add_left more addr) low
    cases found : look k top tab (addr + addr2) with
    | noTable =>
      dsimp only
      by_cases small : pgs < 512 * 512
      · rw [if_pos small]
        refine ⟨_,.start,?_⟩
        rw [virtTurn,bound,if_neg done,look_mod,found]
        exact if_pos small
      · rw [if_neg small]
        have next : addr2 + (549755813888 - addr2 % 549755813888) < 2^64 := by omega
        have skip : addr2 + 2097152 ≤ addr2 + (549755813888 - addr2 % 549755813888) := by omega
        refine .head ?_ (ih addr _ (Nat.le_trans room (Nat.add_le_add_right skip _)) lower (by omega))
        rw [virtTurn,bound,if_neg done,look_mod,found]
        dsimp only
        rw [if_neg small,kept next]
    | noPdpt =>
      dsimp only
      by_cases small : pgs < 512
      · rw [if_pos small]
        refine ⟨_,.start,?_⟩
        rw [virtTurn,bound,if_neg done,look_mod,found]
        exact if_pos small
      · rw [if_neg small]
        have next : addr2 + (1073741824 - addr2 % 1073741824) < 2^64 := by omega
        have skip : addr2 + 2097152 ≤ addr2 + (1073741824 - addr2 % 1073741824) := by omega
        refine .head ?_ (ih addr _ (Nat.le_trans room (Nat.add_le_add_right skip _)) lower (by omega))
        rw [virtTurn,bound,if_neg done,look_mod,found]
        dsimp only
        rw [if_neg small,kept next]
    | large =>
      have jump : addr + (1073741824 - addr % 1073741824) + n * 1073741824 < 2^64 := by omega
      have next : addr2 + 2097152 < 2^64 := by omega
      refine .head ?_ (ih _ _ room jump (by omega))
      rw [virtTurn,bound,if_neg done,look_mod,found]
      dsimp only
      rw [kept next,kept (Nat.lt_of_le_of_lt (Nat.le_add_right ..) jump)]
    | taken =>
      refine .turn .start ?_
      rw [virtTurn,bound,if_neg done,look_mod,found]
    | free =>
      have next : addr2 + 2097152 < 2^64 := by omega
      refine .head ?_ (ih addr _ room lower (by omega))
      rw [virtTurn,bound,if_neg done,look_mod,found]
      dsimp only
      rw [kept next]

/-- The end that the result of a search stands for. -/
def Probe.Finds (turn : VirtPos → VirtPos ⊕ VirtEnd) (p : VirtPos) : Probe → Prop
  | .taken _ => False
  | .free addr => ∃ q e, Comes turn p q ∧ turn q = .inr e ∧ (e = .free addr ∨ e = .dead ∧ addr = 0xDEAD)
  | .early addr => ∃ q, Comes turn p q ∧ turn q = .inr (.early addr)

theorem Probe.Finds.before {turn : VirtPos → VirtPos ⊕ VirtEnd} {p q : VirtPos} {result : Probe}
    (finds : result.Finds turn q) (comes : Comes turn p q) : result.Finds turn p := by
  cases result with
  | taken addr => exact finds
  | free addr =>
    obtain ⟨last,e,rest,stop,which⟩ := finds
    exact ⟨last,e,comes.trans rest,stop,which⟩
  | early addr =>
    obtain ⟨last,rest,stop⟩ := finds
    exact ⟨last,comes.trans rest,stop⟩

theorem search_finds (k : Kernel) (top tab : Nat) (few : pgs ≤ 2^33) (n addr : Nat) (fuel : 2^48 ≤ addr + n * 2097152) :
    (search k top tab pgs n addr).Finds (virtTurn k top tab pgs) (.outer addr) := by
  induction n generalizing addr with
  | zero => exact ⟨_,_,.start,if_neg (by omega),.inr ⟨rfl,rfl⟩⟩
  | succ n ih =>
    rw [search]
    by_cases last : 0xFFFFFFFFFFFF ≤ addr
    · rw [if_pos last]
      exact ⟨_,_,.start,if_neg (by omega),.inr ⟨rfl,rfl⟩⟩
    rw [if_neg last]
    have first : virtTurn k top tab pgs (.outer addr) = .inl (.inner addr 0) := if_pos (by omega)
    have ends := probe_ends k top tab few pgs addr 0 (by omega) (by omega) rfl
    have lower := probe_low k top tab pgs pgs addr 0
    have upper := probe_le k top tab pgs pgs addr 0
    cases result : probe k top tab pgs pgs addr 0 with
    | taken at_addr =>
      rw [result] at ends lower upper
      have small : (at_addr + 2097152) % 2^64 = at_addr + 2097152 :=
        Nat.mod_eq_of_lt (by dsimp only [Probe.addr] at lower; omega)
      have comes : Comes (virtTurn k top tab pgs) (.outer addr) (.outer (at_addr + 2097152)) :=
        small ▸ Comes.head first ends
      have rest := ih (at_addr + 2097152) (by dsimp only [Probe.addr] at upper; omega)
      exact rest.before comes
    | free at_addr =>
      rw [result] at ends
      obtain ⟨q,comes,stop⟩ := ends
      exact ⟨q,_,comes.head first,stop,.inl rfl⟩
    | early at_addr =>
      rw [result] at ends
      obtain ⟨q,comes,stop⟩ := ends
      exact ⟨q,comes.head first,stop⟩

/-- What the search finds is found turn by turn, up to 2^33 pages. -/
theorem run_search (k : Kernel) (top tab : Nat) (few : pgs ≤ 2^33) : ∃ fuel e, run (virtTurn k top tab pgs) fuel (.outer 0) = some e ∧
    match search k top tab pgs (2^27) 0 with
    | .taken _ => False
    | .free addr => e = .free addr ∨ e = .dead ∧ addr = 0xDEAD
    | .early addr => e = .early addr := by
  have finds := search_finds k top tab few (2^27) 0 (by decide)
  cases result : search k top tab pgs (2^27) 0 with
  | taken addr =>
    rw [result] at finds
    exact finds.elim
  | free addr =>
    rw [result] at finds
    obtain ⟨q,e,comes,stop,which⟩ := finds
    obtain ⟨fuel,ends⟩ := run_iff.mpr ⟨q,comes,stop⟩
    exact ⟨fuel,e,ends,which⟩
  | early addr =>
    rw [result] at finds
    obtain ⟨q,comes,stop⟩ := finds
    obtain ⟨fuel,ends⟩ := run_iff.mpr ⟨q,comes,stop⟩
    exact ⟨fuel,_,ends,rfl⟩

theorem Wide.pageVirtFindAddr_eq (few : pgs ≤ 2^33) :
    ∃ fuel, Wide.pageVirtFindAddr fuel k pgs = some (k,Siegfried.pageVirtFindAddr k pgs) := by
  obtain ⟨fuel,e,ends,which⟩ := run_search k k.pml4Table k.cr3 few
  refine ⟨fuel,?_⟩
  have same : virtTurn { k with cr3 := k.pml4Table } k.pml4Table k.cr3 pgs = virtTurn k k.pml4Table k.cr3 pgs :=
    virtTurn_congr rfl
  rw [← same] at ends
  simp only [Wide.pageVirtFindAddr,ends,Siegfried.pageVirtFindAddr]
  cases result : search k k.pml4Table k.cr3 pgs (2^27) 0 with
  | taken addr =>
    rw [result] at which
    exact which.elim
  | free addr =>
    rw [result] at which
    rcases which with rfl | ⟨rfl,rfl⟩ <;> rfl
  | early addr =>
    rw [result] at which
    cases which
    rfl

theorem Wide.pageVirtFindAddrUser_eq (few : pgs ≤ 2^33) :
    ∃ fuel, Wide.pageVirtFindAddrUser fuel k tab pgs = some (Siegfried.pageVirtFindAddrUser k tab pgs) := by
  obtain ⟨fuel,e,ends,which⟩ := run_search k tab tab few
  refine ⟨fuel,?_⟩
  have same : virtTurn { k with cr3 := k.pml4Table } tab tab pgs = virtTurn k tab tab pgs := virtTurn_congr rfl
  rw [← same] at ends
  simp only [Wide.pageVirtFindAddrUser,ends,Siegfried.pageVirtFindAddrUser]
  cases result : search k tab tab pgs (2^27) 0 with
  | taken addr =>
    rw [result] at which
    exact which.elim
  | free addr =>
    rw [result] at which
    rcases which with rfl | ⟨rfl,rfl⟩ <;> rfl
  | early addr =>
    rw [result] at which
    cases which
    rfl

end Siegfried
