import Siegfried.PaddrLookup
import Mathlib.Tactic.Ring
import Mathlib.Tactic.NormNum

/-! The configuration space of PCI: how `pci_enum` maps it and where the functions of `pci.c`
that read and write it do so. -/
namespace Siegfried

/-- An entry of the MCFG table. -/
structure AcpiMcfgBridge where
  ecamAddr : Nat
  startBus : Nat
  endBus : Nat
  aligned : ecamAddr % 2^20 = 0
  buses : startBus < 256 ∧ endBus < 256

structure PciBridgeEnt where
  startBus : Nat
  endBus : Nat
  ecamAddr : Nat

/-- How many pages are mapped; the difference is an `int`, the number of pages not. -/
def ecamPages (b : AcpiMcfgBridge) : Nat :=
  ((((b.endBus : Int) - b.startBus) * 2^20).tdiv 2097152 % 2^64).toNat

/-- The loop of `pci_enum` over the MCFG table. -/
def pciEnumBridges (alloc : Kernel → Option (Kernel × Nat)) :
    Kernel → List AcpiMcfgBridge → Option (Kernel × List PciBridgeEnt)
  | k, [] => some (k,[])
  | k, b :: rest => do
    let (k,addr) ← pageMapPaddrMmio alloc k b.ecamAddr (ecamPages b)
    let (k,ents) ← pciEnumBridges alloc k rest
    some (k,⟨b.startBus,b.endBus,addr⟩ :: ents)

def pciFindBridgeFromEnt (bus : Nat) : List PciBridgeEnt → Option PciBridgeEnt
  | [] => none
  | root :: rest =>
    if root.ecamAddr = 0 then none
    else if root.startBus ≤ bus ∧ bus < root.endBus then some root
    else pciFindBridgeFromEnt bus rest

namespace PciBridgeEnt
variable (e : PciBridgeEnt) (bus slot func offset : Nat)

def writeConwAddr : Nat :=
  (offset + e.ecamAddr + (bus - e.startBus) <<< 20) % 2^64 ||| slot <<< 15 ||| func <<< 12

def readConwAddr : Nat :=
  (offset + e.ecamAddr + ((bus - e.startBus) <<< 20 ||| slot <<< 15 ||| func <<< 12)) % 2^64

def readConiAddr : Nat :=
  (offset + e.ecamAddr + (bus - e.startBus) <<< 20) % 2^64 ||| slot <<< 15 ||| func <<< 12

def writeConiAddr : Nat :=
  (offset + e.ecamAddr + ((bus - e.startBus) <<< 20 ||| slot <<< 15 ||| func <<< 12)) % 2^64

/-- The place of a register. -/
def register : Nat :=
  e.ecamAddr + ((bus - e.startBus) <<< 20 ||| slot <<< 15 ||| func <<< 12 ||| offset)

end PciBridgeEnt

/-- The pages mapped for an entry, whose base is behind the entry's offset in its first page. -/
def InWindow (b : AcpiMcfgBridge) (e : PciBridgeEnt) (a : Nat) : Prop :=
  e.ecamAddr - b.ecamAddr % 0x200000 ≤ a ∧ a < e.ecamAddr - b.ecamAddr % 0x200000 + ecamPages b * 2097152

/-- The four functions meet at every register, inside what is mapped, and every bus has a bridge. -/
structure PciConfig (tab : List AcpiMcfgBridge) (ents : List PciBridgeEnt) : Prop where
  same : ∀ bus slot func offset e, slot < 32 → func < 8 → offset < 256 →
    pciFindBridgeFromEnt bus ents = some e →
    e.writeConwAddr bus slot func offset = e.register bus slot func offset ∧
    e.readConwAddr bus slot func offset = e.register bus slot func offset ∧
    e.readConiAddr bus slot func offset = e.register bus slot func offset ∧
    e.writeConiAddr bus slot func offset = e.register bus slot func offset
  inside : ∀ bus slot func offset b e, slot < 32 → func < 8 → offset < 256 → (b,e) ∈ tab.zip ents →
    pciFindBridgeFromEnt bus ents = some e → InWindow b e (e.register bus slot func offset)
  covered : ∀ b ∈ tab, ∀ bus, b.startBus ≤ bus → bus ≤ b.endBus →
    (pciFindBridgeFromEnt bus ents).isSome = true

variable {b : AcpiMcfgBridge} {e : PciBridgeEnt} {tab : List AcpiMcfgBridge} {ents : List PciBridgeEnt}
  {bus slot func offset : Nat} {alloc : Kernel → Option (Kernel × Nat)} {k k' : Kernel}

/-- The bits of a register's place do not meet. -/
theorem register_sum (slot_ : slot < 32) (func_ : func < 8) (offset_ : offset < 256) (n : Nat) :
    n <<< 20 ||| slot <<< 15 ||| func <<< 12 ||| offset = n * 2^20 + slot * 2^15 + func * 2^12 + offset ∧
    n <<< 20 ||| slot <<< 15 ||| func <<< 12 = n * 2^20 + slot * 2^15 + func * 2^12 := by
  have first : n <<< 20 ||| slot <<< 15 = n * 2^20 + slot * 2^15 := by
    rw [← Nat.shiftLeft_add_eq_or_of_lt (by rw [Nat.shiftLeft_eq]; omega),Nat.shiftLeft_eq,Nat.shiftLeft_eq]
  have second : n <<< 20 ||| slot <<< 15 ||| func <<< 12 = n * 2^20 + slot * 2^15 + func * 2^12 := by
    have base : n * 2^20 + slot * 2^15 = (n * 32 + slot) <<< 15 := by rw [Nat.shiftLeft_eq]; omega
    rw [first,base,← Nat.shiftLeft_add_eq_or_of_lt (by rw [Nat.shiftLeft_eq]; omega),Nat.shiftLeft_eq,
      Nat.shiftLeft_eq]
  refine ⟨?_,second⟩
  have base : n * 2^20 + slot * 2^15 + func * 2^12 = ((n * 32 + slot) * 8 + func) <<< 12 := by
    rw [Nat.shiftLeft_eq]
    omega
  rw [second,base,← Nat.shiftLeft_add_eq_or_of_lt (by omega)]

/-- The search stays near the 48 bits that it goes through. -/
theorem search_bound (k : Kernel) (top tab pgs n addr : Nat) (small : addr ≤ 2^48 + 2^21 + pgs * 1073741824) :
    (search k top tab pgs n addr).addr ≤ 2^48 + 2^21 + pgs * 1073741824 := by
  induction n generalizing addr with
  | zero =>
    change 0xDEAD ≤ _
    omega
  | succ n ih =>
    rw [search]
    by_cases last : 0xFFFFFFFFFFFF ≤ addr
    · rw [if_pos last]
      change 0xDEAD ≤ _
      omega
    rw [if_neg last]
    have low := probe_low k top tab pgs pgs addr 0
    cases result : probe k top tab pgs pgs addr 0 with
    | taken at_addr =>
      rw [result] at low
      exact ih _ (by dsimp only [Probe.addr] at low; omega)
    | free at_addr | early at_addr =>
      rw [result] at low
      dsimp only [Probe.addr] at low ⊢
      omega

theorem pageVirtFindAddr_bound (k : Kernel) (pgs : Nat) :
    pageVirtFindAddr k pgs ≤ 2^48 + 2^21 + pgs * 1073741824 := by
  have bound := search_bound k k.pml4Table k.cr3 pgs (2^27) 0 (Nat.zero_le _)
  rw [pageVirtFindAddr]
  cases result : search k k.pml4Table k.cr3 pgs (2^27) 0 <;> rwa [result] at bound

/-- What becomes of an entry. -/
structure Bridged (b : AcpiMcfgBridge) (e : PciBridgeEnt) : Prop where
  startBus : e.startBus = b.startBus
  endBus : e.endBus = b.endBus
  ecamAddr : e.ecamAddr = 0 ∨ ∃ v, e.ecamAddr = v + b.ecamAddr % 0x200000 ∧ v % 2097152 = 0 ∧
    v ≤ 2^48 + 2^21 + ecamPages b * 1073741824

theorem pciEnumBridges_bridged (made : pciEnumBridges alloc k tab = some (k',ents)) :
    List.Forall₂ Bridged tab ents := by
  induction tab generalizing k ents with
  | nil =>
    cases made
    exact .nil
  | cons b rest ih =>
    simp only [pciEnumBridges,Option.bind_eq_bind,Option.bind_eq_some_iff,Option.some.injEq,
      Prod.mk.injEq] at made
    obtain ⟨⟨k1,addr⟩,mapped,⟨k2,more⟩,later,rfl,rfl⟩ := made
    refine .cons ⟨rfl,rfl,?_⟩ (ih later)
    rw [pageMapPaddrMmio,mapPaddr] at mapped
    dsimp only at mapped ⊢
    split at mapped
    · cases mapped
      exact .inl rfl
    · next found =>
      obtain ⟨_,_,same⟩ := Option.bind_eq_some_iff.mp mapped
      cases same
      exact .inr ⟨_,rfl,pageVirtFindAddr_aligned found,pageVirtFindAddr_bound ..⟩

theorem find_some (found : pciFindBridgeFromEnt bus ents = some e) :
    e ∈ ents ∧ e.ecamAddr ≠ 0 ∧ e.startBus ≤ bus ∧ bus < e.endBus := by
  induction ents with
  | nil => cases found
  | cons root rest ih =>
    rw [pciFindBridgeFromEnt] at found
    split at found
    · cases found
    · next some_ =>
      split at found
      · next inside =>
        cases found
        exact ⟨List.mem_cons_self,some_,inside⟩
      · obtain ⟨member,facts⟩ := ih found
        exact ⟨List.mem_cons_of_mem _ member,facts⟩

theorem ecamPages_eq (ordered : b.startBus ≤ b.endBus) : ecamPages b = (b.endBus - b.startBus) / 2 := by
  have := b.buses
  rw [ecamPages]
  obtain ⟨d,rfl_⟩ := Nat.exists_eq_add_of_le ordered
  have difference : (b.endBus : Int) - b.startBus = d := by omega
  rw [difference,Int.tdiv_eq_ediv_of_nonneg (by omega)]
  omega

/-- Where the registers of an entry that has a bridge begin. -/
theorem Bridged.base (bridged : Bridged b e) (mapped : e.ecamAddr ≠ 0) (lower : e.startBus ≤ bus)
    (upper : bus < e.endBus) : ∃ v, e.ecamAddr = v + b.ecamAddr % 0x200000 ∧ v % 2097152 = 0 ∧ v < 2^49 ∧
      ecamPages b = (b.endBus - b.startBus) / 2 := by
  have := b.buses
  have pages : ecamPages b = (b.endBus - b.startBus) / 2 := by
    apply ecamPages_eq
    have := bridged.startBus
    have := bridged.endBus
    omega
  obtain ⟨v,same,aligned,bound⟩ := bridged.ecamAddr.resolve_left mapped
  exact ⟨v,same,aligned,by rw [pages] at bound; omega,pages⟩

/-- The sums of the four functions do not wrap. -/
theorem addr_small {a n rest : Nat} (small : a < 2^50) (upper : n < 256) (rest_ : rest < 2^20) :
    a + n * 2^20 + rest < 2^64 := by
  have high : n * 2^20 + rest ≤ 2^28 := by omega
  have fits : 2^50 + 2^28 ≤ 2^64 := by norm_num
  rw [Nat.add_assoc]
  exact Nat.lt_of_lt_of_le (Nat.add_lt_add_of_lt_of_le small high) fits

/-- With the slot and the function put in after the sum. -/
theorem addr_merged {c n : Nat} (slot_ : slot < 32) (func_ : func < 8) (offset_ : offset < 256)
    (fits : c * 2^20 + n * 2^20 + offset < 2^64) :
    (offset + c * 2^20 + n <<< 20) % 2^64 ||| slot <<< 15 ||| func <<< 12 =
      c * 2^20 + (n * 2^20 + slot * 2^15 + func * 2^12 + offset) := by
  have high : (offset + c * 2^20 + n <<< 20) % 2^64 = (c + n) <<< 20 ||| offset := by
    have order : offset + c * 2^20 + n * 2^20 = (c + n) * 2^20 + offset := by ring
    rw [← Nat.shiftLeft_add_eq_or_of_lt (by omega),Nat.shiftLeft_eq,Nat.shiftLeft_eq,order]
    exact Nat.mod_eq_of_lt (by rwa [Nat.add_mul])
  have order (a b d : Nat) : a ||| offset ||| b ||| d = a ||| b ||| d ||| offset := by ac_rfl
  rw [high,order,(register_sum slot_ func_ offset_ (c + n)).1]
  ring

/-- With them put in before it. -/
theorem addr_added {a n : Nat} (slot_ : slot < 32) (func_ : func < 8) (offset_ : offset < 256)
    (fits : a + n * 2^20 + (slot * 2^15 + func * 2^12 + offset) < 2^64) :
    (offset + a + (n <<< 20 ||| slot <<< 15 ||| func <<< 12)) % 2^64 =
      a + (n * 2^20 + slot * 2^15 + func * 2^12 + offset) := by
  have order : offset + a + (n * 2^20 + slot * 2^15 + func * 2^12) =
      a + n * 2^20 + (slot * 2^15 + func * 2^12 + offset) := by ring
  rw [(register_sum slot_ func_ offset_ n).2,order,Nat.mod_eq_of_lt fits]
  ring

/-- From a base of 1 MB the four addresses are those of the register. -/
theorem addr_register (aligned : e.ecamAddr % 2^20 = 0) (small : e.ecamAddr < 2^50) (upper : bus - e.startBus < 256)
    (slot_ : slot < 32) (func_ : func < 8) (offset_ : offset < 256) :
    e.writeConwAddr bus slot func offset = e.register bus slot func offset ∧
    e.readConwAddr bus slot func offset = e.register bus slot func offset ∧
    e.readConiAddr bus slot func offset = e.register bus slot func offset ∧
    e.writeConiAddr bus slot func offset = e.register bus slot func offset := by
  rw [PciBridgeEnt.writeConwAddr,PciBridgeEnt.readConwAddr,PciBridgeEnt.readConiAddr,
    PciBridgeEnt.writeConiAddr,PciBridgeEnt.register,(register_sum slot_ func_ offset_ _).1,
    addr_added slot_ func_ offset_ (addr_small small upper (by omega))]
  obtain ⟨c,base⟩ := Nat.dvd_of_mod_eq_zero aligned
  rw [Nat.mul_comm] at base
  rw [base] at small ⊢
  rw [addr_merged slot_ func_ offset_ (addr_small small upper (by omega))]
  exact ⟨rfl,rfl,rfl,rfl⟩

/-- A register lies in the window up to the last whole 2 MB of the buses before the last one. -/
theorem inWindow_iff {v : Nat} (base : e.ecamAddr = v + b.ecamAddr % 0x200000) (slot_ : slot < 32)
    (func_ : func < 8) (offset_ : offset < 256) (pages : ecamPages b = (b.endBus - b.startBus) / 2) :
    InWindow b e (e.register bus slot func offset) ↔
      b.ecamAddr % 0x200000 + ((bus - e.startBus) * 2^20 + slot * 2^15 + func * 2^12 + offset) <
        (b.endBus - b.startBus) / 2 * 2097152 := by
  rw [InWindow,PciBridgeEnt.register,(register_sum slot_ func_ offset_ _).1,base,pages,Nat.add_sub_cancel]
  omega

theorem mem_bridged (bridged : List.Forall₂ Bridged tab ents) (member : e ∈ ents) : ∃ b ∈ tab, Bridged b e := by
  induction bridged with
  | nil => cases member
  | cons first _ ih =>
    rcases List.mem_cons.mp member with rfl | later
    · exact ⟨_,List.mem_cons_self,first⟩
    · obtain ⟨b,found,made⟩ := ih later
      exact ⟨b,List.mem_cons_of_mem _ found,made⟩

/-- Nothing covers the greatest last bus. -/
theorem last_bus (bridged : List.Forall₂ Bridged tab ents) (there : b ∈ tab) (some_ : b.startBus ≤ b.endBus) :
    ∃ b ∈ tab, b.startBus ≤ b.endBus ∧ pciFindBridgeFromEnt b.endBus ents = none := by
  -- by induction on how far the last bus is from 255
  induction far : 255 - b.endBus using Nat.strong_induction_on generalizing b with
  | _ n ih =>
    cases found : pciFindBridgeFromEnt b.endBus ents with
    | none => exact ⟨b,there,some_,found⟩
    | some e =>
      obtain ⟨member,_,lower,upper⟩ := find_some found
      obtain ⟨c,later,from_⟩ := mem_bridged bridged member
      have := from_.startBus
      have := from_.endBus
      have := c.buses
      exact ih (255 - c.endBus) (by omega) later (by omega) rfl

/-- Whatever `pci_enum` maps: the four functions meet at every register of a bus that has a
bridge; the register lies in the window of its entry as long as it is below the last whole 2 MB
of the buses before the last one; and the whole is as it is to be only for a table without a bus. -/
theorem pci_config_iff (made : pciEnumBridges alloc k tab = some (k',ents)) :
    (∀ bus slot func offset e, slot < 32 → func < 8 → offset < 256 → pciFindBridgeFromEnt bus ents = some e →
      e.writeConwAddr bus slot func offset = e.register bus slot func offset ∧
      e.readConwAddr bus slot func offset = e.register bus slot func offset ∧
      e.readConiAddr bus slot func offset = e.register bus slot func offset ∧
      e.writeConiAddr bus slot func offset = e.register bus slot func offset) ∧
    (∀ bus slot func offset b e, slot < 32 → func < 8 → offset < 256 → (b,e) ∈ tab.zip ents →
      pciFindBridgeFromEnt bus ents = some e → (InWindow b e (e.register bus slot func offset) ↔
        b.ecamAddr % 0x200000 + ((bus - b.startBus) * 2^20 + slot * 2^15 + func * 2^12 + offset) <
          (b.endBus - b.startBus) / 2 * 2097152)) ∧
    (PciConfig tab ents ↔ ∀ b ∈ tab, b.endBus < b.startBus) := by
  have bridged := pciEnumBridges_bridged made
  have same : ∀ bus slot func offset e, slot < 32 → func < 8 → offset < 256 → pciFindBridgeFromEnt bus ents = some e →
      e.writeConwAddr bus slot func offset = e.register bus slot func offset ∧
      e.readConwAddr bus slot func offset = e.register bus slot func offset ∧
      e.readConiAddr bus slot func offset = e.register bus slot func offset ∧
      e.writeConiAddr bus slot func offset = e.register bus slot func offset := by
    intro bus slot func offset e slot_ func_ offset_ found
    obtain ⟨member,mapped,lower,upper⟩ := find_some found
    obtain ⟨b,_,from_⟩ := mem_bridged bridged member
    obtain ⟨v,base,aligned,bound,_⟩ := from_.base mapped lower upper
    have := b.aligned
    have := b.buses
    have := from_.endBus
    exact addr_register (by omega) (by omega) (by omega) slot_ func_ offset_
  refine ⟨same,?_,?_⟩
  · intro bus slot func offset b e slot_ func_ offset_ pair found
    obtain ⟨_,mapped,lower,upper⟩ := find_some found
    have from_ := (List.forall₂_iff_zip.mp bridged).2 pair
    obtain ⟨v,base,_,_,pages⟩ := from_.base mapped lower upper
    rw [← from_.startBus]
    rw [inWindow_iff base slot_ func_ offset_ pages,from_.startBus]
  · constructor
    · intro config b there
      by_contra some_
      obtain ⟨last,member,ordered,none_⟩ := last_bus bridged there (by omega)
      have covered := config.covered last member last.endBus ordered (Nat.le_refl _)
      rw [none_] at covered
      cases covered
    · intro empty
      have none_ (bus : Nat) (e : PciBridgeEnt) : pciFindBridgeFromEnt bus ents ≠ some e := by
        intro found
        obtain ⟨member,_,lower,upper⟩ := find_some found
        obtain ⟨b,there,from_⟩ := mem_bridged bridged member
        have := empty b there
        have := from_.startBus
        have := from_.endBus
        omega
      refine ⟨same,?_,?_⟩
      · exact fun bus _ _ _ _ e _ _ _ _ found => absurd found (none_ bus e)
      · intro b there bus lower upper
        have := empty b there
        omega

/-- Buses 0 to 3, from an odd MB. -/
def oddBase : AcpiMcfgBridge := ⟨0xb0100000,0,3,rfl,by decide⟩

theorem pci_config_iff_odd : ∃ k' ents e, pciEnumBridges takePage bareKernel [oddBase] = some (k',ents) ∧
    pciFindBridgeFromEnt 1 ents = some e ∧ ¬ InWindow oddBase e (e.register 1 0 0 0) ∧
    ¬ PciConfig [oddBase] ents := by
  have there : (pciEnumBridges takePage bareKernel [oddBase]).any
      (fun r => (pciFindBridgeFromEnt 1 r.2).isSome) = true := by decide +kernel
  obtain ⟨⟨k',ents⟩,made,bridge⟩ := (Option.any_eq_true _ _).mp there
  obtain ⟨e,found⟩ := Option.isSome_iff_exists.mp bridge
  obtain ⟨_,inside,whole⟩ := pci_config_iff made
  refine ⟨k',ents,e,made,found,?_,fun config => ?_⟩
  · have pair : (oddBase,e) ∈ List.zip [oddBase] ents := by
      obtain ⟨member,_⟩ := find_some found
      cases pciEnumBridges_bridged made with
      | cons _ rest =>
        cases rest
        cases List.mem_singleton.mp member
        exact List.mem_singleton.mpr rfl
    rw [inside 1 0 0 0 oddBase e (by decide) (by decide) (by decide) pair found]
    decide
  · exact absurd (whole.mp config oddBase (List.mem_singleton.mpr rfl)) (by decide)

/-- The last bus of the entry has no bridge. -/
theorem pci_config_last : ¬ ∀ (k : Kernel) tab k' ents, pciEnumBridges takePage k tab = some (k',ents) →
    PciConfig tab ents := by
  intro all
  have there : (pciEnumBridges takePage bareKernel [oddBase]).any
      (fun r => (pciFindBridgeFromEnt 3 r.2).isNone) = true := by decide +kernel
  obtain ⟨⟨k',ents⟩,made,none_⟩ := (Option.any_eq_true _ _).mp there
  have covered := (all _ _ _ _ made).covered oddBase (List.mem_singleton.mpr rfl) 3 (by decide) (by decide)
  rw [Option.isNone_iff_eq_none.mp none_] at covered
  cases covered

end Siegfried
