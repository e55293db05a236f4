import Mathlib.Logic.Function.Basic
import Mathlib.Algebra.Group.Nat.Defs

/-! `pci_read_bar`, `pci_write_bar` and `pci_read_bar_size` of `pci.c`, on the configuration
space of one function. -/
namespace Siegfried

/-- The registers by their offset in units of 4 bytes, and the bits of them that a write changes. -/
@[ext]
structure PciFunction where
  regs : Nat → BitVec 32
  rw : Nat → BitVec 32

namespace PciFunction
variable (f : PciFunction)

/-- A write changes the writable bits among those it covers. -/
def write (i : Nat) (covered value : BitVec 32) : PciFunction :=
  let mask := f.rw i &&& covered
  { f with regs := Function.update f.regs i ((f.regs i &&& ~~~mask) ||| (value &&& mask)) }

/-- Offsets are `unsigned char`s. -/
def pciReadConi (offset : Nat) : BitVec 32 := f.regs (offset % 256 / 4)

def pciWriteConi (offset : Nat) (value : BitVec 32) : PciFunction :=
  f.write (offset % 256 / 4) (BitVec.allOnes 32) value

/-- The half of a register that begins at an even offset. -/
def pciReadConw (offset : Nat) : BitVec 16 :=
  (f.regs (offset % 256 / 4) >>> (8 * (offset % 4))).setWidth 16

def pciWriteConw (offset : Nat) (value : BitVec 16) : PciFunction :=
  f.write (offset % 256 / 4) (0xffff#32 <<< (8 * (offset % 4))) (value.setWidth 32 <<< (8 * (offset % 4)))

def pciReadBar (off : Nat) : BitVec 64 :=
  let bar := (f.pciReadConi off).setWidth 64
  if bar &&& 1 ≠ 0 then bar &&& 0xfffffffc
  else
    let type := (bar >>> 1) &&& 0b11
    let bar := if type ≠ 0 then bar ||| (f.pciReadConi (off + 4)).setWidth 64 <<< 32 else bar
    bar &&& 0xfffffffffffffff0

def pciWriteBar (off : Nat) (value : BitVec 64) : PciFunction :=
  let bar := (f.pciReadConi off).setWidth 64
  if bar &&& 1 = 0 then
    let type := (bar >>> 1) &&& 0b11
    let f := if type ≠ 0 then f.pciWriteConi (off + 4) ((value >>> 32).setWidth 32) else f
    f.pciWriteConi off (value.setWidth 32)
  else f.pciWriteConi off (value.setWidth 32)

def pciReadBarSize (off : Nat) : BitVec 64 × PciFunction :=
  let cmd := f.pciReadConw 4
  let f := f.pciWriteConw 4 (cmd &&& ~~~0b11)
  let oldBar := f.pciReadBar off
  let f := f.pciWriteBar off 0xffffffffffffffff
  let sz := f.pciReadBar off
  let sz := ~~~sz + 1
  let sz := sz &&& 0xffffffff
  let f := f.pciWriteBar off oldBar
  let f := f.pciWriteConw 4 cmd
  (sz,f)

end PciFunction

/-- One of the six places of a base address register, decoding 2^k bytes of memory; `wide` for
64-bit addresses, whose upper half is in the register behind. -/
structure MemoryBar (f : PciFunction) (off k : Nat) (wide : Bool) : Prop where
  place : off % 4 = 0 ∧ 0x10 ≤ off ∧ off ≤ 0x24 ∧ (wide = true → off ≤ 0x20)
  range : 4 ≤ k ∧ k ≤ 31
  writable : ∀ i < 32, (f.rw (off / 4)).getLsbD i = decide (k ≤ i)
  memory : (f.regs (off / 4)).getLsbD 0 = false
  type : (f.regs (off / 4)).getLsbD 1 = false ∧ (f.regs (off / 4)).getLsbD 2 = wide
  sizeBits : ∀ i, 4 ≤ i → i < k → (f.regs (off / 4)).getLsbD i = false
  upper : wide = true → f.rw (off / 4 + 1) = BitVec.allOnes 32

variable {f g : PciFunction} {off k i j : Nat} {wide : Bool}

namespace PciFunction

theorem write_same (f : PciFunction) (i : Nat) (covered value : BitVec 32) :
    (f.write i covered value).regs i =
      (f.regs i &&& ~~~(f.rw i &&& covered)) ||| (value &&& (f.rw i &&& covered)) :=
  Function.update_self ..

theorem write_other {covered value : BitVec 32} (other : j ≠ i) :
    (f.write i covered value).regs j = f.regs j := Function.update_of_ne other ..

@[simp] theorem write_rw (f : PciFunction) (i : Nat) (covered value : BitVec 32) :
    (f.write i covered value).rw = f.rw := rfl

/-- A bit of a register behind a write to it. -/
theorem write_bit (f : PciFunction) (i : Nat) (covered value : BitVec 32) {b : Nat} (inside : b < 32) :
    ((f.write i covered value).regs i).getLsbD b =
      if (f.rw i).getLsbD b && covered.getLsbD b then value.getLsbD b else (f.regs i).getLsbD b := by
  rw [write_same]
  simp only [BitVec.getLsbD_or,BitVec.getLsbD_and,BitVec.getLsbD_not,inside,decide_true,Bool.true_and]
  cases (f.rw i).getLsbD b && covered.getLsbD b <;> simp

end PciFunction

theorem low_ones (b : Nat) : (0b11 : BitVec 64).getLsbD b = decide (b < 2) := by
  rw [show (0b11 : BitVec 64) = (BitVec.allOnes 2).setWidth 64 from rfl,BitVec.getLsbD_setWidth,
    BitVec.getLsbD_allOnes]
  by_cases small : b < 2
  · simp [small,show b < 64 by omega]
  · simp [small]

theorem high_ones (b : Nat) : (0xfffffffffffffff0 : BitVec 64).getLsbD b = decide (4 ≤ b ∧ b < 64) := by
  rw [show (0xfffffffffffffff0 : BitVec 64) = BitVec.allOnes 64 <<< 4 from rfl,BitVec.getLsbD_shiftLeft,
    BitVec.getLsbD_allOnes]
  by_cases low : b < 4
  · have no : ¬(4 ≤ b ∧ b < 64) := fun both => by omega
    simp only [low,no,decide_true,decide_false,Bool.not_true,Bool.and_false,Bool.false_and]
  · by_cases inside : b < 64
    · simp [low,inside,show b - 4 < 64 by omega,show 4 ≤ b by omega]
    · simp [inside]

theorem memory_test {x : BitVec 32} (memory : x.getLsbD 0 = false) : x.setWidth 64 &&& 1 = 0 := by
  apply BitVec.eq_of_getLsbD_eq
  intro b _
  rw [BitVec.getLsbD_and,BitVec.getLsbD_setWidth,show (1 : BitVec 64) = 1#64 from rfl,BitVec.getLsbD_one]
  by_cases first : b = 0
  · rw [first,memory]
    rfl
  · simp [first]

/-- Of the two bits of the type the upper one tells. -/
theorem type_test {x : BitVec 32} (narrow : x.getLsbD 1 = false) :
    (x.setWidth 64 >>> 1) &&& 0b11 ≠ 0 ↔ x.getLsbD 2 = true := by
  have bit (b : Nat) : ((x.setWidth 64 >>> 1) &&& 0b11).getLsbD b =
      (decide (1 + b < 64) && x.getLsbD (1 + b) && decide (b < 2)) := by
    rw [BitVec.getLsbD_and,BitVec.getLsbD_ushiftRight,BitVec.getLsbD_setWidth,low_ones]
  constructor
  · intro some_
    by_contra clear
    apply some_
    apply BitVec.eq_of_getLsbD_eq
    intro b _
    rw [bit]
    match b with
    | 0 =>
      rw [Nat.add_zero,narrow,Bool.and_false,Bool.false_and]
      rfl
    | 1 => simpa using clear
    | b + 2 => simp
  · intro set none_
    have second := bit 1
    rw [none_,set] at second
    cases second

/-- What makes the bits of a base address register one of memory. -/
structure MemoryType (f : PciFunction) (off : Nat) (wide : Bool) : Prop where
  place : off % 4 = 0 ∧ 0x10 ≤ off ∧ off ≤ 0x24 ∧ (wide = true → off ≤ 0x20)
  memory : (f.regs (off / 4)).getLsbD 0 = false
  type : (f.regs (off / 4)).getLsbD 1 = false ∧ (f.regs (off / 4)).getLsbD 2 = wide

theorem MemoryBar.memoryType (bar : MemoryBar f off k wide) : MemoryType f off wide :=
  ⟨bar.place,bar.memory,bar.type⟩

namespace MemoryType

theorem low (bar : MemoryType f off wide) : f.pciReadConi off = f.regs (off / 4) := by
  obtain ⟨_,_,_,_⟩ := bar.place
  rw [PciFunction.pciReadConi,Nat.mod_eq_of_lt (by omega)]

theorem high (bar : MemoryType f off wide) : f.pciReadConi (off + 4) = f.regs (off / 4 + 1) := by
  obtain ⟨_,_,_,_⟩ := bar.place
  rw [PciFunction.pciReadConi,Nat.mod_eq_of_lt (by omega)]
  congr 1
  omega

theorem pciReadBar_bit (bar : MemoryType f off wide) {b : Nat} (inside : b < 64) :
    (f.pciReadBar off).getLsbD b = (decide (4 ≤ b) &&
      if b < 32 then (f.regs (off / 4)).getLsbD b else wide && (f.regs (off / 4 + 1)).getLsbD (b - 32)) := by
  have not_io : ¬(f.regs (off / 4)).setWidth 64 &&& 1 ≠ 0 := fun io => io (memory_test bar.memory)
  have type := type_test bar.type.1
  rw [bar.type.2] at type
  rw [PciFunction.pciReadBar,bar.low,bar.high]
  simp only [if_neg not_io,type,BitVec.getLsbD_and,high_ones]
  cases wide with
  | true =>
    simp only [if_true,BitVec.getLsbD_or,BitVec.getLsbD_shiftLeft,BitVec.getLsbD_setWidth,inside]
    by_cases below : b < 32
    · simp [below,Bool.and_comm]
    · have beyond : (f.regs (off / 4)).getLsbD b = false := BitVec.getLsbD_of_ge _ _ (Nat.le_of_not_lt below)
      simp [below,beyond,Bool.and_comm,show b - 32 < 64 by omega]
  | false =>
    simp only [Bool.false_eq_true,if_false,BitVec.getLsbD_setWidth,inside]
    by_cases below : b < 32
    · simp [below,Bool.and_comm]
    · have beyond : (f.regs (off / 4)).getLsbD b = false := BitVec.getLsbD_of_ge _ _ (Nat.le_of_not_lt below)
      simp [below,beyond]

/-- The upper half is written first. -/
theorem pciWriteBar_eq (bar : MemoryType f off wide) (value : BitVec 64) : f.pciWriteBar off value =
    (if wide = true then f.write (off / 4 + 1) (BitVec.allOnes 32) ((value >>> 32).setWidth 32) else f).write
      (off / 4) (BitVec.allOnes 32) (value.setWidth 32) := by
  obtain ⟨_,_,_,_⟩ := bar.place
  have type := type_test bar.type.1
  rw [bar.type.2] at type
  have first : off % 256 / 4 = off / 4 := by omega
  have second : (off + 4) % 256 / 4 = off / 4 + 1 := by omega
  rw [PciFunction.pciWriteBar,bar.low]
  simp only [memory_test bar.memory,if_true,type,PciFunction.pciWriteConi,first,second]

theorem pciWriteBar_low (bar : MemoryType f off wide) (value : BitVec 64) {b : Nat} (inside : b < 32) :
    ((f.pciWriteBar off value).regs (off / 4)).getLsbD b =
      if (f.rw (off / 4)).getLsbD b then value.getLsbD b else (f.regs (off / 4)).getLsbD b := by
  rw [bar.pciWriteBar_eq,PciFunction.write_bit _ _ _ _ inside,BitVec.getLsbD_allOnes,BitVec.getLsbD_setWidth]
  cases wide with
  | true =>
    have other : off / 4 ≠ off / 4 + 1 := by omega
    simp [inside,PciFunction.write_other other]
  | false => simp [inside]

theorem pciWriteBar_high (bar : MemoryType f off true) (value : BitVec 64) {b : Nat} (inside : b < 32) :
    ((f.pciWriteBar off value).regs (off / 4 + 1)).getLsbD b =
      if (f.rw (off / 4 + 1)).getLsbD b then value.getLsbD (32 + b)
      else (f.regs (off / 4 + 1)).getLsbD b := by
  have other : off / 4 + 1 ≠ off / 4 := by omega
  rw [bar.pciWriteBar_eq,PciFunction.write_other other,if_pos rfl,PciFunction.write_bit _ _ _ _ inside,
    BitVec.getLsbD_allOnes,BitVec.getLsbD_setWidth,BitVec.getLsbD_ushiftRight]
  simp [inside]

theorem pciWriteBar_other (bar : MemoryType f off wide) (value : BitVec 64) (low : i ≠ off / 4)
    (high : wide = true → i ≠ off / 4 + 1) : (f.pciWriteBar off value).regs i = f.regs i := by
  rw [bar.pciWriteBar_eq,PciFunction.write_other low]
  cases wide with
  | true => exact PciFunction.write_other (high rfl)
  | false => rfl

theorem pciWriteBar_rw (bar : MemoryType f off wide) (value : BitVec 64) :
    (f.pciWriteBar off value).rw = f.rw := by
  rw [bar.pciWriteBar_eq]
  cases wide <;> rfl

end MemoryType

/-- A register as it was, and the bits of it that a write changes, makes a register of memory. -/
theorem MemoryBar.congr (bar : MemoryBar f off k wide) (rw_ : g.rw = f.rw)
    (low : ∀ b < k, (g.regs (off / 4)).getLsbD b = (f.regs (off / 4)).getLsbD b) : MemoryBar g off k wide := by
  obtain ⟨lower,upper⟩ := bar.range
  refine ⟨bar.place,bar.range,rw_ ▸ bar.writable,?_,⟨?_,?_⟩,fun i from_ below => ?_,rw_ ▸ bar.upper⟩
  · exact (low 0 (by omega)).trans bar.memory
  · exact (low 1 (by omega)).trans bar.type.1
  · exact (low 2 (by omega)).trans bar.type.2
  · exact (low i below).trans (bar.sizeBits i from_ below)

/-- Writing to the register leaves what it is. -/
theorem MemoryBar.written (bar : MemoryBar f off k wide) (value : BitVec 64) :
    MemoryBar (f.pciWriteBar off value) off k wide := by
  refine bar.congr (bar.memoryType.pciWriteBar_rw value) fun b below => ?_
  have inside : b < 32 := by have := bar.range; omega
  rw [bar.memoryType.pciWriteBar_low value inside,bar.writable b inside,decide_eq_false (by omega)]
  exact if_neg Bool.false_ne_true

theorem neg_ones_shift : ∀ k < 32, 0#32 ++ (-(BitVec.allOnes 32 <<< k) : BitVec 32) = BitVec.ofNat 64 (2^k) := by
  decide

/-- What is left of the size in the lower half. -/
theorem size_of_ones {bar : BitVec 64} (small : k < 32) (low : bar.setWidth 32 = BitVec.allOnes 32 <<< k) :
    (~~~bar + 1) &&& 0xffffffff = BitVec.ofNat 64 (2^k) := by
  have negated : ~~~bar + 1 = -bar := (BitVec.neg_eq_not_add bar).symm
  have masked : -bar &&& 0xffffffff = 0#32 ++ (-bar).setWidth 32 := BitVec.and_setWidth_allOnes 32 32 (-bar)
  rw [negated,masked,BitVec.setWidth_neg_of_le (by decide),low,neg_ones_shift k small]

theorem pciReadConw_four (f : PciFunction) : f.pciReadConw 4 = (f.regs 1).setWidth 16 := by
  rw [PciFunction.pciReadConw]
  simp

/-- Writing the lower half of a register. -/
theorem pciWriteConw_four (f : PciFunction) (value : BitVec 16) : f.pciWriteConw 4 value =
    f.write 1 ((BitVec.allOnes 16).setWidth 32) (value.setWidth 32) := by
  rw [PciFunction.pciWriteConw]
  simp

/-- A bit of the command register, and of the status behind it, after a write to the command. -/
theorem pciWriteConw_bit (f : PciFunction) (value : BitVec 16) {b : Nat} (inside : b < 32) :
    ((f.pciWriteConw 4 value).regs 1).getLsbD b =
      if (f.rw 1).getLsbD b && decide (b < 16) then value.getLsbD b else (f.regs 1).getLsbD b := by
  have covered : ((BitVec.allOnes 16).setWidth 32).getLsbD b = decide (b < 16) := by
    rw [BitVec.getLsbD_setWidth,BitVec.getLsbD_allOnes,decide_eq_true inside,Bool.true_and]
  rw [pciWriteConw_four,PciFunction.write_bit _ _ _ _ inside,covered,BitVec.getLsbD_setWidth,
    decide_eq_true inside,Bool.true_and]

/-- With all ones written the register reads as the size mask. -/
theorem MemoryBar.ones (bar : MemoryBar f off k wide) :
    ((f.pciWriteBar off 0xffffffffffffffff).pciReadBar off).setWidth 32 = BitVec.allOnes 32 <<< k := by
  obtain ⟨lower,upper⟩ := bar.range
  apply BitVec.eq_of_getLsbD_eq
  intro b inside
  have ones : (0xffffffffffffffff : BitVec 64).getLsbD b = true := by
    rw [show (0xffffffffffffffff : BitVec 64) = BitVec.allOnes 64 from rfl,BitVec.getLsbD_allOnes]
    exact decide_eq_true (by omega)
  rw [BitVec.getLsbD_setWidth,(bar.written _).memoryType.pciReadBar_bit (by omega),if_pos inside,
    bar.memoryType.pciWriteBar_low _ inside,bar.writable b inside,ones,BitVec.getLsbD_shiftLeft,
    BitVec.getLsbD_allOnes]
  by_cases small : b < k
  · have clear : 4 ≤ b → (f.regs (off / 4)).getLsbD b = false := fun from_ => bar.sizeBits b from_ small
    by_cases from_ : 4 ≤ b
    · simp [small,Nat.not_le.mpr small,clear from_]
    · simp [small,from_]
  · simp [inside,small,Nat.le_of_not_lt small,show 4 ≤ b by omega,show b - k < 32 by omega]

/-- Writing back what was read puts the register back. -/
theorem MemoryBar.restored (bar : MemoryBar f off k wide) (value : BitVec 64) :
    (f.pciWriteBar off value).pciWriteBar off (f.pciReadBar off) = f := by
  obtain ⟨lower,upper⟩ := bar.range
  have type := bar.memoryType
  have type' := (bar.written value).memoryType
  have rw_ : ((f.pciWriteBar off value).pciWriteBar off (f.pciReadBar off)).rw = f.rw :=
    (type'.pciWriteBar_rw _).trans (type.pciWriteBar_rw value)
  have regs : ((f.pciWriteBar off value).pciWriteBar off (f.pciReadBar off)).regs = f.regs := by
    funext i
    by_cases low : i = off / 4
    · subst low
      apply BitVec.eq_of_getLsbD_eq
      intro b inside
      rw [type'.pciWriteBar_low _ inside,type.pciWriteBar_low _ inside,type.pciWriteBar_rw,
        bar.writable b inside,type.pciReadBar_bit (by omega),if_pos inside]
      by_cases small : k ≤ b
      · simp [small,show 4 ≤ b by omega]
      · simp [small]
    by_cases high : wide = true ∧ i = off / 4 + 1
    · obtain ⟨rfl,rfl⟩ := high
      apply BitVec.eq_of_getLsbD_eq
      intro b inside
      rw [type'.pciWriteBar_high _ inside,type.pciWriteBar_rw,bar.upper rfl,BitVec.getLsbD_allOnes,
        decide_eq_true inside,if_pos rfl,type.pciReadBar_bit (by omega),if_neg (by omega),
        Nat.add_sub_cancel_left]
      simp [show 4 ≤ 32 + b by omega]
    · have other : wide = true → i ≠ off / 4 + 1 := fun yes same => high ⟨yes,same⟩
      rw [type'.pciWriteBar_other _ low other,type.pciWriteBar_other _ low other]
  exact PciFunction.ext regs rw_

/-- Writing the command twice, the second time as it was. -/
theorem command_restored (f : PciFunction) (value : BitVec 16) :
    (f.pciWriteConw 4 value).pciWriteConw 4 (f.pciReadConw 4) = f := by
  have regs : ((f.pciWriteConw 4 value).pciWriteConw 4 (f.pciReadConw 4)).regs = f.regs := by
    funext i
    by_cases first : i = 1
    · subst first
      apply BitVec.eq_of_getLsbD_eq
      intro b inside
      rw [pciWriteConw_bit _ _ inside,pciWriteConw_bit _ _ inside,pciReadConw_four,BitVec.getLsbD_setWidth]
      by_cases half : b < 16
      · cases writes : (f.rw 1).getLsbD b <;> simp [half,pciWriteConw_four,writes]
      · simp [half]
    · rw [pciWriteConw_four,PciFunction.write_other first,pciWriteConw_four,PciFunction.write_other first]
  exact PciFunction.ext regs rfl

namespace PciFunction

/-- What of a base address register tells that it goes on in the next one. -/
def hasUpper (bar : BitVec 32) : Bool :=
  decide (bar.setWidth 64 &&& 1 = 0) && decide ((bar.setWidth 64 >>> 1) &&& 0b11 ≠ 0)

theorem pciWriteBar_first (f : PciFunction) (value : BitVec 64) : f.pciWriteBar 0x10 value =
    (if hasUpper (f.regs 4) = true then f.write 5 (BitVec.allOnes 32) ((value >>> 32).setWidth 32) else f).write 4
      (BitVec.allOnes 32) (value.setWidth 32) := by
  have first : f.pciReadConi 0x10 = f.regs 4 := rfl
  rw [pciWriteBar,first,hasUpper]
  by_cases memory : (f.regs 4).setWidth 64 &&& 1 = 0
  · by_cases type : ((f.regs 4).setWidth 64 >>> 1) &&& 0b11 = 0
    · simp only [memory,type,if_true,ne_eq,not_true,if_false,decide_false,Bool.and_false,Bool.false_eq_true]
      rfl
    · simp only [memory,type,if_true,ne_eq,not_false_eq_true,decide_true,Bool.and_true]
      rfl
  · simp only [memory,if_false,decide_false,Bool.false_and,Bool.false_eq_true]
    rfl

/-- The three low bits decide. -/
theorem hasUpper_congr {x y : BitVec 32} (low : ∀ b < 3, x.getLsbD b = y.getLsbD b) : hasUpper x = hasUpper y := by
  have memory : x.setWidth 64 &&& 1 = y.setWidth 64 &&& 1 := by
    apply BitVec.eq_of_getLsbD_eq
    intro b _
    rw [BitVec.getLsbD_and,BitVec.getLsbD_and,BitVec.getLsbD_setWidth,BitVec.getLsbD_setWidth,
      show (1 : BitVec 64) = 1#64 from rfl,BitVec.getLsbD_one]
    by_cases first : b = 0
    · rw [first,low 0 (by decide)]
    · simp only [first,decide_false,Bool.and_false]
  have type : (x.setWidth 64 >>> 1) &&& (0b11 : BitVec 64) = (y.setWidth 64 >>> 1) &&& (0b11 : BitVec 64) := by
    apply BitVec.eq_of_getLsbD_eq
    intro b _
    rw [BitVec.getLsbD_and,BitVec.getLsbD_and,BitVec.getLsbD_ushiftRight,BitVec.getLsbD_ushiftRight,
      BitVec.getLsbD_setWidth,BitVec.getLsbD_setWidth,low_ones]
    by_cases small : b < 2
    · rw [low (1 + b) (by omega)]
    · simp only [small,decide_false,Bool.and_false]
  rw [hasUpper,hasUpper,memory,type]

theorem pciReadBar_low (f : PciFunction) {b : Nat} (from_ : 4 ≤ b) (inside : b < 32) :
    (f.pciReadBar 0x10).getLsbD b = (f.regs 4).getLsbD b := by
  have first : f.pciReadConi 0x10 = f.regs 4 := rfl
  have io : (0xfffffffc : BitVec 64).getLsbD b = true := by
    rw [show (0xfffffffc : BitVec 64) = (BitVec.allOnes 30).setWidth 64 <<< 2 from rfl,BitVec.getLsbD_shiftLeft,
      BitVec.getLsbD_setWidth,BitVec.getLsbD_allOnes]
    simp [show b < 64 by omega,show ¬b < 2 by omega,show b - 2 < 64 by omega,show b - 2 < 30 by omega]
  rw [pciReadBar,first]
  dsimp only
  split
  · rw [BitVec.getLsbD_and,io,BitVec.getLsbD_setWidth]
    simp [show b < 64 by omega]
  · rw [BitVec.getLsbD_and,high_ones,decide_eq_true ⟨from_,by omega⟩,Bool.and_true]
    split
    · rw [BitVec.getLsbD_or,BitVec.getLsbD_shiftLeft,BitVec.getLsbD_setWidth]
      simp [inside,show b < 64 by omega]
    · rw [BitVec.getLsbD_setWidth]
      simp [show b < 64 by omega]

theorem pciReadBar_high (f : PciFunction) (upper : hasUpper (f.regs 4) = true) {b : Nat} (inside : b < 32) :
    (f.pciReadBar 0x10).getLsbD (32 + b) = (f.regs 5).getLsbD b := by
  have first : f.pciReadConi 0x10 = f.regs 4 := rfl
  have second : f.pciReadConi (0x10 + 4) = f.regs 5 := rfl
  obtain ⟨memory,type⟩ := Bool.and_eq_true_iff.mp upper
  have memory := of_decide_eq_true memory
  have type := of_decide_eq_true type
  have beyond : (f.regs 4).getLsbD (32 + b) = false := BitVec.getLsbD_of_ge _ _ (Nat.le_add_right ..)
  rw [pciReadBar,first,second]
  simp only [memory,type,ne_eq,not_true,not_false_eq_true,if_true,if_false,BitVec.getLsbD_and,high_ones,
    BitVec.getLsbD_or,BitVec.getLsbD_shiftLeft,BitVec.getLsbD_setWidth,beyond]
  simp [show 32 + b < 64 by omega,show b < 64 by omega,show 4 ≤ 32 + b by omega]

theorem pciWriteBar_kept (f : PciFunction) (value : BitVec 64) (low : i ≠ 4) (high : i ≠ 5) :
    (f.pciWriteBar 0x10 value).regs i = f.regs i := by
  rw [pciWriteBar_first,write_other low]
  split
  · exact write_other high
  · rfl

theorem pciWriteBar_four (f : PciFunction) (value : BitVec 64) {b : Nat} (inside : b < 32) :
    ((f.pciWriteBar 0x10 value).regs 4).getLsbD b =
      if (f.rw 4).getLsbD b then value.getLsbD b else (f.regs 4).getLsbD b := by
  have other : (4 : Nat) ≠ 5 := by decide
  rw [pciWriteBar_first,write_bit _ _ _ _ inside,BitVec.getLsbD_allOnes,BitVec.getLsbD_setWidth,decide_eq_true inside,
    Bool.and_true,Bool.true_and]
  split <;> simp only [write_rw,write_other other]

theorem pciWriteBar_five (f : PciFunction) (value : BitVec 64) {b : Nat} (inside : b < 32) :
    ((f.pciWriteBar 0x10 value).regs 5).getLsbD b =
      if hasUpper (f.regs 4) && (f.rw 5).getLsbD b then value.getLsbD (32 + b) else (f.regs 5).getLsbD b := by
  have other : (5 : Nat) ≠ 4 := by decide
  rw [pciWriteBar_first,write_other other]
  split
  · next upper =>
    rw [write_bit _ _ _ _ inside,BitVec.getLsbD_allOnes,BitVec.getLsbD_setWidth,BitVec.getLsbD_ushiftRight,
      decide_eq_true inside,upper,Bool.and_true,Bool.true_and,Bool.true_and]
  · next upper => rw [Bool.eq_false_iff.mpr upper,Bool.false_and,if_neg Bool.false_ne_true]

theorem pciWriteBar_writable (f : PciFunction) (value : BitVec 64) : (f.pciWriteBar 0x10 value).rw = f.rw := by
  rw [pciWriteBar_first]
  split <;> rfl

/-- Where the low four bits of the first register are fixed, writing back what was read puts it back. -/
theorem pciWriteBar_restored (f : PciFunction) (fixed : ∀ b < 4, (f.rw 4).getLsbD b = false) (value : BitVec 64) :
    (f.pciWriteBar 0x10 value).pciWriteBar 0x10 (f.pciReadBar 0x10) = f := by
  have upper : hasUpper ((f.pciWriteBar 0x10 value).regs 4) = hasUpper (f.regs 4) := by
    refine hasUpper_congr fun b small => ?_
    rw [pciWriteBar_four f value (by omega),fixed b (by omega),if_neg Bool.false_ne_true]
  refine PciFunction.ext ?_ ((pciWriteBar_writable _ _).trans (pciWriteBar_writable _ _))
  funext i
  by_cases low : i = 4
  · subst low
    apply BitVec.eq_of_getLsbD_eq
    intro b inside
    rw [pciWriteBar_four _ _ inside,pciWriteBar_four _ _ inside,pciWriteBar_writable]
    by_cases from_ : 4 ≤ b
    · rw [pciReadBar_low f from_ inside]
      split <;> rfl
    · simp only [fixed b (by omega),Bool.false_eq_true,if_false]
  by_cases high : i = 5
  · subst high
    apply BitVec.eq_of_getLsbD_eq
    intro b inside
    rw [pciWriteBar_five _ _ inside,pciWriteBar_five _ _ inside,pciWriteBar_writable,upper]
    cases wide : hasUpper (f.regs 4) with
    | false => simp only [Bool.false_and,Bool.false_eq_true,if_false]
    | true =>
      rw [pciReadBar_high f wide inside]
      split <;> rfl
  · rw [pciWriteBar_kept _ _ low high,pciWriteBar_kept _ _ low high]

/-- So sizing it changes nothing. -/
theorem pciReadBarSize_restored (f : PciFunction) (fixed : ∀ b < 4, (f.rw 4).getLsbD b = false) :
    (f.pciReadBarSize 0x10).2 = f := by
  rw [pciReadBarSize]
  dsimp only
  rw [pciWriteBar_restored (f.pciWriteConw 4 _) fixed,command_restored]

end PciFunction
/-- The size of a memory BAR is found, and every register is left as it was. -/
theorem bar_size (bar : MemoryBar f off k wide) : f.pciReadBarSize off = (BitVec.ofNat 64 (2^k),f) := by
  obtain ⟨lower,upper⟩ := bar.range
  obtain ⟨_,_,_,_⟩ := bar.place
  have other : off / 4 ≠ 1 := by omega
  have disabled (value : BitVec 16) : MemoryBar (f.pciWriteConw 4 value) off k wide := by
    refine bar.congr rfl fun b _ => ?_
    rw [pciWriteConw_four,PciFunction.write_other other]
  have bar1 := disabled (f.pciReadConw 4 &&& ~~~0b11)
  rw [PciFunction.pciReadBarSize,size_of_ones (by omega) bar1.ones,bar1.restored,command_restored]

/-- The second BAR of a function, for 2^20 bytes anywhere below 2^64, programmed to 0x1_fe00_0000. -/
def probedFunction : PciFunction where
  regs i := if i = 1 then 0x00100007 else if i = 5 then 0xfe000004 else if i = 6 then 1 else 0
  rw i := if i = 1 then 0x0547 else if i = 5 then 0xfff00000 else if i = 6 then 0xffffffff else 0

theorem bar_size_wide : probedFunction.pciReadBarSize 0x14 = (0x100000,probedFunction) := by
  have sizeBits : ∀ b < 20, 4 ≤ b → (probedFunction.regs (0x14 / 4)).getLsbD b = false := by decide
  have bar : MemoryBar probedFunction 0x14 20 true :=
    ⟨by decide,by decide,by decide,by decide,by decide,fun b from_ below => sizeBits b below from_,fun _ => rfl⟩
  exact bar_size bar

end Siegfried
