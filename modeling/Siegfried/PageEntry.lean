import Mathlib.Algebra.Group.Int.Defs
import Mathlib.Algebra.Group.Nat.Defs

/-! The 64-bit entries of `page.h`. The unions `pml4e`, `pdpte` and `pde` name the
same bits differently, so one record holds their common refinement, lowest bit
first. -/
namespace Siegfried

/-- `dirty` is bit 6, which `pml4e` and `pdpte` call `is_krnl_pg`; `ps` is bit 7,
`rsvd` in a `pml4e`. The 28-bit `paddr` of `pml4e` and `pdpte` is `attr`, `rsvd8`
and the 19-bit `paddr` of `pde` in a row. -/
structure Entry where
  present : Bool
  rw : Bool
  isuser : Bool
  writeThrough : Bool
  nocache : Bool
  isaccessed : Bool
  dirty : Bool
  ps : Bool
  custom4 : BitVec 4
  attr : BitVec 1
  rsvd8 : BitVec 8
  paddr : BitVec 19
  paddrU : BitVec 8
  rsvd4 : BitVec 4
  avl6 : BitVec 6
  isKrnlPg : Bool
  pkey : BitVec 4
  noexec : Bool
  deriving DecidableEq, Repr

namespace Entry

/-- `raw = 0`. -/
def zero : Entry :=
  ⟨false,false,false,false,false,false,false,false,0,0,0,0,0,0,0,false,0,false⟩

instance : Inhabited Entry := ⟨zero⟩

/-- The field `paddr` of a `pml4e` or `pdpte`. -/
def paddr28 (e : Entry) : Nat := e.attr.toNat + 2 * e.rsvd8.toNat + 2^9 * e.paddr.toNat

/-- The cast to `unsigned long` covers `paddr` only: `paddrU << 28` is a 32-bit
`int` shift whose result is sign extended. The bits or'ed are disjoint. -/
def getPaddr (e : Entry) : Nat :=
  let shifted := e.paddrU.toNat * 2^28 % 2^32
  let extended := if shifted < 2^31 then shifted else shifted + (2^64 - 2^32)
  (e.paddr28 + extended) * 2^12 % 2^64

def setPaddr (e : Entry) (inaddr : Nat) : Entry :=
  { e with
    attr := BitVec.ofNat 1 (inaddr / 2^12)
    rsvd8 := BitVec.ofNat 8 (inaddr / 2^13)
    paddr := BitVec.ofNat 19 (inaddr / 2^21)
    paddrU := BitVec.ofNat 8 (inaddr / 2^40)
    noexec := false
    rsvd4 := 0
    ps := false }

def setPaddrPde (e : Entry) (inaddr : Nat) : Entry :=
  { e with
    paddr := BitVec.ofNat 19 (inaddr / 2^21)
    paddrU := BitVec.ofNat 8 (inaddr / 2^40)
    noexec := false
    rsvd4 := 0
    rsvd8 := 0
    pkey := 0 }

/-- The address of the next table as the processor reads it, bits 12 to 47. -/
def next (e : Entry) : Nat := e.paddr28 * 2^12 + e.paddrU.toNat * 2^40

/-- The 2 MB frame a large-page entry maps, bits 21 to 47. -/
def frame (e : Entry) : Nat := e.paddr.toNat + e.paddrU.toNat * 2^19

/-- The table an entry of an upper level names. -/
def child (e : Entry) : Option Nat := if e.present then some e.next else none

@[simp] theorem child_zero : zero.child = none := rfl

theorem child_some {e : Entry} {c : Nat} : e.child = some c ↔ e.present = true ∧ e.next = c := by
  simp [child]

theorem child_none {e : Entry} : e.child = none ↔ e.present = false := by
  simp [child]

theorem next_setPaddr (e : Entry) {a : Nat} (aligned : a % 2^12 = 0) (bound : a < 2^48) :
    (e.setPaddr a).next = a := by
  simp only [next,paddr28,setPaddr,BitVec.toNat_ofNat]
  omega

theorem getPaddr_setPaddr (e : Entry) {a : Nat} (aligned : a % 2^12 = 0) (bound : a < 2^43) :
    (e.setPaddr a).getPaddr = a := by
  have high : a / 2^40 % 2^8 * 2^28 % 2^32 < 2^31 := by omega
  simp only [getPaddr,paddr28,setPaddr,BitVec.toNat_ofNat,if_pos high]
  omega

/-- Below 8 TiB the software decoding agrees with the processor's. -/
theorem getPaddr_eq_next {e : Entry} (bound : e.next < 2^43) : e.getPaddr = e.next := by
  have paddrU := e.paddrU.isLt
  have paddr := e.paddr.isLt
  have rsvd8 := e.rsvd8.isLt
  have attr := e.attr.isLt
  unfold next paddr28 at bound
  have high : e.paddrU.toNat * 2^28 % 2^32 < 2^31 := by omega
  simp only [getPaddr,next,paddr28,if_pos high]
  omega

theorem frame_setPaddrPde (e : Entry) (a : Nat) :
    (e.setPaddrPde a).frame = a / 2^21 % 2^27 := by
  simp only [frame,setPaddrPde,BitVec.toNat_ofNat]
  omega

/-- `set_paddr` on a large-page entry stores the frame too, with the bits below
2 MB in the reserved fields. -/
theorem frame_setPaddr (e : Entry) (a : Nat) : (e.setPaddr a).frame = a / 2^21 % 2^27 := by
  simp only [frame,setPaddr,BitVec.toNat_ofNat]
  omega

/-- Reading a large-page entry with the layout of a `pml4e` gives the start of
its frame, provided the bits between are clear and the frame lies below 8 TiB. -/
theorem getPaddr_frame {e : Entry} (attr : e.attr = 0) (rsvd8 : e.rsvd8 = 0)
    (bound : e.frame < 2^22) : e.getPaddr = e.frame * 2^21 := by
  have same : e.next = e.frame * 2^21 := by
    simp only [next,paddr28,frame,attr,rsvd8]
    simp
    omega
  rw [getPaddr_eq_next (by omega),same]

end Entry

/-- A table page that can be reached through the entries that name it: following
one with `get_paddr` leads to it. -/
def Addressable (p : Nat) : Prop :=
  p % 2^12 = 0 ∧ p < 2^48 ∧ ∀ e : Entry, e.next = p → e.getPaddr = p

theorem addressable_of_lt {p : Nat} (aligned : p % 2^12 = 0) (bound : p < 2^43) :
    Addressable p :=
  ⟨aligned,by omega,fun _ h => by rw [Entry.getPaddr_eq_next (h ▸ bound),h]⟩

end Siegfried
