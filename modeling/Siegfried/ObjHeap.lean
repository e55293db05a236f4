import Siegfried.MemCpy

/-! `obj_heap.c`: the kernel's heap. A major is a run of pages from `page_find_and_alloc`; the
minors in it are the headers of the blocks that have been handed out. -/
namespace Siegfried.ObjHeap
open Bytes

/-- `liballoc_major`. -/
structure Major where
  prev : Nat
  next : Nat
  pages : Nat
  size : Nat
  usage : Nat
  first : Nat

/-- `liballoc_minor`. -/
structure Minor where
  prev : Nat
  next : Nat
  block : Nat
  magic : Nat
  size : Nat
  reqSize : Nat

def major (m : Store) (a : Nat) : Major :=
  ⟨read m a 8,read m (a + 8) 8,read m (a + 16) 4,read m (a + 20) 4,read m (a + 24) 4,read m (a + 28) 8⟩

def minor (m : Store) (a : Nat) : Minor :=
  ⟨read m a 8,read m (a + 8) 8,read m (a + 16) 8,read m (a + 24) 4,read m (a + 28) 4,read m (a + 32) 4⟩

def storeMajor (m : Store) (a : Nat) (j : Major) : Store :=
  write (write (write (write (write (write m a 8 j.prev) (a + 8) 8 j.next) (a + 16) 4 j.pages) (a + 20) 4 j.size)
    (a + 24) 4 j.usage) (a + 28) 8 j.first

def storeMinor (m : Store) (a : Nat) (n : Minor) : Store :=
  write (write (write (write (write (write m a 8 n.prev) (a + 8) 8 n.next) (a + 16) 8 n.block) (a + 24) 4 n.magic)
    (a + 28) 4 n.size) (a + 32) 4 n.reqSize

def magic : Nat := 0xc001c0de
def dead : Nat := 0xdeaddead

/-- `a - b` in an `unsigned long`, and in an `unsigned int`. -/
def sub64 (a b : Nat) : Nat := (a + 2^64 - b) % 2^64
def sub32 (a b : Nat) : Nat := (a + 2^32 - b) % 2^32

/-- The variables of `obj_heap.c` and what its functions work on. `held` is read by no function: it
records the runs that `page_find_and_alloc` has given and that are not given back. -/
structure Liballoc where
  mem : Store
  memRoot : Nat
  bestBet : Nat
  allocated : Nat
  inuse : Nat
  warningCount : Nat
  errorCount : Nat
  possibleOverruns : Nat
  blks : Nat
  cr3 : Nat
  pml4Table : Nat
  held : List (Nat × Nat)

namespace Liballoc

/-- An assignment to fields of a major: the other fields keep their bytes. -/
def setMajor (s : Liballoc) (a : Nat) (f : Major → Major) : Liballoc :=
  { s with mem := storeMajor s.mem a (f (major s.mem a)) }

def setMinor (s : Liballoc) (a : Nat) (f : Minor → Minor) : Liballoc :=
  { s with mem := storeMinor s.mem a (f (minor s.mem a)) }

end Liballoc

/-- `ALIGN`. -/
def align (m : Store) (ptr : Nat) : Store × Nat :=
  let ptr := ptr + 16
  let diff := ptr % 128
  let (ptr,diff) := if diff ≠ 0 then (ptr + (128 - diff),128 - diff) else (ptr,diff)
  (Function.update m (ptr - 16) (.ofNat (diff + 16)),ptr)

/-- `UNALIGN`. -/
def unalign (m : Store) (ptr : Nat) : Nat :=
  let diff := (m (ptr - 16)).toNat
  if diff < 128 + 16 then ptr - diff else ptr

section Alloc
/- `page m n` is what `page_find_and_alloc` does with the memory and returns for `n` pages. -/
variable (page : Store → Nat → Store × Nat) (s : Liballoc)

def liballocAlloc (sz : Nat) : Liballoc × Nat :=
  let (mem,tmp) := page s.mem sz
  ({ s with mem := mem, blks := (s.blks + 1) % 2^64, held := if tmp = 0 then s.held else (tmp,sz) :: s.held },tmp)

def liballocFree (inn sz : Nat) : Liballoc :=
  { s with blks := sub64 s.blks 1, held := s.held.erase (inn,sz) }

/-- `size` is converted to an `unsigned int`, and so are the sums. -/
def allocateNewPage (size : Nat) : Liballoc × Nat :=
  let st := (size + 36) % 2^32
  let st := (st + 36) % 2^32
  let st := if st % 2097152 = 0 then st / 2097152 else st / 2097152 + 1
  let st := if st < 1 then 1 else st
  let (s,maj) := liballocAlloc page s st
  if maj = 0 then ({ s with warningCount := s.warningCount + 1 },0)
  else
    let size := st * 2097152 % 2^32
    ({ s with mem := storeMajor s.mem maj ⟨0,0,st,size,36,0⟩, allocated := (s.allocated + size) % 2^64 },maj)

variable (maj size reqSize : Nat)

/-- The header at `at_` is filled in, and the block behind it is handed out. -/
def newMinor (at_ prev next : Nat) : Liballoc × Nat :=
  let s := s.setMinor at_ fun _ => ⟨prev,next,maj,magic,size,reqSize⟩
  let s := s.setMajor maj fun j => { j with usage := j.usage + size + 36 }
  let s := { s with inuse := (s.inuse + size) % 2^64 }
  let (mem,p) := align s.mem (at_ + 36)
  ({ s with mem := mem },p)

/-- `CASE 4`. The outer option is for the turns, the inner one for whether there is space. -/
def space : Nat → Nat → Option (Option (Liballoc × Nat))
  | 0, _ => none
  | fuel + 1, min =>
    if min = 0 then some none
    else
      let here := minor s.mem min
      let behind := (min + 36 + here.size) % 2^64
      if here.next = 0 then
        -- CASE 4.1
        let diff := sub64 (sub64 (sub64 ((maj + (major s.mem maj).size) % 2^64) min) 36) here.size
        if size + 36 ≤ diff then
          let s := s.setMinor min fun n => { n with next := behind }
          some (newMinor s maj size reqSize behind min 0)
        else space fuel here.next
      else
        -- CASE 4.2
        let diff := sub64 (sub64 (sub64 here.next min) 36) here.size
        if size + 36 ≤ diff then
          let s := s.setMinor here.next fun n => { n with prev := behind }
          let s := s.setMinor min fun n => { n with next := behind }
          some (newMinor s maj size reqSize behind min here.next)
        else space fuel here.next

/-- `CASE 2` to `CASE 4` of one major. -/
def place (fuel : Nat) : Option (Option (Liballoc × Nat)) :=
  let first := (major s.mem maj).first
  if first = 0 then
    -- CASE 2
    let s := s.setMajor maj fun j => { j with first := maj + 36 }
    some (newMinor s maj size reqSize (maj + 36) 0 0)
  else if size + 36 ≤ sub64 (sub64 first maj) 36 then
    -- CASE 3
    let s := s.setMinor first fun n => { n with prev := maj + 36 }
    let s := s.setMajor maj fun j => { j with first := maj + 36 }
    some (newMinor s maj size reqSize (maj + 36) 0 first)
  else space s maj size reqSize fuel first

/-- Another run of pages behind the last one. -/
def appendNewPage : Liballoc × Nat :=
  let (s,next) := allocateNewPage page s size
  let s := s.setMajor maj fun j => { j with next := next }
  (if next = 0 then s else s.setMajor next fun j => { j with prev := maj },next)

/-- `Remember!` -/
def remember (diff bestSize : Nat) : Liballoc × Nat :=
  if bestSize < diff then ({ s with bestBet := maj },diff) else (s,bestSize)

section Turn
/- `loop` is what comes behind a turn of the loop over the majors. It does not end without pages:
`WARN: RETURNING 0 LIBALLOC`. -/
variable (size reqSize fuel : Nat) (loop : Liballoc → Nat → Bool → Nat → Option (Liballoc × Nat))

/-- `CASE 5`. -/
def blockFull (s : Liballoc) (maj : Nat) (startedBet : Bool) (bestSize : Nat) : Option (Liballoc × Nat) :=
  if (major s.mem maj).next ≠ 0 then loop s (major s.mem maj).next startedBet bestSize
  else if startedBet then loop s s.memRoot false bestSize
  else if (appendNewPage page s maj size).2 = 0 then none
  else loop (appendNewPage page s maj size).1 (appendNewPage page s maj size).2 startedBet bestSize

/-- From `CASE 2` on. -/
def tryBlock (s : Liballoc) (maj : Nat) (startedBet : Bool) (bestSize : Nat) : Option (Liballoc × Nat) :=
  if maj = 0 then none
  else match place s maj size reqSize fuel with
    | none => none
    | some (some r) => some r
    | some none => blockFull page size loop s maj startedBet bestSize

/-- From `CASE 1` on, with `diff` bytes that are free in the major. -/
def tryMajor (diff : Nat) (s : Liballoc) (maj : Nat) (startedBet : Bool) (bestSize : Nat) : Option (Liballoc × Nat) :=
  if diff < size + 36 then
    if (major s.mem maj).next ≠ 0 then loop s (major s.mem maj).next startedBet bestSize
    else if startedBet then loop s s.memRoot false bestSize
    else tryBlock page size reqSize fuel loop (appendNewPage page s maj size).1 (appendNewPage page s maj size).2
      startedBet bestSize
  else tryBlock page size reqSize fuel loop s maj startedBet bestSize

def turn (s : Liballoc) (maj : Nat) (startedBet : Bool) (bestSize : Nat) : Option (Liballoc × Nat) :=
  let diff := sub32 (major s.mem maj).size (major s.mem maj).usage
  tryMajor page size reqSize fuel loop diff (remember s maj diff bestSize).1 maj startedBet
    (remember s maj diff bestSize).2

end Turn

/-- The loop over the majors. -/
def allocLoop (size reqSize : Nat) : Nat → Liballoc → Nat → Bool → Nat → Option (Liballoc × Nat)
  | 0 => fun _ _ _ _ => none
  | fuel + 1 => turn page size reqSize fuel (allocLoop size reqSize fuel)

/-- The first time, pages are taken for the root. -/
def initRoot (size : Nat) : Liballoc :=
  if s.memRoot = 0 then { (allocateNewPage page s size).1 with memRoot := (allocateNewPage page s size).2 } else s

/-- Start at the best bet. -/
def search (fuel reqSize size : Nat) : Option (Liballoc × Nat) :=
  if s.bestBet ≠ 0 then
    let bestSize := sub32 (major s.mem s.bestBet).size (major s.mem s.bestBet).usage
    if size + 36 < bestSize then allocLoop page size reqSize fuel s s.bestBet true bestSize
    else allocLoop page size reqSize fuel s s.memRoot false bestSize
  else allocLoop page size reqSize fuel s s.memRoot false 0

/-- `k_obj_alloc_2` for a size that is not zero with the space to align. -/
def objAlloc (fuel : Nat) (reqSize size : Nat) : Option (Liballoc × Nat) :=
  let old := s.cr3
  let s := initRoot page { s with cr3 := s.pml4Table } size
  if s.memRoot = 0 then some (s,0)
  -- OOM DETECTED
  else if (major s.mem s.memRoot).first = 0xdeadbeef then none
  else (search page s fuel reqSize size).map fun r => ({ r.1 with cr3 := old },r.2)

/-- An address below 2 MB is taken for an error, and the kernel stops. -/
def kObjAlloc (fuel : Nat) (reqSize : Nat) : Option (Liballoc × Nat) :=
  let size := (reqSize + (128 + 16)) % 2^64
  let tmp := if size = 0 then objAlloc page { s with warningCount := s.warningCount + 1 } fuel 1 (1 + (128 + 16))
    else objAlloc page s fuel reqSize size
  tmp.bind fun r => if r.2 < 0x200000 then none else some r

end Alloc

/-- The signed value of an `unsigned int`. -/
def toInt (a : Nat) : Int := if a < 2^31 then a else a - 2^32

section Free
variable (s : Liballoc)

/-- A minor with these fields is taken out of the list of its major. -/
def unlinkMinor (maj : Nat) (n : Minor) : Liballoc :=
  let s := if n.next ≠ 0 then s.setMinor n.next fun b => { b with prev := n.prev } else s
  let s := if n.prev ≠ 0 then s.setMinor n.prev fun b => { b with next := n.next } else s
  if n.prev = 0 then s.setMajor maj fun j => { j with first := n.next } else s

/-- The neighbours of a major with these fields are linked to each other. -/
def relinkMajors (j : Major) : Liballoc :=
  let s := if j.prev ≠ 0 then s.setMajor j.prev fun b => { b with next := j.next } else s
  if j.next ≠ 0 then s.setMajor j.next fun b => { b with prev := j.prev } else s

/-- A major with these fields is taken out of the list of the majors, and its pages go back. -/
def unlinkMajor (maj : Nat) (j : Major) : Liballoc :=
  let s := { s with
    memRoot := if s.memRoot = maj then j.next else s.memRoot
    bestBet := if s.bestBet = maj then 0 else s.bestBet }
  let s := relinkMajors s j
  liballocFree { s with allocated := sub64 s.allocated j.size } maj j.pages

/-- What is free in a major, as an `int`. -/
def freeSize (maj : Nat) : Int := toInt (sub32 (major s.mem maj).size (major s.mem maj).usage)

def betterBet (maj : Nat) : Liballoc :=
  if s.bestBet ≠ 0 ∧ freeSize s s.bestBet < freeSize s maj then { s with bestBet := maj } else s

/-- A block is taken out of its major. -/
def takeOut (min : Nat) : Liballoc :=
  let n := minor s.mem min
  let s := { s with inuse := sub64 s.inuse n.size }
  let s := s.setMajor n.block fun j => { j with usage := sub32 j.usage ((n.size + 36) % 2^32) }
  let s := s.setMinor min fun n => { n with magic := dead }
  unlinkMinor s n.block n

/-- A major without a block is given back. -/
def cleanUp (maj : Nat) : Liballoc :=
  if (major s.mem maj).first = 0 then unlinkMajor s maj (major s.mem maj) else betterBet s maj

/-- A pointer to anything but a block ends in an endless loop. -/
def kObjFree (ptr : Nat) : Option Liballoc :=
  let oldTab := s.cr3
  let s := { s with cr3 := s.pml4Table }
  if ptr = 0 then some { s with warningCount := s.warningCount + 1 }
  else
    let min := sub64 (unalign s.mem ptr) 36
    if (minor s.mem min).magic ≠ magic then none
    else some { cleanUp (takeOut s min) (minor s.mem min).block with cr3 := oldTab }

end Free

/-- `liballoc_memset`, which does not end for 2^32 bytes and more. -/
def liballocMemset (m : Store) (p : Nat) (c : UInt8) (n : Nat) : Option Store :=
  if n < 2^32 then some ((List.range n).foldl (fun m i => Function.update m (p + i) c) m) else none

/-- `liballoc_memcpy`. -/
def liballocMemcpy (m : Store) (dest src n : Nat) : Store :=
  ((Klib.Cpy.words ⟨m,dest,src,n⟩ (n / 4)).bytes (n % 4)).mem

section Calls
variable (page : Store → Nat → Store × Nat) (fuel : Nat) (s : Liballoc)

def kObjCalloc (nobj size : Nat) : Option (Liballoc × Nat) := do
  let realSize := nobj * size % 2^64
  let (s,p) ← kObjAlloc page s fuel realSize
  let mem ← liballocMemset s.mem p 0 realSize
  some ({ s with mem := mem },p)

/-- A header that is none: bytes may have been written behind a block. -/
def badMagic (n : Minor) : Liballoc :=
  let overrun := n.magic % 2^24 = magic % 2^24 ∨ n.magic % 2^16 = magic % 2^16 ∨ n.magic % 2^8 = magic % 2^8
  { s with
    errorCount := s.errorCount + 1
    possibleOverruns := if overrun then s.possibleOverruns + 1 else s.possibleOverruns }

/-- `k_obj_realloc` for the block behind the header at `min`. -/
def reallocBlock (p size min : Nat) : Option (Liballoc × Nat) :=
  if (minor s.mem min).magic ≠ magic then some (badMagic s (minor s.mem min),0)
  else if size ≤ (minor s.mem min).reqSize then some (s.setMinor min fun n => { n with reqSize := size },p)
  else do
    let (t,ptr) ← kObjAlloc page s fuel size
    let t ← kObjFree { t with mem := liballocMemcpy t.mem ptr p (minor s.mem min).reqSize } p
    some (t,ptr)

def kObjRealloc (p size : Nat) : Option (Liballoc × Nat) :=
  if size = 0 then (kObjFree s p).map fun s => (s,0)
  else if p = 0 then kObjAlloc page s fuel size
  else
    let old := s.cr3
    (reallocBlock page fuel { s with cr3 := s.pml4Table } p size (sub64 (unalign s.mem p) 36)).map fun r =>
      ({ r.1 with cr3 := old },r.2)

end Calls

end Siegfried.ObjHeap
