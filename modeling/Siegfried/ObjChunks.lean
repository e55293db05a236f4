import Siegfried.ObjHeap
import Siegfried.Links
import Siegfried.Intervals
import Mathlib.Algebra.GroupWithZero.Nat

/-! What the heap of `obj_heap.c` holds: chunks of pages, with blocks in them one behind another. -/
namespace Siegfried.ObjHeap
open Bytes Links Intervals

section Records
variable {m m' : Store} {a b i : Nat}

/-- What is left of a record in memory. -/
def Major.clip (j : Major) : Major :=
  ⟨j.prev % 2^64,j.next % 2^64,j.pages % 2^32,j.size % 2^32,j.usage % 2^32,j.first % 2^64⟩

def Minor.clip (n : Minor) : Minor :=
  ⟨n.prev % 2^64,n.next % 2^64,n.block % 2^64,n.magic % 2^32,n.size % 2^32,n.reqSize % 2^32⟩

theorem major_congr (same : ∀ i, a ≤ i → i < a + 36 → m' i = m i) : major m' a = major m a := by
  have field (k n : Nat) (inside : k + n ≤ 36) : read m' (a + k) n = read m (a + k) n :=
    read_congr fun i small => same (a + k + i) (by omega) (by omega)
  simp only [major,field 8 8 (by decide),field 16 4 (by decide),field 20 4 (by decide),
    field 24 4 (by decide),field 28 8 (by decide),show read m' a 8 = read m a 8 from field 0 8 (by decide)]

theorem minor_congr (same : ∀ i, a ≤ i → i < a + 36 → m' i = m i) : minor m' a = minor m a := by
  have field (k n : Nat) (inside : k + n ≤ 36) : read m' (a + k) n = read m (a + k) n :=
    read_congr fun i small => same (a + k + i) (by omega) (by omega)
  simp only [minor,field 8 8 (by decide),field 16 8 (by decide),field 24 4 (by decide),field 28 4 (by decide),
    field 32 4 (by decide),show read m' a 8 = read m a 8 from field 0 8 (by decide)]

theorem storeMajor_apart (j : Major) (apart : i < a ∨ a + 36 ≤ i) : storeMajor m a j i = m i := by
  simp (disch := omega) only [storeMajor,write_apart]

theorem storeMinor_apart (n : Minor) (apart : i < a ∨ a + 36 ≤ i) : storeMinor m a n i = m i := by
  simp (disch := omega) only [storeMinor,write_apart]

theorem major_store (m : Store) (a : Nat) (j : Major) : major (storeMajor m a j) a = j.clip := by
  simp (disch := omega) only [major,storeMajor,read_write_apart,read_write,Major.clip]
  rfl

theorem minor_store (m : Store) (a : Nat) (n : Minor) : minor (storeMinor m a n) a = n.clip := by
  simp (disch := omega) only [minor,storeMinor,read_write_apart,read_write,Minor.clip]
  rfl

theorem major_storeMajor (j : Major) (apart : a + 36 ≤ b ∨ b + 36 ≤ a) : major (storeMajor m b j) a = major m a :=
  major_congr fun _ _ _ => storeMajor_apart j (by omega)

theorem major_storeMinor (n : Minor) (apart : a + 36 ≤ b ∨ b + 36 ≤ a) : major (storeMinor m b n) a = major m a :=
  major_congr fun _ _ _ => storeMinor_apart n (by omega)

theorem minor_storeMajor (j : Major) (apart : a + 36 ≤ b ∨ b + 36 ≤ a) : minor (storeMajor m b j) a = minor m a :=
  minor_congr fun _ _ _ => storeMajor_apart j (by omega)

theorem minor_storeMinor (n : Minor) (apart : a + 36 ≤ b ∨ b + 36 ≤ a) : minor (storeMinor m b n) a = minor m a :=
  minor_congr fun _ _ _ => storeMinor_apart n (by omega)

end Records

/-- A block: its header is at `at_`, and `size` bytes are behind it, of which `req` are used. -/
structure Blk where
  at_ : Nat
  size : Nat
  req : Nat

def Blk.stop (b : Blk) : Nat := b.at_ + 36 + b.size

/-- What `k_obj_alloc` returns for it. -/
def Blk.ptr (b : Blk) : Nat := (b.at_ + 36 + 16 + 127) / 128 * 128

/-- A run of pages, with its blocks in the order of their addresses. -/
structure Chunk where
  at_ : Nat
  pages : Nat
  blocks : List Blk

namespace Chunk

def size (c : Chunk) : Nat := c.pages * 2097152

def stop (c : Chunk) : Nat := c.at_ + c.size

def usage (c : Chunk) : Nat := 36 + (c.blocks.map fun b => b.size + 36).sum

/-- The header of a block, and the byte in front of what is handed out. -/
structure BlkHolds (m : Store) (c : Chunk) (b : Blk) : Prop where
  block : (minor m b.at_).block = c.at_
  magic : (minor m b.at_).magic = magic
  size : (minor m b.at_).size = b.size
  req : (minor m b.at_).reqSize = b.req
  tag : (m (b.ptr - 16)).toNat = b.ptr - (b.at_ + 36)

/-- The memory of a chunk, but for its neighbours. -/
structure Holds (m : Store) (c : Chunk) : Prop where
  pages : (major m c.at_).pages = c.pages
  size : (major m c.at_).size = c.size
  usage : (major m c.at_).usage = c.usage
  first : (major m c.at_).first = (c.blocks.map Blk.at_).headD 0
  links : Linked 0 (fun a => (minor m a).prev) (fun a => (minor m a).next) 0 (c.blocks.map Blk.at_)
  blocks : ∀ b ∈ c.blocks, c.BlkHolds m b

/-- The blocks of a chunk do not overlap and have room for what is asked for. -/
structure Valid (c : Chunk) : Prop where
  order : Within Blk.at_ Blk.stop (c.at_ + 36) c.blocks c.stop
  room : ∀ b ∈ c.blocks, b.req + 144 ≤ b.size
  some_ : 1 ≤ c.pages
  few : c.pages ≤ 2047
  low : 0x200000 ≤ c.at_
  high : c.stop ≤ 2^64

/-- The bytes of the allocator itself in a chunk. -/
inductive Meta (c : Chunk) (i : Nat) : Prop where
  | major (lower : c.at_ ≤ i) (upper : i < c.at_ + 36)
  | minor (b : Blk) (member : b ∈ c.blocks) (lower : b.at_ ≤ i) (upper : i < b.at_ + 36)
  | tag (b : Blk) (member : b ∈ c.blocks) (here : i = b.ptr - 16)

end Chunk

section Blocks
variable {m m' : Store} {c : Chunk} {b b' : Blk} {i : Nat}

theorem Chunk.stop_eq (c : Chunk) : c.stop = c.at_ + c.pages * 2097152 := rfl

theorem Blk.ptr_bounds (b : Blk) : b.at_ + 36 + 16 ≤ b.ptr ∧ b.ptr ≤ b.at_ + 36 + 143 ∧ b.ptr % 128 = 0 := by
  rw [Blk.ptr]
  omega

theorem align_eq (m : Store) (b : Blk) :
    align m (b.at_ + 36) = (Function.update m (b.ptr - 16) (.ofNat (b.ptr - (b.at_ + 36))),b.ptr) := by
  rw [align]
  dsimp only
  by_cases off : (b.at_ + 36 + 16) % 128 ≠ 0
  · have here : b.at_ + 36 + 16 + (128 - (b.at_ + 36 + 16) % 128) = b.ptr := by
      rw [Blk.ptr]
      omega
    have tag : 128 - (b.at_ + 36 + 16) % 128 + 16 = b.ptr - (b.at_ + 36) := by omega
    rw [if_pos off]
    dsimp only
    rw [here,tag]
  · have here : b.at_ + 36 + 16 = b.ptr := by
      rw [Blk.ptr]
      omega
    have tag : (b.at_ + 36 + 16) % 128 + 16 = b.ptr - (b.at_ + 36) := by omega
    rw [if_neg off]
    dsimp only
    rw [tag,here]

/-- `UNALIGN` finds the way back. -/
theorem Chunk.BlkHolds.unalign (holds : c.BlkHolds m b) : unalign m b.ptr = b.at_ + 36 := by
  have bounds := b.ptr_bounds
  rw [ObjHeap.unalign,holds.tag,if_pos (by omega)]
  omega

theorem Chunk.BlkHolds.congr (holds : c.BlkHolds m b) (header : minor m' b.at_ = minor m b.at_)
    (tag : m' (b.ptr - 16) = m (b.ptr - 16)) : c.BlkHolds m' b := by
  constructor
  · rw [header]
    exact holds.block
  · rw [header]
    exact holds.magic
  · rw [header]
    exact holds.size
  · rw [header]
    exact holds.req
  · rw [tag]
    exact holds.tag

/-- A chunk stays as it is when the bytes of the allocator in it do, apart from the links
of its major. -/
theorem Chunk.Holds.congr (holds : c.Holds m) (pages : (major m' c.at_).pages = (major m c.at_).pages)
    (size : (major m' c.at_).size = (major m c.at_).size) (usage : (major m' c.at_).usage = (major m c.at_).usage)
    (first : (major m' c.at_).first = (major m c.at_).first)
    (minors : ∀ b ∈ c.blocks, minor m' b.at_ = minor m b.at_)
    (tags : ∀ b ∈ c.blocks, m' (b.ptr - 16) = m (b.ptr - 16)) : c.Holds m' where
  pages := pages.trans holds.pages
  size := size.trans holds.size
  usage := usage.trans holds.usage
  first := first.trans holds.first
  links := holds.links.congr fun a member => by
    obtain ⟨b,hb,rfl⟩ := List.mem_map.mp member
    rw [minors b hb]
    exact ⟨rfl,rfl⟩
  blocks b hb := (holds.blocks b hb).congr (minors b hb) (tags b hb)

theorem Chunk.Holds.meta (holds : c.Holds m) (same : ∀ i, c.Meta i → m' i = m i) : c.Holds m' := by
  have top : major m' c.at_ = major m c.at_ := major_congr fun i lower upper => same i (.major lower upper)
  apply holds.congr
  · rw [top]
  · rw [top]
  · rw [top]
  · rw [top]
  · exact fun b hb => minor_congr fun i lower upper => same i (.minor b hb lower upper)
  · exact fun b hb => same _ (.tag b hb rfl)

/-- All of it is inside the chunk. -/
theorem Chunk.Valid.meta_inside (valid : c.Valid) (own : c.Meta i) : c.at_ ≤ i ∧ i < c.stop := by
  have few := valid.some_
  have stop := c.stop_eq
  cases own with
  | major lower upper => omega
  | minor b member lower upper =>
    obtain ⟨first,_,last⟩ := valid.order.member member
    rw [Blk.stop] at last
    omega
  | tag b member here =>
    obtain ⟨first,_,last⟩ := valid.order.member member
    have bounds := b.ptr_bounds
    have room := valid.room b member
    rw [Blk.stop] at last
    omega

end Blocks

end Siegfried.ObjHeap
