import Siegfried.Inode
import Siegfried.Segments
import Siegfried.Fold
import Mathlib.Data.Set.Defs

/-! Extent trees of `extfs.c`, and reading an inode through them. -/
namespace Siegfried

open Bytes Segments

/-- `extfs_blk_list`, as a list. -/
structure ExtfsBlk where
  numBlks : Nat
  blksOff : Nat
  blksFOff : Nat
  deriving DecidableEq

def extfsNewPair (root : List ExtfsBlk) (num off blksFOff : Nat) : List ExtfsBlk :=
  root ++ [⟨num,off,blksFOff⟩]

section Layout

variable (node : Store)

/-- The fields of `extfs_extent_head`. -/
def headMagic : Nat := read node 0 2
def headEnts : Nat := read node 2 2
def headDepth : Nat := read node 6 2

/-- `sizeof(extfs_extent_int) * ents + sizeof(extfs_extent_head)`. -/
def nodeSize : Nat := 12 * headEnts node + 12

/-- The fields of the `i`th `extfs_extent_end` behind the head. -/
def endFOff (i : Nat) : Nat := read node (12 + 12 * i) 4
def endNumBlks (i : Nat) : Nat := read node (12 + 12 * i + 4) 2
def endBlkDat (i : Nat) : Nat :=
  read node (12 + 12 * i + 8) 4 + read node (12 + 12 * i + 6) 2 * 2^32

/-- The block that the `i`th `extfs_extent_int` behind the head leads to. -/
def intBlkChild (i : Nat) : Nat :=
  read node (12 + 12 * i + 4) 4 + read node (12 + 12 * i + 8) 2 * 2^32

end Layout

def childOff (inf : ExtfsDiskInfo) (node : Store) (i : Nat) : Nat :=
  intBlkChild node i * inf.blkszBytes % 2^64

/-- `none` when the tree is deeper than the fuel. A child is read twice: its head, to
know its size, and then all of it. -/
def extfsParseExtentTree (d : Disk) : Nat → Store → List ExtfsBlk → Option (List ExtfsBlk)
  | 0, _, _ => none
  | fuel+1, head, root =>
    if headDepth head = 0 then
      some ((List.range (headEnts head)).foldl (fun root i =>
        extfsNewPair root (endNumBlks head i) (endBlkDat head i) (endFOff head i)) root)
    else
      (List.range (headEnts head)).foldlM (fun root i =>
        let subh := (d.readFunc (childOff d.info head i) 512).2
        let sectsSz := nodeSize subh
        let subh := (d.readFunc (childOff d.info head i) sectsSz).2
        if headMagic subh ≠ 0xf30a then some root
        else extfsParseExtentTree d fuel subh root) root

/-- The loop of `extfs_read_inode_contents`; `pos` is how far `buf` has moved. -/
def readBlks (d : Disk) : List ExtfsBlk → Store → Nat → Nat → Int → Nat → Nat × Store
  | [], buf, _, total, _, _ => (total,buf)
  | blk :: blks, buf, pos, total, count, off =>
    if count ≤ 0 then (total,buf)
    else
      let extentFileOff := blk.blksFOff * d.info.blkszBytes % 2^64
      let extentSz := blk.numBlks * d.info.blkszBytes % 2^64
      if (extentFileOff + extentSz) % 2^64 ≤ off then readBlks d blks buf pos total count off
      else
        let extentOff := if extentFileOff < off then off - extentFileOff else 0
        let avail := extentSz - extentOff
        let count2 := min (avail : Int) count
        let r := d.readFunc ((blk.blksOff * d.info.blkszBytes + extentOff) % 2^64) count2.toNat
        readBlks d blks (splice buf pos count2.toNat r.2) (pos + count2.toNat) (total + r.1)
          (count - count2) (off + count2.toNat)

/-- The tree is where the `blk_data_ptrs` are. -/
def extfsReadInodeContents (d : Disk) (fuel : Nat) (inode buf : Store) (count : Int) (off : Nat) :
    Option (Nat × Store) :=
  if d.info.reqFlags &&& extfsReqfExtent = 0 then
    let num := (count % 2^64).toNat
    let r := d.readFunc ((blkDataPtr inode * d.info.blkszBytes + off) % 2^64) num
    some (r.1,splice buf 0 num r.2)
  else do
    let blks ← extfsParseExtentTree d fuel (fun i => inode (40 + i)) []
    some (readBlks d blks buf 0 0 count off)

/-- What the `i`th end of a leaf says. -/
def leafBlk (node : Store) (i : Nat) : ExtfsBlk :=
  ⟨endNumBlks node i,endBlkDat node i,endFOff node i⟩

/-- `node` is the root of a valid tree of that height on `dev`, with the children of
index nodes inside `nodes`, whose leaves give these blocks in order. -/
inductive ExtentTree (inf : ExtfsDiskInfo) (dev : Store) (nodes : Set Nat) :
    Nat → Store → List ExtfsBlk → Prop where
  | leaf {node : Store} (depth : headDepth node = 0) :
    ExtentTree inf dev nodes 0 node ((List.range (headEnts node)).map (leafBlk node))
  | index {height : Nat} {node : Store} {sub : Nat → List ExtfsBlk} (depth : headDepth node ≠ 0)
    (magic : ∀ i < headEnts node, headMagic (fun k => dev (childOff inf node i + k)) = 0xf30a)
    (inside : ∀ i < headEnts node, ∀ k < nodeSize (fun k => dev (childOff inf node i + k)),
      childOff inf node i + k ∈ nodes)
    (child : ∀ i < headEnts node,
      ExtentTree inf dev nodes height (fun k => dev (childOff inf node i + k)) (sub i)) :
    ExtentTree inf dev nodes (height + 1) node ((List.range (headEnts node)).flatMap sub)

/-- The bytes of the file that a block covers. -/
def ExtfsBlk.segment (inf : ExtfsDiskInfo) (blk : ExtfsBlk) : Segment :=
  ⟨blk.blksFOff * inf.blkszBytes,blk.numBlks * inf.blkszBytes,blk.blksOff * inf.blkszBytes⟩

/-- Where the byte at a position of the file is on the device. -/
def fileMap (inf : ExtfsDiskInfo) (blks : List ExtfsBlk) (p : Nat) : Option Nat :=
  find (blks.map (·.segment inf)) p

/-- The byte at a position of the file, zero in a gap. -/
def fileByte (inf : ExtfsDiskInfo) (dev : Store) (blks : List ExtfsBlk) (p : Nat) : UInt8 :=
  (fileMap inf blks p).elim 0 dev

variable {inf : ExtfsDiskInfo} {dev dev' node node' : Store} {nodes : Set Nat} {height fuel i : Nat}
  {blks : List ExtfsBlk}

section Tree

variable (same : ∀ k < nodeSize node, node k = node' k)
include same

theorem read_node {a n : Nat} (inside : a + n ≤ nodeSize node) : read node a n = read node' a n :=
  read_congr fun k small => same (a + k) (by omega)

theorem headEnts_congr : headEnts node = headEnts node' :=
  read_node same (by rw [nodeSize]; omega)

theorem headDepth_congr : headDepth node = headDepth node' :=
  read_node same (by rw [nodeSize]; omega)

theorem leafBlk_congr (entry : i < headEnts node) : leafBlk node i = leafBlk node' i := by
  simp only [leafBlk,endNumBlks,endBlkDat,endFOff]
  rw [read_node same,read_node same,read_node same,read_node same]
  all_goals
    rw [nodeSize]
    omega

theorem leaves_congr : (List.range (headEnts node)).map (leafBlk node) =
    (List.range (headEnts node')).map (leafBlk node') := by
  rw [← headEnts_congr same]
  exact List.map_congr_left fun i member => leafBlk_congr same (List.mem_range.mp member)

theorem childOff_congr (entry : i < headEnts node) : childOff inf node i = childOff inf node' i := by
  simp only [childOff,intBlkChild]
  rw [read_node same,read_node same]
  all_goals
    rw [nodeSize]
    omega

theorem ExtentTree.root_congr (tree : ExtentTree inf dev nodes height node blks) :
    ExtentTree inf dev nodes height node' blks := by
  have ents := headEnts_congr same
  have depth' := headDepth_congr same
  cases tree with
  | leaf depth =>
    rw [leaves_congr same]
    exact .leaf (depth' ▸ depth)
  | index depth magic inside child =>
    rw [ents]
    have off (i : Nat) (entry : i < headEnts node') : childOff inf node' i = childOff inf node i :=
      (childOff_congr same (ents ▸ entry)).symm
    refine .index (depth' ▸ depth) (fun i entry => ?_) (fun i entry => ?_) fun i entry => ?_
    · rw [off i entry]
      exact magic i (ents ▸ entry)
    · rw [off i entry]
      exact inside i (ents ▸ entry)
    · rw [off i entry]
      exact child i (ents ▸ entry)

end Tree

/-- A tree is in the bytes of its nodes and no others of the device. -/
theorem ExtentTree.dev_congr (tree : ExtentTree inf dev nodes height node blks)
    (same : ∀ a ∈ nodes, dev a = dev' a) : ExtentTree inf dev' nodes height node blks := by
  induction tree with
  | leaf depth => exact .leaf depth
  | @index height node sub depth magic inside child ih =>
    have copy (i : Nat) (entry : i < headEnts node) :
        ∀ k < nodeSize (fun k => dev (childOff inf node i + k)),
          dev (childOff inf node i + k) = dev' (childOff inf node i + k) :=
      fun k small => same _ (inside i entry k small)
    have size (i : Nat) (entry : i < headEnts node) :
        nodeSize (fun k => dev' (childOff inf node i + k)) =
          nodeSize (fun k => dev (childOff inf node i + k)) := by
      rw [nodeSize,nodeSize,headEnts_congr (copy i entry)]
    refine .index depth (fun i entry => ?_) (fun i entry => ?_) fun i entry => ?_
    · rw [← magic i entry]
      exact (read_node (copy i entry) (by rw [nodeSize]; omega)).symm
    · rw [size i entry]
      exact inside i entry
    · exact (ih i entry).root_congr (copy i entry)

/-- What the widths of the fields of a leaf allow. -/
theorem ExtentTree.small (tree : ExtentTree inf dev nodes height node blks) :
    ∀ blk ∈ blks, blk.numBlks < 2^16 ∧ blk.blksFOff < 2^32 := by
  induction tree with
  | @leaf node depth =>
    intro blk member
    obtain ⟨i,_,rfl⟩ := List.mem_map.mp member
    exact ⟨read_lt ..,read_lt ..⟩
  | index depth magic inside child ih =>
    intro blk member
    obtain ⟨i,entry,member⟩ := List.mem_flatMap.mp member
    exact ih i (List.mem_range.mp entry) blk member

variable {d : Disk}

/-- The leaves are appended in order, also from a copy of the root. -/
theorem extfsParseExtentTree_tree (delivers : d.Delivers dev)
    (tree : ExtentTree d.info dev nodes height node blks) (enough : height < fuel)
    (same : ∀ k < nodeSize node, node k = node' k) (root : List ExtfsBlk) :
    extfsParseExtentTree d fuel node' root = some (root ++ blks) := by
  have ents := headEnts_congr same
  have depth' := headDepth_congr same
  induction tree generalizing fuel node' root with
  | @leaf node depth =>
    cases fuel with
    | zero => cases enough
    | succ fuel =>
      rw [extfsParseExtentTree,if_pos (depth' ▸ depth),leaves_congr same,
        List.map_eq_flatMap,List.flatMap_def,← List.foldl_append_eq_append]
      rfl
  | @index height node sub depth magic inside child ih =>
    cases fuel with
    | zero => cases enough
    | succ fuel =>
      rw [extfsParseExtentTree,if_neg (depth' ▸ depth),← ents]
      refine Fold.foldlM_append (fun i member r => ?_) root
      have entry : i < headEnts node := List.mem_range.mp member
      have head : headEnts (d.readFunc (childOff d.info node i) 512).2 =
          headEnts (fun k => dev (childOff d.info node i + k)) :=
        read_congr fun k small => (delivers _ 512).2 (2 + k) (by omega)
      have size : nodeSize (d.readFunc (childOff d.info node i) 512).2 =
          nodeSize (fun k => dev (childOff d.info node i + k)) := by rw [nodeSize,nodeSize,head]
      have copy : ∀ k < nodeSize (fun k => dev (childOff d.info node i + k)),
          dev (childOff d.info node i + k) =
            (d.readFunc (childOff d.info node i) (nodeSize (fun k => dev (childOff d.info node i + k)))).2 k :=
        fun k small => (delivers.bytes k small).symm
      have magic' : headMagic (d.readFunc (childOff d.info node i)
          (nodeSize (fun k => dev (childOff d.info node i + k)))).2 = 0xf30a := by
        rw [← magic i entry]
        exact (read_node copy (by rw [nodeSize]; omega)).symm
      dsimp only
      rw [← childOff_congr same entry,size,if_neg (not_not.mpr magic')]
      exact ih i entry (by omega) copy r (headEnts_congr copy) (headDepth_congr copy)

end Siegfried
