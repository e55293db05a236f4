import Siegfried.Extents

/-! What `extfs_read_inode_contents` reads through a valid extent tree. -/
namespace Siegfried

open Bytes Segments

/-- Every extent has blocks, which are on the device, whose offsets are `unsigned long`. -/
def OnDevice (inf : ExtfsDiskInfo) (blks : List ExtfsBlk) : Prop :=
  ∀ blk ∈ blks, 0 < blk.numBlks ∧ (blk.blksOff + blk.numBlks) * inf.blkszBytes ≤ 2^64

variable {d : Disk} {dev dev' : Store} {blk : ExtfsBlk} {blks : List ExtfsBlk}

/-- No product or sum of the loop wraps. -/
theorem segment_small (small : blk.numBlks < 2^16 ∧ blk.blksFOff < 2^32) :
    (blk.segment d.info).first + (blk.segment d.info).size < 2^63 := by
  have bytes := d.info.blkszRange.2
  have first : blk.blksFOff * d.info.blkszBytes ≤ 2^32 * 2^30 :=
    Nat.mul_le_mul (Nat.le_of_lt small.2) bytes
  have size : blk.numBlks * d.info.blkszBytes ≤ 2^16 * 2^30 :=
    Nat.mul_le_mul (Nat.le_of_lt small.1) bytes
  simp only [ExtfsBlk.segment]
  omega

theorem readBlks_done {buf : Store} {pos total off : Nat} {count : Int} (done : count ≤ 0) :
    readBlks d blks buf pos total count off = (total,buf) := by
  cases blks with
  | nil => rfl
  | cons blk blks => rw [readBlks,if_pos done]

/-- An extent that ends at or before the offset is skipped. -/
theorem readBlks_skip {buf : Store} {pos total off : Nat} {count : Int}
    (small : blk.numBlks < 2^16 ∧ blk.blksFOff < 2^32)
    (past : (blk.segment d.info).first + (blk.segment d.info).size ≤ off) :
    readBlks d (blk :: blks) buf pos total count off = readBlks d blks buf pos total count off := by
  by_cases done : count ≤ 0
  · rw [readBlks_done done,readBlks_done done]
  · have range := segment_small (d := d) small
    simp only [ExtfsBlk.segment] at range past
    rw [readBlks,if_neg done]
    dsimp only
    rw [if_pos]
    omega

/-- Of any other extent a part is read, from `extent_off` on. -/
theorem readBlks_take {buf : Store} {pos total off : Nat} {count : Int} (wanted : 0 < count)
    (small : blk.numBlks < 2^16 ∧ blk.blksFOff < 2^32)
    (fits : 0 < blk.numBlks ∧ (blk.blksOff + blk.numBlks) * d.info.blkszBytes ≤ 2^64)
    (before : off < (blk.segment d.info).first + (blk.segment d.info).size) :
    ∃ skip k, skip = off - (blk.segment d.info).first ∧ k = min ((blk.segment d.info).size - skip) count.toNat ∧
      readBlks d (blk :: blks) buf pos total count off =
        readBlks d blks (splice buf pos k (d.readFunc ((blk.segment d.info).place + skip) k).2) (pos + k)
          (total + (d.readFunc ((blk.segment d.info).place + skip) k).1) (count - k) (off + k) := by
  refine ⟨_,_,rfl,rfl,?_⟩
  have range := segment_small (d := d) small
  have room := Nat.mul_pos fits.1 d.info.blkszRange.1
  have fits := fits.2
  rw [Nat.add_mul] at fits
  simp only [ExtfsBlk.segment] at range before ⊢
  rw [readBlks,if_neg (by omega)]
  generalize blk.blksFOff * d.info.blkszBytes = first at *
  generalize blk.numBlks * d.info.blkszBytes = size at *
  generalize blk.blksOff * d.info.blkszBytes = place at *
  have noWrap : first % 2^64 = first ∧ size % 2^64 = size ∧ (first + size) % 2^64 = first + size := by
    omega
  have skip : (if first < off then off - first else 0) = off - first := by
    split <;> omega
  have addr : (place + (off - first)) % 2^64 = place + (off - first) :=
    Nat.mod_eq_of_lt (by omega)
  have count2 : min ((size - (off - first) : Nat) : Int) count =
      (min (size - (off - first)) count.toNat : Nat) := by omega
  dsimp only
  rw [noWrap.1,noWrap.2.1,noWrap.2.2,if_neg (by omega),skip,addr,count2,Int.toNat_natCast]

theorem fileMap_past {p : Nat} (past : (blk.segment d.info).first + (blk.segment d.info).size ≤ p) :
    fileMap d.info (blk :: blks) p = fileMap d.info blks p :=
  find_other fun covers => Nat.not_lt.mpr past covers.2

theorem fileByte_here {p : Nat} (covers : (blk.segment d.info).Covers p) :
    fileByte d.info dev (blk :: blks) p = dev ((blk.segment d.info).place + (p - (blk.segment d.info).first)) := by
  rw [fileByte,fileMap,List.map_cons,find_covered covers]
  rfl

section Taken

variable {first size off skip c k : Nat}

/-- What is left is wanted only if the extent is read to its end. -/
theorem taken_ends (lower : first ≤ off) (before : off < first + size) (skipped : skip = off - first)
    (taken : k = min (size - skip) c) : k ≤ c ∧ off + k ≤ first + size ∧
      (k = c ∨ off + k = first + size) := by
  omega

theorem taken_rest (ends : k ≤ c ∧ off + k ≤ first + size ∧ (k = c ∨ off + k = first + size))
    (last : Nat) : min (off + c) (max (first + size) last) - off =
      k + (min (off + k + (c - k)) last - (off + k)) := by
  obtain ⟨le,within,rfl | full⟩ := ends
  · omega
  · omega

end Taken

/-- The loop reads the bytes of the file up to its end, as long as it meets no gap. -/
theorem readBlks_file (delivers : d.Delivers dev) (sorted : Sorted (blks.map (·.segment d.info)))
    (small : ∀ blk ∈ blks, blk.numBlks < 2^16 ∧ blk.blksFOff < 2^32) (fits : OnDevice d.info blks)
    {off : Nat} {count : Int}
    (covered : ∀ p, off ≤ p → p < off + count.toNat → p < bound (blks.map (·.segment d.info)) →
      (fileMap d.info blks p).isSome) (buf : Store) (pos total : Nat) :
    ∃ k, k = min (off + count.toNat) (bound (blks.map (·.segment d.info))) - off ∧
      readBlks d blks buf pos total count off =
        (total + k,splice buf pos k fun i => fileByte d.info dev blks (off + i)) := by
  refine ⟨_,rfl,?_⟩
  induction blks generalizing off count buf pos total with
  | nil =>
    rw [List.map_nil,bound,Nat.min_zero,Nat.zero_sub,splice_zero]
    rfl
  | cons blk blks ih =>
    have ih := @ih (List.pairwise_cons.mp sorted).2
      (fun b member => small b (List.mem_cons_of_mem _ member))
      (fun b member => fits b (List.mem_cons_of_mem _ member))
    have small := small blk (List.mem_cons_self ..)
    have fits := fits blk (List.mem_cons_self ..)
    rw [List.map_cons] at sorted covered ⊢
    rw [bound] at covered ⊢
    by_cases done : count ≤ 0
    · have empty : min (off + count.toNat) (max ((blk.segment d.info).first + (blk.segment d.info).size)
          (bound (blks.map (·.segment d.info)))) - off = 0 := by omega
      rw [readBlks_done done,empty,splice_zero,Nat.add_zero]
    · by_cases past : (blk.segment d.info).first + (blk.segment d.info).size ≤ off
      · rw [readBlks_skip small past,ih]
        · have same : min (off + count.toNat) (bound (blks.map (·.segment d.info))) - off =
              min (off + count.toNat) (max ((blk.segment d.info).first + (blk.segment d.info).size)
                (bound (blks.map (·.segment d.info)))) - off := by omega
          rw [← same]
          congr 1
          apply splice_congr
          intro i _
          rw [fileByte,fileByte,fileMap_past (by omega)]
        · intro p lower upper inside
          have behind : (blk.segment d.info).first + (blk.segment d.info).size ≤ p := by omega
          rw [← fileMap_past behind]
          exact covered p lower upper (by omega)
      · have wanted : 0 < count := by omega
        have here : (blk.segment d.info).Covers off :=
          sorted.covers_first (covered off (Nat.le_refl _) (by omega) (by omega)) (by omega)
        have lower := here.1
        obtain ⟨skip,k,skipped,taken,step⟩ := readBlks_take wanted small fits (Nat.lt_of_not_le past)
        have left : (count - k).toNat = count.toNat - k := by omega
        have ends := taken_ends lower (Nat.lt_of_not_le past) skipped taken
        rw [step,ih,left]
        · rw [(delivers _ k).1,splice_splice,taken_rest ends _,Nat.add_assoc]
          congr 1
          apply splice_congr
          intro i small
          by_cases first : i < k
          · rw [if_pos first,(delivers _ k).2 i first,fileByte_here ⟨by omega,by omega⟩]
            congr 1
            omega
          · rw [if_neg first,fileByte,fileByte,fileMap_past (by omega)]
            congr 2
            omega
        · intro p lower upper inside
          have behind : (blk.segment d.info).first + (blk.segment d.info).size ≤ p := by omega
          rw [← fileMap_past behind]
          exact covered p (by omega) (by omega) (by omega)

/-- A read through a valid tree that meets no gap before the end of the file. -/
theorem extfsReadInodeContents_file {nodes : Set Nat} {height fuel off : Nat} {inode : Store}
    {count : Int} (extents : d.info.reqFlags &&& extfsReqfExtent ≠ 0) (delivers : d.Delivers dev)
    (tree : ExtentTree d.info dev nodes height (fun i => inode (40 + i)) blks) (enough : height < fuel)
    (sorted : Sorted (blks.map (·.segment d.info))) (fits : OnDevice d.info blks)
    (covered : ∀ p, off ≤ p → p < off + count.toNat → p < bound (blks.map (·.segment d.info)) →
      (fileMap d.info blks p).isSome) (buf : Store) :
    ∃ k, k = min (off + count.toNat) (bound (blks.map (·.segment d.info))) - off ∧
      extfsReadInodeContents d fuel inode buf count off =
        some (k,splice buf 0 k fun i => fileByte d.info dev blks (off + i)) := by
  obtain ⟨k,short,done⟩ := readBlks_file delivers sorted tree.small fits covered buf 0 0
  refine ⟨k,short,?_⟩
  have parsed := extfsParseExtentTree_tree delivers tree enough (fun _ _ => rfl) []
  rw [extfsReadInodeContents,if_neg extents,parsed,List.nil_append,Option.bind_eq_bind,
    Option.bind_some,done,Nat.zero_add]

/-- The blocks of a file from block `a` to `n`, in extents of up to 32768. -/
def TilesFile : Nat → List ExtfsBlk → Nat → Prop
  | a, [], n => a = n
  | a, blk :: blks, n => blk.blksFOff = a ∧ (1 ≤ blk.numBlks ∧ blk.numBlks ≤ 32768) ∧
    TilesFile (a + blk.numBlks) blks n

theorem TilesFile.tiles (inf : ExtfsDiskInfo) {a n : Nat} (tiles : TilesFile a blks n) :
    Tiles (a * inf.blkszBytes) (blks.map (·.segment inf)) (n * inf.blkszBytes) := by
  induction blks generalizing a with
  | nil =>
    have same : a = n := tiles
    rw [same]
    exact rfl
  | cons blk blks ih =>
    refine ⟨by rw [← tiles.1]; rfl,?_⟩
    have rest := ih tiles.2.2
    rw [Nat.add_mul] at rest
    exact rest

theorem TilesFile.whole (inf : ExtfsDiskInfo) {n : Nat} (tiles : TilesFile 0 blks n) :
    Tiles 0 (blks.map (·.segment inf)) (n * inf.blkszBytes) := by
  have tiles := tiles.tiles inf
  rwa [Nat.zero_mul] at tiles

/-- A read of a file without gaps. -/
theorem extfsReadInodeContents_tiles {nodes : Set Nat} {height fuel off n : Nat} {inode : Store}
    {count : Int} (extents : d.info.reqFlags &&& extfsReqfExtent ≠ 0) (delivers : d.Delivers dev)
    (tree : ExtentTree d.info dev nodes height (fun i => inode (40 + i)) blks) (enough : height < fuel)
    (tiles : TilesFile 0 blks n) (fits : OnDevice d.info blks) (buf : Store) :
    ∃ k, k = min (off + count.toNat) (n * d.info.blkszBytes) - off ∧
      extfsReadInodeContents d fuel inode buf count off =
        some (k,splice buf 0 k fun i => fileByte d.info dev blks (off + i)) := by
  have tiles := tiles.whole d.info
  rw [← tiles.bound]
  refine extfsReadInodeContents_file extents delivers tree enough tiles.sorted fits ?_ buf
  intro p _ _ inside
  rw [tiles.bound] at inside
  exact tiles.find (Nat.zero_le _) inside

/-- The inode of a file with one extent. -/
def oneExtent (fOff num blk : Nat) : Store :=
  write (write (write (write (fun _ => 0) 42 2 1) 52 4 fOff) 56 2 num) 60 4 blk

theorem oneExtent_ents (fOff num blk : Nat) :
    headEnts (fun i => oneExtent fOff num blk (40 + i)) = 1 := by
  rw [headEnts,read_shift,oneExtent]
  repeat rw [read_write_apart (by omega)]
  exact read_write ..

theorem oneExtent_tree {inf : ExtfsDiskInfo} {nodes : Set Nat} (fOff num blk : Nat) :
    ExtentTree inf dev nodes 0 (fun i => oneExtent fOff num blk (40 + i))
      [⟨num % 2^16,blk % 2^32,fOff % 2^32⟩] := by
  have depth : headDepth (fun i => oneExtent fOff num blk (40 + i)) = 0 := by
    rw [headDepth,read_shift,oneExtent]
    repeat rw [read_write_apart (by omega)]
    exact read_zero ..
  have blks : leafBlk (fun i => oneExtent fOff num blk (40 + i)) 0 =
      ⟨num % 2^16,blk % 2^32,fOff % 2^32⟩ := by
    rw [leafBlk,ExtfsBlk.mk.injEq]
    refine ⟨?_,?_,?_⟩
    · rw [endNumBlks,read_shift,oneExtent,read_write_apart (by omega)]
      exact read_write ..
    · rw [endBlkDat,read_shift,read_shift,oneExtent,read_write]
      repeat rw [read_write_apart (by omega)]
      rw [read_zero]
      rfl
    · rw [endFOff,read_shift,oneExtent,read_write_apart (by omega),read_write_apart (by omega)]
      exact read_write ..
  have tree : ExtentTree inf dev nodes 0 (fun i => oneExtent fOff num blk (40 + i)) _ := .leaf depth
  rw [oneExtent_ents] at tree
  rw [← blks]
  exact tree

/-- One group of 16 inodes, and blocks of 1024 bytes. -/
def smallInfo : ExtfsDiskInfo := ⟨1024,16,1,32,128,extfsReqfExtent,by decide⟩

/-- A disk that delivers `dev`. -/
def Disk.of (dev : Store) : Disk := ⟨fun off num => (num,fun i => dev (off + i)),smallInfo⟩

theorem Disk.of_delivers (dev : Store) : (Disk.of dev).Delivers dev := fun _ _ => ⟨rfl,fun _ _ => rfl⟩

section Claim

/-- A file without gaps is read as its extents say, up to its last block. -/
theorem read_inode_contents_whole (d : Disk) (dev : Store) (nodes : Set Nat) (height fuel n : Nat)
    (inode : Store) (blks : List ExtfsBlk) (extents : d.info.reqFlags &&& extfsReqfExtent ≠ 0)
    (delivers : d.Delivers dev)
    (tree : ExtentTree d.info dev nodes height (fun i => inode (40 + i)) blks)
    (enough : height < fuel) (tiles : TilesFile 0 blks n) (fits : OnDevice d.info blks)
    (buf : Store) (count : Int) (off : Nat) :
    ∃ k buf', k = min (off + count.toNat) (n * d.info.blkszBytes) - off ∧
      extfsReadInodeContents d fuel inode buf count off = some (k,buf') ∧
      (∀ i < k, ∃ a, fileMap d.info blks (off + i) = some a ∧ buf' i = dev a) ∧
      ∀ i, k ≤ i → buf' i = buf i := by
  obtain ⟨k,short,done⟩ := extfsReadInodeContents_tiles extents delivers tree enough tiles fits buf
  have tiles := tiles.whole d.info
  refine ⟨k,_,short,done,fun i small => ?_,fun i beyond => splice_apart (by omega)⟩
  have inside : off + i < n * d.info.blkszBytes := by omega
  obtain ⟨a,mapped⟩ := Option.isSome_iff_exists.mp (tiles.find (Nat.zero_le _) inside)
  have mapped : fileMap d.info blks (off + i) = some a := mapped
  refine ⟨a,mapped,?_⟩
  rw [splice_start small,fileByte,mapped]
  rfl

/-- The last 24 bytes of a file of one block, of 100 asked for. -/
theorem read_inode_contents_whole_one : ∃ k buf', k = 24 ∧
    extfsReadInodeContents (.of fun a => .ofNat a) 1 (oneExtent 0 1 5) (fun _ => 7) 100 1000 =
      some (k,buf') ∧
    (∀ i < k, ∃ a, fileMap smallInfo [⟨1,5,0⟩] (1000 + i) = some a ∧
      buf' i = .ofNat a) ∧ ∀ i, k ≤ i → buf' i = 7 := by
  have one := read_inode_contents_whole (.of fun a => .ofNat a) _ ∅ 0 1 1 _ [⟨1,5,0⟩] (by decide) (Disk.of_delivers _)
    (oneExtent_tree 0 1 5) (by decide) ⟨rfl,by decide,rfl⟩ (by simp [OnDevice,Disk.of,smallInfo]) (fun _ => 7) 100 1000
  obtain ⟨k,buf',short,read⟩ := one
  exact ⟨k,buf',short.trans (by decide),read⟩

end Claim

end Siegfried
