import Siegfried.ExtentRead
import Mathlib.Tactic.ByContra

/-! Reading files with gaps. -/
namespace Siegfried

open Bytes Segments

variable {d : Disk} {inf : ExtfsDiskInfo} {dev : Store} {blks : List ExtfsBlk} {nodes : Set Nat}
  {height fuel off : Nat} {inode : Store} {count : Int}

/-- Where a device has only ones in the extents, nothing else gets into the buffer. -/
theorem readBlks_ones (delivers : d.Delivers dev)
    (small : ∀ blk ∈ blks, blk.numBlks < 2^16 ∧ blk.blksFOff < 2^32) (fits : OnDevice d.info blks)
    (ones : ∀ blk ∈ blks, ∀ i < (blk.segment d.info).size, dev ((blk.segment d.info).place + i) = 1)
    {buf : Store} (old : ∀ i, buf i = 1) (pos total off : Nat) (count : Int) (i : Nat) :
    (readBlks d blks buf pos total count off).2 i = 1 := by
  induction blks generalizing buf pos total off count with
  | nil => exact old i
  | cons blk blks ih =>
    have ih := @ih (fun b member => small b (List.mem_cons_of_mem _ member))
      (fun b member => fits b (List.mem_cons_of_mem _ member))
      (fun b member => ones b (List.mem_cons_of_mem _ member))
    have small := small blk (List.mem_cons_self ..)
    have ones := ones blk (List.mem_cons_self ..)
    by_cases done : count ≤ 0
    · rw [readBlks_done done]
      exact old i
    · by_cases past : (blk.segment d.info).first + (blk.segment d.info).size ≤ off
      · rw [readBlks_skip small past]
        exact ih old ..
      · have wanted : 0 < count := by omega
        obtain ⟨skip,k,_,taken,step⟩ := readBlks_take wanted small (fits blk (List.mem_cons_self ..)) (Nat.lt_of_not_le past)
        rw [step]
        refine ih (fun j => ?_) ..
        by_cases inside : pos ≤ j ∧ j < pos + k
        · rw [splice,if_pos inside,(delivers _ k).2 _ (by omega),Nat.add_assoc]
          exact ones _ (by omega)
        · rw [splice,if_neg inside]
          exact old j

/-- `buf` gets the bytes of the file, with zero in its gaps. -/
def ReadsFile (d : Disk) (dev : Store) (blks : List ExtfsBlk) (fuel : Nat) (inode buf : Store)
    (count : Int) (off : Nat) : Prop :=
  ∃ total buf', extfsReadInodeContents d fuel inode buf count off = some (total,buf') ∧
    ∀ i < count.toNat, buf' i = fileByte d.info dev blks (off + i)

/-- The extents have no block of the tree. -/
def Apart (inf : ExtfsDiskInfo) (blks : List ExtfsBlk) (nodes : Set Nat) : Prop :=
  ∀ blk ∈ blks, ∀ i < (blk.segment inf).size, (blk.segment inf).place + i ∉ nodes

theorem reads_without_gaps (extents : inf.reqFlags &&& extfsReqfExtent ≠ 0) {readFunc : Nat → Nat → Nat × Store}
    (delivers : Disk.Delivers ⟨readFunc,inf⟩ dev)
    (tree : ExtentTree inf dev nodes height (fun i => inode (40 + i)) blks) (enough : height < fuel)
    (sorted : Sorted (blks.map (·.segment inf))) (fits : OnDevice inf blks)
    (covered : ∀ p, off ≤ p → p < off + count.toNat → (fileMap inf blks p).isSome) (buf : Store) :
    ReadsFile ⟨readFunc,inf⟩ dev blks fuel inode buf count off := by
  obtain ⟨k,short,done⟩ := extfsReadInodeContents_file (d := ⟨readFunc,inf⟩) extents delivers tree
    enough sorted fits (fun p lower upper _ => covered p lower upper) buf
  refine ⟨k,_,done,fun i small => ?_⟩
  have inside : off + (count.toNat - 1) < bound (blks.map (·.segment inf)) := by
    obtain ⟨s,member,covers⟩ := find_isSome.mp (covered (off + (count.toNat - 1)) (by omega) (by omega))
    exact covers.lt_bound member
  have short : k = min (off + count.toNat) (bound (blks.map (·.segment inf))) - off := short
  exact splice_start (by omega)

section Claim

open Classical in
/-- A request is read right whatever the files hold exactly when it touches no gap. -/
theorem sparse_read_iff (inf : ExtfsDiskInfo) (dev : Store) (nodes : Set Nat)
    (height fuel off : Nat) (inode : Store) (blks : List ExtfsBlk) (count : Int)
    (extents : inf.reqFlags &&& extfsReqfExtent ≠ 0)
    (tree : ExtentTree inf dev nodes height (fun i => inode (40 + i)) blks) (enough : height < fuel)
    (sorted : Sorted (blks.map (·.segment inf))) (fits : OnDevice inf blks)
    (apart : Apart inf blks nodes) :
    (∀ readFunc dev', Disk.Delivers ⟨readFunc,inf⟩ dev' → (∀ a ∈ nodes, dev a = dev' a) →
        ∀ buf, ReadsFile ⟨readFunc,inf⟩ dev' blks fuel inode buf count off) ↔
      ∀ p, off ≤ p → p < off + count.toNat → (fileMap inf blks p).isSome := by
  constructor
  · intro all p lower upper
    by_contra gap
    -- ones wherever the tree does not say otherwise, and in the buffer
    let dev' : Store := fun a => if a ∈ nodes then dev a else 1
    have same : ∀ a ∈ nodes, dev a = dev' a := fun a member => (if_pos member).symm
    have delivers : Disk.Delivers ⟨fun off num => (num,fun i => dev' (off + i)),inf⟩ dev' :=
      fun _ _ => ⟨rfl,fun _ _ => rfl⟩
    have tree' := tree.dev_congr same
    obtain ⟨total,buf',read,right⟩ := all _ dev' delivers same fun _ => 1
    have parsed := extfsParseExtentTree_tree delivers tree' enough (fun _ _ => rfl) []
    rw [extfsReadInodeContents,if_neg extents,parsed,List.nil_append,Option.bind_eq_bind,
      Option.bind_some,Option.some.injEq] at read
    have ones := readBlks_ones delivers tree.small fits
      (fun blk member i small => if_neg (apart blk member i small)) (fun _ => rfl) 0 0 off count (p - off)
    rw [read] at ones
    have ones : buf' (p - off) = 1 := ones
    have zero := right (p - off) (by omega)
    rw [Nat.add_sub_cancel' lower,fileByte,Option.not_isSome_iff_eq_none.mp gap] at zero
    have zero : buf' (p - off) = 0 := zero
    exact absurd (zero.symm.trans ones) (by decide)
  · intro covered readFunc dev' delivers same buf
    exact reads_without_gaps extents delivers (tree.dev_congr same) enough sorted fits covered buf

/-- A request behind the gap at the start of a file. -/
theorem sparse_read_iff_behind : ReadsFile (.of fun a => .ofNat a) (fun a => .ofNat a) [⟨1,5,1⟩] 1
    (oneExtent 1 1 5) (fun _ => 0) 10 1024 := by
  refine (sparse_read_iff smallInfo (fun _ => 0) ∅ 0 1 1024 _ [⟨1,5,1⟩] 10 (by decide) (oneExtent_tree 1 1 5)
    (by decide) (by simp [Sorted]) (by simp [OnDevice,smallInfo]) (fun _ _ _ _ inside => inside)).mpr ?_
    _ _ (Disk.of_delivers _) nofun _
  intro p lower upper
  have upper : p < 1024 + 10 := upper
  exact find_isSome.mpr ⟨⟨1024,1024,5120⟩,by simp [ExtfsBlk.segment,smallInfo],lower,
    show p < 1024 + 1024 by omega⟩

/-- The first byte of a file that starts with a gap. -/
theorem sparse_read_gap : ¬∀ (d : Disk) (dev : Store) (nodes : Set Nat) (height fuel off : Nat)
    (inode buf : Store) (blks : List ExtfsBlk) (count : Int),
    d.info.reqFlags &&& extfsReqfExtent ≠ 0 → d.Delivers dev →
    ExtentTree d.info dev nodes height (fun i => inode (40 + i)) blks → height < fuel →
    Sorted (blks.map (·.segment d.info)) → OnDevice d.info blks → Apart d.info blks nodes →
    off + count.toNat ≤ bound (blks.map (·.segment d.info)) →
    ReadsFile d dev blks fuel inode buf count off := by
  intro all
  obtain ⟨total,buf',read,right⟩ := all (.of fun _ => 7) _ ∅ 0 1 0 (oneExtent 1 1 5) (fun _ => 0)
    [⟨1,5,1⟩] 1 (by decide) (Disk.of_delivers _) (oneExtent_tree 1 1 5) (by decide) (by simp [Sorted])
    (by simp [OnDevice,Disk.of,smallInfo]) (fun _ _ _ _ inside => inside) (by decide)
  have first : buf' 0 = 0 := right 0 (by decide)
  have byte : (extfsReadInodeContents (.of fun _ => 7) 1 (oneExtent 1 1 5) (fun _ => 0) 1 0).map
      (fun r => r.2 0) = some 7 := by decide
  rw [read,Option.map_some,Option.some.injEq] at byte
  exact absurd (first.symm.trans byte) (by decide)

end Claim

end Siegfried
