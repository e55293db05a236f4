import Siegfried.ExtfsRequests

/-! Where `extfs_read_inode_struct` reads, on a disk that `extfs_enum` accepts (`extfs.c`). -/
namespace Siegfried

open Bytes Requests

def extfsReqf64bit : Nat := 0x80

def extfsBgrpDescSz32bits : Nat := 32

/-- The `fs_disk_info` of a superblock. None is filled in for another magic; that
`1024 << sb->blksz` leaves an `int` is not followed. -/
def extfsDiskInfo (sb : Store) : Option ExtfsDiskInfo :=
  if read sb 56 2 ≠ 0xef53 then none
  else if small : read sb 24 4 ≤ 20 then
    some
      { blkszBytes := 1024 * 2^(read sb 24 4)
        inodesPerGrp := read sb 40 4
        blkStart := read sb 20 4
        bgdtSzB := if read sb 96 4 &&& extfsReqf64bit ≠ 0 then read sb 254 2 else extfsBgrpDescSz32bits
        inodeStructSzB := read sb 88 2
        reqFlags := read sb 96 4
        blkszRange := ⟨Nat.mul_pos (by decide) (Nat.pow_pos (by decide)),
          Nat.mul_le_mul_left 1024 (Nat.pow_le_pow_right (by decide) small)⟩ }
  else none

def Asks.extfsEnum : Asks (Option ExtfsDiskInfo) := (read 1024 1024).map fun sb => extfsDiskInfo sb.2

section Addresses

variable (inf : ExtfsDiskInfo) (dev : Store)

/-- The descriptors of the groups follow the block of the superblock. -/
def bgrpDescOff (grp : Nat) : Nat := (inf.blkStart + 1) * inf.blkszBytes + grp * inf.bgdtSzB

def blkInodeTabL (grp : Nat) : Nat := read dev (bgrpDescOff inf grp + 8) 4

/-- `blk_inode_tab_h`, under the 64BIT feature. -/
def blkInodeTabH (grp : Nat) : Nat :=
  if inf.reqFlags &&& extfsReqf64bit ≠ 0 then read dev (bgrpDescOff inf grp + 40) 4 else 0

/-- The inode table of a group, if the group has a descriptor: all of it has an offset. -/
def blkInodeTab (grp : Nat) : Option Nat :=
  if bgrpDescOff inf grp + 64 ≤ 2^64 then some (blkInodeTabL inf dev grp + blkInodeTabH inf dev grp * 2^32)
  else none

def inodeGrp (ino : Nat) : Nat := (ino - 1) / inf.inodesPerGrp

def inodeSlot (ino : Nat) : Nat := (ino - 1) % inf.inodesPerGrp

/-- An inode is read from its place in the table of its group. -/
def ReadsInode (answer : Request → Answer) (ino : Nat) : Prop :=
  ∃ tab desc, blkInodeTab inf dev (inodeGrp inf ino) = some tab ∧
    (Asks.extfsReadInodeStruct inf ino).asked answer =
      [.read desc 64,.read (tab * inf.blkszBytes + inodeSlot inf ino * inf.inodeStructSzB) 128]

/-- The table of a group is found: the descriptor has an offset, and the upper half of the
table's block is zero or the image does not have it. -/
def TableFound (grp : Nat) : Prop := bgrpDescOff inf grp + 64 ≤ 2^64 ∧ blkInodeTabH inf dev grp = 0

/-- The first `grps` groups have inode tables apart from each other, with room for inodes. -/
structure TablesApart (grps : Nat) : Prop where
  room : 128 ≤ inf.inodeStructSzB
  apart : ∀ g < grps, ∀ g' < grps, g ≠ g' → ∀ tab tab', blkInodeTab inf dev g = some tab →
    blkInodeTab inf dev g' = some tab' →
      tab * inf.blkszBytes + inf.inodesPerGrp * inf.inodeStructSzB ≤ tab' * inf.blkszBytes ∨
      tab' * inf.blkszBytes + inf.inodesPerGrp * inf.inodeStructSzB ≤ tab * inf.blkszBytes

end Addresses

variable {inf : ExtfsDiskInfo} {dev sb : Store} {answer : Request → Answer} {ino ino' grp grps : Nat}

/-- The fields of a superblock are at most four bytes wide. -/
theorem extfsDiskInfo_small (filled : extfsDiskInfo sb = some inf) : inf.inodesPerGrp < 2^32 ∧
    inf.blkStart < 2^32 ∧ inf.inodeStructSzB < 2^16 ∧ inf.bgdtSzB < 2^16 := by
  unfold extfsDiskInfo at filled
  split at filled
  · cases filled
  · split at filled
    · cases filled
      refine ⟨read_lt sb 40 4,read_lt sb 20 4,read_lt sb 88 2,?_⟩
      dsimp only
      split
      · exact read_lt sb 254 2
      · decide
    · cases filled

/-- The groups that an image can count with the four bytes of `num_inodes` have descriptors. -/
theorem bgrpDescOff_small (filled : extfsDiskInfo sb = some inf) (counted : grp < 2^32) :
    bgrpDescOff inf grp + 64 ≤ 2^64 := by
  obtain ⟨_,start,_,size⟩ := extfsDiskInfo_small filled
  have table : (inf.blkStart + 1) * inf.blkszBytes ≤ 2^32 * 2^30 :=
    Nat.mul_le_mul start inf.blkszRange.2
  have desc : grp * inf.bgdtSzB ≤ 2^32 * 2^16 :=
    Nat.mul_le_mul (Nat.le_of_lt counted) (Nat.le_of_lt size)
  unfold bgrpDescOff
  omega

theorem inodeIdx_cast (first : 1 ≤ ino) (signed : ino < 2^63) : inodeIdx ino = ino - 1 := by
  unfold inodeIdx
  omega

/-- What is asked for an inode. -/
theorem asked_extfsReadInodeStruct (inf : ExtfsDiskInfo) (answer : Request → Answer) (ino : Int) :
    (Asks.extfsReadInodeStruct inf ino).asked answer =
      let desc := (inodeIdx ino / inf.inodesPerGrp * inf.bgdtSzB + inf.blkStart * inf.blkszBytes +
        inf.blkszBytes) % 2^64
      [.read desc 64,.read ((read (answer (.read desc 64)).2 8 4 * inf.blkszBytes +
        inodeIdx ino % inf.inodesPerGrp * inf.inodeStructSzB) % 2^64) 128] := rfl

/-- The place that the lower half of a table gives has an offset. -/
theorem inode_off_small (slots : inf.inodesPerGrp < 2^32) (size : inf.inodeStructSzB < 2^16)
    (nonzero : inf.inodesPerGrp ≠ 0) (m : Store) (a i : Nat) :
    read m a 4 * inf.blkszBytes + i % inf.inodesPerGrp * inf.inodeStructSzB < 2^64 := by
  have table : read m a 4 * inf.blkszBytes ≤ 2^32 * 2^30 :=
    Nat.mul_le_mul (Nat.le_of_lt (read_lt m a 4)) inf.blkszRange.2
  have slot : i % inf.inodesPerGrp < inf.inodesPerGrp := Nat.mod_lt _ (Nat.pos_of_ne_zero nonzero)
  have place : i % inf.inodesPerGrp * inf.inodeStructSzB ≤ 2^32 * 2^16 :=
    Nat.mul_le_mul (Nat.le_of_lt (Nat.lt_trans slot slots)) (Nat.le_of_lt size)
  omega

/-- With a descriptor that has an offset, the lower half of its table is used. -/
theorem asked_inode (delivers : (Disk.answering inf answer).Delivers dev)
    (filled : extfsDiskInfo sb = some inf) (nonzero : inf.inodesPerGrp ≠ 0) (first : 1 ≤ ino)
    (signed : ino < 2^63) (has : bgrpDescOff inf (inodeGrp inf ino) + 64 ≤ 2^64) :
    (Asks.extfsReadInodeStruct inf ino).asked answer =
      [.read (bgrpDescOff inf (inodeGrp inf ino)) 64,
        .read (blkInodeTabL inf dev (inodeGrp inf ino) * inf.blkszBytes +
          inodeSlot inf ino * inf.inodeStructSzB) 128] := by
  obtain ⟨slots,_,size,_⟩ := extfsDiskInfo_small filled
  have desc : (ino - 1) / inf.inodesPerGrp * inf.bgdtSzB + inf.blkStart * inf.blkszBytes +
      inf.blkszBytes = bgrpDescOff inf (inodeGrp inf ino) := by
    rw [bgrpDescOff,inodeGrp,Nat.add_mul,Nat.one_mul,Nat.add_comm,Nat.add_assoc]
    omega
  have below : bgrpDescOff inf (inodeGrp inf ino) % 2^64 = bgrpDescOff inf (inodeGrp inf ino) :=
    Nat.mod_eq_of_lt (by omega)
  have low : read (answer (.read (bgrpDescOff inf (inodeGrp inf ino)) 64)).2 8 4 =
      blkInodeTabL inf dev (inodeGrp inf ino) :=
    read_congr fun i small => by
      rw [Nat.add_assoc]
      exact (delivers _ 64).2 (8 + i) (by omega)
  have place : blkInodeTabL inf dev (inodeGrp inf ino) * inf.blkszBytes +
      (ino - 1) % inf.inodesPerGrp * inf.inodeStructSzB < 2^64 := inode_off_small slots size nonzero dev _ _
  rw [asked_extfsReadInodeStruct,inodeIdx_cast first signed]
  dsimp only
  rw [desc,below,low,inodeSlot,Nat.mod_eq_of_lt place]

theorem readsInode_iff (delivers : (Disk.answering inf answer).Delivers dev)
    (filled : extfsDiskInfo sb = some inf) (nonzero : inf.inodesPerGrp ≠ 0) (first : 1 ≤ ino)
    (signed : ino < 2^63) : ReadsInode inf dev answer ino ↔ TableFound inf dev (inodeGrp inf ino) := by
  by_cases has : bgrpDescOff inf (inodeGrp inf ino) + 64 ≤ 2^64
  · have asked := asked_inode delivers filled nonzero first signed has
    constructor
    · rintro ⟨tab,desc,table,reads⟩
      refine ⟨has,?_⟩
      rw [blkInodeTab,if_pos has,Option.some.injEq] at table
      simp only [asked,List.cons.injEq,Request.read.injEq,and_true] at reads
      have same : blkInodeTabL inf dev (inodeGrp inf ino) * inf.blkszBytes = tab * inf.blkszBytes := by
        omega
      have equal := Nat.mul_right_cancel inf.blkszRange.1 same
      omega
    · rintro ⟨_,upper⟩
      refine ⟨blkInodeTabL inf dev (inodeGrp inf ino),_,?_,asked⟩
      rw [blkInodeTab,if_pos has,upper,Nat.zero_mul,Nat.add_zero]
  · constructor
    · rintro ⟨tab,_,table,_⟩
      rw [blkInodeTab,if_neg has] at table
      cases table
    · exact fun found => absurd found.1 has

/-- Slots of a table have room for an inode. -/
theorem slot_apart {size r r' : Nat} (room : 128 ≤ size) (before : r < r') : r * size + 128 ≤ r' * size := by
  have next := Nat.mul_le_mul_right size (Nat.succ_le_of_lt before)
  rw [Nat.succ_mul] at next
  omega

/-- Different inodes have different groups, or different slots. -/
theorem inode_split (first : 1 ≤ ino) (first' : 1 ≤ ino') (other : ino ≠ ino') :
    inodeGrp inf ino ≠ inodeGrp inf ino' ∨ inodeSlot inf ino ≠ inodeSlot inf ino' := by
  by_contra same
  simp only [inodeGrp,inodeSlot,not_or,not_not] at same
  have left := Nat.div_add_mod (ino - 1) inf.inodesPerGrp
  have right := Nat.div_add_mod (ino' - 1) inf.inodesPerGrp
  rw [same.1,same.2] at left
  omega

/-- Inodes with places apart: in one table, or in two. -/
theorem places_apart (apart : TablesApart inf dev grps) (nonzero : inf.inodesPerGrp ≠ 0)
    (first : 1 ≤ ino) (first' : 1 ≤ ino') (other : ino ≠ ino') (within : inodeGrp inf ino < grps)
    (within' : inodeGrp inf ino' < grps) {tab tab' : Nat}
    (table : blkInodeTab inf dev (inodeGrp inf ino) = some tab)
    (table' : blkInodeTab inf dev (inodeGrp inf ino') = some tab') :
    tab * inf.blkszBytes + inodeSlot inf ino * inf.inodeStructSzB + 128 ≤
      tab' * inf.blkszBytes + inodeSlot inf ino' * inf.inodeStructSzB ∨
    tab' * inf.blkszBytes + inodeSlot inf ino' * inf.inodeStructSzB + 128 ≤
      tab * inf.blkszBytes + inodeSlot inf ino * inf.inodeStructSzB := by
  have slot (i : Nat) : inodeSlot inf i * inf.inodeStructSzB + 128 ≤ inf.inodesPerGrp * inf.inodeStructSzB :=
    slot_apart apart.room (Nat.mod_lt _ (Nat.pos_of_ne_zero nonzero))
  by_cases grp : inodeGrp inf ino = inodeGrp inf ino'
  · have one : tab = tab' := by
      rw [grp,table'] at table
      exact (Option.some.inj table).symm
    subst one
    have differ := (inode_split first first' other).resolve_left (not_not_intro grp)
    rcases Nat.lt_or_gt_of_ne differ with before | after
    · have := slot_apart apart.room before
      omega
    · have := slot_apart apart.room after
      omega
  · have := slot ino
    have := slot ino'
    rcases apart.apart _ within _ within' grp tab tab' table table' with before | after <;> omega

/-- On a disk that is accepted an inode is read from its place exactly when the table of its
group is found; two inodes of groups with tables apart, when both are found, from ranges apart. -/
theorem inode_bytes_iff (delivers : (Disk.answering inf answer).Delivers dev)
    (accepted : Asks.extfsEnum.run answer = some inf) (nonzero : inf.inodesPerGrp ≠ 0) :
    (∀ ino, 1 ≤ ino → ino < 2^63 →
      (ReadsInode inf dev answer ino ↔ TableFound inf dev (inodeGrp inf ino))) ∧
    ∀ grps, TablesApart inf dev grps → ∀ ino ino', 1 ≤ ino → 1 ≤ ino' → ino < 2^63 → ino' < 2^63 →
      ino ≠ ino' → inodeGrp inf ino < grps → inodeGrp inf ino' < grps →
      TableFound inf dev (inodeGrp inf ino) → TableFound inf dev (inodeGrp inf ino') →
      ∃ desc desc' off off', (Asks.extfsReadInodeStruct inf ino).asked answer = [.read desc 64,.read off 128] ∧
        (Asks.extfsReadInodeStruct inf ino').asked answer = [.read desc' 64,.read off' 128] ∧
        (off + 128 ≤ off' ∨ off' + 128 ≤ off) := by
  have filled : extfsDiskInfo (answer (.read 1024 1024)).2 = some inf := by
    rwa [Asks.extfsEnum,Prog.run_map] at accepted
  refine ⟨fun ino first signed => readsInode_iff delivers filled nonzero first signed,?_⟩
  intro grps apart ino ino' first first' signed signed' other within within' found found'
  obtain ⟨tab,desc,table,reads⟩ := (readsInode_iff delivers filled nonzero first signed).mpr found
  obtain ⟨tab',desc',table',reads'⟩ := (readsInode_iff delivers filled nonzero first' signed').mpr found'
  exact ⟨desc,desc',_,_,reads,reads',
    places_apart apart nonzero first first' other within within' table table'⟩

/-- An image of 1 KiB blocks with the 64BIT feature, 16 inodes in a group, and inode tables
at block 5 and at block 7. -/
def wideImage (upper : UInt8) : Store := fun i =>
  ([(1044,1),(1064,16),(1080,0x53),(1081,0xef),(1112,128),(1120,0x80),(1278,64),(2056,5),(2088,upper),
    (2120,7)].lookup i).getD 0

theorem wideInfo_range : 0 < 1024 ∧ 1024 ≤ 2^30 := ⟨Nat.zero_lt_succ _,Nat.le_of_ble_eq_true rfl⟩

def wideInfo : ExtfsDiskInfo := ⟨1024,16,1,64,128,0x80,wideInfo_range⟩

def imageAnswer (dev : Store) : Request → Answer := fun q => (q.num,fun i => dev (q.off + i))

theorem imageAnswer_delivers (inf : ExtfsDiskInfo) (dev : Store) :
    (Disk.answering inf (imageAnswer dev)).Delivers dev := fun _ _ => ⟨rfl,fun _ _ => rfl⟩

/-- The first inode of each group, with tables below block 2^32. -/
theorem inode_bytes_iff_first : ReadsInode wideInfo (wideImage 0) (imageAnswer (wideImage 0)) 1 ∧
    ∃ desc desc' off off',
      (Asks.extfsReadInodeStruct wideInfo 1).asked (imageAnswer (wideImage 0)) = [.read desc 64,.read off 128] ∧
      (Asks.extfsReadInodeStruct wideInfo 17).asked (imageAnswer (wideImage 0)) = [.read desc' 64,.read off' 128] ∧
      (off + 128 ≤ off' ∨ off' + 128 ≤ off) := by
  obtain ⟨each,apart⟩ := inode_bytes_iff (imageAnswer_delivers wideInfo (wideImage 0)) rfl (by decide)
  have found : TableFound wideInfo (wideImage 0) 0 := ⟨by decide,by decide⟩
  have found' : TableFound wideInfo (wideImage 0) 1 := ⟨by decide,by decide⟩
  have tables : TablesApart wideInfo (wideImage 0) 2 := by
    have zero : blkInodeTab wideInfo (wideImage 0) 0 = some 5 := by decide
    have one : blkInodeTab wideInfo (wideImage 0) 1 = some 7 := by decide
    refine ⟨by decide,?_⟩
    intro g small g' small' other tab tab' table table'
    have grps : g = 0 ∧ g' = 1 ∨ g = 1 ∧ g' = 0 := by omega
    rcases grps with ⟨rfl,rfl⟩ | ⟨rfl,rfl⟩
    · cases zero.symm.trans table
      cases one.symm.trans table'
      decide
    · cases one.symm.trans table
      cases zero.symm.trans table'
      decide
  exact ⟨(each 1 (by decide) (by decide)).mpr found,apart 2 tables 1 17 (by decide) (by decide)
    (by decide) (by decide) (by decide) (by decide) (by decide) found found'⟩

/-- The table of the first group at block 2^32 + 5 is looked for at block 5. -/
theorem inode_bytes_lower : ¬∀ (inf : ExtfsDiskInfo) (dev : Store) (answer : Request → Answer) (ino : Nat),
    (Disk.answering inf answer).Delivers dev → Asks.extfsEnum.run answer = some inf →
    inf.inodesPerGrp ≠ 0 → 1 ≤ ino → ino < 2^63 → ReadsInode inf dev answer ino := by
  intro all
  obtain ⟨tab,desc,table,reads⟩ := all wideInfo (wideImage 1) (imageAnswer (wideImage 1)) 1
    (imageAnswer_delivers wideInfo (wideImage 1)) rfl (by decide) (by decide) (by decide)
  have upper : blkInodeTab wideInfo (wideImage 1) (inodeGrp wideInfo 1) = some (2^32 + 5) := by decide
  cases upper.symm.trans table
  have asked : (Asks.extfsReadInodeStruct wideInfo 1).asked (imageAnswer (wideImage 1)) =
      [.read 2048 64,.read 5120 128] := rfl
  have off := congrArg (List.map Request.off) (asked.symm.trans reads)
  exact absurd (List.cons.inj (List.cons.inj off).2).1 (by decide)

end Siegfried
