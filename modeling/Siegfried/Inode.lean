import Siegfried.Bytes

/-! Disks with an extfs file system, and the inodes on them (`extfs.c`). -/
namespace Siegfried

open Bytes

def enoent : Int := 2
def enotdir : Int := 20
def eisdir : Int := 21
def einval : Int := 22
def enosys : Int := 89

/-- `extfs_disk_info`; the block size is the `int` `1024 << sb->blksz`. -/
structure ExtfsDiskInfo where
  blkszBytes : Nat
  inodesPerGrp : Nat
  blkStart : Nat
  bgdtSzB : Nat
  inodeStructSzB : Nat
  reqFlags : Nat
  blkszRange : 0 < blkszBytes ∧ blkszBytes ≤ 2^30

/-- `diskman_ent`. `readFunc off num` stands for `read_func`: what it returns, and the
bytes it puts in the buffer. -/
structure Disk where
  readFunc : Nat → Nat → Nat × Store
  info : ExtfsDiskInfo

/-- `read_func` delivers the bytes of `dev`, and says so. -/
def Disk.Delivers (d : Disk) (dev : Store) : Prop :=
  ∀ off num, (d.readFunc off num).1 = num ∧ ∀ i < num, (d.readFunc off num).2 i = dev (off + i)

def extfsReqfExtent : Nat := 0x40

/-- The `ino_t` before `ino`, as an `unsigned long`. -/
def inodeIdx (ino : Int) : Nat := ((ino - 1) % 2^64).toNat

/-- The bytes of the `extfs_bgrp_desc` of an inode's group. -/
def extfsReadInodesBlkDesc (d : Disk) (ino : Int) : Store :=
  let szS := d.info.blkszBytes
  let idx := inodeIdx ino / d.info.inodesPerGrp * d.info.bgdtSzB + d.info.blkStart * szS + szS
  (d.readFunc (idx % 2^64) 64).2

/-- The bytes of an `extfs_inode`; `blk_inode_tab` is at 8 of the descriptor. -/
def extfsReadInodeStruct (d : Disk) (ino : Int) : Store :=
  let bd := extfsReadInodesBlkDesc d ino
  let off := read bd 8 4 * d.info.blkszBytes +
    inodeIdx ino % d.info.inodesPerGrp * d.info.inodeStructSzB
  (d.readFunc (off % 2^64) 128).2

section Fields

variable (inode : Store)

def typesNPerm : Nat := read inode 0 2

/-- `sz_in_bytes_l` and `sz_in_bytes_h`. -/
def extfsGetInoSzinBytes : Nat := read inode 4 4 + read inode 108 4 * 2^32

/-- `blk_data_ptrs[0]`. -/
def blkDataPtr : Nat := read inode 40 4

end Fields

def extfsDirType : Nat := 0x4000
def extfsSymlinkType : Nat := 0xa000

theorem Disk.Delivers.bytes {d : Disk} {dev : Store} (delivers : d.Delivers dev) {off num : Nat} :
    ∀ i < num, (d.readFunc off num).2 i = dev (off + i) := (delivers off num).2

end Siegfried
