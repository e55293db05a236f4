import Siegfried.FileRead

/-! Directories of `extfs.c`, and looking up a name in one. -/
namespace Siegfried

open Bytes

def extfsHashedIdxFlag : Nat := 0x1000

section Fields

variable (m : Store) (a : Nat)

/-- The fields of the `extfs_dirent` at `a`. -/
def direntInode : Nat := read m a 4
def direntEntSz : Nat := read m (a + 4) 2
def direntNamelenL : Nat := read m (a + 6) 1
def direntName : List UInt8 := bytes m (a + 8) (direntNamelenL m a)

end Fields

/-- The `flags` of an `extfs_inode`. -/
def inodeFlags (inode : Store) : Nat := read inode 32 4

/-- What it returns and leaves in `buf`; with a hashed directory it does not return. -/
def extfsReadDirDirents (d : Disk) (fuel : Nat) (inode buf : Store) : Option (Int × Store) :=
  let size := extfsGetInoSzinBytes inode
  if typesNPerm inode &&& extfsDirType = 0 then some (-enotdir,buf)
  else if d.info.reqFlags &&& extfsReqfExtent = 0 then
    let r := d.readFunc (blkDataPtr inode * d.info.blkszBytes) size
    some (toLong (.ofNat r.1),splice buf 0 size r.2)
  else if inodeFlags inode &&& extfsHashedIdxFlag ≠ 0 then none
  else (extfsReadInodeContents d fuel inode buf (toLong (.ofNat size)) 0).map fun r =>
    (toLong (.ofNat r.1),r.2)

/-- The loop over the entries in a buffer of `n` bytes; `none` when it runs on behind
them, where the kernel heap decides what it finds. -/
def findDirent (m : Store) (n : Nat) (name : List UInt8) : Nat → Nat → Option Int
  | 0, _ => none
  | fuel+1, a =>
    if n < a + 8 then none
    else if direntInode m a = 0 ∨ direntEntSz m a = 0 then some (-enoent)
    else if n < a + 8 + direntNamelenL m a then none
    else if direntName m a = name then some (direntInode m a)
    else findDirent m n name fuel (a + direntEntSz m a)

/-- Every entry is at least a byte long, so that the size of the buffer is enough fuel. -/
def extfsFindFinodeFromDir (d : Disk) (fuel : Nat) (dirInode : Int) (name : List UInt8) :
    Option Int :=
  let dirStruct := extfsReadInodeStruct d dirInode
  let dirSz := extfsGetInoSzinBytes dirStruct
  (extfsReadDirDirents d fuel dirStruct fun _ => 0).bind fun r =>
    if r.1 ≤ 0 then some r.1 else findDirent r.2 dirSz name dirSz 0

/-- A directory entry; unused ones have the inode 0. -/
structure Dirent where
  inode : Nat
  entSz : Nat
  name : List UInt8
  deriving DecidableEq

/-- The entries that a directory has from `a` to `n`, one behind the other. -/
def Laid (m : Store) : Nat → List Dirent → Nat → Prop
  | a, [], n => a = n
  | a, e :: ds, n => direntInode m a = e.inode ∧ direntEntSz m a = e.entSz ∧
    direntNamelenL m a = e.name.length ∧ direntName m a = e.name ∧ 8 + e.name.length ≤ e.entSz ∧
    Laid m (a + e.entSz) ds n

instance (m : Store) : (a : Nat) → (ds : List Dirent) → (n : Nat) → Decidable (Laid m a ds n)
  | a, [], n => inferInstanceAs (Decidable (a = n))
  | a, e :: ds, n =>
    have : Decidable (Laid m (a + e.entSz) ds n) := instDecidableLaid m (a + e.entSz) ds n
    inferInstanceAs (Decidable (_ ∧ _))

/-- The inode behind a name. -/
def lookup (ds : List Dirent) (name : List UInt8) : Option Nat :=
  (ds.find? fun e => e.inode ≠ 0 ∧ e.name = name).map (·.inode)

/-- The entries in front of the first unused one. -/
def visible (ds : List Dirent) : List Dirent := ds.takeWhile (·.inode ≠ 0)

/-- The blocks of a file are where `place` says, through a valid tree if there are extents. -/
def OnBlocks (d : Disk) (dev : Store) (deep : Nat) (inode : Store) (place : Nat → Option Nat) : Prop :=
  d.info.reqFlags &&& extfsReqfExtent ≠ 0 → ∃ nodes height blks n, height ≤ deep ∧
    ExtentTree d.info dev nodes height (fun i => inode (40 + i)) blks ∧ TilesFile 0 blks n ∧
    extfsGetInoSzinBytes inode ≤ n * d.info.blkszBytes ∧ OnDevice d.info blks ∧
    place = fileMap d.info blks

/-- Without extents the blocks lie one behind the other. -/
def InOnePiece (d : Disk) (inode : Store) (place : Nat → Option Nat) : Prop :=
  d.info.reqFlags &&& extfsReqfExtent = 0 → ∀ p < extfsGetInoSzinBytes inode,
    place p = some (blkDataPtr inode * d.info.blkszBytes + p)

/-- A directory that can be read: in one piece, or with extents and not hashed. -/
def ReadableDir (d : Disk) (inode : Store) (place : Nat → Option Nat) : Prop :=
  InOnePiece d inode place ∧
    (d.info.reqFlags &&& extfsReqfExtent ≠ 0 → inodeFlags inode &&& extfsHashedIdxFlag = 0)

/-- The bytes of a file. -/
def contents (dev : Store) (place : Nat → Option Nat) (p : Nat) : UInt8 := (place p).elim 0 dev

variable {m m' : Store} {a n fuel : Nat} {ds : List Dirent} {name : List UInt8}

theorem Laid.le (laid : Laid m a ds n) : a ≤ n := by
  induction ds generalizing a with
  | nil => exact Nat.le_of_eq laid
  | cons e ds ih => exact Nat.le_trans (Nat.le_add_right ..) (ih laid.2.2.2.2.2)

/-- Entries are in their bytes. -/
theorem Laid.congr (laid : Laid m a ds n) (same : ∀ i < n, m i = m' i) : Laid m' a ds n := by
  induction ds generalizing a with
  | nil => exact laid
  | cons e ds ih =>
    obtain ⟨inode,entSz,namelen,name,room,rest⟩ := laid
    have le := rest.le
    have field (b k : Nat) (inside : b + k ≤ 8) : read m (a + b) k = read m' (a + b) k :=
      read_congr fun i small => same _ (by omega)
    have namelen' : direntNamelenL m' a = e.name.length := by
      rw [← namelen]
      exact (field 6 1 (by decide)).symm
    refine ⟨?_,?_,namelen',?_,room,ih rest⟩
    · rw [← inode]
      exact (field 0 4 (by decide)).symm
    · rw [← entSz]
      exact (field 4 2 (by decide)).symm
    · rw [← name,direntName,direntName,namelen',namelen]
      exact bytes_congr fun i small => (same _ (by omega)).symm

/-- A name in front of the first unused entry is found. -/
theorem findDirent_found {j : Nat} (laid : Laid m a ds n) (enough : n ≤ a + fuel)
    (found : lookup (visible ds) name = some j) : findDirent m n name fuel a = some (j : Int) := by
  induction ds generalizing a fuel with
  | nil => cases found
  | cons e ds ih =>
    obtain ⟨inode,entSz,namelen,same,room,rest⟩ := laid
    have le := rest.le
    cases fuel with
    | zero => omega
    | succ fuel =>
      by_cases unused : e.inode = 0
      · rw [visible,List.takeWhile_cons_of_neg (by simp [unused])] at found
        cases found
      · rw [visible,List.takeWhile_cons_of_pos (by simpa using unused)] at found
        rw [findDirent,if_neg (by omega),inode,entSz,namelen,if_neg (by omega),if_neg (by omega),same]
        by_cases this : e.name = name
        · rw [lookup,List.find?_cons_of_pos (by simp [unused,this])] at found
          rw [if_pos this]
          exact congrArg some (congrArg Int.ofNat (Option.some.inj found))
        · rw [lookup,List.find?_cons_of_neg (by simp [this])] at found
          rw [if_neg this]
          exact ih rest (by omega) found

/-- Of another name it is known at the first unused entry, if there is one. -/
theorem findDirent_missing (laid : Laid m a ds n) (enough : n ≤ a + fuel)
    (missing : lookup (visible ds) name = none) (stops : ∃ e ∈ ds, e.inode = 0) :
    findDirent m n name fuel a = some (-enoent) := by
  induction ds generalizing a fuel with
  | nil =>
    obtain ⟨e,member,_⟩ := stops
    cases member
  | cons e ds ih =>
    obtain ⟨inode,entSz,namelen,same,room,rest⟩ := laid
    have le := rest.le
    cases fuel with
    | zero => omega
    | succ fuel =>
      by_cases unused : e.inode = 0
      · rw [findDirent,if_neg (by omega),inode]
        exact if_pos (.inl unused)
      · rw [visible,List.takeWhile_cons_of_pos (by simpa using unused)] at missing
        have other : e.name ≠ name := by
          intro this
          rw [lookup,List.find?_cons_of_pos (by simp [unused,this])] at missing
          cases missing
        rw [lookup,List.find?_cons_of_neg (by simp [other])] at missing
        rw [findDirent,if_neg (by omega),inode,entSz,namelen,if_neg (by omega),if_neg (by omega),same,
          if_neg other]
        refine ih rest (by omega) missing ?_
        obtain ⟨f,member,free⟩ := stops
        rcases List.mem_cons.mp member with rfl | member
        · exact absurd free unused
        · exact ⟨f,member,free⟩

variable {d : Disk} {dev inode buf : Store} {deep k : Nat} {place : Nat → Option Nat}

/-- The first bytes of a file with extents. -/
theorem OnBlocks.read (onBlocks : OnBlocks d dev deep inode place) (delivers : d.Delivers dev)
    (extents : d.info.reqFlags &&& extfsReqfExtent ≠ 0) (enough : deep < fuel)
    (within : k ≤ extfsGetInoSzinBytes inode) :
    extfsReadInodeContents d fuel inode buf k 0 = some (k,splice buf 0 k (contents dev place)) := by
  obtain ⟨nodes,height,blks,n,low,tree,tiles,whole,fits,rfl⟩ := onBlocks extents
  have read : ∃ k', k' = min (0 + (k : Int).toNat) (n * d.info.blkszBytes) - 0 ∧
      extfsReadInodeContents d fuel inode buf k 0 = some (k',splice buf 0 k' _) :=
    extfsReadInodeContents_tiles extents delivers tree (Nat.lt_of_le_of_lt low enough) tiles fits buf
  obtain ⟨k',short,done⟩ := read
  have all : k' = k := by
    rw [short,Int.toNat_natCast]
    omega
  rw [done,all]
  congr 2
  apply splice_congr
  intro i _
  rw [Nat.zero_add,fileByte,contents]

/-- The first bytes of a file in one piece, if there are no extents. -/
theorem InOnePiece.read (onePiece : InOnePiece d inode place) (onBlocks : OnBlocks d dev deep inode place)
    (delivers : d.Delivers dev) (enough : deep < fuel) (within : k ≤ extfsGetInoSzinBytes inode)
    (small : k < 2^64) : ∃ num buf', extfsReadInodeContents d fuel inode buf k 0 = some (num,buf') ∧
      ∀ p < k, contents dev place p = buf' p := by
  by_cases extents : d.info.reqFlags &&& extfsReqfExtent = 0
  · have first : blkDataPtr inode * d.info.blkszBytes < 2^32 * 2^30 + 1 :=
      Nat.lt_succ_of_le (Nat.mul_le_mul (Nat.le_of_lt (read_lt ..)) d.info.blkszRange.2)
    have addr : (blkDataPtr inode * d.info.blkszBytes + 0) % 2^64 =
        blkDataPtr inode * d.info.blkszBytes := by omega
    have num : ((k : Int) % 2^64).toNat = k := by omega
    rw [extfsReadInodeContents,if_pos extents,addr,num]
    refine ⟨_,_,rfl,fun p inside => ?_⟩
    rw [splice_start inside,delivers.bytes p inside,contents,
      onePiece extents p (Nat.lt_of_lt_of_le inside within)]
    rfl
  · rw [onBlocks.read delivers extents enough within]
    exact ⟨_,_,rfl,fun p inside => (splice_start inside).symm⟩

theorem toLong_ofNat (small : k < 2^63) : toLong (.ofNat k) = k := by
  have same : (UInt64.ofNat k).toNat = k := UInt64.toNat_ofNat_of_lt' (Nat.lt_trans small (by decide))
  rw [toLong,same,if_pos small]

theorem extfsReadDirDirents_readable (delivers : d.Delivers dev)
    (dir : typesNPerm inode &&& extfsDirType ≠ 0) (onBlocks : OnBlocks d dev deep inode place)
    (readable : ReadableDir d inode place) (enough : deep < fuel)
    (small : extfsGetInoSzinBytes inode < 2^63) :
    ∃ buf', extfsReadDirDirents d fuel inode buf = some ((extfsGetInoSzinBytes inode : Int),buf') ∧
      ∀ p < extfsGetInoSzinBytes inode, contents dev place p = buf' p := by
  rw [extfsReadDirDirents,if_neg dir,toLong_ofNat small]
  by_cases extents : d.info.reqFlags &&& extfsReqfExtent = 0
  · rw [if_pos extents]
    dsimp only
    rw [(delivers ..).1,toLong_ofNat small]
    refine ⟨_,rfl,fun p inside => ?_⟩
    rw [splice_start inside,delivers.bytes p inside,contents,readable.1 extents p inside]
    rfl
  · rw [if_neg extents,if_neg (not_not.mpr (readable.2 extents)),
      onBlocks.read delivers extents enough (Nat.le_refl _),Option.map_some]
    dsimp only
    rw [toLong_ofNat small]
    exact ⟨_,rfl,fun p inside => (splice_start inside).symm⟩

end Siegfried
