import Siegfried.ExtentBounds
import Siegfried.ExtfsRequests

/-! Which parts of its disk extfs reads, by what is on the disk (`extfs.c`). -/
namespace Siegfried

open Bytes Requests

section Fits

variable (d : Disk) (fits : Nat → Nat → Prop)

/-- The descriptor of an inode's group, and the inode. -/
def InodeFits (ino : Int) : Prop :=
  fits ((inodeIdx ino / d.info.inodesPerGrp * d.info.bgdtSzB + d.info.blkStart * d.info.blkszBytes +
    d.info.blkszBytes) % 2^64) 64 ∧
  fits ((read (extfsReadInodesBlkDesc d ino) 8 4 * d.info.blkszBytes +
    inodeIdx ino % d.info.inodesPerGrp * d.info.inodeStructSzB) % 2^64) 128

/-- The list of extents behind a child of a node. -/
def parseChild (fuel : Nat) (head : Store) (root : List ExtfsBlk) (i : Nat) : Option (List ExtfsBlk) :=
  if headMagic (loadChild d head i) ≠ 0xf30a then some root
  else extfsParseExtentTree d fuel (loadChild d head i) root

/-- All nodes below a node, up to the first that never ends. -/
def TreeFits : Nat → Store → List ExtfsBlk → Prop
  | 0, _, _ => True
  | fuel+1, head, root =>
    if headDepth head = 0 then True
    else Prog.LoopAll (parseChild d fuel head) (fun root i =>
      fits (childOff d.info head i) 512 ∧ fits (childOff d.info head i) (childSize d head i) ∧
        if headMagic (loadChild d head i) ≠ 0xf30a then True else TreeFits fuel (loadChild d head i) root)
      (List.range (headEnts head)) root

/-- Of each extent what is left to be read of it. -/
def BlksFit : List ExtfsBlk → Int → Nat → Prop
  | [], _, _ => True
  | blk :: blks, count, off =>
    if count ≤ 0 then True
    else
      let extentFileOff := blk.blksFOff * d.info.blkszBytes % 2^64
      let extentSz := blk.numBlks * d.info.blkszBytes % 2^64
      if (extentFileOff + extentSz) % 2^64 ≤ off then BlksFit blks count off
      else
        let extentOff := if extentFileOff < off then off - extentFileOff else 0
        let avail := extentSz - extentOff
        let count2 := min (avail : Int) count
        fits ((blk.blksOff * d.info.blkszBytes + extentOff) % 2^64) count2.toNat ∧
          BlksFit blks (count - count2) (off + count2.toNat)

/-- `count` bytes of a file from `off` on. -/
def ContentsFit (fuel : Nat) (inode : Store) (count : Int) (off : Nat) : Prop :=
  if d.info.reqFlags &&& extfsReqfExtent = 0 then
    fits ((blkDataPtr inode * d.info.blkszBytes + off) % 2^64) (count % 2^64).toNat
  else TreeFits d fits fuel (fun i => inode (40 + i)) [] ∧
    ∀ blks, extfsParseExtentTree d fuel (fun i => inode (40 + i)) [] = some blks → BlksFit d fits blks count off

/-- The entries of a directory. -/
def DirentsFit (fuel : Nat) (inode : Store) : Prop :=
  if typesNPerm inode &&& extfsDirType = 0 then True
  else if d.info.reqFlags &&& extfsReqfExtent = 0 then
    fits (blkDataPtr inode * d.info.blkszBytes) (extfsGetInoSzinBytes inode)
  else if inodeFlags inode &&& extfsHashedIdxFlag ≠ 0 then True
  else ContentsFit d fits fuel inode (toLong (.ofNat (extfsGetInoSzinBytes inode))) 0

/-- A directory. -/
def DirFits (fuel : Nat) (ino : Int) : Prop :=
  InodeFits d fits ino ∧ DirentsFit d fits fuel (extfsReadInodeStruct d ino)

/-- The target of a link. -/
def LinkFits (fuel : Nat) (ino : Int) (fInfo : Store) : Prop :=
  if read fInfo 4 4 < 60 then True
  else InodeFits d fits ino ∧ ContentsFit d fits fuel (extfsReadInodeStruct d ino) (read fInfo 4 4) 0

/-- The names of a path, with the inodes that they lead over. -/
def NamesFit (fuel : Nat) (find : List UInt8 → Option Int) (findFits : List UInt8 → Prop) :
    List (List UInt8) → Int → Int → Prop
  | [], _, _ => True
  | name :: names, currInode, last =>
    if pathMax < name.length then True
    else InodeFits d fits currInode ∧
      let fInfo := extfsReadInodeStruct d currInode
      if typesNPerm fInfo &&& extfsSymlinkType ≠ 0 then
        (LinkFits d fits fuel currInode fInfo ∧ ∀ target, symlinkStr d fuel currInode fInfo = some target →
          findFits target) ∧
        ∀ next, extfsResolveSymlink d fuel find currInode fInfo = some next →
          if next = 0 then True else NamesFit fuel find findFits names next last
      else if typesNPerm fInfo &&& extfsDirType = 0 then True
      else DirFits d fits fuel currInode ∧ ∀ next, extfsFindFinodeFromDir d fuel currInode name = some next →
        if next = 0 then True else NamesFit fuel find findFits names next currInode

/-- The inode at the end of a path, and if `par` is wanted, of a directory its entries. -/
def ParFits (fuel : Nat) (currInode : Int) (wantPar : Bool) : Prop :=
  InodeFits d fits currInode ∧
    if typesNPerm (extfsReadInodeStruct d currInode) &&& extfsSymlinkType ≠ 0 then True
    else if wantPar then DirFits d fits fuel currInode
    else True

/-- A path, with those of the links on it. -/
def PathFits (diskId : Nat) (cwd : Option SiegfriedDir) : Nat → List UInt8 → Bool → Prop
  | 0, _, _ => True
  | fuel+1, path, wantPar => ∀ l, extfsLookup cwd diskId path = .ok l →
    let find := fun target => foundInode d diskId cwd fuel target false
    NamesFit d fits fuel find (fun target => PathFits diskId cwd fuel target false) (pathNames l.path) l.start
      l.start ∧
    ∀ currInode last, walkNames d fuel find (pathNames l.path) l.start l.start = some (.ok (currInode,last)) →
      ParFits d fits fuel currInode wantPar

/-- What is read of an open file. -/
def FileFits (fuel : Nat) (ino : Int) (off : Nat) (bytes : UInt64) : Prop :=
  InodeFits d fits ino ∧
    if typesNPerm (extfsReadInodeStruct d ino) &&& extfsDirType ≠ 0 then True
    else ContentsFit d fits fuel (extfsReadInodeStruct d ino) (toLong bytes) off

end Fits

section All

variable {inf : ExtfsDiskInfo} {answer : Request → Answer} {P : Request → Prop}

@[simp] theorem all_read {off num : Nat} : (Asks.read off num).All P answer ↔ P (.read off num) := by
  simp [Asks.read]

@[simp] theorem all_extfsReadInodeStruct {ino : Int} : (Asks.extfsReadInodeStruct inf ino).All P answer ↔
    InodeFits (.answering inf answer) (fun off num => P (.read off num)) ino := by
  simp only [Asks.extfsReadInodeStruct,Asks.extfsReadInodesBlkDesc,Prog.all_bind,Prog.all_map,all_read,
    Prog.run_map,run_read]
  rfl

theorem all_extfsParseExtentTree {fuel : Nat} {head : Store} {root : List ExtfsBlk} :
    (Asks.extfsParseExtentTree inf fuel head root).All P answer ↔
      TreeFits (.answering inf answer) (fun off num => P (.read off num)) fuel head root := by
  induction fuel generalizing head root with
  | zero => exact iff_of_true Prog.all_ret trivial
  | succ fuel ih =>
    rw [Asks.extfsParseExtentTree,TreeFits]
    by_cases leaf : headDepth head = 0
    · simp [leaf]
    · rw [if_neg leaf,if_neg leaf,Prog.all_forEach]
      apply Prog.LoopAll.congr
      · intro root i
        simp only [Prog.run_bind,run_read,↓Prog.run_ite,Prog.run_ret,run_extfsParseExtentTree]
        rfl
      · intro root i
        simp only [Prog.all_bind,all_read,run_read,↓Prog.all_ite,Prog.all_ret,ih]
        rfl

theorem all_readBlks {blks : List ExtfsBlk} {buf : Store} {pos total off : Nat} {count : Int} :
    (Asks.readBlks inf blks buf pos total count off).All P answer ↔
      BlksFit (.answering inf answer) (fun off num => P (.read off num)) blks count off := by
  induction blks generalizing buf pos total off count with
  | nil => exact iff_of_true Prog.all_ret trivial
  | cons blk blks ih =>
    simp only [Asks.readBlks,BlksFit,↓Prog.all_ite,Prog.all_ret,Prog.all_bind,all_read,ih]
    rfl

@[simp] theorem all_extfsReadInodeContents {fuel : Nat} {inode buf : Store} {count : Int} {off : Nat} :
    (Asks.extfsReadInodeContents inf fuel inode buf count off).All P answer ↔
      ContentsFit (.answering inf answer) (fun off num => P (.read off num)) fuel inode count off := by
  simp only [Asks.extfsReadInodeContents,↓Prog.all_ite,Prog.all_map,Prog.all_andThen,all_read,
    run_extfsParseExtentTree,all_extfsParseExtentTree,all_readBlks]
  rfl

@[simp] theorem all_extfsReadDirDirents {fuel : Nat} {inode buf : Store} :
    (Asks.extfsReadDirDirents inf fuel inode buf).All P answer ↔
      DirentsFit (.answering inf answer) (fun off num => P (.read off num)) fuel inode := by
  simp only [Asks.extfsReadDirDirents,↓Prog.all_ite,Prog.all_ret,Prog.all_map,all_read,
    all_extfsReadInodeContents]
  rfl

@[simp] theorem all_extfsFindFinodeFromDir {fuel : Nat} {dirInode : Int} {name : List UInt8} :
    (Asks.extfsFindFinodeFromDir inf fuel dirInode name).All P answer ↔
      DirFits (.answering inf answer) (fun off num => P (.read off num)) fuel dirInode := by
  simp [Asks.extfsFindFinodeFromDir,DirFits]

@[simp] theorem all_symlinkStr {fuel : Nat} {symlinkNode : Int} {fInfo : Store} :
    (Asks.symlinkStr inf fuel symlinkNode fInfo).All P answer ↔
      LinkFits (.answering inf answer) (fun off num => P (.read off num)) fuel symlinkNode fInfo := by
  simp only [Asks.symlinkStr,↓Prog.all_ite,Prog.all_ret,Prog.all_bind,Prog.all_map,run_extfsReadInodeStruct,
    all_extfsReadInodeStruct,all_extfsReadInodeContents]
  rfl

theorem all_walkNames {fuel : Nat} {find : List UInt8 → Asks (Option Int)} {findFits : List UInt8 → Prop}
    (finds : ∀ target, (find target).All P answer ↔ findFits target) {names : List (List UInt8)}
    {currInode last : Int} : (Asks.walkNames inf fuel find names currInode last).All P answer ↔
      NamesFit (.answering inf answer) (fun off num => P (.read off num)) fuel
        (fun target => (find target).run answer) findFits names currInode last := by
  induction names generalizing currInode last with
  | nil => exact iff_of_true Prog.all_ret trivial
  | cons name names ih =>
    simp only [Asks.walkNames,NamesFit,↓Prog.all_ite,Prog.all_ret,Prog.all_bind,Prog.all_andThen,
      all_extfsReadInodeStruct,all_symlinkStr,all_extfsFindFinodeFromDir,run_extfsReadInodeStruct,
      run_symlinkStr,run_extfsFindFinodeFromDir,Prog.run_andThen,finds,ih]
    rfl

@[simp] theorem all_setPar {fuel : Nat} {currInode last : Int} {wantPar : Bool} {newName : List UInt8} :
    (Asks.setPar inf fuel currInode last wantPar newName).All P answer ↔
      ParFits (.answering inf answer) (fun off num => P (.read off num)) fuel currInode wantPar := by
  simp only [Asks.setPar,↓Prog.all_ite,Prog.all_ret,Prog.all_bind,Prog.all_map,run_extfsReadInodeStruct,
    all_extfsReadInodeStruct,all_extfsFindFinodeFromDir]
  rfl

/-- The lookup of a path stays where the inodes and files on its way are. -/
theorem all_extfsFindInode {diskId : Nat} {cwd : Option SiegfriedDir} {fuel : Nat} {path : List UInt8}
    {wantPar : Bool} :
    (Asks.extfsFindInodeFromNameAndSetName inf diskId cwd fuel path wantPar).All P answer ↔
      PathFits (.answering inf answer) (fun off num => P (.read off num)) diskId cwd fuel path wantPar := by
  induction fuel generalizing path wantPar with
  | zero => exact iff_of_true Prog.all_ret trivial
  | succ fuel ih =>
    rw [Asks.extfsFindInodeFromNameAndSetName,PathFits]
    cases look : extfsLookup cwd diskId path with
    | error e => simp
    | ok l =>
      have finds : (fun target => ((Asks.extfsFindInodeFromNameAndSetName inf diskId cwd fuel target false).map
          (Option.map (·.ret))).run answer) = fun target =>
            foundInode (.answering inf answer) diskId cwd fuel target false := by
        funext target
        rw [Prog.run_map,run_extfsFindInode]
        rfl
      simp only [Except.ok.injEq,forall_eq',Prog.all_andThen,run_walkNames]
      rw [← finds]
      apply and_congr
      · exact all_walkNames fun target => Prog.all_map.trans ih
      · constructor
        · intro all currInode last walked
          exact all_setPar.mp (all _ walked)
        · rintro all (e | ⟨currInode,last⟩) walked
          · exact Prog.all_ret
          · exact all_setPar.mpr (all currInode last walked)

theorem all_extfsFread {fuel : Nat} {ino : Int} {buf : Store} {off : Nat} {bytes : UInt64} :
    (Asks.extfsFread inf fuel ino buf off bytes).All P answer ↔
      FileFits (.answering inf answer) (fun off num => P (.read off num)) fuel ino off bytes := by
  simp only [Asks.extfsFread,↓Prog.all_ite,Prog.all_ret,Prog.all_bind,Prog.all_map,run_extfsReadInodeStruct,
    all_extfsReadInodeStruct,all_extfsReadInodeContents]
  rfl

end All

end Siegfried
