import Siegfried.Requests
import Siegfried.PathWalk

/-! What extfs asks of the disk it is on, request by request (`extfs.c`). -/
namespace Siegfried

open Bytes Requests

/-- Calls of the `read_func` and `write_func` of a disk. -/
inductive Request where
  | read (off num : Nat)
  | write (off num : Nat) (buf : Store)

def Request.off : Request → Nat
  | .read off _ | .write off _ _ => off

def Request.num : Request → Nat
  | .read _ num | .write _ num _ => num

/-- What is returned, and the bytes that a read leaves in the buffer. -/
abbrev Answer := Nat × Store

abbrev Asks (α : Type) := Prog Request Answer α

/-- The disk that answers like this. -/
def Disk.answering (inf : ExtfsDiskInfo) (answer : Request → Answer) : Disk :=
  ⟨fun off num => answer (.read off num),inf⟩

namespace Asks

def read (off num : Nat) : Asks Answer := .ask (.read off num) .ret

variable (inf : ExtfsDiskInfo)

def extfsReadInodesBlkDesc (ino : Int) : Asks Store :=
  let szS := inf.blkszBytes
  let idx := inodeIdx ino / inf.inodesPerGrp * inf.bgdtSzB + inf.blkStart * szS + szS
  (read (idx % 2^64) 64).map (·.2)

def extfsReadInodeStruct (ino : Int) : Asks Store :=
  (extfsReadInodesBlkDesc inf ino).bind fun bd =>
    let off := Bytes.read bd 8 4 * inf.blkszBytes + inodeIdx ino % inf.inodesPerGrp * inf.inodeStructSzB
    (read (off % 2^64) 128).map (·.2)

def extfsParseExtentTree : Nat → Store → List ExtfsBlk → Asks (Option (List ExtfsBlk))
  | 0, _, _ => .ret none
  | fuel+1, head, root =>
    if headDepth head = 0 then
      .ret (some ((List.range (headEnts head)).foldl (fun root i =>
        extfsNewPair root (endNumBlks head i) (endBlkDat head i) (endFOff head i)) root))
    else
      Prog.forEach (fun root i =>
        (read (childOff inf head i) 512).bind fun subh =>
          (read (childOff inf head i) (nodeSize subh.2)).bind fun subh =>
            if headMagic subh.2 ≠ 0xf30a then .ret (some root)
            else extfsParseExtentTree fuel subh.2 root) (List.range (headEnts head)) root

def readBlks : List ExtfsBlk → Store → Nat → Nat → Int → Nat → Asks (Nat × Store)
  | [], buf, _, total, _, _ => .ret (total,buf)
  | blk :: blks, buf, pos, total, count, off =>
    if count ≤ 0 then .ret (total,buf)
    else
      let extentFileOff := blk.blksFOff * inf.blkszBytes % 2^64
      let extentSz := blk.numBlks * inf.blkszBytes % 2^64
      if (extentFileOff + extentSz) % 2^64 ≤ off then readBlks blks buf pos total count off
      else
        let extentOff := if extentFileOff < off then off - extentFileOff else 0
        let avail := extentSz - extentOff
        let count2 := min (avail : Int) count
        (read ((blk.blksOff * inf.blkszBytes + extentOff) % 2^64) count2.toNat).bind fun r =>
          readBlks blks (splice buf pos count2.toNat r.2) (pos + count2.toNat) (total + r.1)
            (count - count2) (off + count2.toNat)

def extfsReadInodeContents (fuel : Nat) (inode buf : Store) (count : Int) (off : Nat) :
    Asks (Option (Nat × Store)) :=
  if inf.reqFlags &&& extfsReqfExtent = 0 then
    let num := (count % 2^64).toNat
    (read ((blkDataPtr inode * inf.blkszBytes + off) % 2^64) num).map fun r =>
      some (r.1,splice buf 0 num r.2)
  else
    (extfsParseExtentTree inf fuel (fun i => inode (40 + i)) []).andThen fun blks =>
      (readBlks inf blks buf 0 0 count off).map some

def extfsReadDirDirents (fuel : Nat) (inode buf : Store) : Asks (Option (Int × Store)) :=
  let size := extfsGetInoSzinBytes inode
  if typesNPerm inode &&& extfsDirType = 0 then .ret (some (-enotdir,buf))
  else if inf.reqFlags &&& extfsReqfExtent = 0 then
    (read (blkDataPtr inode * inf.blkszBytes) size).map fun r =>
      some (toLong (.ofNat r.1),splice buf 0 size r.2)
  else if inodeFlags inode &&& extfsHashedIdxFlag ≠ 0 then .ret none
  else (extfsReadInodeContents inf fuel inode buf (toLong (.ofNat size)) 0).map
    (Option.map fun r => (toLong (.ofNat r.1),r.2))

def extfsFindFinodeFromDir (fuel : Nat) (dirInode : Int) (name : List UInt8) : Asks (Option Int) :=
  (extfsReadInodeStruct inf dirInode).bind fun dirStruct =>
    let dirSz := extfsGetInoSzinBytes dirStruct
    (extfsReadDirDirents inf fuel dirStruct fun _ => 0).andThen fun r =>
      .ret (if r.1 ≤ 0 then some r.1 else findDirent r.2 dirSz name dirSz 0)

def symlinkStr (fuel : Nat) (symlinkNode : Int) (fInfo : Store) : Asks (Option (List UInt8)) :=
  let szInBytesL := Bytes.read fInfo 4 4
  if szInBytesL < 60 then .ret (some (cString (fun i => fInfo (40 + i)) szInBytesL))
  else (extfsReadInodeStruct inf symlinkNode).bind fun inode =>
    (extfsReadInodeContents inf fuel inode (fun _ => 0) szInBytesL 0).map
      (Option.map fun r => cString r.2 szInBytesL)

def walkNames (fuel : Nat) (find : List UInt8 → Asks (Option Int)) :
    List (List UInt8) → Int → Int → Asks (Option (Except Int (Int × Int)))
  | [], currInode, last => .ret (some (.ok (currInode,last)))
  | name :: names, currInode, last =>
    if pathMax < name.length then .ret none
    else (extfsReadInodeStruct inf currInode).bind fun fInfo =>
      if typesNPerm fInfo &&& extfsSymlinkType ≠ 0 then
        ((symlinkStr inf fuel currInode fInfo).andThen find).andThen fun currInode =>
          if currInode = 0 then .ret (some (.error (-enoent))) else walkNames fuel find names currInode last
      else if typesNPerm fInfo &&& extfsDirType = 0 then .ret (some (.error (-enotdir)))
      else (extfsFindFinodeFromDir inf fuel currInode name).andThen fun next =>
        if next = 0 then .ret (some (.error (-enoent))) else walkNames fuel find names next currInode

def setPar (fuel : Nat) (currInode last : Int) (wantPar : Bool) (newName : List UInt8) :
    Asks (Option FoundInode) :=
  (extfsReadInodeStruct inf currInode).bind fun fInfo =>
    if typesNPerm fInfo &&& extfsSymlinkType ≠ 0 then
      .ret (if currInode ≤ 0 then some ⟨-enoent,none,[]⟩
      else some ⟨currInode,if wantPar then some last else none,newName⟩)
    else if wantPar then
      (extfsFindFinodeFromDir inf fuel currInode dotDot).map (Option.map fun par =>
        if par < 0 then ⟨-enoent,some par,[]⟩ else ⟨currInode,some par,newName⟩)
    else .ret (some ⟨currInode,none,newName⟩)

def extfsFindInodeFromNameAndSetName (diskId : Nat) (cwd : Option SiegfriedDir) :
    Nat → List UInt8 → Bool → Asks (Option FoundInode)
  | 0, _, _ => .ret none
  | fuel+1, path, wantPar =>
    match extfsLookup cwd diskId path with
    | .error e => .ret (some ⟨e,none,[]⟩)
    | .ok l =>
      let find := fun target =>
        (extfsFindInodeFromNameAndSetName diskId cwd fuel target false).map (Option.map (·.ret))
      (walkNames inf fuel find (pathNames l.path) l.start l.start).andThen fun
        | .error e => .ret (some ⟨e,none,[]⟩)
        | .ok (currInode,last) => setPar inf fuel currInode last wantPar
          (l.path.drop ((pathToks l.path).getLast?.elim 0 (·.off)))

def extfsFread (fuel : Nat) (ino : Int) (buf : Store) (off : Nat) (bytes : UInt64) :
    Asks (Option (Int × Store)) :=
  (extfsReadInodeStruct inf ino).bind fun check =>
    if typesNPerm check &&& extfsDirType ≠ 0 then .ret (some (-eisdir,buf))
    else (extfsReadInodeContents inf fuel check buf (toLong bytes) off).map
      (Option.map fun r => ((r.1 : Int),r.2))

end Asks

section Run

variable {inf : ExtfsDiskInfo} {answer : Request → Answer}

@[simp] theorem run_read (off num : Nat) : (Asks.read off num).run answer = answer (.read off num) := rfl

@[simp] theorem run_extfsReadInodeStruct (ino : Int) : (Asks.extfsReadInodeStruct inf ino).run answer =
    extfsReadInodeStruct (.answering inf answer) ino := by
  simp only [Asks.extfsReadInodeStruct,Asks.extfsReadInodesBlkDesc,Prog.run_bind,Prog.run_map,run_read]
  rfl

@[simp] theorem run_extfsParseExtentTree (fuel : Nat) (head : Store) (root : List ExtfsBlk) :
    (Asks.extfsParseExtentTree inf fuel head root).run answer =
      extfsParseExtentTree (.answering inf answer) fuel head root := by
  induction fuel generalizing head root with
  | zero => rfl
  | succ fuel ih =>
    simp only [Asks.extfsParseExtentTree,extfsParseExtentTree,↓Prog.run_ite,Prog.run_ret,Prog.run_forEach,
      Prog.run_bind,run_read,ih]
    rfl

@[simp] theorem run_readBlks (blks : List ExtfsBlk) (buf : Store) (pos total : Nat) (count : Int) (off : Nat) :
    (Asks.readBlks inf blks buf pos total count off).run answer =
      readBlks (.answering inf answer) blks buf pos total count off := by
  induction blks generalizing buf pos total count off with
  | nil => rfl
  | cons blk blks ih =>
    simp only [Asks.readBlks,readBlks,↓Prog.run_ite,Prog.run_ret,Prog.run_bind,run_read,ih]
    rfl

@[simp] theorem run_extfsReadInodeContents (fuel : Nat) (inode buf : Store) (count : Int) (off : Nat) :
    (Asks.extfsReadInodeContents inf fuel inode buf count off).run answer =
      extfsReadInodeContents (.answering inf answer) fuel inode buf count off := by
  simp only [Asks.extfsReadInodeContents,↓Prog.run_ite,Prog.run_map,Prog.run_andThen,run_read,
    run_extfsParseExtentTree,run_readBlks]
  rfl

@[simp] theorem run_extfsReadDirDirents (fuel : Nat) (inode buf : Store) :
    (Asks.extfsReadDirDirents inf fuel inode buf).run answer =
      extfsReadDirDirents (.answering inf answer) fuel inode buf := by
  simp only [Asks.extfsReadDirDirents,↓Prog.run_ite,Prog.run_ret,Prog.run_map,run_read,
    run_extfsReadInodeContents]
  rfl

@[simp] theorem run_extfsFindFinodeFromDir (fuel : Nat) (dirInode : Int) (name : List UInt8) :
    (Asks.extfsFindFinodeFromDir inf fuel dirInode name).run answer =
      extfsFindFinodeFromDir (.answering inf answer) fuel dirInode name := by
  simp only [Asks.extfsFindFinodeFromDir,Prog.run_ret,Prog.run_bind,Prog.run_andThen,run_extfsReadInodeStruct,
    run_extfsReadDirDirents]
  rfl

@[simp] theorem run_symlinkStr (fuel : Nat) (symlinkNode : Int) (fInfo : Store) :
    (Asks.symlinkStr inf fuel symlinkNode fInfo).run answer =
      symlinkStr (.answering inf answer) fuel symlinkNode fInfo := by
  simp only [Asks.symlinkStr,↓Prog.run_ite,Prog.run_ret,Prog.run_bind,Prog.run_map,run_extfsReadInodeStruct,
    run_extfsReadInodeContents]
  rfl

@[simp] theorem run_walkNames (fuel : Nat) (find : List UInt8 → Asks (Option Int))
    (names : List (List UInt8)) (currInode last : Int) :
    (Asks.walkNames inf fuel find names currInode last).run answer =
      walkNames (.answering inf answer) fuel (fun name => (find name).run answer) names currInode last := by
  induction names generalizing currInode last with
  | nil => rfl
  | cons name names ih =>
    simp only [Asks.walkNames,walkNames,↓Prog.run_ite,Prog.run_ret,Prog.run_bind,Prog.run_andThen,
      run_extfsReadInodeStruct,run_symlinkStr,run_extfsFindFinodeFromDir,ih]
    rfl

@[simp] theorem run_setPar (fuel : Nat) (currInode last : Int) (wantPar : Bool) (newName : List UInt8) :
    (Asks.setPar inf fuel currInode last wantPar newName).run answer =
      setPar (.answering inf answer) fuel currInode last wantPar newName := by
  simp only [Asks.setPar,↓Prog.run_ite,Prog.run_ret,Prog.run_bind,Prog.run_map,run_extfsReadInodeStruct,
    run_extfsFindFinodeFromDir]
  rfl

/-- The lookup of a path, with its requests. -/
theorem run_extfsFindInode (diskId : Nat) (cwd : Option SiegfriedDir) (fuel : Nat)
    (path : List UInt8) (wantPar : Bool) :
    (Asks.extfsFindInodeFromNameAndSetName inf diskId cwd fuel path wantPar).run answer =
      extfsFindInodeFromNameAndSetName (.answering inf answer) diskId cwd fuel path wantPar := by
  induction fuel generalizing path wantPar with
  | zero => rfl
  | succ fuel ih =>
    rw [Asks.extfsFindInodeFromNameAndSetName,extfsFindInodeFromNameAndSetName]
    cases extfsLookup cwd diskId path with
    | error e => rfl
    | ok l =>
      simp only [Prog.run_andThen,run_walkNames,Prog.run_map,ih]
      apply Option.bind_congr
      rintro (e | ⟨currInode,last⟩) _
      · rfl
      · exact run_setPar ..

/-- A read from an open file, with its requests. -/
theorem run_extfsFread (fuel : Nat) (f : SiegfriedFile) (buf : Store) (off : Nat) (bytes : UInt64)
    (this : f.disk = .answering inf answer) :
    (Asks.extfsFread inf fuel f.inode buf off bytes).run answer = extfsFread fuel f buf off bytes := by
  simp only [Asks.extfsFread,extfsFread,this,↓Prog.run_ite,Prog.run_ret,Prog.run_bind,Prog.run_map,
    run_extfsReadInodeStruct,run_extfsReadInodeContents]

end Run

end Siegfried
