import Siegfried.DirEntry
import Siegfried.PathDisk
import Siegfried.StrTok

/-! `extfs_find_inode_from_name_and_set_name` (`extfs.c`). -/
namespace Siegfried

open Bytes

/-- The size of `name`. -/
def pathMax : Nat := 4096

def dotDot : List UInt8 := [46,46]

/-- The string in a buffer that is zero from `n` on. -/
def cString (m : Store) (n : Nat) : List UInt8 := (bytes m 0 n).takeWhile (· != 0)

/-- `symlink_str`: where the `blk_data_ptrs` are, if it is short. -/
def symlinkStr (d : Disk) (fuel : Nat) (symlinkNode : Int) (fInfo : Store) : Option (List UInt8) :=
  let szInBytesL := read fInfo 4 4
  if szInBytesL < 60 then some (cString (fun i => fInfo (40 + i)) szInBytesL)
  else (extfsReadInodeContents d fuel (extfsReadInodeStruct d symlinkNode) (fun _ => 0) szInBytesL 0).map
    fun r => cString r.2 szInBytesL

/-- `find` stands for the call of `extfs_find_inode_from_name_and_set_name`. -/
def extfsResolveSymlink (d : Disk) (fuel : Nat) (find : List UInt8 → Option Int) (symlinkNode : Int)
    (fInfo : Store) : Option Int :=
  (symlinkStr d fuel symlinkNode fInfo).bind find

/-- The loop over the names of a path: `curr_inode` and `last` behind it, or an error.
`none` if `name` has no room for a name. Only 256 bytes of it are cleared, but the names
of entries are shorter than that. -/
def walkNames (d : Disk) (fuel : Nat) (find : List UInt8 → Option Int) :
    List (List UInt8) → Int → Int → Option (Except Int (Int × Int))
  | [], currInode, last => some (.ok (currInode,last))
  | name :: names, currInode, last =>
    if pathMax < name.length then none
    else
      let fInfo := extfsReadInodeStruct d currInode
      if typesNPerm fInfo &&& extfsSymlinkType ≠ 0 then
        (extfsResolveSymlink d fuel find currInode fInfo).bind fun currInode =>
          if currInode = 0 then some (.error (-enoent)) else walkNames d fuel find names currInode last
      else if typesNPerm fInfo &&& extfsDirType = 0 then some (.error (-enotdir))
      else (extfsFindFinodeFromDir d fuel currInode name).bind fun next =>
        if next = 0 then some (.error (-enoent)) else walkNames d fuel find names next currInode

/-- What is returned, and what is written to `par` and `new_name`. -/
structure FoundInode where
  ret : Int
  par : Option Int
  newName : List UInt8
  deriving DecidableEq

/-- What is behind the loop. -/
def setPar (d : Disk) (fuel : Nat) (currInode last : Int) (wantPar : Bool) (newName : List UInt8) :
    Option FoundInode :=
  if typesNPerm (extfsReadInodeStruct d currInode) &&& extfsSymlinkType ≠ 0 then
    if currInode ≤ 0 then some ⟨-enoent,none,[]⟩
    else some ⟨currInode,if wantPar then some last else none,newName⟩
  else if wantPar then
    (extfsFindFinodeFromDir d fuel currInode dotDot).map fun par =>
      if par < 0 then ⟨-enoent,some par,[]⟩ else ⟨currInode,some par,newName⟩
  else some ⟨currInode,none,newName⟩

/-- `none` when links, trees or directories need more than the fuel. `cwd` is that of
`curr_task`, if there is one. -/
def extfsFindInodeFromNameAndSetName (d : Disk) (diskId : Nat) (cwd : Option SiegfriedDir) :
    Nat → List UInt8 → Bool → Option FoundInode
  | 0, _, _ => none
  | fuel+1, path, wantPar =>
    match extfsLookup cwd diskId path with
    | .error e => some ⟨e,none,[]⟩
    | .ok l =>
      let find := fun target =>
        (extfsFindInodeFromNameAndSetName d diskId cwd fuel target false).map (·.ret)
      (walkNames d fuel find (pathNames l.path) l.start l.start).bind fun
        | .error e => some ⟨e,none,[]⟩
        | .ok (currInode,last) => setPar d fuel currInode last wantPar
          (l.path.drop ((pathToks l.path).getLast?.elim 0 (·.off)))

/-- What the function returns. -/
def foundInode (d : Disk) (diskId : Nat) (cwd : Option SiegfriedDir) (fuel : Nat) (path : List UInt8)
    (wantPar : Bool) : Option Int :=
  (extfsFindInodeFromNameAndSetName d diskId cwd fuel path wantPar).map (·.ret)

/-- In a directory the name is looked up. -/
theorem walkNames_dir {d : Disk} {fuel : Nat} {find : List UInt8 → Option Int} {name : List UInt8}
    {names : List (List UInt8)} {currInode last m : Int} (short : name.length ≤ pathMax)
    (noLink : typesNPerm (extfsReadInodeStruct d currInode) &&& extfsSymlinkType = 0)
    (dir : typesNPerm (extfsReadInodeStruct d currInode) &&& extfsDirType ≠ 0)
    (found : extfsFindFinodeFromDir d fuel currInode name = some m) (here : m ≠ 0) :
    walkNames d fuel find (name :: names) currInode last = walkNames d fuel find names m currInode := by
  rw [walkNames,if_neg (Nat.not_lt.mpr short),if_neg (not_not.mpr noLink),if_neg dir,found,Option.bind_some,
    if_neg here]

end Siegfried
