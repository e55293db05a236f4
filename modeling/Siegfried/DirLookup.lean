import Siegfried.TreeDevice

/-! Looking a name up in a linear directory (`extfs.c`). -/
namespace Siegfried

open Bytes

/-- A directory of whole blocks, each with its entries one behind the other. `place` says
where its bytes are on the device. -/
structure LinearDir (d : Disk) (dev : Store) (deep : Nat) (inode : Store) (place : Nat → Option Nat)
    (blocks : List (List Dirent)) : Prop where
  dir : typesNPerm inode &&& extfsDirType ≠ 0
  onBlocks : OnBlocks d dev deep inode place
  readable : ReadableDir d inode place
  small : extfsGetInoSzinBytes inode < 2^63
  size : extfsGetInoSzinBytes inode = blocks.length * d.info.blkszBytes
  tiled : ∀ k, (within : k < blocks.length) → Laid (contents dev place) (k * d.info.blkszBytes) blocks[k]
    ((k + 1) * d.info.blkszBytes)

/-- What looking a name up should give. -/
def lookupResult (ds : List Dirent) (name : List UInt8) : Int :=
  match lookup ds name with
  | some j => j
  | none => -enoent

variable {d : Disk} {dev inode m : Store} {deep fuel a b c n size : Nat} {place : Nat → Option Nat}
  {blocks : List (List Dirent)} {ds ds' : List Dirent} {name : List UInt8}

theorem Laid.append (first : Laid m a ds b) (second : Laid m b ds' c) : Laid m a (ds ++ ds') c := by
  induction ds generalizing a with
  | nil =>
    cases (show a = b from first)
    exact second
  | cons e ds ih =>
    obtain ⟨inode,entSz,namelen,name,room,rest⟩ := first
    exact ⟨inode,entSz,namelen,name,room,ih rest⟩

/-- The entries of all blocks lie one behind the other. -/
theorem laid_blocks (tiled : ∀ k, (within : k < blocks.length) →
    Laid m ((a + k) * size) blocks[k] ((a + k + 1) * size)) :
    Laid m (a * size) blocks.flatten ((a + blocks.length) * size) := by
  induction blocks generalizing a with
  | nil => rfl
  | cons ds blocks ih =>
    have first : Laid m (a * size) ds ((a + 1) * size) := tiled 0 (Nat.succ_pos _)
    have rest : Laid m ((a + 1) * size) blocks.flatten ((a + 1 + blocks.length) * size) := by
      apply ih
      intro k within
      have next := tiled (k + 1) (Nat.succ_lt_succ within)
      rwa [← Nat.add_assoc,Nat.add_right_comm a k 1] at next
    rw [Nat.add_right_comm] at rest
    exact first.append rest

theorem LinearDir.laid (linear : LinearDir d dev deep inode place blocks) :
    Laid (contents dev place) 0 blocks.flatten (extfsGetInoSzinBytes inode) := by
  have laid : Laid (contents dev place) (0 * d.info.blkszBytes) blocks.flatten
      ((0 + blocks.length) * d.info.blkszBytes) :=
    laid_blocks fun k within => by simpa using linear.tiled k within
  rwa [Nat.zero_mul,Nat.zero_add,← linear.size] at laid

/-- With neither the name nor an unused entry the loop runs on behind the directory. -/
theorem findDirent_lost (laid : Laid m a ds n) (missing : lookup ds name = none)
    (used : ∀ e ∈ ds, e.inode ≠ 0) (enough : n ≤ a + fuel) : findDirent m n name fuel a = none := by
  induction ds generalizing a fuel with
  | nil =>
    cases (show a = n from laid)
    cases fuel with
    | zero => rfl
    | succ fuel => exact if_pos (by omega)
  | cons e ds ih =>
    obtain ⟨inode,entSz,namelen,same,room,rest⟩ := laid
    have le := rest.le
    have first := used e List.mem_cons_self
    have other : e.name ≠ name := by
      intro this
      rw [lookup,List.find?_cons_of_pos (by simp [first,this])] at missing
      cases missing
    rw [lookup,List.find?_cons_of_neg (by simp [other])] at missing
    cases fuel with
    | zero => omega
    | succ fuel =>
      rw [findDirent,if_neg (by omega),inode,entSz,namelen,if_neg (by omega),if_neg (by omega),same,if_neg other]
      exact ih rest missing (fun e member => used e (List.mem_cons_of_mem _ member)) (by omega)

/-- Without unused entries all are in front of the first one. -/
theorem visible_all (used : ∀ e ∈ ds, e.inode ≠ 0) : visible ds = ds :=
  List.takeWhile_eq_self_iff.mpr fun e member => by simpa using used e member

/-- When the loop finds what is there. -/
theorem findDirent_iff (laid : Laid m 0 ds n) : findDirent m n name n 0 = some (lookupResult ds name) ↔
    (lookup (visible ds) name).isSome ∨ lookup ds name = none ∧ ∃ e ∈ ds, e.inode = 0 := by
  rw [lookupResult]
  cases found : lookup (visible ds) name with
  | some j =>
    rw [findDirent_found laid (Nat.le_add_left ..) found,lookup_visible found]
    simp
  | none =>
    by_cases stops : ∃ e ∈ ds, e.inode = 0
    · rw [findDirent_missing laid (Nat.le_add_left ..) found stops]
      cases whole : lookup ds name with
      | none => simpa using stops
      | some j =>
        have negative : (-enoent : Int) ≠ j := by
          rw [enoent]
          omega
        simpa using negative
    · have used : ∀ e ∈ ds, e.inode ≠ 0 := fun e member zero => stops ⟨e,member,zero⟩
      rw [visible_all used] at found
      rw [findDirent_lost laid found used (Nat.le_add_left ..)]
      simp only [reduceCtorEq,Option.isSome_none,Bool.false_eq_true,false_or,false_iff]
      exact fun both => stops both.2

theorem LinearDir.read (linear : LinearDir d dev deep inode place blocks) (delivers : d.Delivers dev)
    (enough : deep < fuel) (buf : Store) :
    ∃ m, extfsReadDirDirents d fuel inode buf = some ((extfsGetInoSzinBytes inode : Int),m) ∧
      ∀ p < extfsGetInoSzinBytes inode, contents dev place p = m p :=
  extfsReadDirDirents_readable delivers linear.dir linear.onBlocks linear.readable enough linear.small

/-- The search in a directory with an entry. -/
theorem LinearDir.find (linear : LinearDir d dev deep inode place blocks) (delivers : d.Delivers dev)
    (enough : deep < fuel) {ino : Int} (this : inode = extfsReadInodeStruct d ino)
    (entry : extfsGetInoSzinBytes inode ≠ 0) (name : List UInt8) :
    ∃ m, Laid m 0 blocks.flatten (extfsGetInoSzinBytes inode) ∧ extfsFindFinodeFromDir d fuel ino name =
      findDirent m (extfsGetInoSzinBytes inode) name (extfsGetInoSzinBytes inode) 0 := by
  subst this
  obtain ⟨m,read,same⟩ := linear.read delivers enough fun _ => 0
  refine ⟨m,linear.laid.congr same,?_⟩
  rw [extfsFindFinodeFromDir,read,Option.bind_some,if_neg (by omega)]

/-- Of an empty file nothing is read, and 0 is returned. -/
theorem LinearDir.find_empty (linear : LinearDir d dev deep inode place blocks) (delivers : d.Delivers dev)
    (enough : deep < fuel) {ino : Int} (this : inode = extfsReadInodeStruct d ino)
    (empty : extfsGetInoSzinBytes inode = 0) (name : List UInt8) :
    blocks.flatten = [] ∧ extfsFindFinodeFromDir d fuel ino name = some 0 := by
  subst this
  obtain ⟨m,read,_⟩ := linear.read delivers enough fun _ => 0
  have laid := linear.laid
  rw [empty] at laid
  constructor
  · cases entries : blocks.flatten with
    | nil => rfl
    | cons e ds =>
      rw [entries] at laid
      have room := laid.2.2.2.2.1
      have le := laid.2.2.2.2.2.le
      omega
  · rw [extfsFindFinodeFromDir,read,Option.bind_some,if_pos (by omega),empty]
    rfl

/-- A directory of a small tree. -/
theorem deviceOf_linear {t : DirTree} (fits : t.Fits) {i : Int} (dir : t.node i = some (.dir ds)) :
    LinearDir (.of (deviceOf t)) (deviceOf t) 0 (extfsReadInodeStruct (.of (deviceOf t)) i) (blockAt i) [ds] := by
  have image := deviceOf_image fits
  obtain ⟨onBlocks,small,laid⟩ := image.dirs i ds dir
  have size := deviceOf_dir_size fits dir
  refine ⟨?_,onBlocks,deviceOf_readable fits dir,small,?_,fun k within => ?_⟩
  · rw [image.bits dir (by decide)]
    exact (show 0x4000 &&& extfsDirType ≠ 0 by decide)
  · exact size.trans (Nat.one_mul 1024).symm
  · cases Nat.lt_one_iff.mp within
    rw [size] at laid
    exact laid

/-- A root directory in which the entry in front of `b` was deleted. -/
def deletedEntry : DirTree := DirTree.ofList
  [(2,.dir [⟨2,12,[46]⟩,⟨2,12,[46,46]⟩,⟨0,12,[97]⟩,⟨3,988,[98]⟩]),(3,.file .regular)] (by decide) (by decide)

theorem deletedEntry_fits : deletedEntry.Fits := DirTree.ofList_fits _ _ _ (by decide +kernel)

theorem deletedEntry_linear : LinearDir (.of (deviceOf deletedEntry)) (deviceOf deletedEntry) 0
    (extfsReadInodeStruct (.of (deviceOf deletedEntry)) 2) (blockAt 2)
    [[⟨2,12,[46]⟩,⟨2,12,[46,46]⟩,⟨0,12,[97]⟩,⟨3,988,[98]⟩]] :=
  deviceOf_linear deletedEntry_fits (by decide +kernel)

section Claim

/-- A name is found, or known to be missing, exactly when its entry is in front of the
first unused one, or there is none but some unused entry. -/
theorem find_finode_iff (d : Disk) (dev : Store) (delivers : d.Delivers dev) (deep fuel : Nat)
    (enough : deep < fuel) (ino : Int) (place : Nat → Option Nat) (blocks : List (List Dirent))
    (linear : LinearDir d dev deep (extfsReadInodeStruct d ino) place blocks) (name : List UInt8) :
    extfsFindFinodeFromDir d fuel ino name = some (lookupResult blocks.flatten name) ↔
      (lookup (visible blocks.flatten) name).isSome ∨
        lookup blocks.flatten name = none ∧ ∃ e ∈ blocks.flatten, e.inode = 0 := by
  by_cases empty : extfsGetInoSzinBytes (extfsReadInodeStruct d ino) = 0
  · obtain ⟨entries,found⟩ := linear.find_empty delivers enough rfl empty name
    rw [entries,found]
    simp [lookupResult,lookup,visible,enoent]
  · obtain ⟨m,laid,found⟩ := linear.find delivers enough rfl empty name
    rw [found]
    exact findDirent_iff laid

/-- The parent directory. -/
theorem find_finode_iff_parent :
    extfsFindFinodeFromDir (.of (deviceOf deletedEntry)) 1 2 [46,46] = some 2 :=
  (find_finode_iff _ _ (Disk.of_delivers _) 0 1 (by decide) 2 (blockAt 2) _ deletedEntry_linear
    [46,46]).mpr (.inl (by decide))

/-- The file `b`, behind a deleted entry. -/
theorem find_finode_deleted : ¬∀ (d : Disk) (dev : Store), d.Delivers dev → ∀ (deep fuel : Nat),
    deep < fuel → ∀ (ino : Int) (place : Nat → Option Nat) (blocks : List (List Dirent)),
    LinearDir d dev deep (extfsReadInodeStruct d ino) place blocks → ∀ name : List UInt8,
      extfsFindFinodeFromDir d fuel ino name = some (lookupResult blocks.flatten name) := by
  intro all
  have linear := deletedEntry_linear
  have entry : extfsGetInoSzinBytes (extfsReadInodeStruct (.of (deviceOf deletedEntry)) 2) ≠ 0 := by
    rw [linear.size]
    decide
  obtain ⟨m,laid,found⟩ := linear.find (Disk.of_delivers _) (show 0 < 1 by decide) rfl entry [98]
  have missing := findDirent_missing laid (Nat.le_add_left ..) (show lookup _ [98] = none by decide) (by decide)
  have three := all _ _ (Disk.of_delivers _) 0 1 (by decide) 2 (blockAt 2) _ linear [98]
  rw [found,missing] at three
  exact absurd three (by decide)

end Claim

end Siegfried
