import Siegfried.GetCwd
import Mathlib.Data.Fintype.EquivFin

/-! `extfs_find_name_from_parent` and `extfs_fopendir` with `..`, on a disk whose directories
are looked up in exactly (`extfs.c`). -/
namespace Siegfried

open Bytes

/-- The string that is left in `name`, which was cleared; `stack` is what the buffer on the
stack held. -/
def extfsFindNameFromParent (d : Disk) (fuel : Nat) (stack : Store) (dirInode target : Int) :
    Option (List UInt8) :=
  (DirWalk.start (.nameFromParent target) d fuel dirInode stack).bind fun start =>
    match start with
    | none => some []
    | some m => (walkDirents (.nameFromParent target) m fuel 0).map fun r =>
      r.found.elim [] fun a => (direntName m a).takeWhile (· != 0)

/-- `extfs_fopendir` of a task in `cwd`: what it returns and leaves in `dir`. -/
def extfsFopendirOn (d : Disk) (dmInode : Nat) (cwd : TaskDir) (fuel : Nat) (stack : Store)
    (path : List UInt8) (dir : TaskDir) : Option (Int × TaskDir) :=
  (extfsFindInodeFromNameAndSetName d dmInode (some ⟨cwd.inode,cwd.di⟩) fuel path true).bind fun r =>
    if r.ret ≤ 0 then some (r.ret,dir)
    else
      let dirStruct := extfsReadInodeStruct d r.ret
      let buf := DirWalk.opendir.buffer (extfsGetInoSzinBytes dirStruct) stack
      (extfsReadDirDirents d fuel dirStruct buf).bind fun q =>
        if q.1 ≤ 0 then some (q.1,dir)
        else (walkDirents .opendir q.2 fuel 0).map fun _ => (0,⟨r.ret,dmInode,r.par.getD 0⟩)

/-- The name under which a directory has an inode. -/
def nameOf (ds : List Dirent) (target : Int) : List UInt8 :=
  (ds.find? fun e => e.inode ≠ 0 ∧ (e.inode : Int) = target).elim [] (·.name)

/-- Looking up names and inodes in the directories of the tree finds what they have, with
`k` steps or more. -/
structure ExactDirs (d : Disk) (t : DirTree) (k : Nat) : Prop where
  types : ∀ i ds, t.node i = some (.dir ds) →
    typesNPerm (extfsReadInodeStruct d i) &&& 0xf000 = (Node.dir ds).types
  byName : ∀ i ds, t.node i = some (.dir ds) → ∀ fuel, k ≤ fuel → ∀ name,
    extfsFindFinodeFromDir d fuel i name = some (lookupResult ds name)
  byInode : ∀ i ds, t.node i = some (.dir ds) → ∀ fuel, k ≤ fuel → ∀ stack target,
    extfsFindNameFromParent d fuel stack i target = some (nameOf ds target)

/-- Used entries before unused ones, of which there are some, and names without a zero. -/
structure UsedFirst (ds : List Dirent) : Prop where
  ahead : visible ds = ds.filter (·.inode ≠ 0)
  stops : ∃ e ∈ ds, e.inode = 0
  noZero : ∀ e ∈ ds, 0 ∉ e.name

instance (ds : List Dirent) : Decidable (UsedFirst ds) :=
  decidable_of_iff (visible ds = ds.filter (·.inode ≠ 0) ∧ (∃ e ∈ ds, e.inode = 0) ∧ ∀ e ∈ ds, 0 ∉ e.name)
    ⟨fun ⟨ahead,stops,noZero⟩ => ⟨ahead,stops,noZero⟩,fun used => ⟨used.ahead,used.stops,used.noZero⟩⟩

/-- A directory of the tree with the parent that its `..` names. -/
def DirTree.Filled (t : DirTree) (dir : TaskDir) : Prop :=
  ∃ ds, t.node dir.inode = some (.dir ds) ∧ lookupResult ds dotDot = dir.parent

variable {d : Disk} {dev m m' stack : Store} {deep k n a fuel : Nat} {place : Int → Nat → Option Nat}
  {t : DirTree} {i p : Int} {ds ps : List Dirent} {name : List UInt8} {target : Int}

theorem takeWhile_length_le (l : List UInt8) (f : UInt8 → Bool) : (l.takeWhile f).length ≤ l.length :=
  (List.takeWhile_prefix f).length_le

/-- The length of a name is one byte. -/
theorem extfsFindNameFromParent_short {dirInode : Int}
    (found : extfsFindNameFromParent d fuel stack dirInode target = some name) : name.length < 256 := by
  obtain ⟨start,_,found⟩ := Option.bind_eq_some_iff.mp found
  cases start with
  | none =>
    cases found
    decide
  | some m =>
    obtain ⟨r,_,rfl⟩ := Option.map_eq_some_iff.mp found
    cases r.found with
    | none => exact Nat.succ_pos _
    | some a =>
      have byte : direntNamelenL m a < 256 := read_lt m (a + 6) 1
      have le := takeWhile_length_le (direntName m a) (· != 0)
      rw [direntName,length_bytes] at le
      exact Nat.lt_of_le_of_lt le byte

theorem extfsFindNameFromParent_noZero {dirInode : Int}
    (found : extfsFindNameFromParent d fuel stack dirInode target = some name) : 0 ∉ name := by
  obtain ⟨start,_,found⟩ := Option.bind_eq_some_iff.mp found
  cases start with
  | none =>
    cases found
    exact List.not_mem_nil
  | some m =>
    obtain ⟨r,_,rfl⟩ := Option.map_eq_some_iff.mp found
    cases r.found with
    | none => exact List.not_mem_nil
    | some a =>
      intro zero
      exact absurd (List.mem_takeWhile_imp zero) (by decide)

/-- A search that misses a name comes to the entry that the walk of `extfs_fopendir` ends
at. -/
theorem findDirent_stops (same : ∀ i < n, m i = m' i) (missed : findDirent m n name fuel a = some (-enoent)) :
    ∃ r, walkDirents .opendir m' fuel a = some r := by
  induction fuel generalizing a with
  | zero => cases missed
  | succ fuel ih =>
    rw [findDirent] at missed
    by_cases beyond : n < a + 8
    · rw [if_pos beyond] at missed
      cases missed
    · rw [if_neg beyond] at missed
      have inode : direntInode m' a = direntInode m a :=
        (read_congr fun i small => same _ (by omega)).symm
      have entSz : direntEntSz m' a = direntEntSz m a :=
        (read_congr fun i small => same _ (by omega)).symm
      by_cases unused : direntInode m a = 0 ∨ direntEntSz m a = 0
      · exact ⟨_,walkDirents_unused (by rwa [inode,entSz])⟩
      · rw [if_neg unused] at missed
        split at missed
        · cases missed
        · split at missed
          · have := Option.some.inj missed
            simp only [enoent] at this
            omega
          · obtain ⟨r,done⟩ := ih missed
            have used : ¬(direntInode m' a = 0 ∨ direntEntSz m' a = 0) := by rwa [inode,entSz]
            rw [walkDirents_next used rfl,entSz,done]
            exact ⟨_,rfl⟩

/-- Some name is not in a directory. -/
theorem exists_missing (ds : List Dirent) : ∃ name, lookupResult ds name = -enoent := by
  obtain ⟨name,fresh⟩ := Infinite.exists_notMem_finset (ds.map (·.name)).toFinset
  refine ⟨name,?_⟩
  have missing : lookup ds name = none := by
    rw [lookup,Option.map_eq_none_iff,List.find?_eq_none]
    intro e member this
    simp only [decide_eq_true_eq] at this
    apply fresh
    rw [List.mem_toFinset,← this.2]
    exact List.mem_map_of_mem member
  rw [lookupResult,missing]

/-- The second entry of a directory leads to a directory. -/
theorem DirTree.dotDot_dir (t : DirTree) (dir : t.node i = some (.dir ds)) :
    ∃ p : Nat, lookup ds dotDot = some p ∧ ∃ ps, t.node p = some (.dir ps) := by
  obtain ⟨own,up,rest,rfl,ownName,_,upName,parent⟩ := t.dots i ds dir
  obtain ⟨ps,parent⟩ := parent
  have used := t.positive up.inode (t.isSome_of parent)
  have ahead : own.name ≠ dotDot := by
    rw [ownName]
    decide
  refine ⟨up.inode,?_,ps,parent⟩
  rw [lookup,List.find?_cons_of_neg (by simp [ahead]),List.find?_cons_of_pos (by simp [upName]; omega)]
  rfl

section Exact

variable (exact : ExactDirs d t k)
include exact

/-- A directory is one to the code, and no link. -/
theorem ExactDirs.bits (dir : t.node i = some (.dir ds)) :
    typesNPerm (extfsReadInodeStruct d i) &&& extfsSymlinkType = 0 ∧
      typesNPerm (extfsReadInodeStruct d i) &&& extfsDirType ≠ 0 := by
  have types := exact.types i ds dir
  have upper (mask : Nat) (inside : 0xf000 &&& mask = mask) :
      typesNPerm (extfsReadInodeStruct d i) &&& mask = (Node.dir ds).types &&& mask := by
    rw [← types,Nat.and_assoc,inside]
  rw [upper extfsSymlinkType (by decide),upper extfsDirType (by decide)]
  exact (show 0x4000 &&& extfsSymlinkType = 0 ∧ 0x4000 &&& extfsDirType ≠ 0 by decide)

theorem ExactDirs.find (enough : k ≤ fuel) (dir : t.node i = some (.dir ds)) {j : Nat}
    (found : lookup ds name = some j) : extfsFindFinodeFromDir d fuel i name = some (j : Int) := by
  rw [exact.byName i ds dir fuel enough name,lookupResult,found]

/-- The entries of a directory are counted to their end. -/
theorem ExactDirs.counts (enough : k ≤ fuel) (dir : t.node i = some (.dir ds)) (stack : Store) :
    ∃ q, extfsReadDirDirents d fuel (extfsReadInodeStruct d i)
        (DirWalk.opendir.buffer (extfsGetInoSzinBytes (extfsReadInodeStruct d i)) stack) = some q ∧ 0 < q.1 ∧
      ∃ r, walkDirents .opendir q.2 (extfsGetInoSzinBytes (extfsReadInodeStruct d i)) 0 = some r := by
  obtain ⟨p,up,ps,parent⟩ := t.dotDot_dir dir
  obtain ⟨name,missing⟩ := exists_missing ds
  have positive := t.positive p (t.isSome_of parent)
  have found := exact.find enough dir up
  have missed := exact.byName i ds dir fuel enough name
  rw [extfsFindFinodeFromDir,Option.bind_eq_some_iff] at found missed
  obtain ⟨q,read,found⟩ := found
  obtain ⟨q',read',missed⟩ := missed
  cases read.symm.trans read'
  have entries : ¬q.1 ≤ 0 := by
    intro none
    rw [if_pos none] at found
    have := Option.some.inj found
    omega
  rw [if_neg entries,missing] at missed
  have zeros : ∀ b < extfsGetInoSzinBytes (extfsReadInodeStruct d i), (fun _ => 0 : Store) b =
      DirWalk.opendir.buffer (extfsGetInoSzinBytes (extfsReadInodeStruct d i)) stack b :=
    fun b small => (if_pos small).symm
  obtain ⟨r,done,count,same⟩ := extfsReadDirDirents_same zeros read
  exact ⟨r,done,by rw [← count]; omega,findDirent_stops same missed⟩

/-- Behind the loop a directory is returned, with its parent if there is a `par`. -/
theorem ExactDirs.setPar (enough : k ≤ fuel) (dir : t.node i = some (.dir ds)) {p : Nat}
    (up : lookup ds dotDot = some p) (last : Int) (wantPar : Bool) (newName : List UInt8) :
    setPar d fuel i last wantPar newName = some ⟨i,if wantPar then some p else none,newName⟩ := by
  rw [Siegfried.setPar,if_neg (not_not.mpr (exact.bits dir).1),exact.find enough dir up]
  cases wantPar with
  | false => rfl
  | true => exact congrArg some (if_neg (Int.not_lt.mpr (Int.natCast_nonneg p)))

/-- `..` is opened in a directory: the parent, with its own parent. -/
theorem ExactDirs.opens (dir : t.node i = some (.dir ds)) {p : Nat} (up : lookup ds dotDot = some p)
    (stack : Store) (dmInode di : Nat) (parent : Int) (par : TaskDir) : ∃ pp : Nat, t.Filled ⟨p,dmInode,pp⟩ ∧
      ∃ n, ∀ fuel, n ≤ fuel →
        extfsFopendirOn d dmInode ⟨i,di,parent⟩ fuel stack dotDot par = some (0,⟨p,dmInode,pp⟩) := by
  obtain ⟨p',up',ps,parDir⟩ := t.dotDot_dir dir
  cases up.symm.trans up'
  obtain ⟨pp,upper,_⟩ := t.dotDot_dir parDir
  have here := t.positive i (t.isSome_of dir)
  have above := t.positive p (t.isSome_of parDir)
  refine ⟨pp,⟨ps,parDir,by rw [lookupResult,upper]⟩,
    max k (extfsGetInoSzinBytes (extfsReadInodeStruct d p)) + 1,fun fuel enough => ?_⟩
  cases fuel with
  | zero => omega
  | succ fuel =>
    have look : extfsLookup (some ⟨i,di⟩) dmInode dotDot = .ok ⟨dmInode,i,dotDot⟩ :=
      extfsLookup_relative (by decide) here
    have names : pathNames dotDot = [dotDot] := by decide
    have walk (find : List UInt8 → Option Int) :
        walkNames d fuel find [dotDot] i i = some (.ok ((p : Int),i)) :=
      walkNames_dir (by decide) (exact.bits dir).1 (exact.bits dir).2 (exact.find (by omega) dir up) (by omega)
    obtain ⟨q,read,entries,r,counted⟩ := exact.counts (show k ≤ fuel + 1 by omega) parDir stack
    have counted := walkDirents_mono (show _ ≤ fuel + 1 by omega) counted
    rw [extfsFopendirOn,extfsFindInodeFromNameAndSetName,look]
    dsimp only
    rw [names,walk]
    dsimp only [Option.bind_some]
    rw [exact.setPar (by omega) parDir upper]
    dsimp only [Option.bind_some]
    rw [if_neg (by omega),read]
    dsimp only [Option.bind_some]
    rw [if_neg (by omega),counted]
    rfl

end Exact

theorem UsedFirst.find_visible (used : UsedFirst ds) (P : Dirent → Prop) [DecidablePred P] :
    (visible ds).find? (fun e => e.inode ≠ 0 ∧ P e) = ds.find? fun e => e.inode ≠ 0 ∧ P e := by
  rw [used.ahead,List.find?_filter]
  congr 1
  funext e
  simp

theorem UsedFirst.nameOf_noZero (used : UsedFirst ds) (target : Int) : 0 ∉ nameOf ds target := by
  rw [nameOf]
  cases found : ds.find? fun e => e.inode ≠ 0 ∧ (e.inode : Int) = target with
  | none => exact List.not_mem_nil
  | some e => exact used.noZero e (List.mem_of_find?_eq_some found)

theorem walkDirents_name (laid : Laid m a ds n) (enough : n ≤ a + fuel) (stops : ∃ e ∈ ds, e.inode = 0) :
    ∃ r, walkDirents (.nameFromParent target) m fuel a = some r ∧
      r.found.elim [] (direntName m) = nameOf (visible ds) target := by
  induction ds generalizing a fuel with
  | nil =>
    obtain ⟨e,member,_⟩ := stops
    cases member
  | cons e ds ih =>
    obtain ⟨inode,entSz,namelen,same,room,rest⟩ := laid
    have le := rest.le
    cases fuel with
    | zero => omega
    | succ fuel =>
      by_cases unused : e.inode = 0
      · have free : direntInode m a = 0 ∨ direntEntSz m a = 0 := .inl (inode.trans unused)
        refine ⟨_,walkDirents_unused free,?_⟩
        rw [visible,List.takeWhile_cons_of_neg (by simp [unused])]
        rfl
      · have used : ¬(direntInode m a = 0 ∨ direntEntSz m a = 0) := by
          rw [inode,entSz]
          omega
        rw [visible,List.takeWhile_cons_of_pos (by simpa using unused)]
        by_cases this : (e.inode : Int) = target
        · have wants : (DirWalk.nameFromParent target).wants m a = true := by
            simp [DirWalk.wants,inode,this]
          refine ⟨_,walkDirents_found used wants,?_⟩
          rw [nameOf,List.find?_cons_of_pos (by simp [unused,this])]
          exact same
        · have other : (DirWalk.nameFromParent target).wants m a = false := by
            simp [DirWalk.wants,inode,this]
          have stops : ∃ e ∈ ds, e.inode = 0 := by
            obtain ⟨f,member,free⟩ := stops
            rcases List.mem_cons.mp member with rfl | member
            · exact absurd free unused
            · exact ⟨f,member,free⟩
          obtain ⟨r,done,found⟩ := ih rest (show n ≤ a + e.entSz + fuel by omega) stops
          refine ⟨_,by rw [walkDirents_next used other,entSz,done]; rfl,?_⟩
          rw [nameOf,List.find?_cons_of_neg (by simp [this])]
          exact found

/-- Linear directories with their used entries first are looked up in exactly. -/
theorem TreeImage.exact (image : TreeImage d dev deep place t) (enough : deep < k)
    (linear : ∀ i ds, t.node i = some (.dir ds) → UsedFirst ds ∧
      ReadableDir d (extfsReadInodeStruct d i) (place i) ∧
      extfsGetInoSzinBytes (extfsReadInodeStruct d i) ≤ k) : ExactDirs d t k where
  types i ds dir := image.types i _ dir
  byName i ds dir fuel large name := by
    obtain ⟨used,readable,_⟩ := linear i ds dir
    obtain ⟨m,read,laid⟩ := image.read_dir (Nat.lt_of_lt_of_le enough large) dir readable
    have same : lookup (visible ds) name = lookup ds name :=
      congrArg (Option.map Dirent.inode) (used.find_visible (·.name = name))
    rw [read,lookupResult]
    cases found : lookup ds name with
    | none => exact findDirent_missing laid (Nat.le_add_left ..) (same.trans found) used.stops
    | some j => exact findDirent_found laid (Nat.le_add_left ..) (same.trans found)
  byInode i ds dir fuel large stack target := by
    obtain ⟨used,readable,size⟩ := linear i ds dir
    obtain ⟨m,read,some_,laid⟩ := image.read_entries (Nat.lt_of_lt_of_le enough large) dir readable stack
    obtain ⟨r,done,found⟩ := walkDirents_name laid (show _ ≤ 0 + fuel by omega) used.stops
    have same : nameOf (visible ds) target = nameOf ds target :=
      congrArg (fun found : Option Dirent => found.elim [] Dirent.name) (used.find_visible fun e => (e.inode : Int) = target)
    have starts : DirWalk.start (.nameFromParent target) d fuel i stack = some (some m) := by
      simp only [DirWalk.start,DirWalk.buffer,read,Option.map_some]
      rw [if_neg (by omega)]
    have whole : (nameOf ds target).takeWhile (· != 0) = nameOf ds target := by
      apply List.takeWhile_eq_self_iff.mpr
      intro c member
      exact bne_iff_ne.mpr (ne_of_mem_of_not_mem member (used.nameOf_noZero target))
    rw [extfsFindNameFromParent,starts]
    dsimp only [Option.bind_some]
    rw [done,Option.map_some,← whole,← same,← found]
    cases r.found <;> rfl

/-- The disk of a small tree. -/
theorem deviceOf_exact (fits : t.Fits) (used : ∀ i ds, t.node i = some (.dir ds) → UsedFirst ds) :
    ExactDirs (.of (deviceOf t)) t 1024 := by
  refine (deviceOf_image fits).exact (by decide) fun i ds dir => ⟨used i ds dir,deviceOf_readable fits dir,?_⟩
  exact Nat.le_of_eq (deviceOf_dir_size fits dir)

end Siegfried
