import Siegfried.Inode
import Mathlib.Data.List.Basic

/-! On which disk, and from which directory on, the system calls resolve a path
(`syscall.c`, `extfs.c`). -/
namespace Siegfried

/-- What a path is resolved from: a disk, an inode on it, and the rest of the path. -/
structure Lookup where
  disk : Nat
  start : Int
  path : List UInt8
  deriving DecidableEq

/-- The fields of `siegfried_dir` that paths are resolved with. -/
structure SiegfriedDir where
  inode : Int
  di : Nat
  deriving DecidableEq

/-- A `diskman_ent`: extfs sets `fopendir` and looks at `curr_task->cwd`, devfs does neither. -/
structure Mount where
  inode : Nat
  opensDirs : Bool

/-- `disks` and `krnl_init_inode`. -/
structure World where
  disks : List Mount
  krnlInitInode : Nat

/-- What extfs finds: the inode or error that a path leads to, never zero, and what
reading the entries of a directory returns, of which there are always two. -/
structure Files where
  find : Lookup → Int
  readDirents : Nat → Int → Int
  found : ∀ l, l.start ≠ 0 → find l ≠ 0
  entries : ∀ disk ino, readDirents disk ino ≠ 0

def isNum (c : UInt8) : Bool := 48 ≤ c && c ≤ 57

def findNumLen (str : List UInt8) : Nat := (str.takeWhile isNum).length

def atoi (str : List UInt8) : Nat := str.foldl (fun tot c => (tot * 10 + (c.toNat - 48)) % 2^64) 0

/-- 47 is the slash. -/
def parsePath (w : World) (path : List UInt8) : Nat × List UInt8 :=
  if path.take 2 = [47,47] then
    let path := path.drop 2
    (atoi (path.take (findNumLen path)),path.drop (findNumLen path))
  else (w.krnlInitInode,path)

def diskmanFindEnt (w : World) (inode : Nat) : Option Mount := w.disks.find? (·.inode = inode)

def extfsRootdirInode : Int := 2

/-- The start of `extfs_find_inode_from_name_and_set_name`, or its error. `cwd` is that
of `curr_task`, if there is one. -/
def extfsLookup (cwd : Option SiegfriedDir) (disk : Nat) : List UInt8 → Except Int Lookup
  | 47 :: path => .ok ⟨disk,extfsRootdirInode,path⟩
  | path =>
    match cwd with
    | none => .error (-9)
    | some dir => if dir.inode < 0 then .error dir.inode else .ok ⟨disk,dir.inode,path⟩

def openLookup (w : World) (cwd : Option SiegfriedDir) (disk : Nat) (path : List UInt8) : Option Lookup :=
  match diskmanFindEnt w disk with
  | none => none
  | some e => if e.opensDirs then (extfsLookup cwd disk path).toOption else none

/-- What `e->fopen` resolves in `syscall_open`. -/
def syscallOpen (w : World) (cwd : Option SiegfriedDir) (path : List UInt8) : Option Lookup :=
  openLookup w cwd (parsePath w path).1 (parsePath w path).2

def syscallStat (w : World) (cwd : Option SiegfriedDir) (path : List UInt8) : Option Lookup :=
  syscallOpen w cwd path

/-- What `d->fopen` resolves in `runner_spawn_task`. -/
def syscallSpawn (w : World) (cwd : Option SiegfriedDir) (path : List UInt8) : Option Lookup :=
  openLookup w cwd (parsePath w path).1 (parsePath w path).2

/-- `extfs_fopendir`; an error or an empty directory leaves `dir` as it was. -/
def extfsFopendir (files : Files) (dmInode : Nat) (look : Except Int Lookup) (dir : SiegfriedDir) :
    Int × SiegfriedDir :=
  let dirInode := match look with
    | .error e => e
    | .ok l => files.find l
  if dirInode ≤ 0 then (dirInode,dir)
  else
    let ret := files.readDirents dmInode dirInode
    if ret ≤ 0 then (ret,dir) else (0,⟨dirInode,dmInode⟩)

/-- The lookup of `syscall_open_dir`, what it returns, and the directory it filled. -/
def syscallOpenDir (files : Files) (w : World) (cwd : Option SiegfriedDir) (path : List UInt8)
    (dir : SiegfriedDir) : Option Lookup × Int × SiegfriedDir :=
  let disk := (parsePath w path).1
  match diskmanFindEnt w disk with
  | none => (none,-einval,dir)
  | some e =>
    if e.opensDirs then
      let look := extfsLookup cwd disk (parsePath w path).2
      (look.toOption,extfsFopendir files disk look dir)
    else (none,-enosys,dir)

/-- The lookup of `syscall_chdir`, and the directory the task is in afterwards; `d` is
what the block from `k_obj_alloc` held. -/
def syscallChdir (files : Files) (w : World) (cwd : SiegfriedDir) (path : List UInt8)
    (d : SiegfriedDir) : Option Lookup × SiegfriedDir :=
  let r := syscallOpenDir files w (some cwd) path d
  (r.1,if r.2.1 < 0 then cwd else r.2.2)

/-- The directories of tasks: what a spawn opens, and where calls of `sys_chdir` lead. -/
inductive CwdRun (files : Files) (w : World) : SiegfriedDir → Prop where
  | first (dname : List UInt8) (d : SiegfriedDir)
      (ok : 0 ≤ (syscallOpenDir files w none dname d).2.1) :
    CwdRun files w (syscallOpenDir files w none dname d).2.2
  | spawn {parent : SiegfriedDir} (before : CwdRun files w parent) (dname : List UInt8)
      (d : SiegfriedDir) (ok : 0 ≤ (syscallOpenDir files w (some parent) dname d).2.1) :
    CwdRun files w (syscallOpenDir files w (some parent) dname d).2.2
  | chdir {cwd : SiegfriedDir} (before : CwdRun files w cwd) (path : List UInt8) (d : SiegfriedDir) :
    CwdRun files w (syscallChdir files w cwd path d).2

inductive PathCall where
  | open | stat | openDir | chdir | spawn

/-- From where each system call resolves a path. -/
def PathCall.lookup (files : Files) (w : World) (cwd : SiegfriedDir) (path : List UInt8) :
    PathCall → Option Lookup
  | .open => syscallOpen w (some cwd) path
  | .stat => syscallStat w (some cwd) path
  | .openDir => (syscallOpenDir files w (some cwd) path cwd).1
  | .chdir => (syscallChdir files w cwd path cwd).1
  | .spawn => syscallSpawn w (some cwd) path

/-- A directory of a mounted disk that has directories. -/
def SiegfriedDir.Live (w : World) (dir : SiegfriedDir) : Prop :=
  0 < dir.inode ∧ ∃ e, diskmanFindEnt w dir.di = some e ∧ e.opensDirs = true

variable {files : Files} {w : World} {cwd d : SiegfriedDir} {path : List UInt8}

theorem extfsLookup_error {cwd : Option SiegfriedDir} {disk : Nat} {i : Int}
    (failed : extfsLookup cwd disk path = .error i) : i < 0 := by
  unfold extfsLookup at failed
  split at failed
  · cases failed
  · split at failed
    · cases failed
      decide
    · split at failed
      · next negative =>
        cases failed
        exact negative
      · cases failed

theorem extfsLookup_start {cwd : Option SiegfriedDir} {disk : Nat} {l : Lookup}
    (before : ∀ dir, cwd = some dir → dir.Live w) (found : extfsLookup cwd disk path = .ok l) :
    l.start ≠ 0 := by
  unfold extfsLookup at found
  split at found
  · cases found
    exact (show extfsRootdirInode ≠ 0 by decide)
  · split at found
    · cases found
    · next dir =>
      split at found
      · cases found
      · cases found
        exact (Int.ne_of_lt (before dir rfl).1).symm

theorem extfsLookup_relative {disk : Nat} (relative : path.head? ≠ some 47) (start : 0 < cwd.inode) :
    extfsLookup (some cwd) disk path = .ok ⟨disk,cwd.inode,path⟩ := by
  unfold extfsLookup
  split
  · exact absurd rfl relative
  · exact if_neg (Int.not_lt.mpr (Int.le_of_lt start))

theorem parsePath_relative (relative : path.head? ≠ some 47) :
    parsePath w path = (w.krnlInitInode,path) := by
  rw [parsePath,if_neg]
  intro slashes
  cases path with
  | nil => cases slashes
  | cons c path =>
    rw [List.take_succ_cons] at slashes
    exact relative (congrArg some (List.cons.inj slashes).1)

theorem extfsFopendir_live {disk : Nat} {e : Mount} (mounted : diskmanFindEnt w disk = some e)
    (dirs : e.opensDirs = true) {look : Except Int Lookup} (failed : ∀ i, look = .error i → i < 0)
    (start : ∀ l, look = .ok l → l.start ≠ 0)
    (opened : 0 ≤ (extfsFopendir files disk look d).1) :
    (extfsFopendir files disk look d).2.Live w := by
  have nonzero : (match look with | .error e => e | .ok l => files.find l) ≠ 0 := by
    cases look with
    | error i => exact Int.ne_of_lt (failed i rfl)
    | ok l => exact files.found l (start l rfl)
  simp only [extfsFopendir] at opened ⊢
  generalize (match look with | .error e => e | .ok l => files.find l) = dirInode at *
  by_cases error : dirInode ≤ 0
  · rw [if_pos error] at opened
    have opened : 0 ≤ dirInode := opened
    omega
  · rw [if_neg error] at opened ⊢
    have entries := files.entries disk dirInode
    by_cases unread : files.readDirents disk dirInode ≤ 0
    · rw [if_pos unread] at opened
      have opened : 0 ≤ files.readDirents disk dirInode := opened
      omega
    · rw [if_neg unread]
      exact ⟨Int.lt_of_not_ge error,e,mounted,dirs⟩

/-- A directory that was opened is a live one. -/
theorem syscallOpenDir_live {cwd : Option SiegfriedDir} (before : ∀ dir, cwd = some dir → dir.Live w)
    (opened : 0 ≤ (syscallOpenDir files w cwd path d).2.1) :
    (syscallOpenDir files w cwd path d).2.2.Live w := by
  simp only [syscallOpenDir] at opened ⊢
  cases mounted : diskmanFindEnt w (parsePath w path).1 with
  | none =>
    rw [mounted] at opened
    have opened : 0 ≤ -einval := opened
    exact absurd opened (by decide)
  | some e =>
    rw [mounted] at opened
    by_cases dirs : e.opensDirs = true
    · simp only [dirs,if_true] at opened ⊢
      exact extfsFopendir_live mounted dirs (fun i => extfsLookup_error)
        (fun l => extfsLookup_start before) opened
    · dsimp only at opened
      rw [if_neg dirs] at opened
      have opened : 0 ≤ -enosys := opened
      exact absurd opened (by decide)

theorem CwdRun.live (run : CwdRun files w cwd) : cwd.Live w := by
  induction run with
  | first dname d ok => exact syscallOpenDir_live nofun ok
  | @spawn parent before dname d ok ih =>
    exact syscallOpenDir_live (fun dir same => Option.some.inj same ▸ ih) ok
  | @chdir cwd before path d ih =>
    rw [syscallChdir]
    dsimp only
    split
    · exact ih
    · next opened =>
      exact syscallOpenDir_live (fun dir same => Option.some.inj same ▸ ih) (Int.not_lt.mp opened)

/-- All five take the default disk and the directory's inode. -/
theorem PathCall.lookup_relative (relative : path.head? ≠ some 47) (start : 0 < cwd.inode)
    (call : PathCall) : call.lookup files w cwd path = match diskmanFindEnt w w.krnlInitInode with
      | none => none
      | some e => if e.opensDirs then some ⟨w.krnlInitInode,cwd.inode,path⟩ else none := by
  cases call
  all_goals
    simp only [PathCall.lookup,syscallOpen,syscallStat,syscallSpawn,syscallChdir,syscallOpenDir,
      openLookup,parsePath_relative relative,extfsLookup_relative relative start]
  all_goals
    cases diskmanFindEnt w w.krnlInitInode with
    | none => rfl
    | some e => by_cases dirs : e.opensDirs = true <;> simp [dirs,Except.toOption]

section Claim

/-- A relative path is resolved on the disk and from the directory of the task exactly
when that disk is the default one. -/
theorem relative_path_iff (files : Files) (w : World) (cwd : SiegfriedDir)
    (run : CwdRun files w cwd) (path : List UInt8) (relative : path.head? ≠ some 47)
    (call : PathCall) :
    call.lookup files w cwd path = some ⟨cwd.di,cwd.inode,path⟩ ↔ cwd.di = w.krnlInitInode := by
  have live := run.live
  rw [call.lookup_relative relative live.1]
  constructor
  · intro same
    split at same
    · cases same
    · split at same
      · exact (congrArg Lookup.disk (Option.some.inj same)).symm
      · cases same
  · intro default
    obtain ⟨e,mounted,dirs⟩ := live.2
    rw [← default,mounted]
    exact if_pos dirs

/-- Every path leads to the inode 12. -/
def twelve : Files := ⟨fun _ => 12,fun _ _ => 1024,fun _ _ => by decide,fun _ _ => by decide⟩

/-- A task in a directory of the default disk. -/
theorem relative_path_iff_default :
    PathCall.spawn.lookup twelve ⟨[⟨0,true⟩],0⟩ ⟨12,0⟩ [102] = some ⟨0,12,[102]⟩ :=
  (relative_path_iff twelve ⟨[⟨0,true⟩],0⟩ ⟨12,0⟩ (.first [47] ⟨0,0⟩ (by decide)) [102] (by decide)
    .spawn).mpr rfl

/-- A task that changed to a directory of the disk 1, with `//1/`, opens a file there. -/
theorem relative_path_elsewhere : ¬∀ (files : Files) (w : World) (cwd : SiegfriedDir),
    CwdRun files w cwd → ∀ path : List UInt8, path.head? ≠ some 47 → ∀ call : PathCall,
      call.lookup files w cwd path = some ⟨cwd.di,cwd.inode,path⟩ := by
  intro all
  have first : CwdRun twelve ⟨[⟨0,true⟩,⟨1,true⟩],0⟩ ⟨12,0⟩ := .first [47] ⟨0,0⟩ (by decide)
  have run : CwdRun twelve ⟨[⟨0,true⟩,⟨1,true⟩],0⟩ ⟨12,1⟩ := .chdir first [47,47,49,47] ⟨0,0⟩
  exact absurd (all _ _ _ run [102] (by decide) .open) (by decide)

end Claim

end Siegfried
