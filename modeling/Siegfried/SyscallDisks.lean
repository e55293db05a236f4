import Siegfried.DiskOps
import Siegfried.PathDisk

/-! Which fields of the disks the system calls use, and what they find there
(`syscall.c`, `runner.c`, `diskman.c`). -/
namespace Siegfried

/-- The functions of `syscall_table`. -/
inductive SyscallFn where
  | exit | sleep | drawStringWSz | diskmanGetNextEnt | diskmanRead | diskmanWrite | read | write | open
  | spawn | diskmanGetRoot | getTid | stat | close | openDir | mmap | getcwd | readDir | closeDir | chdir
  | reboot | gmsg

/-- The first entries of the 200; the others are null. -/
def syscallTable : List SyscallFn :=
  [.exit,.sleep,.drawStringWSz,.diskmanGetNextEnt,.diskmanRead,.diskmanWrite,.read,.write,.open,.spawn,
    .diskmanGetRoot,.getTid,.stat,.close,.openDir,.mmap,.getcwd,.readDir,.closeDir,.chdir,.reboot,.gmsg]

/-- What is done with a pointer, or with a field of a disk: a call through the table or
through an operation pointer, a test of one for null, a field that is read; a pointer is
followed that leads to no disk and no function; there is no disk or no system call. -/
inductive DiskEvent where
  | table (func : Nat) (f : SyscallFn)
  | call (e : DiskmanEnt) (o : DiskOp)
  | test (e : DiskmanEnt) (o : DiskOp)
  | uuidLen (e : DiskmanEnt)
  | uuid (e : DiskmanEnt)
  | wild
  | missing

/-- Only what was assigned is read, and only what was installed is called. -/
def DiskEvent.Valid : DiskEvent → Prop
  | .table func f => syscallTable[func]? = some f
  | .call e o => (e.op o).isSome
  | .test e o => (e.op o).isSome
  | .uuidLen e => e.uuidLen.isSome
  | .uuid e => e.uuid.isSome
  | .wild => False
  | .missing => True

/-- What a call did, and what it returned, if it decides that itself. -/
structure Handled where
  events : List DiskEvent
  ret : Option Int

/-- Every event is valid, and where there is no disk or no call, an error is returned. -/
structure Handled.Sound (h : Handled) : Prop where
  valid : ∀ ev ∈ h.events, ev.Valid
  refused : .missing ∈ h.events → ∃ r, h.ret = some r ∧ r < 0

/-- The disks, which of them is at an address, `krnl_init_inode`, and of `curr_task` the
`dm_inode` and the `di` of its `cwd`. -/
structure KernelDisks where
  list : DiskList
  entAt : UInt64 → Option Nat
  null : entAt 0 = none
  inside : ∀ a i, entAt a = some i → i < list.disks.length
  krnlInitInode : Nat
  dmInode : Nat
  cwdDi : Nat

/-- What memory holds at addresses that a call is given: a path, the `disk` of a
`siegfried_file`, the `di` of a `siegfried_dir`, the `diskman_ent` of a
`syscall_disk_ent`. -/
structure CallerMem where
  path : UInt64 → List UInt8
  fileDisk : UInt64 → UInt64
  dirDi : UInt64 → Nat
  nextEnt : UInt64 → UInt64

/-- How far `runner_spawn_task` gets with the program: to the checks behind one of its
first two reads, and what it returns there, or on to the segments and a task. -/
inductive ElfLoad where
  | first (ret : Int) | second (ret : Int) | loads (segments : Nat) (tid : Int)

/-- What the functions behind the pointers answer in a call: how often they read from their
disk, what `fopen` and `fopendir` return, the latter in `sys_get_dir_name` for one `..`
after the other up to the root, and what the program file holds. -/
structure DiskAnswers where
  reads : DiskOp → Nat
  fopen : Int
  fopendir : Int
  dotDots : List Int
  elf : ElfLoad

/-- Functions of extfs that go on to `read_func`. -/
def DiskFunc.readsDisk : DiskFunc → Bool
  | .extfsFopen | .extfsFread | .extfsFstat | .extfsFopendir | .extfsFreaddir | .extfsFindNameFromParent => true
  | _ => false

section Events

variable (s : KernelDisks) (ans : DiskAnswers)

/-- `diskman_find_ent`. -/
def KernelDisks.find (inode : Nat) : Option DiskmanEnt := s.list.disks.find? (·.inode = inode)

/-- The disk at an address. -/
def KernelDisks.ent (a : UInt64) : Option DiskmanEnt := (s.entAt a).bind (s.list.disks[·]?)

/-- `gpt_find_ent(inode)->disk`. -/
def KernelDisks.gptDisk (e : DiskmanEnt) : Option DiskmanEnt :=
  (s.list.gparts.find? (·.inode = e.inode)).bind fun p => s.list.disks[p.disk]?

/-- A call of `read_func` or `write_func`, and in a partition that of the disk's. -/
def blockEvents (e : DiskmanEnt) (o : DiskOp) : List DiskEvent :=
  .call e o :: match e.op o with
    | some .diskmanGptRead | some .diskmanGptWrite => [(s.gptDisk e).elim .wild (.call · o)]
    | _ => []

/-- A call of another operation. -/
def callEvents (e : DiskmanEnt) (o : DiskOp) : List DiskEvent :=
  .call e o :: match e.op o with
    | some f => if f.readsDisk then (List.replicate (ans.reads o) (blockEvents s e .readFunc)).flatten else []
    | none => []

def syscallBlock (o : DiskOp) (diskInode : Nat) : Handled :=
  match s.find diskInode with
  | none => ⟨[.missing],none⟩
  | some e => ⟨blockEvents s e o,none⟩

/-- The disk of a path. -/
def pathDisk (path : List UInt8) : Nat := (parsePath ⟨[],s.krnlInitInode⟩ path).1

/-- `syscall_open`. -/
def openEvents (path : List UInt8) : Handled :=
  match s.find (pathDisk s path) with
  | none => ⟨[.missing],some (-einval)⟩
  | some e => ⟨callEvents s ans e .fopen,some ans.fopen⟩

/-- `syscall_open_dir`, where `fopendir` returns `ret`. -/
def openDirEvents (path : List UInt8) (ret : Int) : Handled :=
  match s.find (pathDisk s path) with
  | none => ⟨[.missing],some (-einval)⟩
  | some e => ⟨.test e .fopendir :: callEvents s ans e .fopendir,some ret⟩

/-- `syscall_close_dir` of a directory on a disk. -/
def closeDirEvents (di : Nat) : List DiskEvent :=
  match s.find di with
  | none => [.wild]
  | some e => callEvents s ans e .fclosedir

/-- `syscall_read`, `syscall_write` and, but for a null `disk`, `syscall_close`. -/
def fileEvents (disk : UInt64) (o : DiskOp) : List DiskEvent :=
  match s.ent disk with
  | none => [.wild]
  | some e => callEvents s ans e o

/-- `sys_get_dir_name` with the entry `d`; `par` is a directory on the disk that `..` was
opened on. -/
def dirNameEvents (d : DiskmanEnt) : List Int → List DiskEvent
  | [] => callEvents s ans d .getRootInode
  | ret :: rest =>
    let opened := openDirEvents s ans [46,46] ret
    callEvents s ans d .getRootInode ++ opened.events ++
      if opened.ret.getD 0 < 0 then []
      else closeDirEvents s ans (pathDisk s [46,46]) ++ callEvents s ans d .getNameFromParent ++
        dirNameEvents d rest

/-- The loop of `diskman_find_from_uuid`. -/
def diskmanFindFromUuid (u : List UInt8) : List DiskmanEnt → List DiskEvent
  | [] => []
  | e :: rest =>
    .uuidLen e ::
      if e.uuidLen = some 0 then diskmanFindFromUuid u rest
      else .uuid e :: if e.uuid = some (some u) then [] else diskmanFindFromUuid u rest

/-- Up to the last slash, or the first character of a path without one. -/
def sysDirname (path : List UInt8) : List UInt8 :=
  path.take (path.length - (path.reverse.takeWhile (· ≠ 47)).length) ++
    if 47 ∈ path then [] else path.take 1

/-- `runner_spawn_task` from the disk `d`; a null file is not tested for, and has no disk. -/
def spawnEvents (d : DiskmanEnt) (path : List UInt8) : Handled :=
  if ans.fopen < 0 then ⟨callEvents s ans d .fopen,some ans.fopen⟩
  else if ans.fopen = 0 then ⟨callEvents s ans d .fopen ++ [.wild],none⟩
  else
    let head := callEvents s ans d .fopen ++ callEvents s ans d .fread
    match ans.elf with
    | .first ret => ⟨head,some ret⟩
    | .second ret => ⟨head ++ callEvents s ans d .fread,some ret⟩
    | .loads segments tid =>
      let opened := openDirEvents s ans (sysDirname path) ans.fopendir
      let head := head ++ callEvents s ans d .fread ++ opened.events
      if opened.ret.getD 0 < 0 then ⟨head,some (-enoent)⟩
      else ⟨head ++ (List.replicate segments (callEvents s ans d .fread)).flatten ++
        callEvents s ans d .fclose,some tid⟩

/-- A system call with its first argument. Those that use no disk have no events here, and
what they return is left out. -/
def SyscallFn.handle (mem : CallerMem) (i1 : UInt64) : SyscallFn → Handled
  | .diskmanGetNextEnt =>
    if i1 = 0 then ⟨[],none⟩
    else
      let next := if mem.nextEnt i1 = 0 then some 0 else (s.entAt (mem.nextEnt i1)).map (· + 1)
      match next with
      | none => ⟨[.wild],none⟩
      | some i => ⟨(s.list.disks[i]?).elim [] fun e => [.uuidLen e,.uuid e],none⟩
  | .diskmanRead => syscallBlock s .readFunc i1.toNat
  | .diskmanWrite => syscallBlock s .writeFunc i1.toNat
  | .read => if i1 = 0 then ⟨[.missing],some (-einval)⟩ else ⟨fileEvents s ans (mem.fileDisk i1) .fread,none⟩
  | .write => if i1 = 0 then ⟨[.missing],some (-einval)⟩ else ⟨fileEvents s ans (mem.fileDisk i1) .fwrite,none⟩
  | .open => openEvents s ans (mem.path i1)
  | .spawn =>
    let path := parsePath ⟨[],s.krnlInitInode⟩ (mem.path i1)
    match s.find path.1 with
    | none => ⟨[.missing],some (-einval)⟩
    | some d => spawnEvents s ans d path.2
  | .stat =>
    let opened := openEvents s ans (mem.path i1)
    match s.find (pathDisk s (mem.path i1)) with
    | none => ⟨opened.events,some (-einval)⟩
    | some e =>
      if 0 < ans.fopen then ⟨opened.events ++ callEvents s ans e .fstat ++ callEvents s ans e .fclose,none⟩
      else ⟨opened.events,some (-einval)⟩
  | .close =>
    if i1 = 0 ∨ mem.fileDisk i1 = 0 then ⟨[.missing],some (-einval)⟩
    else ⟨fileEvents s ans (mem.fileDisk i1) .fclose,none⟩
  | .openDir => openDirEvents s ans (mem.path i1) ans.fopendir
  | .getcwd =>
    match s.find s.dmInode with
    | none => ⟨[.wild],none⟩
    | some d => ⟨dirNameEvents s ans d ans.dotDots,some i1.toNat⟩
  | .readDir =>
    match s.find (mem.dirDi i1) with
    | none => ⟨[.missing],some (-einval)⟩
    | some e => ⟨.test e .freaddir :: callEvents s ans e .freaddir,none⟩
  | .closeDir => ⟨closeDirEvents s ans (mem.dirDi i1),none⟩
  | .chdir =>
    let opened := openDirEvents s ans (mem.path i1) ans.fopendir
    if opened.ret.getD 0 < 0 then opened else ⟨opened.events ++ closeDirEvents s ans s.cwdDi,some 0⟩
  | _ => ⟨[],none⟩

/-- `syscall_main`; behind the table there may be anything. -/
def syscallMain (mem : CallerMem) (func i1 : UInt64) : Handled :=
  match syscallTable[func.toNat]? with
  | some f => ⟨.table func.toNat f :: (f.handle s ans mem i1).events,(f.handle s ans mem i1).ret⟩
  | none => if func < 200 then ⟨[.missing],some (-enosys)⟩ else ⟨[.wild],none⟩

/-- Where the kernel uses a disk: `syscall_main` with a number and the first argument,
`diskman_find_from_uuid`, and `diskman_setup` or `extfs_enum` at one of the disks. -/
inductive KernelCall where
  | syscall (func i1 : UInt64)
  | findFromUuid (u : List UInt8)
  | setup (i : Nat)

def KernelCall.handle (mem : CallerMem) : KernelCall → Handled
  | .syscall func i1 => syscallMain s ans mem func i1
  | .findFromUuid u => ⟨diskmanFindFromUuid u s.list.disks,none⟩
  | .setup i => ⟨(s.list.disks[i]?).elim [] (blockEvents s · .readFunc),none⟩

/-- What the entry has to be for what is done in each system call. -/
def SyscallFn.Allowed (mem : CallerMem) (i1 : UInt64) : SyscallFn → Prop
  | .diskmanGetNextEnt => i1 = 0 ∨ ∃ i, s.entAt (mem.nextEnt i1) = some i ∧
    ∀ e, s.list.disks[i + 1]? = some e → e.fsType ≠ .dev
  | .diskmanRead | .diskmanWrite => ∃ e, s.find i1.toNat = some e
  | .read => i1 = 0 ∨ ∃ e, s.ent (mem.fileDisk i1) = some e ∧ e.fsType ≠ .null
  | .write => i1 = 0
  | .open => ∀ e, s.find (pathDisk s (mem.path i1)) = some e → e.fsType ≠ .null
  | .spawn =>
    let path := parsePath ⟨[],s.krnlInitInode⟩ (mem.path i1)
    ∀ d, s.find path.1 = some d → d.fsType ≠ .null ∧ (ans.fopen < 0 ∨ 0 < ans.fopen ∧ ∀ segments tid,
      ans.elf = .loads segments tid → ∀ e, s.find (pathDisk s (sysDirname path.2)) = some e →
        e.fsType = .extfs ∧ (ans.fopendir < 0 ∨ d.fsType = .extfs))
  | .stat => ∀ e, s.find (pathDisk s (mem.path i1)) = some e →
    e.fsType = .extfs ∨ e.fsType = .dev ∧ ans.fopen ≤ 0
  | .close => i1 = 0 ∨ mem.fileDisk i1 = 0 ∨ ∃ e, s.ent (mem.fileDisk i1) = some e ∧ e.fsType = .extfs
  | .openDir => ∀ e, s.find (pathDisk s (mem.path i1)) = some e → e.fsType = .extfs
  | .getcwd => (∃ d, s.find s.dmInode = some d ∧ d.fsType = .extfs) ∧
    (ans.dotDots = [] ∨ ∃ e, s.find (pathDisk s [46,46]) = some e ∧ e.fsType = .extfs)
  | .readDir => ∀ e, s.find (mem.dirDi i1) = some e → e.fsType = .extfs
  | .closeDir => ∃ e, s.find (mem.dirDi i1) = some e ∧ e.fsType = .extfs
  | .chdir => ∀ e, s.find (pathDisk s (mem.path i1)) = some e →
    e.fsType = .extfs ∧ (ans.fopendir < 0 ∨ ∃ e', s.find s.cwdDi = some e' ∧ e'.fsType = .extfs)
  | _ => True

/-- Devfs, where every search starts, has no `uuid_len`. -/
def KernelCall.Allowed (mem : CallerMem) : KernelCall → Prop
  | .syscall func i1 => func < 200 ∧ ∀ f, syscallTable[func.toNat]? = some f → f.Allowed s ans mem i1
  | .findFromUuid _ => False
  | .setup _ => True

end Events

variable {s : KernelDisks} {ans : DiskAnswers} {e d : DiskmanEnt} {o : DiskOp} {inode : Nat} {a : UInt64}
  {evs : List DiskEvent} {ret : Option Int} {path : List UInt8}

theorem KernelDisks.find_mem (found : s.find inode = some e) : e ∈ s.list.disks :=
  List.mem_of_find?_eq_some found

theorem KernelDisks.ent_mem (found : s.ent a = some e) : e ∈ s.list.disks := by
  obtain ⟨i,_,this⟩ := Option.bind_eq_some_iff.mp found
  exact List.mem_of_getElem? this

/-- Only valid events, with every disk found. -/
def Fine (evs : List DiskEvent) : Prop := (∀ ev ∈ evs, ev.Valid) ∧ .missing ∉ evs

@[simp] theorem fine_nil : Fine [] := ⟨nofun,nofun⟩

@[simp] theorem fine_append {evs' : List DiskEvent} : Fine (evs ++ evs') ↔ Fine evs ∧ Fine evs' := by
  rw [Fine,Fine,Fine,List.forall_mem_append,List.mem_append,not_or]
  exact and_and_and_comm

theorem fine_cons {ev : DiskEvent} : Fine (ev :: evs) ↔ (ev.Valid ∧ .missing ≠ ev) ∧ Fine evs := by
  rw [Fine,Fine,List.forall_mem_cons,List.mem_cons,not_or]
  exact and_and_and_comm

theorem fine_copies (fine : Fine evs) (n : Nat) : Fine (List.replicate n evs).flatten := by
  induction n with
  | zero => exact fine_nil
  | succ n ih =>
    rw [List.replicate_succ,List.flatten_cons,fine_append]
    exact ⟨fine,ih⟩

@[simp] theorem not_fine_wild : ¬Fine [.wild] := fun fine => fine.1 _ List.mem_cons_self

@[simp] theorem not_fine_missing : ¬Fine [.missing] := fun fine => fine.2 List.mem_cons_self

theorem Fine.sound (fine : Fine evs) : Handled.Sound ⟨evs,ret⟩ :=
  ⟨fine.1,fun missing => absurd missing fine.2⟩

/-- A disk that was not found has to be answered with an error. -/
theorem sound_missing : Handled.Sound ⟨[.missing],ret⟩ ↔ ∃ r, ret = some r ∧ r < 0 :=
  ⟨fun sound => sound.refused List.mem_cons_self,fun refused => ⟨by simp [DiskEvent.Valid],fun _ => refused⟩⟩

/-- Where nothing valid is an error, soundness is that of the events. -/
theorem sound_fine (decides : ∀ r, ret = some r → 0 ≤ r) : Handled.Sound ⟨evs,ret⟩ ↔ Fine evs := by
  refine ⟨fun sound => ⟨sound.valid,fun missing => ?_⟩,Fine.sound⟩
  obtain ⟨r,this,negative⟩ := sound.refused missing
  exact absurd negative (Int.not_lt.mpr (decides r this))

theorem sound_found (found : .missing ∉ evs) : Handled.Sound ⟨evs,ret⟩ ↔ Fine evs :=
  ⟨fun sound => ⟨sound.valid,found⟩,Fine.sound⟩

/-- A disk is not found at the end, and an error returned. -/
theorem sound_refused {r : Int} (found : .missing ∉ evs) (error : r < 0) :
    Handled.Sound ⟨evs ++ [.missing],some r⟩ ↔ Fine evs := by
  constructor
  · intro sound
    exact ⟨fun ev member => sound.valid ev (List.mem_append_left _ member),found⟩
  · intro fine
    refine ⟨fun ev member => ?_,fun _ => ⟨r,rfl,error⟩⟩
    rcases List.mem_append.mp member with member | last
    · exact fine.1 ev member
    · cases List.mem_singleton.mp last
      trivial

theorem blockEvents_found (e : DiskmanEnt) : .missing ∉ blockEvents s e o := by
  rw [blockEvents]
  cases s.gptDisk e with
  | none => split <;> simp
  | some d => split <;> simp

theorem callEvents_found (e : DiskmanEnt) : .missing ∉ callEvents s ans e o := by
  have never : ∀ n, .missing ∉ (List.replicate n (blockEvents s e .readFunc)).flatten := by
    intro n member
    obtain ⟨evs,copies,member⟩ := List.mem_flatten.mp member
    rw [List.eq_of_mem_replicate copies] at member
    exact blockEvents_found e member
  rw [callEvents]
  split
  · split
    · simp [never]
    · simp
  · simp

theorem closeDirEvents_found : .missing ∉ closeDirEvents s ans inode := by
  rw [closeDirEvents]
  split
  · simp
  · exact callEvents_found _

theorem fileEvents_found : .missing ∉ fileEvents s ans a o := by
  rw [fileEvents]
  split
  · simp
  · exact callEvents_found _

section Ok

variable (ok : s.list.Ok)
include ok

/-- The disk of a partition. -/
theorem KernelDisks.gptDisk_some (member : e ∈ s.list.disks) (part : e.ispart = true) :
    ∃ d, s.gptDisk e = some d ∧ d ∈ s.list.disks := by
  obtain ⟨p,listed,same⟩ := ok.under e member part
  cases found : s.list.gparts.find? (·.inode = e.inode) with
  | none =>
    have missing := List.find?_eq_none.mp found p listed
    simp [same] at missing
  | some q =>
    obtain ⟨d,this,_⟩ := ok.disks q (List.mem_of_find?_eq_some found)
    exact ⟨d,by rw [gptDisk,found]; exact this,List.mem_of_getElem? this⟩

/-- Blocks can be read from and written to every disk. -/
theorem blockEvents_fine (member : e ∈ s.list.disks) (block : o = .readFunc ∨ o = .writeFunc) :
    Fine (blockEvents s e o) := by
  have has : ∀ d ∈ s.list.disks, Fine [.call d o] := by
    intro d member
    rw [fine_cons,DiskEvent.Valid,(ok.registered d member).isSome]
    rcases block with rfl | rfl <;> cases d.fsType <;> simp [FsType.hasOp]
  have under (this : e.op o = some .diskmanGptRead ∨ e.op o = some .diskmanGptWrite) :
      Fine [(s.gptDisk e).elim .wild (.call · o)] := by
    obtain ⟨d,found,listed⟩ := s.gptDisk_some ok member ((ok.registered e member).ispart this).1
    rw [found]
    exact has d listed
  rw [blockEvents,← List.singleton_append,fine_append]
  refine ⟨has e member,?_⟩
  split
  · next this => exact under (.inl this)
  · next this => exact under (.inr this)
  · exact fine_nil

/-- A call through a pointer is fine if the file system has it. -/
theorem callEvents_fine (member : e ∈ s.list.disks) :
    Fine (callEvents s ans e o) ↔ e.fsType.hasOp o = true := by
  have rest : Fine (match e.op o with
      | some f => if f.readsDisk then (List.replicate (ans.reads o) (blockEvents s e .readFunc)).flatten else []
      | none => []) := by
    split
    · split
      · exact fine_copies (blockEvents_fine ok member (.inl rfl)) _
      · exact fine_nil
    · exact fine_nil
  rw [callEvents,fine_cons,DiskEvent.Valid,(ok.registered e member).isSome]
  simp [rest]

theorem callEvents_extfs (member : e ∈ s.list.disks) (other : o ∉ [.readFunc,.writeFunc,.fopen,.fread,.fwrite]) :
    Fine (callEvents s ans e o) ↔ e.fsType = .extfs :=
  (callEvents_fine ok member).trans (FsType.hasOp_extfs other)

theorem callEvents_notNull (member : e ∈ s.list.disks) (devfs : o = .fopen ∨ o = .fread) :
    Fine (callEvents s ans e o) ↔ e.fsType ≠ .null :=
  (callEvents_fine ok member).trans ((ok.registered e member).notNull devfs)

/-- With a test for null in front of it. -/
theorem testedEvents_extfs (member : e ∈ s.list.disks) (other : o ∉ [.readFunc,.writeFunc,.fopen,.fread,.fwrite]) :
    Fine (.test e o :: callEvents s ans e o) ↔ e.fsType = .extfs := by
  rw [fine_cons,callEvents_extfs ok member other,DiskEvent.Valid,(ok.registered e member).isSome,
    FsType.hasOp_extfs other]
  simp

theorem fileEvents_fine :
    Fine (fileEvents s ans a o) ↔ ∃ e, s.ent a = some e ∧ e.fsType.hasOp o = true := by
  rw [fileEvents]
  cases found : s.ent a with
  | none => simp
  | some e => simp [callEvents_fine ok (s.ent_mem found)]

theorem closeDirEvents_fine :
    Fine (closeDirEvents s ans inode) ↔ ∃ e, s.find inode = some e ∧ e.fsType = .extfs := by
  rw [closeDirEvents]
  cases found : s.find inode with
  | none => simp
  | some e =>
    dsimp only
    rw [callEvents_extfs ok (s.find_mem found) (by simp)]
    simp

theorem openDirEvents_fine {r : Int} : Fine (openDirEvents s ans path r).events ↔
    ∃ e, s.find (pathDisk s path) = some e ∧ e.fsType = .extfs := by
  rw [openDirEvents]
  cases found : s.find (pathDisk s path) with
  | none => simp
  | some e =>
    dsimp only
    rw [testedEvents_extfs ok (s.find_mem found) (by simp)]
    simp

/-- The way up is fine on a disk with extfs, with `..` opened on one, if at all. -/
theorem dirNameEvents_fine (member : d ∈ s.list.disks) (rets : List Int) : Fine (dirNameEvents s ans d rets) ↔
    d.fsType = .extfs ∧ (rets = [] ∨ ∃ e, s.find (pathDisk s [46,46]) = some e ∧ e.fsType = .extfs) := by
  induction rets with
  | nil =>
    rw [dirNameEvents,callEvents_extfs ok member (by simp)]
    simp
  | cons ret rest ih =>
    have name : d.fsType = .extfs → Fine (callEvents s ans d .getNameFromParent) :=
      (callEvents_extfs ok member (by simp)).mpr
    rw [dirNameEvents,fine_append,fine_append,callEvents_extfs ok member (by simp),openDirEvents_fine ok]
    constructor
    · rintro ⟨both,_⟩
      exact ⟨both.1,.inr both.2⟩
    · rintro ⟨extfs,none | opens⟩
      · cases none
      · refine ⟨⟨extfs,opens⟩,?_⟩
        split
        · exact fine_nil
        · simp only [fine_append,closeDirEvents_fine ok,ih]
          exact ⟨⟨opens,name extfs⟩,extfs,.inr opens⟩

theorem openEvents_sound : (openEvents s ans path).Sound ↔
    ∀ e, s.find (pathDisk s path) = some e → e.fsType ≠ .null := by
  rw [openEvents]
  cases found : s.find (pathDisk s path) with
  | none => simp [sound_missing,einval]
  | some e =>
    dsimp only
    rw [sound_found (callEvents_found e),callEvents_notNull ok (s.find_mem found) (.inl rfl)]
    simp

theorem openDirEvents_sound {r : Int} : (openDirEvents s ans path r).Sound ↔
    ∀ e, s.find (pathDisk s path) = some e → e.fsType = .extfs := by
  rw [openDirEvents]
  cases found : s.find (pathDisk s path) with
  | none => simp [sound_missing,einval]
  | some e =>
    have never : .missing ∉ DiskEvent.test e .fopendir :: callEvents s ans e .fopendir := by
      simp [callEvents_found]
    dsimp only
    rw [sound_found never,testedEvents_extfs ok (s.find_mem found) (by simp)]
    simp

/-- A program is spawned from a disk with files, and in a directory that can be opened and,
unless that fails, with a file that can be closed. -/
theorem spawnEvents_sound (member : d ∈ s.list.disks) : (spawnEvents s ans d path).Sound ↔
    d.fsType ≠ .null ∧ (ans.fopen < 0 ∨ 0 < ans.fopen ∧ ∀ segments tid, ans.elf = .loads segments tid →
      ∀ e, s.find (pathDisk s (sysDirname path)) = some e →
        e.fsType = .extfs ∧ (ans.fopendir < 0 ∨ d.fsType = .extfs)) := by
  have opens : Fine (callEvents s ans d .fopen) ↔ _ := callEvents_notNull ok member (.inl rfl)
  have reads : Fine (callEvents s ans d .fread) ↔ _ := callEvents_notNull ok member (.inr rfl)
  have closes : Fine (callEvents s ans d .fclose) ↔ _ := callEvents_extfs ok member (by simp)
  have never (o : DiskOp) : .missing ∉ callEvents s ans d o := callEvents_found d
  rw [spawnEvents]
  by_cases failed : ans.fopen < 0
  · rw [if_pos failed,sound_found (never _),opens]
    simp [failed]
  by_cases null : ans.fopen = 0
  · rw [if_neg failed,if_pos null,sound_found (by simp [never]),fine_append]
    simp [null]
  · have file : 0 < ans.fopen := by omega
    rw [if_neg failed,if_neg null]
    have head : Fine (callEvents s ans d .fopen ++ callEvents s ans d .fread) ↔ d.fsType ≠ .null := by
      rw [fine_append,opens,reads,and_self_iff]
    have second : Fine (callEvents s ans d .fopen ++ callEvents s ans d .fread ++ callEvents s ans d .fread) ↔
        d.fsType ≠ .null := by
      rw [fine_append,head,reads,and_self_iff]
    cases elf : ans.elf with
    | first ret =>
      dsimp only
      rw [sound_found (by simp [never]),head]
      simp [file]
    | second ret =>
      dsimp only
      rw [sound_found (by simp [never]),second]
      simp [file]
    | loads segments tid =>
      cases found : s.find (pathDisk s (sysDirname path)) with
      | none =>
        simp only [openDirEvents,found,Option.getD_some]
        rw [if_pos (by decide),sound_refused (by simp [never]) (by decide),second]
        simp [file]
      | some e =>
        have tested : Fine (.test e .fopendir :: callEvents s ans e .fopendir) ↔ _ :=
          testedEvents_extfs ok (s.find_mem found) (by simp)
        have absent : .missing ∉ DiskEvent.test e .fopendir :: callEvents s ans e .fopendir := by
          simp [callEvents_found]
        simp only [openDirEvents,found,Option.getD_some]
        by_cases error : ans.fopendir < 0
        · rw [if_pos error,sound_found (by simp [never,callEvents_found]),fine_append,second,tested]
          simp [failed,file,error]
        · have copies : d.fsType ≠ .null → Fine (List.replicate segments (callEvents s ans d .fread)).flatten :=
            fun files => fine_copies (reads.mpr files) segments
          rw [if_neg error,sound_found (by simp [never,callEvents_found]),fine_append,fine_append,fine_append,
            second,tested,closes]
          constructor
          · rintro ⟨⟨⟨files,extfs⟩,_⟩,own⟩
            refine ⟨files,.inr ⟨file,?_⟩⟩
            rintro _ _ _ _ ⟨⟩
            exact ⟨extfs,.inr own⟩
          · rintro ⟨files,opened | ⟨_,loads⟩⟩
            · exact absurd opened failed
            · obtain ⟨extfs,own⟩ := loads segments tid rfl e rfl
              exact ⟨⟨⟨files,extfs⟩,copies files⟩,own.resolve_left error⟩

theorem syscallBlock_sound (block : o = .readFunc ∨ o = .writeFunc) :
    (syscallBlock s o inode).Sound ↔ ∃ e, s.find inode = some e := by
  rw [syscallBlock]
  cases found : s.find inode with
  | none => simp [sound_missing]
  | some e =>
    dsimp only
    rw [sound_found (blockEvents_found e)]
    simp [blockEvents_fine ok (s.find_mem found) block]

/-- The head of the list is devfs, which has no `uuid_len`. -/
theorem diskmanGetNextEnt_sound (mem : CallerMem) (i1 : UInt64) :
    (SyscallFn.diskmanGetNextEnt.handle s ans mem i1).Sound ↔
      SyscallFn.diskmanGetNextEnt.Allowed s ans mem i1 := by
  have reads {e : DiskmanEnt} (member : e ∈ s.list.disks) :
      Handled.Sound ⟨[.uuidLen e,.uuid e],none⟩ ↔ e.fsType ≠ .dev := by
    have registered := ok.registered e member
    rw [sound_found (by simp)]
    simp [fine_cons,DiskEvent.Valid,registered.uuid,registered.uuidLen]
  rw [SyscallFn.handle,SyscallFn.Allowed]
  by_cases null : i1 = 0
  · simp [null,Fine.sound]
  rw [if_neg null]
  by_cases head : mem.nextEnt i1 = 0
  · obtain ⟨e,rest,list,dev⟩ := ok.first
    have unsound := (reads (e := e) (by simp [list])).not.mpr (not_not.mpr dev)
    simpa [null,head,s.null,list] using unsound
  · simp only [if_neg head]
    cases at_ : s.entAt (mem.nextEnt i1) with
    | none => simp [null,sound_found]
    | some i =>
      simp only [Option.map_some]
      cases next : s.list.disks[i + 1]? with
      | none => simp [next,Fine.sound]
      | some e =>
        have this := reads (List.mem_of_getElem? next)
        simpa [null,next] using this

/-- Each system call is sound exactly when its disks are what it takes them for. -/
theorem SyscallFn.handle_sound (mem : CallerMem) (i1 : UInt64) (f : SyscallFn) :
    (f.handle s ans mem i1).Sound ↔ f.Allowed s ans mem i1 := by
  have empty (ret : Option Int) : Handled.Sound ⟨[],ret⟩ := Fine.sound fine_nil
  have refused : Handled.Sound ⟨[.missing],some (-einval)⟩ := sound_missing.mpr ⟨_,rfl,by decide⟩
  cases f with
  | exit => exact iff_of_true (empty _) trivial
  | sleep => exact iff_of_true (empty _) trivial
  | drawStringWSz => exact iff_of_true (empty _) trivial
  | diskmanGetRoot => exact iff_of_true (empty _) trivial
  | getTid => exact iff_of_true (empty _) trivial
  | mmap => exact iff_of_true (empty _) trivial
  | reboot => exact iff_of_true (empty _) trivial
  | gmsg => exact iff_of_true (empty _) trivial
  | diskmanGetNextEnt => exact diskmanGetNextEnt_sound ok mem i1
  | diskmanRead => exact syscallBlock_sound ok (.inl rfl)
  | diskmanWrite => exact syscallBlock_sound ok (.inr rfl)
  | read =>
    rw [handle,Allowed]
    by_cases null : i1 = 0
    · simp [null,refused]
    · rw [if_neg null,sound_found fileEvents_found,fileEvents_fine ok,or_iff_right null]
      apply exists_congr
      exact fun e => and_congr_right fun found => (ok.registered e (s.ent_mem found)).notNull (.inr rfl)
  | write =>
    have never (e : DiskmanEnt) : e.fsType.hasOp .fwrite = false := by
      cases e.fsType <;> rfl
    rw [handle,Allowed]
    by_cases null : i1 = 0
    · simp [null,refused]
    · rw [if_neg null,sound_found fileEvents_found,fileEvents_fine ok]
      simp [never,null]
  | «open» => exact openEvents_sound ok
  | spawn =>
    rw [handle,Allowed]
    cases found : s.find (parsePath ⟨[],s.krnlInitInode⟩ (mem.path i1)).1 with
    | none => simp [sound_missing,einval]
    | some d =>
      dsimp only
      rw [spawnEvents_sound ok (s.find_mem found)]
      simp
  | stat =>
    rw [handle,Allowed]
    cases found : s.find (pathDisk s (mem.path i1)) with
    | none => simp [openEvents,found,sound_missing,einval]
    | some e =>
      have member := s.find_mem found
      have fopen : Fine (callEvents s ans e .fopen) ↔ e.fsType ≠ .null := callEvents_notNull ok member (.inl rfl)
      have known := (ok.registered e member).fsType
      simp only [openEvents,found]
      by_cases opened : 0 < ans.fopen
      · rw [if_pos opened,sound_found (by simp [callEvents_found]),fine_append,fine_append,fopen,
          callEvents_extfs ok member (by simp),callEvents_extfs ok member (by simp)]
        cases fs : e.fsType <;> simp [fs,opened]
      · rw [if_neg opened,sound_found (callEvents_found e),fopen]
        have none : ans.fopen ≤ 0 := Int.not_lt.mp opened
        cases fs : e.fsType with
        | fat => exact absurd fs known
        | _ => simp [fs,none]
  | close =>
    rw [handle,Allowed]
    by_cases null : i1 = 0 ∨ mem.fileDisk i1 = 0
    · rw [if_pos null]
      exact iff_of_true refused (or_assoc.mp (.inl null))
    · rw [if_neg null,sound_found fileEvents_found,fileEvents_fine ok,← or_assoc,or_iff_right null]
      simp [FsType.hasOp_extfs]
  | openDir => exact openDirEvents_sound ok
  | getcwd =>
    rw [handle,Allowed]
    cases found : s.find s.dmInode with
    | none => simp [sound_found]
    | some d =>
      dsimp only
      rw [sound_fine (by simp),dirNameEvents_fine ok (s.find_mem found)]
      simp
  | readDir =>
    rw [handle,Allowed]
    cases found : s.find (mem.dirDi i1) with
    | none => simp [sound_missing,einval]
    | some e =>
      dsimp only
      rw [sound_found (by simp [callEvents_found]),testedEvents_extfs ok (s.find_mem found) (by simp)]
      simp
  | closeDir => exact (sound_found closeDirEvents_found).trans (closeDirEvents_fine ok)
  | chdir =>
    rw [handle,Allowed]
    cases found : s.find (pathDisk s (mem.path i1)) with
    | none => simp [openDirEvents,found,sound_missing,einval]
    | some e =>
      have tested : Fine (.test e .fopendir :: callEvents s ans e .fopendir) ↔ e.fsType = .extfs :=
        testedEvents_extfs ok (s.find_mem found) (by simp)
      simp only [openDirEvents,found,Option.getD_some]
      by_cases error : ans.fopendir < 0
      · rw [if_pos error,sound_found (by simp [callEvents_found]),tested]
        simp [error]
      · rw [if_neg error,sound_fine (by simp),fine_append,tested,closeDirEvents_fine ok]
        simp [error]

theorem syscallMain_sound (mem : CallerMem) (func i1 : UInt64) : (syscallMain s ans mem func i1).Sound ↔
    func < 200 ∧ ∀ f, syscallTable[func.toNat]? = some f → f.Allowed s ans mem i1 := by
  rw [syscallMain]
  cases slot : syscallTable[func.toNat]? with
  | none =>
    by_cases inside : func < 200
    · simp [inside,sound_missing,enosys]
    · simp [inside,sound_found]
  | some f =>
    have short : func.toNat < 22 := (List.getElem?_eq_some_iff.mp slot).1
    have inside : func < 200 := UInt64.lt_iff_toNat_lt.mpr (Nat.lt_trans short (by decide))
    have called : Handled.Sound ⟨.table func.toNat f :: (f.handle s ans mem i1).events,(f.handle s ans mem i1).ret⟩ ↔
        (f.handle s ans mem i1).Sound := by
      constructor
      · intro sound
        exact ⟨fun ev member => sound.valid ev (.tail _ member),fun missing => sound.refused (.tail _ missing)⟩
      · intro sound
        refine ⟨List.forall_mem_cons.mpr ⟨slot,sound.valid⟩,fun missing => ?_⟩
        cases missing with
        | tail _ missing => exact sound.refused missing
    dsimp only
    rw [called,SyscallFn.handle_sound ok]
    simp [inside]

/-- No search by `uuid` gets past devfs. -/
theorem diskmanFindFromUuid_unsound (u : List UInt8) :
    ¬Handled.Sound ⟨diskmanFindFromUuid u s.list.disks,ret⟩ := by
  obtain ⟨e,rest,list,dev⟩ := ok.first
  intro sound
  have read : e.uuidLen.isSome := by
    rw [list] at sound
    exact sound.valid (.uuidLen e) List.mem_cons_self
  exact (ok.registered e (by simp [list])).uuidLen.mp read dev

theorem KernelCall.handle_sound (mem : CallerMem) (call : KernelCall) :
    (call.handle s ans mem).Sound ↔ call.Allowed s ans mem := by
  cases call with
  | syscall func i1 => exact syscallMain_sound ok mem func i1
  | findFromUuid u => exact iff_of_false (diskmanFindFromUuid_unsound ok u) id
  | setup i =>
    refine iff_of_true (Fine.sound ?_) trivial
    cases at_ : s.list.disks[i]? with
    | none => exact fine_nil
    | some e => exact blockEvents_fine ok (List.mem_of_getElem? at_) (.inl rfl)

end Ok

/-- On the way through setup, only installed functions are called, and only assigned fields
read, exactly in the calls that are allowed. -/
theorem kernel_call_sound_iff (s : KernelDisks) (phase : SetupPhase) (run : SetupRun phase s.list)
    (ans : DiskAnswers) (mem : CallerMem) (call : KernelCall) :
    (call.handle s ans mem).Sound ↔ call.Allowed s ans mem :=
  KernelCall.handle_sound run.ok mem call

/-- Devfs and one namespace. -/
def rawDisks : DiskList := nvmeSetupNs (devfsSetup ⟨[],[]⟩)

/-- The kernel with a list of disks that starts tasks from the second one. -/
def kernelOf (list : DiskList) : KernelDisks where
  list
  entAt _ := none
  null := rfl
  inside := nofun
  krnlInitInode := 2
  dmInode := 2
  cwdDi := 2

/-- Every file and directory is found, and every path is `//2/x`. -/
def foundAnswers : DiskAnswers := ⟨fun _ => 1,4096,0,[],.first 0⟩

def secondDiskMem : CallerMem := ⟨fun _ => [47,47,50,47,120],fun _ => 0,fun _ => 2,fun _ => 0⟩

/-- A directory is opened on the second disk, once it is known to have extfs. -/
theorem kernel_call_sound_iff_openDir :
    ((KernelCall.syscall 14 4096).handle (kernelOf (extfsEnum rawDisks 1)) foundAnswers secondDiskMem).Sound := by
  have run : SetupRun (.extfs 2) (extfsEnum rawDisks 1) :=
    .fs (.noFs (.detect (.noTable (.noTable (.diskman (.nvme .devfs)) (by decide)) (by decide)) (by decide))
      (by decide)) rfl rfl
  apply (kernel_call_sound_iff (kernelOf (extfsEnum rawDisks 1)) (.extfs 2) run foundAnswers secondDiskMem
    (.syscall 14 4096)).mpr
  refine ⟨by decide,?_⟩
  rintro _ ⟨⟩ e found
  cases found
  rfl

/-- A file is opened there before, through a `fopen` that was not assigned. -/
theorem kernel_open_unassigned : SetupRun .nvme rawDisks ∧
    ¬((KernelCall.syscall 8 4096).handle (kernelOf rawDisks) foundAnswers secondDiskMem).Sound := by
  refine ⟨.nvme .devfs,fun sound => ?_⟩
  have called := sound.valid (.call _ .fopen) (.tail _ (.head _))
  cases called

end Siegfried
