import Mathlib.Data.List.Basic

/-! The list of disks, and which fields of its entries devfs, NVMe, the partition table
and extfs fill in (`diskman.c`, `devfs.c`, `nvme.c`, `diskman_gpt.c`, `extfs.c`). -/
namespace Siegfried

/-- The operation pointers of a `diskman_ent`. -/
inductive DiskOp where
  | readFunc | writeFunc | fopendir | fread | fwrite | fopen | fstat | fclose | freaddir | fclosedir
  | getRootInode | getNameFromParent
  deriving DecidableEq

/-- The functions that are put there. -/
inductive DiskFunc where
  | devfsReadStub | devfsWriteStub | devfsFread | devfsFopen
  | nvmeReadDisk | nvmeWriteDisk | diskmanGptRead | diskmanGptWrite
  | extfsFopen | extfsFread | extfsFstat | extfsFclose | extfsFopendir | extfsFreaddir | extfsFclosedir
  | extfsGetRootInode | extfsFindNameFromParent
  deriving DecidableEq

/-- `fs_types`. -/
inductive FsType where
  | null | extfs | fat | dev
  deriving DecidableEq

/-- `none` is a field that was not assigned since `k_obj_alloc`. A `uuid` is a pointer,
which may be null. -/
structure DiskmanEnt where
  inode : Nat
  ispart : Bool
  fsType : FsType
  op : DiskOp → Option DiskFunc
  uuid : Option (Option (List UInt8))
  uuidLen : Option Nat

/-- The `inode` of a `gpt_partlist_ent`, and where in the list its `disk` is. -/
structure GptPart where
  inode : Nat
  disk : Nat

/-- `disks` and `gparts`. -/
structure DiskList where
  disks : List DiskmanEnt
  gparts : List GptPart

/-- The entry of `diskman_new_ent`, where `inode` counts the entries. -/
def diskmanNewEnt (l : DiskList) : DiskmanEnt :=
  { inode := l.disks.length + 1, ispart := false, fsType := .null, op := fun _ => none, uuid := none,
    uuidLen := none }

def DiskList.add (l : DiskList) (e : DiskmanEnt) : DiskList := { l with disks := l.disks ++ [e] }

def devfsOps : DiskOp → Option DiskFunc
  | .readFunc => some .devfsReadStub
  | .writeFunc => some .devfsWriteStub
  | .fread => some .devfsFread
  | .fopen => some .devfsFopen
  | _ => none

def devfsSetup (l : DiskList) : DiskList := l.add { diskmanNewEnt l with fsType := .dev, op := devfsOps }

def nvmeOps : DiskOp → Option DiskFunc
  | .readFunc => some .nvmeReadDisk
  | .writeFunc => some .nvmeWriteDisk
  | _ => none

/-- What `nvme_setup_pci_dev` does for one namespace. -/
def nvmeSetupNs (l : DiskList) : DiskList :=
  l.add { diskmanNewEnt l with op := nvmeOps, uuid := some none, uuidLen := some 0 }

def gptOps : DiskOp → Option DiskFunc
  | .readFunc => some .diskmanGptRead
  | .writeFunc => some .diskmanGptWrite
  | _ => none

/-- What `diskman_gpt_enum` does for a used entry of the table on the `i`th disk. -/
def gptNewPart (i : Nat) (l : DiskList) (guid : List UInt8) : DiskList where
  disks := l.disks ++ [{ diskmanNewEnt l with
    ispart := true, op := gptOps, uuid := some (some guid), uuidLen := some 16 }]
  gparts := l.gparts ++ [⟨(diskmanNewEnt l).inode,i⟩]

def diskmanGptEnum (l : DiskList) (i : Nat) (guid : List UInt8) (parts : List (List UInt8)) : DiskList :=
  parts.foldl (gptNewPart i) { l with
    disks := l.disks.modify i fun e => { e with uuid := some (some guid), uuidLen := some 16 } }

def extfsOps (before : DiskOp → Option DiskFunc) : DiskOp → Option DiskFunc
  | .fopen => some .extfsFopen
  | .fread => some .extfsFread
  | .fstat => some .extfsFstat
  | .fclose => some .extfsFclose
  | .fopendir => some .extfsFopendir
  | .freaddir => some .extfsFreaddir
  | .getRootInode => some .extfsGetRootInode
  | .getNameFromParent => some .extfsFindNameFromParent
  | .fclosedir => some .extfsFclosedir
  | o => before o

/-- `extfs_enum` of a disk with the magic number. -/
def extfsEnum (l : DiskList) (i : Nat) : DiskList :=
  { l with disks := l.disks.modify i fun e => { e with fsType := .extfs, op := extfsOps e.op } }

/-- How far `drivers_setup` is: the disk that a loop of `diskman_setup` is at. -/
inductive SetupPhase where
  | nvme | gpt (i : Nat) | extfs (i : Nat)

/-- The list of disks on the way through `devfs_setup`, `nvme_setup` and `diskman_setup`,
whatever there is in the machine and on the disks. The stub of devfs delivers no
partition table. -/
inductive SetupRun : SetupPhase → DiskList → Prop where
  | devfs : SetupRun .nvme (devfsSetup ⟨[],[]⟩)
  | nvme {l : DiskList} (before : SetupRun .nvme l) : SetupRun .nvme (nvmeSetupNs l)
  | diskman {l : DiskList} (before : SetupRun .nvme l) : SetupRun (.gpt 0) l
  | noTable {l : DiskList} {i : Nat} (before : SetupRun (.gpt i) l) (more : i < l.disks.length) :
    SetupRun (.gpt (i + 1)) l
  | table {l : DiskList} {i : Nat} {e : DiskmanEnt} (before : SetupRun (.gpt i) l)
    (this : l.disks[i]? = some e) (disk : e.ispart = false) (delivers : e.op .readFunc ≠ some .devfsReadStub)
    (guid : List UInt8) (parts : List (List UInt8)) : SetupRun (.gpt (i + 1)) (diskmanGptEnum l i guid parts)
  | detect {l : DiskList} {i : Nat} (before : SetupRun (.gpt i) l) (ends : l.disks.length ≤ i) :
    SetupRun (.extfs 0) l
  | noFs {l : DiskList} {i : Nat} (before : SetupRun (.extfs i) l) (more : i < l.disks.length) :
    SetupRun (.extfs (i + 1)) l
  | fs {l : DiskList} {i : Nat} {e : DiskmanEnt} (before : SetupRun (.extfs i) l)
    (this : l.disks[i]? = some e) (noFs : e.fsType = .null) : SetupRun (.extfs (i + 1)) (extfsEnum l i)

/-- Which pointers an entry has, by its file system. -/
def FsType.ops (ispart : Bool) : FsType → DiskOp → Option DiskFunc
  | .dev => devfsOps
  | .extfs => extfsOps (if ispart then gptOps else nvmeOps)
  | _ => if ispart then gptOps else nvmeOps

/-- Whether it has a pointer. -/
def FsType.hasOp : FsType → DiskOp → Bool
  | _, .readFunc | _, .writeFunc => true
  | _, .fwrite => false
  | .extfs, _ => true
  | .dev, .fread | .dev, .fopen => true
  | _, _ => false

/-- What is assigned in an entry. -/
structure DiskmanEnt.Registered (e : DiskmanEnt) : Prop where
  ops : e.op = e.fsType.ops e.ispart
  fsType : e.fsType ≠ .fat
  uuid : e.uuid.isSome ↔ e.fsType ≠ .dev
  uuidLen : e.uuidLen.isSome ↔ e.fsType ≠ .dev

/-- Devfs comes first, all entries are registered, and partitions have a disk under them. -/
structure DiskList.Ok (l : DiskList) : Prop where
  registered : ∀ e ∈ l.disks, e.Registered
  first : ∃ e rest, l.disks = e :: rest ∧ e.fsType = .dev
  under : ∀ e ∈ l.disks, e.ispart = true → ∃ p ∈ l.gparts, p.inode = e.inode
  disks : ∀ p ∈ l.gparts, ∃ d, l.disks[p.disk]? = some d ∧ d.ispart = false

variable {l : DiskList} {e : DiskmanEnt} {i : Nat} {f : DiskmanEnt → DiskmanEnt} {phase : SetupPhase}

/-- The stub is read from in devfs alone. -/
theorem DiskmanEnt.Registered.notDev (registered : e.Registered)
    (delivers : e.op .readFunc ≠ some .devfsReadStub) : e.fsType ≠ .dev := by
  intro dev
  rw [registered.ops,dev] at delivers
  exact delivers rfl

theorem DiskmanEnt.Registered.isSome (registered : e.Registered) (o : DiskOp) :
    (e.op o).isSome = e.fsType.hasOp o := by
  rw [registered.ops]
  cases e.ispart <;> cases e.fsType <;> cases o <;> rfl

theorem FsType.hasOp_extfs {fs : FsType} {o : DiskOp}
    (other : o ∉ [.readFunc,.writeFunc,.fopen,.fread,.fwrite]) : fs.hasOp o = true ↔ fs = .extfs := by
  revert other
  cases o <;> cases fs <;> decide

theorem DiskmanEnt.Registered.notNull (registered : e.Registered) {o : DiskOp} (devfs : o = .fopen ∨ o = .fread) :
    e.fsType.hasOp o = true ↔ e.fsType ≠ .null := by
  have known := registered.fsType
  revert known
  rcases devfs with rfl | rfl <;> cases e.fsType <;> decide

/-- Only partitions are read through their disk. -/
theorem DiskmanEnt.Registered.ispart (registered : e.Registered) {o : DiskOp}
    (this : e.op o = some .diskmanGptRead ∨ e.op o = some .diskmanGptWrite) :
    e.ispart = true ∧ (o = .readFunc ∨ o = .writeFunc) := by
  rw [registered.ops] at this
  revert this
  cases e.ispart <;> cases e.fsType <;> cases o <;> decide

/-- A disk or partition as it is registered. -/
theorem DiskmanEnt.Registered.ofNull (fs : e.fsType = .null) (ops : e.op = if e.ispart then gptOps else nvmeOps)
    (uuid : e.uuid.isSome) (uuidLen : e.uuidLen.isSome) : e.Registered := by
  have other : e.fsType ≠ .dev := by
    rw [fs]
    decide
  refine ⟨?_,?_,by simp [uuid,other],by simp [uuidLen,other]⟩
  · rw [ops,fs]
    rfl
  · rw [fs]
    decide

theorem mem_modify {es : List DiskmanEnt} (member : e ∈ es.modify i f) :
    e ∈ es ∨ ∃ a, es[i]? = some a ∧ e = f a := by
  obtain ⟨j,at_⟩ := List.getElem?_of_mem member
  rw [List.getElem?_modify] at at_
  obtain ⟨a,this,same⟩ := Option.map_eq_some_iff.mp at_
  by_cases here : i = j
  · rw [if_pos here] at same
    exact .inr ⟨a,here ▸ this,same.symm⟩
  · rw [if_neg here] at same
    cases same
    exact .inl (List.mem_of_getElem? this)

/-- Another entry is filled in. -/
theorem DiskList.Ok.modify (ok : l.Ok) (this : l.disks[i]? = some e) (other : e.fsType ≠ .dev)
    (registered : (f e).Registered) (inode : ∀ a, (f a).inode = a.inode) (part : ∀ a, (f a).ispart = a.ispart) :
    DiskList.Ok { l with disks := l.disks.modify i f } where
  registered a member := by
    rcases mem_modify member with member | ⟨b,here,rfl⟩
    · exact ok.registered a member
    · cases this.symm.trans here
      exact registered
  first := by
    obtain ⟨d,rest,list,dev⟩ := ok.first
    rw [list] at this ⊢
    cases i with
    | zero =>
      cases this
      exact absurd dev other
    | succ i => exact ⟨d,rest.modify i f,rfl,dev⟩
  under a member isPart := by
    rcases mem_modify member with member | ⟨b,here,rfl⟩
    · exact ok.under a member isPart
    · rw [inode]
      exact ok.under b (List.mem_of_getElem? here) (part b ▸ isPart)
  disks p member := by
    obtain ⟨d,here,disk⟩ := ok.disks p member
    rw [List.getElem?_modify,here]
    refine ⟨_,rfl,?_⟩
    split
    · rw [part]
      exact disk
    · exact disk

/-- An entry is added, with what is known of a partition. -/
theorem DiskList.Ok.append (ok : l.Ok) (registered : e.Registered) {gparts : List GptPart}
    (parts : ∀ p ∈ gparts, ∃ d, l.disks[p.disk]? = some d ∧ d.ispart = false)
    (under : e.ispart = true → ∃ p ∈ gparts, p.inode = e.inode) :
    DiskList.Ok ⟨l.disks ++ [e],l.gparts ++ gparts⟩ where
  registered a member := by
    rcases List.mem_append.mp member with member | last
    · exact ok.registered a member
    · cases List.mem_singleton.mp last
      exact registered
  first := by
    obtain ⟨d,rest,list,dev⟩ := ok.first
    exact ⟨d,rest ++ [e],by rw [list]; rfl,dev⟩
  under a member isPart := by
    rcases List.mem_append.mp member with member | last
    · obtain ⟨p,listed,same⟩ := ok.under a member isPart
      exact ⟨p,List.mem_append_left _ listed,same⟩
    · cases List.mem_singleton.mp last
      obtain ⟨p,listed,same⟩ := under isPart
      exact ⟨p,List.mem_append_right _ listed,same⟩
  disks p member := by
    obtain ⟨d,here,disk⟩ : ∃ d, l.disks[p.disk]? = some d ∧ d.ispart = false := by
      rcases List.mem_append.mp member with member | member
      · exact ok.disks p member
      · exact parts p member
    have inside := (List.getElem?_eq_some_iff.mp here).1
    exact ⟨d,(List.getElem?_append_left inside).trans here,disk⟩

theorem devfsSetup_ok : (devfsSetup ⟨[],[]⟩).Ok where
  registered e member := by
    cases List.mem_singleton.mp member
    exact ⟨rfl,by decide,by decide,by decide⟩
  first := ⟨_,[],rfl,rfl⟩
  under e member part := by
    cases List.mem_singleton.mp member
    cases part
  disks := nofun

theorem DiskList.Ok.nvmeSetupNs (ok : l.Ok) : (nvmeSetupNs l).Ok := by
  have added : DiskList.Ok ⟨(Siegfried.nvmeSetupNs l).disks,l.gparts ++ []⟩ :=
    ok.append (.ofNull rfl rfl rfl rfl) nofun nofun
  rwa [List.append_nil] at added

/-- A partition is added, and its disk stays where it is. -/
theorem DiskList.Ok.gptNewPart (ok : l.Ok) (this : l.disks[i]? = some e) (disk : e.ispart = false)
    (guid : List UInt8) : (gptNewPart i l guid).Ok ∧ (gptNewPart i l guid).disks[i]? = some e := by
  constructor
  · apply ok.append (.ofNull rfl rfl rfl rfl)
    · intro p member
      cases List.mem_singleton.mp member
      exact ⟨e,this,disk⟩
    · intro _
      exact ⟨_,List.mem_singleton_self _,rfl⟩
  · have inside := (List.getElem?_eq_some_iff.mp this).1
    exact (List.getElem?_append_left inside).trans this

theorem DiskList.Ok.gptNewParts (ok : l.Ok) (this : l.disks[i]? = some e) (disk : e.ispart = false)
    (parts : List (List UInt8)) : (parts.foldl (Siegfried.gptNewPart i) l).Ok := by
  induction parts generalizing l with
  | nil => exact ok
  | cons guid parts ih =>
    obtain ⟨added,same⟩ := ok.gptNewPart this disk guid
    exact ih added same

/-- What `drivers_setup` has done at any time. -/
theorem SetupRun.ok (run : SetupRun phase l) : l.Ok := by
  induction run with
  | devfs => exact devfsSetup_ok
  | nvme _ ih => exact ih.nvmeSetupNs
  | diskman _ ih => exact ih
  | noTable _ _ ih => exact ih
  | @table l i e _ this disk delivers guid parts ih =>
    have registered := ih.registered e (List.mem_of_getElem? this)
    have other := registered.notDev delivers
    have filled : DiskList.Ok { l with
        disks := l.disks.modify i fun e => { e with uuid := some (some guid), uuidLen := some 16 } } :=
      ih.modify this other ⟨registered.ops,registered.fsType,by simp [other],by simp [other]⟩ (fun _ => rfl)
        fun _ => rfl
    apply filled.gptNewParts (e := { e with uuid := some (some guid), uuidLen := some 16 }) _ disk
    simp [this]
  | detect _ _ ih => exact ih
  | noFs _ _ ih => exact ih
  | @fs l i e _ this noFs ih =>
    have registered := ih.registered e (List.mem_of_getElem? this)
    have other : e.fsType ≠ .dev := by
      rw [noFs]
      decide
    refine ih.modify this other ⟨?_,by simp,by simp [registered.uuid,other],by simp [registered.uuidLen,other]⟩
      (fun _ => rfl) fun _ => rfl
    rw [registered.ops,noFs]
    rfl

end Siegfried
