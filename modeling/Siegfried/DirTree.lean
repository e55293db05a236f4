import Siegfried.PathWalk

/-! Directory trees, and what the loop over a path does on the disk that holds one. -/
namespace Siegfried

open Bytes

inductive FileType where
  | fifo | charDevice | blockDevice | regular | socket
  deriving DecidableEq

/-- What an inode is. -/
inductive Node where
  | dir (ds : List Dirent)
  | link (target : List UInt8)
  | file (type : FileType)
  deriving DecidableEq

/-- The upper four bits of `types_n_perm`. -/
def Node.types : Node → Nat
  | .dir _ => 0x4000
  | .link _ => 0xa000
  | .file .fifo => 0x1000
  | .file .charDevice => 0x2000
  | .file .blockDevice => 0x6000
  | .file .regular => 0x8000
  | .file .socket => 0xc000

/-- The inodes of a file system. Entries lead to inodes; those of a directory begin with
its own and that of its parent. -/
structure DirTree where
  node : Int → Option Node
  positive : ∀ i, (node i).isSome → 0 < i
  root : ∃ ds, node extfsRootdirInode = some (.dir ds)
  closed : ∀ i ds, node i = some (.dir ds) → ∀ e ∈ ds, e.inode ≠ 0 → (node e.inode).isSome
  dots : ∀ i ds, node i = some (.dir ds) → ∃ own up rest, ds = own :: up :: rest ∧ own.name = [46] ∧
    own.inode = i ∧ up.name = dotDot ∧ ∃ ds', node up.inode = some (.dir ds')

/-- The text of a symbolic link is in its inode, or in its blocks if it is long. -/
def LinkText (d : Disk) (dev : Store) (deep : Nat) (inode : Store) (place : Nat → Option Nat)
    (target : List UInt8) : Prop :=
  extfsGetInoSzinBytes inode = target.length ∧ target.length < 2^32 ∧ 0 ∉ target ∧
    if target.length < 60 then bytes inode 40 target.length = target
    else OnBlocks d dev deep inode place ∧ InOnePiece d inode place ∧
      bytes (contents dev place) 0 target.length = target

/-- The disk holds the tree: every inode says what it is, a directory has its entries, a
link its target. `place` says where the bytes of an inode's file are on the device. -/
structure TreeImage (d : Disk) (dev : Store) (deep : Nat) (place : Int → Nat → Option Nat)
    (t : DirTree) : Prop where
  delivers : d.Delivers dev
  types : ∀ i n, t.node i = some n → typesNPerm (extfsReadInodeStruct d i) &&& 0xf000 = n.types
  dirs : ∀ i ds, t.node i = some (.dir ds) → OnBlocks d dev deep (extfsReadInodeStruct d i) (place i) ∧
    extfsGetInoSzinBytes (extfsReadInodeStruct d i) < 2^63 ∧
    Laid (contents dev (place i)) 0 ds (extfsGetInoSzinBytes (extfsReadInodeStruct d i))
  links : ∀ i target, t.node i = some (.link target) →
    LinkText d dev deep (extfsReadInodeStruct d i) (place i) target

/-- The inode that the resolution of a path starts at. -/
def startInode (cwd : Option SiegfriedDir) (path : List UInt8) : Option Int :=
  if path.head? = some 47 then some extfsRootdirInode else cwd.map (·.inode)

section Leads

variable (d : Disk) (place : Int → Nat → Option Nat) (t : DirTree)

/-- The directory `i` can be read, and an entry in front of its first unused one leads to `j`. -/
def Enters (i : Int) (name : List UInt8) (j : Nat) : Prop :=
  ∃ ds, t.node i = some (.dir ds) ∧ ReadableDir d (extfsReadInodeStruct d i) (place i) ∧
    lookup (visible ds) name = some j

/-- The directory `i` can be read and has no such entry, but an unused one. -/
def Lacks (i : Int) (name : List UInt8) : Prop :=
  ∃ ds, t.node i = some (.dir ds) ∧ ReadableDir d (extfsReadInodeStruct d i) (place i) ∧
    lookup (visible ds) name = none ∧ ∃ e ∈ ds, e.inode = 0

/-- Where the loop gets from an inode, as far as the tree decides it. The name behind a
link is not looked up. -/
inductive Leads (cwd : Option SiegfriedDir) : Int → List (List UInt8) → Except Int Int → Prop where
  | done {i : Int} : Leads cwd i [] (.ok i)
  | enter {i : Int} {name : List UInt8} {names : List (List UInt8)} {j : Nat} {o : Except Int Int}
    (short : name.length ≤ pathMax) (enters : Enters d place t i name j)
    (rest : Leads cwd j names o) : Leads cwd i (name :: names) o
  | missing {i : Int} {name : List UInt8} (short : name.length ≤ pathMax)
    (lacks : Lacks d place t i name) : Leads cwd i [name] (.ok (-enoent))
  | fifo {i : Int} {name : List UInt8} {names : List (List UInt8)} (short : name.length ≤ pathMax)
    (file : t.node i = some (.file .fifo)) : Leads cwd i (name :: names) (.error (-enotdir))
  | follow {i s m : Int} {name target : List UInt8} {names : List (List UInt8)} {o : Except Int Int}
    (short : name.length ≤ pathMax) (link : t.node i = some (.link target))
    (single : SingleSlashes target) (start : startInode cwd target = some s)
    (first : (t.node s).isSome) (there : Leads cwd s (components target) (.ok m))
    (last : (t.node m).isSome) (rest : Leads cwd m names o) : Leads cwd i (name :: names) o

/-- With a `par` the inode has to be a link to the code, or a directory that can be read,
or none at all, as behind a missing name. -/
def ParFound (wantPar : Bool) (i : Int) : Prop :=
  wantPar = true → match t.node i with
    | some (.dir _) => ReadableDir d (extfsReadInodeStruct d i) (place i)
    | some (.file .fifo) => False
    | some _ => True
    | none => typesNPerm (extfsReadInodeStruct d i) &&& extfsDirType = 0 ∨
        typesNPerm (extfsReadInodeStruct d i) &&& extfsSymlinkType ≠ 0

/-- What is returned for what the loop ends with. -/
def outcome : Except Int Int → Int
  | .ok r => r
  | .error e => e

end Leads

variable {d : Disk} {dev inode : Store} {deep fuel n : Nat} {place : Int → Nat → Option Nat}
  {t : DirTree} {i s m : Int} {ds : List Dirent} {name path target : List UInt8} {j : Nat}
  {cwd : Option SiegfriedDir} {diskId : Nat} {o : Except Int Int}

theorem DirTree.isSome_of (t : DirTree) {n : Node} (node : t.node i = some n) : (t.node i).isSome := by
  rw [node]
  rfl

/-- An entry leads to an inode. -/
theorem DirTree.lookup_node (t : DirTree) (dir : t.node i = some (.dir ds))
    (found : lookup ds name = some j) : (t.node j).isSome := by
  obtain ⟨e,first,rfl⟩ := Option.map_eq_some_iff.mp found
  have used := List.find?_some first
  simp only [decide_eq_true_eq] at used
  exact t.closed i ds dir e (List.mem_of_find?_eq_some first) used.1

/-- What is found in front of an unused entry is what is found. -/
theorem lookup_visible (found : lookup (visible ds) name = some j) : lookup ds name = some j := by
  induction ds with
  | nil => cases found
  | cons e ds ih =>
    by_cases unused : e.inode = 0
    · rw [visible,List.takeWhile_cons_of_neg (by simp [unused])] at found
      cases found
    · rw [visible,List.takeWhile_cons_of_pos (by simpa using unused)] at found
      by_cases this : e.name = name
      · rw [lookup,List.find?_cons_of_pos (by simp [unused,this])] at found ⊢
        exact found
      · rw [lookup,List.find?_cons_of_neg (by simp [this])] at found ⊢
        exact ih found

theorem Enters.node (enters : Enters d place t i name j) : (t.node j).isSome := by
  obtain ⟨ds,dir,_,found⟩ := enters
  exact t.lookup_node dir (lookup_visible found)

/-- The parent comes before any unused entry. -/
theorem DirTree.enters_dotDot (t : DirTree) (dir : t.node i = some (.dir ds))
    (readable : ReadableDir d (extfsReadInodeStruct d i) (place i)) :
    ∃ j, Enters d place t i dotDot j := by
  obtain ⟨own,up,rest,rfl,ownName,ownInode,upName,parent⟩ := t.dots i ds dir
  obtain ⟨ds',parent⟩ := parent
  have first : own.inode ≠ 0 := by
    have := t.positive i (t.isSome_of dir)
    omega
  have second : up.inode ≠ 0 := by
    have := t.positive up.inode (t.isSome_of parent)
    omega
  refine ⟨up.inode,_,dir,readable,?_⟩
  rw [visible,List.takeWhile_cons_of_pos (by simpa using first),
    List.takeWhile_cons_of_pos (by simpa using second),lookup,List.find?_cons_of_neg,
    List.find?_cons_of_pos (by simp [second,upName])]
  · rfl
  · rw [ownName]
    simp [dotDot]

theorem cString_of (text : bytes inode 0 n = target) (noZero : 0 ∉ target) : cString inode n = target := by
  rw [cString,text]
  apply List.takeWhile_eq_self_iff.mpr
  intro c member
  exact bne_iff_ne.mpr (ne_of_mem_of_not_mem member noZero)

section OnImage

variable (image : TreeImage d dev deep place t)
include image

/-- A test of the upper bits is one of the type. -/
theorem TreeImage.bits {n : Node} (node : t.node i = some n) {mask : Nat} (upper : 0xf000 &&& mask = mask) :
    typesNPerm (extfsReadInodeStruct d i) &&& mask = n.types &&& mask := by
  rw [← image.types i n node,Nat.and_assoc,upper]

/-- The entries of a directory are read into any buffer. -/
theorem TreeImage.read_entries (enough : deep < fuel) (dir : t.node i = some (.dir ds))
    (readable : ReadableDir d (extfsReadInodeStruct d i) (place i)) (buf : Store) :
    ∃ m, extfsReadDirDirents d fuel (extfsReadInodeStruct d i) buf =
        some ((extfsGetInoSzinBytes (extfsReadInodeStruct d i) : Int),m) ∧
      0 < extfsGetInoSzinBytes (extfsReadInodeStruct d i) ∧
      Laid m 0 ds (extfsGetInoSzinBytes (extfsReadInodeStruct d i)) := by
  obtain ⟨onBlocks,small,laid⟩ := image.dirs i ds dir
  have bit : typesNPerm (extfsReadInodeStruct d i) &&& extfsDirType ≠ 0 := by
    rw [image.bits dir (by decide)]
    exact (show 0x4000 &&& extfsDirType ≠ 0 by decide)
  have some_ : 0 < extfsGetInoSzinBytes (extfsReadInodeStruct d i) := by
    obtain ⟨own,up,rest,rfl,_⟩ := t.dots i ds dir
    have room := laid.2.2.2.2.1
    have le := laid.2.2.2.2.2.le
    omega
  obtain ⟨m,read,same⟩ := @extfsReadDirDirents_readable fuel d dev (extfsReadInodeStruct d i) buf
    deep (place i) image.delivers bit onBlocks readable enough small
  exact ⟨m,read,some_,laid.congr same⟩

theorem TreeImage.read_dir (enough : deep < fuel) (dir : t.node i = some (.dir ds))
    (readable : ReadableDir d (extfsReadInodeStruct d i) (place i)) :
    ∃ m, extfsFindFinodeFromDir d fuel i name =
        findDirent m (extfsGetInoSzinBytes (extfsReadInodeStruct d i)) name
          (extfsGetInoSzinBytes (extfsReadInodeStruct d i)) 0 ∧
      Laid m 0 ds (extfsGetInoSzinBytes (extfsReadInodeStruct d i)) := by
  obtain ⟨m,read,some_,laid⟩ := image.read_entries enough dir readable fun _ => 0
  refine ⟨m,?_,laid⟩
  rw [extfsFindFinodeFromDir,read,Option.bind_some,if_neg (by omega)]

theorem TreeImage.enters (enough : deep < fuel) (enters : Enters d place t i name j) :
    extfsFindFinodeFromDir d fuel i name = some (j : Int) := by
  obtain ⟨ds,dir,readable,found⟩ := enters
  obtain ⟨m,read,laid⟩ := image.read_dir enough dir readable
  exact read.trans (findDirent_found laid (Nat.le_add_left ..) found)

theorem TreeImage.lacks (enough : deep < fuel) (lacks : Lacks d place t i name) :
    extfsFindFinodeFromDir d fuel i name = some (-enoent) := by
  obtain ⟨ds,dir,readable,missing,stops⟩ := lacks
  obtain ⟨m,read,laid⟩ := image.read_dir enough dir readable
  exact read.trans (findDirent_missing laid (Nat.le_add_left ..) missing stops)

theorem TreeImage.symlinkStr (enough : deep < fuel) (link : t.node i = some (.link target)) :
    symlinkStr d fuel i (extfsReadInodeStruct d i) = some target := by
  obtain ⟨size,small,noZero,text⟩ := image.links i target link
  have low : read (extfsReadInodeStruct d i) 4 4 = target.length := by
    have lt := read_lt (extfsReadInodeStruct d i) 4 4
    rw [extfsGetInoSzinBytes] at size
    omega
  rw [Siegfried.symlinkStr,low]
  by_cases short : target.length < 60
  · rw [if_pos short] at text ⊢
    have same : bytes (fun k => extfsReadInodeStruct d i (40 + k)) 0 target.length =
        bytes (extfsReadInodeStruct d i) 40 target.length :=
      bytes_congr fun k _ => by rw [Nat.zero_add]
    rw [cString_of (same.trans text) noZero]
  · rw [if_neg short] at text ⊢
    obtain ⟨onBlocks,onePiece,text⟩ := text
    have read : ∃ num buf, extfsReadInodeContents d fuel (extfsReadInodeStruct d i) (fun _ => 0)
        target.length 0 = some (num,buf) ∧ ∀ p < target.length, contents dev (place i) p = buf p :=
      onePiece.read onBlocks image.delivers enough (Nat.le_of_eq size.symm) (Nat.lt_trans small (by decide))
    obtain ⟨num,buf,read,same⟩ := read
    have copy : bytes buf 0 target.length = bytes (contents dev (place i)) 0 target.length :=
      bytes_congr fun k inside => by rw [Nat.zero_add,same k inside]
    rw [read,Option.map_some,cString_of (copy.trans text) noZero]

/-- Behind the loop an inode that was reached is returned, and so is `-ENOENT`. -/
theorem TreeImage.setPar_ret (enough : deep < fuel) (here : (t.node i).isSome ∨ i = -enoent)
    {wantPar : Bool} (par : ParFound d place t wantPar i) (last : Int) (newName : List UInt8) :
    (setPar d fuel i last wantPar newName).map (·.ret) = some i := by
  rw [setPar]
  by_cases bits : typesNPerm (extfsReadInodeStruct d i) &&& extfsSymlinkType = 0
  · rw [if_neg (not_not.mpr bits)]
    cases wantPar with
    | false => rfl
    | true =>
      rw [if_pos rfl]
      have par := par rfl
      cases node : t.node i with
      | none =>
        rw [node] at par
        have notDir := par.resolve_right (not_not.mpr bits)
        have error : extfsFindFinodeFromDir d fuel i dotDot = some (-enotdir) := by
          rw [extfsFindFinodeFromDir,extfsReadDirDirents,if_pos notDir]
          rfl
        rw [error]
        rcases here with here | rfl
        · rw [node] at here
          cases here
        · rfl
      | some n =>
        rw [node] at par
        rw [image.bits node (by decide)] at bits
        cases n with
        | dir ds =>
          obtain ⟨j,enters⟩ := t.enters_dotDot node par
          rw [image.enters enough enters,Option.map_some,Option.map_some,
            if_neg (Int.not_lt.mpr (Int.natCast_nonneg j))]
        | link target => exact absurd bits (show 0xa000 &&& extfsSymlinkType ≠ 0 by decide)
        | file type =>
          cases type with
          | fifo => exact par.elim
          | charDevice => exact absurd bits (by decide)
          | blockDevice => exact absurd bits (by decide)
          | regular => exact absurd bits (by decide)
          | socket => exact absurd bits (by decide)
  · rw [if_pos bits]
    by_cases negative : i ≤ 0
    · rw [if_pos negative]
      rcases here with here | rfl
      · have := t.positive i here
        omega
      · rfl
    · rw [if_neg negative]
      rfl

section Step

variable {find : List UInt8 → Option Int} {names : List (List UInt8)} {last : Int}
  (short : name.length ≤ pathMax)
include short

theorem TreeImage.walk_link (enough : deep < fuel) (link : t.node i = some (.link target))
    (found : find target = some m) (here : m ≠ 0) :
    walkNames d fuel find (name :: names) i last = walkNames d fuel find names m last := by
  have bits : typesNPerm (extfsReadInodeStruct d i) &&& extfsSymlinkType ≠ 0 := by
    rw [image.bits link (by decide)]
    exact (show 0xa000 &&& extfsSymlinkType ≠ 0 by decide)
  rw [walkNames,if_neg (Nat.not_lt.mpr short),if_pos bits,extfsResolveSymlink,
    image.symlinkStr enough link,Option.bind_some,found,Option.bind_some,if_neg here]

theorem TreeImage.walk_fifo (file : t.node i = some (.file .fifo)) :
    walkNames d fuel find (name :: names) i last = some (.error (-enotdir)) := by
  have noLink : typesNPerm (extfsReadInodeStruct d i) &&& extfsSymlinkType = 0 := by
    rw [image.bits file (by decide)]
    decide
  have noDir : typesNPerm (extfsReadInodeStruct d i) &&& extfsDirType = 0 := by
    rw [image.bits file (by decide)]
    decide
  rw [walkNames,if_neg (Nat.not_lt.mpr short),if_neg (not_not.mpr noLink),if_pos noDir]

/-- In a directory the name is looked up. -/
theorem TreeImage.walk_dir (dir : t.node i = some (.dir ds))
    (found : extfsFindFinodeFromDir d fuel i name = some m) (here : m ≠ 0) :
    walkNames d fuel find (name :: names) i last = walkNames d fuel find names m i := by
  have noLink : typesNPerm (extfsReadInodeStruct d i) &&& extfsSymlinkType = 0 := by
    rw [image.bits dir (by decide)]
    exact (show 0x4000 &&& extfsSymlinkType = 0 by decide)
  have bit : typesNPerm (extfsReadInodeStruct d i) &&& extfsDirType ≠ 0 := by
    rw [image.bits dir (by decide)]
    exact (show 0x4000 &&& extfsDirType ≠ 0 by decide)
  exact walkNames_dir short noLink bit found here

end Step

end OnImage

theorem extfsLookup_startInode (diskId : Nat) (start : startInode cwd path = some s) (first : 0 < s)
    (single : SingleSlashes path) : ∃ rest, extfsLookup cwd diskId path = .ok ⟨diskId,s,rest⟩ ∧
      pathNames rest = components path := by
  by_cases absolute : path.head? = some 47
  · obtain ⟨rest,rfl⟩ := List.head?_eq_some_iff.mp absolute
    rw [startInode,if_pos absolute] at start
    cases start
    exact ⟨rest,rfl,by rw [components_slash,pathNames_components single.tail single.first]⟩
  · rw [startInode,if_neg absolute] at start
    obtain ⟨dir,rfl,rfl⟩ := Option.map_eq_some_iff.mp start
    exact ⟨path,extfsLookup_relative absolute first,pathNames_components single absolute⟩

section Found

variable {rest : List UInt8} (look : extfsLookup cwd diskId path = .ok ⟨diskId,s,rest⟩)
  (wantPar : Bool) {last e : Int}
include look

theorem foundInode_ok (walk : walkNames d fuel (foundInode d diskId cwd fuel · false) (pathNames rest) s s =
      some (.ok (m,last))) :
    ∃ newName, foundInode d diskId cwd (fuel + 1) path wantPar =
      (setPar d fuel m last wantPar newName).map (·.ret) := by
  refine ⟨rest.drop ((pathToks rest).getLast?.elim 0 (·.off)),?_⟩
  unfold foundInode at walk
  rw [foundInode,extfsFindInodeFromNameAndSetName,look]
  dsimp only
  rw [walk]
  rfl

theorem foundInode_error (walk : walkNames d fuel (foundInode d diskId cwd fuel · false) (pathNames rest) s s =
      some (.error e)) : foundInode d diskId cwd (fuel + 1) path wantPar = some e := by
  unfold foundInode at walk
  rw [foundInode,extfsFindInodeFromNameAndSetName,look]
  dsimp only
  rw [walk]
  rfl

end Found

/-- With fuel enough one thing is returned. -/
theorem foundInode_unique {wantPar : Bool} {a b : Int}
    (left : ∃ n, ∀ fuel, n ≤ fuel → foundInode d diskId cwd fuel path wantPar = some a)
    (right : ∃ n, ∀ fuel, n ≤ fuel → foundInode d diskId cwd fuel path wantPar = some b) : a = b := by
  obtain ⟨n₁,left⟩ := left
  obtain ⟨n₂,right⟩ := right
  have first := left (max n₁ n₂) (Nat.le_max_left ..)
  have second := right (max n₁ n₂) (Nat.le_max_right ..)
  exact Option.some.inj (first.symm.trans second)

/-- The loop gets where the tree leads it, if there is fuel enough. -/
theorem TreeImage.walk_leads (image : TreeImage d dev deep place t) (diskId : Nat)
    {names : List (List UInt8)} (leads : Leads d place t cwd i names o) :
    ∃ n, ∀ fuel, n ≤ fuel → ∀ last, ∃ last',
      walkNames d fuel (foundInode d diskId cwd fuel · false) names i last =
        some (o.map fun r => (r,last')) := by
  induction leads with
  | done => exact ⟨0,fun fuel _ last => ⟨last,rfl⟩⟩
  | @enter i name names j o short enters rest ih =>
    obtain ⟨n,ih⟩ := ih
    refine ⟨max n (deep + 1),fun fuel enough last => ?_⟩
    have here := t.positive j enters.node
    have ⟨ds,dir,_⟩ := enters
    rw [image.walk_dir short dir (image.enters (by omega) enters) (by omega)]
    exact ih fuel (by omega) i
  | @missing i name short lacks =>
    refine ⟨deep + 1,fun fuel enough last => ⟨i,?_⟩⟩
    have ⟨ds,dir,_⟩ := lacks
    rw [image.walk_dir short dir (image.lacks enough lacks) (by decide)]
    rfl
  | fifo short file => exact ⟨0,fun fuel _ last => ⟨last,image.walk_fifo short file⟩⟩
  | @follow i s m name target names o short link single start first there last rest ihThere ihRest =>
    obtain ⟨n₁,ihThere⟩ := ihThere
    obtain ⟨n₂,ihRest⟩ := ihRest
    refine ⟨max (max (n₁ + 1) n₂) (deep + 2),fun fuel enough before => ?_⟩
    cases fuel with
    | zero => omega
    | succ fuel =>
      obtain ⟨last',walk⟩ := ihThere fuel (by omega) s
      obtain ⟨rest',look,same⟩ := extfsLookup_startInode diskId start (t.positive s first) single
      obtain ⟨newName,found⟩ := foundInode_ok look false (same ▸ walk)
      have noPar : ParFound d place t false m := nofun
      rw [image.setPar_ret (by omega) (.inl last) noPar] at found
      have here := t.positive m last
      rw [image.walk_link short (by omega) link found (by omega)]
      exact ihRest (fuel + 1) (by omega) before

/-- What the function returns, where the tree decides it. -/
theorem TreeImage.leads_found (image : TreeImage d dev deep place t) (diskId : Nat) {wantPar : Bool}
    {rest : List UInt8} (look : extfsLookup cwd diskId path = .ok ⟨diskId,s,rest⟩)
    (leads : Leads d place t cwd s (pathNames rest) o)
    (end_ : ∀ r, o = .ok r → ((t.node r).isSome ∨ r = -enoent) ∧ ParFound d place t wantPar r) :
    ∃ n, ∀ fuel, n ≤ fuel → foundInode d diskId cwd fuel path wantPar = some (outcome o) := by
  obtain ⟨n,walk⟩ := image.walk_leads diskId leads
  refine ⟨max (n + 1) (deep + 2),fun fuel enough => ?_⟩
  cases fuel with
  | zero => omega
  | succ fuel =>
    obtain ⟨last,walk⟩ := walk fuel (by omega) s
    cases o with
    | ok r =>
      obtain ⟨newName,found⟩ := foundInode_ok look wantPar walk
      obtain ⟨here,par⟩ := end_ r rfl
      rw [found,image.setPar_ret (by omega) here par]
      rfl
    | error e => exact foundInode_error look wantPar walk

end Siegfried
