import Siegfried.FindInode
import Siegfried.ParentName
import Mathlib.Data.Int.Interval

/-! `sys_getcwd` in a tree of directories: the path that it returns, and where it leads
(`syscall.c`, `extfs.c`). -/
namespace Siegfried

open Bytes

/-- A used entry other than `.` and `..`. -/
def Dirent.Ordinary (e : Dirent) : Prop := e.inode ≠ 0 ∧ e.name ≠ [46] ∧ e.name ≠ dotDot

instance : DecidablePred Dirent.Ordinary := fun e =>
  inferInstanceAs (Decidable (e.inode ≠ 0 ∧ e.name ≠ [46] ∧ e.name ≠ dotDot))

/-- A directory other than the root is listed once, in the directory that its `..` leads
to. The names can be used in paths, and inodes are 32-bit numbers. -/
structure Hierarchy (t : DirTree) : Prop where
  names : ∀ i ds, t.node i = some (.dir ds) → ∀ e ∈ ds, e.inode ≠ 0 →
    e.name ≠ [] ∧ 0 ∉ e.name ∧ 47 ∉ e.name ∧ e.name.length < 256
  distinct : ∀ i ds, t.node i = some (.dir ds) →
    ∀ e ∈ ds, ∀ e' ∈ ds, e.inode ≠ 0 → e'.inode ≠ 0 → e.name = e'.name → e = e'
  listed : ∀ p ps, t.node p = some (.dir ps) → ∀ e ∈ ps, e.Ordinary → ∀ ds,
    t.node e.inode = some (.dir ds) → (e.inode : Int) ≠ extfsRootdirInode ∧ lookupResult ds dotDot = p ∧
      ∀ e' ∈ ps, e'.inode = e.inode → e' = e
  small : ∀ i, (t.node i).isSome → i < 2^32

/-- A directory and the name that it has in its parent. -/
structure WayStep where
  parent : Int
  inode : Int
  name : List UInt8

/-- The way from the root to a directory. -/
inductive PathTo (t : DirTree) : Int → List WayStep → Prop where
  | root : PathTo t extfsRootdirInode []
  | child {p i : Int} {ps ds : List Dirent} {e : Dirent} {way : List WayStep} (above : PathTo t p way)
    (parent : t.node p = some (.dir ps)) (entry : e ∈ ps) (ordinary : e.Ordinary) (this : i = e.inode)
    (dir : t.node i = some (.dir ds)) : PathTo t i (way ++ [⟨p,i,e.name⟩])

/-- What buffers and a `siegfried_dir` on the kernel's stack hold before they are used. -/
structure Stale where
  dirents : TaskDir → Store
  par : TaskDir → TaskDir
  parentDirents : Int → Int → Store

/-- What `sys_get_dir_name` calls in a task of the disk `own`; both disks are extfs, and
`..` is opened on `root`, whose inode is `dmInode`. -/
def cwdOps (root own : Disk) (dmInode : Nat) (stale : Stale) (fuel : Nat) : DirOps where
  rootInode := extfsRootdirInode
  openDotDot dir :=
    (extfsFopendirOn root dmInode dir fuel (stale.dirents dir) dotDot (stale.par dir)).map fun r =>
      (.ofInt r.1,r.2)
  selfName parent inode :=
    extfsFindNameFromParent own fuel (stale.parentDirents parent inode) parent inode
  short _ _ _ found := extfsFindNameFromParent_short found

/-- With two bytes more than the path takes, the path is returned, and leads back. -/
def GetcwdRight (root own : Disk) (dmInode : Nat) (stale : Stale) (cwd : TaskDir)
    (names : List (List UInt8)) : Prop :=
  ∀ (s : UInt64) (buf : Store), (cwdText names).length + 2 ≤ s.toNat → ∃ n, ∀ fuel, n ≤ fuel →
    ∃ st, syscallGetcwd (cwdOps root own dmInode stale fuel) s fuel cwd buf = some st ∧
      cString st.buf s.toNat = cwdText names ∧ ∀ wantPar,
        foundInode root dmInode (some ⟨cwd.inode,cwd.di⟩) fuel (cString st.buf s.toNat) wantPar = some cwd.inode

/-- On the disk of the task the directories on the way have the names that they have in the
tree. -/
def NamesAgree (own : Disk) (stale : Stale) (way : List WayStep) : Prop :=
  ∃ n, ∀ fuel, n ≤ fuel → ∀ w ∈ way,
    extfsFindNameFromParent own fuel (stale.parentDirents w.parent w.inode) w.parent w.inode = some w.name

variable {t : DirTree} {i p : Int} {ds ps : List Dirent} {e : Dirent} {way way' : List WayStep} {w : WayStep}
  {names names' : List (List UInt8)} {root own : Disk} {k fuel dmInode : Nat} {stale : Stale}
  {dir : TaskDir} {name rest : List UInt8}

section Tree

theorem PathTo.isDir (path : PathTo t i way) : ∃ ds, t.node i = some (.dir ds) := by
  cases path with
  | root => exact t.root
  | child _ _ _ _ _ dir => exact ⟨_,dir⟩

variable (tree : Hierarchy t)
include tree

theorem Hierarchy.lookup_entry (parent : t.node p = some (.dir ps)) (entry : e ∈ ps) (used : e.inode ≠ 0) :
    lookup ps e.name = some e.inode := by
  rw [lookup,Option.map_eq_some_iff]
  cases found : ps.find? fun e' => e'.inode ≠ 0 ∧ e'.name = e.name with
  | none =>
    have missing := List.find?_eq_none.mp found e entry
    simp [used] at missing
  | some e' =>
    have this := List.find?_some found
    simp only [decide_eq_true_eq] at this
    have same := tree.distinct p ps parent e' (List.mem_of_find?_eq_some found) e entry this.1 used this.2
    exact ⟨e',rfl,by rw [same]⟩

theorem Hierarchy.nameOf_entry (parent : t.node p = some (.dir ps)) (entry : e ∈ ps) (ordinary : e.Ordinary)
    (dir : t.node e.inode = some (.dir ds)) : nameOf ps e.inode = e.name := by
  rw [nameOf]
  cases found : ps.find? fun e' => e'.inode ≠ 0 ∧ (e'.inode : Int) = e.inode with
  | none =>
    have missing := List.find?_eq_none.mp found e entry
    simp [ordinary.1] at missing
  | some e' =>
    have this := List.find?_some found
    simp only [decide_eq_true_eq,Int.natCast_inj] at this
    have same := (tree.listed p ps parent e entry ordinary ds dir).2.2 e' (List.mem_of_find?_eq_some found) this.2
    exact congrArg Dirent.name same

/-- There is one way to a directory. -/
theorem PathTo.unique (path : PathTo t i way) (path' : PathTo t i way') : way = way' := by
  induction path generalizing way' with
  | root =>
    cases path' with
    | root => rfl
    | child _ parent entry ordinary this dir =>
      have other := (tree.listed _ _ parent _ entry ordinary _ (this ▸ dir)).1
      exact absurd this.symm other
  | child above parent entry ordinary this dir ih =>
    have listed := tree.listed _ _ parent _ entry ordinary _ (this ▸ dir)
    cases path' with
    | root => exact absurd this.symm listed.1
    | child above' parent' entry' ordinary' this' dir' =>
      have listed' := tree.listed _ _ parent' _ entry' ordinary' _ (this' ▸ dir')
      cases dir.symm.trans dir'
      cases listed.2.1.symm.trans listed'.2.1
      cases parent.symm.trans parent'
      cases listed.2.2 _ entry' (Int.natCast_inj.mp (this'.symm.trans this))
      rw [ih above']

omit tree in
/-- A way goes on from a shorter one. -/
theorem PathTo.before (path : PathTo t i way) (member : w ∈ way) :
    ∃ front back, way = front ++ w :: back ∧ PathTo t w.inode (front ++ [w]) := by
  induction path with
  | root => cases member
  | @child p i ps ds e way above parent entry ordinary this dir ih =>
    rcases List.mem_append.mp member with member | last
    · obtain ⟨front,back,rfl,path⟩ := ih member
      exact ⟨front,back ++ [⟨p,i,e.name⟩],by simp,path⟩
    · cases List.mem_singleton.mp last
      exact ⟨way,[],rfl,.child above parent entry ordinary this dir⟩

theorem PathTo.nodup (path : PathTo t i way) : (way.map (·.inode)).Nodup := by
  induction path with
  | root => exact List.nodup_nil
  | @child p i ps ds e way above parent entry ordinary this dir ih =>
    rw [List.map_append,List.map_singleton]
    apply List.Nodup.append ih (List.nodup_singleton _)
    rw [List.disjoint_singleton]
    intro again
    obtain ⟨w,member,same⟩ := List.mem_map.mp again
    obtain ⟨front,back,rfl,path⟩ := above.before member
    have same : w.inode = i := same
    have path : PathTo t i (front ++ [w]) := same ▸ path
    have longer := congrArg List.length (path.unique tree (.child above parent entry ordinary this dir))
    simp at longer

/-- A way is no longer than there are inodes. -/
theorem PathTo.length_le (path : PathTo t i way) : way.length ≤ 2^32 := by
  have inside : (way.map (·.inode)).toFinset ⊆ Finset.Ico 0 (2^32 : Int) := by
    intro j listed
    obtain ⟨w,member,rfl⟩ := List.mem_map.mp (List.mem_toFinset.mp listed)
    obtain ⟨_,_,_,shorter⟩ := path.before member
    obtain ⟨ds,dir⟩ := shorter.isDir
    have here := t.isSome_of dir
    rw [Finset.mem_Ico]
    exact ⟨Int.le_of_lt (t.positive _ here),tree.small _ here⟩
  have few := Finset.card_le_card inside
  rwa [List.toFinset_card_of_nodup (path.nodup tree),List.length_map,Int.card_Ico] at few

/-- The names of a way can be told apart in a path. -/
theorem PathTo.usable (path : PathTo t i way) : ∀ w ∈ way,
    w.name ≠ [] ∧ 0 ∉ w.name ∧ 47 ∉ w.name ∧ w.name.length < 256 := by
  induction path with
  | root => nofun
  | child above parent entry ordinary this dir ih =>
    intro w member
    rcases List.mem_append.mp member with member | last
    · exact ih w member
    · cases List.mem_singleton.mp last
      exact tree.names _ _ parent _ entry ordinary.1

end Tree

section Ascend

variable (exact : ExactDirs root t k) (tree : Hierarchy t)
include exact tree

/-- From a directory with a parent `..` is opened on the way up. -/
theorem Hierarchy.opens (parent : t.node p = some (.dir ps)) (entry : e ∈ ps) (ordinary : e.Ordinary)
    (this : dir.inode = e.inode) (node : t.node dir.inode = some (.dir ds)) (filled : t.Filled dir) :
    dir.parent = p ∧ ∃ par : TaskDir, par.inode = p ∧ t.Filled par ∧ ∃ n, ∀ fuel, n ≤ fuel →
      (cwdOps root own dmInode stale fuel).openDotDot dir = some (0,par) := by
  obtain ⟨ds',node',back⟩ := filled
  cases node.symm.trans node'
  have up := (tree.listed p ps parent e entry ordinary ds (this ▸ node)).2.1
  obtain ⟨q,found,_⟩ := t.dotDot_dir node
  have same : (q : Int) = p := by
    rw [lookupResult,found] at up
    exact up
  obtain ⟨pp,filled,n,opens⟩ :=
    exact.opens node found (stale.dirents dir) dmInode dir.di dir.parent (stale.par dir)
  refine ⟨back.symm.trans up,_,same,filled,n,fun fuel enough => ?_⟩
  exact congrArg (Option.map _) (opens fuel enough)

/-- With the names of the tree the call comes up to the root. -/
theorem PathTo.ascends (path : PathTo t i way) (here : dir.inode = i) (filled : t.Filled dir) :
    ∃ n, ∀ fuel, n ≤ fuel → (∀ w ∈ way, (cwdOps root own dmInode stale fuel).selfName w.parent w.inode =
      some w.name) → Ascends (cwdOps root own dmInode stale fuel) dir (way.map (·.name)) true := by
  induction path generalizing dir with
  | root => exact ⟨0,fun _ _ _ => .root here⟩
  | @child p i ps ds e way above parent entry ordinary this node ih =>
    cases here
    have other := (tree.listed p ps parent e entry ordinary ds (this ▸ node)).1
    obtain ⟨back,par,parHere,parFilled,n₁,opens⟩ := tree.opens exact parent entry ordinary this node filled
    obtain ⟨n₂,ascends⟩ := ih parHere parFilled
    refine ⟨max n₁ n₂,fun fuel enough agree => ?_⟩
    rw [List.map_append,List.map_singleton]
    apply Ascends.up (this.symm ▸ other) (opens fuel (by omega)) (by decide)
    · have last := agree _ (List.mem_append_right _ (List.mem_singleton_self _))
      rwa [back]
    · exact ascends fuel (by omega) fun w member => agree w (List.mem_append_left _ member)

/-- The names it comes up with are those that the disk of the task gives. -/
theorem PathTo.given (path : PathTo t i way) (here : dir.inode = i) (filled : t.Filled dir) :
    ∃ n, ∀ fuel, n ≤ fuel → ∀ names ends, Ascends (cwdOps root own dmInode stale fuel) dir names ends →
      ends = true ∧ List.Forall₂ (fun w name =>
        (cwdOps root own dmInode stale fuel).selfName w.parent w.inode = some name) way names := by
  induction path generalizing dir with
  | root =>
    refine ⟨0,fun _ _ names ends ascends => ?_⟩
    cases ascends with
    | root => exact ⟨rfl,.nil⟩
    | fails other => exact absurd here other
    | up other => exact absurd here other
  | @child p i ps ds e way above parent entry ordinary this node ih =>
    cases here
    have other := (tree.listed p ps parent e entry ordinary ds (this ▸ node)).1
    obtain ⟨back,par,parHere,parFilled,n₁,opens⟩ := tree.opens exact parent entry ordinary this node filled
    obtain ⟨n₂,given⟩ := ih parHere parFilled
    refine ⟨max n₁ n₂,fun fuel enough names ends ascends => ?_⟩
    have opened := opens fuel (by omega)
    cases ascends with
    | root isRoot => exact absurd isRoot (this.symm ▸ other)
    | fails _ opened' error =>
      cases opened.symm.trans opened'
      exact absurd error (by decide)
    | up _ opened' _ named above =>
      cases opened.symm.trans opened'
      obtain ⟨ends,names⟩ := given fuel (by omega) _ _ above
      refine ⟨ends,List.rel_append names (.cons ?_ .nil)⟩
      rwa [back] at named

end Ascend

section Text

variable {m : Store} {n : Nat} {text more : List UInt8} {ops : DirOps} {s : UInt64} {st : CwdState}
  {r : UInt64 × CwdState} {ends : Bool}

/-- Text behind the text that a buffer begins with. -/
theorem splice_text (holds : ∀ i < n, m i = text.getD i 0) :
    ∀ i < n, splice m text.length more.length (fun i => more.getD i 0) i = (text ++ more).getD i 0 := by
  intro i small
  by_cases before : i < text.length
  · rw [splice_apart (.inl before),List.getD_append _ _ _ _ before]
    exact holds i small
  · rw [List.getD_append_right _ _ _ _ (Nat.not_lt.mp before)]
    by_cases inside : i < text.length + more.length
    · rw [splice,if_pos ⟨Nat.not_lt.mp before,inside⟩]
    · rw [splice_apart (.inr (Nat.not_lt.mp inside)),holds i small,List.getD_eq_default _ _ (by omega),
        List.getD_eq_default _ _ (by omega)]

theorem put_text {off : UInt64} (more : List UInt8) (behind : off.toNat = text.length)
    (holds : ∀ i < n, st.buf i = text.getD i 0) :
    ∀ i < n, (st.put off more).buf i = (text ++ more).getD i 0 := by
  rw [CwdState.put,behind]
  exact splice_text holds

theorem getD_append_zero (i : Nat) : (text ++ [0]).getD i 0 = text.getD i 0 := by
  by_cases before : i < text.length
  · exact List.getD_append _ _ _ _ before
  · rw [List.getD_append_right _ _ _ _ (Nat.not_lt.mp before),List.getD_eq_default text _ (Nat.not_lt.mp before)]
    cases i - text.length <;> rfl

/-- The buffer holds the text of the names, and zeros. -/
theorem Ascends.spelt (ascends : Ascends ops dir names ends) (up : ends = true)
    (room : (cwdText names).length + 1 ≤ s.toNat) (zeros : ∀ i < s.toNat, st.buf i = 0)
    (done : sysGetDirName ops s fuel dir st = some r) :
    ∀ i < s.toNat, r.2.buf i = (cwdText names).getD i 0 := by
  induction ascends generalizing fuel st r with
  | root this =>
    cases fuel with
    | zero => cases done
    | succ fuel =>
      rw [sysGetDirName_root this] at done
      cases done
      have empty : ∀ i < s.toNat, st.buf i = ([] : List UInt8).getD i 0 := zeros
      exact put_text [47] rfl empty
  | fails => cases up
  | @up dir par ret name names ends other opened ok named above ih =>
    cases fuel with
    | zero => cases done
    | succ fuel =>
      rw [sysGetDirName_up other opened ok named,Option.map_eq_some_iff] at done
      obtain ⟨r,inner,rfl⟩ := done
      have short := ops.short _ _ _ named
      rw [cwdText_length_append] at room
      have fits : TextFits s names ends := by
        rw [up,TextFits]
        split <;> omega
      have off : r.1.toNat = (cwdText names).length := by
        have off := (above.within fits inner).off
        rwa [if_pos up] at off
      have lt := s.toNat_lt
      have behind : (r.1 + .ofNat name.length).toNat = r.1.toNat + name.length :=
        toNat_add_length short (by omega)
      have slash : (r.1 + .ofNat name.length + 1).toNat = r.1.toNat + name.length + 1 := by
        have one : (1 : UInt64).toNat = 1 := rfl
        rw [UInt64.toNat_add,behind,one]
        omega
      rw [appendName_fits short (by omega),cwdText_append]
      intro i small
      have zeros : ∀ i < s.toNat, ({ st with cwd := .par fuel } : CwdState).buf i = 0 := zeros
      have before := ih up (by omega) zeros inner
      have first := put_text name off before
      have second := put_text [47] (by rw [behind,off,List.length_append]) first
      have third := put_text [0] (by rw [slash,off]; simp; omega) second i small
      rwa [getD_append_zero] at third

/-- The string in a buffer that begins with a text. -/
theorem cString_text (holds : ∀ i < n, m i = text.getD i 0) (short : text.length < n) (noZero : 0 ∉ text) :
    cString m n = text := by
  have whole : bytes m 0 n = text ++ List.replicate (n - text.length) 0 := by
    apply List.ext_getElem
    · rw [length_bytes,List.length_append,List.length_replicate]
      omega
    · intro i left right
      rw [length_bytes] at left
      have byte : (bytes m 0 n)[i] = m i := by simp [bytes]
      rw [byte,holds i left]
      by_cases before : i < text.length
      · rw [List.getElem_append_left before,List.getD_eq_getElem _ _ before]
      · rw [List.getElem_append_right (Nat.not_lt.mp before),List.getElem_replicate,
          List.getD_eq_default _ _ (Nat.not_lt.mp before)]
  have all : ∀ c ∈ text, (c != 0) = true := fun c member => bne_iff_ne.mpr (ne_of_mem_of_not_mem member noZero)
  obtain ⟨more,gap⟩ := Nat.exists_eq_succ_of_ne_zero (Nat.sub_ne_zero_of_lt short)
  rw [cString,whole,gap,List.replicate_succ,List.takeWhile_append_of_pos all,
    List.takeWhile_cons_of_neg (by decide),List.append_nil]

end Text

section Path

theorem SingleSlashes.cons (run : 47 ∉ name) (single : SingleSlashes rest) (first : rest.head? ≠ some 47) :
    SingleSlashes (name ++ 47 :: rest) := by
  rintro ⟨front,back,same⟩
  rw [List.append_assoc] at same
  rcases List.append_eq_append_iff.mp same with ⟨mid,rfl,this⟩ | ⟨mid,rfl,this⟩
  · cases mid with
    | nil =>
      obtain ⟨_,this⟩ := List.cons.inj this
      exact first (by rw [← this]; rfl)
    | cons c mid =>
      obtain ⟨rfl,_⟩ := List.cons.inj this
      exact run (List.mem_append_right _ List.mem_cons_self)
  · cases mid with
    | nil =>
      obtain ⟨_,this⟩ := List.cons.inj this
      exact first (by rw [this]; rfl)
    | cons c mid =>
      obtain ⟨_,rfl⟩ := List.cons.inj this
      exact single ⟨mid,back,by simp⟩

/-- The names are found again in their path. -/
theorem flatMap_path (usable : ∀ name ∈ names, name ≠ [] ∧ 47 ∉ name) :
    SingleSlashes (names.flatMap (· ++ [47])) ∧ (names.flatMap (· ++ [47])).head? ≠ some 47 ∧
      components (names.flatMap (· ++ [47])) = names := by
  induction names with
  | nil => exact ⟨by decide,nofun,by decide⟩
  | cons name names ih =>
    obtain ⟨single,first,found⟩ := ih fun name member => usable name (List.mem_cons_of_mem _ member)
    obtain ⟨nonempty,run⟩ := usable name List.mem_cons_self
    have split : (name :: names).flatMap (· ++ [47]) = name ++ 47 :: names.flatMap (· ++ [47]) := by simp
    rw [split]
    refine ⟨single.cons run first,?_,by rw [components_cons nonempty run,found]⟩
    cases name with
    | nil => exact absurd rfl nonempty
    | cons c name =>
      rintro ⟨⟩
      exact run List.mem_cons_self

/-- A word ends at its slash. -/
theorem word_cons_inj {name' rest' : List UInt8} (run : 47 ∉ name) (run' : 47 ∉ name')
    (same : name ++ 47 :: rest = name' ++ 47 :: rest') : name = name' ∧ rest = rest' := by
  induction name generalizing name' with
  | nil =>
    cases name' with
    | nil => exact ⟨rfl,List.tail_eq_of_cons_eq same⟩
    | cons c name' =>
      obtain ⟨rfl,_⟩ := List.cons.inj same
      exact absurd List.mem_cons_self run'
  | cons c name ih =>
    cases name' with
    | nil =>
      obtain ⟨rfl,_⟩ := List.cons.inj same
      exact absurd List.mem_cons_self run
    | cons c' name' =>
      obtain ⟨rfl,tail⟩ := List.cons.inj same
      obtain ⟨rfl,rest⟩ := ih (List.not_mem_of_not_mem_cons run) (List.not_mem_of_not_mem_cons run') tail
      exact ⟨rfl,rest⟩

theorem flatMap_count : (names.flatMap (· ++ [47])).count 47 = names.length + (names.map (·.count 47)).sum := by
  induction names with
  | nil => rfl
  | cons name names ih =>
    simp only [List.flatMap_cons,List.count_append,List.map_cons,List.sum_cons,List.length_cons,ih,
      List.count_singleton_self]
    omega

/-- A path of as many names has the same names. -/
theorem flatMap_inj (run : ∀ name ∈ names, 47 ∉ name) (count : names'.length = names.length)
    (same : names'.flatMap (· ++ [47]) = names.flatMap (· ++ [47])) : names' = names := by
  have none : (names.map (·.count 47)).sum = 0 := by
    apply List.sum_eq_zero_iff_forall_eq_nat.mpr
    intro c listed
    obtain ⟨name,member,rfl⟩ := List.mem_map.mp listed
    exact List.count_eq_zero.mpr (run name member)
  have slashes := congrArg (List.count 47) same
  rw [flatMap_count,flatMap_count,count,none] at slashes
  have run' : ∀ name ∈ names', 47 ∉ name := by
    intro name member
    have zero := List.sum_eq_zero_iff_forall_eq_nat.mp (Nat.add_left_cancel slashes) _ (List.mem_map_of_mem member)
    exact List.count_eq_zero.mp zero
  clear slashes none
  induction names generalizing names' with
  | nil => exact List.length_eq_zero_iff.mp count
  | cons name names ih =>
    cases names' with
    | nil => cases count
    | cons name' names' =>
      simp only [List.flatMap_cons,List.append_assoc,List.cons_append,List.nil_append] at same
      obtain ⟨rfl,rest⟩ := word_cons_inj (run' name' List.mem_cons_self) (run name List.mem_cons_self) same
      rw [ih (fun name member => run name (List.mem_cons_of_mem _ member)) (Nat.succ.inj count) rest
        fun name member => run' name (List.mem_cons_of_mem _ member)]

end Path

section Resolve

variable (exact : ExactDirs root t k) (tree : Hierarchy t)
include exact tree

/-- The loop over the names on a way gets to its end. -/
theorem PathTo.walks (path : PathTo t i way) (enough : k ≤ fuel) (find : List UInt8 → Option Int)
    (more : List (List UInt8)) (last : Int) : ∃ last', walkNames root fuel find (way.map (·.name) ++ more)
      extfsRootdirInode last = walkNames root fuel find more i last' := by
  induction path generalizing more last with
  | root => exact ⟨last,rfl⟩
  | @child p i ps ds e way above parent entry ordinary this node ih =>
    obtain ⟨_,_,_,short⟩ := tree.names p ps parent e entry ordinary.1
    obtain ⟨last',walk⟩ := ih (e.name :: more) last
    refine ⟨p,?_⟩
    rw [List.map_append,List.append_assoc]
    apply walk.trans
    have found := exact.find enough parent (tree.lookup_entry parent entry ordinary.1)
    have here : (e.inode : Int) ≠ 0 := Int.natCast_ne_zero.mpr ordinary.1
    have le : e.name.length ≤ pathMax := Nat.le_trans (Nat.le_of_lt short) (by decide)
    rw [this]
    exact walkNames_dir le (exact.bits parent).1 (exact.bits parent).2 found here

/-- The path leads to the directory. -/
theorem PathTo.resolves (path : PathTo t i way) (enough : k ≤ fuel) (cwd : Option SiegfriedDir)
    (wantPar : Bool) :
    foundInode root dmInode cwd (fuel + 1) (cwdText (way.map (·.name))) wantPar = some i := by
  have usable : ∀ name ∈ way.map (·.name), name ≠ [] ∧ 47 ∉ name := by
    intro name listed
    obtain ⟨w,member,rfl⟩ := List.mem_map.mp listed
    obtain ⟨nonempty,_,run,_⟩ := path.usable tree w member
    exact ⟨nonempty,run⟩
  obtain ⟨single,first,found⟩ := flatMap_path usable
  have names := (pathNames_components single first).trans found
  obtain ⟨ds,dir⟩ := path.isDir
  obtain ⟨p,up,_⟩ := t.dotDot_dir dir
  have walk (find : List UInt8 → Option Int) : ∃ last',
      walkNames root fuel find (pathNames ((way.map (·.name)).flatMap (· ++ [47]))) extfsRootdirInode
        extfsRootdirInode = some (.ok (i,last')) := by
    obtain ⟨last',walk⟩ := path.walks exact tree enough find [] extfsRootdirInode
    rw [List.append_nil] at walk
    exact ⟨last',by rw [names,walk]; rfl⟩
  obtain ⟨last',walk⟩ := walk (foundInode root dmInode cwd fuel · false)
  have look : extfsLookup cwd dmInode (cwdText (way.map (·.name))) =
      .ok ⟨dmInode,extfsRootdirInode,(way.map (·.name)).flatMap (· ++ [47])⟩ := rfl
  obtain ⟨newName,found⟩ := foundInode_ok look wantPar walk
  rw [found,exact.setPar enough dir up]
  rfl

/-- A task of the root disk gets the names of the tree. -/
theorem PathTo.agrees (path : PathTo t i way) (stale : Stale) : NamesAgree root stale way := by
  refine ⟨k,fun fuel enough => ?_⟩
  induction path with
  | root => nofun
  | @child p i ps ds e way above parent entry ordinary this node ih =>
    intro w member
    rcases List.mem_append.mp member with member | last
    · exact ih w member
    · cases List.mem_singleton.mp last
      apply (exact.byInode p ps parent fuel enough _ i).trans
      rw [this,tree.nameOf_entry parent entry ordinary (this ▸ node)]

end Resolve

section Agree

variable {s : UInt64} {ops : DirOps} {st : CwdState} {buf : Store} {cwd : TaskDir}

theorem cwdText_noZero (noZero : ∀ name ∈ names, 0 ∉ name) : 0 ∉ cwdText names := by
  intro zero
  rcases List.mem_cons.mp zero with first | zero
  · exact absurd first (by decide)
  · obtain ⟨name,member,zero⟩ := List.mem_flatMap.mp zero
    rcases List.mem_append.mp zero with zero | last
    · exact noZero name member zero
    · exact absurd (List.mem_singleton.mp last) (by decide)

theorem cwdText_length_le (short : ∀ name ∈ names, name.length < 256) :
    (cwdText names).length ≤ 256 * names.length + 1 := by
  induction names with
  | nil => exact Nat.le_refl _
  | cons name names ih =>
    have first := short name List.mem_cons_self
    have rest := ih fun name member => short name (List.mem_cons_of_mem _ member)
    simp only [cwdText,List.flatMap_cons,List.length_cons,List.length_append,List.length_nil] at rest ⊢
    omega

/-- The string that is returned with room for it. -/
theorem Ascends.string (ascends : Ascends ops cwd names true) (room : (cwdText names).length + 1 ≤ s.toNat)
    (noZero : ∀ name ∈ names, 0 ∉ name) (done : syscallGetcwd ops s fuel cwd buf = some st) :
    cString st.buf s.toNat = cwdText names := by
  obtain ⟨r,inner,rfl⟩ := Option.map_eq_some_iff.mp done
  have zeros : ∀ i < s.toNat, splice buf 0 s.toNat (fun _ => 0) i = 0 := fun i small => splice_start small
  have holds := ascends.spelt rfl room zeros inner
  exact cString_text holds room (cwdText_noZero noZero)

theorem forall₂_right {α β : Type} {R : α → β → Prop} {l : List α} {u : List β} (all : List.Forall₂ R l u) :
    ∀ b ∈ u, ∃ a, R a b := by
  induction all with
  | nil => nofun
  | cons this _ ih =>
    intro b member
    rcases List.mem_cons.mp member with rfl | member
    · exact ⟨_,this⟩
    · exact ih b member

variable (exact : ExactDirs root t k) (tree : Hierarchy t) (path : PathTo t cwd.inode way)
include exact tree path

variable (filled : t.Filled cwd)
include filled

theorem NamesAgree.right (agree : NamesAgree own stale way) :
    GetcwdRight root own dmInode stale cwd (way.map (·.name)) := by
  intro s buf room
  obtain ⟨n₁,agree⟩ := agree
  obtain ⟨n₂,ascends⟩ := path.ascends exact tree rfl filled
  refine ⟨max (max n₁ n₂) (max (k + 1) (way.length + 1)),fun fuel enough => ?_⟩
  have ascends := ascends fuel (by omega) (agree fuel (by omega))
  have steps : (way.map (·.name)).length < fuel := by
    rw [List.length_map]
    omega
  obtain ⟨r,inner⟩ := ascends.returns steps ⟨splice buf 0 s.toNat fun _ => 0,[⟨0,s.toNat⟩],.own⟩
  have done : syscallGetcwd (cwdOps root own dmInode stale fuel) s fuel cwd buf = some r.2 :=
    Option.map_eq_some_iff.mpr ⟨r,inner,rfl⟩
  have noZero : ∀ name ∈ way.map (·.name), 0 ∉ name := by
    intro name listed
    obtain ⟨w,member,rfl⟩ := List.mem_map.mp listed
    exact (path.usable tree w member).2.1
  have string := ascends.string (Nat.le_of_succ_le room) noZero done
  refine ⟨r.2,done,string,fun wantPar => ?_⟩
  cases fuel with
  | zero => omega
  | succ fuel =>
    rw [string]
    exact path.resolves exact tree (by omega) _ wantPar

theorem GetcwdRight.agree (right : GetcwdRight root own dmInode stale cwd (way.map (·.name))) :
    NamesAgree own stale way := by
  have few := path.length_le tree
  have room : (cwdText (way.map (·.name))).length + 2 ≤ (UInt64.ofNat (2^64 - 1)).toNat := by
    have short : ∀ name ∈ way.map (·.name), name.length < 256 := by
      intro name listed
      obtain ⟨w,member,rfl⟩ := List.mem_map.mp listed
      exact (path.usable tree w member).2.2.2
    have le := cwdText_length_le short
    rw [List.length_map] at le
    rw [UInt64.toNat_ofNat']
    omega
  obtain ⟨n₁,right⟩ := right _ (fun _ => 0) room
  obtain ⟨n₂,given⟩ := path.given exact tree rfl filled
  refine ⟨max n₁ n₂,fun fuel enough => ?_⟩
  obtain ⟨st,done,string,_⟩ := right fuel (by omega)
  obtain ⟨r,inner,_⟩ := Option.map_eq_some_iff.mp done
  obtain ⟨names,ends,ascends⟩ := ascends_of_returns inner
  obtain ⟨rfl,found⟩ := given fuel (by omega) names ends ascends
  have usable : ∀ name ∈ names, name.length < 256 ∧ 0 ∉ name := by
    intro name member
    obtain ⟨w,this⟩ := forall₂_right found name member
    exact ⟨extfsFindNameFromParent_short this,extfsFindNameFromParent_noZero this⟩
  have count := found.length_eq
  have le := cwdText_length_le fun name member => (usable name member).1
  have room' : (cwdText names).length + 1 ≤ (UInt64.ofNat (2^64 - 1)).toNat := by
    rw [UInt64.toNat_ofNat']
    omega
  have same := (ascends.string room' (fun name member => (usable name member).2) done).symm.trans string
  have run : ∀ name ∈ way.map (·.name), 47 ∉ name := by
    intro name listed
    obtain ⟨w,member,rfl⟩ := List.mem_map.mp listed
    exact (path.usable tree w member).2.2.1
  cases flatMap_inj run (by rw [List.length_map,count]) (List.cons.inj same).2
  rw [List.forall₂_map_right_iff,List.forall₂_same] at found
  exact found

end Agree

theorem oneDir_dirs (dir : oneDir.node i = some (.dir ds)) :
    i = 2 ∧ ds = [⟨2,12,[46]⟩,⟨2,12,[46,46]⟩,⟨3,12,[100]⟩,⟨0,988,[]⟩] ∨
      i = 3 ∧ ds = [⟨3,12,[46]⟩,⟨2,12,[46,46]⟩,⟨0,1000,[]⟩] := by
  have member := nodeIn_mem dir
  simpa using member

theorem oneDir_hierarchy : Hierarchy oneDir := by
  refine ⟨fun i ds dir => ?_,fun i ds dir => ?_,fun p ps parent e entry ordinary ds dir => ?_,fun i here => ?_⟩
  · rcases oneDir_dirs dir with ⟨_,rfl⟩ | ⟨_,rfl⟩ <;> decide
  · rcases oneDir_dirs dir with ⟨_,rfl⟩ | ⟨_,rfl⟩ <;> decide
  · rcases oneDir_dirs parent with ⟨rfl,rfl⟩ | ⟨rfl,rfl⟩
    · have only : ∀ e ∈ [⟨2,12,[46]⟩,⟨2,12,[46,46]⟩,⟨3,12,[100]⟩,⟨0,988,[]⟩], Dirent.Ordinary e →
          e = ⟨3,12,[100]⟩ := by decide
      cases only e entry ordinary
      cases oneDir_sub.symm.trans dir
      decide
    · have none : ∀ e ∈ [⟨3,12,[46]⟩,⟨2,12,[46,46]⟩,⟨0,1000,[]⟩], ¬Dirent.Ordinary e := by decide
      exact absurd ordinary (none e entry)
  · obtain ⟨n,node⟩ := Option.isSome_iff_exists.mp here
    have few := (oneDir_fits i n node).1
    omega

theorem oneDir_exact : ExactDirs (.of (deviceOf oneDir)) oneDir 1024 := by
  refine deviceOf_exact oneDir_fits fun i ds dir => ?_
  rcases oneDir_dirs dir with ⟨_,rfl⟩ | ⟨_,rfl⟩ <;> decide

theorem oneDir_path : PathTo oneDir 3 [⟨2,3,[100]⟩] :=
  .child .root oneDir_root (show ⟨3,12,[100]⟩ ∈ _ by decide) (by decide) rfl oneDir_sub

/-- Another disk with `d`, where the third inode is that of `e`. -/
def twoDirs : DirTree := DirTree.ofList
  [(2,.dir [⟨2,12,[46]⟩,⟨2,12,[46,46]⟩,⟨3,12,[101]⟩,⟨4,12,[100]⟩,⟨0,976,[]⟩]),
    (3,.dir [⟨3,12,[46]⟩,⟨2,12,[46,46]⟩,⟨0,1000,[]⟩]),
    (4,.dir [⟨4,12,[46]⟩,⟨2,12,[46,46]⟩,⟨0,1000,[]⟩])] (by decide) (by decide)

theorem twoDirs_exact : ExactDirs (.of (deviceOf twoDirs)) twoDirs 1024 := by
  refine deviceOf_exact (DirTree.ofList_fits _ _ _ (by decide +kernel)) fun i ds dir => ?_
  have member := nodeIn_mem dir
  simp only [List.mem_cons,Prod.mk.injEq,Node.dir.injEq,List.not_mem_nil,or_false] at member
  rcases member with ⟨_,rfl⟩ | ⟨_,rfl⟩ | ⟨_,rfl⟩ <;> decide

section Claim

/-- In every directory of the tree the path is returned, and leads back, exactly when the
disk of the task has the same names for the inodes on the way. -/
theorem getcwd_path_iff (root own : Disk) (t : DirTree) (k : Nat) (exact : ExactDirs root t k)
    (tree : Hierarchy t) (dmInode : Nat) (stale : Stale) (cwd : TaskDir) (way : List WayStep)
    (path : PathTo t cwd.inode way) (filled : t.Filled cwd) :
    GetcwdRight root own dmInode stale cwd (way.map (·.name)) ↔ NamesAgree own stale way := by
  constructor
  · intro right
    exact right.agree exact tree path filled
  · intro agree
    exact agree.right exact tree path filled

/-- A task of the root disk. -/
theorem getcwd_path_iff_d : GetcwdRight (.of (deviceOf oneDir)) (.of (deviceOf oneDir)) 1
    ⟨fun _ _ => 0,fun dir => dir,fun _ _ _ => 0⟩ ⟨3,1,2⟩ [[100]] := by
  have agree := oneDir_path.agrees oneDir_exact oneDir_hierarchy ⟨fun _ _ => 0,fun dir => dir,fun _ _ _ => 0⟩
  exact (getcwd_path_iff _ _ oneDir 1024 oneDir_exact oneDir_hierarchy 1 _ ⟨3,1,2⟩ _ oneDir_path
    ⟨_,oneDir_sub,rfl⟩).mpr agree

/-- A task of the other disk is told that it is in `/e/`. -/
theorem getcwd_other_disk : ¬∀ (root own : Disk) (t : DirTree) (k : Nat), ExactDirs root t k → Hierarchy t →
    ∀ (dmInode : Nat) (stale : Stale) (cwd : TaskDir) (way : List WayStep), PathTo t cwd.inode way →
      t.Filled cwd → GetcwdRight root own dmInode stale cwd (way.map (·.name)) := by
  intro all
  have right := all _ (.of (deviceOf twoDirs)) oneDir 1024 oneDir_exact oneDir_hierarchy 1
    ⟨fun _ _ => 0,fun dir => dir,fun _ _ _ => 0⟩ ⟨3,1,2⟩ _ oneDir_path ⟨_,oneDir_sub,rfl⟩
  obtain ⟨n,agree⟩ := right.agree oneDir_exact oneDir_hierarchy oneDir_path ⟨_,oneDir_sub,rfl⟩
  have given := agree (max n 1024) (Nat.le_max_left ..) _ List.mem_cons_self
  have root : twoDirs.node 2 = some (.dir [⟨2,12,[46]⟩,⟨2,12,[46,46]⟩,⟨3,12,[101]⟩,⟨4,12,[100]⟩,⟨0,976,[]⟩]) := by
    decide +kernel
  have other := twoDirs_exact.byInode 2 _ root (max n 1024) (Nat.le_max_right ..) (fun _ => 0) 3
  exact absurd (given.symm.trans other) (by decide)

end Claim

end Siegfried
