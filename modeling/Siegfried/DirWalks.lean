import Siegfried.DirLookup

/-! The four walks over the entries of a directory, and the bytes they read (`extfs.c`). -/
namespace Siegfried

open Bytes

/-- Bytes of the memory that a buffer begins. -/
structure ByteRange where
  first : Nat
  num : Nat

def ByteRange.Within (r : ByteRange) (n : Nat) : Prop := r.num = 0 ∨ r.first + r.num ≤ n

/-- How many bytes of either string `mem_cmp` looks at. -/
def memCmpReads : List UInt8 → List UInt8 → Nat
  | x :: xs, y :: ys => if x = y then memCmpReads xs ys + 1 else 1
  | _, _ => 0

/-- The loops of `extfs_find_finode_from_dir`, `extfs_freaddir`,
`extfs_find_name_from_parent` and `extfs_fopendir`. -/
inductive DirWalk where
  | findFinode (name : List UInt8)
  | readdir
  | nameFromParent (target : Int)
  | opendir

/-- What the condition of the loop reads of the entry at `a`. -/
def DirWalk.head (w : DirWalk) (m : Store) (a : Nat) : List ByteRange :=
  match w with
  | .findFinode _ | .nameFromParent _ => ⟨a,4⟩ :: if direntInode m a = 0 then [] else [⟨a + 4,2⟩]
  | .readdir | .opendir => ⟨a + 4,2⟩ :: if direntEntSz m a = 0 then [] else [⟨a,4⟩]

/-- Whether the loop is left with the entry. -/
def DirWalk.wants (w : DirWalk) (m : Store) (a : Nat) : Bool :=
  match w with
  | .findFinode name => direntName m a = name
  | .nameFromParent target => (direntInode m a : Int) = target
  | .readdir | .opendir => false

/-- What the body of the loop reads besides. -/
def DirWalk.body (w : DirWalk) (m : Store) (a : Nat) : List ByteRange :=
  match w with
  | .findFinode name => ⟨a + 6,1⟩ ::
    if name.length = direntNamelenL m a then [⟨a + 8,memCmpReads name (direntName m a)⟩] else []
  | .readdir => [⟨a + 6,1⟩,⟨a + 8,direntNamelenL m a⟩]
  | .nameFromParent target =>
    if (direntInode m a : Int) = target then [⟨a + 6,1⟩,⟨a + 8,direntNamelenL m a⟩] else []
  | .opendir => []

/-- What was read, which entry the loop was left with, and how many it went over. -/
structure WalkEnd where
  reads : List ByteRange
  found : Option Nat
  entries : Nat

/-- The loop from the entry at `a` on; `none` if it goes over more entries than the fuel. -/
def walkDirents (w : DirWalk) (m : Store) : Nat → Nat → Option WalkEnd
  | 0, _ => none
  | fuel+1, a =>
    if direntInode m a = 0 ∨ direntEntSz m a = 0 then some ⟨w.head m a,none,0⟩
    else if w.wants m a then some ⟨w.head m a ++ w.body m a,some a,0⟩
    else (walkDirents w m fuel (a + direntEntSz m a)).map fun r =>
      ⟨w.head m a ++ w.body m a ++ r.reads,r.found,r.entries + 1⟩

/-- Before the walk: the buffer of `dir_sz` bytes, zeroed but for the one that
`extfs_find_name_from_parent` has on the stack, and what is behind it. -/
def DirWalk.buffer (w : DirWalk) (dirSz : Nat) (around : Store) : Store :=
  match w with
  | .nameFromParent _ => around
  | _ => fun i => if i < dirSz then 0 else around i

/-- The memory the walk begins in, if there is one; only `extfs_freaddir` ignores an error. -/
def DirWalk.start (w : DirWalk) (d : Disk) (fuel : Nat) (ino : Int) (around : Store) :
    Option (Option Store) :=
  let dirStruct := extfsReadInodeStruct d ino
  (extfsReadDirDirents d fuel dirStruct (w.buffer (extfsGetInoSzinBytes dirStruct) around)).map fun r =>
    match w with
    | .readdir => some r.2
    | _ => if r.1 ≤ 0 then none else some r.2

/-- The walk comes to an end, and stays in the buffer. -/
def DirWalk.Safe (w : DirWalk) (d : Disk) (fuel : Nat) (ino : Int) (around : Store) : Prop :=
  ∀ m, w.start d fuel ino around = some (some m) → ∃ steps r, walkDirents w m steps 0 = some r ∧
    ∀ x ∈ r.reads, x.Within (extfsGetInoSzinBytes (extfsReadInodeStruct d ino))

/-- The four walks are safe, and no more names are written than were counted. -/
structure DirWalksSafe (d : Disk) (fuel : Nat) (ino : Int) (around : DirWalk → Store) : Prop where
  safe : ∀ w : DirWalk, w.Safe d fuel ino (around w)
  names : ∀ m m', DirWalk.opendir.start d fuel ino (around .opendir) = some (some m) →
    DirWalk.readdir.start d fuel ino (around .readdir) = some (some m') →
    ∀ steps steps' r r', walkDirents .opendir m steps 0 = some r →
      walkDirents .readdir m' steps' 0 = some r' → r'.entries ≤ r.entries

/-- From `a` on, the sizes of used entries lead to one that ends the walk, with all that
is read on the way in the first `n` bytes. -/
inductive EntriesEnd (w : DirWalk) (m : Store) (n : Nat) : Nat → Prop where
  | unused {a : Nat} (free : direntInode m a = 0 ∨ direntEntSz m a = 0)
    (inside : ∀ x ∈ w.head m a, x.Within n) : EntriesEnd w m n a
  | found {a : Nat} (used : ¬(direntInode m a = 0 ∨ direntEntSz m a = 0)) (this : w.wants m a = true)
    (inside : ∀ x ∈ w.head m a ++ w.body m a, x.Within n) : EntriesEnd w m n a
  | next {a : Nat} (used : ¬(direntInode m a = 0 ∨ direntEntSz m a = 0)) (other : w.wants m a = false)
    (inside : ∀ x ∈ w.head m a ++ w.body m a, x.Within n)
    (rest : EntriesEnd w m n (a + direntEntSz m a)) : EntriesEnd w m n a

variable {w : DirWalk} {m m' buf buf' : Store} {n a fuel : Nat} {d : Disk} {ino : Int}

theorem walkDirents_unused (free : direntInode m a = 0 ∨ direntEntSz m a = 0) :
    walkDirents w m (fuel + 1) a = some ⟨w.head m a,none,0⟩ := if_pos free

theorem walkDirents_found (used : ¬(direntInode m a = 0 ∨ direntEntSz m a = 0)) (this : w.wants m a = true) :
    walkDirents w m (fuel + 1) a = some ⟨w.head m a ++ w.body m a,some a,0⟩ :=
  (if_neg used).trans (if_pos this)

theorem walkDirents_next (used : ¬(direntInode m a = 0 ∨ direntEntSz m a = 0)) (other : w.wants m a = false) :
    walkDirents w m (fuel + 1) a = (walkDirents w m fuel (a + direntEntSz m a)).map fun r =>
      ⟨w.head m a ++ w.body m a ++ r.reads,r.found,r.entries + 1⟩ :=
  (if_neg used).trans (if_neg (by simp [other]))

/-- More fuel changes nothing. -/
theorem walkDirents_mono {r : WalkEnd} {fuel' : Nat} (le : fuel ≤ fuel') (done : walkDirents w m fuel a = some r) :
    walkDirents w m fuel' a = some r := by
  induction fuel generalizing fuel' a r with
  | zero => cases done
  | succ fuel ih =>
    cases fuel' with
    | zero => exact absurd le (Nat.not_succ_le_zero _)
    | succ fuel' =>
      by_cases free : direntInode m a = 0 ∨ direntEntSz m a = 0
      · rwa [walkDirents_unused free] at done ⊢
      · cases this : w.wants m a with
        | true => rwa [walkDirents_found free this] at done ⊢
        | false =>
          rw [walkDirents_next free this,Option.map_eq_some_iff] at done
          obtain ⟨r,rest,rfl⟩ := done
          rw [walkDirents_next free this,ih (Nat.le_of_succ_le_succ le) rest]
          rfl

theorem walkDirents_ends {r : WalkEnd} (done : walkDirents w m fuel a = some r)
    (inside : ∀ x ∈ r.reads, x.Within n) : EntriesEnd w m n a := by
  induction fuel generalizing a r with
  | zero => cases done
  | succ fuel ih =>
    by_cases free : direntInode m a = 0 ∨ direntEntSz m a = 0
    · rw [walkDirents_unused free] at done
      cases done
      exact .unused free inside
    · cases this : w.wants m a with
      | true =>
        rw [walkDirents_found free this] at done
        cases done
        exact .found free this inside
      | false =>
        rw [walkDirents_next free this,Option.map_eq_some_iff] at done
        obtain ⟨r,rest,rfl⟩ := done
        refine .next free this (fun x member => ?_) (ih rest fun x member => ?_)
        · exact inside x (List.mem_append_left _ member)
        · exact inside x (List.mem_append_right _ member)

theorem EntriesEnd.walks (ends : EntriesEnd w m n a) :
    ∃ fuel r, walkDirents w m fuel a = some r ∧ ∀ x ∈ r.reads, x.Within n := by
  induction ends with
  | unused free inside => exact ⟨1,_,walkDirents_unused free,inside⟩
  | found used this inside => exact ⟨1,_,walkDirents_found used this,inside⟩
  | @next a used other inside rest ih =>
    obtain ⟨fuel,r,done,within⟩ := ih
    refine ⟨fuel + 1,⟨w.head m a ++ w.body m a ++ r.reads,r.found,r.entries + 1⟩,?_,?_⟩
    · rw [walkDirents_next used other,done,Option.map_some]
    · intro x member
      rcases List.mem_append.mp member with member | member
      · exact inside x member
      · exact within x member

/-- A walk is safe exactly when the entries end in the buffer. -/
theorem DirWalk.safe_iff {around : Store} : w.Safe d fuel ino around ↔
    ∀ m, w.start d fuel ino around = some (some m) →
      EntriesEnd w m (extfsGetInoSzinBytes (extfsReadInodeStruct d ino)) 0 := by
  constructor
  · intro safe m starts
    obtain ⟨steps,r,done,inside⟩ := safe m starts
    exact walkDirents_ends done inside
  · intro ends m starts
    exact (ends m starts).walks

section Same

variable (same : ∀ i < n, m i = m' i)
include same

theorem ByteRange.Within.read_eq {k : Nat} (inside : ByteRange.Within ⟨a,k⟩ n) : read m a k = read m' a k := by
  apply read_congr
  intro i small
  have within : k = 0 ∨ a + k ≤ n := inside
  exact same _ (by omega)

/-- Both loops over all entries look at the size first. -/
theorem opendir_head (inside : ∀ x ∈ DirWalk.opendir.head m a, x.Within n) :
    (direntEntSz m' a = direntEntSz m a) ∧
      (direntEntSz m a ≠ 0 → direntInode m' a = direntInode m a) := by
  constructor
  · exact ((inside ⟨a + 4,2⟩ List.mem_cons_self).read_eq same).symm
  · intro used
    have member : (⟨a,4⟩ : ByteRange) ∈ DirWalk.opendir.head m a := by
      simp [DirWalk.head,used]
    exact ((inside _ member).read_eq same).symm

/-- What is counted in one copy of a directory is what is written from another. -/
theorem EntriesEnd.count (ends : EntriesEnd .opendir m n a) {fuel' : Nat} {r r' : WalkEnd}
    (counted : walkDirents .opendir m fuel a = some r)
    (written : walkDirents .readdir m' fuel' a = some r') : r'.entries = r.entries := by
  induction ends generalizing fuel fuel' r r' with
  | @unused a free inside =>
    obtain ⟨size,inode⟩ := opendir_head same inside
    have free' : direntInode m' a = 0 ∨ direntEntSz m' a = 0 := by
      by_cases none : direntEntSz m a = 0
      · exact .inr (size.trans none)
      · exact .inl ((inode none).trans (free.resolve_right none))
    cases fuel with
    | zero => cases counted
    | succ fuel =>
      cases fuel' with
      | zero => cases written
      | succ fuel' =>
        rw [walkDirents_unused free] at counted
        rw [walkDirents_unused free'] at written
        cases counted
        cases written
        rfl
  | found used this inside => cases this
  | @next a used other inside rest ih =>
    obtain ⟨size,inode⟩ := opendir_head same fun x member => inside x (List.mem_append_left _ member)
    have sized : direntEntSz m a ≠ 0 := fun none => used (.inr none)
    have used' : ¬(direntInode m' a = 0 ∨ direntEntSz m' a = 0) := by rwa [size,inode sized]
    cases fuel with
    | zero => cases counted
    | succ fuel =>
      cases fuel' with
      | zero => cases written
      | succ fuel' =>
        rw [walkDirents_next used other,Option.map_eq_some_iff] at counted
        rw [walkDirents_next used' rfl,Option.map_eq_some_iff,size] at written
        obtain ⟨r,counted,rfl⟩ := counted
        obtain ⟨r',written,rfl⟩ := written
        exact congrArg (· + 1) (ih counted written)

end Same

theorem splice_same {f : Store} {b k : Nat} (same : ∀ i < n, buf i = buf' i) :
    ∀ i < n, splice buf b k f i = splice buf' b k f i := by
  intro i small
  rw [splice,splice,same i small]

theorem readBlks_same {blks : List ExtfsBlk} {pos total off : Nat} {count : Int}
    (same : ∀ i < n, buf i = buf' i) :
    (readBlks d blks buf pos total count off).1 = (readBlks d blks buf' pos total count off).1 ∧
      ∀ i < n, (readBlks d blks buf pos total count off).2 i =
        (readBlks d blks buf' pos total count off).2 i := by
  induction blks generalizing buf buf' pos total off count with
  | nil => exact ⟨rfl,same⟩
  | cons blk blks ih =>
    simp only [readBlks]
    split
    · exact ⟨rfl,same⟩
    · split
      · exact ih same
      · exact ih (splice_same same)

/-- What is behind the buffer does not matter to what is read into it. -/
theorem extfsReadDirDirents_same {inode : Store} {r : Int × Store} (same : ∀ i < n, buf i = buf' i)
    (done : extfsReadDirDirents d fuel inode buf = some r) :
    ∃ r', extfsReadDirDirents d fuel inode buf' = some r' ∧ r.1 = r'.1 ∧ ∀ i < n, r.2 i = r'.2 i := by
  rw [extfsReadDirDirents] at done ⊢
  split at done
  · next noDir =>
    cases done
    exact ⟨_,if_pos noDir,rfl,same⟩
  · next dir =>
    rw [if_neg dir]
    split at done
    · next block =>
      cases done
      rw [if_pos block]
      refine ⟨_,rfl,rfl,?_⟩
      dsimp only
      exact splice_same same
    · next extents =>
      rw [if_neg extents]
      split at done
      · cases done
      · next linear =>
        rw [if_neg linear]
        simp only [extfsReadInodeContents,if_neg extents,Option.bind_eq_bind,Option.map_eq_some_iff,
          Option.bind_eq_some_iff] at done ⊢
        obtain ⟨q,⟨blks,parsed,read⟩,rfl⟩ := done
        cases read
        refine ⟨_,⟨_,⟨blks,parsed,rfl⟩,rfl⟩,?_,(readBlks_same same).2⟩
        rw [(readBlks_same same).1]

/-- Counting and writing begin with the same entries. -/
theorem starts_same {around around' : Store} (opened : DirWalk.opendir.start d fuel ino around = some (some m))
    (reads : DirWalk.readdir.start d fuel ino around' = some (some m')) :
    ∀ i < extfsGetInoSzinBytes (extfsReadInodeStruct d ino), m i = m' i := by
  simp only [DirWalk.start,Option.map_eq_some_iff] at opened reads
  obtain ⟨r,done,this⟩ := opened
  obtain ⟨r',done',this'⟩ := reads
  split at this
  · cases this
  · cases this
    cases this'
    have zeros : ∀ i < extfsGetInoSzinBytes (extfsReadInodeStruct d ino),
        DirWalk.opendir.buffer (extfsGetInoSzinBytes (extfsReadInodeStruct d ino)) around i =
          DirWalk.readdir.buffer (extfsGetInoSzinBytes (extfsReadInodeStruct d ino)) around' i := by
      intro i small
      simp only [DirWalk.buffer,if_pos small]
    obtain ⟨q,read,_,bytes⟩ := extfsReadDirDirents_same zeros done
    cases done'.symm.trans read
    exact bytes

/-- A directory of used entries is walked to its end and further. -/
theorem Laid.counts_on {ds : List Dirent} (laid : Laid m a ds n) (used : ∀ e ∈ ds, e.inode ≠ 0) :
    ¬EntriesEnd .opendir m n a := by
  induction ds generalizing a with
  | nil =>
    have whole : a = n := laid
    subst whole
    intro ends
    have behind : ¬ByteRange.Within ⟨a + 4,2⟩ a := by
      simp only [ByteRange.Within]
      omega
    cases ends with
    | unused free inside => exact behind (inside _ List.mem_cons_self)
    | found used this inside => cases this
    | next used other inside rest => exact behind (inside _ (List.mem_append_left _ List.mem_cons_self))
  | cons e ds ih =>
    obtain ⟨inode,entSz,_,_,room,rest⟩ := laid
    have first := used e List.mem_cons_self
    intro ends
    cases ends with
    | unused free inside =>
      rw [inode,entSz] at free
      omega
    | found used this inside => cases this
    | next _ other inside ends =>
      rw [entSz] at ends
      exact ih rest (fun e member => used e (List.mem_cons_of_mem _ member)) ends

/-- A root directory whose last entry ends with its block. -/
def fullDir : DirTree := DirTree.ofList [(2,.dir [⟨2,12,[46]⟩,⟨2,1012,[46,46]⟩])] (by decide) (by decide)

theorem fullDir_fits : fullDir.Fits := DirTree.ofList_fits _ _ _ (by decide +kernel)

theorem fullDir_linear : LinearDir (.of (deviceOf fullDir)) (deviceOf fullDir) 0
    (extfsReadInodeStruct (.of (deviceOf fullDir)) 2) (blockAt 2) [[⟨2,12,[46]⟩,⟨2,1012,[46,46]⟩]] :=
  deviceOf_linear fullDir_fits (by decide +kernel)

section Claim

/-- The walks stay in the buffer exactly when, whenever one of them begins, the sizes of
used entries lead to an entry that ends it there. -/
theorem dir_walks_iff (d : Disk) (fuel : Nat) (ino : Int) (around : DirWalk → Store) :
    DirWalksSafe d fuel ino around ↔
      ∀ w m, DirWalk.start w d fuel ino (around w) = some (some m) →
        EntriesEnd w m (extfsGetInoSzinBytes (extfsReadInodeStruct d ino)) 0 := by
  constructor
  · intro safe w
    exact DirWalk.safe_iff.mp (safe.safe w)
  · intro ends
    refine ⟨fun w => DirWalk.safe_iff.mpr (ends w),fun m m' opened reads steps steps' r r' counted written => ?_⟩
    exact Nat.le_of_eq ((ends .opendir m opened).count (starts_same opened reads) counted written)

/-- A well-formed directory whose last entry ends with the buffer. -/
theorem dir_walks_full : ¬∀ (d : Disk) (fuel : Nat) (ino : Int) (around : DirWalk → Store),
    DirWalksSafe d fuel ino around := by
  intro all
  have linear := fullDir_linear
  have safe := (all (.of (deviceOf fullDir)) 1 2 fun _ _ => 0).safe .opendir
  obtain ⟨m,read,same⟩ := linear.read (Disk.of_delivers _) (show 0 < 1 by decide) (DirWalk.opendir.buffer
    (extfsGetInoSzinBytes (extfsReadInodeStruct (.of (deviceOf fullDir)) 2)) fun _ => 0)
  have size : extfsGetInoSzinBytes (extfsReadInodeStruct (.of (deviceOf fullDir)) 2) = 1024 := linear.size
  have starts : DirWalk.opendir.start (.of (deviceOf fullDir)) 1 2 (fun _ => 0) = some (some m) := by
    simp only [DirWalk.start,read,Option.map_some]
    rw [if_neg (by omega)]
  have ends := DirWalk.safe_iff.mp safe m starts
  rw [size] at ends
  exact (linear.laid.congr same).counts_on (by decide) ends

end Claim

end Siegfried
