import Siegfried.ExtentRead

/-! What `extfs_parse_extent_tree` reads, and whether it ends (`extfs.c`). -/
namespace Siegfried

open Bytes

section Parse

variable (d : Disk)

/-- The `sects_sz` for the `i`th child of a node. -/
def childSize (node : Store) (i : Nat) : Nat :=
  nodeSize (d.readFunc (childOff d.info node i) 512).2

/-- The `i`th child of a node, as it is loaded. -/
def loadChild (node : Store) (i : Nat) : Store :=
  (d.readFunc (childOff d.info node i) (childSize d node i)).2

/-- `extfs_parse_extent_tree` on a node of `size` bytes. It also fails when an extent is
not inside them. -/
def parseExtentTreeIn : Nat → Nat → Store → List ExtfsBlk → Option (List ExtfsBlk)
  | 0, _, _, _ => none
  | fuel+1, size, head, root =>
    if headDepth head = 0 then
      (List.range (headEnts head)).foldlM (fun root i =>
        if size < 12 + 12 * (i + 1) then none
        else some (extfsNewPair root (endNumBlks head i) (endBlkDat head i) (endFOff head i))) root
    else
      (List.range (headEnts head)).foldlM (fun root i =>
        if size < 12 + 12 * (i + 1) then none
        else if headMagic (loadChild d head i) ≠ 0xf30a then some root
        else parseExtentTreeIn fuel (childSize d head i) (loadChild d head i) root) root

/-- The parser ends, with every extent it reads in the 60 bytes of the root or in a node
that was loaded. -/
def ParsesInside (head : Store) : Prop :=
  ∃ fuel blks, parseExtentTreeIn d fuel 60 head [] = some blks

/-- A node that the parser goes on with from another one. -/
def Child (child node : Store) : Prop :=
  headDepth node ≠ 0 ∧ ∃ i < headEnts node, child = loadChild d node i ∧ headMagic child = 0xf30a

end Parse

variable {d : Disk} {dev node head : Store} {fuel size : Nat} {root blks : List ExtfsBlk}

/-- With the extents inside it does what the parser does. -/
theorem parseExtentTreeIn_some (done : parseExtentTreeIn d fuel size node root = some blks) :
    extfsParseExtentTree d fuel node root = some blks := by
  induction fuel generalizing size node root blks with
  | zero => cases done
  | succ fuel ih =>
    rw [parseExtentTreeIn] at done
    rw [extfsParseExtentTree]
    by_cases leaf : headDepth node = 0
    · rw [if_pos leaf] at done ⊢
      refine (List.foldlM_pure (m := Option)).symm.trans (Fold.foldlM_mono (fun i _ t t' same => ?_) done)
      split at same
      · cases same
      · exact same
    · rw [if_neg leaf] at done ⊢
      refine Fold.foldlM_mono (fun i _ t t' same => ?_) done
      split at same
      · cases same
      · split at same
        · next noNode => exact (if_pos noNode).trans same
        · next isNode => exact (if_neg isNode).trans (ih same)

/-- Only used extents that are inside, and no endless chain of nodes. -/
theorem parseExtentTreeIn_acc (done : parseExtentTreeIn d fuel size node root = some blks) :
    (∀ i < headEnts node, 12 + 12 * (i + 1) ≤ size) ∧ Acc (Child d) node := by
  induction fuel generalizing size node root blks with
  | zero => cases done
  | succ fuel ih =>
    rw [parseExtentTreeIn] at done
    by_cases leaf : headDepth node = 0
    · rw [if_pos leaf] at done
      refine ⟨fun i entry => ?_,.intro node fun child this => absurd leaf this.1⟩
      obtain ⟨t,t',same⟩ := Fold.foldlM_mem done (List.mem_range.mpr entry)
      split at same
      · cases same
      · next inside => exact Nat.not_lt.mp inside
    · rw [if_neg leaf] at done
      constructor
      · intro i entry
        obtain ⟨t,t',same⟩ := Fold.foldlM_mem done (List.mem_range.mpr entry)
        split at same
        · cases same
        · next inside => exact Nat.not_lt.mp inside
      · refine .intro node ?_
        rintro child ⟨_,i,entry,rfl,magic⟩
        obtain ⟨t,t',same⟩ := Fold.foldlM_mem done (List.mem_range.mpr entry)
        split at same
        · cases same
        · rw [if_neg (not_not.mpr magic)] at same
          exact (ih same).2

/-- The extents of a loaded node are in it. -/
theorem loadChild_inside (delivers : d.Delivers dev) (node : Store) (i : Nat) :
    ∀ j < headEnts (loadChild d node i), 12 + 12 * (j + 1) ≤ childSize d node i := by
  have ents : headEnts (loadChild d node i) = headEnts (d.readFunc (childOff d.info node i) 512).2 := by
    apply read_congr
    intro k small
    have inside : 2 + k < childSize d node i := by
      rw [childSize,nodeSize]
      omega
    rw [loadChild,delivers.bytes _ inside,delivers.bytes _ (by omega)]
  intro j entry
  rw [childSize,nodeSize,← ents]
  omega

/-- What holds from some number on, for each of finitely many. -/
theorem exists_common {P : Nat → Nat → Prop} {n : Nat} (each : ∀ i < n, ∃ k, ∀ fuel, k ≤ fuel → P i fuel) :
    ∃ k, ∀ i < n, ∀ fuel, k ≤ fuel → P i fuel := by
  induction n with
  | zero => exact ⟨0,fun i small => absurd small (Nat.not_lt_zero i)⟩
  | succ n ih =>
    obtain ⟨k,before⟩ := ih fun i small => each i (Nat.lt_succ_of_lt small)
    obtain ⟨k',last⟩ := each n (Nat.lt_succ_self n)
    refine ⟨max k k',fun i small fuel enough => ?_⟩
    rcases Nat.lt_succ_iff_lt_or_eq.mp small with small | rfl
    · exact before i small fuel (Nat.le_trans (Nat.le_max_left ..) enough)
    · exact last fuel (Nat.le_trans (Nat.le_max_right ..) enough)

/-- Without an endless chain the parser ends. -/
theorem parses_of_acc (delivers : d.Delivers dev) (acc : Acc (Child d) node) :
    ∀ size, (∀ i < headEnts node, 12 + 12 * (i + 1) ≤ size) →
      ∃ k, ∀ fuel, k ≤ fuel → ∀ root, ∃ blks, parseExtentTreeIn d fuel size node root = some blks := by
  induction acc with
  | intro node _ ih =>
    intro size inside
    by_cases leaf : headDepth node = 0
    · refine ⟨1,fun fuel enough root => ?_⟩
      obtain ⟨fuel,rfl⟩ := Nat.exists_eq_add_of_lt enough
      rw [Nat.zero_add,parseExtentTreeIn,if_pos leaf]
      refine Fold.foldlM_total fun i member t => ⟨_,if_neg ?_⟩
      exact Nat.not_lt.mpr (inside i (List.mem_range.mp member))
    · have each : ∀ i < headEnts node, ∃ k, ∀ fuel, k ≤ fuel → headMagic (loadChild d node i) = 0xf30a →
          ∀ root, ∃ blks, parseExtentTreeIn d fuel (childSize d node i) (loadChild d node i) root = some blks := by
        intro i entry
        by_cases magic : headMagic (loadChild d node i) = 0xf30a
        · obtain ⟨k,ends⟩ := ih _ ⟨leaf,i,entry,rfl,magic⟩ _ (loadChild_inside delivers node i)
          exact ⟨k,fun fuel enough _ => ends fuel enough⟩
        · exact ⟨0,fun fuel _ isNode => absurd isNode magic⟩
      obtain ⟨k,ends⟩ := exists_common each
      refine ⟨k + 1,fun fuel enough root => ?_⟩
      obtain ⟨fuel,rfl⟩ := Nat.exists_eq_add_of_lt enough
      rw [parseExtentTreeIn,if_neg leaf]
      refine Fold.foldlM_total fun i member t => ?_
      have entry := List.mem_range.mp member
      rw [if_neg (Nat.not_lt.mpr (inside i entry))]
      by_cases magic : headMagic (loadChild d node i) = 0xf30a
      · rw [if_neg (not_not.mpr magic)]
        exact ends i entry _ (Nat.le_add_right ..) magic t
      · exact ⟨_,if_pos magic⟩

section Claim

/-- The parser ends and stays inside exactly when at most four extents are in the root and
no endless chain of nodes begins there. -/
theorem parse_extent_tree_iff (d : Disk) (dev : Store) (delivers : d.Delivers dev) (head : Store) :
    ParsesInside d head ↔ headEnts head ≤ 4 ∧ Acc (Child d) head := by
  constructor
  · rintro ⟨fuel,blks,done⟩
    obtain ⟨inside,acc⟩ := parseExtentTreeIn_acc done
    refine ⟨Nat.not_lt.mp fun many => ?_,acc⟩
    have fifth := inside 4 many
    omega
  · rintro ⟨few,acc⟩
    obtain ⟨k,ends⟩ := parses_of_acc delivers acc 60 fun i entry => by omega
    obtain ⟨blks,done⟩ := ends k (Nat.le_refl k) []
    exact ⟨k,blks,done⟩

/-- A root with one extent. -/
theorem parse_extent_tree_one : ParsesInside (.of fun _ => 0) fun i => oneExtent 0 1 5 (40 + i) := by
  refine (parse_extent_tree_iff _ _ (Disk.of_delivers fun _ => 0) _).mpr ⟨?_,.intro _ fun child this => ?_⟩
  · rw [oneExtent_ents]
    decide
  · exact absurd (by decide +kernel) this.1

/-- A node in block 1 whose child is in block 1. -/
def loopNode : Store := write (write (write (write (fun _ => 0) 1024 2 0xf30a) 1026 2 1) 1030 2 1) 1040 4 1

/-- The root is a copy of a node that leads to itself. -/
theorem parse_extent_tree_loop : ¬∀ (d : Disk) (dev : Store), d.Delivers dev → ∀ head : Store,
    ParsesInside d head := by
  intro all
  obtain ⟨fuel,blks,done⟩ := all (.of loopNode) _ (Disk.of_delivers _) fun k => loopNode (1024 + k)
  have off : childOff smallInfo (fun k => loopNode (1024 + k)) 0 = 1024 := by decide +kernel
  have same : (fun k => loopNode (1024 + k)) = loadChild (.of loopNode) (fun k => loopNode (1024 + k)) 0 := by
    simp only [loadChild,Disk.of,off]
  have loops : Child (.of loopNode) (fun k => loopNode (1024 + k)) fun k => loopNode (1024 + k) :=
    ⟨by decide +kernel,0,by decide +kernel,same,by decide +kernel⟩
  have acc := (parseExtentTreeIn_acc done).2
  generalize (fun k => loopNode (1024 + k)) = node at acc loops
  induction acc with
  | intro node _ ih => exact ih node loops loops

end Claim

end Siegfried
