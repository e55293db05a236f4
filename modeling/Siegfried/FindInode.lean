import Siegfried.TreeDevice

/-! Where `extfs_find_inode_from_name_and_set_name` agrees with the components of a path. -/
namespace Siegfried

open Bytes

/-- The components one after another, each in the directory that the last one is. -/
def resolve (t : DirTree) : Int → List (List UInt8) → Int
  | i, [] => i
  | i, name :: names =>
    match t.node i with
    | some (.dir ds) =>
      match lookup ds name with
      | some j => resolve t j names
      | none => -enoent
    | _ => -enotdir

/-- The condition on a path from an inode: every directory on it can be read and has the
name in front of its first unused entry; a name is missing at most at the end, and only
from a directory with an unused entry; the only other file in the middle is a FIFO; and
where it ends a `par` can be found. -/
inductive Plain (d : Disk) (place : Int → Nat → Option Nat) (t : DirTree) (wantPar : Bool) :
    Int → List (List UInt8) → Prop where
  | done {i : Int} (par : ParFound d place t wantPar i) : Plain d place t wantPar i []
  | enter {i : Int} {name : List UInt8} {names : List (List UInt8)} {j : Nat}
    (short : name.length ≤ pathMax) (enters : Enters d place t i name j)
    (rest : Plain d place t wantPar j names) : Plain d place t wantPar i (name :: names)
  | missing {i : Int} {ds : List Dirent} {name : List UInt8} (short : name.length ≤ pathMax)
    (dir : t.node i = some (.dir ds)) (absent : lookup ds name = none)
    (lacks : Lacks d place t i name) (par : ParFound d place t wantPar (-enoent)) :
    Plain d place t wantPar i [name]
  | fifo {i : Int} {name : List UInt8} {names : List (List UInt8)} (short : name.length ≤ pathMax)
    (file : t.node i = some (.file .fifo)) : Plain d place t wantPar i (name :: names)

variable {d : Disk} {dev : Store} {deep : Nat} {place : Int → Nat → Option Nat} {t : DirTree}
  {wantPar : Bool} {i : Int} {names : List (List UInt8)} {cwd : Option SiegfriedDir}

/-- The tree leads to what the components resolve to. -/
theorem Plain.leads (plain : Plain d place t wantPar i names) (here : (t.node i).isSome) :
    ∃ o, Leads d place t cwd i names o ∧ outcome o = resolve t i names ∧
      ∀ r, o = .ok r → ((t.node r).isSome ∨ r = -enoent) ∧ ParFound d place t wantPar r := by
  induction plain with
  | @done i par =>
    refine ⟨.ok i,.done,rfl,fun r same => ?_⟩
    cases same
    exact ⟨.inl here,par⟩
  | @enter i name names j short enters rest ih =>
    obtain ⟨o,leads,same,end_⟩ := ih enters.node
    refine ⟨o,.enter short enters leads,?_,end_⟩
    obtain ⟨ds,dir,_,found⟩ := enters
    rw [same,resolve,dir]
    dsimp only
    rw [lookup_visible found]
  | @missing i ds name short dir absent lacks par =>
    refine ⟨.ok (-enoent),.missing short lacks,?_,fun r same => ?_⟩
    · rw [resolve,dir]
      dsimp only
      rw [absent]
      rfl
    · cases same
      exact ⟨.inr rfl,par⟩
  | @fifo i name names short file =>
    refine ⟨.error (-enotdir),.fifo short file,?_,nofun⟩
    rw [resolve,file]
    rfl

/-- A root with one directory, whose name is `d`. -/
def oneDir : DirTree := DirTree.ofList
  [(2,.dir [⟨2,12,[46]⟩,⟨2,12,[46,46]⟩,⟨3,12,[100]⟩,⟨0,988,[]⟩]),
    (3,.dir [⟨3,12,[46]⟩,⟨2,12,[46,46]⟩,⟨0,1000,[]⟩])] (by decide) (by decide)

theorem oneDir_fits : oneDir.Fits := DirTree.ofList_fits _ _ _ (by decide +kernel)

theorem oneDir_root : oneDir.node 2 =
    some (.dir [⟨2,12,[46]⟩,⟨2,12,[46,46]⟩,⟨3,12,[100]⟩,⟨0,988,[]⟩]) := by decide +kernel

theorem oneDir_sub : oneDir.node 3 = some (.dir [⟨3,12,[46]⟩,⟨2,12,[46,46]⟩,⟨0,1000,[]⟩]) := by
  decide +kernel

section Claim

end Claim

end Siegfried
