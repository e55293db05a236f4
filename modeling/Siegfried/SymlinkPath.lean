import Siegfried.TreeDevice

/-! Paths through symbolic links. -/
namespace Siegfried

open Bytes

/-- Where the target of a link in the directory `i` is resolved from. -/
def linkStart (i : Int) (target : List UInt8) : Int :=
  if target.head? = some 47 then extfsRootdirInode else i

/-- Components lead from a directory to an inode: the target of a link that is not at the
end takes the place of its name. Links that lead to themselves lead nowhere. -/
inductive Resolves (t : DirTree) : Int → List (List UInt8) → Int → Prop where
  | done {i : Int} : Resolves t i [] i
  | enter {i r : Int} {ds : List Dirent} {name : List UInt8} {names : List (List UInt8)} {j : Nat}
    (dir : t.node i = some (.dir ds)) (found : lookup ds name = some j)
    (noLink : names = [] ∨ ∀ target, t.node j ≠ some (.link target))
    (rest : Resolves t j names r) : Resolves t i (name :: names) r
  | follow {i r : Int} {ds : List Dirent} {name target : List UInt8} {names : List (List UInt8)}
    {j : Nat} (dir : t.node i = some (.dir ds)) (found : lookup ds name = some j)
    (link : t.node j = some (.link target)) (more : names ≠ [])
    (rest : Resolves t (linkStart i target) (components target ++ names) r) :
    Resolves t i (name :: names) r

/-- On the way along the components the link `k` is met. -/
inductive Meets (t : DirTree) (k : Int) : Int → List (List UInt8) → Prop where
  | here {i : Int} {ds : List Dirent} {name target : List UInt8} {names : List (List UInt8)} {j : Nat}
    (dir : t.node i = some (.dir ds)) (found : lookup ds name = some j)
    (link : t.node j = some (.link target)) (same : k = j) : Meets t k i (name :: names)
  | enter {i : Int} {ds : List Dirent} {name : List UInt8} {names : List (List UInt8)} {j : Nat}
    (dir : t.node i = some (.dir ds)) (found : lookup ds name = some j)
    (noLink : ∀ target, t.node j ≠ some (.link target)) (rest : Meets t k j names) :
    Meets t k i (name :: names)
  | follow {i : Int} {ds : List Dirent} {name target : List UInt8} {names : List (List UInt8)} {j : Nat}
    (dir : t.node i = some (.dir ds)) (found : lookup ds name = some j)
    (link : t.node j = some (.link target))
    (rest : Meets t k (linkStart i target) (components target ++ names)) : Meets t k i (name :: names)

/-- The target of a link meets links of a lower rank only. -/
def Acyclic (t : DirTree) : Prop :=
  ∃ rank : Int → Nat, ∀ i ds name j target, t.node i = some (.dir ds) → lookup ds name = some j →
    t.node j = some (.link target) → ∀ k, Meets t k (linkStart i target) (components target) →
      rank k < rank j

/-- The condition on a path from an inode: what it enters can be read, a link that it
follows has a target with single slashes that is absolute or starts in the directory of
the task, the target meets the condition as well, and the name behind the link is one of
the directory that it leads to for itself. -/
inductive Harmless (d : Disk) (place : Int → Nat → Option Nat) (t : DirTree)
    (cwd : Option SiegfriedDir) : Int → List (List UInt8) → Prop where
  | done {i : Int} : Harmless d place t cwd i []
  | enter {i : Int} {name : List UInt8} {names : List (List UInt8)} {j : Nat}
    (short : name.length ≤ pathMax) (enters : Enters d place t i name j)
    (noLink : names = [] ∨ ∀ target, t.node j ≠ some (.link target))
    (rest : Harmless d place t cwd j names) : Harmless d place t cwd i (name :: names)
  | follow {i : Int} {name target self : List UInt8} {names : List (List UInt8)} {j m : Nat}
    {ds : List Dirent} (short : name.length ≤ pathMax) (enters : Enters d place t i name j)
    (link : t.node j = some (.link target)) (single : SingleSlashes target)
    (start : startInode cwd target = some (linkStart i target))
    (there : Harmless d place t cwd (linkStart i target) (components target))
    (leads : Resolves t (linkStart i target) (components target) m)
    (dir : t.node m = some (.dir ds)) (shortSelf : self.length ≤ pathMax)
    (same : lookup ds self = some m) (rest : Harmless d place t cwd m names) :
    Harmless d place t cwd i (name :: self :: names)

variable {d : Disk} {dev : Store} {deep : Nat} {place : Int → Nat → Option Nat} {t : DirTree}
  {wantPar : Bool} {i m r : Int} {ds : List Dirent} {name : List UInt8}
  {names more : List (List UInt8)} {j : Nat} {cwd : Option SiegfriedDir}

/-- From a name that is no link, or the last one, the rest goes on. -/
theorem Resolves.enter_inv (resolves : Resolves t i (name :: names) r)
    (dir : t.node i = some (.dir ds)) (found : lookup ds name = some j)
    (noLink : names = [] ∨ ∀ target, t.node j ≠ some (.link target)) : Resolves t j names r := by
  cases resolves with
  | enter dir' found' noLink' rest =>
    cases dir.symm.trans dir'
    cases found.symm.trans found'
    exact rest
  | follow dir' found' link more rest =>
    cases dir.symm.trans dir'
    cases found.symm.trans found'
    exact absurd link (noLink.resolve_left more _)

theorem Resolves.follow_inv {target : List UInt8} (resolves : Resolves t i (name :: names) r)
    (dir : t.node i = some (.dir ds)) (found : lookup ds name = some j)
    (link : t.node j = some (.link target)) (more : names ≠ []) :
    Resolves t (linkStart i target) (components target ++ names) r := by
  cases resolves with
  | enter dir' found' noLink' rest =>
    cases dir.symm.trans dir'
    cases found.symm.trans found'
    exact absurd link (noLink'.resolve_left more _)
  | follow dir' found' link' more' rest =>
    cases dir.symm.trans dir'
    cases found.symm.trans found'
    cases link.symm.trans link'
    exact rest

/-- What leads on from a directory is resolved from there. -/
theorem Resolves.rest (resolves : Resolves t i names m) (dir : t.node m = some (.dir ds))
    (all : Resolves t i (names ++ more) r) : Resolves t m more r := by
  induction resolves with
  | done => exact all
  | @enter i m ds' name names j dir' found noLink rest ih =>
    refine ih dir (all.enter_inv dir' found ?_)
    rcases noLink with rfl | noLink
    · cases rest
      refine .inr fun target link => ?_
      rw [dir] at link
      cases link
    · exact .inr noLink
  | @follow i m ds' name target names j dir' found link nonempty rest ih =>
    have all : Resolves t (linkStart i target) (components target ++ (names ++ more)) r :=
      all.follow_inv dir' found link (List.append_ne_nil_of_left_ne_nil nonempty more)
    rw [← List.append_assoc] at all
    exact ih dir all

/-- The loop gets where the path leads to. -/
theorem Harmless.leads (harmless : Harmless d place t cwd i names) (here : (t.node i).isSome)
    (resolves : Resolves t i names r) : Leads d place t cwd i names (.ok r) ∧ (t.node r).isSome := by
  induction harmless generalizing r with
  | done =>
    cases resolves
    exact ⟨.done,here⟩
  | @enter i name names j short enters noLink rest ih =>
    have ⟨ds,dir,_,found⟩ := enters
    obtain ⟨leads,last⟩ := ih enters.node (resolves.enter_inv dir (lookup_visible found) noLink)
    exact ⟨.enter short enters leads,last⟩
  | @follow i name target self names j m ds short enters link single start there leads dir shortSelf
      same rest ihThere ihRest =>
    have ⟨ds',dir',_,found⟩ := enters
    have first : (t.node (linkStart i target)).isSome := by
      rw [linkStart]
      split
      · obtain ⟨ds,root⟩ := t.root
        exact t.isSome_of root
      · exact here
    have noLink : ∀ target, t.node m ≠ some (.link target) := by
      intro target link
      rw [dir] at link
      cases link
    obtain ⟨walk,found_m⟩ := ihThere first leads
    have all := resolves.follow_inv dir' (lookup_visible found) link (List.cons_ne_nil _ _)
    have onward := (leads.rest dir all).enter_inv dir same (.inr noLink)
    obtain ⟨walk',last⟩ := ihRest found_m onward
    exact ⟨.enter short enters (.follow shortSelf link single start first walk found_m walk'),last⟩

/-- A root with the directory `d` and the link `l` to `/d`, and a file `x` in the directory. -/
def oneLink : DirTree := DirTree.ofList
  [(2,.dir [⟨2,12,[46]⟩,⟨2,12,[46,46]⟩,⟨3,12,[100]⟩,⟨4,12,[108]⟩,⟨0,976,[]⟩]),
    (3,.dir [⟨3,12,[46]⟩,⟨2,12,[46,46]⟩,⟨5,12,[120]⟩,⟨0,988,[]⟩]),
    (4,.link [47,100]),(5,.file .regular)] (by decide) (by decide)

theorem oneLink_fits : oneLink.Fits := DirTree.ofList_fits _ _ _ (by decide +kernel)

section OneLink

theorem oneLink_root : oneLink.node 2 =
    some (.dir [⟨2,12,[46]⟩,⟨2,12,[46,46]⟩,⟨3,12,[100]⟩,⟨4,12,[108]⟩,⟨0,976,[]⟩]) := by decide +kernel

theorem oneLink_sub : oneLink.node 3 =
    some (.dir [⟨3,12,[46]⟩,⟨2,12,[46,46]⟩,⟨5,12,[120]⟩,⟨0,988,[]⟩]) := by decide +kernel

theorem oneLink_link : oneLink.node 4 = some (.link [47,100]) := by decide +kernel

theorem oneLink_file : oneLink.node 5 = some (.file .regular) := by decide +kernel

theorem oneLink_noLink {j : Nat} (other : j ≠ 4) (target : List UInt8) :
    oneLink.node j ≠ some (.link target) := by
  intro link
  have member := nodeIn_mem link
  simp at member
  omega

theorem oneLink_acyclic : Acyclic oneLink := by
  refine ⟨fun _ => 0,fun i ds name j target dir found link k meets => ?_⟩
  have only : target = [47,100] := by
    have member := nodeIn_mem link
    simp at member
    exact member.2
  subst only
  have names : components [47,100] = [[100]] := by decide
  rw [names] at meets
  cases meets with
  | here dir found link same =>
    cases oneLink_root.symm.trans dir
    cases found
    exact absurd link (oneLink_noLink (by decide) _)
  | enter dir found noLink rest => cases rest
  | follow dir found link rest =>
    cases oneLink_root.symm.trans dir
    cases found
    exact absurd link (oneLink_noLink (by decide) _)

variable {ds : List Dirent} {i : Int} {name : List UInt8} {j : Nat}

theorem oneLink_enters (dir : oneLink.node i = some (.dir ds)) (found : lookup (visible ds) name = some j) :
    Enters (.of (deviceOf oneLink)) blockAt oneLink i name j :=
  ⟨ds,dir,deviceOf_readable oneLink_fits dir,found⟩

end OneLink

section Claim

/-- On a disk that holds a tree a path through links leads the loop to where it resolves
to, if it is harmless. -/
theorem symlink_path_resolves (d : Disk) (dev : Store) (deep : Nat) (place : Int → Nat → Option Nat)
    (t : DirTree) (image : TreeImage d dev deep place t) (diskId : Nat) (cwd : Option SiegfriedDir)
    (path : List UInt8) (s : Int) (start : startInode cwd path = some s)
    (first : ∃ ds, t.node s = some (.dir ds)) (wantPar : Bool) (r : Int)
    (resolves : Resolves t s (components path) r) (single : SingleSlashes path)
    (harmless : Harmless d place t cwd s (components path)) (par : ParFound d place t wantPar r) :
    ∃ n, ∀ fuel, n ≤ fuel → foundInode d diskId cwd fuel path wantPar = some r := by
  obtain ⟨ds,first⟩ := first
  have here := t.isSome_of first
  obtain ⟨rest,look,same⟩ := extfsLookup_startInode diskId start (t.positive s here) single
  obtain ⟨leads,last⟩ := harmless.leads here resolves
  refine image.leads_found diskId look (same ▸ leads) fun r' equal => ?_
  cases equal
  exact ⟨.inl last,par⟩

/-- The file behind `/l/.`. -/
theorem symlink_path_resolves_dot : ∃ n, ∀ fuel, n ≤ fuel →
    foundInode (.of (deviceOf oneLink)) 0 none fuel [47,108,47,46,47,120] true = some 5 := by
  have names : components [47,108,47,46,47,120] = [[108],[46],[120]] := by decide
  have target : components [47,100] = [[100]] := by decide
  have there : Resolves oneLink 2 [[100]] 3 :=
    .enter (j := 3) oneLink_root (by decide) (.inl rfl) .done
  have resolves : Resolves oneLink 2 (components [47,108,47,46,47,120]) 5 := by
    rw [names]
    refine .follow (j := 4) oneLink_root (by decide) oneLink_link nofun ?_
    rw [target]
    refine .enter (j := 3) oneLink_root (by decide) (.inr (oneLink_noLink (by decide))) ?_
    refine .enter (j := 3) oneLink_sub (by decide) (.inr (oneLink_noLink (by decide))) ?_
    exact .enter (j := 5) oneLink_sub (by decide) (.inl rfl) .done
  have harmless : Harmless (.of (deviceOf oneLink)) blockAt oneLink none 2
      (components [47,108,47,46,47,120]) := by
    rw [names]
    refine .follow (j := 4) (m := 3) (by decide) (oneLink_enters oneLink_root (by decide)) oneLink_link
      (by decide) rfl ?_ ?_ oneLink_sub (by decide) (by decide) ?_
    · rw [target]
      exact .enter (by decide) (oneLink_enters (j := 3) oneLink_root (by decide)) (.inl rfl) .done
    · rw [target]
      exact there
    · exact .enter (by decide) (oneLink_enters (j := 5) oneLink_sub (by decide)) (.inl rfl) .done
  have par : ParFound (.of (deviceOf oneLink)) blockAt oneLink true 5 := by
    intro _
    rw [oneLink_file]
    trivial
  exact symlink_path_resolves _ _ 0 blockAt oneLink (deviceOf_image oneLink_fits) 0 none
    [47,108,47,46,47,120] 2 rfl ⟨_,oneLink_root⟩ true 5 resolves (by decide) harmless par

/-- `/l/x` leads to the directory, not to the file. -/
theorem symlink_path_skips : ¬∀ (d : Disk) (dev : Store) (deep : Nat)
    (place : Int → Nat → Option Nat) (t : DirTree), TreeImage d dev deep place t → Acyclic t →
    ∀ (diskId : Nat) (cwd : Option SiegfriedDir) (path : List UInt8) (s : Int),
    startInode cwd path = some s → (∃ ds, t.node s = some (.dir ds)) →
    (∃ k, Meets t k s (components path).dropLast) → ∀ (wantPar : Bool) (r : Int),
    Resolves t s (components path) r →
      ∃ n, ∀ fuel, n ≤ fuel → foundInode d diskId cwd fuel path wantPar = some r := by
  intro all
  have image := deviceOf_image oneLink_fits
  have names : components [47,108,47,120] = [[108],[120]] := by decide
  have tokens : pathNames [108,47,120] = [[108],[120]] := by decide
  have target : components [47,100] = [[100]] := by decide
  have resolves : Resolves oneLink 2 (components [47,108,47,120]) 5 := by
    rw [names]
    refine .follow (j := 4) oneLink_root (by decide) oneLink_link nofun ?_
    rw [target]
    refine .enter (j := 3) oneLink_root (by decide) (.inr (oneLink_noLink (by decide))) ?_
    exact .enter (j := 5) oneLink_sub (by decide) (.inl rfl) .done
  have leads : Leads (.of (deviceOf oneLink)) blockAt oneLink none 2 (pathNames [108,47,120]) (.ok 3) := by
    rw [tokens]
    refine .enter (j := 4) (by decide) (oneLink_enters oneLink_root (by decide)) ?_
    refine .follow (s := 2) (m := 3) (by decide) oneLink_link (by decide) rfl
      (oneLink.isSome_of oneLink_root) ?_ (oneLink.isSome_of oneLink_sub) .done
    rw [target]
    exact .enter (by decide) (oneLink_enters (j := 3) oneLink_root (by decide)) .done
  have reached : ∀ r, (.ok 3 : Except Int Int) = .ok r → ((oneLink.node r).isSome ∨ r = -enoent) ∧
      ParFound (.of (deviceOf oneLink)) blockAt oneLink false r := by
    intro r same
    cases same
    exact ⟨.inl (oneLink.isSome_of oneLink_sub),nofun⟩
  have found : ∃ n, ∀ fuel, n ≤ fuel →
      foundInode (.of (deviceOf oneLink)) 0 none fuel [47,108,47,120] false = some 3 :=
    image.leads_found 0 rfl leads reached
  have meets : Meets oneLink 4 2 (components [47,108,47,120]).dropLast := by
    rw [names]
    exact .here (j := 4) oneLink_root (by decide) oneLink_link rfl
  have agrees := all _ _ 0 blockAt oneLink image oneLink_acyclic 0 none [47,108,47,120] 2 rfl
    ⟨_,oneLink_root⟩ ⟨4,meets⟩ false 5 resolves
  exact absurd (foundInode_unique agrees found) (by decide)

end Claim

end Siegfried
