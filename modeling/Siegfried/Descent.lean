import Mathlib.Data.List.Nodup
import Mathlib.Data.List.Perm.Basic
import Mathlib.Data.List.Infix
import Mathlib.Data.List.Pairwise

/-! A walk down a graph that does not mark where it was: each node before what it leads to, again
whenever the walk meets it. It ends with every node once exactly for what looks like a tree. -/
namespace Descent

variable {α : Type*}

/-- The nodes of a list in turn. -/
def walks (go : α → Option (List α)) : List α → Option (List α)
  | [] => some []
  | a :: as => do
    let l ← go a
    let ls ← walks go as
    some (l ++ ls)

/-- The nodes of a walk; none where `n` levels do not reach. -/
def walk (next : α → List α) : Nat → α → Option (List α)
  | 0, _ => none
  | n + 1, a => do
    let l ← walks (walk next n) (next a)
    some (a :: l)

/-- A node with the nodes on a way to it, the nearest first. -/
inductive Trail (next : α → List α) (roots : List α) : α → List α → Prop
  | root {a : α} (member : a ∈ roots) : Trail next roots a []
  | step {a b : α} {t : List α} (parent : Trail next roots a t) (member : b ∈ next a) :
      Trail next roots b (a :: t)

def Reach (next : α → List α) (roots : List α) (a : α) : Prop := ∃ t, Trail next roots a t

/-- No node is met from two sides. -/
structure Treelike (next : α → List α) (roots : List α) : Prop where
  nodup : roots.Nodup
  below : ∀ a, Reach next roots a → (next a).Nodup
  apart : ∀ a b c, Reach next roots a → Reach next roots b → c ∈ next a → c ∈ next b → a = b
  top : ∀ a c, Reach next roots a → c ∈ next a → c ∉ roots

variable {next : α → List α} {roots as l l' t u : List α} {a b c : α} {n : Nat}
  {go : α → Option (List α)}

theorem walks_cons (whole : walks go (a :: as) = some l) :
    ∃ l1 l2, go a = some l1 ∧ walks go as = some l2 ∧ l = l1 ++ l2 := by
  obtain ⟨l1,first,rest⟩ := Option.bind_eq_some_iff.mp whole
  obtain ⟨l2,second,same⟩ := Option.bind_eq_some_iff.mp rest
  exact ⟨l1,l2,first,second,(Option.some.inj same).symm⟩

theorem walk_succ (whole : walk next (n + 1) a = some l) :
    ∃ l', walks (walk next n) (next a) = some l' ∧ l = a :: l' := by
  obtain ⟨l',below,same⟩ := Option.bind_eq_some_iff.mp whole
  exact ⟨l',below,(Option.some.inj same).symm⟩

theorem walks_append {bs : List α} (first : walks go as = some l) (second : walks go bs = some l') :
    walks go (as ++ bs) = some (l ++ l') := by
  induction as generalizing l with
  | nil =>
    cases first
    exact second
  | cons a as ih =>
    obtain ⟨l1,l2,here,rest,rfl⟩ := walks_cons first
    rw [List.cons_append,walks,here,ih rest,List.append_assoc]
    rfl

theorem walks_of_append {bs : List α} (whole : walks go (as ++ bs) = some l) :
    ∃ l1 l2, walks go as = some l1 ∧ walks go bs = some l2 ∧ l = l1 ++ l2 := by
  induction as generalizing l with
  | nil => exact ⟨[],l,rfl,whole,rfl⟩
  | cons a as ih =>
    obtain ⟨l0,rest,here,later,rfl⟩ := walks_cons whole
    obtain ⟨l1,l2,first,second,rfl⟩ := ih later
    refine ⟨l0 ++ l1,l2,?_,second,(List.append_assoc ..).symm⟩
    rw [walks,here,first]
    rfl

/-- A node of a list of walks is one of a walk. -/
theorem walks_mem (whole : walks go as = some l) (member : b ∈ l) :
    ∃ a ∈ as, ∃ l', go a = some l' ∧ b ∈ l' := by
  induction as generalizing l with
  | nil =>
    cases whole
    cases member
  | cons a as ih =>
    obtain ⟨l1,l2,first,second,rfl⟩ := walks_cons whole
    rcases List.mem_append.mp member with here | later
    · exact ⟨a,List.mem_cons_self,l1,first,here⟩
    · obtain ⟨c,there,found⟩ := ih second later
      exact ⟨c,List.mem_cons_of_mem _ there,found⟩

theorem walks_all (all : ∀ a ∈ as, (go a).isSome = true) : (walks go as).isSome = true := by
  induction as with
  | nil => rfl
  | cons a as ih =>
    obtain ⟨l1,first⟩ := Option.isSome_iff_exists.mp (all a List.mem_cons_self)
    obtain ⟨l2,second⟩ := Option.isSome_iff_exists.mp (ih fun b member => all b (List.mem_cons_of_mem _ member))
    rw [walks,first,second]
    rfl

/-- What is walked from a node lies on a way through it. -/
theorem walk_trail (whole : walk next n a = some l) (trail : Trail next roots a t) (member : b ∈ l) :
    ∃ u, Trail next roots b u ∧ a :: t <:+ b :: u := by
  induction n generalizing a l t with
  | zero => cases whole
  | succ n ih =>
    obtain ⟨l',below,rfl⟩ := walk_succ whole
    rcases List.mem_cons.mp member with rfl | later
    · exact ⟨t,trail,List.suffix_refl _⟩
    · obtain ⟨c,child,lc,walked,there⟩ := walks_mem below later
      obtain ⟨u,found,through⟩ := ih walked (trail.step child) there
      exact ⟨u,found,(List.suffix_cons c _).trans through⟩

/-- Every node of the walks is a first one or follows one of them, and each as often. -/
theorem walks_perm (each : ∀ a ∈ as, ∀ l, go a = some l → l.Perm (a :: l.flatMap next))
    (whole : walks go as = some l) : l.Perm (as ++ l.flatMap next) := by
  induction as generalizing l with
  | nil =>
    cases whole
    exact .nil
  | cons a as ih =>
    obtain ⟨l1,l2,first,second,rfl⟩ := walks_cons whole
    have here := each a List.mem_cons_self l1 first
    have rest := ih (fun b member => each b (List.mem_cons_of_mem _ member)) second
    rw [List.flatMap_append]
    refine (here.append rest).trans ?_
    rw [List.cons_append,List.cons_append]
    refine .cons a ?_
    rw [← List.append_assoc,← List.append_assoc]
    exact List.perm_append_comm.append_right _

theorem walk_perm (whole : walk next n a = some l) : l.Perm (a :: l.flatMap next) := by
  induction n generalizing a l with
  | zero => cases whole
  | succ n ih =>
    obtain ⟨l',below,rfl⟩ := walk_succ whole
    rw [List.flatMap_cons]
    exact (walks_perm (fun b _ l found => ih found) below).cons a

/-- The nodes of the walks are those that can be reached. -/
theorem mem_walks (whole : walks (walk next n) roots = some l) : a ∈ l ↔ Reach next roots a := by
  have perm := walks_perm (fun b _ l found => walk_perm found) whole
  constructor
  · intro member
    obtain ⟨b,root,l',walked,there⟩ := walks_mem whole member
    obtain ⟨t,trail,_⟩ := walk_trail walked (.root root) there
    exact ⟨t,trail⟩
  · rintro ⟨t,trail⟩
    induction trail with
    | root member => exact perm.mem_iff.mpr (List.mem_append_left _ member)
    | step _ member ih =>
      exact perm.mem_iff.mpr (List.mem_append_right _ (List.mem_flatMap.mpr ⟨_,ih,member⟩))

/-- A walk without a node twice is one of what looks like a tree. -/
theorem treelike_of_nodup (whole : walks (walk next n) roots = some l) (once : l.Nodup) :
    Treelike next roots := by
  have entered := (walks_perm (fun b _ l found => walk_perm found) whole).nodup_iff.mp once
  obtain ⟨nodup,below,away⟩ := List.nodup_append.mp entered
  obtain ⟨each,disjoint⟩ := List.nodup_flatMap.mp below
  refine ⟨nodup,fun a reach => each a ((mem_walks whole).mpr reach),?_,?_⟩
  · intro a b c reach reach' member member'
    by_contra other
    have : Std.Symm (Function.onFun List.Disjoint next) := ⟨fun _ _ apart _ there here => apart here there⟩
    exact disjoint.forall ((mem_walks whole).mpr reach) ((mem_walks whole).mpr reach') other member member'
  · intro a c reach member root
    exact away c root c (List.mem_flatMap.mpr ⟨a,(mem_walks whole).mpr reach,member⟩) rfl

namespace Treelike
variable (tree : Treelike next roots)
include tree

/-- The way to a node is the only one. -/
theorem trail_unique (trail : Trail next roots a t) (trail' : Trail next roots a u) : t = u := by
  induction trail generalizing u with
  | root member =>
    cases trail' with
    | root => rfl
    | step parent below => exact absurd member (tree.top _ _ ⟨_,parent⟩ below)
  | step parent below ih =>
    cases trail' with
    | root member => exact absurd member (tree.top _ _ ⟨_,parent⟩ below)
    | step parent' below' =>
      obtain rfl := tree.apart _ _ _ ⟨_,parent⟩ ⟨_,parent'⟩ below below'
      rw [ih parent']

omit tree in
theorem trail_above (trail : Trail next roots a t) (member : b ∈ t) :
    ∃ u, Trail next roots b u ∧ u.length < t.length := by
  induction trail with
  | root => cases member
  | step parent _ ih =>
    rcases List.mem_cons.mp member with rfl | above
    · exact ⟨_,parent,Nat.lt_succ_self _⟩
    · obtain ⟨u,found,shorter⟩ := ih above
      exact ⟨u,found,Nat.lt_succ_of_lt shorter⟩

theorem trail_nodup (trail : Trail next roots a t) : (a :: t).Nodup := by
  induction trail with
  | root => exact List.nodup_singleton _
  | step parent below ih =>
    refine List.nodup_cons.mpr ⟨fun member => ?_,ih⟩
    obtain ⟨u,found,shorter⟩ := trail_above (parent.step below) member
    rw [tree.trail_unique (parent.step below) found] at shorter
    exact Nat.lt_irrefl _ shorter

/-- Over finitely many nodes the walk ends. -/
theorem walk_ends {nodes : List α} (all : ∀ a, Reach next roots a → a ∈ nodes) (trail : Trail next roots a t)
    (deep : nodes.length ≤ n + t.length) : (walk next n a).isSome = true := by
  induction n generalizing a t with
  | zero =>
    -- the way to the node and the node itself are more nodes than there are
    have within : (a :: t).Subperm nodes := List.subperm_of_subset (tree.trail_nodup trail) fun b member => by
      rcases List.mem_cons.mp member with rfl | above
      · exact all _ ⟨_,trail⟩
      · obtain ⟨u,found,_⟩ := trail_above trail above
        exact all _ ⟨_,found⟩
    have := within.length_le
    rw [List.length_cons] at this
    omega
  | succ n ih =>
    have below : (walks (walk next n) (next a)).isSome = true := by
      refine walks_all fun b child => ih (trail.step child) ?_
      rw [List.length_cons]
      omega
    obtain ⟨l,found⟩ := Option.isSome_iff_exists.mp below
    rw [walk,found]
    rfl

/-- Walks from different nodes with the same way to them do not meet. -/
theorem walks_nodup (each : ∀ b ∈ as, ∀ l, walk next n b = some l → l.Nodup) (nodup : as.Nodup)
    (trails : ∀ b ∈ as, Trail next roots b t) (whole : walks (walk next n) as = some l) : l.Nodup := by
  induction as generalizing l with
  | nil =>
    cases whole
    exact List.nodup_nil
  | cons b as ih =>
    obtain ⟨l1,l2,first,second,rfl⟩ := walks_cons whole
    obtain ⟨other,nodup⟩ := List.nodup_cons.mp nodup
    refine List.nodup_append.mpr ⟨each b List.mem_cons_self l1 first,ih
      (fun c member => each c (List.mem_cons_of_mem _ member)) nodup
      (fun c member => trails c (List.mem_cons_of_mem _ member)) second,?_⟩
    rintro x here y later rfl
    obtain ⟨c,there,lc,walked,found⟩ := walks_mem second later
    obtain ⟨u,trail,through⟩ := walk_trail first (trails b List.mem_cons_self) here
    obtain ⟨u',trail',through'⟩ := walk_trail walked (trails c (List.mem_cons_of_mem _ there)) found
    rw [tree.trail_unique trail' trail] at through'
    have same := List.suffix_of_suffix_length_le through through' (Nat.le_refl _)
    have same := same.eq_of_length rfl
    cases same
    exact other there

theorem walk_nodup (trail : Trail next roots a t) (whole : walk next n a = some l) : l.Nodup := by
  induction n generalizing a t l with
  | zero => cases whole
  | succ n ih =>
    obtain ⟨l',below,rfl⟩ := walk_succ whole
    refine List.nodup_cons.mpr ⟨fun member => ?_,tree.walks_nodup (t := a :: t) ?_ (tree.below a ⟨t,trail⟩)
      (fun b child => trail.step child) below⟩
    · obtain ⟨c,child,lc,walked,found⟩ := walks_mem below member
      obtain ⟨u,again,through⟩ := walk_trail walked (trail.step child) found
      rw [← tree.trail_unique trail again] at through
      have := through.length_le
      simp only [List.length_cons] at this
      omega
    · exact fun b child l found => ih (trail.step child) found

end Treelike

/-- Over finitely many nodes: the walk ends without a node twice exactly for what looks like a tree. -/
theorem walks_iff {nodes : List α} (all : ∀ a, Reach next roots a → a ∈ nodes) :
    (∃ n l, walks (walk next n) roots = some l ∧ l.Nodup) ↔ Treelike next roots := by
  constructor
  · rintro ⟨n,l,whole,once⟩
    exact treelike_of_nodup whole once
  · intro tree
    have ends : (walks (walk next nodes.length) roots).isSome = true :=
      walks_all fun a root => tree.walk_ends all (.root root) (Nat.le_add_right ..)
    obtain ⟨l,whole⟩ := Option.isSome_iff_exists.mp ends
    refine ⟨nodes.length,l,whole,tree.walks_nodup ?_ tree.nodup (fun b root => .root root) whole⟩
    exact fun b root l found => tree.walk_nodup (.root root) found

end Descent
