import Mathlib.Logic.Basic
import Mathlib.Data.List.Basic

/-! Trees of fixed-fanout tables kept in one store and reached from several roots.
An entry either names a child table or does not; `depth` is the length of the
longest path that still ends at a table. A store is separated when no table is
reached twice, from one root or from two. -/
namespace Forest

variable {α ι ε : Type}

abbrev Store (α ι ε : Type) := α → ι → ε

def put [DecidableEq α] [DecidableEq ι] (m : Store α ι ε) (p : α) (i : ι) (e : ε) : Store α ι ε :=
  fun q j => if q = p ∧ j = i then e else m q j

/-- Overwrite a whole table. -/
def fill [DecidableEq α] (m : Store α ι ε) (p : α) (t : ι → ε) : Store α ι ε :=
  fun q => if q = p then t else m q

/-- Follow a path of indices from a root to a table. -/
def walk (child : ε → Option α) (m : Store α ι ε) : α → List ι → Option α
  | r, [] => some r
  | r, i :: path => (child (m r i)).bind fun c => walk child m c path

variable {child : ε → Option α} {m m' : Store α ι ε} {depth : Nat} {roots : List α}
  {U : α → Prop}

@[simp] theorem walk_nil (r : α) : walk child m r [] = some r := rfl

theorem walk_cons (r : α) (i : ι) (path : List ι) :
    walk child m r (i :: path) = (child (m r i)).bind fun c => walk child m c path := rfl

theorem walk_append (r : α) (a b : List ι) :
    walk child m r (a ++ b) = (walk child m r a).bind fun c => walk child m c b := by
  induction a generalizing r with
  | nil => rfl
  | cons i a ih =>
    simp only [List.cons_append,walk_cons,ih]
    cases child (m r i) <;> rfl

theorem walk_snoc (r : α) (a : List ι) (i : ι) :
    walk child m r (a ++ [i]) = (walk child m r a).bind fun c => child (m c i) := by
  rw [walk_append]
  congr 1; funext c
  simp only [walk_cons,walk_nil]
  cases child (m c i) <;> rfl

/-- A walk depends only on the child pointers of the entries it crosses. -/
theorem walk_congr (r : α) (q : List ι)
    (same : ∀ a i b p, q = a ++ i :: b → walk child m r a = some p →
      child (m' p i) = child (m p i)) :
    walk child m' r q = walk child m r q := by
  induction q generalizing r with
  | nil => rfl
  | cons i q ih =>
    have here : child (m' r i) = child (m r i) := same [] i q r rfl rfl
    rw [walk_cons,walk_cons,here]
    cases step : child (m r i) with
    | none => rfl
    | some c =>
      apply ih c
      intro a j b p split reached
      exact same (i :: a) j b p (by rw [split]; rfl) (by rw [walk_cons,step]; exact reached)

/-- The entry at index `i` of the table at the end of a path. -/
def read (child : ε → Option α) (m : Store α ι ε) (r : α) (path : List ι) (i : ι) : Option ε :=
  (walk child m r path).map fun p => m p i

/-- The tables hanging under a root. -/
def Reach (child : ε → Option α) (m : Store α ι ε) (depth : Nat) (r p : α) : Prop :=
  ∃ a : List ι, a.length ≤ depth ∧ walk child m r a = some p

/-- Every table has one path: from one root, by one list of indices. -/
def Separated (child : ε → Option α) (m : Store α ι ε) (depth : Nat) (roots : List α) : Prop :=
  ∀ ⦃r s⦄, r ∈ roots → s ∈ roots → ∀ ⦃a b p⦄, a.length ≤ depth → b.length ≤ depth →
    walk child m r a = some p → walk child m s b = some p → r = s ∧ a = b

/-- A separated store whose tables all lie in `U`, the tables in use. -/
structure Valid (child : ε → Option α) (m : Store α ι ε) (depth : Nat) (roots : List α)
    (U : α → Prop) : Prop where
  separated : Separated child m depth roots
  inside : ∀ ⦃r⦄, r ∈ roots → ∀ ⦃a p⦄, a.length ≤ depth → walk child m r a = some p → U p

theorem Valid.mono {V : α → Prop} (valid : Valid child m depth roots U) (sub : ∀ p, U p → V p) :
    Valid child m depth roots V :=
  ⟨valid.separated,fun _ hr _ _ ha hw => sub _ (valid.inside hr ha hw)⟩

theorem Valid.subset {fewer : List α} (valid : Valid child m depth roots U)
    (sub : ∀ r ∈ fewer, r ∈ roots) : Valid child m depth fewer U :=
  ⟨fun _ _ hr hs => valid.separated (sub _ hr) (sub _ hs),fun _ hr => valid.inside (sub _ hr)⟩

theorem Valid.root (valid : Valid child m depth roots U) {r : α} (hr : r ∈ roots) : U r :=
  valid.inside hr (a := []) (Nat.zero_le _) rfl

theorem length_lt_of_split {a b q : List ι} {i : ι} (split : q = a ++ i :: b) :
    a.length < q.length := by
  subst split; simp

/-- Stores that agree on the tables in use have the same walks, one step past
the deepest tables included. -/
theorem Valid.walk_agree (valid : Valid child m depth roots U)
    (agree : ∀ p, U p → m' p = m p) {r : α} (hr : r ∈ roots) {q : List ι}
    (short : q.length ≤ depth + 1) : walk child m' r q = walk child m r q := by
  apply walk_congr
  intro a i b p split reached
  have := length_lt_of_split split
  rw [agree p (valid.inside hr (by omega) reached)]

theorem Valid.agree (valid : Valid child m depth roots U) (agree : ∀ p, U p → m' p = m p) :
    Valid child m' depth roots U := by
  have same {r : α} (hr : r ∈ roots) {q : List ι} (short : q.length ≤ depth) :
      walk child m' r q = walk child m r q := valid.walk_agree agree hr (by omega)
  constructor
  · intro r s hr hs a b p ha hb wa wb
    rw [same hr ha] at wa
    rw [same hs hb] at wb
    exact valid.separated hr hs ha hb wa wb
  · intro r hr a p ha wa
    rw [same hr ha] at wa
    exact valid.inside hr ha wa

/-- A change confined to the tree of one root and to tables not in use is not seen
from another root. -/
theorem Valid.walk_frame (valid : Valid child m depth roots U) {r s : α} (hr : r ∈ roots)
    (hs : s ∈ roots) (other : s ≠ r)
    (same : ∀ p, U p → ¬Reach child m depth r p → m' p = m p) {q : List ι}
    (short : q.length ≤ depth + 1) : walk child m' s q = walk child m s q := by
  apply walk_congr
  intro a i b p split reached
  have := length_lt_of_split split
  rw [same p (valid.inside hs (by omega) reached)]
  rintro ⟨c,hc,reach⟩
  exact other (valid.separated hs hr (by omega) hc reached reach).1

theorem Valid.read_frame (valid : Valid child m depth roots U) {r s : α} (hr : r ∈ roots)
    (hs : s ∈ roots) (other : s ≠ r)
    (same : ∀ p, U p → ¬Reach child m depth r p → m' p = m p) {q : List ι}
    (short : q.length ≤ depth) (i : ι) : read child m' s q i = read child m s q i := by
  rw [read,read,valid.walk_frame hr hs other same (by omega)]
  cases reached : walk child m s q with
  | none => rfl
  | some p =>
    have apart : ¬Reach child m depth r p := by
      rintro ⟨c,hc,reach⟩
      exact other (valid.separated hs hr short hc reached reach).1
    simp only [Option.map_some,same p (valid.inside hs short reached) apart]

/-- Entries of the deepest tables name no table: changing one of those tables
keeps every walk. -/
theorem Valid.walk_leaf (valid : Valid child m depth roots U) {r : α} (hr : r ∈ roots)
    {q : List ι} {p : α} (at_leaf : q.length = depth) (reach : walk child m r q = some p)
    (same : ∀ x, x ≠ p → m' x = m x) {s : α} (hs : s ∈ roots) {a : List ι}
    (short : a.length ≤ depth) : walk child m' s a = walk child m s a := by
  apply walk_congr
  intro b j c x split reached
  have shorter := length_lt_of_split split
  by_cases leaf : x = p
  · subst leaf
    have paths := (valid.separated hs hr (by omega) (by omega) reached reach).2
    rw [paths] at shorter
    omega
  · rw [same x leaf]

theorem Valid.leaf (valid : Valid child m depth roots U) {r : α} (hr : r ∈ roots)
    {q : List ι} {p : α} (at_leaf : q.length = depth) (reach : walk child m r q = some p)
    (same : ∀ x, x ≠ p → m' x = m x) : Valid child m' depth roots U := by
  have walks {s : α} (hs : s ∈ roots) {a : List ι} (short : a.length ≤ depth) :=
    valid.walk_leaf hr at_leaf reach same hs short
  constructor
  · intro s t hs ht a b x ha hb wa wb
    rw [walks hs ha] at wa
    rw [walks ht hb] at wb
    exact valid.separated hs ht ha hb wa wb
  · intro s hs a x ha wa
    rw [walks hs ha] at wa
    exact valid.inside hs ha wa

/-- What is read elsewhere does not change. -/
theorem Valid.read_leaf (valid : Valid child m depth roots U) {r : α} (hr : r ∈ roots)
    {q : List ι} {p : α} (at_leaf : q.length = depth) (reach : walk child m r q = some p)
    (same : ∀ x, x ≠ p → m' x = m x) {s : α} (hs : s ∈ roots) {a : List ι}
    (short : a.length ≤ depth) (other : ¬(s = r ∧ a = q)) (j : ι) :
    read child m' s a j = read child m s a j := by
  rw [read,read,valid.walk_leaf hr at_leaf reach same hs short]
  cases reached : walk child m s a with
  | none => rfl
  | some x =>
    have elsewhere : x ≠ p := by
      rintro rfl
      exact other (valid.separated hs hr short (by omega) reached reach)
    simp only [Option.map_some,same x elsewhere]

/-- Without the root `r`, none of its tables is in use. -/
theorem Valid.drop_root (valid : Valid child m depth roots U) {r : α} (hr : r ∈ roots)
    {fewer : List α} (sub : ∀ s ∈ fewer, s ∈ roots ∧ s ≠ r) :
    Valid child m depth fewer fun p => U p ∧ ¬Reach child m depth r p := by
  refine ⟨fun s t hs ht => valid.separated (sub s hs).1 (sub t ht).1,?_⟩
  intro s hs a p ha wa
  refine ⟨valid.inside (sub s hs).1 ha wa,?_⟩
  rintro ⟨b,hb,wb⟩
  exact (sub s hs).2 (valid.separated (sub s hs).1 hr ha hb wa wb).1

section Update
variable [DecidableEq α]

@[simp] theorem fill_same (m : Store α ι ε) (p : α) (t : ι → ε) : fill m p t p = t := by
  simp [fill]

theorem fill_other (m : Store α ι ε) {p q : α} (t : ι → ε) (h : q ≠ p) : fill m p t q = m q := by
  simp [fill,h]

variable [DecidableEq ι]

@[simp] theorem put_same (m : Store α ι ε) (p : α) (i : ι) (e : ε) : put m p i e p i = e := by
  simp [put]

theorem put_other (m : Store α ι ε) {p q : α} {i j : ι} (e : ε) (h : ¬(q = p ∧ j = i)) :
    put m p i e q j = m q j := by
  simp [put,h]

theorem put_page (m : Store α ι ε) {p q : α} (i : ι) (e : ε) (h : q ≠ p) :
    put m p i e q = m q := by
  funext j; simp [put,h]

@[simp] theorem put_put (m : Store α ι ε) (p : α) (i : ι) (e e' : ε) :
    put (put m p i e) p i e' = put m p i e' := by
  funext q j
  by_cases same : q = p ∧ j = i <;> simp [put,same]

/-- A change that keeps every child pointer keeps every walk. -/
theorem walk_put_child {p : α} {i : ι} {e : ε} (same : child e = child (m p i)) (r : α)
    (q : List ι) : walk child (put m p i e) r q = walk child m r q := by
  apply walk_congr
  intro a j b x split reached
  by_cases at_entry : x = p ∧ j = i
  · obtain ⟨rfl,rfl⟩ := at_entry
    rw [put_same,same]
  · rw [put_other m e at_entry]

theorem Valid.put_child (valid : Valid child m depth roots U) {p : α} {i : ι} {e : ε}
    (same : child e = child (m p i)) : Valid child (put m p i e) depth roots U := by
  constructor
  · intro r s hr hs a b x ha hb wa wb
    rw [walk_put_child same] at wa wb
    exact valid.separated hr hs ha hb wa wb
  · intro r hr a x ha wa
    rw [walk_put_child same] at wa
    exact valid.inside hr ha wa

/-- Such a change below the deepest tables is not read there either. -/
theorem Valid.read_put_child (valid : Valid child m depth roots U) {r : α} (hr : r ∈ roots)
    {q : List ι} {p : α} (inner : q.length < depth) (reach : walk child m r q = some p) {i : ι}
    {e : ε} (same : child e = child (m p i)) {s : α} (hs : s ∈ roots) {a : List ι}
    (deep : a.length = depth) (j : ι) :
    read child (put m p i e) s a j = read child m s a j := by
  rw [read,read,walk_put_child same]
  cases reached : walk child m s a with
  | none => rfl
  | some x =>
    have elsewhere : x ≠ p := by
      rintro rfl
      have paths := (valid.separated hs hr (by omega) (by omega) reached reach).2
      rw [paths] at deep
      omega
    simp only [Option.map_some,put_page m i e elsewhere]

section Install
variable (valid : Valid child m depth roots U) {r : α} (hr : r ∈ roots) {q : List ι} {p : α}
  (reach : walk child m r q = some p) (inner : q.length < depth) {i : ι} {e : ε} {c : α}
  (absent : child (m p i) = none) (names : child e = some c) (fresh : ¬U c)
  (empty : ∀ j, child (m c j) = none)
include valid hr reach inner absent names fresh empty

/-- Hanging a fresh empty table under an absent entry adds exactly one path. -/
theorem Valid.walk_install {s : α} (hs : s ∈ roots) {a : List ι} (short : a.length ≤ depth) :
    walk child (put m p i e) s a =
      if s = r ∧ a = q ++ [i] then some c else walk child m s a := by
  have distinct : c ≠ p := by
    intro same
    exact fresh (same ▸ valid.inside hr (Nat.le_of_lt inner) reach)
  -- the path to `p` itself crosses no changed entry
  have upto : walk child (put m p i e) r q = some p := by
    rw [← reach]
    apply walk_congr
    intro b j d x split reached
    have shorter := length_lt_of_split split
    by_cases same : x = p
    · subst same
      have paths := (valid.separated hr hr (by omega) (by omega) reached reach).2
      rw [paths] at shorter
      omega
    · rw [put_page m i e same]
  by_cases through : s = r ∧ ∃ t, a = q ++ i :: t
  · obtain ⟨rfl,t,rfl⟩ := through
    have new : walk child (put m p i e) s (q ++ i :: t) =
        walk child (put m p i e) c t := by
      rw [walk_append,upto]
      simp only [Option.bind_some,walk_cons,put_same,names]
    cases t with
    | nil => rw [new]; simp
    | cons j t =>
      have old : walk child m s (q ++ i :: j :: t) = none := by
        rw [walk_append,reach]
        simp only [Option.bind_some,walk_cons,absent,Option.bind_none]
      rw [new,walk_cons,put_page m i e distinct,empty j,old]
      simp
  · have other : ¬(s = r ∧ a = q ++ [i]) := by
      rintro ⟨hs,ha⟩
      exact through ⟨hs,[],ha⟩
    rw [if_neg other]
    apply walk_congr
    intro b j d x split reached
    have shorter := length_lt_of_split split
    by_cases at_entry : x = p ∧ j = i
    · obtain ⟨rfl,rfl⟩ := at_entry
      obtain ⟨rfl,rfl⟩ := valid.separated hs hr (by omega) (by omega) reached reach
      exact absurd ⟨rfl,d,split⟩ through
    · rw [put_other m e at_entry]

theorem Valid.install : Valid child (put m p i e) depth roots (fun x => U x ∨ x = c) := by
  have walks {s : α} (hs : s ∈ roots) {a : List ι} (short : a.length ≤ depth) :=
    valid.walk_install hr reach inner absent names fresh empty hs short
  constructor
  · intro s t hs ht a b x ha hb wa wb
    rw [walks hs ha] at wa
    rw [walks ht hb] at wb
    split at wa <;> split at wb
    · next h h' => exact ⟨h.1.trans h'.1.symm,h.2.trans h'.2.symm⟩
    · cases wa
      exact absurd (valid.inside ht hb wb) fresh
    · cases wb
      exact absurd (valid.inside hs ha wa) fresh
    · exact valid.separated hs ht ha hb wa wb
  · intro s hs a x ha wa
    rw [walks hs ha] at wa
    split at wa
    · cases wa; exact .inr rfl
    · exact .inl (valid.inside hs ha wa)

theorem Valid.read_install {s : α} (hs : s ∈ roots) {a : List ι} (deep : a.length = depth)
    (j : ι) : read child (put m p i e) s a j =
      if s = r ∧ a = q ++ [i] then some (m c j) else read child m s a j := by
  have distinct : c ≠ p := by
    intro same
    exact fresh (same ▸ valid.inside hr (Nat.le_of_lt inner) reach)
  rw [read,read,valid.walk_install hr reach inner absent names fresh empty hs (by omega)]
  split
  · simp only [Option.map_some,put_page m i e distinct]
  · cases reached : walk child m s a with
    | none => rfl
    | some x =>
      have elsewhere : x ≠ p := by
        rintro rfl
        have paths := (valid.separated hs hr (by omega) (by omega) reached reach).2
        rw [paths] at deep
        omega
      simp only [Option.map_some,put_page m i e elsewhere]

end Install

end Update

/-- An empty table outside the tables in use can become a root. -/
theorem Valid.add_root (valid : Valid child m depth roots U) {c : α} (fresh : ¬U c)
    (empty : ∀ j, child (m c j) = none) :
    Valid child m depth (c :: roots) (fun x => U x ∨ x = c) := by
  have stuck {a : List ι} {x : α} (wa : walk child m c a = some x) : a = [] ∧ x = c := by
    cases a with
    | nil => exact ⟨rfl,(Option.some.inj wa).symm⟩
    | cons i a => simp [walk_cons,empty i] at wa
  have within {s : α} (hs : s ∈ roots) {a : List ι} (ha : a.length ≤ depth)
      (wa : walk child m s a = some c) : False := fresh (valid.inside hs ha wa)
  constructor
  · intro s t hs ht a b x ha hb wa wb
    rcases List.mem_cons.mp hs with rfl | olds <;> rcases List.mem_cons.mp ht with rfl | oldt
    · exact ⟨rfl,(stuck wa).1.trans (stuck wb).1.symm⟩
    · obtain ⟨_,rfl⟩ := stuck wa
      exact (within oldt hb wb).elim
    · obtain ⟨_,rfl⟩ := stuck wb
      exact (within olds ha wa).elim
    · exact valid.separated olds oldt ha hb wa wb
  · intro s hs a x ha wa
    rcases List.mem_cons.mp hs with rfl | hs
    · exact .inr (stuck wa).2
    · exact .inl (valid.inside hs ha wa)

end Forest
