import Mathlib.Data.List.Basic

/-! Doubly linked lists: two functions that name the neighbours of a node, with a null
address at both ends. -/
namespace Links

variable {α : Type} (null : α) (prev next : α → α)

/-- The nodes are linked in this order, the first with `p` before it. -/
def Linked : α → List α → Prop
  | _, [] => True
  | p, a :: l => prev a = p ∧ next a = l.headD null ∧ Linked a l

variable {null prev next} {prev' next' : α → α} {p a n : α} {l front back : List α}

theorem mem_beside (there : a ∈ front ++ back) : a ∈ front ++ n :: back :=
  List.perm_middle.mem_iff.mpr (List.mem_cons_of_mem n there)

theorem Linked.congr (linked : Linked null prev next p l)
    (same : ∀ a ∈ l, prev' a = prev a ∧ next' a = next a) : Linked null prev' next' p l := by
  induction l generalizing p with
  | nil => trivial
  | cons a l ih =>
    obtain ⟨before,after,rest⟩ := linked
    obtain ⟨samePrev,sameNext⟩ := same a (List.mem_cons_self ..)
    exact ⟨samePrev.trans before,sameNext.trans after,ih rest fun b hb => same b (List.mem_cons_of_mem a hb)⟩

/-- The neighbours of a node. -/
theorem Linked.node (linked : Linked null prev next p (front ++ a :: back)) :
    prev a = front.getLastD p ∧ next a = back.headD null := by
  induction front generalizing p with
  | nil => exact ⟨linked.1,linked.2.1⟩
  | cons b front ih =>
    rw [List.getLastD_cons]
    exact ih linked.2.2

theorem Linked.suffix (linked : Linked null prev next p (front ++ back)) :
    Linked null prev next (front.getLastD p) back := by
  induction front generalizing p with
  | nil => exact linked
  | cons b front ih =>
    rw [List.getLastD_cons]
    exact ih linked.2.2

/-- The first node gets another one before it. -/
theorem Linked.reprev (linked : Linked null prev next p l) (behind : ∀ a ∈ l, next' a = next a)
    (first : ∀ a l', l = a :: l' → prev' a = n ∧ ∀ b ∈ l', prev' b = prev b) :
    Linked null prev' next' n l := by
  cases l with
  | nil => trivial
  | cons a l =>
    obtain ⟨here,rest⟩ := first a l rfl
    refine ⟨here,(behind a (List.mem_cons_self ..)).trans linked.2.1,linked.2.2.congr fun b hb => ?_⟩
    exact ⟨rest b hb,behind b (List.mem_cons_of_mem a hb)⟩

/-- What links the nodes of `front` to a node `n`, or to the null address, behind them. -/
structure Joins (prev next prev' next' : α → α) (front : List α) (n : α) : Prop where
  prev : ∀ a ∈ front, prev' a = prev a
  next : ∀ a ∈ front.dropLast, next' a = next a
  last : ∀ h : front ≠ [], next' (front.getLast h) = n

theorem Joins.tail (joins : Joins prev next prev' next' (a :: front) n) : Joins prev next prev' next' front n where
  prev b hb := joins.prev b (List.mem_cons_of_mem a hb)
  next b hb := by
    cases front with
    | nil => cases hb
    | cons c front => exact joins.next b (List.mem_cons_of_mem a hb)
  last h := by
    have last := joins.last (List.cons_ne_nil a front)
    rwa [List.getLast_cons h] at last

/-- The nodes of `front` keep their order, and `l` comes behind them. -/
theorem Linked.join {rest : List α} (linked : Linked null prev next p (front ++ rest))
    (joins : Joins prev next prev' next' front (l.headD null))
    (behind : Linked null prev' next' (front.getLastD p) l) : Linked null prev' next' p (front ++ l) := by
  induction front generalizing p with
  | nil => exact behind
  | cons a front ih =>
    rw [List.getLastD_cons] at behind
    refine ⟨(joins.prev a (List.mem_cons_self ..)).trans linked.1,?_,ih linked.2.2 joins.tail behind⟩
    cases front with
    | nil => exact joins.last (List.cons_ne_nil a [])
    | cons b front => exact (joins.next a (List.mem_cons_self ..)).trans linked.2.1

/-- A new node between two neighbours, of which there may be none. -/
theorem Linked.insert (linked : Linked null prev next p (front ++ back))
    (joins : Joins prev next prev' next' front n) (before : prev' n = front.getLastD p)
    (after : next' n = back.headD null) (behind : ∀ a ∈ back, next' a = next a)
    (first : ∀ a l', back = a :: l' → prev' a = n ∧ ∀ b ∈ l', prev' b = prev b) :
    Linked null prev' next' p (front ++ n :: back) :=
  linked.join (l := n :: back) joins ⟨before,after,linked.suffix.reprev behind first⟩

/-- A node out of the list. -/
theorem Linked.remove (linked : Linked null prev next p (front ++ n :: back))
    (joins : Joins prev next prev' next' front (back.headD null)) (behind : ∀ a ∈ back, next' a = next a)
    (first : ∀ a l', back = a :: l' → prev' a = front.getLastD p ∧ ∀ b ∈ l', prev' b = prev b) :
    Linked null prev' next' p (front ++ back) := by
  have rest : Linked null prev next n back := linked.suffix.2.2
  exact linked.join joins (rest.reprev behind first)

/-- The neighbours of a place are set to `n`, or to what comes on the other side of it. -/
structure Sets (prev next prev' next' : α → α) (front back : List α) (first last : α) : Prop where
  prev : ∀ a ∈ front ++ back, prev' a = prev a ∨ back.head? = some a
  next : ∀ a ∈ front ++ back, next' a = next a ∨ front.getLast? = some a
  first : ∀ a, back.head? = some a → prev' a = first
  last : ∀ a, front.getLast? = some a → next' a = last

/-- The same with a null address for no neighbour. -/
theorem Sets.of_ite [DecidableEq α] {first last : α} (some_ : ∀ a ∈ front ++ back, a ≠ null)
    (prevs : ∀ a ∈ front ++ back, prev' a = if a = back.headD null then first else prev a)
    (nexts : ∀ a ∈ front ++ back, next' a = if a = front.getLastD null then last else next a) :
    Sets prev next prev' next' front back first last where
  prev a ha := by
    rw [prevs a ha]
    by_cases here : a = back.headD null
    · cases back with
      | nil => exact absurd here (some_ a ha)
      | cons b back => exact .inr (congrArg some here.symm)
    · exact .inl (if_neg here)
  next a ha := by
    rw [nexts a ha]
    by_cases here : a = front.getLastD null
    · rcases List.eq_nil_or_concat front with rfl | ⟨init,b,rfl⟩
      · exact absurd here (some_ a ha)
      · rw [List.concat_eq_append,List.getLastD_concat] at here
        rw [List.concat_eq_append,List.getLast?_concat]
        exact .inr (congrArg some here.symm)
    · exact .inl (if_neg here)
  first a there := by
    cases back with
    | nil => cases there
    | cons b back =>
      obtain rfl := Option.some.inj there
      rw [prevs b (List.mem_append_right front (List.mem_cons_self ..))]
      exact if_pos rfl
  last a there := by
    rw [nexts a (List.mem_append_left back (List.mem_of_getLast? there)),List.getLastD_eq_getLast?,there]
    exact if_pos rfl

theorem Sets.joins {first last : α} (sets : Sets prev next prev' next' front back first last)
    (nodup : (front ++ back).Nodup) : Joins prev next prev' next' front last where
  prev a ha := by
    rcases sets.prev a (List.mem_append_left back ha) with same | head
    · exact same
    · exact absurd rfl (List.nodup_append.mp nodup |>.2.2 a ha a (List.mem_of_head? head))
  next a ha := by
    rcases sets.next a (List.mem_append_left back ((List.dropLast_subset front) ha)) with same | end_
    · exact same
    · obtain ⟨init,rfl⟩ := List.getLast?_eq_some_iff.mp end_
      rw [List.dropLast_concat] at ha
      have apart := (List.nodup_append.mp (List.nodup_append.mp nodup).1).2.2
      exact absurd rfl (apart a ha a (List.mem_singleton_self a))
  last h := sets.last _ (List.getLast?_eq_some_getLast h)

theorem Sets.behind {first last : α} (sets : Sets prev next prev' next' front back first last)
    (nodup : (front ++ back).Nodup) (ha : a ∈ back) : next' a = next a := by
  rcases sets.next a (List.mem_append_right front ha) with same | end_
  · exact same
  · exact absurd rfl (List.nodup_append.mp nodup |>.2.2 a (List.mem_of_getLast? end_) a ha)

theorem Sets.heads {first last : α} (sets : Sets prev next prev' next' front back first last)
    (nodup : (front ++ back).Nodup) (a : α) (l' : List α) (split : back = a :: l') :
    prev' a = first ∧ ∀ b ∈ l', prev' b = prev b := by
  subst split
  refine ⟨sets.first a rfl,fun b hb => ?_⟩
  rcases sets.prev b (List.mem_append_right front (List.mem_cons_of_mem a hb)) with same | head
  · exact same
  · cases head
    exact absurd hb (List.nodup_cons.mp (List.nodup_append.mp nodup).2.1).1

theorem Linked.insert_sets (linked : Linked null prev next p (front ++ back)) (nodup : (front ++ back).Nodup)
    (sets : Sets prev next prev' next' front back n n) (before : prev' n = front.getLastD p)
    (after : next' n = back.headD null) : Linked null prev' next' p (front ++ n :: back) :=
  linked.insert (sets.joins nodup) before after (fun _ => sets.behind nodup) (sets.heads nodup)

theorem Linked.remove_sets (linked : Linked null prev next p (front ++ n :: back)) (nodup : (front ++ back).Nodup)
    (sets : Sets prev next prev' next' front back (front.getLastD p) (back.headD null)) :
    Linked null prev' next' p (front ++ back) :=
  linked.remove (sets.joins nodup) (fun _ => sets.behind nodup) (sets.heads nodup)

end Links
