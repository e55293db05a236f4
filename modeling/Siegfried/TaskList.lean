import Siegfried.Ring

/-! The circular list of tasks (`tasks.c`). -/
namespace Siegfried

/-- The fields of `task` that the list functions use; tasks are named by address. -/
structure Task where
  next : Nat
  tid : Nat
  krnlStackBase : Nat
  pageTab : Nat

/-- `tasks`, `curr_task` and `tid_counter`, with the tasks in memory. -/
structure TaskList where
  task : Nat → Task
  tasks : Nat
  currTask : Nat
  tidCounter : Nat

def TaskList.next (t : TaskList) (a : Nat) : Nat := (t.task a).next

def TaskList.set (t : TaskList) (a : Nat) (new : Task) : TaskList :=
  { t with task := Function.update t.task a new }

def TaskList.setNext (t : TaskList) (a next : Nat) : TaskList :=
  t.set a { t.task a with next := next }

/-- What `task_new` does to the list, with the task and its stack that it allocated. -/
def taskNew (fuel : Nat) (t : TaskList) (new stack : Nat) : Option TaskList := do
  let t ←
    if t.tasks = 0 then some ({ t with tasks := new }.setNext new new)
    else do
      let curr ← Ring.before t.next t.tasks fuel t.tasks
      some ((t.setNext curr new).setNext new t.tasks)
  let tid := t.tidCounter + 1
  some { t.set new { t.task new with krnlStackBase := stack, tid := tid } with tidCounter := tid }

def findFrom (t : TaskList) (tid : Nat) : Nat → Nat → Option (Option Nat)
  | 0, _ => none
  | fuel+1, it =>
    if (t.task it).tid = tid then some (some it)
    else if t.next it = t.tasks then some none
    else findFrom t tid fuel (t.next it)

def taskFindByTid (fuel : Nat) (t : TaskList) (tid : Nat) : Option (Option Nat) :=
  findFrom t tid fuel t.tasks

/-- The end of `task_cleanup_zombie`: `none` where a loop finds nothing. -/
def unlinkCurrTask (fuel : Nat) (t : TaskList) : Option TaskList := do
  let next := t.next t.currTask
  let prev ← Ring.before t.next t.currTask fuel t.tasks
  let t := t.setNext prev next
  if t.currTask = t.tasks then
    let iter ← Ring.before t.next t.tasks fuel t.tasks
    if iter = t.tasks then none
    else
      let t := t.setNext iter (t.next t.tasks)
      let t := { t with tasks := t.next t.tasks }
      some { t with currTask := t.tasks }
  else some t

/-- The list part of `task_cleanup_zombie`, whose guards loop. -/
def taskCleanupZombie (fuel : Nat) (krnlTab : Nat) (t : TaskList) : Option TaskList :=
  let dead := t.task t.currTask
  if dead.krnlStackBase = 0xDEADBEEF then none
  else
    let t := t.set t.currTask { dead with krnlStackBase := 0xDEADBEEF }
    if dead.pageTab = krnlTab then none else unlinkCurrTask fuel t

/-- The list reachable from `tasks` is the ring `c`. -/
def TaskList.Ring (t : TaskList) (c : Cycle Nat) : Prop := Ring.Around t.next c ∧ t.tasks ∈ c

/-- The walks of `task_new` and `task_find_by_tid` end. -/
def TaskList.Walks (t : TaskList) : Prop :=
  (∃ fuel, (Ring.before t.next t.tasks fuel t.tasks).isSome) ∧
    ∀ tid, ∃ fuel, (taskFindByTid fuel t tid).isSome

/-- None of the guards of `task_cleanup_zombie` stops for this task. -/
def Task.Cleanable (krnlTab : Nat) (d : Task) : Prop :=
  d.krnlStackBase ≠ 0xDEADBEEF ∧ d.pageTab ≠ krnlTab

variable {t t' : TaskList} {a n x : Nat} {l : List Nat} {c : Cycle Nat}

@[simp] theorem TaskList.setNext_tasks : (t.setNext a n).tasks = t.tasks := rfl
@[simp] theorem TaskList.setNext_currTask : (t.setNext a n).currTask = t.currTask := rfl

@[simp] theorem TaskList.setNext_next : (t.setNext a n).next = Function.update t.next a n := by
  funext b
  by_cases same : b = a
  · subst same
    simp [TaskList.next,TaskList.setNext,TaskList.set]
  · simp [TaskList.next,TaskList.setNext,TaskList.set,same]

theorem TaskList.set_next {d : Task} (same : d.next = t.next a) : (t.set a d).next = t.next := by
  funext b
  by_cases here : b = a
  · subst here
    simpa [TaskList.next,TaskList.set] using same
  · simp [TaskList.next,TaskList.set,here]

theorem TaskList.Ring.from_tasks (ring : t.Ring c) :
    ∃ l : List Nat, t.Ring (t.tasks :: l : List Nat) := by
  obtain ⟨around,member⟩ := ring
  induction c using Quotient.inductionOn with | _ xs
  obtain ⟨front,back,rfl⟩ := List.append_of_mem (Cycle.mem_coe_iff.mp member)
  have rotated : ((front ++ t.tasks :: back : List Nat) : Cycle Nat) =
      (t.tasks :: (back ++ front) : List Nat) := Cycle.coe_eq_coe.mpr ⟨front.length,by simp⟩
  refine ⟨back ++ front,?_,Cycle.mem_coe_iff.mpr (List.mem_cons_self ..)⟩
  rw [← rotated]
  exact around

theorem findFrom_chain {tid : Nat} (chain : (x :: (l ++ [t.tasks])).IsChain fun a b => t.next a = b) :
    ∃ fuel, (findFrom t tid fuel x).isSome := by
  induction l generalizing x with
  | nil =>
    rw [List.nil_append,List.isChain_cons_cons] at chain
    refine ⟨1,?_⟩
    rw [findFrom,chain.1]
    split
    · rfl
    · rw [if_pos rfl]
      rfl
  | cons a l ih =>
    rw [List.cons_append,List.isChain_cons_cons] at chain
    obtain ⟨fuel,found⟩ := ih chain.2
    refine ⟨fuel + 1,?_⟩
    rw [findFrom,chain.1]
    split
    · rfl
    · split
      · rfl
      · exact found

theorem TaskList.Ring.walks (ring : t.Ring c) : t.Walks := by
  obtain ⟨l,around,member⟩ := ring.from_tasks
  refine ⟨?_,fun tid => findFrom_chain (Ring.around_cons.mp around).2⟩
  obtain ⟨fuel,found⟩ := around.before (Cycle.mem_coe_iff.mp member)
  exact ⟨fuel,by rw [found]; rfl⟩

/-- A new task goes in before the head. -/
theorem taskNew_ring (ring : t.Ring (t.tasks :: l : List Nat)) (head : t.tasks ≠ 0)
    (fresh : n ∉ t.tasks :: l) (stack : Nat) :
    ∃ fuel t', taskNew fuel t n stack = some t' ∧ t'.Ring (t.tasks :: (l ++ [n]) : List Nat) := by
  obtain ⟨fuel,last⟩ := ring.1.before (Cycle.mem_coe_iff.mp ring.2)
  have linked := ring.1.link fresh
  rw [← TaskList.setNext_next,← TaskList.setNext_next] at linked
  let u := (t.setNext (l.getLastD t.tasks) n).setNext n t.tasks
  refine ⟨fuel,{ u.set n { u.task n with krnlStackBase := stack, tid := u.tidCounter + 1 } with
    tidCounter := u.tidCounter + 1 },?_,?_,Cycle.mem_coe_iff.mpr (List.mem_cons_self ..)⟩
  · simp only [taskNew,if_neg head,last,Option.bind_eq_bind,Option.bind_some]
    rfl
  · have same : (u.set n { u.task n with krnlStackBase := stack, tid := u.tidCounter + 1 }).next =
        u.next := TaskList.set_next rfl
    rw [← same] at linked
    exact linked

variable {krnlTab : Nat}

/-- The dead task is unlinked, and not the head: the others stay a ring. -/
theorem unlinkCurrTask_ring (ring : t.Ring (t.currTask :: l : List Nat)) (others : l ≠ [])
    (body : t.currTask ≠ t.tasks) :
    ∃ fuel t', unlinkCurrTask fuel t = some t' ∧ t'.Ring l := by
  have member := Cycle.mem_coe_iff.mp ring.2
  obtain ⟨fuel,found⟩ := ring.1.before member
  refine ⟨fuel,t.setNext (l.getLastD t.currTask) (t.next t.currTask),?_,?_,?_⟩
  · simp only [unlinkCurrTask,found,Option.bind_eq_bind,Option.bind_some]
    exact if_neg body
  · rw [TaskList.setNext_next]
    exact ring.1.unlink others
  · exact Cycle.mem_coe_iff.mpr ((List.mem_cons.mp member).resolve_left body.symm)

/-- The dead task is the head: the loop that looks for the task before it stays among
the others, which no longer lead to it. -/
theorem unlinkCurrTask_head (ring : t.Ring (t.currTask :: l : List Nat)) (others : l ≠ [])
    (head : t.currTask = t.tasks) (fuel : Nat) : unlinkCurrTask fuel t = none := by
  obtain ⟨nodup,chain⟩ := Ring.around_cons.mp ring.1
  have dead : t.currTask ∉ l := (List.nodup_cons.mp nodup).1
  simp only [unlinkCurrTask,Option.bind_eq_bind,Option.bind_eq_none_iff,TaskList.setNext_tasks,
    TaskList.setNext_currTask,← head]
  intro prev found
  obtain ⟨_,last⟩ := ring.1.before (List.mem_cons_self ..)
  have last : prev = l.getLastD t.currTask := Ring.before_unique found last
  have around : Ring.Around (t.setNext prev (t.next t.currTask)).next l := by
    rw [TaskList.setNext_next,last]
    exact ring.1.unlink others
  have prev_mem : prev ∈ l := by
    rw [last]
    cases l with
    | nil => exact absurd rfl others
    | cons a l =>
      rw [List.getLastD_cons]
      exact Ring.getLastD_mem a l
  have first : t.next t.currTask ∈ l := by
    cases l with
    | nil => exact absurd rfl others
    | cons a l =>
      rw [List.cons_append,List.isChain_cons_cons] at chain
      rw [chain.1]
      exact List.mem_cons_self ..
  have next : (t.setNext prev (t.next t.currTask)).next t.currTask = t.next t.currTask := by
    rw [TaskList.setNext_next,Function.update_of_ne (ne_of_mem_of_not_mem prev_mem dead).symm]
  have never : Ring.before (t.setNext prev (t.next t.currTask)).next t.currTask fuel t.currTask =
      none := by
    refine Ring.before_none (p := fun a => a = t.currTask ∨ a ∈ l) ?_ (.inl rfl) fuel
    rintro a (rfl | member)
    · rw [next]
      exact ⟨ne_of_mem_of_not_mem first dead,.inr first⟩
    · have member := Cycle.mem_coe_iff.mp (around.next_mem (Cycle.mem_coe_iff.mpr member))
      exact ⟨ne_of_mem_of_not_mem member dead,.inr member⟩
  rw [if_pos trivial,never]
  rfl

/-- Marking the dead task changes no link. -/
theorem TaskList.Ring.marked (ring : t.Ring c) (mark : Nat) :
    (t.set a { t.task a with krnlStackBase := mark }).Ring c := by
  have same : (t.set a { t.task a with krnlStackBase := mark }).next = t.next :=
    TaskList.set_next rfl
  refine ⟨?_,ring.2⟩
  rw [same]
  exact ring.1

section Claim

/-- The dead task goes and the others stay exactly when no guard stops and it is not
the head. -/
theorem cleanup_zombie_iff (t : TaskList) (l : List Nat) (krnlTab : Nat)
    (ring : t.Ring (t.currTask :: l : List Nat)) (others : l ≠ []) :
    (∃ fuel t', taskCleanupZombie fuel krnlTab t = some t' ∧ t'.Ring l ∧ t'.Walks) ↔
      (t.task t.currTask).Cleanable krnlTab ∧ t.currTask ≠ t.tasks := by
  constructor
  · rintro ⟨fuel,t',returned,_⟩
    rw [taskCleanupZombie] at returned
    split at returned
    · cases returned
    · next unused =>
      split at returned
      · cases returned
      · next user =>
        refine ⟨⟨unused,user⟩,fun head => ?_⟩
        rw [unlinkCurrTask_head (ring.marked _) others head] at returned
        cases returned
  · rintro ⟨clean,body⟩
    obtain ⟨fuel,t',returned,ring'⟩ := unlinkCurrTask_ring (ring.marked 0xDEADBEEF) others body
    refine ⟨fuel,t',?_,ring',ring'.walks⟩
    rw [taskCleanupZombie,if_neg clean.1,if_neg clean.2]
    exact returned

/-- Of two tasks the second dies. -/
theorem cleanup_zombie_second :
    ∃ fuel t', taskCleanupZombie fuel 4096 ⟨fun a => ⟨if a = 1 then 2 else 1,a,8192,12288⟩,1,2,2⟩ =
      some t' ∧ t'.Ring [1] ∧ t'.Walks := by
  refine (cleanup_zombie_iff _ [1] 4096 ⟨?_,?_⟩ ?_).mpr ⟨⟨?_,?_⟩,?_⟩
  · exact Ring.around_cons.mpr (by simp [TaskList.next])
  all_goals simp

/-- Of two tasks the first dies. -/
theorem cleanup_zombie_first : ¬∀ (t : TaskList) (l : List Nat) (krnlTab : Nat),
    t.Ring (t.currTask :: l : List Nat) → l ≠ [] → (t.task t.currTask).Cleanable krnlTab →
      ∃ fuel t', taskCleanupZombie fuel krnlTab t = some t' ∧ t'.Ring l ∧ t'.Walks := by
  intro all
  have ring : TaskList.Ring ⟨fun a => ⟨if a = 1 then 2 else 1,a,8192,12288⟩,1,1,2⟩
      ([1,2] : List Nat) := ⟨Ring.around_cons.mpr (by simp [TaskList.next]),by simp⟩
  obtain ⟨fuel,t',returned,_⟩ := all _ [2] 4096 ring (by simp) ⟨by simp,by simp⟩
  rw [taskCleanupZombie,if_neg (by simp),if_neg (by simp),
    unlinkCurrTask_head (ring.marked _) (by simp) rfl] at returned
  cases returned

end Claim

end Siegfried
