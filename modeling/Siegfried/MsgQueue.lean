import Mathlib.Logic.Function.Basic
import Mathlib.Data.List.Basic

/-! The message queue of a task (`tasks.c`): senders in `task_msgqueue_push` and the
task itself in `task_msgqueue_pop`, interleaved where they yield. -/
namespace Siegfried

/-- `msg_queue`, `msg_queue_head` and `msg_queue_tail` of a task. -/
structure MsgQueue (μ : Type) where
  slot : Nat → μ
  head : Nat
  tail : Nat

variable {μ : Type}

/-- The write at the start of `task_msgqueue_push`. -/
def MsgQueue.write (q : MsgQueue μ) (m : μ) : MsgQueue μ :=
  { q with slot := Function.update q.slot q.head m, head := (q.head + 1) % 16 }

/-- Both waiting loops test this. -/
def MsgQueue.waits (q : MsgQueue μ) : Bool := q.tail == q.head

/-- `waiting` are the senders in the loop of `task_msgqueue_push`, and `popping` says
that the task is in the loop of `task_msgqueue_pop`. No function reads the messages
`pushed` and `popped` so far. -/
structure MsgState (μ : Type) where
  queue : MsgQueue μ
  waiting : List Nat
  popping : Bool
  pushed : List μ
  popped : List μ

/-- What runs from one `task_yield` to the next. -/
inductive MsgAct (μ : Type) where
  | push (tid : Nat) (m : μ)
  | pushOn (tid : Nat)
  | pop
  | popOn

/-- `return curr_task->msg_queue[curr_task->msg_queue_tail++]`. -/
def MsgState.deliver (s : MsgState μ) : MsgState μ :=
  { s with
    queue := { s.queue with tail := s.queue.tail + 1 }
    popping := false
    popped := s.popped ++ [s.queue.slot s.queue.tail] }

/-- Only `task_msgqueue_pop` masks the tail, and only when it starts. -/
def MsgState.step (s : MsgState μ) : MsgAct μ → Option (MsgState μ)
  | .push tid m =>
    if tid ∈ s.waiting then none
    else
      let queue := s.queue.write m
      some { s with
        queue := queue
        waiting := if queue.waits then tid :: s.waiting else s.waiting
        pushed := s.pushed ++ [m] }
  | .pushOn tid =>
    if tid ∈ s.waiting then
      some { s with waiting := if s.queue.waits then s.waiting else s.waiting.erase tid }
    else none
  | .pop =>
    if s.popping then none
    else
      let s := { s with queue := { s.queue with tail := s.queue.tail % 16 } }
      if s.queue.waits then some { s with popping := true } else some s.deliver
  | .popOn =>
    if s.popping then if s.queue.waits then some s else some s.deliver
    else none

/-- The queue of a task that `task_new` has just made. -/
def MsgState.start (slot : Nat → μ) : MsgState μ := ⟨⟨slot,0,0⟩,[],false,[],[]⟩

inductive MsgRun (cond : MsgState μ → MsgAct μ → Prop) : MsgState μ → Prop where
  | start (slot : Nat → μ) : MsgRun cond (.start slot)
  | step {s s' : MsgState μ} {a : MsgAct μ} (before : MsgRun cond s) (ok : cond s a)
      (h : s.step a = some s') : MsgRun cond s'

/-- The task is in pop with messages undelivered, and neither it nor any sender in push
gets out of its loop. -/
def MsgState.Stuck (s : MsgState μ) : Prop :=
  s.popping = true ∧ s.queue.waits = true ∧ s.popped.length < s.pushed.length

instance (s : MsgState μ) : Decidable s.Stuck := inferInstanceAs (Decidable (_ ∧ _ ∧ _))

/-- A push starts only while fewer than 15 messages are undelivered. -/
def Room (s : MsgState μ) (a : MsgAct μ) : Prop :=
  ∀ tid m, a = .push tid m → s.pushed.length < s.popped.length + 15

/-- The ring holds the undelivered messages, of which there are at most 15. -/
structure MsgState.Inv (s : MsgState μ) : Prop where
  head : s.queue.head = s.pushed.length % 16
  tail : s.queue.tail % 16 = s.popped.length % 16
  masked : s.queue.tail ≤ 16 ∧ (s.popping = true → s.queue.tail < 16)
  order : s.popped <+: s.pushed
  bound : s.pushed.length ≤ s.popped.length + 15
  slots : ∀ j m, s.popped.length ≤ j → s.pushed[j]? = some m → s.queue.slot (j % 16) = m

variable {s s' : MsgState μ} {a : MsgAct μ}

theorem MsgState.Inv.write (inv : s.Inv) {m : μ} (room : s.pushed.length < s.popped.length + 15)
    (waiting : List Nat) :
    ({ s with queue := s.queue.write m, waiting := waiting, pushed := s.pushed ++ [m] } :
      MsgState μ).Inv := by
  refine ⟨?_,inv.tail,inv.masked,inv.order.trans (List.prefix_append ..),?_,?_⟩
  · simp only [MsgQueue.write,inv.head,List.length_append,List.length_singleton]
    omega
  · simp only [List.length_append,List.length_singleton]
    omega
  · intro j x lower found
    have lower : s.popped.length ≤ j := lower
    simp only [MsgQueue.write]
    by_cases last : j = s.pushed.length
    · subst last
      rw [List.getElem?_concat_length,Option.some.injEq] at found
      rw [inv.head,Function.update_self,found]
    · have short : j < s.pushed.length := by
        have := (List.getElem?_eq_some_iff.mp found).1
        simp only [List.length_append,List.length_singleton] at this
        omega
      rw [List.getElem?_append_left short] at found
      -- fewer than 16 undelivered messages do not share a slot
      rw [Function.update_of_ne (by rw [inv.head]; omega)]
      exact inv.slots j x lower found

theorem MsgState.Inv.deliver (inv : s.Inv) (small : s.queue.tail < 16)
    (ready : s.queue.waits = false) : s.deliver.Inv := by
  have head := inv.head
  have tail := inv.tail
  have length := inv.order.length_le
  simp only [MsgQueue.waits,beq_eq_false_iff_ne] at ready
  have next : s.popped.length < s.pushed.length := by
    have := inv.bound
    omega
  have here := inv.slots s.popped.length _ (Nat.le_refl _) (List.getElem?_eq_getElem next)
  have value : s.queue.slot s.queue.tail = s.pushed[s.popped.length] := by
    rw [← here]
    congr 1
    omega
  refine ⟨head,?_,⟨by simp only [MsgState.deliver]; omega,by simp [MsgState.deliver]⟩,?_,?_,?_⟩
  · simp only [MsgState.deliver,List.length_append,List.length_singleton]
    omega
  · obtain ⟨rest,split⟩ := inv.order
    simp only [MsgState.deliver,value]
    cases rest with
    | nil =>
      rw [← split,List.append_nil] at next
      exact absurd next (Nat.lt_irrefl _)
    | cons m rest =>
      refine ⟨rest,?_⟩
      have first : s.pushed[s.popped.length] = m := by
        simp [← split]
      rw [first,List.append_assoc,List.singleton_append,split]
  · have := inv.bound
    simp only [MsgState.deliver,List.length_append,List.length_singleton]
    omega
  · intro j m lower found
    simp only [MsgState.deliver,List.length_append,List.length_singleton] at lower
    exact inv.slots j m (by omega) found

/-- Each act keeps the invariant. -/
theorem MsgState.Inv.step (inv : s.Inv) (room : Room s a) (h : s.step a = some s') : s'.Inv := by
  cases a with
  | push tid m =>
    simp only [MsgState.step] at h
    split at h
    · cases h
    · cases h
      exact inv.write (room tid m rfl) _
  | pushOn tid =>
    simp only [MsgState.step] at h
    split at h
    · cases h
      exact ⟨inv.head,inv.tail,inv.masked,inv.order,inv.bound,inv.slots⟩
    · cases h
  | pop =>
    simp only [MsgState.step] at h
    have tail := inv.tail
    have small := Nat.mod_lt s.queue.tail (show 0 < 16 by decide)
    have masked : ({ s with queue := { s.queue with tail := s.queue.tail % 16 } } :
        MsgState μ).Inv :=
      ⟨inv.head,by dsimp only; omega,⟨Nat.le_of_lt small,fun _ => small⟩,inv.order,inv.bound,inv.slots⟩
    split at h
    · cases h
    · split at h
      · cases h
        exact ⟨masked.head,masked.tail,⟨masked.masked.1,fun _ => small⟩,masked.order,masked.bound,
          masked.slots⟩
      · next ready =>
        cases h
        exact masked.deliver small (Bool.eq_false_iff.mpr ready)
  | popOn =>
    simp only [MsgState.step] at h
    split at h
    · next popping =>
      split at h
      · cases h
        exact inv
      · next ready =>
        cases h
        exact inv.deliver (inv.masked.2 popping) (Bool.eq_false_iff.mpr ready)
    · cases h

theorem MsgRun.inv (run : MsgRun Room s) : s.Inv := by
  induction run with
  | start slot => exact ⟨rfl,rfl,⟨Nat.zero_le 16,nofun⟩,List.prefix_refl _,Nat.zero_le _,by
      intro j m _ found
      simp [MsgState.start] at found⟩
  | step _ ok h ih => exact ih.step ok h

/-- The waiting task of a state in order has got every message. -/
theorem MsgState.Inv.not_stuck (inv : s.Inv) : ¬s.Stuck := by
  rintro ⟨popping,waits,undelivered⟩
  have head := inv.head
  have tail := inv.tail
  have bound := inv.bound
  have small := inv.masked.2 popping
  simp only [MsgQueue.waits,beq_iff_eq] at waits
  omega

section Claim

/-- As long as a push starts only with fewer than 15 messages undelivered, messages
arrive once each and in order, and nobody is stuck. -/
theorem msgqueue_in_order (run : MsgRun Room s) : s.popped <+: s.pushed ∧ ¬s.Stuck :=
  ⟨run.inv.order,run.inv.not_stuck⟩

end Claim

theorem MsgRun.foldlM {cond : MsgState μ → MsgAct μ → Prop} {acts : List (MsgAct μ)}
    (run : MsgRun cond s) (ok : ∀ s a, a ∈ acts → cond s a)
    (h : acts.foldlM MsgState.step s = some s') : MsgRun cond s' := by
  induction acts generalizing s with
  | nil =>
    cases h
    exact run
  | cons a acts ih =>
    simp only [List.foldlM_cons,Option.bind_eq_bind,Option.bind_eq_some_iff] at h
    obtain ⟨m,first,rest⟩ := h
    exact ih (run.step (ok s a (List.mem_cons_self ..)) first)
      (fun s b hb => ok s b (List.mem_cons_of_mem _ hb)) rest

/-- A pop that finds the ring empty, or full, waits. -/
theorem MsgState.step_pop_waits (idle : s.popping = false)
    (same : s.queue.tail % 16 = s.queue.head) :
    s.step .pop = some { s with
      queue := { s.queue with tail := s.queue.tail % 16 }, popping := true } := by
  simp [MsgState.step,idle,MsgQueue.waits,same]

/-- The bound is exact: a push that starts with 15 messages undelivered leaves the task
stuck, at once or in its next pop. -/
theorem msgqueue_breaks (run : MsgRun Room s) (full : s.pushed.length = s.popped.length + 15)
    {tid : Nat} {m : μ} (h : s.step (.push tid m) = some s') :
    s'.Stuck ∨ ∃ s'', s'.step .pop = some s'' ∧ s''.Stuck := by
  have inv := run.inv
  have head := inv.head
  have tail := inv.tail
  simp only [MsgState.step] at h
  split at h
  · cases h
  have queue : s'.queue = s.queue.write m := by cases h; rfl
  have popping : s'.popping = s.popping := by cases h; rfl
  have pushed : s'.pushed = s.pushed ++ [m] := by cases h; rfl
  have popped : s'.popped = s.popped := by cases h; rfl
  clear h
  have undelivered : s'.popped.length < s'.pushed.length := by
    rw [pushed,popped,List.length_append,full]
    omega
  have same : s'.queue.tail % 16 = s'.queue.head := by
    simp only [queue,MsgQueue.write]
    omega
  cases waiting : s'.popping with
  | true =>
    have small := inv.masked.2 (popping ▸ waiting)
    have masked : s'.queue.tail < 16 := by rw [queue]; exact small
    rw [Nat.mod_eq_of_lt masked] at same
    exact .inl ⟨waiting,beq_iff_eq.mpr same,undelivered⟩
  | false =>
    exact .inr ⟨_,MsgState.step_pop_waits waiting same,rfl,beq_iff_eq.mpr same,undelivered⟩

section Claim

/-- One message sent and received. -/
theorem msgqueue_in_order_one : ∃ s : MsgState Nat, MsgRun Room s ∧ s.popped = [7] ∧
    s.popped <+: s.pushed ∧ ¬s.Stuck := by
  have first : MsgRun Room _ := (MsgRun.start (fun _ => 0)).step (a := .push 1 7)
    (fun _ _ _ => by decide) rfl
  have run : MsgRun Room _ := first.step (a := .pop) (fun _ _ => nofun) rfl
  exact ⟨_,run,rfl,msgqueue_in_order run⟩

/-- Sixteen tasks send, then the receiver asks for a message. -/
theorem msgqueue_full : ¬∀ (s : MsgState Nat), MsgRun (fun _ _ => True) s →
    s.popped <+: s.pushed ∧ ¬s.Stuck := by
  intro all
  have stuck : ((((List.range 16).map fun i => MsgAct.push i i) ++ [MsgAct.pop]).foldlM
      MsgState.step (MsgState.start fun _ => 0)).any (fun s : MsgState Nat => decide s.Stuck) = true := by decide
  obtain ⟨s,h,last⟩ := (Option.any_eq_true _ _).mp stuck
  have run : MsgRun (fun _ _ => True) s := (MsgRun.start _).foldlM (fun _ _ _ => trivial) h
  exact (all s run).2 (of_decide_eq_true last)

end Claim

end Siegfried
