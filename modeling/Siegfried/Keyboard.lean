import Mathlib.Logic.Function.Basic
import Mathlib.Data.List.Basic

/-! `kb.c`: the ring of key events, between the keyboard's interrupt and the calls of
`kb_wait_and_pop_ev`, which an interrupt can come into after any statement. -/
namespace Siegfried

/-- `kb_ev_types`. -/
inductive KbEvType where
  | null
  | pressed
  | depressed
deriving DecidableEq

/-- `kb_ev_t`. -/
structure KbEv where
  type : KbEvType
  code : Nat
deriving DecidableEq

/-- The state of `kb.c`. No function reads `pushed`: it records the events that
`kb_push_ev` has been given. -/
structure Kb where
  kbBuf : Fin 256 → KbEv
  keyPopPtr : Fin 256
  keyPushPtr : Fin 256
  hasShift : Bool
  prevHas80 : Bool
  pushed : List KbEv

def Kb.start : Kb := ⟨fun _ => ⟨.null,0⟩,0,0,false,false,[]⟩

def kbEv (code : Nat) (pressed : Bool) : KbEv := ⟨if pressed then .pressed else .depressed,code⟩

def kbPushEv (k : Kb) (code : Nat) (pressed : Bool) : Kb :=
  { k with
    kbBuf := Function.update k.kbBuf k.keyPushPtr (kbEv code pressed)
    keyPushPtr := k.keyPushPtr + 1
    pushed := k.pushed ++ [kbEv code pressed] }

/-- The slot at `key_pop_ptr` made empty. -/
def Kb.clearSlot (k : Kb) : Fin 256 → KbEv :=
  Function.update k.kbBuf k.keyPopPtr ⟨.null,(k.kbBuf k.keyPopPtr).code⟩

/-- Where a task is in `kb_wait_and_pop_ev`: behind its first statement, in its loop, behind
the loop, in `kb_pop_ev` with the event read. -/
inductive KbCall where
  | outside
  | reset
  | waiting
  | found
  | popping (ret : KbEv)
deriving DecidableEq

/-- `calls` has the call each task is in, `popped` the events that were returned. -/
structure KbState where
  kb : Kb
  calls : Nat → KbCall
  popped : List KbEv

inductive KbAct where
  | push (code : Nat) (pressed : Bool)
  | reset (i : Nat)
  | clear (i : Nat)
  | look (i : Nat)
  | read (i : Nat)
  | pop (i : Nat)

namespace KbState

def start : KbState := ⟨.start,fun _ => .outside,[]⟩

/-- An interrupt pushes an event, or a task carries out the next statement of its call. -/
def step (s : KbState) : KbAct → Option KbState
  | .push code pressed => some { s with kb := kbPushEv s.kb code pressed }
  | .reset i =>
    if s.calls i = .outside then
      some { s with
        kb := { s.kb with keyPopPtr := s.kb.keyPushPtr }
        calls := Function.update s.calls i .reset }
    else none
  | .clear i =>
    if s.calls i = .reset then
      some { s with
        kb := { s.kb with kbBuf := s.kb.clearSlot }
        calls := Function.update s.calls i .waiting }
    else none
  | .look i =>
    if s.calls i = .waiting then
      if (s.kb.kbBuf s.kb.keyPopPtr).type = .null then some s
      else some { s with calls := Function.update s.calls i .found }
    else none
  | .read i =>
    if s.calls i = .found then
      some { s with calls := Function.update s.calls i (.popping (s.kb.kbBuf s.kb.keyPopPtr)) }
    else none
  | .pop i =>
    match s.calls i with
    | .popping ret =>
      some { s with
        kb := { s.kb with kbBuf := s.kb.clearSlot, keyPopPtr := s.kb.keyPopPtr + 1 }
        calls := Function.update s.calls i .outside
        popped := s.popped ++ [ret] }
    | _ => none

/-- The events in the ring, from `key_pop_ptr` to `key_push_ptr`. -/
def pending (s : KbState) : List KbEv :=
  (List.range ((s.kb.keyPushPtr.val + 256 - s.kb.keyPopPtr.val) % 256)).map fun n =>
    s.kb.kbBuf (s.kb.keyPopPtr + Fin.ofNat 256 n)

/-- The events returned are those pushed, in order, and the others are in the ring. -/
def InOrder (s : KbState) : Prop := s.popped ++ s.pending = s.kb.pushed

instance (s : KbState) : Decidable s.InOrder := inferInstanceAs (Decidable (_ = _))

/-- After the step, too, fewer than 256 events are pending. -/
def Few (s : KbState) : KbAct → Prop
  | .push _ _ => s.kb.pushed.length + 1 < s.popped.length + 256
  | _ => True

instance (s : KbState) : (a : KbAct) → Decidable (s.Few a)
  | .push _ _ => inferInstanceAs (Decidable (_ < _))
  | .reset _ | .clear _ | .look _ | .read _ | .pop _ => inferInstanceAs (Decidable True)

/-- No call starts with an event in the ring, none is pushed between the first two statements
of a call, and an event is read when there is one and no other call has read it. -/
def Prompt (s : KbState) : KbAct → Prop
  | .push _ _ => ∀ i, s.calls i ≠ .reset
  | .reset _ => s.kb.keyPopPtr = s.kb.keyPushPtr
  | .read _ => (s.kb.kbBuf s.kb.keyPopPtr).type ≠ .null ∧ ∀ j ret, s.calls j ≠ .popping ret
  | _ => True

/-- What the pointers and the ring are after prompt steps. -/
structure Inv (s : KbState) : Prop where
  pop : s.kb.keyPopPtr = Fin.ofNat 256 s.popped.length
  push : s.kb.keyPushPtr = Fin.ofNat 256 s.kb.pushed.length
  returned : s.popped <+: s.kb.pushed
  few : s.kb.pushed.length < s.popped.length + 256
  full : ∀ n ev, s.popped.length ≤ n → s.kb.pushed[n]? = some ev → s.kb.kbBuf (Fin.ofNat 256 n) = ev
  empty : ∀ n, s.kb.pushed.length ≤ n → n < s.popped.length + 256 →
    (s.kb.kbBuf (Fin.ofNat 256 n)).type = .null
  resets : ∀ i, s.calls i = .reset → s.popped.length = s.kb.pushed.length
  loaded : ∀ i ret, s.calls i = .popping ret → s.kb.pushed[s.popped.length]? = some ret
  single : ∀ i j ret ret', s.calls i = .popping ret → s.calls j = .popping ret' → i = j

end KbState

/-- The states that interrupts and calls lead to, with steps that satisfy `cond`. -/
inductive KbRun (cond : KbState → KbAct → Prop) : KbState → Prop where
  | start : KbRun cond .start
  | step {s s' : KbState} {a : KbAct} (before : KbRun cond s) (ok : cond s a) (h : s.step a = some s') :
      KbRun cond s'

section Ring
variable {s s' : KbState} {a : KbAct}

/-- Fewer than 256 places apart, two numbers name different slots. -/
theorem slot_ne {m n : Nat} (lower : m < n) (upper : n < m + 256) : Fin.ofNat 256 n ≠ Fin.ofNat 256 m := by
  intro same
  have same := congrArg Fin.val same
  simp only [Fin.val_ofNat] at same
  omega

theorem slot_succ (n : Nat) : Fin.ofNat 256 n + 1 = Fin.ofNat 256 (n + 1) := by
  refine Fin.ext ?_
  simp only [Fin.val_add,Fin.val_ofNat,Fin.val_one]
  omega

/-- An event at the front of the ring has not been returned. -/
theorem KbState.Inv.some_pending (inv : s.Inv) (there : (s.kb.kbBuf s.kb.keyPopPtr).type ≠ .null) :
    s.popped.length < s.kb.pushed.length := by
  by_contra none
  have bound := inv.returned.length_le
  refine there ?_
  rw [inv.pop]
  exact inv.empty _ (by omega) (by omega)

theorem KbState.Inv.front (inv : s.Inv) {ev : KbEv} (first : s.kb.pushed[s.popped.length]? = some ev) :
    s.kb.kbBuf s.kb.keyPopPtr = ev := by
  rw [inv.pop]
  exact inv.full _ _ (Nat.le_refl _) first

theorem KbState.Inv.push_step (inv : s.Inv) {code : Nat} {pressed : Bool}
    (few : s.kb.pushed.length + 1 < s.popped.length + 256) (calm : ∀ i, s.calls i ≠ .reset) :
    ({ s with kb := kbPushEv s.kb code pressed } : KbState).Inv := by
  have bound := inv.returned.length_le
  have length : (kbPushEv s.kb code pressed).pushed.length = s.kb.pushed.length + 1 := List.length_append ..
  have other (n : Nat) (lower : s.popped.length ≤ n) (upper : n < s.popped.length + 256)
      (away : n ≠ s.kb.pushed.length) :
      (kbPushEv s.kb code pressed).kbBuf (Fin.ofNat 256 n) = s.kb.kbBuf (Fin.ofNat 256 n) := by
    refine Function.update_of_ne ?_ _ _
    rw [inv.push]
    rcases Nat.lt_or_gt_of_ne away with before | behind
    · exact (slot_ne before (by omega)).symm
    · exact slot_ne behind (by omega)
  refine ⟨inv.pop,?_,inv.returned.trans (List.prefix_append ..),?_,fun n ev lower found => ?_,
    fun n lower upper => ?_,fun i at_reset => absurd at_reset (calm i),fun i ret at_pop => ?_,inv.single⟩
  · rw [length,← slot_succ,← inv.push]
    rfl
  · rw [length]
    exact few
  · rcases Nat.lt_trichotomy n s.kb.pushed.length with before | rfl | behind
    · have found : (s.kb.pushed ++ [kbEv code pressed])[n]? = some ev := found
      rw [List.getElem?_append_left before] at found
      rw [other n lower (by omega) (by omega)]
      exact inv.full n ev lower found
    · have found : (s.kb.pushed ++ [kbEv code pressed])[s.kb.pushed.length]? = some ev := found
      rw [List.getElem?_concat_length] at found
      rw [← inv.push,← Option.some.inj found]
      exact Function.update_self ..
    · have none : (kbPushEv s.kb code pressed).pushed[n]? = none := by
        rw [List.getElem?_eq_none_iff,length]
        exact behind
      rw [none] at found
      cases found
  · rw [length] at lower
    rw [other n (by omega) upper (by omega)]
    exact inv.empty n (by omega) upper
  · have loaded := inv.loaded i ret at_pop
    have inside := (List.getElem?_eq_some_iff.mp loaded).1
    exact (List.getElem?_append_left inside).trans loaded

/-- A task goes on to a place where it has read nothing and nothing is pending if it reset. -/
theorem KbState.Inv.move (inv : s.Inv) {i : Nat} {c : KbCall} (quiet : ∀ ret, c ≠ .popping ret)
    (reset : c = .reset → s.popped.length = s.kb.pushed.length) :
    ({ s with calls := Function.update s.calls i c } : KbState).Inv := by
  have moved (j : Nat) (ret : KbEv) (at_pop : Function.update s.calls i c j = .popping ret) :
      s.calls j = .popping ret := by
    by_cases same : j = i
    · subst same
      rw [Function.update_self] at at_pop
      exact absurd at_pop (quiet ret)
    · rwa [Function.update_of_ne same] at at_pop
  refine { inv with resets := fun j at_reset => ?_, loaded := ?_, single := ?_ }
  · by_cases same : j = i
    · subst same
      have at_reset : Function.update s.calls j c j = .reset := at_reset
      rw [Function.update_self] at at_reset
      exact reset at_reset
    · have at_reset : Function.update s.calls i c j = .reset := at_reset
      rw [Function.update_of_ne same] at at_reset
      exact inv.resets j at_reset
  · exact fun j ret at_pop => inv.loaded j ret (moved j ret at_pop)
  · exact fun j l ret ret' first second => inv.single j l ret ret' (moved j ret first) (moved l ret' second)

/-- The step of a call that takes its event out of the ring. -/
theorem KbState.Inv.pop_step (inv : s.Inv) {i : Nat} {ret : KbEv} (at_pop : s.calls i = .popping ret) :
    ({ kb := { s.kb with kbBuf := s.kb.clearSlot, keyPopPtr := s.kb.keyPopPtr + 1 }
       calls := Function.update s.calls i .outside
       popped := s.popped ++ [ret] } : KbState).Inv := by
  have loaded := inv.loaded i ret at_pop
  have inside := (List.getElem?_eq_some_iff.mp loaded).1
  have few := inv.few
  have length : (s.popped ++ [ret]).length = s.popped.length + 1 := List.length_append ..
  have still (j : Nat) (c : KbCall) (there : Function.update s.calls i .outside j = c)
      (inner : c ≠ .outside) : j ≠ i ∧ s.calls j = c := by
    by_cases same : j = i
    · subst same
      rw [Function.update_self] at there
      exact absurd there.symm inner
    · rw [Function.update_of_ne same] at there
      exact ⟨same,there⟩
  have none (j : Nat) (ret' : KbEv) (there : Function.update s.calls i .outside j = .popping ret') : False := by
    obtain ⟨other,there⟩ := still j _ there nofun
    exact other (inv.single j i ret' ret there at_pop)
  refine ⟨?_,inv.push,?_,?_,fun n ev lower found => ?_,fun n lower upper => ?_,fun j at_reset => ?_,
    fun j ret' there => (none j ret' there).elim,fun j _ ret' _ there _ => (none j ret' there).elim⟩
  · rw [length,← slot_succ,← inv.pop]
  · obtain ⟨rest,all⟩ := inv.returned
    rw [← all,List.getElem?_append_right (Nat.le_refl _),Nat.sub_self] at loaded
    cases rest with
    | nil => cases loaded
    | cons first rest =>
      obtain rfl := Option.some.inj loaded
      refine ⟨rest,?_⟩
      rw [← all,List.append_assoc]
      rfl
  · rw [length]
    exact Nat.lt_of_lt_of_le few (by omega)
  · rw [length] at lower
    have bound : n < s.kb.pushed.length := (List.getElem?_eq_some_iff.mp found).1
    have away : Fin.ofNat 256 n ≠ s.kb.keyPopPtr := by
      rw [inv.pop]
      exact slot_ne (by omega) (by omega)
    refine (Function.update_of_ne away _ _).trans ?_
    exact inv.full n ev (by omega) found
  · rw [length] at upper
    have lower : s.kb.pushed.length ≤ n := lower
    by_cases last : n = s.popped.length + 256
    · have same : Fin.ofNat 256 n = s.kb.keyPopPtr := by
        rw [inv.pop]
        refine Fin.ext ?_
        simp only [Fin.val_ofNat]
        omega
      show (s.kb.clearSlot (Fin.ofNat 256 n)).type = .null
      rw [same,Kb.clearSlot,Function.update_self]
    · have away : Fin.ofNat 256 n ≠ s.kb.keyPopPtr := by
        rw [inv.pop]
        exact slot_ne (by omega) (by omega)
      show (s.kb.clearSlot (Fin.ofNat 256 n)).type = .null
      rw [Kb.clearSlot,Function.update_of_ne away]
      exact inv.empty n lower (by omega)
  · obtain ⟨_,at_reset⟩ := still j _ at_reset nofun
    have equal := inv.resets j at_reset
    omega

/-- What a prompt step keeps. -/
theorem KbState.Inv.step (inv : s.Inv) (few : s.Few a) (prompt : s.Prompt a) (h : s.step a = some s') :
    s'.Inv := by
  cases a with
  | push code pressed =>
    obtain rfl := Option.some.inj h
    exact inv.push_step few prompt
  | reset i =>
    simp only [KbState.step] at h
    split at h
    · obtain rfl := Option.some.inj h
      have equal : s.popped.length = s.kb.pushed.length := by
        have same : s.kb.keyPopPtr = s.kb.keyPushPtr := prompt
        rw [inv.pop,inv.push] at same
        have bound := inv.returned.length_le
        have few := inv.few
        by_contra less
        exact slot_ne (by omega) few same.symm
      have moved := inv.move (i := i) (c := .reset) nofun fun _ => equal
      exact { moved with pop := by rw [inv.push,equal] }
    · cases h
  | clear i =>
    simp only [KbState.step] at h
    split at h
    · next at_reset =>
      obtain rfl := Option.some.inj h
      have equal := inv.resets i at_reset
      have moved := inv.move (i := i) (c := .waiting) nofun nofun
      refine { moved with full := fun n ev lower found => ?_, empty := fun n lower upper => ?_ }
      · have bound : n < s.kb.pushed.length := (List.getElem?_eq_some_iff.mp found).1
        have lower : s.popped.length ≤ n := lower
        omega
      · show (s.kb.clearSlot (Fin.ofNat 256 n)).type = .null
        rw [Kb.clearSlot]
        by_cases same : Fin.ofNat 256 n = s.kb.keyPopPtr
        · rw [same,Function.update_self]
        · rw [Function.update_of_ne same]
          exact inv.empty n lower upper
    · cases h
  | look i =>
    simp only [KbState.step] at h
    split at h
    · split at h
      · obtain rfl := Option.some.inj h
        exact inv
      · obtain rfl := Option.some.inj h
        exact inv.move nofun nofun
    · cases h
  | read i =>
    simp only [KbState.step] at h
    split at h
    · obtain rfl := Option.some.inj h
      obtain ⟨there,alone⟩ := prompt
      have some_left := inv.some_pending there
      have first := List.getElem?_eq_getElem some_left
      have front := inv.front first
      have other (j : Nat) (ret : KbEv)
          (at_pop : Function.update s.calls i (.popping (s.kb.kbBuf s.kb.keyPopPtr)) j = .popping ret) :
          j = i ∧ ret = s.kb.kbBuf s.kb.keyPopPtr := by
        by_cases same : j = i
        · subst same
          rw [Function.update_self] at at_pop
          exact ⟨rfl,(KbCall.popping.inj at_pop).symm⟩
        · rw [Function.update_of_ne same] at at_pop
          exact absurd at_pop (alone j ret)
      refine { inv with resets := fun j at_reset => ?_, loaded := fun j ret at_pop => ?_,
                        single := fun j l ret ret' one two => ?_ }
      · by_cases same : j = i
        · subst same
          have at_reset : Function.update s.calls j _ j = .reset := at_reset
          rw [Function.update_self] at at_reset
          cases at_reset
        · have at_reset : Function.update s.calls i _ j = .reset := at_reset
          rw [Function.update_of_ne same] at at_reset
          exact inv.resets j at_reset
      · obtain ⟨_,rfl⟩ := other j ret at_pop
        rw [front]
        exact first
      · rw [(other j ret one).1,(other l ret' two).1]
    · cases h
  | pop i =>
    simp only [KbState.step] at h
    split at h
    · next ret at_pop =>
      obtain rfl := Option.some.inj h
      exact inv.pop_step at_pop
    · cases h

theorem KbRun.inv (run : KbRun (fun s a => s.Few a ∧ s.Prompt a) s) : s.Inv := by
  induction run with
  | start =>
    exact {
      pop := rfl
      push := rfl
      returned := List.prefix_refl _
      few := Nat.zero_lt_succ _
      full := fun _ _ _ found => nomatch found
      empty := fun _ _ _ => rfl
      resets := fun _ _ => rfl
      loaded := fun _ _ at_pop => nomatch at_pop
      single := fun _ _ _ _ at_pop => nomatch at_pop }
  | step _ ok h ih => exact ih.step ok.1 ok.2 h

theorem KbState.Inv.inOrder (inv : s.Inv) : s.InOrder := by
  have bound := inv.returned.length_le
  have few := inv.few
  have count : (s.kb.keyPushPtr.val + 256 - s.kb.keyPopPtr.val) % 256 =
      s.kb.pushed.length - s.popped.length := by
    rw [inv.push,inv.pop]
    simp only [Fin.val_ofNat]
    omega
  have rest : s.pending = s.kb.pushed.drop s.popped.length := by
    refine List.ext_getElem? fun n => ?_
    rw [KbState.pending,count,List.getElem?_map,List.getElem?_drop]
    by_cases inside : n < s.kb.pushed.length - s.popped.length
    · have there : s.popped.length + n < s.kb.pushed.length := by omega
      have slot : s.kb.keyPopPtr + Fin.ofNat 256 n = Fin.ofNat 256 (s.popped.length + n) := by
        rw [inv.pop]
        refine Fin.ext ?_
        simp only [Fin.val_add,Fin.val_ofNat]
        omega
      rw [List.getElem?_range inside,Option.map_some,slot,List.getElem?_eq_getElem there]
      exact congrArg some (inv.full _ _ (by omega) (List.getElem?_eq_getElem there))
    · rw [List.getElem?_eq_none (by rw [List.length_range]; omega),List.getElem?_eq_none (by omega)]
      rfl
  rw [KbState.InOrder,rest]
  have front := List.prefix_iff_eq_take.mp inv.returned
  calc s.popped ++ s.kb.pushed.drop s.popped.length
      = s.kb.pushed.take s.popped.length ++ s.kb.pushed.drop s.popped.length := by rw [← front]
    _ = s.kb.pushed := List.take_append_drop ..

theorem KbRun.foldlM {cond : KbState → KbAct → Prop} [∀ s a, Decidable (cond s a)] {acts : List KbAct}
    (run : KbRun cond s)
    (h : acts.foldlM (fun s a => if cond s a then s.step a else none) s = some s') : KbRun cond s' := by
  induction acts generalizing s with
  | nil =>
    cases h
    exact run
  | cons a acts ih =>
    simp only [List.foldlM_cons,Option.bind_eq_bind,Option.bind_eq_some_iff] at h
    obtain ⟨m,first,rest⟩ := h
    split at first
    · next ok => exact ih (run.step ok first) rest
    · cases first

/-- **kb_wait_and_pop_ev.** When calls start with no event in the ring, no event comes between
the first two statements of one, and no two have read the same event, the events returned are
those pushed, in order, with the others in the ring still. -/
theorem kb_events_in_order (run : KbRun (fun s a => s.Few a ∧ s.Prompt a) s) : s.InOrder := run.inv.inOrder

/-- A key pressed while a task waits for it. -/
theorem kb_events_in_order_one : ∃ s : KbState, s.popped = [⟨.pressed,30⟩] ∧ s.InOrder := by
  have first : KbRun (fun s a => s.Few a ∧ s.Prompt a) _ :=
    (KbRun.start.step (a := .reset 0) ⟨trivial,rfl⟩ rfl).step (a := .clear 0) ⟨trivial,trivial⟩ rfl
  have pushed := first.step (a := .push 30 true) ⟨by decide,fun i => by
    by_cases same : i = 0 <;> simp [same,KbState.start]⟩ rfl
  have seen := pushed.step (a := .look 0) ⟨trivial,trivial⟩ rfl
  have read := seen.step (a := .read 0) ⟨trivial,nofun,fun i ret => by
    by_cases same : i = 0 <;> simp [same,KbState.start]⟩ rfl
  have popped := read.step (a := .pop 0) ⟨trivial,trivial⟩ rfl
  exact ⟨_,rfl,kb_events_in_order popped⟩

/-- A key pressed between two calls is not returned by the second, and no longer in the ring. -/
theorem kb_events_dropped : ¬∀ s, KbRun (fun s a => s.Few a) s → s.InOrder := by
  intro always
  have dropped : (([.reset 0,.clear 0,.push 30 true,.look 0,.read 0,.pop 0,.push 31 true,.reset 0] :
      List KbAct).foldlM (fun (s : KbState) a => if s.Few a then s.step a else none) .start).any
      (fun s : KbState => !decide s.InOrder) = true := by decide
  obtain ⟨s,reached,last⟩ := (Option.any_eq_true _ _).mp dropped
  have order := always s (KbRun.start.foldlM reached)
  rw [decide_eq_true order] at last
  cases last

end Ring

end Siegfried
