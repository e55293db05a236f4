import Mathlib.Data.List.Basic
import Mathlib.Data.Option.Basic

/-! Programs that send requests to a device, each after the answers to those before it. -/
namespace Requests

variable {Q R Q' R' α β σ : Type}

inductive Prog (Q R α : Type) where
  | ret (a : α)
  | ask (q : Q) (next : R → Prog Q R α)

namespace Prog

def bind : Prog Q R α → (α → Prog Q R β) → Prog Q R β
  | .ret a, f => f a
  | .ask q next, f => .ask q fun r => (next r).bind f

def map (f : α → β) (p : Prog Q R α) : Prog Q R β := p.bind fun a => .ret (f a)

/-- Goes on if there is a result. -/
def andThen (p : Prog Q R (Option α)) (f : α → Prog Q R (Option β)) : Prog Q R (Option β) :=
  p.bind fun
    | some a => f a
    | none => .ret none

/-- A loop over a list, up to the first element without a result. -/
def forEach (f : σ → α → Prog Q R (Option σ)) : List α → σ → Prog Q R (Option σ)
  | [], s => .ret (some s)
  | a :: l, s => (f s a).andThen (forEach f l)

/-- The result, with a device that answers like this. -/
def run (answer : Q → R) : Prog Q R α → α
  | .ret a => a
  | .ask q next => (next (answer q)).run answer

/-- The requests that the device gets. -/
def asked (answer : Q → R) : Prog Q R α → List Q
  | .ret _ => []
  | .ask q next => q :: (next (answer q)).asked answer

/-- The same program over another device, through a driver. -/
def via (driver : Q → Prog Q' R' R) : Prog Q R α → Prog Q' R' α
  | .ret a => .ret a
  | .ask q next => (driver q).bind fun r => (next r).via driver

/-- Every request is of a kind. -/
def All (P : Q → Prop) (answer : Q → R) (p : Prog Q R α) : Prop := ∀ q ∈ p.asked answer, P q

/-- A loop over a list is good at each element that it gets to. -/
def LoopAll (step : σ → α → Option σ) (good : σ → α → Prop) : List α → σ → Prop
  | [], _ => True
  | a :: l, s => good s a ∧ ∀ s', step s a = some s' → LoopAll step good l s'

variable {answer : Q → R} {p : Prog Q R α}

@[simp] theorem run_ret {a : α} : (.ret a : Prog Q R α).run answer = a := rfl

/-- To be used on the way down: the condition may have a result in it. -/
theorem run_ite {c : Prop} [Decidable c] {p' : Prog Q R α} :
    (if c then p else p').run answer = if c then p.run answer else p'.run answer := by
  split <;> rfl

@[simp] theorem run_bind {f : α → Prog Q R β} : (p.bind f).run answer = (f (p.run answer)).run answer := by
  induction p with
  | ret a => rfl
  | ask q next ih => exact ih (answer q)

@[simp] theorem run_map {f : α → β} : (p.map f).run answer = f (p.run answer) := by
  simp [map,run]

@[simp] theorem run_andThen {p : Prog Q R (Option α)} {f : α → Prog Q R (Option β)} :
    (p.andThen f).run answer = (p.run answer).bind fun a => (f a).run answer := by
  rw [andThen,run_bind]
  cases p.run answer <;> rfl

@[simp] theorem run_forEach {f : σ → α → Prog Q R (Option σ)} {l : List α} {s : σ} :
    (forEach f l s).run answer = l.foldlM (fun s a => (f s a).run answer) s := by
  induction l generalizing s with
  | nil => rfl
  | cons a l ih =>
    rw [forEach,run_andThen,List.foldlM_cons]
    exact Option.bind_congr fun s' _ => ih

theorem asked_bind {f : α → Prog Q R β} :
    (p.bind f).asked answer = p.asked answer ++ (f (p.run answer)).asked answer := by
  induction p with
  | ret a => rfl
  | ask q next ih => exact congrArg (q :: ·) (ih (answer q))

variable {driver : Q → Prog Q' R' R} {answer' : Q' → R'}

/-- Through a driver the device answers as the driver does. -/
theorem run_via : (p.via driver).run answer' = p.run fun q => (driver q).run answer' := by
  induction p with
  | ret a => rfl
  | ask q next ih =>
    rw [via,run_bind]
    exact ih _

/-- The requests behind a driver are those it makes for the requests in front of it. -/
theorem asked_via : (p.via driver).asked answer' =
    (p.asked fun q => (driver q).run answer').flatMap fun q => (driver q).asked answer' := by
  induction p with
  | ret a => rfl
  | ask q next ih =>
    rw [via,asked_bind,ih,asked,List.flatMap_cons]

section All

variable {P : Q → Prop}

@[simp] theorem all_ret {a : α} : (.ret a : Prog Q R α).All P answer := nofun

@[simp] theorem all_ask {q : Q} {next : R → Prog Q R α} :
    (Prog.ask q next).All P answer ↔ P q ∧ (next (answer q)).All P answer := List.forall_mem_cons

@[simp] theorem all_bind {f : α → Prog Q R β} :
    (p.bind f).All P answer ↔ p.All P answer ∧ (f (p.run answer)).All P answer := by
  rw [All,asked_bind,List.forall_mem_append]
  rfl

@[simp] theorem all_map {f : α → β} : (p.map f).All P answer ↔ p.All P answer := by
  simp [map]

@[simp] theorem all_andThen {p : Prog Q R (Option α)} {f : α → Prog Q R (Option β)} :
    (p.andThen f).All P answer ↔
      p.All P answer ∧ ∀ a, p.run answer = some a → (f a).All P answer := by
  rw [andThen,all_bind]
  cases p.run answer <;> simp

/-- As `run_ite`. -/
theorem all_ite {c : Prop} [Decidable c] {p' : Prog Q R α} :
    (if c then p else p').All P answer ↔ if c then p.All P answer else p'.All P answer := by
  split <;> rfl

theorem all_forEach {f : σ → α → Prog Q R (Option σ)} {l : List α} {s : σ} :
    (forEach f l s).All P answer ↔
      LoopAll (fun s a => (f s a).run answer) (fun s a => (f s a).All P answer) l s := by
  induction l generalizing s with
  | nil => exact iff_of_true all_ret trivial
  | cons a l ih =>
    rw [forEach,all_andThen,LoopAll]
    exact and_congr_right fun _ => forall₂_congr fun s' _ => ih

theorem LoopAll.congr {step step' : σ → α → Option σ} {good good' : σ → α → Prop}
    (steps : ∀ s a, step s a = step' s a) (same : ∀ s a, good s a ↔ good' s a) {l : List α} {s : σ} :
    LoopAll step good l s ↔ LoopAll step' good' l s := by
  induction l generalizing s with
  | nil => exact Iff.rfl
  | cons a l ih =>
    rw [LoopAll,LoopAll,steps]
    exact and_congr (same s a) (forall₂_congr fun s' _ => ih)

/-- What holds of all requests behind a driver. -/
theorem all_via {P : Q' → Prop} : (p.via driver).All P answer' ↔
    p.All (fun q => (driver q).All P answer') fun q => (driver q).run answer' := by
  rw [All,asked_via]
  simp only [List.mem_flatMap]
  constructor
  · intro all q member r made
    exact all r ⟨q,member,made⟩
  · rintro all r ⟨q,member,made⟩
    exact all q member r made

end All

end Prog

end Requests
