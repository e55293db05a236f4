import Mathlib.Logic.Basic
import Mathlib.Data.List.Basic

/-! Loops over a list, with an invariant that also sees the elements still to come. -/
namespace Fold

variable {σ α : Type} {f : σ → α → Option σ} {g : σ → α → σ} (I : List α → σ → Prop)

theorem foldlM_rest (step : ∀ a l s s', I (a :: l) s → f s a = some s' → I l s') {l : List α}
    {s s' : σ} (inv : I l s) (h : l.foldlM f s = some s') : I [] s' := by
  induction l generalizing s with
  | nil =>
    cases h
    exact inv
  | cons a l ih =>
    simp only [List.foldlM_cons,Option.bind_eq_bind,Option.bind_eq_some_iff] at h
    obtain ⟨mid,first,rest⟩ := h
    exact ih (step a l s mid inv first) rest

theorem foldl_rest (step : ∀ a l s, I (a :: l) s → I l (g s a)) {l : List α} {s : σ}
    (inv : I l s) : I [] (l.foldl g s) := by
  induction l generalizing s with
  | nil => exact inv
  | cons a l ih => exact ih (step a l s inv)

/-- A loop that appends what each element gives. -/
theorem foldlM_append {β : Type} {f : List β → α → Option (List β)} {h : α → List β} {l : List α}
    (step : ∀ a ∈ l, ∀ r, f r a = some (r ++ h a)) (r : List β) :
    l.foldlM f r = some (r ++ l.flatMap h) := by
  induction l generalizing r with
  | nil => simp
  | cons a l ih =>
    rw [List.foldlM_cons,step a (List.mem_cons_self ..)]
    have rest := ih (fun b member => step b (List.mem_cons_of_mem _ member)) (r ++ h a)
    simpa using rest

section Members

variable {l : List α} {s s' : σ}

/-- In a loop that does not fail the body did not fail for any element. -/
theorem foldlM_mem (h : l.foldlM f s = some s') {a : α} (member : a ∈ l) : ∃ t t', f t a = some t' := by
  induction l generalizing s with
  | nil => cases member
  | cons b l ih =>
    simp only [List.foldlM_cons,Option.bind_eq_bind,Option.bind_eq_some_iff] at h
    obtain ⟨mid,first,rest⟩ := h
    rcases List.mem_cons.mp member with rfl | member
    · exact ⟨s,mid,first⟩
    · exact ih rest member

theorem foldlM_total (step : ∀ a ∈ l, ∀ t, ∃ t', f t a = some t') : ∃ s', l.foldlM f s = some s' := by
  induction l generalizing s with
  | nil => exact ⟨s,rfl⟩
  | cons a l ih =>
    obtain ⟨mid,first⟩ := step a List.mem_cons_self s
    obtain ⟨last,rest⟩ := ih (s := mid) fun b member => step b (List.mem_cons_of_mem _ member)
    exact ⟨last,by simp [first,rest]⟩

/-- A body that does at least what another one does. -/
theorem foldlM_mono {f' : σ → α → Option σ} (step : ∀ a ∈ l, ∀ t t', f t a = some t' → f' t a = some t')
    (h : l.foldlM f s = some s') : l.foldlM f' s = some s' := by
  induction l generalizing s with
  | nil => exact h
  | cons a l ih =>
    simp only [List.foldlM_cons,Option.bind_eq_bind,Option.bind_eq_some_iff] at h ⊢
    obtain ⟨mid,first,rest⟩ := h
    exact ⟨mid,step a List.mem_cons_self _ _ first,
      ih (fun b member => step b (List.mem_cons_of_mem _ member)) rest⟩

end Members

end Fold
