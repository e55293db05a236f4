import Mathlib.Logic.Basic

/-! Loops that may never end: one turn goes on in a new state, or stops with a result. -/
namespace Loops

variable {σ ε : Type} (turn : σ → σ ⊕ ε)

/-- So many turns at most. -/
def run : Nat → σ → Option ε
  | 0, _ => none
  | n+1, s =>
    match turn s with
    | .inl s' => run n s'
    | .inr e => some e

/-- The states that the loop comes to. -/
inductive Comes (start : σ) : σ → Prop where
  | start : Comes start start
  | turn {s s' : σ} (before : Comes start s) (go : turn s = .inl s') : Comes start s'

variable {turn} {s s' s'' : σ} {e : ε} {n : Nat}

theorem Comes.trans (first : Comes turn s s') (second : Comes turn s' s'') : Comes turn s s'' := by
  induction second with
  | start => exact first
  | turn _ go ih => exact .turn ih go

theorem Comes.head (go : turn s = .inl s') (rest : Comes turn s' s'') : Comes turn s s'' :=
  .trans (.turn .start go) rest

/-- A state is an end of the loop, or the loop goes through the state behind it. -/
theorem Comes.cases (comes : Comes turn s s'') : s = s'' ∨ ∃ s', turn s = .inl s' ∧ Comes turn s' s'' := by
  induction comes with
  | start => exact .inl rfl
  | turn _ go ih =>
    rcases ih with rfl | ⟨s',first,rest⟩
    · exact .inr ⟨_,go,.start⟩
    · exact .inr ⟨s',first,.turn rest go⟩

theorem run_comes (ends : run turn n s = some e) : ∃ p, Comes turn s p ∧ turn p = .inr e := by
  induction n generalizing s with
  | zero => cases ends
  | succ n ih =>
    rw [run] at ends
    cases next : turn s with
    | inl s' =>
      rw [next] at ends
      obtain ⟨p,comes,stop⟩ := ih ends
      exact ⟨p,comes.head next,stop⟩
    | inr e' =>
      rw [next] at ends
      cases ends
      exact ⟨s,.start,next⟩

/-- Turns in front of a run. -/
theorem Comes.run_add (comes : Comes turn s s') : ∃ m, ∀ n, run turn (m + n) s = run turn n s' := by
  induction comes with
  | start => exact ⟨0,fun n => by rw [Nat.zero_add]⟩
  | @turn p p' _ go ih =>
    obtain ⟨m,same⟩ := ih
    refine ⟨m + 1,fun n => ?_⟩
    rw [Nat.add_assoc,Nat.add_comm 1,same,run,go]

/-- The loop ends with a result exactly when it comes to a state where it stops with it. -/
theorem run_iff : (∃ n, run turn n s = some e) ↔ ∃ p, Comes turn s p ∧ turn p = .inr e := by
  constructor
  · rintro ⟨n,ends⟩
    exact run_comes ends
  · rintro ⟨p,comes,stop⟩
    obtain ⟨m,same⟩ := comes.run_add
    exact ⟨m + 1,by rw [same,run,stop]⟩

theorem run_unique {m : Nat} {e' : ε} (ends : run turn n s = some e) (ends' : run turn m s = some e') :
    e = e' := by
  induction n generalizing s m with
  | zero => cases ends
  | succ n ih =>
    cases m with
    | zero => cases ends'
    | succ m =>
      rw [run] at ends ends'
      cases next : turn s with
      | inl s' =>
        rw [next] at ends ends'
        exact ih ends ends'
      | inr stop =>
        rw [next] at ends ends'
        cases ends
        cases ends'
        rfl

/-- The states that a loop comes to lie one behind another. -/
theorem Comes.linear (first : Comes turn s s') (second : Comes turn s s'') :
    Comes turn s' s'' ∨ Comes turn s'' s' := by
  induction first with
  | start => exact .inl second
  | @turn p p' _ go ih =>
    rcases ih with behind | before
    · rcases behind.cases with rfl | ⟨q,go',rest⟩
      · exact .inr (.turn .start go)
      · cases go.symm.trans go'
        exact .inl rest
    · exact .inr (.turn before go)

theorem run_more {m : Nat} (ends : run turn n s = some e) (more : n ≤ m) : run turn m s = some e := by
  induction n generalizing s m with
  | zero => cases ends
  | succ n ih =>
    obtain ⟨m,rfl⟩ := Nat.exists_eq_add_one_of_ne_zero (Nat.ne_of_gt (Nat.lt_of_lt_of_le (Nat.succ_pos n) more))
    rw [run] at ends ⊢
    cases next : turn s with
    | inl s' =>
      rw [next] at ends
      exact ih ends (Nat.le_of_succ_le_succ more)
    | inr stop =>
      rw [next] at ends
      exact ends

/-- A loop that comes back to a state does not end. -/
theorem Comes.cycle (go : turn s = .inl s') (back : Comes turn s' s) (n : Nat) : run turn n s = none := by
  obtain ⟨m,same⟩ := back.run_add
  induction n using Nat.strongRecOn with
  | ind n ih =>
    cases ends : run turn n s with
    | none => rfl
    | some e =>
      cases n with
      | zero => cases ends
      | succ n =>
        rw [run,go] at ends
        dsimp only at ends
        by_cases short : n ≤ m
        · have none_ := same 0
          rw [Nat.add_zero,run_more ends short] at none_
          cases none_
        · obtain ⟨k,rfl⟩ := Nat.exists_eq_add_of_le (Nat.le_of_not_le short)
          rw [same] at ends
          rw [ih k (by omega)] at ends
          cases ends

/-- From a state that a loop comes to, it ends as it does from the start. -/
theorem Comes.ends (comes : Comes turn s s') (ends : ∃ n, run turn n s = some e) :
    ∃ n, run turn n s' = some e := by
  obtain ⟨p,before,stop⟩ := run_iff.mp ends
  rcases comes.linear before with ahead | behind
  · exact run_iff.mpr ⟨p,ahead,stop⟩
  · rcases behind.cases with rfl | ⟨q,go,_⟩
    · exact run_iff.mpr ⟨p,.start,stop⟩
    · rw [stop] at go
      cases go

end Loops
