import Siegfried.ObjHeap

/-! More turns do not change what `k_obj_alloc` returns. -/
namespace Siegfried.ObjHeap
open Bytes

section Turns
variable {page : Store → Nat → Store × Nat} {s : Liballoc} {maj min size req fuel : Nat} {started : Bool} {best diff : Nat}
  {r : Option (Liballoc × Nat)} {out : Liballoc × Nat} {loop loop' : Liballoc → Nat → Bool → Nat → Option (Liballoc × Nat)}

theorem space_more (found : space s maj size req fuel min = some r) :
    space s maj size req (fuel + 1) min = some r := by
  induction fuel generalizing min with
  | zero => cases found
  | succ fuel ih =>
    rw [space] at found ⊢
    by_cases last : min = 0
    · rw [if_pos last] at found ⊢
      exact found
    · rw [if_neg last] at found ⊢
      dsimp only at found ⊢
      by_cases end_ : (minor s.mem min).next = 0
      · rw [if_pos end_] at found ⊢
        split at found
        · rw [if_pos ‹_›]
          exact found
        · rw [if_neg ‹_›]
          exact ih found
      · rw [if_neg end_] at found ⊢
        split at found
        · rw [if_pos ‹_›]
          exact found
        · rw [if_neg ‹_›]
          exact ih found

theorem place_more (found : place s maj size req fuel = some r) : place s maj size req (fuel + 1) = some r := by
  rw [place] at found ⊢
  by_cases none_ : (major s.mem maj).first = 0
  · rw [if_pos none_] at found ⊢
    exact found
  · rw [if_neg none_] at found ⊢
    split at found
    · rw [if_pos ‹_›]
      exact found
    · rw [if_neg ‹_›]
      exact space_more found

/-- What comes behind a turn has the same results. -/
def Agrees (loop loop' : Liballoc → Nat → Bool → Nat → Option (Liballoc × Nat)) : Prop :=
  ∀ s maj started best out, loop s maj started best = some out → loop' s maj started best = some out

theorem blockFull_more (agrees : Agrees loop loop') (found : blockFull page size loop s maj started best = some out) :
    blockFull page size loop' s maj started best = some out := by
  rw [blockFull] at found ⊢
  by_cases next : (major s.mem maj).next ≠ 0
  · rw [if_pos next] at found ⊢
    exact agrees _ _ _ _ _ found
  · rw [if_neg next] at found ⊢
    by_cases bet : started = true
    · rw [if_pos bet] at found ⊢
      exact agrees _ _ _ _ _ found
    · rw [if_neg bet] at found ⊢
      split at found
      · cases found
      · rw [if_neg ‹_›]
        exact agrees _ _ _ _ _ found

theorem tryBlock_more (agrees : Agrees loop loop') (found : tryBlock page size req fuel loop s maj started best = some out) :
    tryBlock page size req (fuel + 1) loop' s maj started best = some out := by
  rw [tryBlock] at found ⊢
  by_cases none_ : maj = 0
  · rw [if_pos none_] at found
    cases found
  · rw [if_neg none_] at found ⊢
    cases tried : place s maj size req fuel with
    | none =>
      rw [tried] at found
      cases found
    | some r =>
      rw [tried] at found
      rw [place_more tried]
      cases r with
      | none => exact blockFull_more agrees found
      | some done => exact found

theorem tryMajor_more (agrees : Agrees loop loop')
    (found : tryMajor page size req fuel loop diff s maj started best = some out) :
    tryMajor page size req (fuel + 1) loop' diff s maj started best = some out := by
  rw [tryMajor] at found ⊢
  by_cases small : diff < size + 36
  · rw [if_pos small] at found ⊢
    by_cases next : (major s.mem maj).next ≠ 0
    · rw [if_pos next] at found ⊢
      exact agrees _ _ _ _ _ found
    · rw [if_neg next] at found ⊢
      by_cases bet : started = true
      · rw [if_pos bet] at found ⊢
        exact agrees _ _ _ _ _ found
      · rw [if_neg bet] at found ⊢
        exact tryBlock_more agrees found
  · rw [if_neg small] at found ⊢
    exact tryBlock_more agrees found

theorem allocLoop_more : Agrees (allocLoop page size req fuel) (allocLoop page size req (fuel + 1)) := by
  induction fuel with
  | zero => exact fun _ _ _ _ _ found => nomatch found
  | succ fuel ih =>
    intro s maj started best out found
    rw [allocLoop,turn] at found ⊢
    exact tryMajor_more ih found

theorem search_more (found : search page s fuel req size = some out) : search page s (fuel + 1) req size = some out := by
  rw [search] at found ⊢
  by_cases bet : s.bestBet ≠ 0
  · rw [if_pos bet] at found ⊢
    dsimp only at found ⊢
    split at found
    · rw [if_pos ‹_›]
      exact allocLoop_more _ _ _ _ _ found
    · rw [if_neg ‹_›]
      exact allocLoop_more _ _ _ _ _ found
  · rw [if_neg bet] at found ⊢
    exact allocLoop_more _ _ _ _ _ found

theorem objAlloc_step (found : objAlloc page s fuel req size = some out) :
    objAlloc page s (fuel + 1) req size = some out := by
  rw [objAlloc] at found ⊢
  generalize initRoot page { s with cr3 := s.pml4Table } size = s1 at *
  by_cases none_ : s1.memRoot = 0
  · rw [if_pos none_] at found ⊢
    exact found
  · rw [if_neg none_] at found ⊢
    by_cases marked : (major s1.mem s1.memRoot).first = 0xdeadbeef
    · rw [if_pos marked] at found
      cases found
    · rw [if_neg marked] at found ⊢
      obtain ⟨r,here,same⟩ := Option.map_eq_some_iff.mp found
      exact Option.map_eq_some_iff.mpr ⟨r,search_more here,same⟩

theorem kObjAlloc_step (found : kObjAlloc page s fuel req = some out) : kObjAlloc page s (fuel + 1) req = some out := by
  rw [kObjAlloc] at found ⊢
  obtain ⟨r,here,low⟩ := Option.bind_eq_some_iff.mp found
  refine Option.bind_eq_some_iff.mpr ⟨r,?_,low⟩
  by_cases zero : (req + (128 + 16)) % 2^64 = 0
  · rw [if_pos zero] at here ⊢
    exact objAlloc_step here
  · rw [if_neg zero] at here ⊢
    exact objAlloc_step here

/-- What `k_obj_alloc` returns does not depend on the number of turns. -/
theorem kObjAlloc_stable {fuel' : Nat} (found : kObjAlloc page s fuel req = some out) (more : fuel ≤ fuel') :
    kObjAlloc page s fuel' req = some out := by
  induction more with
  | refl => exact found
  | step _ ih => exact kObjAlloc_step ih

end Turns

end Siegfried.ObjHeap
