import Siegfried.History

/-! A source of pages that serves wherever another one does, with the same result,
can stand in for it: so a call that does not need the page heap to grow ends the same
way whether or not it may grow. -/
namespace Siegfried

/-- Every result of `x` is one of `y`. -/
structure Agrees {α : Type} (x y : Option α) : Prop where
  result : ∀ r, x = some r → y = some r

def Finer (alloc other : Kernel → Option (Kernel × Nat)) : Prop := ∀ k, Agrees (alloc k) (other k)

section Agrees
variable {α β : Type}

theorem Agrees.refl (x : Option α) : Agrees x x := ⟨fun _ h => h⟩

theorem Agrees.bind {x y : Option α} {f g : α → Option β} (first : Agrees x y)
    (rest : ∀ a, Agrees (f a) (g a)) : Agrees (x >>= f) (y >>= g) := by
  constructor
  intro r h
  obtain ⟨a,ha,h⟩ := Option.bind_eq_some_iff.mp h
  rw [first.result a ha]
  exact (rest a).result r h

theorem Agrees.foldlM {f g : α → β → Option α} (body : ∀ s b, Agrees (f s b) (g s b)) (l : List β)
    (s : α) : Agrees (l.foldlM f s) (l.foldlM g s) := by
  induction l generalizing s with
  | nil => exact .refl _
  | cons b l ih =>
    rw [List.foldlM_cons,List.foldlM_cons]
    exact (body s b).bind ih

end Agrees

theorem takePage_finer (n : Nat) : Finer takePage (kPageobjAlloc n) := by
  refine fun k => ⟨?_⟩
  rintro ⟨k',p⟩ h
  cases n with
  | zero => exact h
  | succ n =>
    obtain ⟨t,taken,_,low,_,_⟩ := takePage_some h
    simp only [takePage,kPageobjAllocWith,taken,low,Option.bind_eq_bind,Option.bind_some] at h
    simp only [kPageobjAlloc,kPageobjAllocWith,taken,low,Option.bind_eq_bind,Option.bind_some]
    exact h

section Functions
variable {alloc other : Kernel → Option (Kernel × Nat)} (finer : Finer alloc other)
include finer

theorem openTable_agrees (missing : Entry → Bool) (fresh flags : Entry → Entry) (k : Kernel)
    (p : Nat) (i : Fin 512) : Agrees (openTable alloc missing fresh flags k p i)
      (openTable other missing fresh flags k p i) := by
  simp only [openTable]
  split
  · exact (finer k).bind fun _ => .refl _
  · exact .refl _

theorem mapPage_agrees (style : MapStyle) (k : Kernel) (tab phy vir : Nat) :
    Agrees (mapPage style alloc k tab phy vir) (mapPage style other k tab phy vir) :=
  (openTable_agrees finer ..).bind fun _ => (openTable_agrees finer ..).bind fun _ => .refl _

omit finer in
theorem allocPages_agrees {page other : Kernel → Nat → Nat → Option Kernel}
    (body : ∀ k phy vir, Agrees (page k phy vir) (other k phy vir)) (addr n pi : Nat) (k : Kernel)
    (off : Nat) : Agrees (allocPages page addr n pi k off) (allocPages other addr n pi k off) := by
  induction n generalizing pi k off with
  | zero => exact .refl _
  | succ n ih =>
    exact (Agrees.refl _).bind fun _ => (body ..).bind fun _ => ih ..

theorem pageFindAndAlloc_agrees (k : Kernel) (pgs : Nat) :
    Agrees (pageFindAndAlloc alloc k pgs) (pageFindAndAlloc other k pgs) := by
  refine (Agrees.refl _).bind fun i => Agrees.bind ?_ fun _ => .refl _
  exact allocPages_agrees (fun _ _ _ => mapPage_agrees finer ..) ..

theorem pageFindAndAllocUser_agrees (k : Kernel) (tab vaddr pgs : Nat) :
    Agrees (pageFindAndAllocUser alloc k tab vaddr pgs)
      (pageFindAndAllocUser other k tab vaddr pgs) := by
  refine (Agrees.refl _).bind fun i => ?_
  split
  · exact .refl _
  split
  · exact .refl _
  refine Agrees.bind ?_ fun _ => .refl _
  exact allocPages_agrees (fun _ _ _ => mapPage_agrees finer ..) ..

theorem mapPaddr_agrees (style : MapStyle) (k : Kernel) (paddr pgs : Nat) :
    Agrees (mapPaddr alloc k style paddr pgs) (mapPaddr other k style paddr pgs) := by
  simp only [mapPaddr]
  split
  · exact .refl _
  refine Agrees.bind ?_ fun _ => .refl _
  exact Agrees.foldlM (fun _ _ => mapPage_agrees finer ..) ..

theorem clonePdpte_agrees (dest src : Nat) (k : Kernel) (i : Fin 512) :
    Agrees (clonePdpte alloc dest src k i) (clonePdpte other dest src k i) := by
  simp only [clonePdpte]
  split
  · exact (finer _).bind fun _ => .refl _
  · exact .refl _

theorem clonePml4e_agrees (dest src : Nat) (k : Kernel) (i : Fin 512) :
    Agrees (clonePml4e alloc dest src k i) (clonePml4e other dest src k i) := by
  simp only [clonePml4e]
  split
  · exact (finer _).bind fun _ => Agrees.foldlM (fun _ _ => clonePdpte_agrees finer ..) ..
  · exact .refl _

theorem pageCloneKrnlTab_agrees (k : Kernel) (dest : Nat) :
    Agrees (pageCloneKrnlTab alloc k dest) (pageCloneKrnlTab other k dest) :=
  (Agrees.foldlM (fun _ _ => clonePml4e_agrees finer ..) ..).bind fun _ => .refl _

theorem History.call_agrees (w : History) (c : Call) : Agrees (w.call alloc c) (w.call other c) := by
  cases c with
  | findAndAlloc pgs => exact (pageFindAndAlloc_agrees finer ..).bind fun _ => .refl _
  | findAndAllocUser tab vaddr pgs =>
    simp only [History.call]
    split
    · exact (pageFindAndAllocUser_agrees finer ..).bind fun _ => .refl _
    · exact .refl _
  | startTask =>
    exact (finer _).bind fun _ => (pageCloneKrnlTab_agrees finer ..).bind fun _ => .refl _
  | pageobjAlloc => exact (finer _).bind fun _ => .refl _
  | mapPaddr paddr pgs => exact (mapPaddr_agrees finer ..).bind fun _ => .refl _
  | mapPaddrMmio paddr pgs => exact (mapPaddr_agrees finer ..).bind fun _ => .refl _
  | freeFound l => exact .refl _
  | freeFoundUser l => exact .refl _
  | cleanup tab segs => exact .refl _
  | pageobjFree p => exact .refl _
  | markAvailable addr len => exact .refl _
  | switchTab tab => exact .refl _

end Functions

end Siegfried
