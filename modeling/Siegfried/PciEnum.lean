import Siegfried.PciBar
import Siegfried.PciConfig
import Siegfried.Descent

/-! `pci_enum_bus` of `pci.c`: the functions behind the bridges, on any configuration space. -/
namespace Siegfried

/-- Where a function is. -/
structure PciPlace where
  bus : Nat
  dev : Nat
  func : Nat
  deriving DecidableEq

structure PciDevEnt extends PciPlace where
  cl : BitVec 8
  subcl : BitVec 8
  vendor : BitVec 16
  devid : BitVec 16

/-- The configuration space, `pci_root`, and the entries from `pci_bridge_root` on: the link of
the last one is not set. -/
structure PciState where
  space : PciPlace → PciFunction
  root : List PciDevEnt
  bridgeRoot : List PciBridgeEnt

namespace PciFunction
variable (f : PciFunction)

def pciGetSub : BitVec 8 := (f.pciReadConw 0xa &&& 0xff).setWidth 8
def pciGetSec : BitVec 8 := (f.pciReadConw 0x18 >>> 8).setWidth 8
def pciGetCl : BitVec 8 := (f.pciReadConw 0xa >>> 8).setWidth 8
def pciGetType : BitVec 8 := (f.pciReadConw 0xe &&& 0xff).setWidth 8
def pciGetVendor : BitVec 16 := f.pciReadConw 0

/-- The entry of a function. -/
def ent (p : PciPlace) : PciDevEnt := ⟨p,f.pciGetCl,f.pciGetSub,f.pciGetVendor,f.pciReadConw 2⟩

/-- A volume management device. -/
def Vmd : Prop := f.pciGetVendor = 0x8086 ∧ (f.pciReadConw 2 = 0x467f ∨ f.pciReadConw 2 = 0x201d)

/-- A bridge to another bus. -/
def Bridge : Prop := f.pciGetCl = 0x6 ∧ f.pciGetSub = 0x4

instance : Decidable f.Vmd := inferInstanceAs (Decidable (_ ∧ _))
instance : Decidable f.Bridge := inferInstanceAs (Decidable (_ ∧ _))

/-- The first bus behind a VMD; `unset` is what `vmd_bus` holds where no case sets it. -/
def vmdBus (unset : BitVec 8) : BitVec 8 :=
  let bits := (f.pciReadConw 0x44 >>> 8).setWidth 8 &&& 0b11
  if bits = 0 then 0 else if bits = 0x1 then 128 else if bits = 0b10 then 224 else unset

end PciFunction

namespace PciState

def pciNewDevEnt (s : PciState) (e : PciDevEnt) : PciState := { s with root := s.root ++ [e] }

def pciReadBarSize (s : PciState) (p : PciPlace) (off : Nat) : BitVec 64 × PciState :=
  let (sz,f) := (s.space p).pciReadBarSize off
  (sz,{ s with space := Function.update s.space p f })

end PciState

section Enumeration

-- what is left in `vmd_bus`, and what `page_map_paddr_mmio` returns for the address and the
-- number of pages of a window
variable (unset : PciPlace → BitVec 8) (window : PciPlace → Nat → Nat → Nat)
  (enumBus : PciState → Nat → Option PciState) (s : PciState)

/-- The window of a VMD and the buses behind it. Past an entry whose link is not set there is no telling. -/
def pciEnumVmd (p : PciPlace) : Option PciState :=
  let vmdBus := (s.space p).vmdBus (unset p)
  let i := s.bridgeRoot.findIdx (fun b => b.ecamAddr = 0)
  if s.bridgeRoot.length ≤ i then none
  else do
    let ecamAddr := ((s.space p).pciReadBar 0x10).toNat
    let (sz,s) := s.pciReadBarSize p 0x10
    let ecamAddr := window p ecamAddr (sz.toNat / 0x200000)
    let (sz,s) := s.pciReadBarSize p 0x10
    let s := { s with bridgeRoot := s.bridgeRoot.set i ⟨vmdBus.toNat,vmdBus.toNat + sz.toNat / 2^20,ecamAddr⟩ }
    let s ← enumBus s vmdBus.toNat
    some { s with bridgeRoot := s.bridgeRoot.take (i + 1) ++ [⟨0,0,0⟩] }

def pciEnumFunc (p : PciPlace) : Option PciState := do
  let f := s.space p
  let s := s.pciNewDevEnt (f.ent p)
  let s ← if f.Vmd then pciEnumVmd unset window enumBus s p else some s
  if f.Bridge then enumBus s (s.space p).pciGetSec.toNat else some s

def pciEnumDev (bus device : Nat) : Option PciState :=
  if (s.space ⟨bus,device,0⟩).pciGetVendor = 0xFFFF then some s
  else do
    let s ← pciEnumFunc unset window enumBus s ⟨bus,device,0⟩
    if (s.space ⟨bus,device,0⟩).pciGetType &&& 0x80 ≠ 0 then
      (List.range' 1 7).foldlM (fun s function =>
        if (s.space ⟨bus,device,function⟩).pciGetVendor ≠ 0xFFFF then
          pciEnumFunc unset window enumBus s ⟨bus,device,function⟩
        else some s) s
    else some s

end Enumeration

/-- `pci_enum_bus`, at most `n` buses deep. -/
def pciEnumBus (unset : PciPlace → BitVec 8) (window : PciPlace → Nat → Nat → Nat) :
    Nat → PciState → Nat → Option PciState
  | 0, _, _ => none
  | n + 1, s, bus => (List.range 32).foldlM (fun s device =>
      pciEnumDev unset window (pciEnumBus unset window n) s bus device) s

/-- What `pci_enum` starts from: the registers, the low four bits of the first base address
register being fixed, and the entries made from the MCFG table with the one behind them. -/
structure PciStart where
  space : PciPlace → PciFunction
  bridges : List PciBridgeEnt
  fixed : ∀ p, ∀ b < 4, ((space p).rw 4).getLsbD b = false

def PciStart.state (m : PciStart) : PciState := ⟨m.space,[],m.bridges ++ [⟨0,0,0⟩]⟩

section Graph
variable (unset : PciPlace → BitVec 8) (space : PciPlace → PciFunction)

/-- The functions of a device. -/
def deviceFunctions (bus device : Nat) : List PciPlace :=
  if (space ⟨bus,device,0⟩).pciGetVendor = 0xFFFF then []
  else ⟨bus,device,0⟩ :: if (space ⟨bus,device,0⟩).pciGetType &&& 0x80 ≠ 0 then
      ((List.range' 1 7).filter fun function =>
        (space ⟨bus,device,function⟩).pciGetVendor ≠ 0xFFFF).map fun function => ⟨bus,device,function⟩
    else []

def busFunctions (bus : Nat) : List PciPlace := (List.range 32).flatMap (deviceFunctions space bus)

/-- The functions on the buses behind a function. -/
def behind (p : PciPlace) : List PciPlace :=
  (if (space p).Vmd then busFunctions space ((space p).vmdBus (unset p)).toNat else []) ++
    if (space p).Bridge then busFunctions space (space p).pciGetSec.toNat else []

/-- The functions that can be reached. -/
def PciReach (p : PciPlace) : Prop := Descent.Reach (behind unset space) (busFunctions space 0) p

/-- No bus with a function on it is behind two functions, or twice behind one, and bus 0 behind none. -/
def OneWay : Prop := Descent.Treelike (behind unset space) (busFunctions space 0)

/-- No VMD is behind a VMD. -/
def NoVmdBehind : Prop := ∀ v, PciReach unset space v → (space v).Vmd → ∀ q,
  Descent.Reach (behind unset space) (busFunctions space ((space v).vmdBus (unset v)).toNat) q → ¬(space q).Vmd

end Graph

/-- The enumeration ends with every function that can be reached listed once. -/
def PciListed (unset : PciPlace → BitVec 8) (window : PciPlace → Nat → Nat → Nat) (m : PciStart) : Prop :=
  ∃ (n : Nat) (s' : PciState) (l : List PciPlace), pciEnumBus unset window n m.state 0 = some s' ∧ s'.root = l.map (fun p => (m.space p).ent p) ∧
    l.Nodup ∧ ∀ p, p ∈ l ↔ PciReach unset m.space p

section Run
variable {unset : PciPlace → BitVec 8} {window : PciPlace → Nat → Nat → Nat} {space : PciPlace → PciFunction}
  {enumBus : PciState → Nat → Option PciState} {s s' : PciState} {p : PciPlace} {n bus device : Nat}
  {as bs : List PciPlace} {chain : List PciBridgeEnt}

/-- The configuration space stays. -/
def Stays {β : Type} (space : PciPlace → PciFunction) (go : PciState → β → Option PciState) : Prop :=
  ∀ s b s', s.space = space → go s b = some s' → s'.space = space

theorem stays_foldlM {β : Type} {go : PciState → β → Option PciState} (stays : Stays space go) :
    Stays space (fun s (l : List β) => l.foldlM go s) := by
  intro s l s' same ran
  induction l generalizing s with
  | nil =>
    cases ran
    exact same
  | cons b l ih =>
    obtain ⟨s1,first,rest⟩ := Option.bind_eq_some_iff.mp ran
    exact ih s1 (stays s b s1 same first) rest

/-- Sizing a window leaves everything as it is. -/
theorem PciState.pciReadBarSize_same (fixed : ∀ b < 4, ((s.space p).rw 4).getLsbD b = false) :
    s.pciReadBarSize p 0x10 = (((s.space p).pciReadBarSize 0x10).1,s) := by
  have update : Function.update s.space p ((s.space p).pciReadBarSize 0x10).2 = s.space := by
    rw [PciFunction.pciReadBarSize_restored _ fixed]
    exact Function.update_eq_self ..
  rw [PciState.pciReadBarSize]
  dsimp only
  rw [update]

/-- The first entry that is free. -/
def freeEntry (chain : List PciBridgeEnt) : Nat := chain.findIdx (fun b => b.ecamAddr = 0)

/-- The entry that a VMD makes. -/
def vmdEnt (unset : PciPlace → BitVec 8) (window : PciPlace → Nat → Nat → Nat) (f : PciFunction) (p : PciPlace) :
    PciBridgeEnt :=
  let sz := (f.pciReadBarSize 0x10).1
  ⟨(f.vmdBus (unset p)).toNat,(f.vmdBus (unset p)).toNat + sz.toNat / 2^20,
    window p (f.pciReadBar 0x10).toNat (sz.toNat / 0x200000)⟩

variable (fixed : ∀ p, ∀ b < 4, ((space p).rw 4).getLsbD b = false)
include fixed

theorem pciEnumVmd_eq (same : s.space = space) : pciEnumVmd unset window enumBus s p =
    if s.bridgeRoot.length ≤ freeEntry s.bridgeRoot then none
    else (enumBus { s with bridgeRoot := s.bridgeRoot.set (freeEntry s.bridgeRoot) (vmdEnt unset window (space p) p) }
      ((space p).vmdBus (unset p)).toNat).map fun s1 =>
        { s1 with bridgeRoot := s1.bridgeRoot.take (freeEntry s.bridgeRoot + 1) ++ [⟨0,0,0⟩] } := by
  subst same
  rw [pciEnumVmd,PciState.pciReadBarSize_same (fixed p)]
  dsimp only
  rw [PciState.pciReadBarSize_same (fixed p),Option.map_eq_bind]
  rfl

theorem pciEnumVmd_stays (stays : Stays space enumBus) :
    Stays space (pciEnumVmd unset window enumBus) := by
  intro s p s' same ran
  rw [pciEnumVmd_eq fixed same] at ran
  split at ran
  · cases ran
  · obtain ⟨s1,below,rfl⟩ := Option.map_eq_some_iff.mp ran
    refine stays _ _ s1 ?_ below
    exact same

omit fixed in
theorem pciEnumFunc_eq (same : s.space = space) : pciEnumFunc unset window enumBus s p =
    (if (space p).Vmd then pciEnumVmd unset window enumBus (s.pciNewDevEnt ((space p).ent p)) p
      else some (s.pciNewDevEnt ((space p).ent p))).bind fun s1 =>
        if (space p).Bridge then enumBus s1 (s1.space p).pciGetSec.toNat else some s1 := by
  subst same
  by_cases vmd : (s.space p).Vmd
  · rw [pciEnumFunc,if_pos vmd,if_pos vmd]
    rfl
  · rw [pciEnumFunc,if_neg vmd,if_neg vmd]
    rfl

theorem pciEnumFunc_stays (stays : Stays space enumBus) : Stays space (pciEnumFunc unset window enumBus) := by
  intro s p s' same ran
  rw [pciEnumFunc_eq same] at ran
  obtain ⟨s1,first,second⟩ := Option.bind_eq_some_iff.mp ran
  have middle : s1.space = space := by
    split at first
    · exact pciEnumVmd_stays fixed stays (s.pciNewDevEnt _) p s1 same first
    · cases first
      exact same
  split at second
  · exact stays s1 _ s' middle second
  · cases second
    exact middle

theorem pciEnumDev_eq (stays : Stays space enumBus) (same : s.space = space) :
    pciEnumDev unset window enumBus s bus device =
      (deviceFunctions space bus device).foldlM (pciEnumFunc unset window enumBus) s := by
  have rest (l : List Nat) (s : PciState) (same : s.space = space) :
      l.foldlM (fun s function => if (s.space ⟨bus,device,function⟩).pciGetVendor ≠ 0xFFFF then
        pciEnumFunc unset window enumBus s ⟨bus,device,function⟩ else some s) s =
      ((l.filter fun function => (space ⟨bus,device,function⟩).pciGetVendor ≠ 0xFFFF).map
        fun function => (⟨bus,device,function⟩ : PciPlace)).foldlM (pciEnumFunc unset window enumBus) s := by
    induction l generalizing s with
    | nil => rfl
    | cons function l ih =>
      rw [List.foldlM_cons,same]
      by_cases absent : (space ⟨bus,device,function⟩).pciGetVendor = 0xFFFF
      · simp only [List.filter_cons,absent,ne_eq,not_true,if_false,decide_false,Bool.false_eq_true]
        exact ih s same
      · simp only [List.filter_cons,absent,ne_eq,not_false_eq_true,if_true,decide_true,List.map_cons,
          List.foldlM_cons]
        refine Option.bind_congr fun s1 first => ?_
        exact ih s1 (pciEnumFunc_stays fixed stays s _ s1 same first)
  rw [pciEnumDev,deviceFunctions,same]
  split
  · rfl
  · rw [List.foldlM_cons]
    refine Option.bind_congr fun s1 first => ?_
    have same := pciEnumFunc_stays fixed stays s _ s1 same first
    rw [same]
    split
    · rw [← rest _ s1 same]
    · rfl

/-- A bus is enumerated by enumerating its functions. -/
theorem pciEnumBus_eq (stays : Stays space (pciEnumBus unset window n)) (same : s.space = space) :
    pciEnumBus unset window (n + 1) s bus =
      (busFunctions space bus).foldlM (pciEnumFunc unset window (pciEnumBus unset window n)) s := by
  rw [pciEnumBus,busFunctions]
  generalize List.range 32 = devices
  induction devices generalizing s with
  | nil => rfl
  | cons device devices ih =>
    rw [List.foldlM_cons,pciEnumDev_eq fixed stays same,List.flatMap_cons,List.foldlM_append]
    refine Option.bind_congr fun s1 first => ?_
    exact ih (stays_foldlM (pciEnumFunc_stays fixed stays) s _ s1 same first)

theorem pciEnumBus_stays (n : Nat) : Stays space (pciEnumBus unset window n) := by
  induction n with
  | zero =>
    intro s bus s' same ran
    cases ran
  | succ n ih =>
    intro s bus s' same ran
    rw [pciEnumBus_eq fixed ih same] at ran
    exact stays_foldlM (pciEnumFunc_stays fixed ih) s _ s' same ran

end Run

section Listing
variable {unset : PciPlace → BitVec 8} {window : PciPlace → Nat → Nat → Nat} {space : PciPlace → PciFunction}
  {enumBus : PciState → Nat → Option PciState} {s s' s1 : PciState} {p : PciPlace} {n bus : Nat}
  {as bs l l1 l2 : List PciPlace} {chain : List PciBridgeEnt}

/-- No entry is free. -/
def NoneFree (chain : List PciBridgeEnt) : Prop := ∀ e ∈ chain, e.ecamAddr ≠ 0

/-- The last entry only is free. -/
def LastFree (chain : List PciBridgeEnt) : Prop := ∃ pre e, chain = pre ++ [e] ∧ NoneFree pre ∧ e.ecamAddr = 0

/-- Nothing behind a VMD is one. -/
def LastVmd (unset : PciPlace → BitVec 8) (space : PciPlace → PciFunction) (v : PciPlace) : Prop :=
  (space v).Vmd → ∀ q,
    Descent.Reach (behind unset space) (busFunctions space ((space v).vmdBus (unset v)).toNat) q → ¬(space q).Vmd

/-- What an enumeration that lists these functions does to the entries of the bridges. -/
structure Tidy (unset : PciPlace → BitVec 8) (window : PciPlace → Nat → Nat → Nat) (space : PciPlace → PciFunction)
    (s s' : PciState) (l : List PciPlace) : Prop where
  taken : NoneFree s.bridgeRoot → s'.bridgeRoot = s.bridgeRoot ∧ ∀ q ∈ l, ¬(space q).Vmd
  open_ : (∀ p a n, window p a n ≠ 0) → LastFree s.bridgeRoot → LastFree s'.bridgeRoot ∧ ∀ v ∈ l, LastVmd unset space v

theorem Tidy.nil : Tidy unset window space s s [] where
  taken _ := ⟨rfl,fun _ member => absurd member List.not_mem_nil⟩
  open_ _ here := ⟨here,fun _ member => absurd member List.not_mem_nil⟩

theorem Tidy.append (first : Tidy unset window space s s1 l1) (second : Tidy unset window space s1 s' l2) :
    Tidy unset window space s s' (l1 ++ l2) where
  taken taken := by
    obtain ⟨same,none1⟩ := first.taken taken
    obtain ⟨same',none2⟩ := second.taken (same ▸ taken)
    refine ⟨same'.trans same,fun q member => ?_⟩
    rcases List.mem_append.mp member with here | there
    · exact none1 q here
    · exact none2 q there
  open_ mapped here := by
    obtain ⟨middle,last1⟩ := first.open_ mapped here
    obtain ⟨after,last2⟩ := second.open_ mapped middle
    refine ⟨after,fun v member => ?_⟩
    rcases List.mem_append.mp member with here | there
    · exact last1 v here
    · exact last2 v there

/-- What an enumeration lists: a walk. -/
def Lists (unset : PciPlace → BitVec 8) (window : PciPlace → Nat → Nat → Nat) (space : PciPlace → PciFunction)
    (n : Nat) (as : List PciPlace) (s s' : PciState) : Prop :=
  ∃ l, Descent.walks (Descent.walk (behind unset space) n) as = some l ∧
    (s'.root = s.root ++ l.map fun p => (space p).ent p) ∧ Tidy unset window space s s' l

theorem Lists.nil : Lists unset window space n [] s s := ⟨[],rfl,(List.append_nil _).symm,.nil⟩

theorem Lists.append (first : Lists unset window space n as s s1) (second : Lists unset window space n bs s1 s') :
    Lists unset window space n (as ++ bs) s s' := by
  obtain ⟨l1,walked,listed,tidy⟩ := first
  obtain ⟨l2,walked',listed',tidy'⟩ := second
  refine ⟨l1 ++ l2,Descent.walks_append walked walked',?_,tidy.append tidy'⟩
  rw [listed',listed,List.map_append,List.append_assoc]

theorem Lists.foldlM {go : PciState → PciPlace → Option PciState} (stays : Stays space go)
    (each : ∀ s p s', s.space = space → go s p = some s' → Lists unset window space n [p] s s')
    (same : s.space = space) (ran : as.foldlM go s = some s') : Lists unset window space n as s s' := by
  induction as generalizing s with
  | nil =>
    cases ran
    exact .nil
  | cons p as ih =>
    obtain ⟨s1,first,rest⟩ := Option.bind_eq_some_iff.mp ran
    exact (each s p s1 same first).append (ih (stays s p s1 same first) rest)

theorem freeEntry_lt : freeEntry chain < chain.length ↔ ∃ e ∈ chain, e.ecamAddr = 0 := by
  rw [freeEntry,List.findIdx_lt_length]
  simp only [decide_eq_true_eq]

theorem freeEntry_taken (taken : NoneFree chain) : chain.length ≤ freeEntry chain := by
  refine Nat.le_of_not_lt fun inside => ?_
  obtain ⟨e,member,free⟩ := freeEntry_lt.mp inside
  exact taken e member free

/-- In an open chain the free entry is the last one. -/
theorem freeEntry_open {pre : List PciBridgeEnt} {e : PciBridgeEnt} (taken : NoneFree pre) (free : e.ecamAddr = 0) :
    freeEntry (pre ++ [e]) = pre.length := by
  rw [freeEntry,List.findIdx_append,if_neg]
  · simp [free]
  · exact Nat.not_lt.mpr (freeEntry_taken taken)

variable (fixed : ∀ p, ∀ b < 4, ((space p).rw 4).getLsbD b = false)
include fixed

/-- The buses behind a VMD. -/
theorem pciEnumVmd_lists
    (below : ∀ s bus s', s.space = space → enumBus s bus = some s' →
      Lists unset window space n (busFunctions space bus) s s')
    (same : s.space = space) (ran : pciEnumVmd unset window enumBus s p = some s') :
    ¬NoneFree s.bridgeRoot ∧
    Lists unset window space n (busFunctions space ((space p).vmdBus (unset p)).toNat) s s' ∧
    ((∀ p a n, window p a n ≠ 0) → LastFree s.bridgeRoot → LastVmd unset space p) := by
  rw [pciEnumVmd_eq fixed same] at ran
  split at ran
  · cases ran
  · next inside =>
    have some_ : ¬NoneFree s.bridgeRoot := fun taken => inside (freeEntry_taken taken)
    obtain ⟨s2,nested,rfl⟩ := Option.map_eq_some_iff.mp ran
    obtain ⟨l,walked,listed,tidy⟩ := below _ _ s2 (by exact same) nested
    -- with the free entry taken there is none for a VMD behind this one
    have opened (mapped : ∀ p a n, window p a n ≠ 0) (here : LastFree s.bridgeRoot) :
        LastFree (s2.bridgeRoot.take (freeEntry s.bridgeRoot + 1) ++ [⟨0,0,0⟩]) ∧ ∀ q ∈ l, ¬(space q).Vmd := by
      obtain ⟨pre,e,chain,taken,free⟩ := here
      have set : s.bridgeRoot.set (freeEntry s.bridgeRoot) (vmdEnt unset window (space p) p) =
          pre ++ [vmdEnt unset window (space p) p] := by
        rw [chain,freeEntry_open taken free,List.set_append_right _ _ (Nat.le_refl _),Nat.sub_self]
        rfl
      have filled : NoneFree (pre ++ [vmdEnt unset window (space p) p]) := by
        intro x member
        rcases List.mem_append.mp member with before | last
        · exact taken x before
        · rw [List.mem_singleton.mp last]
          exact mapped _ _ _
      obtain ⟨kept,none_⟩ := tidy.taken (by rw [set]; exact filled)
      refine ⟨⟨_,_,rfl,?_,rfl⟩,none_⟩
      rw [kept,set,chain,freeEntry_open taken free,List.take_of_length_le (by simp)]
      exact filled
    refine ⟨some_,⟨l,walked,listed,fun taken => absurd taken some_,fun mapped here => ?_⟩,
      fun mapped here _ q reach => (opened mapped here).2 q ((Descent.mem_walks walked).mpr reach)⟩
    obtain ⟨after,none_⟩ := opened mapped here
    exact ⟨after,fun v member vmd => absurd vmd (none_ v member)⟩

theorem pciEnumFunc_lists (stays : Stays space enumBus)
    (below : ∀ s bus s', s.space = space → enumBus s bus = some s' →
      Lists unset window space n (busFunctions space bus) s s')
    (same : s.space = space) (ran : pciEnumFunc unset window enumBus s p = some s') :
    Lists unset window space (n + 1) [p] s s' := by
  rw [pciEnumFunc_eq same] at ran
  obtain ⟨s1,first,second⟩ := Option.bind_eq_some_iff.mp ran
  have vmd : s1.space = space ∧ (NoneFree s.bridgeRoot → ¬(space p).Vmd) ∧
      Lists unset window space n
        (if (space p).Vmd then busFunctions space ((space p).vmdBus (unset p)).toNat else [])
        (s.pciNewDevEnt ((space p).ent p)) s1 ∧
      ((∀ p a n, window p a n ≠ 0) → LastFree s.bridgeRoot → LastVmd unset space p) := by
    by_cases vmd : (space p).Vmd
    · rw [if_pos vmd] at first ⊢
      obtain ⟨some_,lists,last⟩ := pciEnumVmd_lists fixed below (by exact same) first
      exact ⟨pciEnumVmd_stays fixed stays (s.pciNewDevEnt _) p s1 same first,fun none_ => absurd none_ some_,
        lists,last⟩
    · rw [if_neg vmd] at first ⊢
      cases first
      exact ⟨same,fun _ => vmd,.nil,fun _ _ yes => absurd yes vmd⟩
  obtain ⟨middle,noVmd,listsVmd,last⟩ := vmd
  have bridge : Lists unset window space n
      (if (space p).Bridge then busFunctions space (space p).pciGetSec.toNat else []) s1 s' := by
    rw [middle] at second
    by_cases bridge : (space p).Bridge
    · rw [if_pos bridge] at second ⊢
      exact below s1 _ s' middle second
    · rw [if_neg bridge] at second ⊢
      cases second
      exact .nil
  obtain ⟨l,walked,listed,tidy⟩ := listsVmd.append bridge
  refine ⟨p :: l,?_,?_,?_⟩
  · rw [Descent.walks,Descent.walk,behind,walked]
    exact congrArg some (List.append_nil _)
  · rw [listed,PciState.pciNewDevEnt,List.append_assoc]
    rfl
  · constructor
    · intro none_
      obtain ⟨kept,others⟩ := tidy.taken none_
      exact ⟨kept,List.forall_mem_cons.mpr ⟨noVmd none_,others⟩⟩
    · intro mapped here
      obtain ⟨after,others⟩ := tidy.open_ mapped here
      exact ⟨after,List.forall_mem_cons.mpr ⟨last mapped here,others⟩⟩

/-- Whatever an enumeration that ends lists is a walk from the functions of the bus. -/
theorem pciEnumBus_lists (same : s.space = space) (ran : pciEnumBus unset window n s bus = some s') :
    Lists unset window space n (busFunctions space bus) s s' := by
  induction n generalizing s bus s' with
  | zero => cases ran
  | succ n ih =>
    have stays : Stays space (pciEnumBus unset window n) := pciEnumBus_stays fixed n
    rw [pciEnumBus_eq fixed stays same] at ran
    refine Lists.foldlM (pciEnumFunc_stays fixed stays) (fun s p s' same ran => ?_) same ran
    exact pciEnumFunc_lists fixed stays (fun s bus s' same ran => ih same ran) same ran

end Listing

section Ending
variable {unset : PciPlace → BitVec 8} {window : PciPlace → Nat → Nat → Nat} {space : PciPlace → PciFunction}
  {enumBus : PciState → Nat → Option PciState} {s s' s1 : PciState} {p : PciPlace} {n bus : Nat}
  {as bs l l1 l2 : List PciPlace}

/-- An entry is free. -/
def SomeFree (s : PciState) : Prop := ∃ e ∈ s.bridgeRoot, e.ecamAddr = 0

/-- A walk is one for which the entries do. -/
structure Ready (unset : PciPlace → BitVec 8) (space : PciPlace → PciFunction) (s : PciState) (l : List PciPlace) :
    Prop where
  entry : SomeFree s ∨ ∀ q ∈ l, ¬(space q).Vmd
  last : ∀ v ∈ l, LastVmd unset space v

theorem Ready.left (ready : Ready unset space s (l1 ++ l2)) : Ready unset space s l1 where
  entry := ready.entry.imp_right fun none_ q member => none_ q (List.mem_append_left _ member)
  last v member := ready.last v (List.mem_append_left _ member)

theorem Ready.right (ready : Ready unset space s (l1 ++ l2)) (kept : SomeFree s → SomeFree s1) :
    Ready unset space s1 l2 where
  entry := ready.entry.imp kept fun none_ q member => none_ q (List.mem_append_right _ member)
  last v member := ready.last v (List.mem_append_right _ member)

/-- It ends, with a free entry where there was one. -/
def EndsWith (s : PciState) (out : Option PciState) : Prop := ∃ s', out = some s' ∧ (SomeFree s → SomeFree s')

theorem EndsWith.bind {out : Option PciState} {f : PciState → Option PciState} (first : EndsWith s out)
    (second : ∀ s1, out = some s1 → (SomeFree s → SomeFree s1) → EndsWith s1 (f s1)) : EndsWith s (out.bind f) := by
  obtain ⟨s1,ran,kept⟩ := first
  obtain ⟨s2,ran',kept'⟩ := second s1 ran kept
  exact ⟨s2,by rw [ran,Option.bind_some,ran'],kept' ∘ kept⟩

theorem endsWith_foldlM {go : PciState → PciPlace → Option PciState} (stays : Stays space go)
    (each : ∀ s p l, s.space = space → Descent.walk (behind unset space) n p = some l → Ready unset space s l →
      EndsWith s (go s p))
    (same : s.space = space) (walked : Descent.walks (Descent.walk (behind unset space) n) as = some l)
    (ready : Ready unset space s l) : EndsWith s (as.foldlM go s) := by
  induction as generalizing s l with
  | nil => exact ⟨s,rfl,id⟩
  | cons p as ih =>
    obtain ⟨l1,l2,first,rest,rfl⟩ := Descent.walks_cons walked
    refine (each s p l1 same first ready.left).bind fun s1 ran kept => ?_
    exact ih (stays s p s1 same ran) rest (ready.right kept)

variable (fixed : ∀ p, ∀ b < 4, ((space p).rw 4).getLsbD b = false)
include fixed

theorem pciEnumVmd_ends
    (below : ∀ s bus l, s.space = space →
      Descent.walks (Descent.walk (behind unset space) n) (busFunctions space bus) = some l →
      Ready unset space s l → EndsWith s (enumBus s bus))
    (same : s.space = space) (free : SomeFree s) (vmd : (space p).Vmd) (last : LastVmd unset space p)
    (walked : Descent.walks (Descent.walk (behind unset space) n)
      (busFunctions space ((space p).vmdBus (unset p)).toNat) = some l) :
    EndsWith s (pciEnumVmd unset window enumBus s p) := by
  have none_ : ∀ q ∈ l, ¬(space q).Vmd := fun q member => last vmd q ((Descent.mem_walks walked).mp member)
  rw [pciEnumVmd_eq fixed same,if_neg (Nat.not_le.mpr (freeEntry_lt.mpr free))]
  obtain ⟨s2,ran,_⟩ := below ⟨s.space,s.root,s.bridgeRoot.set _ (vmdEnt unset window (space p) p)⟩ _ l same walked
    ⟨.inr none_,fun v member vmd => absurd vmd (none_ v member)⟩
  refine ⟨_,congrArg _ ran,fun _ => ⟨⟨0,0,0⟩,?_,rfl⟩⟩
  exact List.mem_append_right _ (List.mem_singleton.mpr rfl)

theorem pciEnumFunc_ends (stays : Stays space enumBus)
    (below : ∀ s bus l, s.space = space →
      Descent.walks (Descent.walk (behind unset space) n) (busFunctions space bus) = some l →
      Ready unset space s l → EndsWith s (enumBus s bus))
    (same : s.space = space) (walked : Descent.walk (behind unset space) (n + 1) p = some l)
    (ready : Ready unset space s l) : EndsWith s (pciEnumFunc unset window enumBus s p) := by
  obtain ⟨rest,below_,rfl⟩ := Descent.walk_succ walked
  obtain ⟨l1,l2,vmdWalk,bridgeWalk,rfl⟩ := Descent.walks_of_append below_
  rw [pciEnumFunc_eq same]
  have start : Ready unset space s (l1 ++ l2) :=
    ⟨ready.entry.imp_right fun none_ => (List.forall_mem_cons.mp none_).2,(List.forall_mem_cons.mp ready.last).2⟩
  have first : EndsWith s (if (space p).Vmd then
      pciEnumVmd unset window enumBus (s.pciNewDevEnt ((space p).ent p)) p
      else some (s.pciNewDevEnt ((space p).ent p))) := by
    by_cases vmd : (space p).Vmd
    · rw [if_pos vmd] at vmdWalk ⊢
      have free : SomeFree s := ready.entry.resolve_right fun none_ => none_ p List.mem_cons_self vmd
      have ends : EndsWith (s.pciNewDevEnt ((space p).ent p))
          (pciEnumVmd unset window enumBus (s.pciNewDevEnt ((space p).ent p)) p) :=
        pciEnumVmd_ends fixed below same free vmd (ready.last p List.mem_cons_self) vmdWalk
      exact ends
    · rw [if_neg vmd]
      exact ⟨_,rfl,id⟩
  refine first.bind fun s1 ran kept => ?_
  have middle : s1.space = space := by
    split at ran
    · exact pciEnumVmd_stays fixed stays (s.pciNewDevEnt _) p s1 same ran
    · cases ran
      exact same
  rw [middle]
  by_cases bridge : (space p).Bridge
  · rw [if_pos bridge] at bridgeWalk ⊢
    exact below s1 _ l2 middle bridgeWalk (start.right kept)
  · rw [if_neg bridge]
    exact ⟨s1,rfl,id⟩

/-- Where the walk ends, and with an entry for every VMD on it, so does the enumeration. -/
theorem pciEnumBus_ends (same : s.space = space)
    (walked : Descent.walks (Descent.walk (behind unset space) n) (busFunctions space bus) = some l)
    (ready : Ready unset space s l) : EndsWith s (pciEnumBus unset window (n + 1) s bus) := by
  induction n generalizing s bus l with
  | zero =>
    rw [pciEnumBus_eq fixed (pciEnumBus_stays fixed 0) same]
    refine endsWith_foldlM (pciEnumFunc_stays fixed (pciEnumBus_stays fixed 0)) ?_ same walked ready
    intro s p l _ walked
    cases walked
  | succ n ih =>
    have stays : Stays space (pciEnumBus unset window (n + 1)) := pciEnumBus_stays fixed (n + 1)
    rw [pciEnumBus_eq fixed stays same]
    refine endsWith_foldlM (pciEnumFunc_stays fixed stays) ?_ same walked ready
    intro s p l same walked ready
    exact pciEnumFunc_ends fixed stays (fun s bus l same walked ready => ih same walked ready) same walked ready

end Ending

theorem mem_busFunctions {space : PciPlace → PciFunction} {bus : Nat} {p : PciPlace}
    (member : p ∈ busFunctions space bus) : p.bus = bus ∧ p.dev < 32 ∧ p.func < 8 := by
  obtain ⟨device,inside,there⟩ := List.mem_flatMap.mp member
  have inside := List.mem_range.mp inside
  rw [deviceFunctions] at there
  split at there
  · cases there
  · rcases List.mem_cons.mp there with rfl | other
    · exact ⟨rfl,inside,Nat.zero_lt_succ 7⟩
    · split at other
      · obtain ⟨function,kept,rfl⟩ := List.mem_map.mp other
        have := List.mem_range'_1.mp (List.mem_filter.mp kept).1
        exact ⟨rfl,inside,this.2⟩
      · cases other

/-- All places on 256 buses. -/
def pciPlaces : List PciPlace :=
  (List.range 256).flatMap fun bus => (List.range 32).flatMap fun dev => (List.range 8).map fun func => ⟨bus,dev,func⟩

theorem mem_pciPlaces {p : PciPlace} (bus : p.bus < 256) (dev : p.dev < 32) (func : p.func < 8) : p ∈ pciPlaces :=
  List.mem_flatMap.mpr ⟨p.bus,List.mem_range.mpr bus,List.mem_flatMap.mpr ⟨p.dev,List.mem_range.mpr dev,
    List.mem_map.mpr ⟨p.func,List.mem_range.mpr func,rfl⟩⟩⟩

theorem PciReach.place {unset : PciPlace → BitVec 8} {space : PciPlace → PciFunction} {p : PciPlace}
    (reach : PciReach unset space p) : p ∈ pciPlaces := by
  obtain ⟨_,trail⟩ := reach
  cases trail with
  | root member =>
    obtain ⟨bus,dev,func⟩ := mem_busFunctions member
    exact mem_pciPlaces (by omega) dev func
  | step _ member =>
    rcases List.mem_append.mp member with vmd | bridge
    · split at vmd
      · obtain ⟨bus,dev,func⟩ := mem_busFunctions vmd
        exact mem_pciPlaces (by rw [bus]; exact BitVec.isLt _) dev func
      · cases vmd
    · split at bridge
      · obtain ⟨bus,dev,func⟩ := mem_busFunctions bridge
        exact mem_pciPlaces (by rw [bus]; exact BitVec.isLt _) dev func
      · cases bridge

/-- What lists every function once went through a tree. -/
theorem PciListed.oneWay {unset : PciPlace → BitVec 8} {window : PciPlace → Nat → Nat → Nat} {m : PciStart}
    (listed : PciListed unset window m) : OneWay unset m.space := by
  obtain ⟨n,s',l,ran,listed,once,_⟩ := listed
  obtain ⟨l',walked,listed',_⟩ := pciEnumBus_lists m.fixed rfl ran
  have same : l = l' := by
    have places (l : List PciPlace) : (l.map fun p => (m.space p).ent p).map PciDevEnt.toPciPlace = l := by
      rw [List.map_map]
      exact List.map_id l
    rw [← places l,← listed,listed']
    exact places l'
  exact Descent.treelike_of_nodup walked (same ▸ once)

/-- The enumeration ends with every function that can be reached listed once where the buses are
a tree and no VMD is behind a VMD, and only where they are a tree. Where every window and every
entry of the table is at an address other than 0, it takes that no VMD is behind a VMD too. -/
theorem pci_enum_iff (unset : PciPlace → BitVec 8) (window : PciPlace → Nat → Nat → Nat) (m : PciStart) :
    (OneWay unset m.space ∧ NoVmdBehind unset m.space → PciListed unset window m) ∧
    (PciListed unset window m → OneWay unset m.space) ∧
    ((∀ p a n, window p a n ≠ 0) → (∀ e ∈ m.bridges, e.ecamAddr ≠ 0) →
      (PciListed unset window m ↔ OneWay unset m.space ∧ NoVmdBehind unset m.space)) := by
  have enough : OneWay unset m.space ∧ NoVmdBehind unset m.space → PciListed unset window m := by
    rintro ⟨tree,last⟩
    obtain ⟨n,l,walked,once⟩ := (Descent.walks_iff fun p => PciReach.place).mpr tree
    have ready : Ready unset m.space m.state l := by
      refine ⟨.inl ⟨⟨0,0,0⟩,List.mem_append_right _ (List.mem_singleton.mpr rfl),rfl⟩,fun v member vmd => ?_⟩
      exact last v ((Descent.mem_walks walked).mp member) vmd
    have ends : EndsWith m.state (pciEnumBus unset window (n + 1) m.state 0) :=
      pciEnumBus_ends m.fixed rfl walked ready
    obtain ⟨s',ran,_⟩ := ends
    obtain ⟨l',walked',listed,_⟩ := pciEnumBus_lists m.fixed rfl ran
    have once' := tree.walks_nodup (fun b root l found => tree.walk_nodup (.root root) found) tree.nodup
      (fun b root => .root root) walked'
    exact ⟨n + 1,s',l',ran,listed,once',fun p => Descent.mem_walks walked'⟩
  refine ⟨enough,PciListed.oneWay,fun mapped table => ⟨fun listed => ⟨listed.oneWay,?_⟩,enough⟩⟩
  obtain ⟨n,s',l,ran,_⟩ := listed
  obtain ⟨l',walked,_,tidy⟩ := pciEnumBus_lists m.fixed rfl ran
  obtain ⟨_,last⟩ := tidy.open_ mapped ⟨m.bridges,⟨0,0,0⟩,rfl,table,rfl⟩
  exact fun v reach vmd => last v ((Descent.mem_walks walked).mpr reach) vmd

/-- One function, a bridge to the bus that it is on. -/
def selfBridge (p : PciPlace) : PciFunction where
  regs i := if p = ⟨0,0,0⟩ then if i = 0 then 0x12348086 else if i = 2 then 0x06040000 else 0 else 0xffffffff
  rw _ := 0

/-- An unconfigured bridge leads back to bus 0. -/
theorem pci_enum_self : ¬ ∀ (unset : PciPlace → BitVec 8) (window : PciPlace → Nat → Nat → Nat) (m : PciStart),
    PciListed unset window m := by
  intro all
  have tree := (all (fun _ => 0) (fun _ _ _ => 1) ⟨selfBridge,[],fun _ b _ => BitVec.getLsbD_zero⟩).oneWay
  have there : ⟨0,0,0⟩ ∈ busFunctions selfBridge 0 := by decide +kernel
  have again : ⟨0,0,0⟩ ∈ behind (fun _ => 0) selfBridge ⟨0,0,0⟩ := by decide +kernel
  exact tree.top ⟨0,0,0⟩ ⟨0,0,0⟩ ⟨[],.root there⟩ again there

end Siegfried
