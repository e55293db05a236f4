import Siegfried.AcpiTables

/-! `syscall_diskman_read` and `syscall_diskman_write`: the pointer that a device is given for
a task's buffer. -/
namespace Siegfried

/-- What a run of writes leaves, the `i`-th of them of `data i` at `place i`. -/
def written (place : Nat → Nat) (data : Nat → UInt8) (ram : Nat → UInt8) : Nat → Nat → UInt8
  | 0 => ram
  | n + 1 => Function.update (written place data ram n) (place n) (data n)

namespace Kernel
variable (k : Kernel) (ptr n : Nat)

/-- A device writes just the bytes at the pointer that it is given, under the table in CR3. -/
def fill (data : Nat → UInt8) : Option Kernel :=
  (List.range n).foldlM (fun k i => (k.physical (ptr + i)).map fun a =>
    { k with ram := Function.update k.ram a (data i) }) k

end Kernel

section Calls
-- what the disk with an inode holds
variable (disks : Nat → Option (Nat → UInt8)) (k : Kernel) (pageTab disk off n buf : Nat)

def syscallDiskmanRead : Option Kernel :=
  match disks disk with
  | none => some k
  | some content => do
    let (k,ptr) ← pageLookupPaddrTab k pageTab buf
    k.fill ptr n fun i => content (off + i)

/-- With what is sent to the disk, and for where. -/
def syscallDiskmanWrite : Option (Kernel × Option (Nat × List UInt8)) :=
  match disks disk with
  | none => some (k,none)
  | some _ => do
    let (k,ptr) ← pageLookupPaddrTab k pageTab buf
    let sent ← k.loadBytes ptr n
    some (k,some (off,sent))

end Calls

/-- The task finds what a device holds in its buffer, and a device gets what the buffer holds,
whatever the device and memory hold. -/
structure DiskTransfers (k : Kernel) (n buf : Nat) : Prop where
  read : ∀ (content ram : Nat → UInt8) disks disk off, disks disk = some content →
    ∃ ram', syscallDiskmanRead disks { k with ram := ram } k.cr3 disk off n buf = some { k with ram := ram' } ∧
      (∀ i < n, (k.physical (buf + i)).map ram' = some (content (off + i))) ∧
      ∀ a, (∀ i < n, k.physical (buf + i) ≠ some a) → ram' a = ram a
  write : ∀ (content ram : Nat → UInt8) disks disk off, disks disk = some content →
    ∃ sent : List UInt8, syscallDiskmanWrite disks { k with ram := ram } k.cr3 disk off n buf =
      some ({ k with ram := ram },some (off,sent)) ∧ sent.length = n ∧
      ∀ i < n, (k.physical (buf + i)).map ram = sent[i]?

/-- What `page_lookup_paddr_tab` makes of the buffer: the physical address of its first byte. -/
def Kernel.bufPtr (k : Kernel) (buf : Nat) : Nat := ((k.paddrAt k.cr3 buf).getD 0 + buf % 0x200000) % 2^64

/-- As an address of the task that pointer leads to the bytes of the buffer, and these are apart. -/
structure BufferThere (k : Kernel) (n buf : Nat) : Prop where
  there : ∀ i < n, k.physical (k.bufPtr buf + i) = k.physical (buf + i)
  apart : ∀ i < n, ∀ j < n, k.physical (buf + i) = k.physical (buf + j) → i = j

section Writes
variable {place : Nat → Nat} {data ram : Nat → UInt8} {n x : Nat}

/-- A place holds what was written to it last, if anything was. -/
theorem written_last (place : Nat → Nat) (data ram : Nat → UInt8) (n x : Nat) :
    (∃ j < n, place j = x ∧ (∀ m < n, j < m → place m ≠ x) ∧ written place data ram n x = data j) ∨
    ((∀ j < n, place j ≠ x) ∧ written place data ram n x = ram x) := by
  induction n with
  | zero => exact .inr ⟨fun j inside => absurd inside (Nat.not_lt_zero j),rfl⟩
  | succ n ih =>
    by_cases here : place n = x
    · refine .inl ⟨n,Nat.lt_succ_self n,here,fun m inside later => by omega,?_⟩
      rw [written,here,Function.update_self]
    have same : written place data ram (n + 1) x = written place data ram n x := by
      rw [written,Function.update_of_ne (Ne.symm here)]
    rw [same]
    rcases ih with ⟨j,inside,at_x,last,value⟩ | ⟨none_,value⟩
    · refine .inl ⟨j,Nat.lt_succ_of_lt inside,at_x,fun m below later => ?_,value⟩
      rcases Nat.lt_succ_iff_lt_or_eq.mp below with before | rfl
      · exact last m before later
      · exact here
    · refine .inr ⟨fun j below => ?_,value⟩
      rcases Nat.lt_succ_iff_lt_or_eq.mp below with before | rfl
      · exact none_ j before
      · exact here

end Writes

section Transfers
variable {k k' : Kernel} {ptr n : Nat} {place : Nat → Nat} {data : Nat → UInt8}

theorem Kernel.fill_some (there : ∀ i < n, k.physical (ptr + i) = some (place i)) :
    k.fill ptr n data = some { k with ram := written place data k.ram n } := by
  induction n with
  | zero => rfl
  | succ n ih =>
    have before := ih fun i inside => there i (Nat.lt_succ_of_lt inside)
    have last : Kernel.physical { k with ram := written place data k.ram n } (ptr + n) = some (place n) :=
      there n (Nat.lt_succ_self n)
    rw [Kernel.fill,List.range_succ,List.foldlM_append,← Kernel.fill,before]
    simp only [Option.bind_eq_bind,Option.bind_some,List.foldlM_cons,List.foldlM_nil,last,Option.map_some]
    rfl

/-- A write that comes to its end found every place. -/
theorem Kernel.fill_places (ran : k.fill ptr n data = some k') :
    ∀ i < n, (k.physical (ptr + i)).isSome = true := by
  have last := Fold.foldlM_rest (fun l m => (∀ v, m.physical v = k.physical v) ∧
    ∀ i < n, i ∉ l → (k.physical (ptr + i)).isSome = true) ?_
    ⟨fun _ => rfl,fun i inside out => absurd (List.mem_range.mpr inside) out⟩ ran
  · exact fun i inside => last.2 i inside List.not_mem_nil
  · rintro i l m m' ⟨same,done⟩ step
    obtain ⟨a,here,rfl⟩ := Option.map_eq_some_iff.mp step
    refine ⟨same,fun j inside out => ?_⟩
    by_cases this : j = i
    · rw [this,← same,here]
      rfl
    · exact done j inside fun member => (List.mem_cons.mp member).elim this out

theorem mapM_some {α β : Type} {f : α → Option β} {g : α → β} (l : List α) (each : ∀ a ∈ l, f a = some (g a)) :
    l.mapM f = some (l.map g) := by
  induction l with
  | nil => rfl
  | cons a l ih =>
    rw [List.mapM_cons,each a List.mem_cons_self,ih fun b member => each b (List.mem_cons_of_mem _ member)]
    rfl

theorem Kernel.loadBytes_some (there : ∀ i < n, k.physical (ptr + i) = some (place i)) :
    k.loadBytes ptr n = some ((List.range n).map fun i => k.ram (place i)) := by
  refine mapM_some (List.range n) fun i member => ?_
  rw [there i (List.mem_range.mp member)]
  rfl

end Transfers

section Calls
variable {root : Nat} {bufs roots : List Nat} {k : Kernel} {n buf : Nat}
  (pool : Pool root bufs roots k) (hr : k.cr3 ∈ roots) (first : (k.mapping k.cr3 buf).isSome = true)
include pool hr first

/-- The lookup finds the entry of the buffer's first page. -/
theorem pageLookupPaddrTab_buf (ram : Nat → UInt8) : pageLookupPaddrTab { k with ram := ram } k.cr3 buf =
    some ({ k with ram := ram },k.bufPtr buf) := by
  have source := takePage_pool root bufs
  obtain ⟨e,mapping⟩ := Option.isSome_iff_exists.mp first
  obtain ⟨slot,_⟩ := Option.filter_eq_some_iff.mp mapping
  have start : k.cr3 ≠ 0 :=
    Nat.ne_of_gt (source.usable pool.good (pool.valid.inside hr (by simp) (Forest.walk_nil k.cr3))).1
  have paddr : Kernel.paddrAt { k with ram := ram } k.cr3 buf = some e.getPaddr := by
    rw [Kernel.paddrAt,Kernel.slot]
    exact congrArg (Option.map Entry.getPaddr) slot
  have ptr : k.bufPtr buf = (e.getPaddr + buf % 0x200000) % 2^64 := by
    rw [Kernel.bufPtr,show k.paddrAt k.cr3 buf = some e.getPaddr from paddr,Option.getD_some]
  have pool' : Pool root bufs roots { k with ram := ram } := ⟨pool.good,pool.valid,pool.flat⟩
  rw [pageLookupPaddrTab,if_neg start,lookupPaddr_slot source pool' hr paddr,ptr]

/-- A read comes to its end where every place is mapped, and leaves the writes to the places. -/
theorem syscallDiskmanRead_iff {disks : Nat → Option (Nat → UInt8)} {disk off : Nat} {content ram ram' : Nat → UInt8}
    (found : disks disk = some content) :
    syscallDiskmanRead disks { k with ram := ram } k.cr3 disk off n buf = some { k with ram := ram' } ↔
      ∃ place, (∀ i < n, k.physical (k.bufPtr buf + i) = some (place i)) ∧
        ram' = written place (fun i => content (off + i)) ram n := by
  have call : syscallDiskmanRead disks { k with ram := ram } k.cr3 disk off n buf =
      Kernel.fill { k with ram := ram } (k.bufPtr buf) n fun i => content (off + i) := by
    rw [syscallDiskmanRead,found]
    dsimp only
    rw [pageLookupPaddrTab_buf pool hr first]
    rfl
  have filled {place : Nat → Nat} (there : ∀ i < n, k.physical (k.bufPtr buf + i) = some (place i)) :
      Kernel.fill { k with ram := ram } (k.bufPtr buf) n (fun i => content (off + i)) =
        some { k with ram := written place (fun i => content (off + i)) ram n } :=
    Kernel.fill_some (k := { k with ram := ram }) there
  rw [call]
  constructor
  · intro ran
    have somewhere := Kernel.fill_places ran
    have places (i : Nat) (inside : i < n) :
        k.physical (k.bufPtr buf + i) = some ((k.physical (k.bufPtr buf + i)).getD 0) := by
      obtain ⟨a,here⟩ := Option.isSome_iff_exists.mp (somewhere i inside)
      have here : k.physical (k.bufPtr buf + i) = some a := here
      rw [here,Option.getD_some]
    rw [filled places] at ran
    exact ⟨_,places,(congrArg Kernel.ram (Option.some.inj ran)).symm⟩
  · rintro ⟨place,there,rfl⟩
    exact filled there

/-- The calls work for a mapped buffer exactly when its physical address, as an address of the
task, leads to the buffer too, and no two of its bytes are one. -/
theorem diskman_transfers_iff (mapped : ∀ i < n, (k.physical (buf + i)).isSome = true) :
    DiskTransfers k n buf ↔ BufferThere k n buf := by
  constructor
  · intro transfers
    -- read a disk with a single one, at `i`, into memory of zeros
    have found (i : Nat) (inside : i < n) : k.physical (k.bufPtr buf + i) = k.physical (buf + i) ∧
        ∀ m < n, i < m → k.physical (k.bufPtr buf + m) ≠ k.physical (buf + i) := by
      obtain ⟨ram',ran,readable,_⟩ := transfers.read (fun x => if x = i then 1 else 0) (fun _ => 0)
        (fun _ => some fun x => if x = i then 1 else 0) 0 0 rfl
      obtain ⟨place,there,rfl⟩ := (syscallDiskmanRead_iff pool hr first rfl).mp ran
      obtain ⟨a,here⟩ := Option.isSome_iff_exists.mp (mapped i inside)
      have one := readable i inside
      rw [here,Option.map_some,Nat.zero_add,if_pos rfl] at one
      have one := Option.some.inj one
      rcases written_last place (fun j => if 0 + j = i then 1 else 0) (fun _ => 0) n a with
        ⟨j,below,at_a,last,value⟩ | ⟨_,value⟩
      · rw [value,Nat.zero_add] at one
        have same : j = i := by
          by_contra other
          rw [if_neg other] at one
          cases one
        subst same
        refine ⟨by rw [there j below,at_a,here],fun m inside later same => last m inside later ?_⟩
        rw [there m inside,here] at same
        exact Option.some.inj same
      · rw [value] at one
        cases one
    refine ⟨fun i inside => (found i inside).1,fun i hi j hj same => ?_⟩
    rcases Nat.lt_trichotomy i j with before | rfl | after
    · exact absurd ((found j hj).1.trans same.symm) ((found i hi).2 j hj before)
    · rfl
    · exact absurd ((found i hi).1.trans same) ((found j hj).2 i hi after)
  · intro there
    have places (i : Nat) (inside : i < n) :
        k.physical (buf + i) = some ((k.physical (buf + i)).getD 0) := by
      obtain ⟨a,here⟩ := Option.isSome_iff_exists.mp (mapped i inside)
      rw [here,Option.getD_some]
    have ptrs (i : Nat) (inside : i < n) :
        k.physical (k.bufPtr buf + i) = some ((k.physical (buf + i)).getD 0) :=
      (there.there i inside).trans (places i inside)
    constructor
    · intro content ram disks disk off found
      refine ⟨_,(syscallDiskmanRead_iff pool hr first found).mpr ⟨_,ptrs,rfl⟩,fun i inside => ?_,fun a out => ?_⟩
      · rw [places i inside,Option.map_some]
        rcases written_last (fun i => (k.physical (buf + i)).getD 0) (fun i => content (off + i)) ram n
          ((k.physical (buf + i)).getD 0) with ⟨j,below,at_a,_,value⟩ | ⟨none_,_⟩
        · have same : i = j := there.apart i inside j below (by rw [places i inside,places j below,at_a])
          rw [value,same]
        · exact absurd rfl (none_ i inside)
      · rcases written_last (fun i => (k.physical (buf + i)).getD 0) (fun i => content (off + i)) ram n a with
          ⟨j,below,at_a,_⟩ | ⟨_,value⟩
        · exact absurd (by rw [places j below,at_a]) (out j below)
        · exact value
    · intro content ram disks disk off found
      have loaded : Kernel.loadBytes { k with ram := ram } (k.bufPtr buf) n =
          some ((List.range n).map fun i => ram ((k.physical (buf + i)).getD 0)) :=
        Kernel.loadBytes_some (k := { k with ram := ram }) ptrs
      refine ⟨(List.range n).map fun i => ram ((k.physical (buf + i)).getD 0),?_,by simp,fun i inside => ?_⟩
      · rw [syscallDiskmanWrite,found]
        dsimp only
        rw [pageLookupPaddrTab_buf pool hr first]
        simp only [Option.bind_eq_bind,Option.bind_some,loaded]
      · rw [places i inside,Option.map_some,List.getElem?_map,List.getElem?_range inside]
        rfl

end Calls

/-- A task's page at 1 GB. -/
theorem taskPage (phy : Nat) (facts : Kernel → Bool)
    (there : (pageAllocTab takePage bareKernel 0x1000 phy 0x40000000).any
      (fun k => facts { k with cr3 := 0x1000 }) = true) :
    ∃ k, Pool 0x1000 [] [0x1000] k ∧ k.cr3 = 0x1000 ∧ facts k = true := by
  obtain ⟨k,mapped,facts⟩ := (Option.any_eq_true _ _).mp there
  have root : 0x1000 ∈ [0x1000] := List.mem_singleton.mpr rfl
  obtain ⟨pool,_⟩ := mapPage_mapping (takePage_pool 0x1000 []) userStyle_ok bareKernel_pool root mapped
  exact ⟨{ k with cr3 := 0x1000 },⟨pool.good,pool.valid,pool.flat⟩,rfl,facts⟩

/-- A page that is mapped to the frame of the same address. -/
theorem diskman_transfers_iff_identity : ∃ k, DiskTransfers k 16 0x40000010 := by
  obtain ⟨k,pool,current,facts⟩ := taskPage 0x40000000 (fun k =>
    (k.mapping k.cr3 0x40000010).isSome && k.bufPtr 0x40000010 == 0x40000010 &&
      (List.range 16).all fun i => k.physical (0x40000010 + i) == some (0x40000010 + i)) (by decide +kernel)
  obtain ⟨both,all⟩ := Bool.and_eq_true_iff.mp facts
  obtain ⟨first,ptr⟩ := Bool.and_eq_true_iff.mp both
  have places (i : Nat) (inside : i < 16) : k.physical (0x40000010 + i) = some (0x40000010 + i) :=
    beq_iff_eq.mp (List.all_eq_true.mp all i (List.mem_range.mpr inside))
  have hr : k.cr3 ∈ [0x1000] := List.mem_singleton.mpr current
  refine ⟨k,(diskman_transfers_iff pool hr first fun i inside => by rw [places i inside]; rfl).mpr ⟨?_,?_⟩⟩
  · intro i _
    rw [beq_iff_eq.mp ptr]
  · intro i hi j hj same
    rw [places i hi,places j hj] at same
    exact Nat.add_left_cancel (Option.some.inj same)

/-- On another frame the device writes to an address that the task does not map. -/
theorem diskman_unmapped : ¬∀ (k : Kernel) (root : Nat) (bufs roots : List Nat) (n buf : Nat),
    Pool root bufs roots k → k.cr3 ∈ roots → (k.mapping k.cr3 buf).isSome = true →
    (∀ i < n, (k.physical (buf + i)).isSome = true) → DiskTransfers k n buf := by
  intro all
  obtain ⟨k,pool,current,facts⟩ := taskPage 0x600000 (fun k =>
    (k.mapping k.cr3 0x40000010).isSome && k.bufPtr 0x40000010 == 0x600010 &&
      (k.physical 0x40000010).isSome && (k.physical 0x600010).isNone) (by decide +kernel)
  obtain ⟨three,absent⟩ := Bool.and_eq_true_iff.mp facts
  obtain ⟨both,there⟩ := Bool.and_eq_true_iff.mp three
  obtain ⟨first,ptr⟩ := Bool.and_eq_true_iff.mp both
  have hr : k.cr3 ∈ [0x1000] := List.mem_singleton.mpr current
  have mapped (i : Nat) (inside : i < 1) : (k.physical (0x40000010 + i)).isSome = true := by
    rw [Nat.lt_one_iff.mp inside]
    exact there
  obtain ⟨ram',ran,_⟩ := (all k 0x1000 [] [0x1000] 1 0x40000010 pool hr first mapped).read (fun _ => 0) (fun _ => 0)
    (fun _ => some fun _ => 0) 0 0 rfl
  obtain ⟨place,places,_⟩ := (syscallDiskmanRead_iff pool hr first rfl).mp ran
  have here := places 0 Nat.one_pos
  rw [beq_iff_eq.mp ptr,Nat.add_zero,Option.isNone_iff_eq_none.mp absent] at here
  cases here

end Siegfried
