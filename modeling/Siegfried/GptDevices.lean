import Siegfried.Bytes
import Siegfried.DiskOps
import Siegfried.Gpt
import Mathlib.Data.List.Nodup

/-! `diskman_setup` and the devices it makes of the partitions that the disks hold. -/
namespace Siegfried.GptSetup

/-- The driver's function, and `diskman_gpt_read`. -/
inductive ReadFunc where
  | disk | gpt
  deriving DecidableEq

/-- The fields of a `diskman_ent` that the setup reads or fills in. -/
structure Dev where
  inode : Nat
  ispart : Bool
  readFunc : ReadFunc
  fsType : FsType
  uuid : List UInt8

/-- `gpt_partlist_ent`; `disk` is where in the list of disks the entry is that it points to. -/
structure Part extends GptPartlistEnt where
  attr : UInt64
  inode : Nat
  disk : Nat

/-- `disks`, `gparts` and the counter `inode`. -/
structure Devices where
  disks : List Dev
  gparts : List Part
  inode : Nat

/-- The number of `n` bytes at `a`. -/
def field (b : List UInt8) (a n : Nat) : Nat := Bytes.read (fun i => b.getD i 0) a n

/-- `gpt_header`. -/
structure Header where
  guid : List UInt8
  lbaPartEnt : UInt64
  numParts : Nat
  partsEntSz : Nat

def Header.load (b : List UInt8) : Header :=
  ⟨(b.drop 56).take 16,.ofNat (field b 72 8),field b 80 4,field b 84 4⟩

/-- `gpt_partent`, without the name. -/
structure PartEnt where
  typeGuid : List UInt8
  partGuid : List UInt8
  lbaStart : UInt64
  lbaEnd : UInt64
  attr : UInt64

def PartEnt.load (b : List UInt8) : PartEnt :=
  ⟨b.take 16,(b.drop 16).take 16,.ofNat (field b 32 8),.ofNat (field b 40 8),.ofNat (field b 48 8)⟩

def PartEnt.used (e : PartEnt) : Bool := e.typeGuid != List.replicate 16 0

/-- `EFI PART`. -/
def gptMagic : List UInt8 := [0x45,0x46,0x49,0x20,0x50,0x41,0x52,0x54]

/-- `(1)` where the entry of `diskman_new_ent` goes; the counter begins at one. -/
def diskmanNewEnt (s : Devices) : Dev := ⟨s.inode + 1,false,.disk,.null,[]⟩

def diskmanFindEnt (s : Devices) (inode : Nat) : Option Dev := s.disks.find? (·.inode = inode)

def gptFindEnt (s : Devices) (inode : Nat) : Option Part := s.gparts.find? (·.inode = inode)

section Functions
variable (media : Nat → Nat → UInt8)

/-- `d->read_func`: a disk delivers exactly its bytes, and a partition those of `e->disk`. -/
def readFunc (s : Devices) : Nat → Dev → UInt64 → Nat → Option (List UInt8)
  | fuel, d, off, num =>
    match d.readFunc with
    | .disk => some ((List.range num).map fun i => media d.inode (off.toNat + i))
    | .gpt =>
      match fuel with
      | 0 => none
      | fuel + 1 => do
        let e ← gptFindEnt s d.inode
        let disk ← s.disks[e.disk]?
        readFunc s fuel disk (e.addr off) num

/-- The body of the loop over the table. An entry that ends before its fields is not read. -/
def gptAddEnt (n : Nat) (s : Devices) (esect : List UInt8) : Option Devices :=
  if esect.length < 128 then none
  else
    let ent := PartEnt.load esect
    if !ent.used then some s
    else
      let dev := { diskmanNewEnt s with uuid := ent.partGuid, ispart := true, readFunc := .gpt }
      some ⟨s.disks ++ [dev],s.gparts ++ [⟨⟨ent.lbaStart,ent.lbaEnd⟩,ent.attr,dev.inode,n⟩],dev.inode⟩

/-- `diskman_gpt_enum` of the `n`th disk. -/
def diskmanGptEnum (fuel n : Nat) (s : Devices) (d : Dev) : Option Devices := do
  let b ← readFunc media s fuel d 512 92
  let head := Header.load b
  let s := { s with disks := s.disks.modify n fun e => { e with uuid := head.guid } }
  (List.range head.numParts).foldlM (fun s i => do
    let esect ← readFunc media s fuel d (head.lbaPartEnt * 512 + .ofNat i * .ofNat head.partsEntSz) head.partsEntSz
    gptAddEnt n s esect) s

/-- What the first loop of `diskman_setup` does with a disk. -/
def detectGpt (fuel n : Nat) (s : Devices) (i : Dev) : Option Devices := do
  let detectSect ← readFunc media s fuel i 0 1024
  if (detectSect.drop 512).take 8 = gptMagic then diskmanGptEnum media fuel n s i else some s

/-- The first loop, which meets the devices it adds. -/
def gptLoop (fuel : Nat) : Nat → Nat → Devices → Option Devices
  | 0, _, _ => none
  | turns + 1, n, s =>
    match s.disks[n]? with
    | none => some s
    | some i =>
      if i.ispart then gptLoop fuel turns (n + 1) s
      else do
        let s ← detectGpt media fuel n s i
        gptLoop fuel turns (n + 1) s

/-- `extfs_enum`, as far as the list of devices goes. -/
def extfsEnum (fuel n : Nat) (s : Devices) (d : Dev) : Option Devices := do
  let chkbuf ← readFunc media s fuel d 1024 1024
  some (if field chkbuf 56 2 = 0xef53 then
    { s with disks := s.disks.modify n fun e => { e with fsType := .extfs } } else s)

end Functions

/-! What is on the disks. -/
section Tables
variable (media : Nat → Nat → UInt8) (inode : Nat)

def bytesAt (off : UInt64) (num : Nat) : List UInt8 := (List.range num).map fun i => media inode (off.toNat + i)

def hasGpt : Bool := ((bytesAt media inode 0 1024).drop 512).take 8 == gptMagic

def header : Header := .load (bytesAt media inode 512 92)

/-- Entry `i` of the table. -/
def tableEnt (i : Nat) : PartEnt :=
  .load (bytesAt media inode ((header media inode).lbaPartEnt * 512 + .ofNat i * .ofNat (header media inode).partsEntSz)
    (header media inode).partsEntSz)

/-- The entries with a type, in the order of the table. -/
def usedEnts (n : Nat) : List PartEnt := (List.range n).filterMap fun i =>
  if (tableEnt media inode i).used then some (tableEnt media inode i) else none

/-- The partitions of the `i`th disk. -/
def partsOf (disks : List Dev) (i : Nat) : List (Nat × PartEnt) :=
  match disks[i]? with
  | none => []
  | some d =>
    if hasGpt media d.inode then (usedEnts media d.inode (header media d.inode).numParts).map (i,·) else []

/-- Those of all disks, with the disk they are on. -/
def partsUpTo (disks : List Dev) (n : Nat) : List (Nat × PartEnt) := (List.range n).flatMap (partsOf media disks)

end Tables

/-- The disks before the setup: none is a partition, and their numbers are those that
`diskman_new_ent` has counted. -/
structure OnlyDisks (media : Nat → Nat → UInt8) (s : Devices) : Prop where
  disks : ∀ d ∈ s.disks, d.ispart = false ∧ d.readFunc = .disk
  distinct : (s.disks.map Dev.inode).Nodup
  counted : ∀ d ∈ s.disks, d.inode ≤ s.inode
  gparts : s.gparts = []
  sizes : ∀ d ∈ s.disks, hasGpt media d.inode = true → 128 ≤ (header media d.inode).partsEntSz

/-- What a device is for the users of the list. -/
def Dev.kind (d : Dev) : Nat × Bool × ReadFunc := (d.inode,d.ispart,d.readFunc)

/-- The entry of a partition in `gparts`. -/
def partEntry (first k : Nat) (w : Nat × PartEnt) : Part :=
  ⟨⟨w.2.lbaStart,w.2.lbaEnd⟩,w.2.attr,first + 1 + k,w.1⟩

/-- The devices after so many partitions. -/
structure Registers (before : Devices) (parts : List (Nat × PartEnt)) (s : Devices) : Prop where
  disks : s.disks.map Dev.kind =
    before.disks.map Dev.kind ++ parts.mapIdx fun k _ => (before.inode + 1 + k,true,ReadFunc.gpt)
  gparts : s.gparts = parts.mapIdx (partEntry before.inode)
  inode : s.inode = before.inode + parts.length

/-- The devices of the partitions come behind the disks, one for each and in order, all numbers
are distinct and found, and a partition reads its disk from its first sector on. -/
structure PartsRegistered (media : Nat → Nat → UInt8) (before s : Devices) : Prop where
  registers : Registers before (partsUpTo media before.disks before.disks.length) s
  distinct : (s.disks.map Dev.inode).Nodup
  found : ∀ inode d, diskmanFindEnt s inode = some d ↔ d ∈ s.disks ∧ d.inode = inode
  partFound : ∀ inode p, gptFindEnt s inode = some p ↔ p ∈ s.gparts ∧ p.inode = inode
  reads : ∀ k i e, (partsUpTo media before.disks before.disks.length)[k]? = some (i,e) →
    ∃ dev disk, s.disks[before.disks.length + k]? = some dev ∧ before.disks[i]? = some disk ∧
      dev.inode = before.inode + 1 + k ∧ ∀ fuel off num, readFunc media s (fuel + 1) dev off num =
        some (bytesAt media disk.inode (e.lbaStart * 512 + off) num)

section Find
variable {α : Type} {l : List α} {f : α → Nat} {e : α} {n : Nat}

theorem find_nodup (distinct : (l.map f).Nodup) : l.find? (f · = n) = some e ↔ e ∈ l ∧ f e = n := by
  induction l with
  | nil => simp
  | cons a l ih =>
    rw [List.map_cons,List.nodup_cons] at distinct
    obtain ⟨new,rest⟩ := distinct
    by_cases here : f a = n
    · rw [List.find?_cons_of_pos (by simpa using here)]
      constructor
      · intro same
        cases same
        exact ⟨List.mem_cons_self ..,here⟩
      · rintro ⟨member,same⟩
        rcases List.mem_cons.mp member with rfl | later
        · rfl
        · exact absurd (List.mem_map.mpr ⟨e,later,same.trans here.symm⟩) new
    · rw [List.find?_cons_of_neg (by simpa using here),ih rest]
      constructor
      · rintro ⟨member,same⟩
        exact ⟨List.mem_cons_of_mem a member,same⟩
      · rintro ⟨member,same⟩
        rcases List.mem_cons.mp member with rfl | later
        · exact absurd same here
        · exact ⟨later,same⟩

theorem map_modify {β : Type} {g : α → β} {change : α → α} (same : ∀ a, g (change a) = g a) (l : List α) (n : Nat) :
    (l.modify n change).map g = l.map g := by
  induction l generalizing n with
  | nil => cases n <;> rfl
  | cons a l ih =>
    cases n with
    | zero => simp [same]
    | succ n => simp [ih]

end Find

section Registry
variable {media : Nat → Nat → UInt8} {before s s' : Devices} {parts : List (Nat × PartEnt)} {d : Dev}
  {n fuel : Nat} {esect : List UInt8}

theorem readFunc_disk (disk : d.readFunc = .disk) (fuel : Nat) (off : UInt64) (num : Nat) :
    readFunc media s fuel d off num = some (bytesAt media d.inode off num) := by
  unfold readFunc
  rw [disk]
  rfl

theorem usedEnts_succ (inode m : Nat) : usedEnts media inode (m + 1) =
    usedEnts media inode m ++ if (tableEnt media inode m).used then [tableEnt media inode m] else [] := by
  rw [usedEnts,List.range_succ,List.filterMap_append,usedEnts,List.filterMap_cons,List.filterMap_nil]
  by_cases used : (tableEnt media inode m).used = true
  · rw [if_pos used,if_pos used]
  · rw [if_neg used,if_neg used]

theorem Registers.modify (reg : Registers before parts s) (n : Nat) {change : Dev → Dev}
    (same : ∀ d, (change d).kind = d.kind) : Registers before parts { s with disks := s.disks.modify n change } :=
  ⟨(map_modify same s.disks n).trans reg.disks,reg.gparts,reg.inode⟩

/-- An entry with a type adds its device and its partition. -/
theorem Registers.add (reg : Registers before parts s) (long : 128 ≤ esect.length) :
    ∃ s', gptAddEnt n s esect = some s' ∧
      Registers before (parts ++ if (PartEnt.load esect).used then [(n,PartEnt.load esect)] else []) s' := by
  obtain ⟨disks,gparts,inode⟩ := reg
  rw [gptAddEnt,if_neg (Nat.not_lt_of_le long)]
  by_cases used : (PartEnt.load esect).used = true
  · simp only [used,Bool.not_true,Bool.false_eq_true,if_false,if_true]
    refine ⟨_,rfl,?_,?_,?_⟩
    · dsimp only
      rw [List.map_append,disks,List.mapIdx_concat,List.append_assoc]
      simp only [List.map_cons,List.map_nil,Dev.kind,diskmanNewEnt,inode]
      rw [Nat.add_right_comm]
    · dsimp only
      rw [gparts,List.mapIdx_concat]
      simp only [partEntry,diskmanNewEnt,inode]
      rw [Nat.add_right_comm]
    · simp only [diskmanNewEnt,inode,List.length_append,List.length_singleton]
      rfl
  · simp only [Bool.not_eq_true] at used
    simp only [used,Bool.not_false,if_true,Bool.false_eq_true,if_false,List.append_nil]
    exact ⟨s,rfl,disks,gparts,inode⟩

/-- The loop over the first `m` entries of a table. -/
theorem Registers.table (reg : Registers before parts s) (disk : d.readFunc = .disk)
    (long : 128 ≤ (header media d.inode).partsEntSz) (m : Nat) :
    ∃ s', (∀ fuel, (List.range m).foldlM (fun s i => do
        let esect ← readFunc media s fuel d ((header media d.inode).lbaPartEnt * 512 +
          .ofNat i * .ofNat (header media d.inode).partsEntSz) (header media d.inode).partsEntSz
        gptAddEnt n s esect) s = some s') ∧
      Registers before (parts ++ (usedEnts media d.inode m).map (n,·)) s' := by
  induction m with
  | zero => exact ⟨s,fun _ => rfl,by simpa [usedEnts] using reg⟩
  | succ m ih =>
    obtain ⟨s1,ran,reg1⟩ := ih
    have size (off : UInt64) : 128 ≤ (bytesAt media d.inode off (header media d.inode).partsEntSz).length := by
      rw [bytesAt,List.length_map,List.length_range]
      exact long
    obtain ⟨s2,added,reg2⟩ := reg1.add (n := n) (size ((header media d.inode).lbaPartEnt * 512 +
      .ofNat m * .ofNat (header media d.inode).partsEntSz))
    refine ⟨s2,fun fuel => ?_,?_⟩
    · rw [List.range_succ,List.foldlM_append,ran]
      simp only [List.foldlM_cons,List.foldlM_nil,readFunc_disk disk,Option.bind_eq_bind,Option.bind_some,added,
        Option.pure_def]
    · rw [usedEnts_succ,List.map_append,← List.append_assoc]
      rw [apply_ite (List.map (n,·)),List.map_singleton,List.map_nil]
      exact reg2

/-- What the `n`th device is. -/
theorem Registers.kind (reg : Registers before parts s) (n : Nat) : s.disks[n]?.map Dev.kind =
    if n < before.disks.length then before.disks[n]?.map Dev.kind
    else parts[n - before.disks.length]?.map fun _ => (before.inode + 1 + (n - before.disks.length),true,ReadFunc.gpt) := by
  rw [← List.getElem?_map,reg.disks]
  split
  · rw [List.getElem?_append_left (by rwa [List.length_map]),List.getElem?_map]
  · rw [List.getElem?_append_right (by rw [List.length_map]; omega),List.length_map,List.getElem?_mapIdx]

/-- Behind the disks the loop meets partitions only. -/
theorem Registers.skip (reg : Registers before parts s) {n : Nat} (behind : before.disks.length ≤ n) (fuel extra : Nat) :
    gptLoop media fuel (s.disks.length - n + 1 + extra) n s = some s := by
  generalize left : s.disks.length - n = k
  induction k generalizing n with
  | zero =>
    have none_ : s.disks[n]? = none := List.getElem?_eq_none (by omega)
    rw [Nat.zero_add,Nat.add_comm,gptLoop,none_]
  | succ k ih =>
    obtain ⟨d,here⟩ : ∃ d, s.disks[n]? = some d := ⟨_,List.getElem?_eq_getElem (by omega)⟩
    have kind := reg.kind n
    rw [here,if_neg (Nat.not_lt_of_le behind)] at kind
    have part : d.ispart = true := by
      obtain ⟨w,_,same⟩ := Option.map_eq_some_iff.mp kind.symm
      exact (congrArg (·.2.1) same).symm
    rw [Nat.add_right_comm (k + 1),Nat.add_right_comm k,gptLoop,here]
    dsimp only
    rw [if_pos part,← Nat.add_right_comm]
    exact ih (by omega) (by omega)

theorem mapIdx_count {α β : Type} (g : Nat → α → β) (num : β → Nat) (c : Nat) (counts : ∀ k a, num (g k a) = c + k)
    (l : List α) : (l.mapIdx g).map num = (List.range l.length).map (c + ·) := by
  apply List.ext_getElem?
  intro i
  rw [List.getElem?_map,List.getElem?_mapIdx,List.getElem?_map]
  by_cases inside : i < l.length
  · rw [List.getElem?_eq_getElem inside,List.getElem?_range inside]
    exact congrArg some (counts ..)
  · rw [List.getElem?_eq_none (by omega),List.getElem?_eq_none (by simpa using inside)]
    rfl

theorem count_nodup (c n : Nat) : ((List.range n).map (c + ·)).Nodup :=
  List.nodup_range.map fun _ _ => Nat.add_left_cancel

theorem Registers.gparts_nodup (reg : Registers before parts s) : (s.gparts.map Part.inode).Nodup := by
  rw [reg.gparts,mapIdx_count (partEntry before.inode) Part.inode (before.inode + 1) fun _ _ => rfl]
  exact count_nodup ..

theorem Registers.disks_nodup (reg : Registers before parts s) (only : OnlyDisks media before) :
    (s.disks.map Dev.inode).Nodup := by
  have numbers : s.disks.map Dev.inode =
      before.disks.map Dev.inode ++ (List.range parts.length).map (before.inode + 1 + ·) := by
    have first := congrArg (List.map Prod.fst) reg.disks
    rw [List.map_map,List.map_append,List.map_map,
      mapIdx_count (fun k _ => (before.inode + 1 + k,true,ReadFunc.gpt)) Prod.fst (before.inode + 1) fun _ _ => rfl] at first
    exact first
  rw [numbers]
  refine List.nodup_append.mpr ⟨only.distinct,count_nodup ..,fun a old b new => ?_⟩
  obtain ⟨d,member,rfl⟩ := List.mem_map.mp old
  obtain ⟨k,_,rfl⟩ := List.mem_map.mp new
  have counted := only.counted d member
  omega

/-- A partition delivers the bytes of its disk. -/
theorem Registers.read (reg : Registers before parts s) (only : OnlyDisks media before) {k i : Nat} {e : PartEnt}
    (there : parts[k]? = some (i,e)) {disk : Dev} (on : before.disks[i]? = some disk)
    (kind : d.kind = (before.inode + 1 + k,true,ReadFunc.gpt)) (fuel : Nat) (off : UInt64) (num : Nat) :
    readFunc media s (fuel + 1) d off num = some (bytesAt media disk.inode (e.lbaStart * 512 + off) num) := by
  simp only [Dev.kind,Prod.mk.injEq] at kind
  obtain ⟨inode,_,func⟩ := kind
  have entry : gptFindEnt s d.inode = some (partEntry before.inode k (i,e)) := by
    refine (find_nodup reg.gparts_nodup).mpr ⟨?_,inode.symm⟩
    have at_k : s.gparts[k]? = some (partEntry before.inode k (i,e)) := by
      rw [reg.gparts,List.getElem?_mapIdx,there]
      rfl
    exact List.mem_of_getElem? at_k
  obtain ⟨inside,_⟩ := List.getElem?_eq_some_iff.mp on
  have under := reg.kind i
  rw [if_pos inside,on,Option.map_some] at under
  obtain ⟨p,found,same⟩ := Option.map_eq_some_iff.mp under
  simp only [Dev.kind,Prod.mk.injEq] at same
  obtain ⟨number,_,driver⟩ := same
  have disk_ := (only.disks disk (List.mem_of_getElem? on)).2
  unfold readFunc
  rw [func]
  dsimp only
  rw [entry,Option.bind_eq_bind,Option.bind_some]
  show (s.disks[i]?).bind _ = _
  rw [found,Option.bind_some,readFunc_disk (driver.trans disk_),number]
  rfl

/-- A partition is on one of the disks. -/
theorem partsUpTo_on {disks : List Dev} {m i : Nat} {e : PartEnt} (there : (i,e) ∈ partsUpTo media disks m) :
    ∃ disk, disks[i]? = some disk := by
  obtain ⟨j,_,member⟩ := List.mem_flatMap.mp there
  rw [partsOf] at member
  split at member
  · cases member
  · rename_i d at_j
    split at member
    · obtain ⟨_,_,same⟩ := List.mem_map.mp member
      cases same
      exact ⟨d,at_j⟩
    · cases member

/-- Every device can be read. -/
theorem Registers.readable {m : Nat} (reg : Registers before (partsUpTo media before.disks m) s)
    (only : OnlyDisks media before) (here : s.disks[n]? = some d) (off : UInt64) (num : Nat) :
    ∃ b, ∀ fuel, readFunc media s (fuel + 1) d off num = some b := by
  have kind := reg.kind n
  rw [here,Option.map_some] at kind
  by_cases few : n < before.disks.length
  · rw [if_pos few,List.getElem?_eq_getElem few] at kind
    have same := Option.some.inj kind
    simp only [Dev.kind,Prod.mk.injEq] at same
    have driver := (only.disks _ (List.getElem_mem few)).2
    exact ⟨_,fun fuel => readFunc_disk (same.2.2.trans driver) (fuel + 1) off num⟩
  · rw [if_neg few] at kind
    obtain ⟨⟨i,e⟩,there,same⟩ := Option.map_eq_some_iff.mp kind.symm
    obtain ⟨disk,on⟩ := partsUpTo_on (List.mem_of_getElem? there)
    exact ⟨_,fun fuel => reg.read only there on same.symm fuel off num⟩

theorem Registers.registered (reg : Registers before (partsUpTo media before.disks before.disks.length) s)
    (only : OnlyDisks media before) : PartsRegistered media before s where
  registers := reg
  distinct := reg.disks_nodup only
  found _ _ := find_nodup (reg.disks_nodup only)
  partFound _ _ := find_nodup reg.gparts_nodup
  reads k i e there := by
    obtain ⟨disk,on⟩ := partsUpTo_on (List.mem_of_getElem? there)
    have kind := reg.kind (before.disks.length + k)
    rw [if_neg (by omega),Nat.add_sub_cancel_left,there] at kind
    obtain ⟨dev,here,same⟩ := Option.map_eq_some_iff.mp kind
    exact ⟨dev,disk,here,on,congrArg Prod.fst same,fun fuel off num => reg.read only there on same fuel off num⟩

end Registry

end Siegfried.GptSetup
