import Siegfried.Loops
import Siegfried.Bytes
import Mathlib.Data.Fintype.Pigeonhole
import Mathlib.Algebra.GroupWithZero.Nat

/-! The walks over what the firmware and the boot loader leave: the entries of the MADT, the tags
of the multiboot information and the capabilities of a PCI function. -/
namespace Siegfried
open Bytes Loops

section Madt
variable (m : Store)

/-- `header.sz`; `m` is the memory from `madt` on. -/
def madtSz : Nat := read m 4 4

/-- `it->type` and `it->sz`. -/
def madtType (it : Nat) : Nat := read m it 1
def madtEntSz (it : Nat) : Nat := read m (it + 1) 1

/-- The fields that `apic_setup` reads of an entry: where they are, and how many bytes. -/
def madtReads (it : Nat) : List (Nat × Nat) :=
  [(it,1),(it + 1,1)] ++
  match madtType m it with
  | 1 => (it + 8,4) :: if read m (it + 8) 4 = 0 then [(it + 4,4)] else []
  | 2 => [(it + 3,1),(it + 4,4)]
  | 0 => [(it + 3,1),(it + 2,1),(it + 4,4)]
  | 5 => [(it + 4,8)]
  | _ => []

/-- The loop of `apic_setup`, which begins at `ents_start`. -/
def madtTurn (it : Nat) : Nat ⊕ Unit := if it < madtSz m then .inl (it + madtEntSz m it) else .inr ()

def madtStart : Nat := 44

/-- The bytes of an entry up to the last field that is read. -/
def madtNeed : Nat → Nat
  | 0 => 8
  | 1 => 12
  | 2 => 8
  | 5 => 12
  | _ => 2

/-- The entries, each behind the one before. -/
inductive MadtEnt : Nat → Prop where
  | first : MadtEnt madtStart
  | next {it : Nat} (before : MadtEnt it) (inside : it < madtSz m) : MadtEnt (it + madtEntSz m it)

/-- No entry is empty, and each is within the table as far as it is read. -/
def MadtSound : Prop :=
  ∀ it, MadtEnt m it → it < madtSz m → 0 < madtEntSz m it ∧ it + madtNeed (madtType m it) ≤ madtSz m

/-- The bytes of the table add up to zero. -/
def MadtChecksummed : Prop := ((bytes m 0 (madtSz m)).map UInt8.toNat).sum % 256 = 0

end Madt

section Multiboot
variable (m : Store)

/-- `m` is the memory from `m_info` on. -/
def mbiSz : Nat := read m 0 4

def tagType (off : Nat) : Nat := read m off 4
def tagSize (off : Nat) : Nat := read m (off + 4) 4

/-- `(tag_ptr->size + 7) & ~7`, of an `unsigned int`. -/
def tagStep (off : Nat) : Nat := (tagSize m off + 7) % 2^32 / 8 * 8

/-- `mmap_tag->entry_size`. -/
def mmapEntSize (off : Nat) : Nat := read m (off + 8) 4

/-- A header of the section table, of 64 bytes. -/
def elfSection (off i : Nat) : Nat := off + 20 + 64 * i

/-- The tag at `off`, or an entry of the memory map in it. -/
inductive MbiAt where
  | tag (off : Nat)
  | mmap (off ents : Nat)

/-- The fields that `krnl_main` reads: the tags are those of the command line, the ELF sections, the
memory map and the frame buffer. -/
def tagReads (off : Nat) : List (Nat × Nat) :=
  [(off,4),(off + 4,4)] ++
  match tagType m off with
  | 1 => [(off + 8,min ((tagSize m off + (2^32 - 8)) % 2^32) 4096)]
  | 9 => [(off + 16,4),(elfSection off (read m (off + 16) 4) + 16,8),(off + 8,4)] ++
    (List.range (read m (off + 8) 4)).flatMap fun i => [(elfSection off i,4),(elfSection off i + 16,8)]
  | 6 => [(off + 12,4)]
  | 8 => [(off + 8,8),(off + 20,4),(off + 24,4),(off + 28,1),(off + 16,4)]
  | _ => []

def mmapReads (off ents : Nat) : List (Nat × Nat) :=
  (ents + 16,4) :: (if read m (ents + 16) 4 = 1 then [(ents,8),(ents + 8,8)] else []) ++ [(off + 8,4)]

def mbiReads : MbiAt → List (Nat × Nat)
  | .tag off => if off < mbiSz m then tagReads m off else []
  | .mmap off ents => if ents < off + tagSize m off then mmapReads m off ents else []

/-- The two loops of `krnl_main`. -/
def mbiTurn : MbiAt → MbiAt ⊕ Unit
  | .tag off =>
    if off < mbiSz m then
      if tagType m off = 6 then .inl (.mmap off (off + 16)) else .inl (.tag (off + tagStep m off))
    else .inr ()
  | .mmap off ents =>
    if ents < off + tagSize m off then .inl (.mmap off (ents + mmapEntSize m off))
    else .inl (.tag (off + tagStep m off))

/-- The tags, each behind the one before. -/
inductive MbiTag : Nat → Prop where
  | first : MbiTag 8
  | next {off : Nat} (before : MbiTag off) (inside : off < mbiSz m) : MbiTag (off + tagStep m off)

/-- What the walk needs of a tag: it is not empty, it is read within the area, and a memory map
with entries says how far they are apart and has them all within the area. -/
structure TagSound (off : Nat) : Prop where
  step : 0 < tagStep m off
  inside : ∀ r ∈ tagReads m off, r.1 + r.2 ≤ mbiSz m
  apart : tagType m off = 6 → 16 < tagSize m off → 0 < mmapEntSize m off
  entries : tagType m off = 6 → ∀ j, 16 + j * mmapEntSize m off < tagSize m off →
    ∀ r ∈ mmapReads m off (off + 16 + j * mmapEntSize m off), r.1 + r.2 ≤ mbiSz m

def MbiSound : Prop := ∀ off, MbiTag m off → off < mbiSz m → TagSound m off

end Multiboot

section Capabilities
variable (conw : UInt8 → UInt16)

/-- `cap_off` and `cap_id`; `conw` is `pci_read_conw` of the function. -/
def capStart : UInt8 := (conw 0x34).toUInt8 &&& 0xfc
def capId (off : UInt8) : UInt8 := (conw off).toUInt8
def capNext (off : UInt8) : UInt8 := (conw off >>> 8).toUInt8

/-- The loop of `nvme_setup_pci_dev`. -/
def capTurn (off : UInt8) : UInt8 ⊕ UInt8 :=
  if capId conw off ≠ 0x11 ∧ capId conw off ≠ 0 then .inl (capNext conw off) else .inr (capId conw off)

/-- The capability that so many pointers lead to. -/
def capAt (off : UInt8) : Nat → UInt8
  | 0 => off
  | n + 1 => capNext conw (capAt off n)

/-- The MSI-X capability, or no id. -/
def CapLast (off : UInt8) : Prop := capId conw off = 0x11 ∨ capId conw off = 0

/-- The list has its end among the first 256. -/
def CapsSound : Prop := ∃ n < 256, CapLast conw (capAt conw (capStart conw) n)

end Capabilities

/-- The walks end, and those over the tables read fields inside the size of the table only. -/
structure TablesWalked (madt mbi : Store) (conw : UInt8 → UInt16) : Prop where
  madtEnds : ∃ n, run (madtTurn madt) n madtStart = some ()
  madtInside : ∀ it, Comes (madtTurn madt) madtStart it → it < madtSz madt →
    ∀ r ∈ madtReads madt it, r.1 + r.2 ≤ madtSz madt
  mbiEnds : ∃ n, run (mbiTurn mbi) n (.tag 8) = some ()
  mbiInside : ∀ s, Comes (mbiTurn mbi) (.tag 8) s → ∀ r ∈ mbiReads mbi s, r.1 + r.2 ≤ mbiSz mbi
  capsEnd : ∃ n id, run (capTurn conw) n (capStart conw) = some id

section MadtWalk
variable {m : Store} {it : Nat}

theorem madt_comes (comes : Comes (madtTurn m) madtStart it) : MadtEnt m it := by
  induction comes with
  | start => exact .first
  | @turn s s' _ go ih =>
    rw [madtTurn] at go
    split at go
    · cases go
      exact ih.next ‹_›
    · cases go

theorem MadtEnt.comes (ent : MadtEnt m it) : Comes (madtTurn m) madtStart it := by
  induction ent with
  | first => exact .start
  | next _ inside ih => exact ih.turn (if_pos inside)

theorem madtReads_inside {size : Nat} :
    (∀ r ∈ madtReads m it, r.1 + r.2 ≤ size) ↔ it + madtNeed (madtType m it) ≤ size := by
  rw [madtReads]
  generalize madtType m it = type
  match type with
  | 0 | 2 | 5 =>
    simp only [List.cons_append,List.nil_append,List.forall_mem_cons,List.not_mem_nil,madtNeed]
    constructor
    · omega
    · intro fits
      refine ⟨by omega,by omega,?_⟩
      simp
      omega
  | 1 =>
    rw [madtNeed]
    constructor
    · intro all
      have last := all (it + 8,4) (by simp)
      omega
    · intro fits r member
      have one : r = (it,1) ∨ r = (it + 1,1) ∨ r = (it + 8,4) ∨ r = (it + 4,4) := by
        by_cases zero : read m (it + 8) 4 = 0
        · simpa [zero] using member
        · have three : r = (it,1) ∨ r = (it + 1,1) ∨ r = (it + 8,4) := by simpa [zero] using member
          tauto
      rcases one with rfl | rfl | rfl | rfl <;> dsimp only <;> omega
  | 3 | 4 | n + 6 =>
    simp [madtNeed]
    omega

theorem madt_ends_iff : (∃ n, run (madtTurn m) n madtStart = some ()) ↔
    ∀ it, MadtEnt m it → it < madtSz m → 0 < madtEntSz m it := by
  constructor
  · intro ends it ent inside
    refine Nat.pos_of_ne_zero fun empty => ?_
    obtain ⟨n,ends⟩ := ent.comes.ends ends
    have stays : madtTurn m it = .inl it := by rw [madtTurn,if_pos inside,empty,Nat.add_zero]
    rw [Comes.cycle stays .start n] at ends
    cases ends
  · intro some_
    have rest (k it : Nat) (left : madtSz m - it = k) (ent : MadtEnt m it) :
        ∃ n, run (madtTurn m) n it = some () := by
      induction k using Nat.strongRecOn generalizing it with
      | ind k ih =>
        by_cases inside : it < madtSz m
        · have step := some_ it ent inside
          obtain ⟨n,ends⟩ := ih _ (by omega) (it + madtEntSz m it) rfl (ent.next inside)
          exact ⟨n + 1,by rw [run,madtTurn,if_pos inside]; exact ends⟩
        · exact ⟨1,by rw [run,madtTurn,if_neg inside]⟩
    exact rest _ madtStart rfl .first

end MadtWalk

section MbiWalk
variable {m : Store} {off ents : Nat}

/-- The entries of a memory map are left behind where they have a size. -/
theorem mmap_leave (apart : 0 < mmapEntSize m off ∨ off + tagSize m off ≤ ents) :
    Comes (mbiTurn m) (.mmap off ents) (.tag (off + tagStep m off)) := by
  have rest (k ents : Nat) (left : off + tagSize m off - ents = k)
      (apart : 0 < mmapEntSize m off ∨ off + tagSize m off ≤ ents) :
      Comes (mbiTurn m) (.mmap off ents) (.tag (off + tagStep m off)) := by
    induction k using Nat.strongRecOn generalizing ents with
    | ind k ih =>
      by_cases more : ents < off + tagSize m off
      · have step : 0 < mmapEntSize m off := apart.resolve_right (Nat.not_le_of_lt more)
        exact .head (if_pos more) (ih _ (by omega) (ents + mmapEntSize m off) rfl (.inl step))
      · exact .head (if_neg more) .start
  exact rest _ ents rfl apart

theorem mmap_left {n : Nat} (ends : run (mbiTurn m) n (.mmap off ents) = some ()) :
    Comes (mbiTurn m) (.mmap off ents) (.tag (off + tagStep m off)) := by
  induction n generalizing ents with
  | zero => cases ends
  | succ n ih =>
    by_cases more : ents < off + tagSize m off
    · have go : mbiTurn m (.mmap off ents) = .inl (.mmap off (ents + mmapEntSize m off)) := if_pos more
      rw [run,go] at ends
      exact .head go (ih ends)
    · exact .head (if_neg more) .start

/-- A walk that ends goes from a tag to the next one. -/
theorem tag_left (inside : off < mbiSz m) (ends : ∃ n, run (mbiTurn m) n (.tag off) = some ()) :
    ∃ s, mbiTurn m (.tag off) = .inl s ∧ Comes (mbiTurn m) s (.tag (off + tagStep m off)) := by
  by_cases map : tagType m off = 6
  · have go : mbiTurn m (.tag off) = .inl (.mmap off (off + 16)) := by
      rw [mbiTurn,if_pos inside,if_pos map]
    obtain ⟨n,ends⟩ := (Comes.head go .start).ends ends
    exact ⟨_,go,mmap_left ends⟩
  · have go : mbiTurn m (.tag off) = .inl (.tag (off + tagStep m off)) := by
      rw [mbiTurn,if_pos inside,if_neg map]
    exact ⟨_,go,.start⟩

theorem MbiTag.comes (tag : MbiTag m off) (ends : ∃ n, run (mbiTurn m) n (.tag 8) = some ()) :
    Comes (mbiTurn m) (.tag 8) (.tag off) := by
  induction tag with
  | first => exact .start
  | next _ inside ih =>
    obtain ⟨s,go,rest⟩ := tag_left inside (ih.ends ends)
    exact (ih.turn go).trans rest

/-- Where the walk is: at a tag, or at an entry of a memory map. -/
def MbiPlace (m : Store) : MbiAt → Prop
  | .tag off => MbiTag m off
  | .mmap off ents => MbiTag m off ∧ off < mbiSz m ∧ tagType m off = 6 ∧
    ∃ j, ents = off + 16 + j * mmapEntSize m off

theorem mbi_comes {s : MbiAt} (comes : Comes (mbiTurn m) (.tag 8) s) : MbiPlace m s := by
  induction comes with
  | start => exact .first
  | @turn s s' _ go ih =>
    cases s with
    | tag off =>
      rw [mbiTurn] at go
      split at go
      · split at go
        · cases go
          exact ⟨ih,‹_›,‹_›,0,by rw [Nat.zero_mul,Nat.add_zero]⟩
        · cases go
          exact MbiTag.next ih ‹_›
      · cases go
    | mmap off ents =>
      obtain ⟨tag,inside,map,j,rfl⟩ := ih
      rw [mbiTurn] at go
      split at go
      · cases go
        exact ⟨tag,inside,map,j + 1,by rw [Nat.succ_mul,Nat.add_assoc]⟩
      · cases go
        exact tag.next inside

/-- The entries of a memory map that the walk comes to. -/
theorem mmap_comes (comes : Comes (mbiTurn m) (.tag 8) (.tag off)) (inside : off < mbiSz m)
    (map : tagType m off = 6) (j : Nat) (within : 16 + j * mmapEntSize m off < tagSize m off) :
    Comes (mbiTurn m) (.tag 8) (.mmap off (off + 16 + j * mmapEntSize m off)) := by
  induction j with
  | zero =>
    rw [Nat.zero_mul,Nat.add_zero]
    exact comes.turn (by rw [mbiTurn,if_pos inside,if_pos map])
  | succ j ih =>
    rw [Nat.succ_mul] at within ⊢
    have before : off + 16 + j * mmapEntSize m off < off + tagSize m off := by omega
    rw [← Nat.add_assoc]
    exact (ih (by omega)).turn (if_pos before)

theorem mbi_iff : ((∃ n, run (mbiTurn m) n (.tag 8) = some ()) ∧
    ∀ s, Comes (mbiTurn m) (.tag 8) s → ∀ r ∈ mbiReads m s, r.1 + r.2 ≤ mbiSz m) ↔ MbiSound m := by
  constructor
  · rintro ⟨ends,reads⟩ off tag inside
    have comes := tag.comes ends
    have ends' := comes.ends ends
    obtain ⟨s,go,rest⟩ := tag_left inside ends'
    refine ⟨Nat.pos_of_ne_zero fun empty => ?_,?_,fun map some_ => Nat.pos_of_ne_zero fun empty => ?_,?_⟩
    · rw [empty,Nat.add_zero] at rest
      obtain ⟨n,ends'⟩ := ends'
      rw [Comes.cycle go rest n] at ends'
      cases ends'
    · have here := reads _ comes
      rwa [mbiReads,if_pos inside] at here
    · have at_entry := mmap_comes comes inside map 0 (by rwa [Nat.zero_mul,Nat.add_zero])
      rw [Nat.zero_mul,Nat.add_zero] at at_entry
      have stays : mbiTurn m (.mmap off (off + 16)) = .inl (.mmap off (off + 16)) := by
        rw [mbiTurn,if_pos (by omega),empty,Nat.add_zero]
      obtain ⟨n,ends⟩ := at_entry.ends ends
      rw [Comes.cycle stays .start n] at ends
      cases ends
    · intro map j within
      have here := reads _ (mmap_comes comes inside map j within)
      rwa [mbiReads,if_pos (by omega)] at here
  · intro sound
    refine ⟨?_,fun s comes => ?_⟩
    · have rest (k off : Nat) (left : mbiSz m - off = k) (tag : MbiTag m off) :
          ∃ n, run (mbiTurn m) n (.tag off) = some () := by
        induction k using Nat.strongRecOn generalizing off with
        | ind k ih =>
          by_cases inside : off < mbiSz m
          · obtain ⟨step,_,apart,_⟩ := sound off tag inside
            obtain ⟨n,ends⟩ := ih _ (by omega) (off + tagStep m off) rfl (tag.next inside)
            have comes : Comes (mbiTurn m) (.tag off) (.tag (off + tagStep m off)) := by
              by_cases map : tagType m off = 6
              · have enough : 0 < mmapEntSize m off ∨ off + tagSize m off ≤ off + 16 := by
                  by_cases some_ : 16 < tagSize m off
                  · exact .inl (apart map some_)
                  · exact .inr (by omega)
                exact .head (by rw [mbiTurn,if_pos inside,if_pos map]) (mmap_leave enough)
              · exact .head (by rw [mbiTurn,if_pos inside,if_neg map]) .start
            obtain ⟨p,before,stop⟩ := run_comes ends
            exact run_iff.mpr ⟨p,comes.trans before,stop⟩
          · exact ⟨1,by rw [run,mbiTurn,if_neg inside]⟩
      exact rest _ 8 rfl .first
    · have place := mbi_comes comes
      cases s with
      | tag off =>
        rw [mbiReads]
        split
        · exact (sound off place ‹_›).inside
        · exact fun r member => absurd member List.not_mem_nil
      | mmap off ents =>
        obtain ⟨tag,inside,map,j,rfl⟩ := place
        rw [mbiReads]
        split
        · exact (sound off tag inside).entries map j (by omega)
        · exact fun r member => absurd member List.not_mem_nil

end MbiWalk

section CapWalk
variable {conw : UInt8 → UInt16} {off : UInt8}

theorem capTurn_last : (∃ id, capTurn conw off = .inr id) ↔ CapLast conw off := by
  rw [capTurn,CapLast]
  constructor
  · rintro ⟨id,stop⟩
    split at stop
    · cases stop
    · tauto
  · intro last
    exact ⟨_,if_neg (by tauto)⟩

theorem capTurn_next (more : ¬CapLast conw off) : capTurn conw off = .inl (capNext conw off) := by
  rw [capTurn]
  exact if_pos (not_or.mp more)

theorem capAt_next (n : Nat) : capAt conw off (n + 1) = capAt conw (capNext conw off) n := by
  induction n with
  | zero => rfl
  | succ n ih =>
    rw [capAt,ih]
    rfl

theorem caps_comes {p : UInt8} (comes : Comes (capTurn conw) off p) : ∃ n, p = capAt conw off n := by
  induction comes with
  | start => exact ⟨0,rfl⟩
  | @turn s s' _ go ih =>
    obtain ⟨n,rfl⟩ := ih
    refine ⟨n + 1,?_⟩
    rw [capTurn] at go
    split at go
    · cases go
      rfl
    · cases go

theorem caps_end {n : Nat} (last : CapLast conw (capAt conw off n)) : ∃ n id, run (capTurn conw) n off = some id := by
  induction n generalizing off with
  | zero =>
    obtain ⟨id,stop⟩ := capTurn_last.mpr last
    exact ⟨1,id,by rw [run,show capTurn conw off = .inr id from stop]⟩
  | succ n ih =>
    by_cases here : CapLast conw off
    · obtain ⟨id,stop⟩ := capTurn_last.mpr here
      exact ⟨1,id,by rw [run,stop]⟩
    · rw [capAt_next] at last
      obtain ⟨k,id,ends⟩ := ih last
      exact ⟨k + 1,id,by rw [run,capTurn_next here]; exact ends⟩

theorem capAt_add {i j : Nat} (same : capAt conw off i = capAt conw off j) (t : Nat) :
    capAt conw off (i + t) = capAt conw off (j + t) := by
  induction t with
  | zero => exact same
  | succ t ih => exact congrArg (capNext conw) ih

open Classical in
/-- There are 256 offsets: a list that has an end has it among the first 256. -/
theorem caps_bound {n : Nat} (last : CapLast conw (capAt conw off n)) :
    ∃ n < 256, CapLast conw (capAt conw off n) := by
  have some_ : ∃ n, CapLast conw (capAt conw off n) := ⟨n,last⟩
  refine ⟨Nat.find some_,Nat.lt_of_not_le fun late => ?_,Nat.find_spec some_⟩
  obtain ⟨i,j,apart,same⟩ := Fintype.exists_ne_map_eq_of_card_lt
    (fun i : Fin 257 => (capAt conw off i).toFin) (by rw [Fintype.card_fin,Fintype.card_fin]; decide)
  have earlier (i j : Nat) (less : i < j) (few : j ≤ 256) (same : capAt conw off i = capAt conw off j) : False := by
    have back := capAt_add same (Nat.find some_ - j)
    rw [Nat.add_sub_cancel' (Nat.le_trans few late)] at back
    have last := Nat.find_spec some_
    rw [← back] at last
    exact Nat.find_min some_ (by omega) last
  have same := UInt8.toFin_inj.mp same
  rcases Nat.lt_or_gt_of_ne (fun eq => apart (Fin.ext eq)) with less | less
  · exact earlier i j less (Nat.le_of_lt_succ j.isLt) same
  · exact earlier j i less (Nat.le_of_lt_succ i.isLt) same.symm

theorem caps_iff : (∃ n id, run (capTurn conw) n (capStart conw) = some id) ↔ CapsSound conw := by
  constructor
  · rintro ⟨n,id,ends⟩
    obtain ⟨p,comes,stop⟩ := run_comes ends
    obtain ⟨k,rfl⟩ := caps_comes comes
    exact caps_bound (capTurn_last.mp ⟨id,stop⟩)
  · rintro ⟨n,_,last⟩
    exact caps_end last

end CapWalk

/-- **The walks over the tables.** They end, and read inside the tables, if and only if no entry of
the MADT and no tag is empty or goes on behind the end as far as it is read, the entries of a
memory map have a size, and the list of capabilities has an end. -/
theorem tables_walked_iff (madt mbi : Store) (conw : UInt8 → UInt16) :
    TablesWalked madt mbi conw ↔ MadtSound madt ∧ MbiSound mbi ∧ CapsSound conw := by
  constructor
  · rintro ⟨madtEnds,madtInside,mbiEnds,mbiInside,capsEnd⟩
    refine ⟨fun it ent inside => ⟨madt_ends_iff.mp madtEnds it ent inside,?_⟩,mbi_iff.mp ⟨mbiEnds,mbiInside⟩,
      caps_iff.mp capsEnd⟩
    exact madtReads_inside.mp (madtInside it ent.comes inside)
  · rintro ⟨madtSound,mbiSound,capsSound⟩
    obtain ⟨mbiEnds,mbiInside⟩ := mbi_iff.mpr mbiSound
    refine ⟨madt_ends_iff.mpr fun it ent inside => (madtSound it ent inside).1,fun it comes inside => ?_,
      mbiEnds,mbiInside,caps_iff.mpr capsSound⟩
    exact madtReads_inside.mpr (madtSound it (madt_comes comes) inside).2

/-- A MADT of 46 bytes whose only entry has no size. -/
def madtEmpty (i : Nat) : UInt8 := if i = 4 then 46 else if i = 9 then 210 else 0

theorem tables_walked_empty : ¬∀ madt mbi conw, MadtChecksummed madt → TablesWalked madt mbi conw := by
  intro all
  have sum : MadtChecksummed madtEmpty := by
    unfold MadtChecksummed
    decide
  have ends := (all madtEmpty (fun _ => 0) (fun _ => 0) sum).madtEnds
  exact absurd (madt_ends_iff.mp ends madtStart .first (by decide)) (by decide)

end Siegfried
