import Siegfried.Gpt
import Siegfried.ExtfsRanges

/-! Operations on a partition, and the bytes of the disk under it that they touch
(`syscall.c`, `extfs.c`, `diskman_gpt.c`). -/
namespace Siegfried

open Bytes Requests

/-- `diskman_gpt_read` and `diskman_gpt_write` with a request. -/
def gptDriver (e : GptPartlistEnt) : Request → Asks Answer
  | .read off num => .ask (.read (e.addr (.ofNat off)).toNat num) fun r => .ret (num,r.2)
  | .write off num buf => .ask (.write (e.addr (.ofNat off)).toNat num buf) fun r => .ret (num,r.2)

/-- `sys_disk_read`, `sys_disk_write`, `sys_read` from a file, and the lookup of a path. -/
inductive PartitionOp where
  | diskRead (off num : UInt64)
  | diskWrite (off num : UInt64) (buf : Store)
  | read (ino : Int) (buf : Store) (off : Nat) (szBytes : UInt64)
  | lookup (diskId : Nat) (cwd : Option SiegfriedDir) (path : List UInt8) (wantPar : Bool)

/-- What an operation asks of the partition. -/
def PartitionOp.asks (inf : ExtfsDiskInfo) (fuel : Nat) : PartitionOp → Asks Unit
  | .diskRead off num => (Asks.read off.toNat num.toNat).map fun _ => ()
  | .diskWrite off num buf => .ask (.write off.toNat num.toNat buf) fun _ => .ret ()
  | .read ino buf off szBytes => (Asks.extfsFread inf fuel ino buf off szBytes).map fun _ => ()
  | .lookup diskId cwd path wantPar =>
    (Asks.extfsFindInodeFromNameAndSetName inf diskId cwd fuel path wantPar).map fun _ => ()

/-- The requests for the disk under the partition, whatever it holds. -/
def PartitionOp.touched (op : PartitionOp) (e : GptPartlistEnt) (inf : ExtfsDiskInfo) (fuel : Nat)
    (answer : Request → Answer) : List Request :=
  ((op.asks inf fuel).via (gptDriver e)).asked answer

/-- Every byte is one of the partition's. -/
def Request.Inside (r : Request) (e : GptPartlistEnt) : Prop :=
  ∀ a, r.off ≤ a → a < r.off + r.num → e.lbaStart.toNat * 512 ≤ a ∧ a < (e.lbaEnd.toNat + 1) * 512

/-- There are no bytes, or they end with the partition at the latest, and where they begin
on the disk is a 64-bit number. -/
def GptPartlistEnt.Has (e : GptPartlistEnt) (off num : Nat) : Prop :=
  num = 0 ∨ e.lbaStart.toNat * 512 + off % 2^64 < 2^64 ∧
    e.lbaStart.toNat * 512 + off % 2^64 + num ≤ (e.lbaEnd.toNat + 1) * 512

/-- The partition as a disk. -/
def GptPartlistEnt.contents (e : GptPartlistEnt) (inf : ExtfsDiskInfo) (answer : Request → Answer) : Disk :=
  .answering inf fun q => (gptDriver e q).run answer

/-- The partition has the bytes that are asked for, or, by what it contains, the inodes,
extents and blocks of the file or of those that the path leads over. -/
def PartitionOp.Fits (e : GptPartlistEnt) (inf : ExtfsDiskInfo) (fuel : Nat) (answer : Request → Answer) :
    PartitionOp → Prop
  | .diskRead off num | .diskWrite off num _ => e.Has off.toNat num.toNat
  | .read ino _ off szBytes => FileFits (e.contents inf answer) e.Has fuel ino off szBytes
  | .lookup diskId cwd path wantPar => PathFits (e.contents inf answer) e.Has diskId cwd fuel path wantPar

variable {e : GptPartlistEnt} {r q : Request} {answer : Request → Answer}

theorem Request.inside_iff : r.Inside e ↔ r.num = 0 ∨
    e.lbaStart.toNat * 512 ≤ r.off ∧ r.off + r.num ≤ (e.lbaEnd.toNat + 1) * 512 := by
  constructor
  · intro inside
    by_cases none : r.num = 0
    · exact .inl none
    · have first := inside r.off (Nat.le_refl _) (by omega)
      have last := inside (r.off + r.num - 1) (by omega) (by omega)
      exact .inr ⟨first.1,by omega⟩
  · rintro (none | within) a lower upper
    · omega
    · omega

theorem GptPartlistEnt.addr_toNat (e : GptPartlistEnt) (off : Nat) :
    (e.addr (.ofNat off)).toNat = (e.lbaStart.toNat * 512 + off % 2^64) % 2^64 := by
  have sector : (512 : UInt64).toNat = 512 := rfl
  rw [addr,UInt64.toNat_add,UInt64.toNat_mul,UInt64.toNat_ofNat',sector]
  omega

/-- A request that wraps around is in front of the partition. -/
theorem inside_addr_iff {off num : Nat} : (num = 0 ∨ e.lbaStart.toNat * 512 ≤ (e.addr (.ofNat off)).toNat ∧
    (e.addr (.ofNat off)).toNat + num ≤ (e.lbaEnd.toNat + 1) * 512) ↔
      num = 0 ∨ e.lbaStart.toNat * 512 + off % 2^64 < 2^64 ∧
        e.lbaStart.toNat * 512 + off % 2^64 + num ≤ (e.lbaEnd.toNat + 1) * 512 := by
  rw [e.addr_toNat]
  apply or_congr_right
  constructor
  · intro within
    omega
  · intro within
    omega

/-- What is made of one request for the partition. -/
theorem gptDriver_inside : (gptDriver e q).All (·.Inside e) answer ↔ e.Has q.off q.num := by
  cases q with
  | read off num =>
    simp only [gptDriver,Prog.all_ask,Prog.all_ret,and_true,Request.inside_iff]
    exact inside_addr_iff
  | write off num buf =>
    simp only [gptDriver,Prog.all_ask,Prog.all_ret,and_true,Request.inside_iff]
    exact inside_addr_iff

section Claim

/-- An operation stays in the partition exactly when all it goes over there fits. -/
theorem partition_bounds_iff (e : GptPartlistEnt) (inf : ExtfsDiskInfo) (op : PartitionOp) (fuel : Nat)
    (answer : Request → Answer) :
    (∀ r ∈ op.touched e inf fuel answer, r.Inside e) ↔ op.Fits e inf fuel answer := by
  have requests : (∀ r ∈ op.touched e inf fuel answer, r.Inside e) ↔
      (op.asks inf fuel).All (fun q => e.Has q.off q.num) fun q => (gptDriver e q).run answer := by
    apply Prog.all_via.trans
    simp only [gptDriver_inside]
  apply requests.trans
  cases op with
  | diskRead off num => exact Prog.all_map.trans all_read
  | diskWrite off num buf => exact Prog.all_ask.trans (and_iff_left Prog.all_ret)
  | read ino buf off szBytes => exact Prog.all_map.trans all_extfsFread
  | lookup diskId cwd path wantPar => exact Prog.all_map.trans all_extfsFindInode

/-- The sector behind a partition of 2048 sectors. -/
theorem partition_bounds_behind : ¬∀ (e : GptPartlistEnt) (inf : ExtfsDiskInfo) (op : PartitionOp)
    (fuel : Nat) (answer : Request → Answer), ∀ r ∈ op.touched e inf fuel answer, r.Inside e := by
  intro all
  have behind := all ⟨2048,4095⟩ smallInfo (.diskRead 0x100000 512) 0 (fun _ => (0,fun _ => 0))
    (.read 0x200000 512) (List.mem_singleton.mpr rfl) 0x200000 (Nat.le_refl _) (by decide)
  exact absurd behind.2 (by decide)

end Claim

end Siegfried
