import Mathlib.Logic.Basic

/-! `nvme_read_disk` and its bounce buffer (`nvme.c`). -/
namespace Siegfried

/-- Memory of which some bytes have never been written. -/
abbrev RawStore := Nat → Option UInt8

/-- `nvme_send_io_cmd` with a sector, an opcode, a number of sectors and a buffer. -/
abbrev SendIoCmd := UInt64 → Nat → UInt64 → RawStore → RawStore

/-- Opcode 2 delivers exactly the sectors asked for. -/
def SendIoCmd.Delivers (send : SendIoCmd) (dev : Nat → UInt8) : Prop :=
  ∀ offSects numSects buf i, send offSects 2 numSects buf i =
    if i < numSects.toNat * 512 then some (dev (offSects.toNat * 512 + i)) else buf i

/-- `num_bytes` rounded up, as an `unsigned long`. -/
def bufSz (numBytes : UInt64) : UInt64 :=
  if numBytes % 512 ≠ 0 then numBytes + (512 - numBytes % 512) else numBytes

/-- `disk` says whether there is a disk with that id; nothing is written to the block
from `k_obj_alloc` before the command. -/
def nvmeReadDisk (send : SendIoCmd) (disk : Bool) (offBytes numBytes : UInt64) (buf : RawStore) :
    UInt64 × RawStore :=
  if disk then
    let rdbuf := send (offBytes / 512) 2 (bufSz numBytes / 512) fun _ => none
    (numBytes,fun k => if k < numBytes.toNat then rdbuf (offBytes.toNat % 512 + k) else buf k)
  else (0,buf)

variable {send : SendIoCmd} {dev : Nat → UInt8}

theorem toNat_512 : (512 : UInt64).toNat = 512 := rfl

/-- Whole sectors, even where rounding up wraps. -/
theorem bufSz_sectors (numBytes : UInt64) :
    (bufSz numBytes / 512).toNat * 512 = (bufSz numBytes).toNat := by
  have aligned : (bufSz numBytes).toNat % 512 = 0 := by
    have small := numBytes.toNat_lt
    rw [bufSz]
    split
    · rw [UInt64.toNat_add,UInt64.toNat_sub,UInt64.toNat_mod,toNat_512]
      omega
    · next even =>
      have even := congrArg UInt64.toNat (not_not.mp even)
      rwa [UInt64.toNat_mod,toNat_512] at even
  rw [UInt64.toNat_div,toNat_512]
  exact Nat.div_mul_cancel (Nat.dvd_of_mod_eq_zero aligned)

/-- The byte copied to `buf + k`. -/
theorem nvmeReadDisk_byte (delivers : send.Delivers dev) (offBytes numBytes : UInt64) (buf : RawStore)
    {k : Nat} (small : k < numBytes.toNat) :
    (nvmeReadDisk send true offBytes numBytes buf).2 k =
      if offBytes.toNat % 512 + k < (bufSz numBytes).toNat then some (dev (offBytes.toNat + k))
      else none := by
  simp only [nvmeReadDisk,if_true,small]
  rw [delivers,bufSz_sectors]
  have sector : (offBytes / 512).toNat * 512 + (offBytes.toNat % 512 + k) = offBytes.toNat + k := by
    rw [UInt64.toNat_div,toNat_512]
    omega
  rw [sector]

section Claim

/-- The bytes arrive, from initialised ones only, exactly when the request ends within
the sectors that were read. -/
theorem nvme_read_disk_iff (send : SendIoCmd) (dev : Nat → UInt8) (delivers : send.Delivers dev)
    (offBytes numBytes : UInt64) (buf : RawStore) :
    (∀ k < numBytes.toNat, (nvmeReadDisk send true offBytes numBytes buf).2 k =
        some (dev (offBytes.toNat + k))) ↔
      numBytes = 0 ∨ offBytes.toNat % 512 + numBytes.toNat ≤ (bufSz numBytes).toNat := by
  constructor
  · intro all
    by_cases none : numBytes.toNat = 0
    · exact .inl (UInt64.toNat_inj.mp none)
    · right
      have last := all (numBytes.toNat - 1) (by omega)
      rw [nvmeReadDisk_byte delivers _ _ _ (by omega)] at last
      split at last
      · omega
      · cases last
  · rintro (rfl | within) k small
    · cases small
    · rw [nvmeReadDisk_byte delivers _ _ _ small,if_pos (by omega)]

/-- A command that delivers `dev`. -/
def sendOf (dev : Nat → UInt8) : SendIoCmd := fun offSects _ numSects buf i =>
  if i < numSects.toNat * 512 then some (dev (offSects.toNat * 512 + i)) else buf i

/-- The last byte of a request that ends with its sector. -/
theorem nvme_read_disk_iff_end :
    (nvmeReadDisk (sendOf fun a => .ofNat a) true 1012 12 fun _ => none).2 11 = some (.ofNat 1023) :=
  (nvme_read_disk_iff (sendOf fun a => .ofNat a) _ (fun _ _ _ _ => rfl) 1012 12 _).mpr (by decide)
    11 (by decide)

/-- One sector's length, not from the start of a sector on. -/
theorem nvme_read_disk_short : ¬∀ (send : SendIoCmd) (dev : Nat → UInt8), send.Delivers dev →
    ∀ (offBytes numBytes : UInt64) (buf : RawStore), ∀ k < numBytes.toNat,
      (nvmeReadDisk send true offBytes numBytes buf).2 k = some (dev (offBytes.toNat + k)) := by
  intro all
  have last := all (sendOf fun _ => 7) (fun _ => 7) (fun _ _ _ _ => rfl) 1 512 (fun _ => none) 511 (by decide)
  exact absurd last (by decide)

end Claim

end Siegfried
