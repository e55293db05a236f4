import Siegfried.NvmeTransfer
import Siegfried.Gpt

/-! Writing to a disk or a partition and reading it back (`nvme.c`, `diskman_gpt.c`). -/
namespace Siegfried

/-- What the pages of two commands held before, and memory that is in none of them. -/
structure Memory where
  write : Pages
  read : Pages
  stray : RawStore

/-- `offBytes` is taken for a sector. -/
def nvmeWriteDisk (m : Memory) (dev : RawStore) (buf : RawStore) (offBytes numBytes : UInt64) :
    Option IoResult :=
  nvmeSendIoCmd m.stray m.write dev offBytes 1 (numBytes / 512) buf

/-- The commands of a disk with these contents; one that corrupts memory leaves nothing
known in the buffer. -/
def sendFrom (m : Memory) (dev : RawStore) : SendIoCmd := fun offSects opcode numSects buf =>
  match nvmeSendIoCmd m.stray m.read dev offSects opcode numSects buf with
  | some r => r.buf
  | none => fun _ => none

/-- An NVMe disk, or a partition on one. -/
inductive NvmeDev where
  | disk | part (e : GptPartlistEnt)

/-- The byte of the disk at an offset. -/
def NvmeDev.addr : NvmeDev → UInt64 → UInt64
  | .disk, off => off
  | .part e, off => e.addr off

def NvmeDev.writeFunc (d : NvmeDev) (m : Memory) (dev : RawStore) (off num : UInt64) (buf : RawStore) :
    Option IoResult :=
  match d with
  | .disk => nvmeWriteDisk m dev buf off num
  | .part e => (diskmanGptWrite (nvmeWriteDisk m dev buf) e off num).2

def NvmeDev.readFunc (d : NvmeDev) (m : Memory) (dev : RawStore) (off num : UInt64) (buf : RawStore) :
    RawStore :=
  let nvmeRead := fun off num => (nvmeReadDisk (sendFrom m dev) true off num buf).2
  match d with
  | .disk => nvmeRead off num
  | .part e => (diskmanGptRead nvmeRead e off num).2

variable {d : NvmeDev} {m : Memory} {dev stray buf src : RawStore} {pages pages' : Pages} {r : IoResult}
  {off num offSects numSects : UInt64} {prp2 : Bool} {ents len i j k : Nat} {p : Bounce}

/-- Where in the buffer a page is copied to. -/
def Bounce.pos : Bounce → Nat
  | .prp1 => 0
  | .prp2 => 4096
  | .page i => 4096 * (i + 1)

section Claim

end Claim

end Siegfried
