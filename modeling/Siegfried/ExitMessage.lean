import Siegfried.Bytes
import Siegfried.MsgQueue

/-! The message that a dying task sends its creator (`tasks.c`), and its receipt
(`syscall.c`). -/
namespace Siegfried

open Bytes

/-- `syscall_msg_type_t`. -/
inductive SyscallMsgType where
  | null | term | childDied

def SyscallMsgType.value : SyscallMsgType → UInt32
  | null => 0
  | term => 1
  | childDied => 2

/-- `sizeof(syscall_msg_t)`: two eight-byte task ids, the type, and padding in which
`spec_dat` starts. -/
def syscallMsgSize : Nat := 24

/-- `syscall_msg_t` with the `syscall_child_died_type_t` in its `spec_dat`. -/
@[ext] structure ExitMsg where
  src : UInt64
  dest : UInt64
  type : UInt32
  code : UInt32
  deriving DecidableEq

/-- What a task finds in the message at `p`. -/
def ExitMsg.load (mem : Store) (p : Nat) : ExitMsg where
  src := .ofNat (read mem p 8)
  dest := .ofNat (read mem (p + 8) 8)
  type := .ofNat (read mem (p + 16) 4)
  code := .ofNat (read mem (p + 20) 4)

def memSet (mem : Store) (s : Nat) (c : UInt8) (n : Nat) : Store := splice mem s n fun _ => c

def memCpy (mem : Store) (dest src n : Nat) : Store := splice mem dest n fun i => mem (src + i)

/-- `ret` is the block that `k_obj_alloc` returned. -/
def taskNmsg (mem : Store) (ret : Nat) (dest src : UInt64) (_t : SyscallMsgType) (datSz : Nat) :
    Store :=
  let mem := write mem (ret + 8) 8 dest.toNat
  let mem := write mem ret 8 src.toNat
  memSet mem (ret + 20) 0 datSz

/-- The message part of `task_exit`, up to `task_msgqueue_push`. -/
def taskExit (mem : Store) (ret : Nat) (creator tid : UInt64) (code : UInt32) : Store :=
  let mem := taskNmsg mem ret creator tid .childDied 4
  write mem (ret + 20) 4 code.toNat

/-- The last round of `task_msgqueue_pop`, and the copy. -/
def syscallGmsg (mem : Store) (queue : MsgQueue Nat) (dest : Nat) : Store :=
  memCpy mem dest (queue.slot queue.tail) syscallMsgSize

variable {mem mem' : Store} {p q : Nat}

theorem ExitMsg.load_congr (same : ∀ i < syscallMsgSize, mem (p + i) = mem' (q + i)) :
    load mem p = load mem' q := by
  have field (k n : Nat) (within : k + n ≤ 24) : read mem (p + k) n = read mem' (q + k) n := by
    apply read_congr
    intro i small
    rw [Nat.add_assoc,Nat.add_assoc]
    exact same (k + i) (Nat.lt_of_lt_of_le (Nat.add_lt_add_left small k) within)
  have src : read mem p 8 = read mem' q 8 := field 0 8 (by decide)
  rw [load,load,src,field 8 8 (by decide),field 16 4 (by decide),field 20 4 (by decide)]

theorem syscallGmsg_load (mem : Store) (queue : MsgQueue Nat) (dest : Nat) :
    ExitMsg.load (syscallGmsg mem queue dest) dest = .load mem (queue.slot queue.tail) :=
  ExitMsg.load_congr fun _ small => by rw [syscallGmsg,memCpy,splice_inside small]

/-- Every field but the type comes from the exit. -/
theorem taskExit_load (mem : Store) (ret : Nat) (creator tid : UInt64) (code : UInt32) :
    ExitMsg.load (taskExit mem ret creator tid code) ret =
      ⟨tid,creator,.ofNat (read mem (ret + 16) 4),code⟩ := by
  simp only [ExitMsg.load,taskExit,taskNmsg,memSet]
  ext1
  · dsimp only
    rw [read_write_apart (by omega),read_splice_apart (by omega),read_write,
      Nat.mod_eq_of_lt (show tid.toNat < 256 ^ 8 from tid.toNat_lt),UInt64.ofNat_toNat]
  · dsimp only
    rw [read_write_apart (by omega),read_splice_apart (by omega),read_write_apart (by omega),
      read_write,Nat.mod_eq_of_lt (show creator.toNat < 256 ^ 8 from creator.toNat_lt),UInt64.ofNat_toNat]
  · dsimp only
    rw [read_write_apart (by omega),read_splice_apart (by omega),read_write_apart (by omega),
      read_write_apart (by omega)]
  · dsimp only
    rw [read_write,Nat.mod_eq_of_lt (show code.toNat < 256 ^ 4 from code.toNat_lt),UInt32.ofNat_toNat]

section Claim

/-- The creator gets the message of an exit, left alone while it was queued, as it was
meant if and only if the block held `MSG_CHILD_DIED` where the type goes. -/
theorem exit_message_iff (mem mem' : Store) (queue : MsgQueue Nat) (dest ret : Nat)
    (creator tid : UInt64) (code : UInt32) (next : queue.slot queue.tail = ret)
    (kept : ∀ i < syscallMsgSize, mem' (ret + i) = taskExit mem ret creator tid code (ret + i)) :
    ExitMsg.load (syscallGmsg mem' queue dest) dest =
        ⟨tid,creator,SyscallMsgType.childDied.value,code⟩ ↔
      read mem (ret + 16) 4 = SyscallMsgType.childDied.value.toNat := by
  rw [syscallGmsg_load,next,ExitMsg.load_congr kept,taskExit_load,ExitMsg.mk.injEq]
  have small : read mem (ret + 16) 4 < UInt32.size := read_lt mem (ret + 16) 4
  constructor
  · rintro ⟨_,_,type,_⟩
    rw [← type,UInt32.toNat_ofNat_of_lt' small]
  · intro type
    rw [type,UInt32.ofNat_toNat]
    exact ⟨rfl,rfl,rfl,rfl⟩

/-- A block in which an old message of that type was. -/
theorem exit_message_iff_stale :
    ExitMsg.load (syscallGmsg (taskExit (write (fun _ => 0) 4112 4 2) 4096 1 7 139)
      ⟨fun _ => 4096,1,0⟩ 64) 64 = ⟨7,1,SyscallMsgType.childDied.value,139⟩ :=
  (exit_message_iff _ _ _ 64 4096 1 7 139 rfl fun _ _ => rfl).mpr (by decide)

/-- Fresh memory is zero, and a crashed task reports no type. -/
theorem exit_message_untyped : ¬∀ (mem mem' : Store) (queue : MsgQueue Nat) (dest ret : Nat)
    (creator tid : UInt64) (code : UInt32), queue.slot queue.tail = ret →
    (∀ i < syscallMsgSize, mem' (ret + i) = taskExit mem ret creator tid code (ret + i)) →
    ExitMsg.load (syscallGmsg mem' queue dest) dest =
      ⟨tid,creator,SyscallMsgType.childDied.value,code⟩ := by
  intro all
  have got := all (fun _ => 0) _ ⟨fun _ => 4096,1,0⟩ 64 4096 1 7 139 rfl fun _ _ => rfl
  rw [syscallGmsg_load,taskExit_load] at got
  revert got
  decide

end Claim

end Siegfried
