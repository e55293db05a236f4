import Mathlib.Algebra.Group.Nat.Defs
import Mathlib.Logic.Function.Basic

/-! The queues that `nvme_send_io_cmd` hands commands to controllers with, and waits for
their completions at (`nvme.c`). -/
namespace Siegfried

/-- An `nvme_ctrl` and the controller behind it, with 64 entries in both queues: the
command ids in `isq_vaddr`, every `cint3_raw` of `icq_vaddr`, and how many completions
the controller has posted. -/
structure NvmeCtrl where
  ioTailI : Nat
  isq : Nat → Nat
  icq : Nat → Nat
  posted : Nat

/-- `io_cmdid_c`, which all controllers share, and the controllers. -/
structure NvmeCtrls where
  ioCmdidC : Nat
  ctrl : Nat → NvmeCtrl

/-- The phase bit, one on the first pass over the queue. -/
def NvmeCtrl.phase (c : NvmeCtrl) : Nat := if c.posted / 64 % 2 = 0 then 1 else 0

/-- The union of `nvme_cmpl_queue_ent`. -/
def cint3Raw (cmdId phase stat : Nat) : Nat := cmdId + phase * 2^16 + stat * 2^17

/-- The controller takes the next command and posts its completion, with the status 0. -/
def NvmeCtrl.complete (c : NvmeCtrl) : NvmeCtrl :=
  { c with
    icq := Function.update c.icq (c.posted % 64) (cint3Raw (c.isq (c.posted % 64)) c.phase 0)
    posted := c.posted + 1 }

/-- The next command is in the queue, with the doorbell rung. -/
def NvmeCtrl.submit (c : NvmeCtrl) (cid : Nat) : NvmeCtrl :=
  { c with
    isq := Function.update c.isq c.ioTailI cid
    ioTailI := if c.ioTailI + 1 = 0x40 then 0 else c.ioTailI + 1 }

/-- `++io_cmdid_c`, an `unsigned short`. -/
def NvmeCtrls.nextCid (s : NvmeCtrls) : Nat := (s.ioCmdidC + 1) % 2^16

/-- The controller when the next command's completion is there. -/
def NvmeCtrls.answered (s : NvmeCtrls) (i : Nat) : NvmeCtrl := ((s.ctrl i).submit s.nextCid).complete

/-- A command to the `i`th controller; `none` when the loop that waits goes on for ever. -/
def nvmeSendIoCmdQueue (s : NvmeCtrls) (i : Nat) : Option NvmeCtrls :=
  let oldIotailI := (s.ctrl i).ioTailI
  let c := s.answered i
  if c.icq oldIotailI = 0 then none
  else some ⟨s.nextCid,Function.update s.ctrl i { c with icq := Function.update c.icq oldIotailI 0 }⟩

/-- After `nvme_setup_pci_dev`, whatever is in the submission queues. -/
def nvmeStart (isq : Nat → Nat → Nat) : NvmeCtrls := ⟨0,fun i => ⟨0,isq i,fun _ => 0,0⟩⟩

/-- The states between commands to any controllers in any order. -/
inductive NvmeRun : NvmeCtrls → Prop where
  | start (isq : Nat → Nat → Nat) : NvmeRun (nvmeStart isq)
  | send {s s' : NvmeCtrls} (before : NvmeRun s) (i : Nat) (done : nvmeSendIoCmdQueue s i = some s') :
    NvmeRun s'

/-- What lets the loop behind the next command to a controller end. -/
structure NvmeCtrls.Completes (s : NvmeCtrls) (i : Nat) : Prop where
  slot : (s.ctrl i).ioTailI = (s.ctrl i).posted % 64
  empty : (s.ctrl i).icq (s.ctrl i).ioTailI = 0
  posted : (s.answered i).icq ((s.ctrl i).posted % 64) ≠ 0
  left : (nvmeSendIoCmdQueue s i).isSome

/-- Between commands the tail is where the controller posts next, and nothing is left. -/
structure NvmeCtrl.Idle (c : NvmeCtrl) : Prop where
  tail : c.ioTailI = c.posted % 64
  empty : ∀ k, c.icq k = 0

variable {s s' : NvmeCtrls} {i : Nat}

theorem cint3Raw_zero {cmdId phase : Nat} : cint3Raw cmdId phase 0 = 0 ↔ cmdId = 0 ∧ phase = 0 := by
  rw [cint3Raw]
  omega

theorem NvmeCtrl.phase_zero {c : NvmeCtrl} : c.phase = 0 ↔ c.posted / 64 % 2 ≠ 0 := by
  unfold NvmeCtrl.phase
  split <;> omega

/-- The completion of the next command, in the slot behind the last one. -/
theorem NvmeCtrl.Idle.answered (idle : (s.ctrl i).Idle) :
    (s.answered i).icq (s.ctrl i).ioTailI = cint3Raw s.nextCid (s.ctrl i).phase 0 := by
  have next : (s.answered i).icq = Function.update (s.ctrl i).icq ((s.ctrl i).posted % 64)
      (cint3Raw (Function.update (s.ctrl i).isq (s.ctrl i).ioTailI s.nextCid ((s.ctrl i).posted % 64))
        (s.ctrl i).phase 0) := rfl
  rw [next,← idle.tail,Function.update_self,Function.update_self]

theorem nvmeSendIoCmdQueue_isSome : (nvmeSendIoCmdQueue s i).isSome ↔
    (s.answered i).icq (s.ctrl i).ioTailI ≠ 0 := by
  rw [nvmeSendIoCmdQueue]
  by_cases stuck : (s.answered i).icq (s.ctrl i).ioTailI = 0 <;> simp [stuck]

theorem nvmeSendIoCmdQueue_some (done : nvmeSendIoCmdQueue s i = some s') :
    s'.ioCmdidC = s.nextCid ∧ s'.ctrl = Function.update s.ctrl i { s.answered i with
      icq := Function.update (s.answered i).icq (s.ctrl i).ioTailI 0 } := by
  rw [nvmeSendIoCmdQueue] at done
  split at done
  · cases done
  · cases done
    exact ⟨rfl,rfl⟩

/-- Nothing is left of a command. -/
theorem NvmeCtrl.Idle.sent (idle : (s.ctrl i).Idle) : NvmeCtrl.Idle { s.answered i with
    icq := Function.update (s.answered i).icq (s.ctrl i).ioTailI 0 } where
  tail := by
    have tail := idle.tail
    have next : (s.answered i).ioTailI =
        if (s.ctrl i).ioTailI + 1 = 0x40 then 0 else (s.ctrl i).ioTailI + 1 := rfl
    have count : (s.answered i).posted = (s.ctrl i).posted + 1 := rfl
    dsimp only
    rw [next,count]
    split <;> omega
  empty := by
    intro k
    by_cases this : k = (s.ctrl i).ioTailI
    · rw [this]
      exact Function.update_self ..
    · have other : (s.answered i).icq k = (s.ctrl i).icq k :=
        Function.update_of_ne (fun same => this (same.trans idle.tail.symm)) ..
      dsimp only
      rw [Function.update_of_ne this,other]
      exact idle.empty k

theorem NvmeRun.idle (run : NvmeRun s) (i : Nat) : (s.ctrl i).Idle := by
  induction run generalizing i with
  | start isq => exact ⟨rfl,fun _ => rfl⟩
  | @send s s' before j done ih =>
    rw [(nvmeSendIoCmdQueue_some done).2]
    by_cases this : i = j
    · rw [this,Function.update_self]
      exact (ih j).sent
    · rw [Function.update_of_ne this]
      exact ih i

/-- With one controller, as many commands as there are ids but 0. -/
theorem NvmeRun.alone (isq : Nat → Nat → Nat) {n : Nat} (small : n < 2^16) :
    ∃ s, NvmeRun s ∧ s.ioCmdidC = n ∧ (s.ctrl 0).posted = n := by
  induction n with
  | zero => exact ⟨_,.start isq,rfl,rfl⟩
  | succ n ih =>
    obtain ⟨s,run,counter,count⟩ := ih (by omega)
    have cid : s.nextCid = n + 1 := by
      rw [NvmeCtrls.nextCid,counter]
      exact Nat.mod_eq_of_lt small
    have left : (nvmeSendIoCmdQueue s 0).isSome := by
      rw [nvmeSendIoCmdQueue_isSome,(run.idle 0).answered,Ne,cint3Raw_zero,cid]
      omega
    obtain ⟨s',done⟩ := Option.isSome_iff_exists.mp left
    have after := nvmeSendIoCmdQueue_some done
    refine ⟨s',run.send 0 done,after.1.trans cid,?_⟩
    rw [after.2,Function.update_self]
    exact congrArg (· + 1) count

section Claim

/-- A command completes exactly when its id is not 0 or the phase bit is one. -/
theorem io_completion_iff (s : NvmeCtrls) (run : NvmeRun s) (i : Nat) :
    s.Completes i ↔ s.nextCid ≠ 0 ∨ (s.ctrl i).posted / 64 % 2 = 0 := by
  have idle := run.idle i
  have word : (s.answered i).icq (s.ctrl i).ioTailI ≠ 0 ↔
      s.nextCid ≠ 0 ∨ (s.ctrl i).posted / 64 % 2 = 0 := by
    rw [idle.answered,Ne,cint3Raw_zero,NvmeCtrl.phase_zero,not_and_or,not_not]
  constructor
  · intro completes
    exact word.mp (nvmeSendIoCmdQueue_isSome.mp completes.left)
  · intro either
    have posted := word.mpr either
    exact ⟨idle.tail,idle.empty _,idle.tail ▸ posted,nvmeSendIoCmdQueue_isSome.mpr posted⟩

/-- The first command of all. -/
theorem io_completion_first : (nvmeStart fun _ _ => 0).Completes 0 :=
  (io_completion_iff (nvmeStart fun _ _ => 0) (.start _) 0).mpr (by decide)

/-- The 65536th command has the id 0, on the 1024th pass. -/
theorem io_completion_stuck : ¬∀ s : NvmeCtrls, NvmeRun s → ∀ i, s.Completes i := by
  intro all
  obtain ⟨s,run,counter,count⟩ := NvmeRun.alone (fun _ _ => 0) (n := 2^16 - 1) (by decide)
  have left := nvmeSendIoCmdQueue_isSome.mp (all s run 0).left
  rw [(run.idle 0).answered,Ne,cint3Raw_zero,NvmeCtrl.phase_zero,NvmeCtrls.nextCid,counter,count] at left
  exact left (by decide)

end Claim

end Siegfried
