import Mathlib.Data.UInt

/-! Partitions (`diskman_gpt.c`). -/
namespace Siegfried

/-- What `diskman_gpt_enum` keeps of a partition, as its entry in the table has it. -/
structure GptPartlistEnt where
  lbaStart : UInt64
  lbaEnd : UInt64

/-- Where an offset in a partition is on `e->disk`. -/
def GptPartlistEnt.addr (e : GptPartlistEnt) (off : UInt64) : UInt64 := e.lbaStart * 512 + off

variable {α : Type}

/-- `readFunc` is that of `e->disk`; what that returns is not looked at. -/
def diskmanGptRead (readFunc : UInt64 → UInt64 → α) (e : GptPartlistEnt) (off num : UInt64) : UInt64 × α :=
  (num,readFunc (e.addr off) num)

def diskmanGptWrite (writeFunc : UInt64 → UInt64 → α) (e : GptPartlistEnt) (off num : UInt64) : UInt64 × α :=
  (num,writeFunc (e.addr off) num)

end Siegfried
