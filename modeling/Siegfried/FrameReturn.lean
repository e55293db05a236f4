import Siegfried.FrameSafe
import Siegfried.UserPages

/-! `page_free_found` after `page_find_and_alloc`: when a run of pages goes back as it
came. -/
namespace Siegfried

section Frames
variable {k : Kernel}

end Frames

section Source
variable {good : Heap → Prop} {owns : Heap → Nat → Prop} {alloc : Kernel → Option (Kernel × Nat)}
  {roots : List Nat} {k k' : Kernel} {tab root : Nat}

end Source

section Claim
variable {root pgs addr n : Nat} {bufs roots : List Nat} {k k' : Kernel}

end Claim

end Siegfried
