import Siegfried.ObjCalls
import Mathlib.Data.List.Forall2

/-! The kernel at work on its heap, and what the owners of the blocks can rely on. -/
namespace Siegfried.ObjHeap
open Bytes

/-- What the owner of a block knows: the pointer, and the bytes behind it. -/
structure Obj where
  ptr : Nat
  bytes : List UInt8

/-- The variables of `obj_heap.c` before the first call. -/
def Liballoc.start (mem : Store) (cr3 pml4Table : Nat) : Liballoc :=
  ⟨mem,0,0,0,0,0,0,0,0,cr3,pml4Table,[]⟩

/-- The kernel and its heap: the calls, stores of the owners to their blocks, and everything that
leaves the held pages alone. In each call `page_find_and_alloc` may do what it likes with the rest. -/
inductive ObjRun : Liballoc → List Obj → Prop where
  | start (mem : Store) (cr3 pml4Table : Nat) : ObjRun (.start mem cr3 pml4Table) []
  | alloc {page : Store → Nat → Store × Nat} {s s' : Liballoc} {objs : List Obj} {fuel req p : Nat}
      (before : ObjRun s objs) (serves : Serves page s.mem s.held) (small : req + 216 ≤ 2047 * 2097152)
      (called : kObjAlloc page s fuel req = some (s',p)) : ObjRun s' (⟨p,bytes s'.mem p req⟩ :: objs)
  | calloc {page : Store → Nat → Store × Nat} {s s' : Liballoc} {objs : List Obj} {fuel nobj size p : Nat}
      (before : ObjRun s objs) (serves : Serves page s.mem s.held)
      (small : nobj * size % 2^64 + 216 ≤ 2047 * 2097152) (called : kObjCalloc page fuel s nobj size = some (s',p)) :
      ObjRun s' (⟨p,List.replicate (nobj * size % 2^64) 0⟩ :: objs)
  | realloc {page : Store → Nat → Store × Nat} {s s' : Liballoc} {front back : List Obj} {o : Obj} {fuel size p : Nat}
      (before : ObjRun s (front ++ o :: back)) (serves : Serves page s.mem s.held) (some_ : size ≠ 0)
      (small : size + 216 ≤ 2047 * 2097152) (called : kObjRealloc page fuel s o.ptr size = some (s',p)) :
      ObjRun s' (front ++ ⟨p,(o.bytes ++ bytes s'.mem (p + o.bytes.length) (size - o.bytes.length)).take size⟩ :: back)
  | free {s s' : Liballoc} {front back : List Obj} {o : Obj} (before : ObjRun s (front ++ o :: back))
      (called : kObjFree s o.ptr = some s') : ObjRun s' (front ++ back)
  | freeNull {s s' : Liballoc} {objs : List Obj} (before : ObjRun s objs) (called : kObjFree s 0 = some s') : ObjRun s' objs
  | store {s : Liballoc} {front back : List Obj} {o : Obj} {k : Nat} (before : ObjRun s (front ++ o :: back))
      (inside : k < o.bytes.length) (v : UInt8) :
      ObjRun { s with mem := Function.update s.mem (o.ptr + k) v } (front ++ { o with bytes := o.bytes.set k v } :: back)
  | others {s : Liballoc} {m' : Store} {objs : List Obj} (before : ObjRun s objs)
      (same : ∀ h ∈ s.held, ∀ i, h.1 ≤ i → i < h.1 + h.2 * 2097152 → m' i = s.mem i) :
      ObjRun { s with mem := m' } objs
  | switch {s : Liballoc} {objs : List Obj} (before : ObjRun s objs) (root : Nat) : ObjRun { s with cr3 := root } objs

/-- The block of an owner has the bytes that the owner knows. -/
structure Obj.At (m : Store) (o : Obj) (b : Blk) : Prop where
  ptr : o.ptr = b.ptr
  length : o.bytes.length = b.req
  bytes : ∀ k < b.req, o.bytes[k]? = some (m (b.ptr + k))

/-- The blocks of the heap are those of the owners. -/
structure Live (s : Liballoc) (objs : List Obj) (chunks : List Chunk) (blocks : List Blk) : Prop where
  settled : s.Settled chunks
  perm : (blocksOf chunks).Perm blocks
  owned : List.Forall₂ (Obj.At s.mem) objs blocks

section Owners
variable {page : Store → Nat → Store × Nat} {s s' : Liballoc} {chunks chunks' : List Chunk} {objs front back : List Obj}
  {blocks rest : List Blk} {o o' : Obj} {b b' : Blk} {m m' : Store} {fuel size p k : Nat}

theorem Obj.At.of_bytes (req : b.req = size) : Obj.At m ⟨b.ptr,Bytes.bytes m b.ptr size⟩ b :=
  ⟨rfl,by rw [length_bytes,req],fun k small => by
    rw [Bytes.bytes,List.getElem?_map,List.getElem?_range (req ▸ small),Option.map_some]⟩

/-- The owners know all there is in their blocks. -/
theorem Obj.At.contents (at_ : Obj.At m o b) : Bytes.bytes m o.ptr o.bytes.length = o.bytes := by
  refine List.ext_getElem? fun k => ?_
  by_cases inside : k < b.req
  · rw [at_.bytes k inside,at_.ptr,at_.length,Bytes.bytes,List.getElem?_map,List.getElem?_range inside,Option.map_some]
  · have outside : o.bytes.length ≤ k := at_.length ▸ Nat.le_of_not_lt inside
    have behind : (Bytes.bytes m o.ptr o.bytes.length).length ≤ k := by rwa [length_bytes]
    rw [List.getElem?_eq_none behind,List.getElem?_eq_none outside]

theorem owned_split (owned : List.Forall₂ (Obj.At m) (front ++ o :: back) blocks) :
    ∃ before b behind, blocks = before ++ b :: behind ∧ List.Forall₂ (Obj.At m) front before ∧ Obj.At m o b ∧
      List.Forall₂ (Obj.At m) back behind := by
  induction front generalizing blocks with
  | nil =>
    obtain ⟨b,behind,here,later,rfl⟩ := List.forall₂_cons_left_iff.mp owned
    exact ⟨[],b,behind,rfl,.nil,here,later⟩
  | cons c front ih =>
    obtain ⟨d,blocks,first,rest,rfl⟩ := List.forall₂_cons_left_iff.mp owned
    obtain ⟨before,b,behind,rfl,ahead,here,later⟩ := ih rest
    exact ⟨d :: before,b,behind,rfl,.cons first ahead,here,later⟩

/-- Blocks whose bytes stay are still what their owners take them for. -/
theorem owned_kept (owned : List.Forall₂ (Obj.At m) objs blocks) (keeps : Keeps m m' blocks)
    (inside : ∀ b ∈ blocks, b.at_ + 52 ≤ b.ptr ∧ b.ptr + b.req < b.stop ∧ 0x200000 ≤ b.ptr) :
    List.Forall₂ (Obj.At m') objs blocks := by
  induction owned with
  | nil => exact .nil
  | cons here _ ih =>
    refine .cons ⟨here.ptr,here.length,fun k small => ?_⟩ (ih (keeps.mono fun d => List.mem_cons_of_mem _) fun d hd =>
      inside d (List.mem_cons_of_mem _ hd))
    rw [Blk.own_kept keeps (List.mem_cons_self ..) (inside _ (List.mem_cons_self ..)) small]
    exact here.bytes k small

theorem Live.inside (live : Live s objs chunks blocks) (hb : b ∈ blocks) :
    b.at_ + 52 ≤ b.ptr ∧ b.ptr + b.req < b.stop ∧ 0x200000 ≤ b.ptr :=
  live.settled.own_inside (live.perm.mem_iff.mpr hb)

theorem Live.held_pos (live : Live s objs chunks blocks) {h : Nat × Nat} (held : h ∈ s.held) : 0 < h.1 := by
  obtain ⟨c,hc,rfl⟩ := List.mem_map.mp (live.settled.holds.held.mem_iff.mp held)
  exact live.settled.holds.at_pos hc

/-- One more block. -/
theorem Live.add (live : Live s objs chunks blocks) (settled : s'.Settled chunks')
    (perm : (blocksOf chunks').Perm (b :: blocksOf chunks)) (keeps : Keeps s.mem s'.mem (blocksOf chunks))
    (at_ : Obj.At s'.mem o b) : Live s' (o :: objs) chunks' (b :: blocks) :=
  ⟨settled,perm.trans (live.perm.cons b),
    .cons at_ (owned_kept live.owned (keeps.mono fun _ => live.perm.mem_iff.mpr) fun _ => live.inside)⟩

/-- The other owners keep what they have as long as the bytes of their blocks stay. -/
theorem Live.around (live : Live s (front ++ o :: back) chunks blocks) : ∃ before b behind, blocks = before ++ b :: behind ∧
    b ∈ blocksOf chunks ∧ Obj.At s.mem o b ∧ ∀ m', Keeps s.mem m' (before ++ behind) →
      List.Forall₂ (Obj.At m') front before ∧ List.Forall₂ (Obj.At m') back behind := by
  obtain ⟨before,b,behind,rfl,ahead,here,later⟩ := owned_split live.owned
  have there : b ∈ blocksOf chunks := live.perm.mem_iff.mpr (List.mem_append_right _ (List.mem_cons_self ..))
  refine ⟨before,b,behind,rfl,there,here,fun m' keeps => ⟨?_,?_⟩⟩
  · refine owned_kept ahead (keeps.mono fun d hd => List.mem_append_left _ hd) fun d hd => live.inside ?_
    exact Links.mem_beside (List.mem_append_left _ hd)
  · refine owned_kept later (keeps.mono fun d hd => List.mem_append_right _ hd) fun d hd => live.inside ?_
    exact Links.mem_beside (List.mem_append_right _ hd)

/-- One block becomes another. -/
theorem Live.replace (live : Live s (front ++ o :: back) chunks blocks) : ∃ before b behind, blocks = before ++ b :: behind ∧
    b ∈ blocksOf chunks ∧ Obj.At s.mem o b ∧
    ∀ {s' : Liballoc} {chunks' : List Chunk} {o' : Obj} {b' : Blk}, s'.Settled chunks' →
      (blocksOf chunks').Perm (b' :: (before ++ behind)) → Keeps s.mem s'.mem (before ++ behind) → Obj.At s'.mem o' b' →
      Live s' (front ++ o' :: back) chunks' (before ++ b' :: behind) := by
  obtain ⟨before,b,behind,rfl,there,here,others⟩ := live.around
  refine ⟨before,b,behind,rfl,there,here,fun settled perm keeps at_ => ?_⟩
  obtain ⟨first,last⟩ := others _ keeps
  exact ⟨settled,perm.trans List.perm_middle.symm,List.rel_append first (.cons at_ last)⟩

end Owners

section Steps
variable {page : Store → Nat → Store × Nat} {s s' : Liballoc} {chunks chunks' : List Chunk} {objs front back : List Obj}
  {blocks rest before behind : List Blk} {o : Obj} {b b' : Blk} {m' : Store} {fuel nobj size req p k : Nat}

theorem rest_perm (all : (blocksOf chunks).Perm (b :: rest)) (perm : (blocksOf chunks).Perm (before ++ b :: behind)) :
    rest.Perm (before ++ behind) :=
  (all.symm.trans (perm.trans List.perm_middle)).cons_inv

theorem Live.alloc (live : Live s objs chunks blocks) (serves : Serves page s.mem s.held)
    (small : req + 216 ≤ 2047 * 2097152) (called : kObjAlloc page s fuel req = some (s',p)) :
    ∃ chunks' blocks', Live s' (⟨p,bytes s'.mem p req⟩ :: objs) chunks' blocks' := by
  obtain ⟨b,chunks',rfl,size,settled,perm,keeps,_⟩ := kObjAlloc_spec live.settled serves small called
  exact ⟨chunks',b :: blocks,live.add settled perm keeps (.of_bytes size)⟩

theorem Live.calloc (live : Live s objs chunks blocks) (serves : Serves page s.mem s.held)
    (small : nobj * size % 2^64 + 216 ≤ 2047 * 2097152) (called : kObjCalloc page fuel s nobj size = some (s',p)) :
    ∃ chunks' blocks', Live s' (⟨p,List.replicate (nobj * size % 2^64) 0⟩ :: objs) chunks' blocks' := by
  obtain ⟨b,chunks',rfl,req,settled,perm,keeps,_,zero⟩ := kObjCalloc_spec live.settled serves small called
  refine ⟨chunks',b :: blocks,live.add settled perm keeps ⟨rfl,?_,fun k inside => ?_⟩⟩
  · rw [List.length_replicate,req]
  · rw [req] at inside
    rw [List.getElem?_replicate,if_pos inside,zero k inside]

theorem Live.realloc (live : Live s (front ++ o :: back) chunks blocks) (serves : Serves page s.mem s.held)
    (some_ : size ≠ 0) (small : size + 216 ≤ 2047 * 2097152) (called : kObjRealloc page fuel s o.ptr size = some (s',p)) :
    s'.cr3 = s.cr3 ∧ ∃ chunks' blocks', Live s' (front ++
      ⟨p,(o.bytes ++ bytes s'.mem (p + o.bytes.length) (size - o.bytes.length)).take size⟩ :: back) chunks' blocks' := by
  obtain ⟨before,b,behind,rfl,hb,here,put⟩ := live.replace
  rw [here.ptr] at called
  obtain ⟨b',rest,chunks',rfl,req,cr3,resized⟩ := kObjRealloc_spec live.settled hb serves some_ small called
  have others := rest_perm resized.before live.perm
  refine ⟨cr3,chunks',_,put resized.settled (resized.after.trans (others.cons b')) (resized.keeps.mono fun d => others.mem_iff.mpr)
    ⟨rfl,?_,fun k inside => ?_⟩⟩
  · rw [List.length_take,List.length_append,length_bytes,req]
    omega
  · rw [req] at inside
    rw [List.getElem?_take_of_lt inside]
    have length := here.length
    by_cases old : k < o.bytes.length
    · rw [List.getElem?_append_left old,here.bytes k (length ▸ old),resized.contents k (length ▸ old) (req ▸ inside)]
    · have place : b'.ptr + o.bytes.length + (k - o.bytes.length) = b'.ptr + k := by omega
      rw [List.getElem?_append_right (Nat.le_of_not_lt old),bytes,List.getElem?_map,
        List.getElem?_range (by omega),Option.map_some,place]

theorem Live.free (live : Live s (front ++ o :: back) chunks blocks) :
    ∃ s' chunks' blocks', kObjFree s o.ptr = some s' ∧ s'.cr3 = s.cr3 ∧ Live s' (front ++ back) chunks' blocks' := by
  obtain ⟨before,b,behind,rfl,hb,here,others⟩ := live.around
  obtain ⟨s',chunks',called,cr3,settled,perm,keeps⟩ := kObjFree_spec live.settled hb
  have rest := rest_perm perm live.perm
  obtain ⟨first,last⟩ := others s'.mem (keeps.mono fun d => rest.mem_iff.mpr)
  rw [here.ptr]
  exact ⟨s',chunks',_,called,cr3,settled,rest,List.rel_append first last⟩

theorem kObjFree_null (s : Liballoc) :
    kObjFree s 0 = some { s with cr3 := s.pml4Table, warningCount := s.warningCount + 1 } := by
  rw [kObjFree,if_pos rfl]

theorem Live.freeNull (live : Live s objs chunks blocks) (called : kObjFree s 0 = some s') : Live s' objs chunks blocks := by
  rw [kObjFree_null] at called
  obtain rfl := Option.some.inj called
  have holds := live.settled.holds
  exact ⟨⟨⟨holds.root,holds.links,holds.holds,holds.valid,holds.apart,holds.best,holds.held,holds.inuse,holds.allocated,
    holds.blks⟩,live.settled.some_⟩,live.perm,live.owned⟩

theorem Live.store (live : Live s (front ++ o :: back) chunks blocks) (inside : k < o.bytes.length) (v : UInt8) :
    ∃ blocks', Live { s with mem := Function.update s.mem (o.ptr + k) v } (front ++ { o with bytes := o.bytes.set k v } :: back)
      chunks blocks' := by
  obtain ⟨before,b,behind,rfl,hb,here,put⟩ := live.replace
  have perm := live.perm.trans List.perm_middle
  have body := live.settled.own_inside hb
  have length := here.length
  have apart := live.settled.holds.apart_of_perm perm
  rw [here.ptr]
  refine ⟨_,put (live.settled.write fun i differs => .inl ⟨b,hb,?_⟩) perm (fun d hd i low high => ?_)
    ⟨rfl,?_,fun j small => ?_⟩⟩
  · have there : i = b.ptr + k := by
      by_contra away
      exact differs (Function.update_of_ne away v s.mem)
    rw [Blk.Own]
    omega
  · refine Function.update_of_ne ?_ v s.mem
    rcases apart d hd with first | last
    · omega
    · omega
  · rw [List.length_set,length]
  · by_cases same : j = k
    · subst same
      rw [List.getElem?_set_self inside]
      exact congrArg some (Function.update_self (b.ptr + j) v s.mem).symm
    · rw [List.getElem?_set_ne (Ne.symm same),here.bytes j small]
      exact congrArg some (Function.update_of_ne (by omega) v s.mem).symm

theorem Live.others (live : Live s objs chunks blocks)
    (same : ∀ h ∈ s.held, ∀ i, h.1 ≤ i → i < h.1 + h.2 * 2097152 → m' i = s.mem i) :
    Live { s with mem := m' } objs chunks blocks := by
  have kept (c : Chunk) (hc : c ∈ chunks) (i : Nat) (low : c.at_ ≤ i) (high : i < c.stop) : m' i = s.mem i :=
    same _ (live.settled.holds.run_held hc) i low (c.stop_eq ▸ high)
  have keeps : Keeps s.mem m' (blocksOf chunks) := fun b hb i low high => by
    obtain ⟨c,hc,there⟩ := mem_blocksOf.mp hb
    obtain ⟨first,last⟩ := (live.settled.holds.valid c hc).body_inside there low high
    exact kept c hc i first last
  refine ⟨live.settled.write fun i differs => .inr fun c hc => ?_,live.perm,
    owned_kept live.owned (keeps.mono fun b => live.perm.mem_iff.mpr) fun b => live.inside⟩
  by_contra inside
  exact differs (kept c hc i (by omega) (by omega))

theorem Liballoc.start_live (mem : Store) (cr3 pml4Table : Nat) : Live (.start mem cr3 pml4Table) [] [] [] :=
  ⟨⟨⟨rfl,trivial,List.forall_mem_nil _,List.forall_mem_nil _,.nil,.inl rfl,.nil,rfl,rfl,rfl⟩,List.forall_mem_nil _⟩,
    .nil,.nil⟩

theorem ObjRun.live (run : ObjRun s objs) : ∃ chunks blocks, Live s objs chunks blocks := by
  induction run with
  | start mem cr3 pml4Table => exact ⟨[],[],Liballoc.start_live mem cr3 pml4Table⟩
  | alloc _ serves small called ih =>
    obtain ⟨_,_,live⟩ := ih
    exact live.alloc serves small called
  | calloc _ serves small called ih =>
    obtain ⟨_,_,live⟩ := ih
    exact live.calloc serves small called
  | realloc _ serves some_ small called ih =>
    obtain ⟨_,_,live⟩ := ih
    exact (live.realloc serves some_ small called).2
  | free _ called ih =>
    obtain ⟨_,_,live⟩ := ih
    obtain ⟨s',chunks',blocks',freed,_,after⟩ := live.free
    obtain rfl := Option.some.inj (freed.symm.trans called)
    exact ⟨chunks',blocks',after⟩
  | freeNull _ called ih =>
    obtain ⟨chunks,blocks,live⟩ := ih
    exact ⟨chunks,blocks,live.freeNull called⟩
  | store _ inside v ih =>
    obtain ⟨chunks,_,live⟩ := ih
    exact ⟨chunks,live.store inside v⟩
  | others _ same ih =>
    obtain ⟨chunks,blocks,live⟩ := ih
    exact ⟨chunks,blocks,live.others same⟩
  | switch _ root ih =>
    obtain ⟨chunks,blocks,live⟩ := ih
    exact ⟨chunks,blocks,live.settled.cr3 root,live.perm,live.owned⟩

end Steps

/-- What the owners rely on. -/
structure Owned (s : Liballoc) (objs : List Obj) : Prop where
  contents : ∀ o ∈ objs, bytes s.mem o.ptr o.bytes.length = o.bytes
  aligned : ∀ o ∈ objs, o.ptr % 128 = 0
  inside : ∀ o ∈ objs, ∃ h ∈ s.held, h.1 < o.ptr ∧ o.ptr + o.bytes.length < h.1 + h.2 * 2097152
  apart : objs.Pairwise fun o o' => o.ptr + o.bytes.length < o'.ptr ∨ o'.ptr + o'.bytes.length < o.ptr

/-- Pages for the first call, and none. -/
def firstPages (m : Store) (n : Nat) : Store × Nat := (m,if n ≤ 2047 then 0x200000 else 0)
def noPages (m : Store) (_ : Nat) : Store × Nat := (m,0)

theorem firstPages_serves (m : Store) : Serves firstPages m [] := by
  refine ⟨fun _ => List.forall_mem_nil _,fun n some_ => ?_⟩
  by_cases few : n ≤ 2047
  · rw [firstPages,if_pos few]
    exact ⟨Nat.le_refl _,by omega,List.forall_mem_nil _⟩
  · rw [firstPages,if_neg few] at some_
    exact absurd rfl some_

theorem noPages_serves (m : Store) (held : List (Nat × Nat)) : Serves noPages m held :=
  ⟨fun _ _ _ _ _ _ => rfl,fun _ some_ => absurd rfl some_⟩

theorem first_call : ∃ fuel s p, kObjAlloc firstPages (.start (fun _ => 0) 0 0) fuel 100 = some (s,p) := by
  have start := Liballoc.start_live (fun _ => 0) 0 0
  have plain : ¬Marked [] := by
    rintro ⟨c,rest,b,blocks,none_,_⟩
    cases none_
  have returns : ∃ fuel r, kObjAlloc firstPages (.start (fun _ => 0) 0 0) fuel 100 = some r :=
    (start.settled.alloc_iff (firstPages_serves fun _ => 0) (by decide)).mpr ⟨plain,.inr (by decide)⟩
  obtain ⟨fuel,⟨s,p⟩,called⟩ := returns
  exact ⟨fuel,s,p,called⟩

theorem first_block : ∃ s o, ObjRun s [o] ∧ o.bytes.length = 100 := by
  obtain ⟨fuel,s,p,called⟩ := first_call
  exact ⟨s,_,(ObjRun.start (fun _ => 0) 0 0).alloc (firstPages_serves fun _ => 0) (by decide) called,length_bytes⟩

section Results
variable {page : Store → Nat → Store × Nat} {s s' : Liballoc} {chunks : List Chunk} {objs : List Obj}
  {blocks : List Blk} {o o' : Obj} {fuel size req p : Nat}

theorem owned_member {m : Store} (owned : List.Forall₂ (Obj.At m) objs blocks) (ho : o ∈ objs) :
    ∃ b ∈ blocks, Obj.At m o b := by
  induction owned with
  | nil => cases ho
  | cons here _ ih =>
    rcases List.mem_cons.mp ho with rfl | later
    · exact ⟨_,List.mem_cons_self ..,here⟩
    · obtain ⟨b,hb,at_⟩ := ih later
      exact ⟨b,List.mem_cons_of_mem _ hb,at_⟩

/-- The bytes of blocks that do not overlap do not touch. -/
theorem owned_apart {m : Store} (owned : List.Forall₂ (Obj.At m) objs blocks) (apart : blocks.Pairwise Apart)
    (inside : ∀ b ∈ blocks, b.at_ + 52 ≤ b.ptr ∧ b.ptr + b.req < b.stop ∧ 0x200000 ≤ b.ptr) :
    objs.Pairwise fun o o' => o.ptr + o.bytes.length < o'.ptr ∨ o'.ptr + o'.bytes.length < o.ptr := by
  induction owned with
  | nil => exact .nil
  | cons here rest ih =>
    obtain ⟨first,last⟩ := List.pairwise_cons.mp apart
    refine .cons (fun o ho => ?_) (ih last fun b hb => inside b (List.mem_cons_of_mem _ hb))
    obtain ⟨b,hb,at_⟩ := owned_member rest ho
    have near := inside _ (List.mem_cons_self ..)
    have far := inside b (List.mem_cons_of_mem _ hb)
    rw [here.ptr,here.length,at_.ptr,at_.length]
    rcases first b hb with before | behind
    · exact .inl (by omega)
    · exact .inr (by omega)

theorem Live.contents (live : Live s objs chunks blocks) (ho : o ∈ objs) : bytes s.mem o.ptr o.bytes.length = o.bytes := by
  obtain ⟨b,_,at_⟩ := owned_member live.owned ho
  exact at_.contents

/-- Whatever happens in the kernel, the blocks that are handed out are as their owners left them. -/
theorem obj_heap_owned (run : ObjRun s objs) : Owned s objs := by
  obtain ⟨chunks,blocks,live⟩ := run.live
  refine ⟨fun o => live.contents,fun o ho => ?_,fun o ho => ?_,?_⟩
  · obtain ⟨b,_,at_⟩ := owned_member live.owned ho
    rw [at_.ptr]
    exact b.ptr_bounds.2.2
  · obtain ⟨b,hb,at_⟩ := owned_member live.owned ho
    obtain ⟨c,hc,there⟩ := mem_blocksOf.mp (live.perm.mem_iff.mpr hb)
    obtain ⟨first,last,_,upper⟩ := (live.settled.holds.valid c hc).ptr_inside there
    obtain ⟨lower,_⟩ := (live.settled.holds.valid c hc).order.member there
    have stop := c.stop_eq
    refine ⟨_,live.settled.holds.run_held hc,?_,?_⟩
    · rw [at_.ptr]
      show c.at_ < b.ptr
      omega
    · rw [at_.ptr,at_.length]
      show b.ptr + b.req < c.at_ + c.pages * 2097152
      omega
  · have apart := live.settled.holds.blocks_apart.perm live.perm fun apart => Or.symm apart
    exact owned_apart live.owned apart fun b => live.inside

theorem obj_heap_owned_first : ∃ s o, ObjRun s [o] ∧ o.bytes.length = 100 ∧ Owned s [o] := by
  obtain ⟨s,o,run,length⟩ := first_block
  exact ⟨s,o,run,length,obj_heap_owned run⟩

/-- `k_obj_free` returns for each block that is handed out, and for null, where it leaves the
kernel's table in CR3. -/
theorem obj_free_cr3_iff (run : ObjRun s objs) (known : p = 0 ∨ ∃ o ∈ objs, o.ptr = p) :
    ∃ s', kObjFree s p = some s' ∧ (s'.cr3 = s.cr3 ↔ p ≠ 0 ∨ s.cr3 = s.pml4Table) := by
  obtain ⟨chunks,blocks,live⟩ := run.live
  rcases known with rfl | ⟨o,ho,rfl⟩
  · refine ⟨_,kObjFree_null s,?_⟩
    simp [eq_comm]
  · obtain ⟨front,back,rfl⟩ := List.append_of_mem ho
    obtain ⟨b,hb,at_⟩ := owned_member live.owned ho
    have low := (live.inside hb).2.2
    obtain ⟨s',_,_,called,cr3,_⟩ := live.free
    have some_ : o.ptr ≠ 0 := by
      rw [at_.ptr]
      omega
    exact ⟨s',called,iff_of_true cr3 (.inl some_)⟩

theorem obj_free_cr3_iff_null : ∃ s', kObjFree (.start (fun _ => 0) 0x1000 0x2000) 0 = some s' ∧ s'.cr3 ≠ 0x1000 := by
  obtain ⟨s',called,kept⟩ := obj_free_cr3_iff (.start (fun _ => 0) 0x1000 0x2000) (.inl rfl)
  refine ⟨s',called,fun same => ?_⟩
  rcases kept.mp same with some_ | table
  · exact some_ rfl
  · cases table

/-- `k_obj_alloc` returns when there is a gap in a run of pages or there are more pages. -/
theorem obj_alloc_iff (run : ObjRun s objs) (serves : Serves page s.mem s.held) (small : req + 216 ≤ 2047 * 2097152) :
    ∃ chunks, s.Settled chunks ∧ ((∃ fuel r, kObjAlloc page s fuel req = some r) ↔
      ¬Marked chunks ∧ ((∃ c ∈ chunks, ¬c.Full (req + 144)) ∨ (page s.mem (pagesFor (req + 144))).2 ≠ 0)) := by
  obtain ⟨chunks,blocks,live⟩ := run.live
  exact ⟨chunks,live.settled,live.settled.alloc_iff serves small⟩

theorem obj_alloc_iff_first : ∃ fuel r, kObjAlloc firstPages (.start (fun _ => 0) 0 0) fuel 100 = some r := by
  have serves := firstPages_serves fun _ => 0
  have small : 100 + 216 ≤ 2047 * 2097152 := by decide
  obtain ⟨chunks,settled,iff_⟩ := obj_alloc_iff (.start (fun _ => 0) 0 0) serves small
  refine iff_.mpr ⟨?_,.inr (by decide)⟩
  rintro ⟨c,rest,b,blocks,rfl,_⟩
  have root : 0 = c.at_ := settled.holds.root
  have pos := settled.holds.at_pos (List.mem_cons_self ..)
  omega

/-- `k_obj_alloc` takes more pages only when there is no gap in those that it holds. -/
theorem obj_alloc_grows_last (run : ObjRun s objs) (serves : Serves page s.mem s.held) (small : req + 216 ≤ 2047 * 2097152)
    (called : kObjAlloc page s fuel req = some (s',p)) : ∃ chunks, s.Settled chunks ∧ (s'.held.Perm s.held ∨
      (∀ c ∈ chunks, c.Full (req + 144)) ∧
        s'.held.Perm (((page s.mem (pagesFor (req + 144))).2,pagesFor (req + 144)) :: s.held)) := by
  obtain ⟨chunks,blocks,live⟩ := run.live
  obtain ⟨b,chunks',_,_,placed⟩ := kObjAlloc_placed live.settled serves small called
  have before := live.settled.holds.held
  have after := placed.holds.held
  refine ⟨chunks,live.settled,?_⟩
  rcases placed.runs with same | ⟨full,more⟩
  · exact .inl (after.trans (same ▸ before.symm))
  · refine .inr ⟨full,after.trans ?_⟩
    rw [more]
    exact (List.perm_append_singleton ..).trans (before.symm.cons _)

theorem obj_alloc_grows_last_first : ∃ fuel s' p,
    kObjAlloc firstPages (.start (fun _ => 0) 0 0) fuel 100 = some (s',p) ∧ s'.held.length ≤ 1 := by
  obtain ⟨fuel,s',p,called⟩ := first_call
  obtain ⟨chunks,_,runs⟩ := obj_alloc_grows_last (.start (fun _ => 0) 0 0) (firstPages_serves fun _ => 0) (by decide) called
  refine ⟨fuel,s',p,called,?_⟩
  rcases runs with same | ⟨_,more⟩
  · exact same.length_eq.trans_le (Nat.zero_le 1)
  · exact more.length_eq.le

/-- `k_obj_alloc` stores to the pages that the heap holds then, but for what `page_find_and_alloc`
stores. -/
theorem obj_alloc_inside (run : ObjRun s objs) (serves : Serves page s.mem s.held) (small : req + 216 ≤ 2047 * 2097152)
    (called : kObjAlloc page s fuel req = some (s',p)) (i : Nat)
    (outside : ∀ h ∈ s'.held, i < h.1 ∨ h.1 + h.2 * 2097152 ≤ i) :
    s'.mem i = s.mem i ∨ s'.mem i = (page s.mem (pagesFor (req + 144))).1 i := by
  obtain ⟨chunks,blocks,live⟩ := run.live
  obtain ⟨b,chunks',_,_,placed⟩ := kObjAlloc_placed live.settled serves small called
  exact placed.stays fun c hc => outside _ (placed.holds.run_held hc)

theorem obj_alloc_inside_first : ∃ fuel s' p,
    kObjAlloc firstPages (.start (fun _ => 0) 0 0) fuel 100 = some (s',p) ∧ s'.mem 0 = 0 := by
  obtain ⟨fuel,s',p,called⟩ := first_call
  have serves := firstPages_serves fun _ => 0
  have start := ObjRun.start (fun _ => 0) 0 0
  obtain ⟨chunks,blocks,live⟩ := (start.alloc serves (by decide) called).live
  refine ⟨fuel,s',p,called,(obj_alloc_inside start serves (by decide) called 0 fun h held => .inl ?_).elim id id⟩
  exact live.held_pos held

theorem Liballoc.Settled.few (settled : s.Settled chunks) : chunks.length ≤ (blocksOf chunks).length := by
  have some_ := settled.some_
  clear settled
  induction chunks with
  | nil => exact Nat.zero_le _
  | cons c rest ih =>
    have here := List.length_pos_iff.mpr (some_ c (List.mem_cons_self ..))
    have later := ih fun d hd => some_ d (List.mem_cons_of_mem c hd)
    rw [blocksOf] at later
    rw [blocksOf,List.flatMap_cons,List.length_append,List.length_cons]
    omega

/-- The heap keeps no more runs of pages than there are blocks, and its counters are true. -/
theorem obj_heap_returns_pages (run : ObjRun s objs) : s.held.length ≤ objs.length ∧ s.blks = s.held.length % 2^64 ∧
    s.allocated = (s.held.map fun h => h.2 * 2097152).sum % 2^64 ∧ (objs = [] → s.memRoot = 0 ∧ s.inuse = 0) := by
  obtain ⟨chunks,blocks,live⟩ := run.live
  have holds := live.settled.holds
  have few := live.settled.few
  have all := live.perm.length_eq
  have owners := live.owned.length_eq
  have runs := holds.held.length_eq
  rw [List.length_map] at runs
  refine ⟨by omega,by rw [holds.blks,runs],?_,fun none_ => ?_⟩
  · have sum := (holds.held.map fun h => h.2 * 2097152).sum_nat
    rw [sum,List.map_map,holds.allocated]
    rfl
  · have empty : chunks = [] := List.eq_nil_of_length_eq_zero (by rw [none_,List.length_nil] at owners; omega)
    rw [holds.root,holds.inuse,empty]
    exact ⟨rfl,rfl⟩

theorem obj_heap_returns_pages_first : ∃ s o, ObjRun s [o] ∧ s.held.length ≤ 1 := by
  obtain ⟨s,o,run,_⟩ := first_block
  exact ⟨s,o,run,(obj_heap_returns_pages run).1⟩

theorem bytes_take {m : Store} {a n k : Nat} (less : k ≤ n) : (bytes m a n).take k = bytes m a k := by
  rw [bytes,bytes,← List.map_take,List.take_range,Nat.min_eq_left less]

/-- `k_obj_realloc` takes the bytes along, and leaves the other blocks alone. -/
theorem obj_realloc_keeps (run : ObjRun s objs) (ho : o ∈ objs) (serves : Serves page s.mem s.held) (some_ : size ≠ 0)
    (small : size + 216 ≤ 2047 * 2097152) (called : kObjRealloc page fuel s o.ptr size = some (s',p)) :
    s'.cr3 = s.cr3 ∧ bytes s'.mem p (min size o.bytes.length) = o.bytes.take size ∧
      ∀ o' ∈ objs, o'.ptr ≠ o.ptr → bytes s'.mem o'.ptr o'.bytes.length = o'.bytes := by
  obtain ⟨chunks,blocks,live⟩ := run.live
  obtain ⟨front,back,rfl⟩ := List.append_of_mem ho
  obtain ⟨cr3,chunks',blocks',after⟩ := live.realloc serves some_ small called
  refine ⟨cr3,?_,fun o' ho' other => after.contents ?_⟩
  · have whole := after.contents (List.mem_append_right front (List.mem_cons_self ..))
    have size_ : ((o.bytes ++ bytes s'.mem (p + o.bytes.length) (size - o.bytes.length)).take size).length = size := by
      rw [List.length_take,List.length_append,length_bytes]
      omega
    dsimp only at whole
    rw [size_] at whole
    rw [← bytes_take (Nat.min_le_left size o.bytes.length),whole,List.take_take,Nat.min_eq_left (Nat.min_le_left ..),
      List.take_append_of_le_length (Nat.min_le_right ..)]
    exact List.take_eq_take_min.symm
  · rcases List.mem_append.mp ho' with before | rest
    · exact List.mem_append_left _ before
    · rcases List.mem_cons.mp rest with rfl | later
      · exact absurd rfl other
      · exact List.mem_append_right _ (List.mem_cons_of_mem _ later)

theorem obj_realloc_keeps_shorter : ∃ s o s' p, ObjRun s [o] ∧ kObjRealloc noPages 0 s o.ptr 10 = some (s',p) ∧
    bytes s'.mem p 10 = o.bytes.take 10 := by
  obtain ⟨s,o,run,length⟩ := first_block
  obtain ⟨chunks,blocks,live⟩ := run.live
  obtain ⟨b,hb,at_⟩ := owned_member live.owned (List.mem_singleton_self o)
  have less : 10 ≤ b.req := by
    rw [← at_.length,length]
    decide
  have called : kObjRealloc noPages 0 s b.ptr 10 = _ :=
    kObjRealloc_less live.settled (live.perm.mem_iff.mpr hb) (by decide) less
  rw [← at_.ptr] at called
  obtain ⟨_,kept,_⟩ := obj_realloc_keeps run (List.mem_singleton_self o) (noPages_serves s.mem s.held) (by decide)
    (by decide) called
  rw [length] at kept
  exact ⟨s,o,_,_,run,called,kept⟩

/-- `k_obj_realloc` of a block returns when the bytes are there already, or `k_obj_alloc` has another
block: giving back the old one does not fail. -/
theorem obj_realloc_iff (run : ObjRun s objs) (ho : o ∈ objs) (serves : Serves page s.mem s.held) (some_ : size ≠ 0)
    (small : size + 216 ≤ 2047 * 2097152) : (∃ fuel r, kObjRealloc page fuel s o.ptr size = some r) ↔
      size ≤ o.bytes.length ∨ ∃ fuel r, kObjAlloc page { s with cr3 := s.pml4Table } fuel size = some r := by
  obtain ⟨chunks,blocks,live⟩ := run.live
  obtain ⟨b,hb,at_⟩ := owned_member live.owned ho
  rw [at_.ptr,at_.length]
  exact live.settled.realloc_iff (live.perm.mem_iff.mpr hb) serves some_ small

theorem obj_realloc_iff_shorter : ∃ s o, ObjRun s [o] ∧ ∃ fuel r, kObjRealloc noPages fuel s o.ptr 10 = some r := by
  obtain ⟨s,o,run,length⟩ := first_block
  have serves := noPages_serves s.mem s.held
  refine ⟨s,o,run,(obj_realloc_iff run (List.mem_singleton_self o) serves (by decide) (by decide)).mpr (.inl ?_)⟩
  rw [length]
  decide

end Results

end Siegfried.ObjHeap
