import Siegfried.ObjRealloc

/-! What the calls do to the blocks of the heap, wherever their chunks are. -/
namespace Siegfried.ObjHeap
open Bytes Links Intervals

def blocksOf (chunks : List Chunk) : List Blk := chunks.flatMap Chunk.blocks

/-- The heap between two calls: there is a block in each of its chunks. -/
structure Liballoc.Settled (s : Liballoc) (chunks : List Chunk) : Prop where
  holds : s.Holds chunks
  some_ : ∀ c ∈ chunks, c.blocks ≠ []

/-- The bytes behind the headers of these blocks stay. -/
def Keeps (m m' : Store) (blocks : List Blk) : Prop :=
  ∀ b ∈ blocks, ∀ i, b.at_ + 36 ≤ i → i < b.stop → m' i = m i

section Blocks
variable {s s' : Liballoc} {chunks ahead behind : List Chunk} {c : Chunk} {b n : Blk} {front back blocks : List Blk}
  {m m' m1 : Store} {i : Nat}

theorem Keeps.trans (first : Keeps m m1 blocks) (second : Keeps m1 m' blocks) : Keeps m m' blocks :=
  fun b hb i low high => (second b hb i low high).trans (first b hb i low high)

theorem Keeps.mono {fewer : List Blk} (keeps : Keeps m m' blocks) (inside : ∀ b ∈ fewer, b ∈ blocks) : Keeps m m' fewer :=
  fun b hb => keeps b (inside b hb)

theorem mem_blocksOf : b ∈ blocksOf chunks ↔ ∃ c ∈ chunks, b ∈ c.blocks := List.mem_flatMap

/-- Where a block is. -/
theorem exists_place (hb : b ∈ blocksOf chunks) : ∃ ahead c behind front back, chunks = ahead ++ c :: behind ∧
    c.blocks = front ++ b :: back := by
  obtain ⟨c,hc,there⟩ := mem_blocksOf.mp hb
  obtain ⟨ahead,behind,split⟩ := List.append_of_mem hc
  obtain ⟨front,back,blocks⟩ := List.append_of_mem there
  exact ⟨ahead,c,behind,front,back,split,blocks⟩

theorem Bodies.keeps (bodies : Bodies m m' chunks) : Keeps m m' (blocksOf chunks) := by
  intro b hb
  obtain ⟨c,hc,there⟩ := mem_blocksOf.mp hb
  exact bodies c hc b there

theorem blocksOf_insert : (blocksOf (ahead ++ { c with blocks := front ++ n :: back } :: behind)).Perm
    (n :: blocksOf (ahead ++ { c with blocks := front ++ back } :: behind)) := by
  have shape (l : List Blk) : blocksOf (ahead ++ { c with blocks := l } :: behind) =
      blocksOf ahead ++ (l ++ blocksOf behind) := by
    simp only [blocksOf,List.flatMap_append,List.flatMap_cons]
  rw [shape,shape,List.append_assoc,List.append_assoc,List.cons_append,← List.append_assoc,← List.append_assoc]
  exact List.perm_middle

theorem blocksOf_kept : blocksOf (ahead ++ c.kept ++ behind) = blocksOf (ahead ++ c :: behind) := by
  have here : blocksOf c.kept = c.blocks := by
    rw [Chunk.kept]
    cases blocks : c.blocks with
    | nil => rfl
    | cons b rest => simp [blocksOf,blocks]
  simp only [blocksOf,List.flatMap_append,List.flatMap_cons] at here ⊢
  rw [here,List.append_assoc]

/-- Blocks of one list do not overlap. -/
def Apart (b n : Blk) : Prop := b.stop ≤ n.at_ ∨ n.stop ≤ b.at_

theorem Liballoc.Holds.blocks_apart (holds : s.Holds chunks) : (blocksOf chunks).Pairwise Apart := by
  refine List.pairwise_flatMap.mpr ⟨fun c hc => (holds.valid c hc).order.pairwise.imp .inl,?_⟩
  refine holds.apart.imp_of_mem fun {c d} hc hd apart b hb n hn => ?_
  obtain ⟨low,_,_⟩ := (holds.valid c hc).order.member hb
  obtain ⟨low',_,_⟩ := (holds.valid d hd).order.member hn
  have inside := (holds.valid c hc).ptr_inside hb
  have inside' := (holds.valid d hd).ptr_inside hn
  rcases apart with before | after
  · exact .inl (by omega)
  · exact .inr (by omega)

/-- A block that is there beside the others does not overlap them. -/
theorem Liballoc.Holds.apart_of_perm (holds : s.Holds chunks) (perm : (blocksOf chunks).Perm (n :: blocks)) :
    ∀ b ∈ blocks, Apart n b := by
  have all := holds.blocks_apart.perm perm fun apart => Or.symm apart
  exact (List.pairwise_cons.mp all).1

end Blocks

section Specs
variable {page : Store → Nat → Store × Nat} {s s' : Liballoc} {chunks chunks' : List Chunk} {b : Blk} {m : Store}
  {req size fuel p : Nat}

theorem Chunk.eq_blocks {c : Chunk} {l : List Blk} (split : c.blocks = l) : { c with blocks := l } = c := by
  rw [← split]

/-- The blocks are the new one and the old ones. -/
theorem Placed.perm (placed : Placed page m s' chunks size req b chunks') :
    (blocksOf chunks').Perm (b :: blocksOf chunks) ∧ b.req = req := by
  cases placed with
  | gap ahead c behind front back split fits =>
    refine ⟨?_,rfl⟩
    have same : { c with blocks := front ++ back } = c := Chunk.eq_blocks fits.split
    rw [split,← same]
    exact blocksOf_insert
  | grown full come =>
    refine ⟨?_,rfl⟩
    have last (c : Chunk) : blocksOf (chunks ++ [c]) = blocksOf chunks ++ c.blocks := by
      simp [blocksOf]
    rw [last]
    exact List.perm_append_singleton ..

theorem Placed.settled (placed : Placed page m s' chunks size req b chunks') (some_ : ∀ c ∈ chunks, c.blocks ≠ []) :
    s'.Settled chunks' := by
  refine ⟨placed.holds,?_⟩
  cases placed with
  | gap ahead c behind front back split =>
    intro d hd
    rcases List.mem_append.mp hd with before | rest
    · exact some_ d (split ▸ List.mem_append_left _ before)
    · rcases List.mem_cons.mp rest with rfl | after
      · exact List.append_ne_nil_of_right_ne_nil _ (List.cons_ne_nil _ _)
      · exact some_ d (split ▸ List.mem_append_right _ (List.mem_cons_of_mem c after))
  | grown =>
    intro d hd
    rcases List.mem_append.mp hd with old | new
    · exact some_ d old
    · obtain rfl := List.mem_singleton.mp new
      exact List.cons_ne_nil _ _

/-- The runs of pages are those that were held, and one more if none had a gap. -/
theorem Placed.runs (placed : Placed page m s' chunks size req b chunks') :
    chunks'.map (fun c => (c.at_,c.pages)) = chunks.map (fun c => (c.at_,c.pages)) ∨
      (∀ c ∈ chunks, c.Full size) ∧ chunks'.map (fun c => (c.at_,c.pages)) =
        chunks.map (fun c => (c.at_,c.pages)) ++ [((page m (pagesFor size)).2,pagesFor size)] := by
  cases placed with
  | gap ahead c behind front back split fits =>
    refine .inl ?_
    rw [split]
    simp only [List.map_append,List.map_cons]
    rfl
  | grown full come =>
    refine .inr ⟨full,?_⟩
    rw [List.map_append,List.map_singleton]
    rfl

/-- What a call of `k_obj_alloc` that returns has done. -/
theorem kObjAlloc_placed (settled : s.Settled chunks) (serves : Serves page s.mem s.held)
    (small : req + 216 ≤ 2047 * 2097152) (found : kObjAlloc page s fuel req = some (s',p)) :
    ∃ b chunks', p = b.ptr ∧ s'.cr3 = s.cr3 ∧ Placed page s.mem s' chunks (req + 144) req b chunks' := by
  obtain ⟨enough,called⟩ := kObjAlloc_called settled.holds serves small settled.some_
  have result := called (max enough fuel) (Nat.le_max_left ..)
  rw [kObjAlloc_stable found (Nat.le_max_right ..)] at result
  generalize out : some (s',p) = o at result
  cases result with
  | placed free room cr3 placed =>
    obtain ⟨rfl,rfl⟩ := Prod.mk.inj (Option.some.inj out)
    exact ⟨_,_,rfl,cr3,placed⟩
  | marked => cases out
  | out => cases out

theorem kObjAlloc_spec (settled : s.Settled chunks) (serves : Serves page s.mem s.held) (small : req + 216 ≤ 2047 * 2097152)
    (found : kObjAlloc page s fuel req = some (s',p)) :
    ∃ b chunks', p = b.ptr ∧ b.req = req ∧ s'.Settled chunks' ∧ (blocksOf chunks').Perm (b :: blocksOf chunks) ∧
      Keeps s.mem s'.mem (blocksOf chunks) ∧ s'.cr3 = s.cr3 := by
  obtain ⟨b,chunks',ptr,cr3,placed⟩ := kObjAlloc_placed settled serves small found
  obtain ⟨perm,size⟩ := placed.perm
  exact ⟨b,chunks',ptr,size,placed.settled settled.some_,perm,placed.bodies.keeps,cr3⟩

/-- `k_obj_free` of a block returns, and the other blocks stay. -/
theorem kObjFree_spec (settled : s.Settled chunks) (hb : b ∈ blocksOf chunks) :
    ∃ s' chunks', kObjFree s b.ptr = some s' ∧ s'.cr3 = s.cr3 ∧ s'.Settled chunks' ∧
      (blocksOf chunks).Perm (b :: blocksOf chunks') ∧ Keeps s.mem s'.mem (blocksOf chunks') := by
  obtain ⟨ahead,c,behind,front,back,rfl,blocks⟩ := exists_place hb
  have some_ := settled.some_
  obtain ⟨s',found,cr3,after,bodies⟩ := kObjFree_holds settled.holds blocks
  refine ⟨s',_,found,cr3,⟨after,fun d hd => ?_⟩,?_,bodies.keeps⟩
  · rcases List.mem_append.mp hd with first | later
    · rcases List.mem_append.mp first with before | here
      · exact some_ d (List.mem_append_left _ before)
      · intro none_
        rw [Chunk.kept] at here
        split at here
        · cases here
        · obtain rfl := List.mem_singleton.mp here
          rename_i left
          exact left (List.isEmpty_iff.mpr none_)
    · exact some_ d (List.mem_append_right _ (List.mem_cons_of_mem c later))
  · have same : { c with blocks := front ++ b :: back } = c := Chunk.eq_blocks blocks
    rw [blocksOf_kept,← same]
    exact blocksOf_insert

end Specs

section Copy
variable {m : Store} {dest src n i : Nat}

theorem liballocMemcpy_eq (forward : Klib.Forward dest src n) :
    liballocMemcpy m dest src n = Siegfried.memCpy m dest src n := by
  have start : Klib.Copied m dest src n 0 ⟨m,dest,src,n⟩ :=
    ⟨by rw [Siegfried.memCpy,splice_zero],rfl,rfl,Nat.zero_le _⟩
  have words := start.words forward (show 0 + 4 * (n / 4) ≤ n by omega)
  have bytes := words.bytes forward (show 0 + 4 * (n / 4) + n % 4 ≤ n by omega)
  rw [liballocMemcpy,bytes.mem,show 0 + 4 * (n / 4) + n % 4 = n by omega]

theorem liballocMemset_eq (small : n < 2^32) : ∃ m', liballocMemset m dest 0 n = some m' ∧
    (∀ k < n, m' (dest + k) = 0) ∧ ∀ i, i < dest ∨ dest + n ≤ i → m' i = m i := by
  refine ⟨_,if_pos small,?_⟩
  clear small
  induction n with
  | zero => exact ⟨fun k none_ => absurd none_ (Nat.not_lt_zero k),fun _ _ => rfl⟩
  | succ n ih =>
    obtain ⟨set,rest⟩ := ih
    rw [List.range_succ,List.foldl_append,List.foldl_cons,List.foldl_nil]
    constructor
    · intro k less
      by_cases last : k = n
      · rw [last,Function.update_self]
      · rw [Function.update_of_ne (by omega)]
        exact set k (by omega)
    · intro i away
      rw [Function.update_of_ne (by omega)]
      exact rest i (by omega)

end Copy

section Sizes
variable {page : Store → Nat → Store × Nat} {s s' : Liballoc} {chunks : List Chunk} {b : Blk} {m' : Store}
  {size nobj fuel p : Nat}

theorem Liballoc.Settled.cr3 (settled : s.Settled chunks) (root : Nat) : ({ s with cr3 := root } : Liballoc).Settled chunks :=
  ⟨settled.holds.cr3 root,settled.some_⟩

/-- A store to bytes that were asked for, or outside of the heap. -/
theorem Liballoc.Settled.write (settled : s.Settled chunks)
    (same : ∀ i, m' i ≠ s.mem i → (∃ b ∈ blocksOf chunks, b.Own i) ∨ ∀ c ∈ chunks, i < c.at_ ∨ c.stop ≤ i) :
    ({ s with mem := m' } : Liballoc).Settled chunks := by
  refine ⟨settled.holds.write fun i differs => ?_,settled.some_⟩
  rcases same i differs with ⟨b,hb,own⟩ | outside
  · obtain ⟨c,hc,there⟩ := mem_blocksOf.mp hb
    exact .inl ⟨c,hc,b,there,own⟩
  · exact .inr outside

theorem Liballoc.Settled.own_inside (settled : s.Settled chunks) (hb : b ∈ blocksOf chunks) :
    b.at_ + 52 ≤ b.ptr ∧ b.ptr + b.req < b.stop ∧ 0x200000 ≤ b.ptr := by
  obtain ⟨c,hc,there⟩ := mem_blocksOf.mp hb
  obtain ⟨first,last,low,_⟩ := (settled.holds.valid c hc).ptr_inside there
  exact ⟨first,last,low⟩

/-- `k_obj_calloc`: the bytes are zero. -/
theorem kObjCalloc_spec (settled : s.Settled chunks) (serves : Serves page s.mem s.held)
    (small : nobj * size % 2^64 + 216 ≤ 2047 * 2097152) (found : kObjCalloc page fuel s nobj size = some (s',p)) :
    ∃ b chunks', p = b.ptr ∧ b.req = nobj * size % 2^64 ∧ s'.Settled chunks' ∧
      (blocksOf chunks').Perm (b :: blocksOf chunks) ∧ Keeps s.mem s'.mem (blocksOf chunks) ∧ s'.cr3 = s.cr3 ∧
      ∀ k < nobj * size % 2^64, s'.mem (p + k) = 0 := by
  rw [kObjCalloc] at found
  obtain ⟨⟨t,q⟩,called,rest⟩ := Option.bind_eq_some_iff.mp found
  obtain ⟨b,chunks',rfl,req,after,perm,keeps,cr3⟩ := kObjAlloc_spec settled serves small called
  have less : nobj * size % 2^64 < 2^32 := by omega
  obtain ⟨m',set,zero,others⟩ : ∃ m', liballocMemset t.mem b.ptr 0 (nobj * size % 2^64) = some m' ∧
      (∀ k < nobj * size % 2^64, m' (b.ptr + k) = 0) ∧
      ∀ i, i < b.ptr ∨ b.ptr + nobj * size % 2^64 ≤ i → m' i = t.mem i := liballocMemset_eq less
  dsimp only at rest
  rw [set] at rest
  obtain ⟨rfl,rfl⟩ := Prod.mk.inj (Option.some.inj rest)
  have hb : b ∈ blocksOf chunks' := perm.mem_iff.mpr (List.mem_cons_self ..)
  have inside := after.own_inside hb
  have apart := after.holds.apart_of_perm perm
  refine ⟨b,chunks',rfl,req,after.write fun i differs => .inl ⟨b,hb,?_⟩,perm,keeps.trans fun d hd i low high => ?_,cr3,zero⟩
  · by_contra away
    have outside : i < b.ptr ∨ b.ptr + nobj * size % 2^64 ≤ i := by
      rw [Blk.Own,req] at away
      omega
    exact differs (others i outside)
  · refine others i ?_
    rcases apart d hd with before | behind
    · rw [← req]
      omega
    · omega

/-- The header that `k_obj_free` and `k_obj_realloc` look at. -/
theorem Liballoc.Settled.header (settled : s.Settled chunks) (hb : b ∈ blocksOf chunks) :
    sub64 (unalign s.mem b.ptr) 36 = b.at_ ∧ (minor s.mem b.at_).magic = magic ∧ (minor s.mem b.at_).reqSize = b.req := by
  obtain ⟨c,hc,there⟩ := mem_blocksOf.mp hb
  have blk := (settled.holds.holds c hc).blocks b there
  exact ⟨(settled.holds.valid c hc).header blk there,blk.magic,blk.req⟩

/-- Fewer bytes of a block are used from now on. -/
theorem Liballoc.Settled.shrink (settled : s.Settled chunks) (hb : b ∈ blocksOf chunks) (less : size ≤ b.req) :
    ∃ rest chunks', (s.setMinor b.at_ fun n => { n with reqSize := size }).Settled chunks' ∧
      (blocksOf chunks).Perm (b :: rest) ∧ (blocksOf chunks').Perm ({ b with req := size } :: rest) ∧
      Keeps s.mem (s.setMinor b.at_ fun n => { n with reqSize := size }).mem (blocksOf chunks) := by
  obtain ⟨ahead,c,behind,front,back,rfl,blocks⟩ := exists_place hb
  have holds := settled.holds
  have some_ := settled.some_
  have hc : c ∈ ahead ++ c :: behind := List.mem_append_right _ (List.mem_cons_self ..)
  have changes := resize_changes (holds.holds c hc) (holds.valid c hc) blocks less
  have same : (c.resize front b back size).used = c.used := by
    rw [Chunk.used,Chunk.used,Chunk.resize,blocks]
    simp only [List.map_append,List.map_cons]
  have used : s.inuse = ((ahead ++ c.resize front b back size :: behind).map Chunk.used).sum % 2^64 := by
    rw [holds.inuse,List.map_append,List.map_append,List.map_cons,List.map_cons,same]
  have after := changes.heap holds rfl rfl s.inuse used
  have here : { c with blocks := front ++ b :: back } = c := Chunk.eq_blocks blocks
  refine ⟨blocksOf (ahead ++ { c with blocks := front ++ back } :: behind),_,⟨after,fun d hd => ?_⟩,?_,blocksOf_insert,?_⟩
  · rcases List.mem_append.mp hd with before | rest
    · exact some_ d (List.mem_append_left _ before)
    · rcases List.mem_cons.mp rest with rfl | later
      · exact List.append_ne_nil_of_right_ne_nil _ (List.cons_ne_nil _ _)
      · exact some_ d (List.mem_append_right _ (List.mem_cons_of_mem c later))
  · have first : (blocksOf (ahead ++ { c with blocks := front ++ b :: back } :: behind)).Perm
        (b :: blocksOf (ahead ++ { c with blocks := front ++ back } :: behind)) := blocksOf_insert
    rwa [here] at first
  · exact (changes.bodies_all holds).keeps

/-- The copy of `k_obj_realloc` goes to another block. -/
theorem Liballoc.Settled.copy (settled : s.Settled chunks) {n : Blk} {blocks : List Blk}
    (perm : (blocksOf chunks).Perm (n :: blocks)) (hb : b ∈ blocks) (less : b.req ≤ n.req) :
    ({ s with mem := liballocMemcpy s.mem n.ptr b.ptr b.req } : Liballoc).Settled chunks ∧
      Keeps s.mem (liballocMemcpy s.mem n.ptr b.ptr b.req) blocks ∧
      ∀ k < b.req, liballocMemcpy s.mem n.ptr b.ptr b.req (n.ptr + k) = s.mem (b.ptr + k) := by
  have hn : n ∈ blocksOf chunks := perm.mem_iff.mpr (List.mem_cons_self ..)
  have apart := settled.holds.apart_of_perm perm
  have new := settled.own_inside hn
  have old := settled.own_inside (perm.mem_iff.mpr (List.mem_cons_of_mem n hb))
  have forward : Klib.Forward n.ptr b.ptr b.req := by
    rcases apart b hb with before | behind
    · exact .inl (by omega)
    · exact .inr (by omega)
  rw [liballocMemcpy_eq forward,memCpy]
  refine ⟨settled.write fun i differs => .inl ⟨n,hn,?_⟩,fun d hd i low high => ?_,fun k small => splice_inside small⟩
  · by_contra away
    have outside : i < n.ptr ∨ n.ptr + b.req ≤ i := by
      rw [Blk.Own] at away
      omega
    exact differs (splice_apart outside)
  · have outside : i < n.ptr ∨ n.ptr + b.req ≤ i := by
      rcases apart d hd with before | behind
      · exact .inr (by omega)
      · exact .inl (by omega)
    exact splice_apart outside

theorem Blk.own_kept {m : Store} {blocks : List Blk} (keeps : Keeps m m' blocks) (hb : b ∈ blocks)
    (inside : b.at_ + 52 ≤ b.ptr ∧ b.ptr + b.req < b.stop ∧ 0x200000 ≤ b.ptr) {k : Nat} (small : k < b.req) :
    m' (b.ptr + k) = m (b.ptr + k) :=
  keeps b hb (b.ptr + k) (by omega) (by omega)

/-- What a call of `k_obj_realloc` for a block has done: `b'` is in the place of `b`. -/
structure Resized (s s' : Liballoc) (chunks chunks' : List Chunk) (b b' : Blk) (rest : List Blk) : Prop where
  settled : s'.Settled chunks'
  before : (blocksOf chunks).Perm (b :: rest)
  after : (blocksOf chunks').Perm (b' :: rest)
  keeps : Keeps s.mem s'.mem rest
  contents : ∀ k < b.req, k < b'.req → s'.mem (b'.ptr + k) = s.mem (b.ptr + k)

/-- `k_obj_realloc` to fewer bytes. -/
theorem kObjRealloc_less (settled : s.Settled chunks) (hb : b ∈ blocksOf chunks) (some_ : size ≠ 0) (less : size ≤ b.req) :
    kObjRealloc page fuel s b.ptr size = some (s.setMinor b.at_ fun n => { n with reqSize := size },b.ptr) := by
  have inside := settled.own_inside hb
  obtain ⟨header,magic_,req⟩ := settled.header hb
  rw [kObjRealloc,if_neg some_,if_neg (by omega),reallocBlock,header,if_neg (not_not.mpr magic_),req,if_pos less]
  rfl

/-- `k_obj_realloc` to more bytes: another block, a copy, and the old block goes back. -/
theorem kObjRealloc_more (settled : s.Settled chunks) (hb : b ∈ blocksOf chunks) (more : ¬size ≤ b.req) :
    kObjRealloc page fuel s b.ptr size = (kObjAlloc page { s with cr3 := s.pml4Table } fuel size).bind fun r =>
      (kObjFree { r.1 with mem := liballocMemcpy r.1.mem r.2 b.ptr b.req } b.ptr).map fun t =>
        ({ t with cr3 := s.cr3 },r.2) := by
  have inside := settled.own_inside hb
  obtain ⟨header,magic_,req⟩ := settled.header hb
  rw [kObjRealloc,if_neg (by omega),if_neg (by omega),reallocBlock,header,if_neg (not_not.mpr magic_),req,if_neg more]
  cases kObjAlloc page { s with cr3 := s.pml4Table } fuel size with
  | none => rfl
  | some r =>
    obtain ⟨t,ptr⟩ := r
    dsimp only [Option.bind_eq_bind,Option.bind_some]
    cases kObjFree { t with mem := liballocMemcpy t.mem ptr b.ptr b.req } b.ptr with
    | none => rfl
    | some t => rfl

theorem kObjRealloc_spec (settled : s.Settled chunks) (hb : b ∈ blocksOf chunks) (serves : Serves page s.mem s.held)
    (some_ : size ≠ 0) (small : size + 216 ≤ 2047 * 2097152) (found : kObjRealloc page fuel s b.ptr size = some (s',p)) :
    ∃ b' rest chunks', p = b'.ptr ∧ b'.req = size ∧ s'.cr3 = s.cr3 ∧ Resized s s' chunks chunks' b b' rest := by
  have inside := settled.own_inside hb
  by_cases less : size ≤ b.req
  · rw [kObjRealloc_less settled hb some_ less] at found
    obtain ⟨rfl,rfl⟩ := Prod.mk.inj (Option.some.inj found)
    obtain ⟨rest,chunks',after,before,perm,keeps⟩ := settled.shrink hb less
    have fewer : ∀ d ∈ rest, d ∈ blocksOf chunks := fun d hd => before.mem_iff.mpr (List.mem_cons_of_mem b hd)
    exact ⟨{ b with req := size },rest,chunks',rfl,rfl,rfl,after,before,perm,keeps.mono fewer,
      fun k low _ => Blk.own_kept keeps hb inside low⟩
  · rw [kObjRealloc_more settled hb less] at found
    have start := settled.cr3 s.pml4Table
    obtain ⟨⟨t1,q1⟩,alloc,rest⟩ := Option.bind_eq_some_iff.mp found
    obtain ⟨n,chunks1,rfl,size_,after,perm,keeps,_⟩ := kObjAlloc_spec start serves small alloc
    obtain ⟨t2,free,out⟩ := Option.map_eq_some_iff.mp rest
    obtain ⟨rfl,rfl⟩ := Prod.mk.inj out
    obtain ⟨copied,same,bytes⟩ := after.copy perm hb (by omega)
    have there : b ∈ blocksOf chunks1 := perm.mem_iff.mpr (List.mem_cons_of_mem n hb)
    obtain ⟨t3,chunks3,free',_,end_,gone,keeps'⟩ := kObjFree_spec copied there
    obtain rfl : t3 = t2 := Option.some.inj (free'.symm.trans free)
    obtain ⟨front,back,split⟩ := List.append_of_mem hb
    have before : (blocksOf chunks).Perm (b :: (front ++ back)) := split ▸ List.perm_middle
    have place : (blocksOf chunks3).Perm (n :: (front ++ back)) := by
      have both := gone.symm.trans (perm.trans (before.cons n))
      exact (both.trans (.swap b n _)).cons_inv
    have fewer : ∀ d ∈ front ++ back, d ∈ blocksOf chunks :=
      fun d hd => before.mem_iff.mpr (List.mem_cons_of_mem b hd)
    have still : ∀ d ∈ n :: (front ++ back), d ∈ blocksOf chunks3 := fun d hd => place.mem_iff.mpr hd
    refine ⟨n,front ++ back,chunks3,rfl,size_,rfl,end_.cr3 _,before,place,?_,fun k low high => ?_⟩
    · have first := (keeps.trans same).mono fewer
      exact first.trans (keeps'.mono fun d hd => still d (List.mem_cons_of_mem n hd))
    · have new := end_.own_inside (still n (List.mem_cons_self ..))
      have last := Blk.own_kept keeps' (still n (List.mem_cons_self ..)) new high
      exact last.trans ((bytes k low).trans (Blk.own_kept keeps hb inside low))

/-- `k_obj_realloc` returns when no other block is needed, or `k_obj_alloc` has one. -/
theorem Liballoc.Settled.realloc_iff (settled : s.Settled chunks) (hb : b ∈ blocksOf chunks) (serves : Serves page s.mem s.held)
    (some_ : size ≠ 0) (small : size + 216 ≤ 2047 * 2097152) : (∃ fuel r, kObjRealloc page fuel s b.ptr size = some r) ↔
      size ≤ b.req ∨ ∃ fuel r, kObjAlloc page { s with cr3 := s.pml4Table } fuel size = some r := by
  by_cases less : size ≤ b.req
  · exact iff_of_true ⟨0,_,kObjRealloc_less settled hb some_ less⟩ (.inl less)
  · have start := settled.cr3 s.pml4Table
    constructor
    · rintro ⟨fuel,r,found⟩
      rw [kObjRealloc_more settled hb less] at found
      obtain ⟨t,alloc,_⟩ := Option.bind_eq_some_iff.mp found
      exact .inr ⟨fuel,t,alloc⟩
    · rintro (fits | ⟨fuel,⟨t,p⟩,alloc⟩)
      · exact absurd fits less
      · obtain ⟨n,chunks1,rfl,size_,after,perm,_,_⟩ := kObjAlloc_spec start serves small alloc
        obtain ⟨copied,_,_⟩ := after.copy perm hb (by omega)
        have there : b ∈ blocksOf chunks1 := perm.mem_iff.mpr (List.mem_cons_of_mem n hb)
        obtain ⟨t',_,free,_⟩ := kObjFree_spec copied there
        refine ⟨fuel,({ t' with cr3 := s.cr3 },n.ptr),?_⟩
        rw [kObjRealloc_more settled hb less,alloc,Option.bind_some]
        dsimp only
        rw [free,Option.map_some]

/-- `k_obj_alloc` returns when there is a gap or there are pages, but not when it takes the first
header for the sign that there is no memory. -/
theorem Liballoc.Settled.alloc_iff (settled : s.Settled chunks) (serves : Serves page s.mem s.held)
    (small : size + 216 ≤ 2047 * 2097152) : (∃ fuel r, kObjAlloc page s fuel size = some r) ↔
      ¬Marked chunks ∧ ((∃ c ∈ chunks, ¬c.Full (size + 144)) ∨ (page s.mem (pagesFor (size + 144))).2 ≠ 0) := by
  obtain ⟨enough,called⟩ := kObjAlloc_called settled.holds serves small settled.some_
  constructor
  · rintro ⟨fuel,r,found⟩
    have result := called (max enough fuel) (Nat.le_max_left ..)
    rw [kObjAlloc_stable found (Nat.le_max_right ..)] at result
    generalize out : some r = o at result
    cases result with
    | placed free room _ _ => exact ⟨free,room⟩
    | marked => cases out
    | out => cases out
  · rintro ⟨plain,room⟩
    have result := called enough (Nat.le_refl _)
    generalize found : kObjAlloc page s enough size = o at result
    cases result with
    | placed _ _ _ _ => exact ⟨enough,_,found⟩
    | marked marked => exact absurd marked plain
    | out full none_ =>
      rcases room with ⟨c,hc,free⟩ | come
      · exact absurd (full c hc) free
      · exact absurd none_ come

end Sizes

end Siegfried.ObjHeap
