import Siegfried.ObjAlloc

/-! `k_obj_free`: a block out of its chunk, and a chunk without a block out of the heap. -/
namespace Siegfried.ObjHeap
open Bytes Links Intervals

/-- The memory with a block that is not counted any more, and its header dead. -/
def deadened (m : Store) (maj at_ size : Nat) : Store :=
  let m := storeMajor m maj { major m maj with usage := sub32 (major m maj).usage ((size + 36) % 2^32) }
  storeMinor m at_ { minor m at_ with magic := dead }

/-- The memory with a block out of its chunk. -/
def takenOut (m : Store) (maj at_ : Nat) (n : Minor) : Store :=
  linkAround (deadened m maj at_ n.size) maj n.prev n.next n.prev n.next

section TakeOut
variable {s : Liballoc} {m : Store} {c : Chunk} {n : Blk} {front back : List Blk} {a : Nat}

theorem unlinkMinor_eq (s : Liballoc) (maj : Nat) (n : Minor) :
    unlinkMinor s maj n = { s with mem := linkAround s.mem maj n.prev n.next n.prev n.next } := by
  rw [unlinkMinor,linkAround]
  by_cases after : n.next ≠ 0
  · by_cases before : n.prev = 0
    · simp only [if_pos after,if_pos before,if_neg (not_not.mpr before),Liballoc.setMinor,Liballoc.setMajor]
    · simp only [if_pos after,if_neg before,if_pos (show n.prev ≠ 0 from before),Liballoc.setMinor]
  · by_cases before : n.prev = 0
    · simp only [if_neg after,if_pos before,if_neg (not_not.mpr before),Liballoc.setMajor]
    · simp only [if_neg after,if_neg before,if_pos (show n.prev ≠ 0 from before),Liballoc.setMinor]

theorem takeOut_eq (s : Liballoc) (min : Nat) :
    takeOut s min = { s with
      mem := takenOut s.mem (minor s.mem min).block min (minor s.mem min)
      inuse := sub64 s.inuse (minor s.mem min).size } := by
  rw [takeOut]
  simp only [unlinkMinor_eq,Liballoc.setMajor,Liballoc.setMinor,takenOut,deadened]

/-- The headers around a block that is taken out, and the bytes that are as before. -/
structure Removed (m m' : Store) (c : Chunk) (front back : List Blk) (n : Blk) : Prop where
  minors : ∀ b ∈ front ++ back, minor m' b.at_ =
    { minor m b.at_ with
      prev := if b.at_ = nextOf back then prevOf front else (minor m b.at_).prev
      next := if b.at_ = prevOf front then nextOf back else (minor m b.at_).next }
  top : major m' c.at_ =
    { major m c.at_ with
      first := if prevOf front = 0 then nextOf back else (major m c.at_).first
      usage := c.usage - (n.size + 36) }
  outside : ∀ i, i < c.at_ ∨ c.stop ≤ i → m' i = m i
  bodies : ∀ b ∈ c.blocks, ∀ i, b.at_ + 36 ≤ i → i < b.stop → m' i = m i

/-- The other blocks of the chunk are in front of it or behind it. -/
theorem Chunk.Valid.others (valid : c.Valid) (split : c.blocks = front ++ n :: back) :
    ∀ b ∈ front ++ back, b.stop ≤ n.at_ ∨ n.stop ≤ b.at_ := by
  intro b hb
  have order := valid.order.pairwise
  rw [split] at order
  obtain ⟨_,behind,ahead⟩ := List.pairwise_append.mp order
  rcases List.mem_append.mp hb with before | after
  · exact .inl (ahead b before n (List.mem_cons_self ..))
  · exact .inr ((List.pairwise_cons.mp behind).1 b after)

theorem Chunk.near (split : c.blocks = front ++ n :: back) :
    c.Near (prevOf front) ∧ c.Near (nextOf back) := by
  constructor
  · rcases List.eq_nil_or_concat front with rfl | ⟨init,b,rfl⟩
    · exact .inl rfl
    · rw [List.concat_eq_append] at split ⊢
      exact .inr ⟨b,by rw [split]; simp,prevOf_concat.symm⟩
  · cases back with
    | nil => exact .inl rfl
    | cons b back => exact .inr ⟨b,by rw [split]; simp,rfl⟩

theorem Chunk.Near.lt (near : c.Near a) (valid : c.Valid) : a < 2^64 := by
  rcases near with rfl | ⟨b,hb,rfl⟩
  · decide
  · obtain ⟨_,_,last⟩ := valid.order.member hb
    have high := valid.high
    rw [Blk.stop] at last
    omega

theorem Chunk.usage_remove (split : c.blocks = front ++ n :: back) :
    ({ c with blocks := front ++ back } : Chunk).usage + (n.size + 36) = c.usage := by
  rw [Chunk.usage,Chunk.usage,split]
  simp only [List.map_append,List.map_cons,List.sum_append,List.sum_cons]
  omega

theorem deadened_apart {i size : Nat} (major : i < c.at_ ∨ c.at_ + 36 ≤ i) (minor : i < n.at_ ∨ n.at_ + 36 ≤ i) :
    deadened m c.at_ n.at_ size i = m i := by
  rw [deadened,storeMinor_apart _ minor,storeMajor_apart _ major]

theorem deadened_major (holds : c.Holds m) (valid : c.Valid) (split : c.blocks = front ++ n :: back) :
    major (deadened m c.at_ n.at_ n.size) c.at_ = { major m c.at_ with usage := c.usage - (n.size + 36) } := by
  have hn : n ∈ c.blocks := split ▸ List.mem_append_right _ (List.mem_cons_self ..)
  obtain ⟨lower,_⟩ := valid.order.member hn
  have fits := valid.usage_le
  have limit := valid.size_lt
  have usage : sub32 (major m c.at_).usage ((n.size + 36) % 2^32) = c.usage - (n.size + 36) := by
    have counted := Chunk.usage_remove split
    rw [holds.usage,sub32]
    omega
  rw [deadened,usage,major_storeMinor _ (.inl lower),major_setUsage (by omega)]

theorem removed (holds : c.Holds m) (valid : c.Valid) (split : c.blocks = front ++ n :: back) :
    Removed m (takenOut m c.at_ n.at_ (minor m n.at_)) c front back n := by
  have hn : n ∈ c.blocks := split ▸ List.mem_append_right _ (List.mem_cons_self ..)
  obtain ⟨lower,_,upper⟩ := valid.order.member hn
  rw [Blk.stop] at upper
  have inside (b : Blk) (hb : b ∈ front ++ back) : b ∈ c.blocks := split ▸ mem_beside hb
  have others := valid.others split
  obtain ⟨before,after⟩ := Chunk.near split
  have links := holds.links
  rw [split,List.map_append,List.map_cons] at links
  have prev : (minor m n.at_).prev = prevOf front := links.node.1
  have next : (minor m n.at_).next = nextOf back := links.node.2
  have size : (minor m n.at_).size = n.size := (holds.blocks n hn).size
  have top := deadened_major holds valid split
  have bytes (i : Nat) (major : i < c.at_ ∨ c.at_ + 36 ≤ i) (minor : i < n.at_ ∨ n.at_ + 36 ≤ i) :
      deadened m c.at_ n.at_ n.size i = m i := deadened_apart major minor
  rw [takenOut,prev,next,size]
  generalize deadened m c.at_ n.at_ n.size = m2 at *
  have same (b : Blk) (hb : b ∈ front ++ back) : minor m2 b.at_ = minor m b.at_ := by
    obtain ⟨first,_⟩ := valid.order.member (inside b hb)
    have place := others b hb
    rw [Blk.stop,Blk.stop] at place
    exact minor_congr fun i low high => bytes i (.inr (by omega)) (by omega)
  have untouched (i : Nat) (major : i < c.at_ ∨ c.at_ + 36 ≤ i) (minors : ∀ b ∈ c.blocks, i < b.at_ ∨ b.at_ + 36 ≤ i) :
      linkAround m2 c.at_ (prevOf front) (nextOf back) (prevOf front) (nextOf back) i = m i := by
    rw [linkAround_apart before after major minors]
    exact bytes i major (minors n hn)
  refine ⟨fun b hb => ?_,?_,fun i away => ?_,fun b hb i low high => ?_⟩
  · rw [linkAround_minor valid ⟨before.lt valid,after.lt valid⟩ before after (inside b hb),same b hb]
  · rw [linkAround_major m2 _ valid (after.lt valid) before after,top]
  · refine untouched i (by have := valid.size_pos; omega) fun b hb => ?_
    obtain ⟨first,_,last⟩ := valid.order.member hb
    rw [Blk.stop] at last
    omega
  · obtain ⟨first,_⟩ := valid.order.member hb
    refine untouched i (.inr (by omega)) fun b' hb' => ?_
    rcases valid.apart hb' hb with rfl | ahead | later
    · exact .inr low
    · rw [Blk.stop] at ahead
      exact .inr (by omega)
    · exact .inl (by omega)

theorem Chunk.Valid.remove (valid : c.Valid) (split : c.blocks = front ++ n :: back) :
    ({ c with blocks := front ++ back } : Chunk).Valid where
  order := by
    have order := valid.order
    rw [split] at order
    exact order.remove
  room b hb := valid.room b (split ▸ mem_beside hb)
  some_ := valid.some_
  few := valid.few
  low := valid.low
  high := valid.high

/-- The chunk without the block. -/
theorem removed_changes (holds : c.Holds m) (valid : c.Valid) (split : c.blocks = front ++ n :: back) :
    Changes m (takenOut m c.at_ n.at_ (minor m n.at_)) c { c with blocks := front ++ back } := by
  obtain ⟨minors,top,outside,bodies⟩ := removed holds valid split
  generalize takenOut m c.at_ n.at_ (minor m n.at_) = m' at *
  have inside (b : Blk) (hb : b ∈ front ++ back) : b ∈ c.blocks := split ▸ mem_beside hb
  have counted := Chunk.usage_remove split
  refine ⟨valid.remove split,⟨?_,?_,?_,?_,?_,fun b hb => ?_⟩,?_,?_,outside,bodies⟩
  · rw [top]
    exact holds.pages
  · rw [top]
    exact holds.size
  · rw [top]
    dsimp only
    omega
  · rw [top]
    dsimp only
    cases front with
    | nil => exact if_pos rfl
    | cons b rest =>
      have there := prevOf_cons_ne valid (fun x hx => inside x (List.mem_append_left _ hx)) (List.cons_ne_nil b rest)
      rw [if_neg there,holds.first,split]
      rfl
  · have links := holds.links
    have nodup := (valid.remove split).nodup
    rw [split,List.map_append,List.map_cons] at links
    rw [List.map_append] at nodup ⊢
    have pos (b : Blk) (hb : b ∈ front ++ back) : 0 < b.at_ := valid.at_pos (inside b hb)
    exact links.remove_sets nodup (sets_of_minors pos minors)
  · obtain ⟨block,magic_,size_,req_,tag⟩ := holds.blocks b (inside b hb)
    have bounds := b.ptr_bounds
    have fit := valid.room b (inside b hb)
    have same := bodies b (inside b hb) (b.ptr - 16) (by omega) (by rw [Blk.stop]; omega)
    have header := minors b hb
    exact ⟨header ▸ block,header ▸ magic_,header ▸ size_,header ▸ req_,same ▸ tag⟩
  · rw [top]
  · rw [top]

end TakeOut

section Heap
variable {s : Liballoc} {ahead behind : List Chunk} {c d : Chunk} {n : Blk} {front back : List Blk} {m' : Store}

theorem sub64_mod {a n : Nat} (small : n < 2^64) : sub64 ((a + n) % 2^64) n = a % 2^64 := by
  rw [sub64]
  omega

theorem takeOut_holds (holds : s.Holds (ahead ++ c :: behind)) (split : c.blocks = front ++ n :: back) :
    (takeOut s n.at_).Holds (ahead ++ { c with blocks := front ++ back } :: behind) ∧
      Bodies s.mem (takeOut s n.at_).mem (ahead ++ c :: behind) := by
  have hc : c ∈ ahead ++ c :: behind := List.mem_append_right _ (List.mem_cons_self ..)
  have hn : n ∈ c.blocks := split ▸ List.mem_append_right _ (List.mem_cons_self ..)
  obtain ⟨block,_,size,_,_⟩ := (holds.holds c hc).blocks n hn
  have changes := removed_changes (holds.holds c hc) (holds.valid c hc) split
  have used : ((ahead ++ c :: behind).map Chunk.used).sum =
      ((ahead ++ { c with blocks := front ++ back } :: behind).map Chunk.used).sum + n.size := by
    have here : c.used = ({ c with blocks := front ++ back } : Chunk).used + n.size := by
      rw [Chunk.used,Chunk.used,split]
      simp only [List.map_append,List.map_cons,List.sum_append,List.sum_cons]
      omega
    simp only [List.map_append,List.map_cons,List.sum_append,List.sum_cons,here]
    omega
  have small : n.size < 2^64 := by
    have limit := (holds.valid c hc).high
    obtain ⟨_,_,last⟩ := (holds.valid c hc).order.member hn
    rw [Blk.stop] at last
    omega
  have inuse : sub64 s.inuse n.size = ((ahead ++ { c with blocks := front ++ back } :: behind).map Chunk.used).sum % 2^64 := by
    rw [holds.inuse,used,sub64_mod small]
  have heap := changes.heap holds rfl rfl _ inuse
  have bodies := changes.bodies_all holds
  rw [takeOut_eq,block,size]
  refine ⟨heap,?_⟩
  dsimp only
  exact bodies

/-- The memory with a chunk out of the list of the majors. -/
def unlinked (m : Store) (j : Major) : Store :=
  let m := if j.prev ≠ 0 then storeMajor m j.prev { major m j.prev with next := j.next } else m
  if j.next ≠ 0 then storeMajor m j.next { major m j.next with prev := j.prev } else m

theorem relinkMajors_eq (s : Liballoc) (j : Major) : relinkMajors s j = { s with mem := unlinked s.mem j } := by
  rw [relinkMajors,unlinked]
  by_cases prev : j.prev ≠ 0
  · by_cases next : j.next ≠ 0
    · simp only [if_pos prev,if_pos next,Liballoc.setMajor]
    · simp only [if_pos prev,if_neg next,Liballoc.setMajor]
  · by_cases next : j.next ≠ 0
    · simp only [if_neg prev,if_pos next,Liballoc.setMajor]
    · simp only [if_neg prev,if_neg next]

theorem unlinkMajor_eq (s : Liballoc) (maj : Nat) (j : Major) :
    unlinkMajor s maj j = { s with
      mem := unlinked s.mem j
      memRoot := if s.memRoot = maj then j.next else s.memRoot
      bestBet := if s.bestBet = maj then 0 else s.bestBet
      allocated := sub64 s.allocated j.size
      blks := sub64 s.blks 1
      held := s.held.erase (maj,j.pages) } := by
  rw [unlinkMajor,relinkMajors_eq,liballocFree]

/-- The addresses before and behind a place in the list of chunks. -/
def prevAt (ahead : List Chunk) : Nat := (ahead.map Chunk.at_).getLastD 0
def nextAt (behind : List Chunk) : Nat := (behind.map Chunk.at_).headD 0

theorem prevAt_mem (ahead : List Chunk) : prevAt ahead = 0 ∨ ∃ d ∈ ahead, d.at_ = prevAt ahead := by
  rcases List.eq_nil_or_concat ahead with rfl | ⟨init,d,rfl⟩
  · exact .inl rfl
  · refine .inr ⟨d,by simp,?_⟩
    rw [prevAt,List.concat_eq_append,List.map_append,List.map_singleton,List.getLastD_concat]

theorem nextAt_mem (behind : List Chunk) : nextAt behind = 0 ∨ ∃ d ∈ behind, d.at_ = nextAt behind := by
  cases behind with
  | nil => exact .inl rfl
  | cons d behind => exact .inr ⟨d,List.mem_cons_self ..,rfl⟩

/-- Two chunks of the heap are the same one, or they do not overlap. -/
theorem Liballoc.Holds.same_or_apart {chunks : List Chunk} (holds : s.Holds chunks) (hc : c ∈ chunks) (hd : d ∈ chunks) :
    c = d ∨ c.stop ≤ d.at_ ∨ d.stop ≤ c.at_ := by
  have all : chunks.Pairwise fun c d => c = d ∨ c.stop ≤ d.at_ ∨ d.stop ≤ c.at_ := holds.apart.imp .inr
  have flipped : chunks.Pairwise (flip fun c d => c = d ∨ c.stop ≤ d.at_ ∨ d.stop ≤ c.at_) :=
    holds.apart.imp fun apart => .inr apart.symm
  exact all.forall_of_forall_of_flip (fun _ _ => .inl rfl) flipped hc hd

theorem Liballoc.Holds.same36 {chunks : List Chunk} (holds : s.Holds chunks) (hc : c ∈ chunks) (hd : d ∈ chunks) :
    Same36 c.at_ d.at_ := by
  have first := (holds.valid c hc).size_pos
  have second := (holds.valid d hd).size_pos
  rcases holds.same_or_apart hc hd with rfl | before | after
  · exact .inl rfl
  · exact .inr (.inl (by omega))
  · exact .inr (.inr (by omega))

/-- The headers of the other majors, and the bytes that are as before. -/
structure Unlinked (m m' : Store) (ahead behind : List Chunk) : Prop where
  majors : ∀ d ∈ ahead ++ behind, major m' d.at_ =
    { major m d.at_ with
      prev := if d.at_ = nextAt behind then prevAt ahead else (major m d.at_).prev
      next := if d.at_ = prevAt ahead then nextAt behind else (major m d.at_).next }
  bytes : ∀ d ∈ ahead ++ behind, ∀ i, d.at_ + 36 ≤ i → i < d.stop → m' i = m i

end Heap

section Unlink
variable {s : Liballoc} {ahead behind : List Chunk} {c d : Chunk}

theorem unlinked_memory (holds : s.Holds (ahead ++ c :: behind)) {j : Major} (prev : j.prev = prevAt ahead)
    (next : j.next = nextAt behind) : Unlinked s.mem (unlinked s.mem j) ahead behind := by
  have inside (d : Chunk) (hd : d ∈ ahead ++ behind) : d ∈ ahead ++ c :: behind := mem_beside hd
  have lt (x : Nat) (there : x = 0 ∨ ∃ d ∈ ahead ++ behind, d.at_ = x) : x < 2^64 := by
    rcases there with rfl | ⟨d,hd,rfl⟩
    · decide
    · have valid := holds.valid d (inside d hd)
      have size := valid.size_pos
      have high := valid.high
      omega
  have before : prevAt ahead = 0 ∨ ∃ d ∈ ahead ++ behind, d.at_ = prevAt ahead :=
    (prevAt_mem ahead).imp_right fun ⟨d,hd,same⟩ => ⟨d,List.mem_append_left _ hd,same⟩
  have after : nextAt behind = 0 ∨ ∃ d ∈ ahead ++ behind, d.at_ = nextAt behind :=
    (nextAt_mem behind).imp_right fun ⟨d,hd,same⟩ => ⟨d,List.mem_append_right _ hd,same⟩
  have near (x : Nat) (there : x = 0 ∨ ∃ d ∈ ahead ++ behind, d.at_ = x) (some_ : x ≠ 0) (d : Chunk)
      (hd : d ∈ ahead ++ behind) : Same36 d.at_ x := by
    obtain ⟨e,he,rfl⟩ := there.resolve_left some_
    exact holds.same36 (inside d hd) (inside e he)
  rw [unlinked,prev,next]
  constructor
  · intro d hd
    have pos := Nat.ne_of_gt (holds.at_pos (inside d hd))
    have first : major (if prevAt ahead ≠ 0 then storeMajor s.mem (prevAt ahead)
        { major s.mem (prevAt ahead) with next := nextAt behind } else s.mem) d.at_ =
        { major s.mem d.at_ with next := if d.at_ = prevAt ahead then nextAt behind else (major s.mem d.at_).next } := by
      by_cases there : prevAt ahead ≠ 0
      · rw [if_pos there,major_setNext (lt _ after) (near _ before there d hd)]
      · rw [if_neg there,if_neg (by omega)]
    dsimp only
    by_cases there : nextAt behind ≠ 0
    · rw [if_pos there,major_setPrev (lt _ before) (near _ after there d hd),first]
    · rw [if_neg there,first,if_neg (show d.at_ ≠ nextAt behind by omega)]
  · intro d hd i low high
    have away (x : Nat) (there : x = 0 ∨ ∃ d ∈ ahead ++ behind, d.at_ = x) (some_ : x ≠ 0) :
        i < x ∨ x + 36 ≤ i := by
      obtain ⟨e,he,rfl⟩ := there.resolve_left some_
      have size := (holds.valid e (inside e he)).size_pos
      rcases holds.same_or_apart (inside d hd) (inside e he) with rfl | apart | apart
      · exact .inr low
      · exact .inl (by omega)
      · exact .inr (by omega)
    have first : (if prevAt ahead ≠ 0 then storeMajor s.mem (prevAt ahead)
        { major s.mem (prevAt ahead) with next := nextAt behind } else s.mem) i = s.mem i := by
      by_cases there : prevAt ahead ≠ 0
      · rw [if_pos there,storeMajor_apart _ (away _ before there)]
      · rw [if_neg there]
    dsimp only
    by_cases there : nextAt behind ≠ 0
    · rw [if_pos there,storeMajor_apart _ (away _ after there),first]
    · rw [if_neg there,first]

/-- A chunk without blocks is given back. -/
theorem unlinkMajor_holds (holds : s.Holds (ahead ++ c :: behind)) (empty : c.blocks = []) :
    (unlinkMajor s c.at_ (major s.mem c.at_)).Holds (ahead ++ behind) ∧
      Bodies s.mem (unlinkMajor s c.at_ (major s.mem c.at_)).mem (ahead ++ behind) := by
  have hc : c ∈ ahead ++ c :: behind := List.mem_append_right _ (List.mem_cons_self ..)
  have inside (d : Chunk) (hd : d ∈ ahead ++ behind) : d ∈ ahead ++ c :: behind := mem_beside hd
  have links := holds.links
  have nodup := holds.nodup
  rw [List.map_append,List.map_cons] at links nodup
  have prev : (major s.mem c.at_).prev = prevAt ahead := links.node.1
  have next : (major s.mem c.at_).next = nextAt behind := links.node.2
  have pages := (holds.holds c hc).pages
  have size := (holds.holds c hc).size
  obtain ⟨majors,bytes⟩ := unlinked_memory holds prev next
  have sum (f : Chunk → Nat) : ((ahead ++ c :: behind).map f).sum = ((ahead ++ behind).map f).sum + f c := by
    simp only [List.map_append,List.map_cons,List.sum_append,List.sum_cons]
    omega
  rw [unlinkMajor_eq,next,pages,size]
  generalize unlinked s.mem (major s.mem c.at_) = m' at *
  refine ⟨⟨?_,?_,fun d hd => ?_,fun d hd => ?_,?_,?_,?_,?_,?_,?_⟩,fun d hd b hb i low high => ?_⟩
  · dsimp only
    cases ahead with
    | nil => exact if_pos holds.root
    | cons d rest =>
      have other : s.memRoot ≠ c.at_ := by
        rw [show s.memRoot = d.at_ from holds.root]
        intro same
        rw [List.map_cons,same] at nodup
        exact (List.nodup_cons.mp nodup).1 (List.mem_append_right _ (List.mem_cons_self ..))
      rw [if_neg other]
      exact holds.root
  · have both := nodup.sublist (List.Sublist.append (List.Sublist.refl _) (List.sublist_cons_self c.at_ _))
    have some_ : ∀ a ∈ ahead.map Chunk.at_ ++ behind.map Chunk.at_, a ≠ 0 := fun a ha => by
      rw [← List.map_append] at ha
      obtain ⟨d,hd,rfl⟩ := List.mem_map.mp ha
      exact Nat.ne_of_gt (holds.at_pos (inside d hd))
    rw [List.map_append]
    refine links.remove_sets both (Sets.of_ite some_ (fun a ha => ?_) (fun a ha => ?_))
    · rw [← List.map_append] at ha
      obtain ⟨d,hd,rfl⟩ := List.mem_map.mp ha
      rw [majors d hd]
      rfl
    · rw [← List.map_append] at ha
      obtain ⟨d,hd,rfl⟩ := List.mem_map.mp ha
      rw [majors d hd]
      rfl
  · have valid := holds.valid d (inside d hd)
    exact (holds.holds d (inside d hd)).relink valid (bytes d hd) (majors d hd)
  · exact holds.valid d (inside d hd)
  · exact holds.apart.sublist (List.Sublist.append (List.Sublist.refl _) (List.sublist_cons_self c _))
  · dsimp only
    by_cases bet : s.bestBet = c.at_
    · exact .inl (if_pos bet)
    · rw [if_neg bet]
      rcases holds.best with none_ | ⟨d,hd,same⟩
      · exact .inl none_
      · refine .inr ⟨d,?_,same⟩
        rcases List.mem_append.mp hd with before | rest
        · exact List.mem_append_left _ before
        · rcases List.mem_cons.mp rest with rfl | after
          · exact absurd same.symm bet
          · exact List.mem_append_right _ after
  · have held := holds.held
    rw [List.map_append,List.map_cons] at held
    have given := (held.trans List.perm_middle).erase (c.at_,c.pages)
    rw [List.erase_cons_head] at given
    rw [List.map_append]
    exact given
  · have none_ : c.used = 0 := by
      rw [Chunk.used,empty]
      rfl
    exact holds.inuse.trans (by rw [sum,none_,Nat.add_zero])
  · have small : c.size < 2^64 := by
      have limit := (holds.valid c hc).size_lt
      omega
    dsimp only
    rw [holds.allocated,sum,sub64_mod small]
  · have longer : (ahead ++ c :: behind).length = (ahead ++ behind).length + 1 := by
      rw [List.length_append,List.length_append,List.length_cons]
      omega
    dsimp only
    rw [holds.blks,longer,sub64_mod (by decide)]
  · obtain ⟨first,_,_⟩ := (holds.valid d (inside d hd)).order.member hb
    have there := (holds.valid d (inside d hd)).body_inside hb low high
    exact bytes d hd i (by omega) there.2

/-- A chunk is in the heap as long as there are blocks in it. -/
def Chunk.kept (c : Chunk) : List Chunk := if c.blocks.isEmpty then [] else [c]

theorem Chunk.mem_kept (there : d ∈ c.kept) : d = c := by
  rw [Chunk.kept] at there
  split at there
  · cases there
  · exact List.mem_singleton.mp there

theorem betterBet_holds {chunks : List Chunk} (holds : s.Holds chunks) (hc : c ∈ chunks) :
    (betterBet s c.at_).Holds chunks ∧ (betterBet s c.at_).mem = s.mem := by
  rw [betterBet]
  by_cases better : s.bestBet ≠ 0 ∧ freeSize s s.bestBet < freeSize s c.at_
  · rw [if_pos better]
    exact ⟨holds.bet (.inr ⟨c,hc,rfl⟩),rfl⟩
  · rw [if_neg better]
    exact ⟨holds,rfl⟩

theorem cleanUp_holds (holds : s.Holds (ahead ++ c :: behind)) :
    (cleanUp s c.at_).Holds (ahead ++ c.kept ++ behind) ∧
      Bodies s.mem (cleanUp s c.at_).mem (ahead ++ c.kept ++ behind) := by
  have hc : c ∈ ahead ++ c :: behind := List.mem_append_right _ (List.mem_cons_self ..)
  rw [cleanUp,(holds.holds c hc).first,Chunk.kept]
  cases blocks : c.blocks with
  | nil =>
    rw [List.map_nil,List.headD_nil,if_pos rfl,List.isEmpty_nil,if_pos rfl,List.append_nil]
    exact unlinkMajor_holds holds blocks
  | cons b rest =>
    have pos := (holds.valid c hc).at_pos (blocks ▸ List.mem_cons_self ..)
    obtain ⟨better,same⟩ := betterBet_holds holds hc
    rw [List.map_cons,List.headD_cons,if_neg (Nat.ne_of_gt pos),List.isEmpty_cons,if_neg Bool.false_ne_true,
      List.append_assoc]
    refine ⟨better,?_⟩
    rw [same]
    exact fun _ _ _ _ _ _ _ => rfl

end Unlink

section Free
variable {s : Liballoc} {ahead behind : List Chunk} {c : Chunk} {n : Blk} {front back : List Blk}

/-- The way from a pointer to the header of its block. -/
theorem Chunk.Valid.header {m : Store} (valid : c.Valid) (blk : c.BlkHolds m n) (hn : n ∈ c.blocks) :
    sub64 (unalign m n.ptr) 36 = n.at_ := by
  have inside := valid.ptr_inside hn
  have high := valid.high
  rw [blk.unalign,sub64]
  omega

theorem kObjFree_eq (holds : s.Holds (ahead ++ c :: behind)) (hn : n ∈ c.blocks) : kObjFree s n.ptr =
    some { cleanUp (takeOut { s with cr3 := s.pml4Table } n.at_) c.at_ with cr3 := s.cr3 } := by
  have hc : c ∈ ahead ++ c :: behind := List.mem_append_right _ (List.mem_cons_self ..)
  have blk := (holds.holds c hc).blocks n hn
  have inside := (holds.valid c hc).ptr_inside hn
  have header := (holds.valid c hc).header blk hn
  rw [kObjFree,if_neg (by omega),header,if_neg (not_not.mpr blk.magic),blk.block]

/-- The block out of the heap, with its chunk when it was the last one in it. -/
theorem kObjFree_holds (holds : s.Holds (ahead ++ c :: behind)) (split : c.blocks = front ++ n :: back) :
    ∃ s', kObjFree s n.ptr = some s' ∧ s'.cr3 = s.cr3 ∧
      s'.Holds (ahead ++ ({ c with blocks := front ++ back } : Chunk).kept ++ behind) ∧
      Bodies s.mem s'.mem (ahead ++ ({ c with blocks := front ++ back } : Chunk).kept ++ behind) := by
  have hc : c ∈ ahead ++ c :: behind := List.mem_append_right _ (List.mem_cons_self ..)
  have hn : n ∈ c.blocks := split ▸ List.mem_append_right _ (List.mem_cons_self ..)
  obtain ⟨out,same⟩ := takeOut_holds (holds.cr3 s.pml4Table) split
  obtain ⟨clean,bytes⟩ := cleanUp_holds out
  have fewer : ∀ d ∈ ahead ++ ({ c with blocks := front ++ back } : Chunk).kept ++ behind, ∀ b ∈ d.blocks,
      ∃ e ∈ ahead ++ c :: behind, b ∈ e.blocks := by
    intro d hd b hb
    rcases List.mem_append.mp hd with first | after
    · rcases List.mem_append.mp first with before | here
      · exact ⟨d,List.mem_append_left _ before,hb⟩
      · refine ⟨c,hc,?_⟩
        rw [Chunk.mem_kept here] at hb
        exact split ▸ mem_beside hb
    · exact ⟨d,List.mem_append_right _ (List.mem_cons_of_mem c after),hb⟩
  have bodies := (same.mono fewer).trans bytes
  refine ⟨_,kObjFree_eq holds hn,rfl,clean.cr3 _,?_⟩
  dsimp only at bodies ⊢
  exact bodies

end Free

section Twice
variable {s s' : Liballoc} {m : Store} {ahead behind : List Chunk} {c : Chunk} {n : Blk} {front back : List Blk} {i : Nat}

end Twice

end Siegfried.ObjHeap
