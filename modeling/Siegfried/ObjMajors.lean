import Siegfried.ObjInsert

/-! The list of the majors: a chunk that changes, and one more chunk behind the others. -/
namespace Siegfried.ObjHeap
open Bytes Links Intervals

def Chunk.used (c : Chunk) : Nat := (c.blocks.map Blk.size).sum

/-- The state of the heap. -/
structure Liballoc.Holds (s : Liballoc) (chunks : List Chunk) : Prop where
  root : s.memRoot = (chunks.map Chunk.at_).headD 0
  links : Linked 0 (fun a => (major s.mem a).prev) (fun a => (major s.mem a).next) 0 (chunks.map Chunk.at_)
  holds : ∀ c ∈ chunks, c.Holds s.mem
  valid : ∀ c ∈ chunks, c.Valid
  apart : chunks.Pairwise fun c d => c.stop ≤ d.at_ ∨ d.stop ≤ c.at_
  best : s.bestBet = 0 ∨ ∃ c ∈ chunks, c.at_ = s.bestBet
  held : s.held.Perm (chunks.map fun c => (c.at_,c.pages))
  inuse : s.inuse = (chunks.map Chunk.used).sum % 2^64
  allocated : s.allocated = (chunks.map Chunk.size).sum % 2^64
  blks : s.blks = chunks.length % 2^64

/-- No byte of a block changes, behind its header. -/
def Bodies (m m' : Store) (chunks : List Chunk) : Prop :=
  ∀ c ∈ chunks, ∀ b ∈ c.blocks, ∀ i, b.at_ + 36 ≤ i → i < b.stop → m' i = m i

theorem Bodies.trans {m m1 m2 : Store} {chunks : List Chunk} (first : Bodies m m1 chunks) (second : Bodies m1 m2 chunks) :
    Bodies m m2 chunks :=
  fun c hc b hb i low high => (second c hc b hb i low high).trans (first c hc b hb i low high)

theorem Bodies.mono {m m' : Store} {chunks chunks' : List Chunk} (bodies : Bodies m m' chunks)
    (fewer : ∀ d ∈ chunks', ∀ b ∈ d.blocks, ∃ c ∈ chunks, b ∈ c.blocks) : Bodies m m' chunks' := by
  intro d hd b hb
  obtain ⟨c,hc,there⟩ := fewer d hd b hb
  exact bodies c hc b there

section Change
variable {s : Liballoc} {chunks ahead behind : List Chunk} {c c' d : Chunk} {m' : Store} {i : Nat}

theorem Liballoc.Holds.other (holds : s.Holds (ahead ++ c :: behind)) (hd : d ∈ ahead ∨ d ∈ behind) :
    c.stop ≤ d.at_ ∨ d.stop ≤ c.at_ := by
  obtain ⟨_,rest,before⟩ := List.pairwise_append.mp holds.apart
  rcases hd with hd | hd
  · exact (before d hd c (List.mem_cons_self ..)).symm
  · exact (List.pairwise_cons.mp rest).1 d hd

theorem Chunk.Valid.body_inside (valid : c.Valid) {b : Blk} (hb : b ∈ c.blocks) (low : b.at_ + 36 ≤ i)
    (high : i < b.stop) : c.at_ ≤ i ∧ i < c.stop := by
  obtain ⟨first,_,last⟩ := valid.order.member hb
  omega

theorem Chunk.Valid.size_pos (valid : c.Valid) : c.at_ + 36 ≤ c.stop ∧ c.at_ + 2097152 ≤ c.stop := by
  have some_ := valid.some_
  have stop := c.stop_eq
  omega

theorem Liballoc.Holds.nodup (holds : s.Holds chunks) : (chunks.map Chunk.at_).Nodup := by
  refine List.pairwise_map.mpr (holds.apart.imp_of_mem fun {c d} hc hd apart => ?_)
  have first := (holds.valid c hc).size_pos
  have second := (holds.valid d hd).size_pos
  omega

theorem Liballoc.Holds.at_pos (holds : s.Holds chunks) (hc : c ∈ chunks) : 0 < c.at_ := by
  have low := (holds.valid c hc).low
  omega

/-- A header of a major outside of the bytes that change. -/
theorem major_outside {m : Store} (valid : d.Valid) (same : ∀ i, d.at_ ≤ i → i < d.stop → m' i = m i) :
    major m' d.at_ = major m d.at_ :=
  major_congr fun i low high => same i low (by have := valid.size_pos; omega)

theorem Chunk.Holds.outside {m : Store} (holds : d.Holds m) (valid : d.Valid)
    (same : ∀ i, d.at_ ≤ i → i < d.stop → m' i = m i) : d.Holds m' :=
  holds.meta fun i own => same i (valid.meta_inside own).1 (valid.meta_inside own).2

theorem Changes.others {m : Store} (changes : Changes m m' c c') (apart : c.stop ≤ d.at_ ∨ d.stop ≤ c.at_)
    (i : Nat) (low : d.at_ ≤ i) (high : i < d.stop) : m' i = m i :=
  changes.outside i (by omega)

theorem Changes.bodies_all (changes : Changes s.mem m' c c') (holds : s.Holds (ahead ++ c :: behind)) :
    Bodies s.mem m' (ahead ++ c :: behind) := by
  intro d hd b hb i low high
  have valid := holds.valid d hd
  have inside := valid.body_inside hb low high
  rcases List.mem_append.mp hd with before | rest
  · exact changes.others (holds.other (.inl before)) i inside.1 inside.2
  · rcases List.mem_cons.mp rest with rfl | after
    · exact changes.bodies b hb i low high
    · exact changes.others (holds.other (.inr after)) i inside.1 inside.2

/-- One chunk changes, at its place in the list. -/
theorem Changes.heap (changes : Changes s.mem m' c c') (holds : s.Holds (ahead ++ c :: behind)) (at_ : c'.at_ = c.at_)
    (pages : c'.pages = c.pages) (inuse : Nat)
    (used : inuse = ((ahead ++ c' :: behind).map Chunk.used).sum % 2^64) :
    ({ s with mem := m', inuse := inuse } : Liballoc).Holds (ahead ++ c' :: behind) := by
  have same : (ahead ++ c' :: behind).map Chunk.at_ = (ahead ++ c :: behind).map Chunk.at_ := by
    simp only [List.map_append,List.map_cons,at_]
  have sizes : (ahead ++ c' :: behind).map Chunk.size = (ahead ++ c :: behind).map Chunk.size := by
    simp only [List.map_append,List.map_cons,Chunk.size,pages]
  have stop : c'.stop = c.stop := by rw [Chunk.stop,Chunk.stop,at_,Chunk.size,Chunk.size,pages]
  have member : c ∈ ahead ++ c :: behind := List.mem_append_right _ (List.mem_cons_self ..)
  have each (d : Chunk) (hd : d ∈ ahead ∨ d ∈ behind) : d.Holds m' ∧ d.Valid := by
    have there : d ∈ ahead ++ c :: behind := mem_beside (List.mem_append.mpr hd)
    have valid := holds.valid d there
    exact ⟨(holds.holds d there).outside valid (changes.others (holds.other hd)),valid⟩
  have all (d : Chunk) (hd : d ∈ ahead ++ c' :: behind) : d.Holds m' ∧ d.Valid := by
    rcases List.mem_append.mp hd with before | rest
    · exact each d (.inl before)
    · rcases List.mem_cons.mp rest with rfl | after
      · exact ⟨changes.holds,changes.valid⟩
      · exact each d (.inr after)
  refine ⟨same ▸ holds.root,?_,fun d hd => (all d hd).1,fun d hd => (all d hd).2,?_,?_,?_,used,?_,?_⟩
  · rw [same]
    refine holds.links.congr fun a ha => ?_
    obtain ⟨d,hd,rfl⟩ := List.mem_map.mp ha
    have top (apart : c.stop ≤ d.at_ ∨ d.stop ≤ c.at_) : major m' d.at_ = major s.mem d.at_ :=
      major_outside (holds.valid d hd) (changes.others apart)
    rcases List.mem_append.mp hd with before | rest
    · rw [top (holds.other (.inl before))]
      exact ⟨rfl,rfl⟩
    · rcases List.mem_cons.mp rest with rfl | after
      · exact ⟨changes.prev,changes.next⟩
      · rw [top (holds.other (.inr after))]
        exact ⟨rfl,rfl⟩
  · obtain ⟨first,rest,before⟩ := List.pairwise_append.mp holds.apart
    obtain ⟨here,last⟩ := List.pairwise_cons.mp rest
    refine List.pairwise_append.mpr ⟨first,List.pairwise_cons.mpr ⟨fun d hd => ?_,last⟩,fun d hd e he => ?_⟩
    · rw [stop,at_]
      exact here d hd
    · rcases List.mem_cons.mp he with rfl | after
      · rw [stop,at_]
        exact before d hd c (List.mem_cons_self ..)
      · exact before d hd e (List.mem_cons_of_mem c after)
  · rcases holds.best with none_ | ⟨d,hd,best⟩
    · exact .inl none_
    · refine .inr ?_
      have there : s.bestBet ∈ (ahead ++ c' :: behind).map Chunk.at_ := same ▸ List.mem_map.mpr ⟨d,hd,best⟩
      exact List.mem_map.mp there
  · refine holds.held.trans (List.Perm.of_eq ?_)
    simp only [List.map_append,List.map_cons,at_,pages]
  · exact holds.allocated.trans (by rw [sizes])
  · rw [holds.blks,List.length_append,List.length_append,List.length_cons,List.length_cons]

end Change

/-- What `obj_heap.c` relies on: `page_find_and_alloc` returns null or pages that are in no run
that is held, and does not write to these. -/
structure Serves (page : Store → Nat → Store × Nat) (m : Store) (held : List (Nat × Nat)) : Prop where
  kept : ∀ n, ∀ h ∈ held, ∀ i, h.1 ≤ i → i < h.1 + h.2 * 2097152 → (page m n).1 i = m i
  fresh : ∀ n, (page m n).2 ≠ 0 → 0x200000 ≤ (page m n).2 ∧ (page m n).2 + n * 2097152 ≤ 2^64 ∧
    ∀ h ∈ held, h.1 + h.2 * 2097152 ≤ (page m n).2 ∨ (page m n).2 + n * 2097152 ≤ h.1

/-- How many pages `allocate_new_page` asks for. -/
def pagesFor (size : Nat) : Nat := (size + 72 + 2097151) / 2097152

section Set
variable {a x v i : Nat}

theorem Liballoc.major_setNext (s : Liballoc) (small : v < 2^64) (apart : Same36 a x) :
    major (s.setMajor x fun j => { j with next := v }).mem a =
      { major s.mem a with next := if a = x then v else (major s.mem a).next } :=
  ObjHeap.major_setNext small apart

theorem Liballoc.major_setPrev (s : Liballoc) (small : v < 2^64) (apart : Same36 a x) :
    major (s.setMajor x fun j => { j with prev := v }).mem a =
      { major s.mem a with prev := if a = x then v else (major s.mem a).prev } :=
  ObjHeap.major_setPrev small apart

theorem Liballoc.setMajor_apart (s : Liballoc) (f : Major → Major) (apart : i < x ∨ x + 36 ≤ i) :
    (s.setMajor x f).mem i = s.mem i :=
  storeMajor_apart _ apart

end Set

section Grow
variable {page : Store → Nat → Store × Nat} {s : Liballoc} {chunks ahead : List Chunk} {c d : Chunk}
  {size a n : Nat} {m m' : Store}

theorem allocateNewPage_eq (small : size + 72 ≤ 2047 * 2097152) : allocateNewPage page s size =
    let r := page s.mem (pagesFor size)
    if r.2 = 0 then
      ({ s with mem := r.1, blks := (s.blks + 1) % 2^64, warningCount := s.warningCount + 1 },0)
    else
      ({ s with
          mem := storeMajor r.1 r.2 ⟨0,0,pagesFor size,pagesFor size * 2097152,36,0⟩
          blks := (s.blks + 1) % 2^64
          held := (r.2,pagesFor size) :: s.held
          allocated := (s.allocated + pagesFor size * 2097152) % 2^64 },r.2) := by
  have sum : ((size + 36) % 2^32 + 36) % 2^32 = size + 72 := by omega
  have count : (if (size + 72) % 2097152 = 0 then (size + 72) / 2097152 else (size + 72) / 2097152 + 1) =
      pagesFor size := by
    rw [pagesFor]
    split <;> omega
  have some_ : ¬pagesFor size < 1 := by
    rw [pagesFor]
    omega
  have few : pagesFor size * 2097152 % 2^32 = pagesFor size * 2097152 := by
    rw [pagesFor]
    omega
  rw [allocateNewPage]
  dsimp only
  rw [sum,count,if_neg some_,liballocAlloc]
  dsimp only
  by_cases none_ : (page s.mem (pagesFor size)).2 = 0
  · rw [if_pos none_,if_pos none_,if_pos none_]
  · rw [if_neg none_,if_neg none_,if_neg none_,few]

/-- The pages that come, before there is a block in them. -/
def newChunk (page : Store → Nat → Store × Nat) (m : Store) (size : Nat) : Chunk :=
  ⟨(page m (pagesFor size)).2,pagesFor size,[]⟩

@[simp] theorem newChunk_at : (newChunk page m size).at_ = (page m (pagesFor size)).2 := rfl
@[simp] theorem newChunk_pages : (newChunk page m size).pages = pagesFor size := rfl
@[simp] theorem newChunk_blocks : (newChunk page m size).blocks = [] := rfl

theorem newChunk_stop (page : Store → Nat → Store × Nat) (m : Store) (size : Nat) :
    (newChunk page m size).stop = (page m (pagesFor size)).2 + pagesFor size * 2097152 :=
  Chunk.stop_eq _

theorem newChunk_valid (serves : Serves page s.mem s.held) (small : size + 72 ≤ 2047 * 2097152)
    (come : (page s.mem (pagesFor size)).2 ≠ 0) : (newChunk page s.mem size).Valid := by
  obtain ⟨low,high,_⟩ := serves.fresh _ come
  have stop := newChunk_stop page s.mem size
  have some_ : 1 ≤ pagesFor size := by
    rw [pagesFor]
    omega
  have few : pagesFor size ≤ 2047 := by
    rw [pagesFor]
    omega
  rw [← stop] at high
  refine ⟨?_,fun _ member => (nomatch member),some_,few,low,high⟩
  rw [newChunk_blocks,Within,newChunk_at]
  omega

theorem newChunk_holds {prev next : Nat}
    (header : major m (newChunk page s.mem size).at_ = ⟨prev,next,pagesFor size,pagesFor size * 2097152,36,0⟩) :
    (newChunk page s.mem size).Holds m where
  pages := by rw [header,newChunk_pages]
  size := by rw [header,Chunk.size,newChunk_pages]
  usage := by
    rw [header,Chunk.usage,newChunk_blocks,List.map_nil,List.sum_nil,Nat.add_zero]
  first := by rw [header,newChunk_blocks,List.map_nil,List.headD_nil]
  links := trivial
  blocks _ member := nomatch member

/-- The room in them. -/
theorem newChunk_fits (page : Store → Nat → Store × Nat) (m : Store) (size : Nat) :
    (newChunk page m size).Fits size [] [] := by
  have room : size + 72 ≤ pagesFor size * 2097152 := by
    rw [pagesFor]
    omega
  refine ⟨rfl,?_⟩
  rw [edge_nil,head_nil,newChunk_stop,newChunk_at]
  omega

theorem Liballoc.Holds.run_held (holds : s.Holds chunks) (hc : c ∈ chunks) : (c.at_,c.pages) ∈ s.held :=
  holds.held.mem_iff.mpr (List.mem_map.mpr ⟨c,hc,rfl⟩)

theorem Liballoc.Holds.page_kept (holds : s.Holds chunks) (serves : Serves page s.mem s.held) (hc : c ∈ chunks)
    {i : Nat} (low : c.at_ ≤ i) (high : i < c.stop) (n : Nat) : (page s.mem n).1 i = s.mem i := by
  rw [Chunk.stop_eq] at high
  exact serves.kept n _ (holds.run_held hc) i low high

theorem newChunk_apart (holds : s.Holds chunks) (serves : Serves page s.mem s.held)
    (come : (page s.mem (pagesFor size)).2 ≠ 0) (hc : c ∈ chunks) :
    c.stop ≤ (newChunk page s.mem size).at_ ∨ (newChunk page s.mem size).stop ≤ c.at_ := by
  rw [newChunk_stop,Chunk.stop_eq c,newChunk_at]
  exact (serves.fresh _ come).2.2 _ (holds.run_held hc)

/-- The blocks of a chunk do not depend on the links of its major. -/
theorem Chunk.Holds.relink (holds : d.Holds m) (valid : d.Valid)
    (same : ∀ i, d.at_ + 36 ≤ i → i < d.stop → m' i = m i) {prev next : Nat}
    (header : major m' d.at_ = { major m d.at_ with prev := prev, next := next }) : d.Holds m' := by
  apply holds.congr
  · rw [header]
  · rw [header]
  · rw [header]
  · rw [header]
  · intro b hb
    obtain ⟨first,_,last⟩ := valid.order.member hb
    rw [Blk.stop] at last
    exact minor_congr fun i low high => same i (by omega) (by omega)
  · intro b hb
    obtain ⟨first,_,last⟩ := valid.order.member hb
    have bounds := b.ptr_bounds
    have room := valid.room b hb
    rw [Blk.stop] at last
    exact same _ (by omega) (by omega)

theorem Same36.of_apart (first : d.Valid) (second : c.Valid) (apart : c.stop ≤ d.at_ ∨ d.stop ≤ c.at_) :
    d.at_ + 36 ≤ c.at_ ∨ c.at_ + 36 ≤ d.at_ := by
  have one := first.size_pos
  have two := second.size_pos
  omega

/-- One more run of pages, linked behind the last one. -/
def grown (page : Store → Nat → Store × Nat) (s : Liballoc) (size maj : Nat) : Liballoc :=
  ((allocateNewPage page s size).1.setMajor maj fun j =>
      { j with next := (page s.mem (pagesFor size)).2 }).setMajor (page s.mem (pagesFor size)).2 fun j =>
    { j with prev := maj }

/-- What growth leaves of the memory. -/
structure Grown (page : Store → Nat → Store × Nat) (s : Liballoc) (size : Nat) (c : Chunk) (chunks : List Chunk)
    (m' : Store) : Prop where
  new : major m' (newChunk page s.mem size).at_ = ⟨c.at_,0,pagesFor size,pagesFor size * 2097152,36,0⟩
  last : major m' c.at_ = { major s.mem c.at_ with next := (newChunk page s.mem size).at_ }
  bytes : ∀ d ∈ chunks, ∀ i, d.at_ ≤ i → i < d.stop → (i < c.at_ ∨ c.at_ + 36 ≤ i) → m' i = s.mem i

theorem grown_memory (holds : s.Holds chunks) (hc : c ∈ chunks) (serves : Serves page s.mem s.held)
    (small : size + 72 ≤ 2047 * 2097152) (come : (page s.mem (pagesFor size)).2 ≠ 0) :
    Grown page s size c chunks (grown page s size c.at_).mem := by
  have validN := newChunk_valid serves small come
  have apart (d : Chunk) (hd : d ∈ chunks) := newChunk_apart holds serves come hd
  have kept (d : Chunk) (hd : d ∈ chunks) (i : Nat) (low : d.at_ ≤ i) (high : i < d.stop) :=
    holds.page_kept serves hd low high (pagesFor size)
  have base : (allocateNewPage page s size).1.mem = storeMajor (page s.mem (pagesFor size)).1
      (newChunk page s.mem size).at_ ⟨0,0,pagesFor size,pagesFor size * 2097152,36,0⟩ := by
    rw [allocateNewPage_eq small,newChunk_at]
    dsimp only
    rw [if_neg come]
  have few := validN.few
  have high := validN.high
  have sizes := validN.size_pos
  rw [newChunk_pages] at few
  rw [grown,← newChunk_at]
  generalize (allocateNewPage page s size).1 = t at *
  have valid := holds.valid c hc
  have between := Same36.of_apart validN valid (apart c hc)
  have between' := Same36.of_apart valid validN (apart c hc).symm
  have low (d : Chunk) (hd : d ∈ chunks) : d.at_ < 2^64 := by
    have fits := (holds.valid d hd).size_pos
    have limit := (holds.valid d hd).high
    omega
  have first : major t.mem (newChunk page s.mem size).at_ = ⟨0,0,pagesFor size,pagesFor size * 2097152,36,0⟩ := by
    have one : pagesFor size % 2^32 = pagesFor size := Nat.mod_eq_of_lt (by omega)
    have two : pagesFor size * 2097152 % 2^32 = pagesFor size * 2097152 := Nat.mod_eq_of_lt (by omega)
    rw [base,major_store,Major.clip]
    dsimp only
    rw [one,two,Nat.zero_mod,Nat.mod_eq_of_lt (show 36 < 2^32 by decide)]
  refine ⟨?_,?_,fun d hd i low_ high_ away => ?_⟩
  · rw [Liballoc.major_setPrev _ (low c hc) (.inl rfl),if_pos rfl,
      Liballoc.major_setNext _ (by omega) (.inr between),first,if_neg (by omega)]
  · rw [Liballoc.major_setPrev _ (low c hc) (.inr between'),if_neg (by omega),
      Liballoc.major_setNext _ (by omega) (.inl rfl),if_pos rfl,base,major_storeMajor _ between',
      major_outside valid (kept c hc)]
  · have inside := apart d hd
    rw [Liballoc.setMajor_apart _ _ (by omega),Liballoc.setMajor_apart _ _ away,base,storeMajor_apart _ (by omega),
      kept d hd i low_ high_]

/-- The heap with another run of pages. -/
theorem grown_holds (holds : s.Holds (ahead ++ [c])) (serves : Serves page s.mem s.held)
    (small : size + 72 ≤ 2047 * 2097152) (come : (page s.mem (pagesFor size)).2 ≠ 0) :
    (grown page s size c.at_).Holds (ahead ++ [c] ++ [newChunk page s.mem size]) ∧
      Bodies s.mem (grown page s size c.at_).mem (ahead ++ [c]) := by
  have hc : c ∈ ahead ++ [c] := List.mem_append_right _ (List.mem_singleton_self c)
  obtain ⟨new,last,bytes⟩ := grown_memory holds hc serves small come
  have validN := newChunk_valid serves small come
  have apart (d : Chunk) (hd : d ∈ ahead ++ [c]) := newChunk_apart holds serves come hd
  have nodup := holds.nodup
  have state : (grown page s size c.at_).memRoot = s.memRoot ∧ (grown page s size c.at_).bestBet = s.bestBet ∧
      (grown page s size c.at_).inuse = s.inuse ∧
      (grown page s size c.at_).held = ((newChunk page s.mem size).at_,pagesFor size) :: s.held ∧
      (grown page s size c.at_).blks = (s.blks + 1) % 2^64 ∧
      (grown page s size c.at_).allocated = (s.allocated + pagesFor size * 2097152) % 2^64 := by
    rw [grown,allocateNewPage_eq small]
    dsimp only
    rw [if_neg come]
    simp only [Liballoc.setMajor,newChunk_at,and_self]
  obtain ⟨root,best,inuse,held,blks,allocated⟩ := state
  have others (d : Chunk) (hd : d ∈ ahead) (i : Nat) (low : d.at_ ≤ i) (high : i < d.stop) :
      (grown page s size c.at_).mem i = s.mem i := by
    have between := holds.other (d := d) (.inl hd)
    have sizes := (holds.valid c hc).size_pos
    exact bytes d (List.mem_append_left _ hd) i low high (by omega)
  have each (d : Chunk) (hd : d ∈ ahead ++ [c]) : d.Holds (grown page s size c.at_).mem := by
    have valid := holds.valid d hd
    rcases List.mem_append.mp hd with before | here
    · exact (holds.holds d hd).outside valid (others d before)
    · obtain rfl := List.mem_singleton.mp here
      have sizes := valid.size_pos
      exact (holds.holds d hd).relink valid (fun i low high => bytes d hd i (by omega) high (.inr low)) last
  have sums (f : Chunk → Nat) : ((ahead ++ [c] ++ [newChunk page s.mem size]).map f).sum =
      ((ahead ++ [c]).map f).sum + f (newChunk page s.mem size) := by
    rw [List.map_append,List.sum_append,List.map_singleton,List.sum_singleton]
  refine ⟨⟨?_,?_,?_,?_,?_,?_,?_,?_,?_,?_⟩,?_⟩
  · rw [root,holds.root]
    cases ahead <;> rfl
  · have chain := holds.links
    have sets : Sets (fun a => (major s.mem a).prev) (fun a => (major s.mem a).next)
        (fun a => (major (grown page s size c.at_).mem a).prev) (fun a => (major (grown page s size c.at_).mem a).next)
        ((ahead ++ [c]).map Chunk.at_) [] (newChunk page s.mem size).at_ (newChunk page s.mem size).at_ := by
      refine ⟨fun a ha => .inl ?_,fun a ha => ?_,fun a none_ => absurd none_ (Option.some_ne_none a).symm,
        fun a there => ?_⟩
      · rw [List.append_nil] at ha
        obtain ⟨d,hd,rfl⟩ := List.mem_map.mp ha
        rcases List.mem_append.mp hd with before | here
        · rw [major_outside (holds.valid d hd) (others d before)]
        · obtain rfl := List.mem_singleton.mp here
          rw [last]
      · rw [List.append_nil] at ha
        obtain ⟨d,hd,rfl⟩ := List.mem_map.mp ha
        rcases List.mem_append.mp hd with before | here
        · rw [major_outside (holds.valid d hd) (others d before)]
          exact .inl rfl
        · obtain rfl := List.mem_singleton.mp here
          rw [List.map_append,List.map_singleton,List.getLast?_concat]
          exact .inr rfl
      · rw [List.map_append,List.map_singleton,List.getLast?_concat] at there
        obtain rfl := Option.some.inj there
        rw [last]
    have split : (ahead ++ [c] ++ [newChunk page s.mem size]).map Chunk.at_ =
        (ahead ++ [c]).map Chunk.at_ ++ [(newChunk page s.mem size).at_] := List.map_append
    rw [split]
    refine Linked.insert_sets (by rwa [List.append_nil]) (by rwa [List.append_nil]) sets ?_ ?_
    · rw [new,List.map_append,List.map_singleton,List.getLastD_concat]
    · rw [new]
      rfl
  · intro d hd
    rcases List.mem_append.mp hd with old | here
    · exact each d old
    · obtain rfl := List.mem_singleton.mp here
      exact newChunk_holds new
  · intro d hd
    rcases List.mem_append.mp hd with old | here
    · exact holds.valid d old
    · obtain rfl := List.mem_singleton.mp here
      exact validN
  · refine List.pairwise_append.mpr ⟨holds.apart,List.pairwise_singleton ..,fun d hd e he => ?_⟩
    obtain rfl := List.mem_singleton.mp he
    exact apart d hd
  · rw [best]
    rcases holds.best with none_ | ⟨d,hd,same⟩
    · exact .inl none_
    · exact .inr ⟨d,List.mem_append_left _ hd,same⟩
  · rw [held,List.map_append,List.map_singleton]
    exact (List.Perm.cons _ holds.held).trans (List.perm_append_singleton ..).symm
  · rw [inuse,holds.inuse,sums,show (newChunk page s.mem size).used = 0 from rfl,Nat.add_zero]
  · rw [allocated,holds.allocated,sums,Chunk.size.eq_def (newChunk page s.mem size),newChunk_pages]
    omega
  · have longer : (ahead ++ [c] ++ [newChunk page s.mem size]).length = (ahead ++ [c]).length + 1 :=
      List.length_append
    rw [blks,holds.blks,longer]
    omega
  · intro d hd b hb i low high
    obtain ⟨first,_,_⟩ := (holds.valid d hd).order.member hb
    have inside := (holds.valid d hd).body_inside hb low high
    rcases List.mem_append.mp hd with before | here
    · exact others d before i inside.1 inside.2
    · obtain rfl := List.mem_singleton.mp here
      exact bytes d hd i inside.1 inside.2 (by omega)

end Grow

end Siegfried.ObjHeap
