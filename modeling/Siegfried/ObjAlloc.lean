import Siegfried.ObjMajors

/-! `k_obj_alloc` on the whole heap: it takes a gap of some chunk, or new pages where there is none. -/
namespace Siegfried.ObjHeap
open Bytes Links Intervals

/-- The block of that size at a place. -/
def Chunk.new (c : Chunk) (front : List Blk) (size req : Nat) : Blk :=
  ⟨edge Blk.stop (c.at_ + 36) front,size,req⟩

/-- `CASE 2`, `CASE 3` and `CASE 4` at a place. -/
def Chunk.put (c : Chunk) (s : Liballoc) (front back : List Blk) (size req : Nat) : Liballoc × Nat :=
  inserted s c.at_ size req (edge Blk.stop (c.at_ + 36) front) (prevOf front) (nextOf back)

/-- No place in the chunk is large enough. -/
def Chunk.Full (c : Chunk) (size : Nat) : Prop := ∀ front back, ¬c.Fits size front back

/-- Outside of these chunks no byte changes. -/
def Stays (m m' : Store) (chunks : List Chunk) : Prop := ∀ i, (∀ c ∈ chunks, i < c.at_ ∨ c.stop ≤ i) → m' i = m i

/-- What a call leaves: the block is in a gap of a chunk, or it is the first in new pages, as no
chunk has a gap for it. -/
inductive Placed (page : Store → Nat → Store × Nat) (m : Store) (s' : Liballoc) (chunks : List Chunk)
    (size req : Nat) : Blk → List Chunk → Prop where
  | gap (ahead : List Chunk) (c : Chunk) (behind : List Chunk) (front back : List Blk)
      (split : chunks = ahead ++ c :: behind) (fits : c.Fits size front back)
      (holds : s'.Holds (ahead ++ c.add front back size req :: behind)) (bodies : Bodies m s'.mem chunks)
      (outside : Stays m s'.mem chunks) :
      Placed page m s' chunks size req (c.new front size req) (ahead ++ c.add front back size req :: behind)
  | grown (full : ∀ c ∈ chunks, c.Full size) (come : (page m (pagesFor size)).2 ≠ 0)
      (holds : s'.Holds (chunks ++ [(newChunk page m size).add [] [] size req]))
      (bodies : Bodies m s'.mem chunks)
      (outside : Stays (page m (pagesFor size)).1 s'.mem (chunks ++ [newChunk page m size])) :
      Placed page m s' chunks size req ((newChunk page m size).new [] size req)
        (chunks ++ [(newChunk page m size).add [] [] size req])

/-- How the loop ends: with a block, or without one where there is no gap and no page. -/
inductive Ends (page : Store → Nat → Store × Nat) (m : Store) (chunks : List Chunk) (size req : Nat) :
    Option (Liballoc × Nat) → Prop where
  | placed {s' : Liballoc} {b : Blk} {chunks' : List Chunk} (placed : Placed page m s' chunks size req b chunks') :
      Ends page m chunks size req (some (s',b.ptr))
  | out (full : ∀ c ∈ chunks, c.Full size) (none_ : (page m (pagesFor size)).2 = 0) :
      Ends page m chunks size req none

/-- The heap, and a request that it can serve. -/
structure Asked (page : Store → Nat → Store × Nat) (s : Liballoc) (chunks : List Chunk) (size req : Nat) :
    Prop where
  holds : s.Holds chunks
  serves : Serves page s.mem s.held
  small : size + 72 ≤ 2047 * 2097152
  room : req + 144 ≤ size
  fresh : ∀ c ∈ chunks, c.blocks = [] → size + 72 ≤ c.size

section Put
variable {page : Store → Nat → Store × Nat} {s : Liballoc} {chunks ahead behind : List Chunk} {c : Chunk}
  {size req maj best diff b : Nat} {front back : List Blk}

theorem Liballoc.Holds.bet (holds : s.Holds chunks) (valid : b = 0 ∨ ∃ c ∈ chunks, c.at_ = b) :
    ({ s with bestBet := b } : Liballoc).Holds chunks :=
  ⟨holds.root,holds.links,holds.holds,holds.valid,holds.apart,valid,holds.held,holds.inuse,holds.allocated,holds.blks⟩

theorem Asked.bet (asked : Asked page s chunks size req) (valid : b = 0 ∨ ∃ c ∈ chunks, c.at_ = b) :
    Asked page { s with bestBet := b } chunks size req :=
  ⟨asked.holds.bet valid,asked.serves,asked.small,asked.room,asked.fresh⟩

theorem Asked.large (asked : Asked page s chunks size req) : 144 ≤ size := by
  have room := asked.room
  omega

theorem remember_eq (holds : s.Holds chunks) (hc : c ∈ chunks) (diff best : Nat) :
    ∃ b best', (b = 0 ∨ ∃ d ∈ chunks, d.at_ = b) ∧ remember s c.at_ diff best = ({ s with bestBet := b },best') := by
  rw [remember]
  by_cases more : best < diff
  · exact ⟨c.at_,diff,.inr ⟨c,hc,rfl⟩,if_pos more⟩
  · exact ⟨s.bestBet,best,holds.best,if_neg more⟩

/-- A block in a gap of a chunk. -/
theorem put_holds (holds : s.Holds (ahead ++ c :: behind)) (fits : c.Fits size front back) (room : req + 144 ≤ size) :
    (c.put s front back size req).2 = (c.new front size req).ptr ∧
    (c.put s front back size req).1.Holds (ahead ++ c.add front back size req :: behind) ∧
      Bodies s.mem (c.put s front back size req).1.mem (ahead ++ c :: behind) ∧
      Stays s.mem (c.put s front back size req).1.mem (ahead ++ c :: behind) := by
  have hc : c ∈ ahead ++ c :: behind := List.mem_append_right _ (List.mem_cons_self ..)
  have changes := fits.changes (holds.holds c hc) (holds.valid c hc) room
  have same : c.put s front back size req = _ :=
    inserted_eq s c.at_ (prevOf front) (nextOf back) (c.new front size req)
  rw [same]
  refine ⟨rfl,changes.heap holds rfl rfl _ ?_,changes.bodies_all holds,fun i away => changes.outside i (away c hc)⟩
  have used : (c.add front back size req).used = c.used + size := by
    rw [Chunk.used,Chunk.used,Chunk.add,fits.split]
    simp only [List.map_append,List.map_cons,List.sum_append,List.sum_cons]
    omega
  rw [holds.inuse]
  simp only [List.map_append,List.map_cons,List.sum_append,List.sum_cons,used]
  rw [show (c.new front size req).size = size from rfl]
  omega

/-- A block that fits is no larger than what is free in the chunk. -/
theorem Chunk.Fits.free_size {m : Store} (fits : c.Fits size front back) (holds : c.Holds m) (valid : c.Valid)
    (large : 144 ≤ size) : size + 36 ≤ sub32 (major m c.at_).size (major m c.at_).usage := by
  have grown : (c.add front back size 0).Valid := fits.add_valid valid (by omega)
  have added := grown.usage_le
  have counted : (c.add front back size 0).usage = c.usage + size + 36 := by
    rw [Chunk.usage,Chunk.usage,Chunk.add,fits.split]
    simp only [List.map_append,List.map_cons,List.sum_append,List.sum_cons]
    omega
  change (c.add front back size 0).usage ≤ c.size at added
  have limit := valid.size_lt
  rw [holds.size,holds.usage,sub32]
  omega

theorem appendNewPage_none (small : size + 72 ≤ 2047 * 2097152) (none_ : (page s.mem (pagesFor size)).2 = 0) :
    (appendNewPage page s maj size).2 = 0 := by
  rw [appendNewPage,allocateNewPage_eq small]
  dsimp only
  rw [if_pos none_]

theorem appendNewPage_some (small : size + 72 ≤ 2047 * 2097152) (come : (page s.mem (pagesFor size)).2 ≠ 0) :
    appendNewPage page s maj size = (grown page s size maj,(newChunk page s.mem size).at_) := by
  rw [appendNewPage,grown,allocateNewPage_eq small]
  dsimp only
  rw [if_neg come]
  dsimp only
  rw [if_neg come]
  rfl

/-- A turn at a chunk with a gap. -/
theorem place_gap (asked : Asked page s (ahead ++ c :: behind) size req) {fuel : Nat}
    (enough : c.blocks.length + 1 ≤ fuel) :
    (∃ s' b chunks', place s c.at_ size req fuel = some (some (s',b.ptr)) ∧
        Placed page s.mem s' (ahead ++ c :: behind) size req b chunks') ∨
      place s c.at_ size req fuel = some none ∧ c.Full size := by
  have hc : c ∈ ahead ++ c :: behind := List.mem_append_right _ (List.mem_cons_self ..)
  rcases place_spec (asked.holds.holds c hc) (asked.holds.valid c hc) enough (asked.fresh c hc) with
    ⟨front,back,fits,found⟩ | ⟨none_,full⟩
  · obtain ⟨ptr,holds,bodies,outside⟩ := put_holds asked.holds fits asked.room
    have result : place s c.at_ size req fuel = some (some (c.put s front back size req)) := found
    rw [show c.put s front back size req = ((c.put s front back size req).1,(c.new front size req).ptr) from
      Prod.ext rfl ptr] at result
    exact .inl ⟨_,_,_,result,.gap ahead c behind front back rfl fits holds bodies outside⟩
  · exact .inr ⟨none_,full⟩

/-- A turn at the new pages. -/
theorem place_new {s1 : Liballoc} {fuel : Nat} (asked : Asked page s chunks size req)
    (full : ∀ c ∈ chunks, c.Full size) (come : (page s.mem (pagesFor size)).2 ≠ 0)
    (holds : s1.Holds (chunks ++ [newChunk page s.mem size])) (bodies : Bodies s.mem s1.mem chunks)
    (outside : Stays (page s.mem (pagesFor size)).1 s1.mem (chunks ++ [newChunk page s.mem size])) (enough : 1 ≤ fuel) :
    ∃ s' b chunks', place s1 (newChunk page s.mem size).at_ size req fuel = some (some (s',b.ptr)) ∧
      Placed page s.mem s' chunks size req b chunks' := by
  have hn : newChunk page s.mem size ∈ chunks ++ [newChunk page s.mem size] :=
    List.mem_append_right _ (List.mem_singleton_self _)
  have room : size + 72 ≤ (newChunk page s.mem size).size := by
    rw [Chunk.size,newChunk_pages,pagesFor]
    omega
  rcases place_spec (holds.holds _ hn) (holds.valid _ hn) enough (fun _ => room) with
    ⟨front,back,fits,found⟩ | ⟨_,none_⟩
  · obtain ⟨rfl,rfl⟩ := List.append_eq_nil_iff.mp fits.split.symm
    obtain ⟨ptr,after,same,stays⟩ := put_holds (holds : s1.Holds (chunks ++ newChunk page s.mem size :: [])) fits asked.room
    refine ⟨((newChunk page s.mem size).put s1 [] [] size req).1,_,_,?_,.grown full come after ?_ ?_⟩
    · rw [← ptr]
      exact found
    · intro c hc b hb i low high
      exact (same c (List.mem_append_left _ hc) b hb i low high).trans (bodies c hc b hb i low high)
    · exact fun i away => (stays i away).trans (outside i away)
  · exact absurd (newChunk_fits page s.mem size) (none_ [] [])

/-- Growth stores to the headers of two majors. -/
theorem grown_stays (holds : s.Holds chunks) (hc : c ∈ chunks) (serves : Serves page s.mem s.held)
    (small : size + 72 ≤ 2047 * 2097152) (come : (page s.mem (pagesFor size)).2 ≠ 0) :
    Stays (page s.mem (pagesFor size)).1 (grown page s size c.at_).mem (chunks ++ [newChunk page s.mem size]) := by
  intro i away
  have last := away c (List.mem_append_left _ hc)
  have new := away _ (List.mem_append_right _ (List.mem_singleton_self _))
  have sizes := (holds.valid c hc).size_pos
  have sizes' := (newChunk_valid serves small come).size_pos
  rw [newChunk_at] at new sizes'
  have base : (allocateNewPage page s size).1.mem = storeMajor (page s.mem (pagesFor size)).1
      (page s.mem (pagesFor size)).2 ⟨0,0,pagesFor size,pagesFor size * 2097152,36,0⟩ := by
    rw [allocateNewPage_eq small]
    dsimp only
    rw [if_neg come]
  rw [grown,Liballoc.setMajor_apart _ _ (by omega),Liballoc.setMajor_apart _ _ (by omega),base,storeMajor_apart _ (by omega)]

/-- The new pages, linked behind the last chunk. -/
theorem grown_asked (asked : Asked page s (ahead ++ [c]) size req) (come : (page s.mem (pagesFor size)).2 ≠ 0)
    (valid : b = 0 ∨ ∃ e ∈ ahead ++ [c], e.at_ = b) :
    (grown page { s with bestBet := b } size c.at_).Holds (ahead ++ [c] ++ [newChunk page s.mem size]) ∧
      Bodies s.mem (grown page { s with bestBet := b } size c.at_).mem (ahead ++ [c]) ∧
      Stays (page s.mem (pagesFor size)).1 (grown page { s with bestBet := b } size c.at_).mem
        (ahead ++ [c] ++ [newChunk page s.mem size]) := by
  have hc : c ∈ ahead ++ [c] := List.mem_append_right _ (List.mem_singleton_self c)
  have bet := (asked.bet valid).holds
  obtain ⟨holds,bodies⟩ := grown_holds bet asked.serves asked.small come
  have outside := grown_stays bet hc asked.serves asked.small come
  dsimp only at outside
  exact ⟨holds,bodies,outside⟩

/-- The turn at the new pages is the last one. -/
theorem turn_new {s1 : Liballoc} {fuel : Nat} (best : Nat) (asked : Asked page s chunks size req)
    (full : ∀ c ∈ chunks, c.Full size) (come : (page s.mem (pagesFor size)).2 ≠ 0)
    (holds : s1.Holds (chunks ++ [newChunk page s.mem size])) (bodies : Bodies s.mem s1.mem chunks)
    (outside : Stays (page s.mem (pagesFor size)).1 s1.mem (chunks ++ [newChunk page s.mem size])) (enough : 1 ≤ fuel) :
    ∃ s' b chunks', allocLoop page size req (fuel + 1) s1 (newChunk page s.mem size).at_ false best = some (s',b.ptr) ∧
      Placed page s.mem s' chunks size req b chunks' := by
  have hn : newChunk page s.mem size ∈ chunks ++ [newChunk page s.mem size] :=
    List.mem_append_right _ (List.mem_singleton_self _)
  have fits := newChunk_fits page s.mem size
  have room := fits.free_size (holds.holds _ hn) (holds.valid _ hn) asked.large
  obtain ⟨bet,best',valid,same⟩ := remember_eq holds hn
    (sub32 (major s1.mem (newChunk page s.mem size).at_).size (major s1.mem (newChunk page s.mem size).at_).usage) best
  obtain ⟨s',b,chunks',found,placed⟩ := place_new asked full come (holds.bet valid) bodies outside enough
  refine ⟨s',b,chunks',?_,placed⟩
  rw [allocLoop,turn,same,tryMajor,if_neg (Nat.not_lt.mpr room),tryBlock,if_neg (Nat.ne_of_gt (holds.at_pos hn)),
    found]

/-- A turn of the loop over the majors. -/
inductive Turn (page : Store → Nat → Store × Nat) (s : Liballoc) (ahead : List Chunk) (c : Chunk)
    (behind : List Chunk) (size req fuel : Nat) (started : Bool) : Option (Liballoc × Nat) → Prop where
  | placed {s' : Liballoc} {b : Blk} {chunks' : List Chunk}
      (placed : Placed page s.mem s' (ahead ++ c :: behind) size req b chunks') :
      Turn page s ahead c behind size req fuel started (some (s',b.ptr))
  | next (d : Chunk) (rest : List Chunk) (split : behind = d :: rest) (full : c.Full size) (bet best : Nat)
      (valid : bet = 0 ∨ ∃ e ∈ ahead ++ c :: behind, e.at_ = bet) :
      Turn page s ahead c behind size req fuel started
        (allocLoop page size req fuel { s with bestBet := bet } d.at_ started best)
  | again (last : behind = []) (bet_ : started = true) (bet best : Nat)
      (valid : bet = 0 ∨ ∃ e ∈ ahead ++ c :: behind, e.at_ = bet) :
      Turn page s ahead c behind size req fuel started
        (allocLoop page size req fuel { s with bestBet := bet } s.memRoot false best)
  | out (last : behind = []) (scan : started = false) (full : c.Full size)
      (none_ : (page s.mem (pagesFor size)).2 = 0) : Turn page s ahead c behind size req fuel started none

theorem nodes_next (holds : s.Holds (ahead ++ c :: behind)) :
    (major s.mem c.at_).next = (behind.map Chunk.at_).headD 0 := by
  have links := holds.links
  rw [List.map_append,List.map_cons] at links
  exact links.node.2

/-- What the loop does with the last chunk when nothing in the heap is large enough. -/
theorem turn_last {bet : Nat} (fuel : Nat) (asked : Asked page s (ahead ++ [c]) size req)
    (full : ∀ d ∈ ahead ++ [c], d.Full size) (valid : bet = 0 ∨ ∃ e ∈ ahead ++ [c], e.at_ = bet) :
    (page s.mem (pagesFor size)).2 = 0 ∧ (appendNewPage page { s with bestBet := bet } c.at_ size).2 = 0 ∨
      (page s.mem (pagesFor size)).2 ≠ 0 ∧ ∃ s1, appendNewPage page { s with bestBet := bet } c.at_ size =
        (s1,(newChunk page s.mem size).at_) ∧ (newChunk page s.mem size).at_ ≠ 0 ∧
        (1 ≤ fuel → ∃ s' b chunks', place s1 (newChunk page s.mem size).at_ size req fuel = some (some (s',b.ptr)) ∧
          Placed page s.mem s' (ahead ++ [c]) size req b chunks') ∧
        ∀ fuel' best, fuel = fuel' + 1 → 1 ≤ fuel' → ∃ s' b chunks',
          allocLoop page size req fuel s1 (newChunk page s.mem size).at_ false best = some (s',b.ptr) ∧
          Placed page s.mem s' (ahead ++ [c]) size req b chunks' := by
  by_cases come : (page s.mem (pagesFor size)).2 = 0
  · exact .inl ⟨come,appendNewPage_none asked.small come⟩
  · obtain ⟨holds,bodies,outside⟩ := grown_asked asked come valid
    refine .inr ⟨come,_,appendNewPage_some asked.small come,come,place_new asked full come holds bodies outside,
      fun fuel' best same enough => ?_⟩
    obtain rfl := same
    exact turn_new best asked full come holds bodies outside enough

theorem turn_spec {fuel : Nat} (started : Bool) (best : Nat) (asked : Asked page s (ahead ++ c :: behind) size req)
    (scanned : started = false → ∀ d ∈ ahead, d.Full size) (enough : c.blocks.length + 2 ≤ fuel) :
    Turn page s ahead c behind size req fuel started (allocLoop page size req (fuel + 1) s c.at_ started best) := by
  have hc : c ∈ ahead ++ c :: behind := List.mem_append_right _ (List.mem_cons_self ..)
  have next := nodes_next asked.holds
  have some_ := Nat.ne_of_gt (asked.holds.at_pos hc)
  have later (d : Chunk) (rest : List Chunk) (split : behind = d :: rest) : d.at_ ≠ 0 :=
    Nat.ne_of_gt (asked.holds.at_pos (List.mem_append_right _ (by rw [split]; simp)))
  obtain ⟨bet,best',valid,same⟩ := remember_eq asked.holds hc
    (sub32 (major s.mem c.at_).size (major s.mem c.at_).usage) best
  have asked' := asked.bet valid
  have all (scan : started = false) (full : c.Full size) : ∀ d ∈ ahead ++ [c], d.Full size := by
    intro d hd
    rcases List.mem_append.mp hd with before | here
    · exact scanned scan d before
    · obtain rfl := List.mem_singleton.mp here
      exact full
  have room (front back : List Blk) (fits : c.Fits size front back) :=
    fits.free_size (asked.holds.holds c hc) (asked.holds.valid c hc) asked.large
  rw [allocLoop,turn,same,tryMajor]
  dsimp only
  generalize sub32 (major s.mem c.at_).size (major s.mem c.at_).usage = diff at room
  by_cases small : diff < size + 36
  · -- CASE 1
    have full : c.Full size := fun front back fits => by
      have large := room front back fits
      omega
    rw [if_pos small,next]
    cases behind with
    | cons d rest =>
      rw [List.map_cons,List.headD_cons,if_pos (later d rest rfl)]
      exact .next d rest rfl full bet best' valid
    | nil =>
      rw [List.map_nil,List.headD_nil,if_neg (not_not.mpr rfl)]
      cases started with
      | true =>
        rw [if_pos rfl]
        exact .again rfl rfl bet best' valid
      | false =>
        rw [if_neg Bool.false_ne_true,tryBlock]
        rcases turn_last fuel asked (all rfl full) valid with ⟨none_,ends⟩ | ⟨come,s1,append,there,fill,_⟩
        · rw [ends,if_pos rfl]
          exact .out rfl rfl full none_
        · obtain ⟨s',b,chunks',found,placed⟩ := fill (by omega)
          rw [append,if_neg there,found]
          exact .placed placed
  · rw [if_neg small,tryBlock,if_neg some_]
    rcases place_gap asked' (show c.blocks.length + 1 ≤ fuel by omega) with ⟨s',b,chunks',found,placed⟩ | ⟨none_,full⟩
    · rw [found]
      exact .placed placed
    · -- CASE 5
      rw [none_,blockFull,next]
      cases behind with
      | cons d rest =>
        rw [List.map_cons,List.headD_cons,if_pos (later d rest rfl)]
        exact .next d rest rfl full bet best' valid
      | nil =>
        rw [List.map_nil,List.headD_nil,if_neg (not_not.mpr rfl)]
        cases started with
        | true =>
          rw [if_pos rfl]
          exact .again rfl rfl bet best' valid
        | false =>
          rw [if_neg Bool.false_ne_true]
          rcases turn_last fuel asked (all rfl full) valid with ⟨out,ends⟩ | ⟨come,s1,append,there,_,fill⟩
          · rw [ends,if_pos rfl]
            exact .out rfl rfl full out
          · obtain ⟨fuel,rfl⟩ := Nat.exists_eq_add_of_le' (show 2 ≤ fuel by omega)
            obtain ⟨s',b,chunks',found,placed⟩ := fill (fuel + 1) best' rfl (by omega)
            rw [append,if_neg there,found]
            exact .placed placed

/-- From a chunk on, with nothing large enough in front of it. -/
theorem loop_scan {fuel : Nat} (asked : Asked page s (ahead ++ c :: behind) size req)
    (scanned : ∀ d ∈ ahead, d.Full size)
    (enough : ∀ d ∈ ahead ++ c :: behind, d.blocks.length + behind.length + 3 ≤ fuel) :
    Ends page s.mem (ahead ++ c :: behind) size req (allocLoop page size req fuel s c.at_ false best) := by
  induction behind generalizing ahead c s best fuel with
  | nil =>
    have here := enough c (List.mem_append_right _ (List.mem_cons_self ..))
    obtain ⟨fuel,rfl⟩ := Nat.exists_eq_add_of_le' (show 1 ≤ fuel by omega)
    have turn := turn_spec false best asked (fun _ => scanned) (show c.blocks.length + 2 ≤ fuel by
      rw [List.length_nil] at here
      omega)
    generalize allocLoop page size req (fuel + 1) s c.at_ false best = out at turn
    cases turn with
    | placed placed => exact .placed placed
    | next d rest split => cases split
    | again last started => cases started
    | out last scan full none_ =>
      refine .out (fun d hd => ?_) none_
      rcases List.mem_append.mp hd with before | same
      · exact scanned d before
      · obtain rfl := List.mem_singleton.mp same
        exact full
  | cons d rest ih =>
    have here := enough c (List.mem_append_right _ (List.mem_cons_self ..))
    rw [List.length_cons] at here
    obtain ⟨fuel,rfl⟩ := Nat.exists_eq_add_of_le' (show 1 ≤ fuel by omega)
    have turn := turn_spec false best asked (fun _ => scanned) (show c.blocks.length + 2 ≤ fuel by omega)
    generalize allocLoop page size req (fuel + 1) s c.at_ false best = out at turn
    cases turn with
    | placed placed => exact .placed placed
    | next e rest' split full bet best' valid =>
      obtain ⟨rfl,rfl⟩ := List.cons.inj split
      have shift : ahead ++ c :: d :: rest = (ahead ++ [c]) ++ d :: rest := by rw [List.append_assoc]; rfl
      have asked' := asked.bet valid
      rw [shift] at asked' enough ⊢
      refine ih asked' (fun e he => ?_) (fun e he => ?_)
      · rcases List.mem_append.mp he with before | same
        · exact scanned e before
        · obtain rfl := List.mem_singleton.mp same
          exact full
      · have each := enough e he
        rw [List.length_cons] at each
        omega
    | again last started => cases started
    | out last => cases last

/-- From the best bet on: behind the last chunk it goes on at the first one. -/
theorem loop_bet {fuel : Nat} (asked : Asked page s (ahead ++ c :: behind) size req)
    (enough : ∀ d ∈ ahead ++ c :: behind,
      d.blocks.length + behind.length + (ahead ++ c :: behind).length + 4 ≤ fuel) :
    Ends page s.mem (ahead ++ c :: behind) size req (allocLoop page size req fuel s c.at_ true best) := by
  induction behind generalizing ahead c s best fuel with
  | nil =>
    have here := enough c (List.mem_append_right _ (List.mem_cons_self ..))
    obtain ⟨fuel,rfl⟩ := Nat.exists_eq_add_of_le' (show 1 ≤ fuel by omega)
    have turn := turn_spec true best asked (fun scan => Bool.noConfusion scan)
      (show c.blocks.length + 2 ≤ fuel by omega)
    generalize allocLoop page size req (fuel + 1) s c.at_ true best = out at turn
    cases turn with
    | placed placed => exact .placed placed
    | next d rest split => cases split
    | out last scan => cases scan
    | again last started bet best' valid =>
      have asked' := asked.bet valid
      have root := asked'.holds.root
      have lengths : ∀ d ∈ ahead ++ [c], d.blocks.length + (ahead ++ [c]).length + 3 ≤ fuel := fun d hd => by
        have each := enough d hd
        rw [List.length_nil] at each
        omega
      obtain ⟨d,rest,split⟩ := List.exists_cons_of_ne_nil (List.append_ne_nil_of_right_ne_nil ahead (List.cons_ne_nil c []))
      rw [split] at asked' root lengths ⊢
      have scan : Ends page s.mem (d :: rest) size req
          (allocLoop page size req fuel { s with bestBet := bet } d.at_ false best') := by
        have whole : Asked page { s with bestBet := bet } ([] ++ d :: rest) size req := asked'
        refine loop_scan whole (fun _ none_ => (nomatch none_)) fun e he => ?_
        have each := lengths e he
        rw [List.length_cons] at each
        omega
      rwa [← show s.memRoot = d.at_ from root] at scan
  | cons d rest ih =>
    have here := enough c (List.mem_append_right _ (List.mem_cons_self ..))
    obtain ⟨fuel,rfl⟩ := Nat.exists_eq_add_of_le' (show 1 ≤ fuel by omega)
    have turn := turn_spec true best asked (fun scan => Bool.noConfusion scan)
      (show c.blocks.length + 2 ≤ fuel by omega)
    generalize allocLoop page size req (fuel + 1) s c.at_ true best = out at turn
    cases turn with
    | placed placed => exact .placed placed
    | next e rest' split full bet best' valid =>
      obtain ⟨rfl,rfl⟩ := List.cons.inj split
      have shift : ahead ++ c :: d :: rest = (ahead ++ [c]) ++ d :: rest := by rw [List.append_assoc]; rfl
      have asked' := asked.bet valid
      rw [shift] at asked' enough ⊢
      refine ih asked' fun e he => ?_
      have each := enough e he
      rw [List.length_cons] at each
      omega
    | again last => cases last
    | out last => cases last

theorem Liballoc.Holds.cr3 (holds : s.Holds chunks) (root : Nat) : ({ s with cr3 := root } : Liballoc).Holds chunks :=
  ⟨holds.root,holds.links,holds.holds,holds.valid,holds.apart,holds.best,holds.held,holds.inuse,holds.allocated,
    holds.blks⟩

theorem Placed.cr3 {m : Store} {s' : Liballoc} {b : Blk} {chunks' : List Chunk}
    (placed : Placed page m s' chunks size req b chunks') (root : Nat) :
    Placed page m { s' with cr3 := root } chunks size req b chunks' := by
  cases placed with
  | gap ahead c behind front back split fits holds bodies outside =>
    exact .gap ahead c behind front back split fits (holds.cr3 root) bodies outside
  | grown full come holds bodies outside => exact .grown full come (holds.cr3 root) bodies outside

/-- The turns from the best bet or from the first chunk on. -/
theorem search_ends {fuel : Nat} {rest : List Chunk} (asked : Asked page s (c :: rest) size req)
    (enough : ∀ d ∈ c :: rest, d.blocks.length + 2 * (c :: rest).length + 4 ≤ fuel) :
    Ends page s.mem (c :: rest) size req (search page s fuel req size) := by
  have root : s.memRoot = c.at_ := asked.holds.root
  have scan (best : Nat) : Ends page s.mem (c :: rest) size req (allocLoop page size req fuel s c.at_ false best) := by
    have whole : Asked page s ([] ++ c :: rest) size req := asked
    refine loop_scan whole (fun _ none_ => (nomatch none_)) fun d hd => ?_
    have each := enough d hd
    rw [List.length_cons] at each
    omega
  rw [search,root]
  by_cases bet : s.bestBet ≠ 0
  · rw [if_pos bet]
    obtain ⟨d,hd,there⟩ := asked.holds.best.resolve_left bet
    dsimp only
    by_cases large : size + 36 < sub32 (major s.mem s.bestBet).size (major s.mem s.bestBet).usage
    · rw [if_pos large,← there]
      obtain ⟨ahead,behind,split⟩ := List.append_of_mem hd
      rw [split] at asked enough ⊢
      refine loop_bet asked fun e he => ?_
      have each := enough e he
      rw [List.length_append,List.length_cons] at each ⊢
      omega
    · rw [if_neg large]
      exact scan _
  · rw [if_neg bet]
    exact scan 0

theorem initRoot_out (holds : s.Holds []) (small : size + 72 ≤ 2047 * 2097152)
    (none_ : (page s.mem (pagesFor size)).2 = 0) : (initRoot page s size).memRoot = 0 := by
  rw [initRoot,if_pos (show s.memRoot = 0 from holds.root),allocateNewPage_eq small]
  dsimp only
  rw [if_pos none_]

theorem initRoot_bet (holds : s.Holds []) (small : size + 72 ≤ 2047 * 2097152)
    (come : (page s.mem (pagesFor size)).2 ≠ 0) : (initRoot page s size).bestBet = 0 := by
  rw [initRoot,if_pos (show s.memRoot = 0 from holds.root),allocateNewPage_eq small]
  dsimp only
  rw [if_neg come]
  exact holds.best.resolve_right (fun ⟨_,hc,_⟩ => nomatch hc)

/-- The first run of pages. -/
theorem first_holds (holds : s.Holds []) (serves : Serves page s.mem s.held) (small : size + 72 ≤ 2047 * 2097152)
    (come : (page s.mem (pagesFor size)).2 ≠ 0) : (initRoot page s size).Holds [newChunk page s.mem size] := by
  have valid := newChunk_valid serves small come
  have few := valid.few
  rw [newChunk_pages] at few
  have one : pagesFor size % 2^32 = pagesFor size := Nat.mod_eq_of_lt (by omega)
  have two : pagesFor size * 2097152 % 2^32 = pagesFor size * 2097152 := Nat.mod_eq_of_lt (by omega)
  have none_ : s.bestBet = 0 := holds.best.resolve_right (fun ⟨_,hc,_⟩ => nomatch hc)
  have state : initRoot page s size = { s with
      mem := storeMajor (page s.mem (pagesFor size)).1 (newChunk page s.mem size).at_
        ⟨0,0,pagesFor size,pagesFor size * 2097152,36,0⟩
      memRoot := (newChunk page s.mem size).at_
      blks := (s.blks + 1) % 2^64
      held := ((newChunk page s.mem size).at_,pagesFor size) :: s.held
      allocated := (s.allocated + pagesFor size * 2097152) % 2^64 } := by
    rw [initRoot,if_pos (show s.memRoot = 0 from holds.root),allocateNewPage_eq small,newChunk_at]
    dsimp only
    rw [if_neg come]
  have header : major (initRoot page s size).mem (newChunk page s.mem size).at_ =
      ⟨0,0,pagesFor size,pagesFor size * 2097152,36,0⟩ := by
    rw [state,major_store,Major.clip]
    dsimp only
    rw [one,two,Nat.zero_mod,Nat.mod_eq_of_lt (show 36 < 2^32 by decide)]
  have only (c : Chunk) (hc : c ∈ [newChunk page s.mem size]) : c = newChunk page s.mem size := List.mem_singleton.mp hc
  refine ⟨?_,?_,fun c hc => ?_,fun c hc => ?_,List.pairwise_singleton ..,.inl ?_,?_,?_,?_,?_⟩
  · rw [state]
    rfl
  · rw [List.map_singleton]
    exact ⟨congrArg Major.prev header,congrArg Major.next header,trivial⟩
  · rw [only c hc]
    exact newChunk_holds header
  · rw [only c hc]
    exact valid
  · rw [state]
    exact none_
  · rw [state,List.map_singleton,newChunk_pages]
    have empty : s.held = [] := List.perm_nil.mp holds.held
    rw [empty]
  · rw [state,List.map_singleton,List.sum_singleton,show (newChunk page s.mem size).used = 0 from rfl]
    exact holds.inuse
  · have before : s.allocated = 0 := holds.allocated
    rw [state,List.map_singleton,List.sum_singleton,Chunk.size,newChunk_pages]
    dsimp only
    rw [before,Nat.zero_add]
  · have before : s.blks = 0 := holds.blks
    rw [state]
    dsimp only
    rw [before]
    rfl

theorem first_stays (holds : s.Holds []) (serves : Serves page s.mem s.held) (small : size + 72 ≤ 2047 * 2097152)
    (come : (page s.mem (pagesFor size)).2 ≠ 0) :
    Stays (page s.mem (pagesFor size)).1 (initRoot page s size).mem [newChunk page s.mem size] := by
  intro i away
  have new := away _ (List.mem_singleton_self _)
  have sizes := (newChunk_valid serves small come).size_pos
  rw [newChunk_at] at new sizes
  have base : (initRoot page s size).mem = storeMajor (page s.mem (pagesFor size)).1
      (page s.mem (pagesFor size)).2 ⟨0,0,pagesFor size,pagesFor size * 2097152,36,0⟩ := by
    rw [initRoot,if_pos (show s.memRoot = 0 from holds.root),allocateNewPage_eq small]
    dsimp only
    rw [if_neg come]
  rw [base,storeMajor_apart _ (by omega)]

/-- The header of the first block of the heap is at the address that `k_obj_alloc_2` takes for a
sign that there is no memory. -/
def Marked (chunks : List Chunk) : Prop :=
  ∃ c rest b blocks, chunks = c :: rest ∧ c.blocks = b :: blocks ∧ b.at_ = 0xdeadbeef

/-- How `k_obj_alloc` ends: with a block, or in one of its endless loops. -/
inductive Called (page : Store → Nat → Store × Nat) (s : Liballoc) (chunks : List Chunk) (size req : Nat) :
    Option (Liballoc × Nat) → Prop where
  | placed {s' : Liballoc} {b : Blk} {chunks' : List Chunk} (free : ¬Marked chunks)
      (room : (∃ c ∈ chunks, ¬c.Full size) ∨ (page s.mem (pagesFor size)).2 ≠ 0) (cr3 : s'.cr3 = s.cr3)
      (placed : Placed page s.mem s' chunks size req b chunks') : Called page s chunks size req (some (s',b.ptr))
  | marked (marked : Marked chunks) : Called page s chunks size req none
  | out (full : ∀ c ∈ chunks, c.Full size) (none_ : (page s.mem (pagesFor size)).2 = 0) :
      Called page s chunks size req none

theorem Placed.room {m : Store} {s' : Liballoc} {b : Blk} {chunks' : List Chunk}
    (placed : Placed page m s' chunks size req b chunks') :
    (∃ c ∈ chunks, ¬c.Full size) ∨ (page m (pagesFor size)).2 ≠ 0 := by
  cases placed with
  | gap ahead c behind front back split fits =>
    exact .inl ⟨c,split ▸ List.mem_append_right _ (List.mem_cons_self ..),fun full => full front back fits⟩
  | grown full come => exact .inr come

theorem marked_iff {rest : List Chunk} (holds : s.Holds (c :: rest)) :
    (major s.mem s.memRoot).first = 0xdeadbeef ↔ Marked (c :: rest) := by
  have hc : c ∈ c :: rest := List.mem_cons_self ..
  rw [show s.memRoot = c.at_ from holds.root,(holds.holds c hc).first]
  constructor
  · intro here
    cases blocks : c.blocks with
    | nil => rw [blocks] at here; cases here
    | cons b blocks' =>
      rw [blocks] at here
      exact ⟨c,rest,b,blocks',rfl,blocks,here⟩
  · rintro ⟨d,rest',b,blocks,split,first,here⟩
    obtain ⟨rfl,_⟩ := List.cons.inj split
    rw [first]
    exact here

/-- The call on a heap with pages. -/
theorem objAlloc_more {fuel : Nat} {rest : List Chunk} (asked : Asked page s (c :: rest) size req)
    (enough : ∀ d ∈ c :: rest, d.blocks.length + 2 * (c :: rest).length + 4 ≤ fuel) :
    Called page s (c :: rest) size req (objAlloc page s fuel req size) := by
  have there : s.memRoot ≠ 0 := by
    rw [show s.memRoot = c.at_ from asked.holds.root]
    exact Nat.ne_of_gt (asked.holds.at_pos (List.mem_cons_self ..))
  have asked' : Asked page { s with cr3 := s.pml4Table } (c :: rest) size req :=
    ⟨asked.holds.cr3 _,asked.serves,asked.small,asked.room,asked.fresh⟩
  have ends := search_ends asked' enough
  rw [objAlloc,initRoot,if_neg there]
  rw [if_neg there]
  by_cases marked : (major s.mem s.memRoot).first = 0xdeadbeef
  · rw [if_pos marked]
    exact .marked ((marked_iff asked.holds).mp marked)
  · rw [if_neg marked]
    have free : ¬Marked (c :: rest) := fun marked' => marked ((marked_iff asked.holds).mpr marked')
    generalize search page { s with cr3 := s.pml4Table } fuel req size = out at ends
    cases ends with
    | placed placed => exact .placed free placed.room rfl (placed.cr3 s.cr3)
    | out full none_ => exact .out full none_

/-- The first call. -/
theorem objAlloc_first {fuel : Nat} (holds : s.Holds []) (serves : Serves page s.mem s.held)
    (small : size + 72 ≤ 2047 * 2097152) (room : req + 144 ≤ size) (enough : 6 ≤ fuel) :
    (page s.mem (pagesFor size)).2 ≠ 0 ∧ Called page s [] size req (objAlloc page s fuel req size) ∨
      (page s.mem (pagesFor size)).2 = 0 ∧ ∃ s', objAlloc page s fuel req size = some (s',0) := by
  have holds' := holds.cr3 s.pml4Table
  by_cases come : (page s.mem (pagesFor size)).2 = 0
  · refine .inr ⟨come,initRoot page { s with cr3 := s.pml4Table } size,?_⟩
    rw [objAlloc,if_pos (initRoot_out holds' small come)]
  · refine .inl ⟨come,?_⟩
    have valid := newChunk_valid serves small come
    have first := first_holds holds' serves small come
    have outside := first_stays holds' serves small come
    have fits := newChunk_fits page s.mem size
    have marked : ¬Marked [newChunk page s.mem size] := by
      rintro ⟨c,rest,b,blocks,split,some_,_⟩
      obtain ⟨rfl,_⟩ := List.cons.inj split
      cases some_
    have there : (initRoot page { s with cr3 := s.pml4Table } size).memRoot ≠ 0 := by
      rw [first.root]
      exact come
    have bet := initRoot_bet holds' small come
    have asked : Asked page { s with cr3 := s.pml4Table } [] size req :=
      ⟨holds',serves,small,room,fun _ none_ => (nomatch none_)⟩
    obtain ⟨fuel,rfl⟩ := Nat.exists_eq_add_of_le' (show 2 ≤ fuel by omega)
    obtain ⟨s',b,chunks',found,placed⟩ := turn_new 0 asked (fun _ none_ => (nomatch none_)) come first
      (fun _ none_ => (nomatch none_)) outside (show 1 ≤ fuel + 1 by omega)
    rw [objAlloc,if_neg there,if_neg (fun here => marked ((marked_iff first).mp here)),search,
      if_neg (not_not.mpr bet),show (initRoot page { s with cr3 := s.pml4Table } size).memRoot = _ from first.root]
    rw [show fuel + 2 = fuel + 1 + 1 from rfl]
    have result := congrArg (Option.map fun r : Liballoc × Nat => ({ r.1 with cr3 := s.cr3 },r.2)) found
    refine (congrArg (Called page s [] size req) result).mpr ?_
    exact .placed (fun ⟨_,_,_,_,none_,_⟩ => nomatch none_) (.inr come) rfl (placed.cr3 s.cr3)

section Result
variable {m : Store} {s' : Liballoc} {b : Blk} {chunks' : List Chunk}

theorem Placed.holds (placed : Placed page m s' chunks size req b chunks') : s'.Holds chunks' := by
  cases placed with
  | gap _ _ _ _ _ _ _ holds => exact holds
  | grown _ _ holds => exact holds

theorem Placed.bodies (placed : Placed page m s' chunks size req b chunks') : Bodies m s'.mem chunks := by
  cases placed with
  | gap _ _ _ _ _ _ _ _ bodies => exact bodies
  | grown _ _ _ bodies => exact bodies

/-- Outside of the pages of the heap the memory is as before, or as growth has made it. -/
theorem Placed.stays {i : Nat} (placed : Placed page m s' chunks size req b chunks')
    (away : ∀ c ∈ chunks', i < c.at_ ∨ c.stop ≤ i) : s'.mem i = m i ∨ s'.mem i = (page m (pagesFor size)).1 i := by
  cases placed with
  | gap ahead c behind front back split fits holds bodies outside =>
    refine .inl (outside i fun d hd => ?_)
    rw [split] at hd
    rcases List.mem_append.mp hd with before | rest
    · exact away d (List.mem_append_left _ before)
    · rcases List.mem_cons.mp rest with rfl | after
      · exact away (d.add front back size req) (List.mem_append_right _ (List.mem_cons_self ..))
      · exact away d (List.mem_append_right _ (List.mem_cons_of_mem _ after))
  | grown full come holds bodies outside =>
    refine .inr (outside i fun d hd => ?_)
    rcases List.mem_append.mp hd with old | new
    · exact away d (List.mem_append_left _ old)
    · obtain rfl := List.mem_singleton.mp new
      exact away ((newChunk page m size).add [] [] size req) (List.mem_append_right _ (List.mem_singleton_self _))

/-- The new block is one of the heap. -/
theorem Placed.member (placed : Placed page m s' chunks size req b chunks') : ∃ c ∈ chunks', b ∈ c.blocks := by
  cases placed with
  | gap ahead c behind front back =>
    exact ⟨_,List.mem_append_right _ (List.mem_cons_self ..),List.mem_append_right _ (List.mem_cons_self ..)⟩
  | grown => exact ⟨_,List.mem_append_right _ (List.mem_cons_self ..),List.mem_cons_self ..⟩

theorem Chunk.Valid.ptr_inside (valid : c.Valid) (hb : b ∈ c.blocks) :
    b.at_ + 52 ≤ b.ptr ∧ b.ptr + b.req < b.stop ∧ 0x200000 ≤ b.ptr ∧ b.stop ≤ c.stop := by
  obtain ⟨lower,_,upper⟩ := valid.order.member hb
  have bounds := b.ptr_bounds
  have room := valid.room b hb
  have low := valid.low
  have stop : b.stop = b.at_ + 36 + b.size := rfl
  omega

end Result

/-- A call for a size that the arithmetic of the heap can hold. -/
theorem kObjAlloc_called (holds : s.Holds chunks) (serves : Serves page s.mem s.held)
    (small : req + 216 ≤ 2047 * 2097152) (some_ : ∀ c ∈ chunks, c.blocks ≠ []) :
    ∃ enough, ∀ fuel, enough ≤ fuel → Called page s chunks (req + 144) req (kObjAlloc page s fuel req) := by
  refine ⟨(chunks.map fun c => c.blocks.length).sum + 2 * chunks.length + 6,fun fuel enough => ?_⟩
  have size : (req + (128 + 16)) % 2^64 = req + 144 := by omega
  rw [kObjAlloc,size,if_neg (by omega)]
  have result (out : Option (Liballoc × Nat)) (called : Called page s chunks (req + 144) req out) :
      Called page s chunks (req + 144) req (out.bind fun r => if r.2 < 0x200000 then none else some r) := by
    cases called with
    | placed free room cr3 placed =>
      obtain ⟨c,hc,hb⟩ := placed.member
      have low := ((placed.holds.valid c hc).ptr_inside hb).2.2.1
      rw [Option.bind_some,if_neg (Nat.not_lt.mpr low)]
      exact .placed free room cr3 placed
    | marked marked => exact .marked marked
    | out full none_ => exact .out full none_
  cases chunks with
  | nil =>
    rcases objAlloc_first holds serves (show req + 144 + 72 ≤ 2047 * 2097152 by omega) (Nat.le_refl _)
      (show 6 ≤ fuel by omega) with ⟨_,called⟩ | ⟨none_,s',out⟩
    · exact result _ called
    · rw [out,Option.bind_some,if_pos (show 0 < 0x200000 by decide)]
      exact .out (fun _ none_ => (nomatch none_)) none_
  | cons c rest =>
    refine result _ (objAlloc_more ⟨holds,serves,by omega,Nat.le_refl _,fun d hd none_ => absurd none_ (some_ d hd)⟩ ?_)
    intro d hd
    obtain ⟨front,back,split⟩ := List.append_of_mem hd
    have each : d.blocks.length ≤ ((c :: rest).map fun c => c.blocks.length).sum := by
      rw [split,List.map_append,List.map_cons,List.sum_append,List.sum_cons]
      omega
    omega

end Put

end Siegfried.ObjHeap
