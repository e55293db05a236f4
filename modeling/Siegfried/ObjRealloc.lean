import Siegfried.ObjFree
import Siegfried.ObjFuel

/-! What the owners of blocks may write, and the calls that give a block another size or fill it. -/
namespace Siegfried.ObjHeap
open Bytes Links Intervals

/-- The bytes that were asked for. -/
def Blk.Own (b : Blk) (i : Nat) : Prop := b.ptr ≤ i ∧ i < b.ptr + b.req

section Writes
variable {s : Liballoc} {chunks : List Chunk} {c : Chunk} {b : Blk} {m' : Store} {i : Nat}

/-- They are not the bytes of the allocator. -/
theorem Chunk.Valid.own_apart (valid : c.Valid) (hb : b ∈ c.blocks) (own : b.Own i) : ¬c.Meta i := by
  have inside := valid.ptr_inside hb
  obtain ⟨lower,upper⟩ := own
  obtain ⟨first,_,_⟩ := valid.order.member hb
  rintro (⟨low,high⟩ | ⟨b',hb',low,high⟩ | ⟨b',hb',here⟩)
  · omega
  · rcases valid.apart hb hb' with rfl | before | after
    · omega
    · omega
    · rw [Blk.stop] at after
      omega
  · have inside' := valid.ptr_inside hb'
    rcases valid.apart hb hb' with rfl | before | after
    · omega
    · omega
    · omega

/-- The heap is in the bytes of the allocator alone. -/
theorem Liballoc.Holds.of_meta (holds : s.Holds chunks) (same : ∀ c ∈ chunks, ∀ i, c.Meta i → m' i = s.mem i) :
    ({ s with mem := m' } : Liballoc).Holds chunks where
  root := holds.root
  links := holds.links.congr fun a ha => by
    obtain ⟨c,hc,rfl⟩ := List.mem_map.mp ha
    have header : major m' c.at_ = major s.mem c.at_ :=
      major_congr fun i low high => same c hc i (.major low high)
    dsimp only
    rw [header]
    exact ⟨rfl,rfl⟩
  holds c hc := (holds.holds c hc).meta (same c hc)
  valid := holds.valid
  apart := holds.apart
  best := holds.best
  held := holds.held
  inuse := holds.inuse
  allocated := holds.allocated
  blks := holds.blks

/-- Whoever has a block may write to it, and to what does not belong to the heap. -/
theorem Liballoc.Holds.write (holds : s.Holds chunks)
    (same : ∀ i, m' i ≠ s.mem i → (∃ c ∈ chunks, ∃ b ∈ c.blocks, b.Own i) ∨ ∀ c ∈ chunks, i < c.at_ ∨ c.stop ≤ i) :
    ({ s with mem := m' } : Liballoc).Holds chunks := by
  refine holds.of_meta fun c hc i own => ?_
  have inside := (holds.valid c hc).meta_inside own
  by_contra differs
  rcases same i differs with ⟨d,hd,b,hb,mine⟩ | outside
  · have body := (holds.valid d hd).ptr_inside hb
    obtain ⟨first,_,_⟩ := (holds.valid d hd).order.member hb
    obtain ⟨lower,upper⟩ := mine
    rcases holds.same_or_apart hc hd with rfl | before | after
    · exact (holds.valid c hc).own_apart hb ⟨lower,upper⟩ own
    · omega
    · omega
  · have away := outside c hc
    omega

end Writes

section Shrink
variable {s : Liballoc} {ahead behind : List Chunk} {c : Chunk} {b : Blk} {m : Store} {front back : List Blk} {size : Nat}

/-- The chunk with another number of bytes that were asked for. -/
def Chunk.resize (c : Chunk) (front : List Blk) (b : Blk) (back : List Blk) (size : Nat) : Chunk :=
  { c with blocks := front ++ { b with req := size } :: back }

theorem Chunk.resize_at (split : c.blocks = front ++ b :: back) :
    (c.resize front b back size).blocks.map Blk.at_ = c.blocks.map Blk.at_ := by
  rw [split,Chunk.resize]
  simp only [List.map_append,List.map_cons]

theorem Chunk.Valid.resize (valid : c.Valid) (split : c.blocks = front ++ b :: back) (less : size ≤ b.req) :
    (c.resize front b back size).Valid where
  order := by
    refine valid.order.congr (Chunk.resize_at split) ?_
    rw [split,Chunk.resize]
    simp only [List.map_append,List.map_cons,Blk.stop]
  room d hd := by
    have room (d : Blk) (hd : d ∈ front ++ b :: back) := valid.room d (split ▸ hd)
    rcases List.mem_append.mp hd with before | rest
    · exact room d (List.mem_append_left _ before)
    · rcases List.mem_cons.mp rest with rfl | after
      · have old := room b (List.mem_append_right _ (List.mem_cons_self ..))
        dsimp only
        omega
      · exact room d (List.mem_append_right _ (List.mem_cons_of_mem b after))
  some_ := valid.some_
  few := valid.few
  low := valid.low
  high := valid.high

theorem resize_changes (holds : c.Holds m) (valid : c.Valid) (split : c.blocks = front ++ b :: back)
    (less : size ≤ b.req) :
    Changes m (storeMinor m b.at_ { minor m b.at_ with reqSize := size }) c (c.resize front b back size) := by
  have hb : b ∈ c.blocks := split ▸ List.mem_append_right _ (List.mem_cons_self ..)
  obtain ⟨lower,_,upper⟩ := valid.order.member hb
  rw [Blk.stop] at upper
  have small : size < 2^32 := by
    have room := valid.room b hb
    have limit := valid.size_lt
    have stop : c.stop = c.at_ + c.size := rfl
    omega
  have top : major (storeMinor m b.at_ { minor m b.at_ with reqSize := size }) c.at_ = major m c.at_ :=
    major_storeMinor _ (.inl lower)
  have minors (d : Blk) (hd : d ∈ c.blocks) :
      minor (storeMinor m b.at_ { minor m b.at_ with reqSize := size }) d.at_ =
        { minor m d.at_ with reqSize := if d.at_ = b.at_ then size else (minor m d.at_).reqSize } := by
    refine minor_setReq small ?_
    rcases valid.apart hd hb with rfl | before | after
    · exact .inl rfl
    · rw [Blk.stop] at before
      exact .inr (.inl (by omega))
    · rw [Blk.stop] at after
      exact .inr (.inr (by omega))
  have bytes (i : Nat) (away : i < b.at_ ∨ b.at_ + 36 ≤ i) :
      storeMinor m b.at_ { minor m b.at_ with reqSize := size } i = m i := storeMinor_apart _ away
  have bodies (d : Blk) (hd : d ∈ c.blocks) (i : Nat) (low : d.at_ + 36 ≤ i) (high : i < d.stop) :
      storeMinor m b.at_ { minor m b.at_ with reqSize := size } i = m i := by
    refine bytes i ?_
    rcases valid.apart hd hb with rfl | before | after
    · exact .inr low
    · exact .inl (by omega)
    · rw [Blk.stop] at after
      exact .inr (by omega)
  generalize storeMinor m b.at_ { minor m b.at_ with reqSize := size } = m' at *
  refine ⟨valid.resize split less,⟨?_,?_,?_,?_,?_,fun d hd => ?_⟩,?_,?_,fun i away => bytes i (by omega),bodies⟩
  · rw [Chunk.resize,top]
    exact holds.pages
  · rw [Chunk.resize,top]
    exact holds.size
  · have usage : (c.resize front b back size).usage = c.usage := by
      rw [Chunk.usage,Chunk.usage,Chunk.resize,split]
      simp only [List.map_append,List.map_cons]
    rw [usage,Chunk.resize,top]
    exact holds.usage
  · rw [Chunk.resize_at split,Chunk.resize,top]
    exact holds.first
  · rw [Chunk.resize_at split]
    refine holds.links.congr fun a ha => ?_
    obtain ⟨d,hd,rfl⟩ := List.mem_map.mp ha
    rw [minors d hd]
    exact ⟨rfl,rfl⟩
  · have old (d : Blk) (hd : d ∈ c.blocks) (other : d.at_ ≠ b.at_) : (c.resize front b back size).BlkHolds m' d := by
      obtain ⟨block,magic_,size_,req_,tag⟩ := holds.blocks d hd
      have bounds := d.ptr_bounds
      have room := valid.room d hd
      have same := bodies d hd (d.ptr - 16) (by omega) (by rw [Blk.stop]; omega)
      have header := minors d hd
      rw [if_neg other] at header
      exact ⟨header ▸ block,header ▸ magic_,header ▸ size_,header ▸ req_,same ▸ tag⟩
    have nodup := valid.nodup
    rw [split,List.map_append,List.map_cons] at nodup
    obtain ⟨_,behind,ahead⟩ := List.nodup_append.mp nodup
    rcases List.mem_append.mp hd with before | rest
    · refine old d (split ▸ List.mem_append_left _ before) ?_
      exact ahead d.at_ (List.mem_map.mpr ⟨d,before,rfl⟩) b.at_ (List.mem_cons_self ..)
    · rcases List.mem_cons.mp rest with rfl | after
      · obtain ⟨block,magic_,size_,req_,tag⟩ := holds.blocks b hb
        have bounds := b.ptr_bounds
        have room := valid.room b hb
        have same := bodies b hb (b.ptr - 16) (by omega) (by rw [Blk.stop]; omega)
        have header := minors b hb
        rw [if_pos rfl] at header
        exact ⟨header ▸ block,header ▸ magic_,header ▸ size_,congrArg Minor.reqSize header,same ▸ tag⟩
      · refine old d (split ▸ List.mem_append_right _ (List.mem_cons_of_mem b after)) fun same => ?_
        exact (List.nodup_cons.mp behind).1 (List.mem_map.mpr ⟨d,after,same⟩)
  · rw [top]
  · rw [top]

end Shrink

end Siegfried.ObjHeap
