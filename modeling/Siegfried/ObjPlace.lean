import Siegfried.ObjChunks

/-! Where `k_obj_alloc_2` puts a block in a chunk. -/
namespace Siegfried.ObjHeap
open Bytes Links Intervals

/-- The addresses before and behind a place in the list of blocks. -/
def prevOf (front : List Blk) : Nat := (front.map Blk.at_).getLastD 0
def nextOf (back : List Blk) : Nat := (back.map Blk.at_).headD 0

/-- A header between two others, or at the beginning of the list. -/
def inserted (s : Liballoc) (maj size reqSize at_ prev next : Nat) : Liballoc × Nat :=
  let s := if next ≠ 0 then s.setMinor next fun n => { n with prev := at_ } else s
  let s := if prev ≠ 0 then s.setMinor prev fun n => { n with next := at_ }
    else s.setMajor maj fun j => { j with first := at_ }
  newMinor s maj size reqSize at_ prev next

/-- A place in a chunk with room for a header and `size` bytes. -/
structure Chunk.Fits (c : Chunk) (size : Nat) (front back : List Blk) : Prop where
  split : c.blocks = front ++ back
  room : edge Blk.stop (c.at_ + 36) front + (size + 36) ≤ head Blk.at_ c.stop back

section Place
variable {s : Liballoc} {c : Chunk} {b : Blk} {front back : List Blk} {size reqSize fuel : Nat}

theorem sub64_gap {x a n : Nat} (below : a + 36 + n ≤ x) (bound : x ≤ 2^64) (pos : 0 < a) :
    sub64 (sub64 (sub64 (x % 2^64) a) 36) n = x - (a + 36 + n) := by
  simp only [sub64]
  omega

theorem Chunk.Holds.at_block (holds : c.Holds s.mem) (split : c.blocks = front ++ b :: back) :
    (minor s.mem b.at_).prev = prevOf front ∧ (minor s.mem b.at_).next = nextOf back ∧
      (minor s.mem b.at_).size = b.size := by
  have member : b ∈ c.blocks := split ▸ List.mem_append_right _ (List.mem_cons_self ..)
  have links := holds.links
  rw [split,List.map_append,List.map_cons] at links
  obtain ⟨prev,next⟩ := links.node
  exact ⟨prev,next,(holds.blocks b member).size⟩

theorem Chunk.Valid.at_pos (valid : c.Valid) (member : b ∈ c.blocks) : 0 < b.at_ := by
  obtain ⟨lower,_⟩ := valid.order.member member
  omega

theorem nextOf_cons : nextOf (b :: back) = b.at_ := rfl

theorem prevOf_concat : prevOf (front ++ [b]) = b.at_ := by
  rw [prevOf,List.map_append,List.map_singleton,List.getLastD_concat]

/-- `CASE 4`: the first gap behind a block that is large enough. -/
theorem space_spec (reqSize : Nat) (holds : c.Holds s.mem) (valid : c.Valid) (split : c.blocks = front ++ b :: back)
    (enough : back.length + 2 ≤ fuel) :
    (∃ front' back', c.Fits size front' back' ∧ space s c.at_ size reqSize fuel b.at_ = some (some
        (inserted s c.at_ size reqSize (edge Blk.stop (c.at_ + 36) front') (prevOf front') (nextOf back')))) ∨
      space s c.at_ size reqSize fuel b.at_ = some none ∧
        ∀ front' back', c.Fits size front' back' → front'.length ≤ front.length := by
  induction back generalizing front b fuel with
  | nil =>
    obtain ⟨fuel,rfl⟩ := Nat.exists_eq_add_of_le enough
    have member : b ∈ c.blocks := split ▸ List.mem_append_right _ (List.mem_cons_self ..)
    have pos := valid.at_pos member
    obtain ⟨_,_,last⟩ := valid.order.member member
    obtain ⟨_,next,same⟩ := holds.at_block split
    have next : (minor s.mem b.at_).next = 0 := next
    have stop : b.at_ + 36 + b.size ≤ c.stop := last
    have gap := sub64_gap stop valid.high pos
    have before : edge Blk.stop (c.at_ + 36) (front ++ [b]) = b.at_ + 36 + b.size := edge_concat ..
    rw [List.length_nil,Nat.zero_add,Nat.add_comm 2 fuel,show fuel + 2 = fuel + 1 + 1 from rfl,space,
      if_neg (Nat.ne_of_gt pos)]
    dsimp only
    rw [if_pos next,same,holds.size,show c.at_ + c.size = c.stop from rfl,gap]
    by_cases room : size + 36 ≤ c.stop - (b.at_ + 36 + b.size)
    · refine .inl ⟨front ++ [b],[],⟨by rw [split,List.append_nil],?_⟩,?_⟩
      · rw [before,head_nil]
        omega
      · have high := valid.high
        have small : (b.at_ + 36 + b.size) % 2^64 = b.at_ + 36 + b.size := Nat.mod_eq_of_lt (by omega)
        rw [if_pos room,before,small,prevOf_concat,show nextOf [] = 0 from rfl,inserted,if_neg (not_not.mpr rfl),
          if_pos (Nat.ne_of_gt pos)]
    · refine .inr ⟨?_,fun front' back' fits => ?_⟩
      · rw [if_neg room,next,space,if_pos rfl]
      · -- behind the last block there is only the end of the chunk
        by_contra longer
        have after : c.blocks = (front ++ [b]) ++ [] := by rw [List.append_nil,split]
        have lengths := congrArg List.length (fits.split.symm.trans after)
        simp only [List.length_append,List.length_singleton,List.length_nil] at lengths
        obtain ⟨all,rest⟩ := List.append_inj (fits.split.symm.trans after)
          (by rw [List.length_append,List.length_singleton]; omega)
        have fit := fits.room
        rw [all,rest,before,head_nil] at fit
        omega
  | cons d back ih =>
    obtain ⟨fuel,rfl⟩ := Nat.exists_eq_add_of_le' (Nat.le_trans (Nat.le_add_left 1 _) enough)
    have member : b ∈ c.blocks := split ▸ List.mem_append_right _ (List.mem_cons_self ..)
    have after : c.blocks = (front ++ [b]) ++ d :: back := by rw [split,List.append_assoc]; rfl
    have member' : d ∈ c.blocks := after ▸ List.mem_append_right _ (List.mem_cons_self ..)
    have pos := valid.at_pos member
    have pos' := valid.at_pos member'
    obtain ⟨_,next,same⟩ := holds.at_block split
    have next : (minor s.mem b.at_).next = d.at_ := next
    have order : b.at_ + 36 + b.size ≤ d.at_ := by
      have order := valid.order
      rw [split] at order
      exact order.suffix.2.2.1
    obtain ⟨_,size_,last⟩ := valid.order.member member'
    have small_ : d.at_ < 2^64 := by
      have high := valid.high
      rw [Blk.stop] at last
      omega
    have gap := sub64_gap order (Nat.le_of_lt small_) pos
    rw [Nat.mod_eq_of_lt small_] at gap
    have before : edge Blk.stop (c.at_ + 36) (front ++ [b]) = b.at_ + 36 + b.size := edge_concat ..
    rw [space,if_neg (Nat.ne_of_gt pos)]
    dsimp only
    rw [next,if_neg (Nat.ne_of_gt pos'),same,gap]
    by_cases room : size + 36 ≤ d.at_ - (b.at_ + 36 + b.size)
    · refine .inl ⟨front ++ [b],d :: back,⟨after,?_⟩,?_⟩
      · rw [before,head_cons]
        omega
      · have small : (b.at_ + 36 + b.size) % 2^64 = b.at_ + 36 + b.size := Nat.mod_eq_of_lt (by omega)
        rw [if_pos room,before,small,prevOf_concat,nextOf_cons,inserted,if_pos (Nat.ne_of_gt pos'),
          if_pos (Nat.ne_of_gt pos)]
    · rw [if_neg room]
      rcases ih after (show back.length + 2 ≤ fuel by rw [List.length_cons] at enough; omega) with found | ⟨none_,rest⟩
      · exact .inl found
      · refine .inr ⟨none_,fun front' back' fits => ?_⟩
        have short := rest front' back' fits
        rw [List.length_append,List.length_singleton] at short
        by_contra longer
        obtain ⟨all,tail⟩ := List.append_inj (fits.split.symm.trans after)
          (by rw [List.length_append,List.length_singleton]; omega)
        have fit := fits.room
        rw [all,tail,before,head_cons] at fit
        omega

/-- `CASE 2` to `CASE 4`: the first gap of a chunk that is large enough, if there is one. -/
theorem place_spec (holds : c.Holds s.mem) (valid : c.Valid) (enough : c.blocks.length + 1 ≤ fuel)
    (fresh : c.blocks = [] → size + 72 ≤ c.size) :
    (∃ front back, c.Fits size front back ∧ place s c.at_ size reqSize fuel = some (some
        (inserted s c.at_ size reqSize (edge Blk.stop (c.at_ + 36) front) (prevOf front) (nextOf back)))) ∨
      place s c.at_ size reqSize fuel = some none ∧ ∀ front back, ¬c.Fits size front back := by
  rw [place]
  dsimp only
  rw [holds.first]
  cases blocks : c.blocks with
  | nil =>
    have room := fresh blocks
    refine .inl ⟨[],[],⟨blocks,?_⟩,?_⟩
    · rw [edge_nil,head_nil,Chunk.stop]
      omega
    · rw [List.map_nil,List.headD_nil,if_pos rfl]
      rfl
  | cons b back =>
    have member : b ∈ c.blocks := blocks ▸ List.mem_cons_self ..
    have pos := valid.at_pos member
    obtain ⟨lower,size_,last⟩ := valid.order.member member
    have small : b.at_ < 2^64 := by
      have high := valid.high
      rw [Blk.stop] at last
      omega
    have gap : sub64 (sub64 b.at_ c.at_) 36 = b.at_ - (c.at_ + 36) := by
      simp only [sub64]
      omega
    rw [List.map_cons,List.headD_cons,if_neg (Nat.ne_of_gt pos),gap]
    by_cases room : size + 36 ≤ b.at_ - (c.at_ + 36)
    · refine .inl ⟨[],b :: back,⟨blocks,?_⟩,?_⟩
      · rw [edge_nil,head_cons]
        omega
      · rw [if_pos room,inserted,nextOf_cons,if_pos (Nat.ne_of_gt pos),show prevOf [] = 0 from rfl,
          if_neg (not_not.mpr rfl)]
        rfl
    · rw [if_neg room]
      have behind : back.length + 2 ≤ fuel := by
        rw [blocks,List.length_cons] at enough
        exact enough
      have split : c.blocks = [] ++ b :: back := blocks
      rcases space_spec reqSize holds valid split behind with ⟨front',back',fits,found⟩ | ⟨none_,rest⟩
      · exact .inl ⟨front',back',⟨blocks ▸ fits.split,fits.room⟩,found⟩
      · refine .inr ⟨none_,fun front' back' fits => ?_⟩
        obtain rfl : front' = [] := List.length_eq_zero_iff.mp (Nat.le_zero.mp (rest front' back' fits))
        have fit := fits.room
        have tail : back' = b :: back := fits.split.symm.trans blocks
        rw [tail,edge_nil,head_cons] at fit
        omega

end Place

end Siegfried.ObjHeap
