import Siegfried.ObjPlace

/-! A block more in a chunk. -/
namespace Siegfried.ObjHeap
open Bytes Links Intervals

section Fields
variable {m : Store} {a x v : Nat}

/-- The number is an address of a header or nothing that overlaps one. -/
def Same36 (a x : Nat) : Prop := a = x ∨ a + 36 ≤ x ∨ x + 36 ≤ a

theorem minor_lt (m : Store) (a : Nat) : (minor m a).prev < 2^64 ∧ (minor m a).next < 2^64 ∧
    (minor m a).block < 2^64 ∧ (minor m a).magic < 2^32 ∧ (minor m a).size < 2^32 ∧ (minor m a).reqSize < 2^32 :=
  ⟨read_lt m _ 8,read_lt m _ 8,read_lt m _ 8,read_lt m _ 4,read_lt m _ 4,read_lt m _ 4⟩

theorem major_lt (m : Store) (a : Nat) : (major m a).prev < 2^64 ∧ (major m a).next < 2^64 ∧
    (major m a).pages < 2^32 ∧ (major m a).size < 2^32 ∧ (major m a).usage < 2^32 ∧ (major m a).first < 2^64 :=
  ⟨read_lt m _ 8,read_lt m _ 8,read_lt m _ 4,read_lt m _ 4,read_lt m _ 4,read_lt m _ 8⟩

theorem minor_setNext (small : v < 2^64) (apart : Same36 a x) :
    minor (storeMinor m x { minor m x with next := v }) a =
      { minor m a with next := if a = x then v else (minor m a).next } := by
  rcases apart with rfl | apart
  · obtain ⟨prev,_,block,magic,size,req⟩ := minor_lt m a
    rw [minor_store,if_pos rfl]
    simp only [Minor.clip,Nat.mod_eq_of_lt prev,Nat.mod_eq_of_lt small,Nat.mod_eq_of_lt block,
      Nat.mod_eq_of_lt magic,Nat.mod_eq_of_lt size,Nat.mod_eq_of_lt req]
  · rw [minor_storeMinor _ apart,if_neg (by omega)]

theorem minor_setPrev (small : v < 2^64) (apart : Same36 a x) :
    minor (storeMinor m x { minor m x with prev := v }) a =
      { minor m a with prev := if a = x then v else (minor m a).prev } := by
  rcases apart with rfl | apart
  · obtain ⟨_,next,block,magic,size,req⟩ := minor_lt m a
    rw [minor_store,if_pos rfl]
    simp only [Minor.clip,Nat.mod_eq_of_lt next,Nat.mod_eq_of_lt small,Nat.mod_eq_of_lt block,
      Nat.mod_eq_of_lt magic,Nat.mod_eq_of_lt size,Nat.mod_eq_of_lt req]
  · rw [minor_storeMinor _ apart,if_neg (by omega)]

theorem minor_setReq (small : v < 2^32) (apart : Same36 a x) :
    minor (storeMinor m x { minor m x with reqSize := v }) a =
      { minor m a with reqSize := if a = x then v else (minor m a).reqSize } := by
  rcases apart with rfl | apart
  · obtain ⟨prev,next,block,magic,size,_⟩ := minor_lt m a
    rw [minor_store,if_pos rfl]
    simp only [Minor.clip,Nat.mod_eq_of_lt prev,Nat.mod_eq_of_lt next,Nat.mod_eq_of_lt small,Nat.mod_eq_of_lt block,
      Nat.mod_eq_of_lt magic,Nat.mod_eq_of_lt size]
  · rw [minor_storeMinor _ apart,if_neg (by omega)]

theorem major_setNext (small : v < 2^64) (apart : Same36 a x) :
    major (storeMajor m x { major m x with next := v }) a =
      { major m a with next := if a = x then v else (major m a).next } := by
  rcases apart with rfl | apart
  · obtain ⟨prev,_,pages,size,usage,first⟩ := major_lt m a
    rw [major_store,if_pos rfl]
    simp only [Major.clip,Nat.mod_eq_of_lt prev,Nat.mod_eq_of_lt small,Nat.mod_eq_of_lt pages,
      Nat.mod_eq_of_lt size,Nat.mod_eq_of_lt usage,Nat.mod_eq_of_lt first]
  · rw [major_storeMajor _ apart,if_neg (by omega)]

theorem major_setPrev (small : v < 2^64) (apart : Same36 a x) :
    major (storeMajor m x { major m x with prev := v }) a =
      { major m a with prev := if a = x then v else (major m a).prev } := by
  rcases apart with rfl | apart
  · obtain ⟨_,next,pages,size,usage,first⟩ := major_lt m a
    rw [major_store,if_pos rfl]
    simp only [Major.clip,Nat.mod_eq_of_lt next,Nat.mod_eq_of_lt small,Nat.mod_eq_of_lt pages,
      Nat.mod_eq_of_lt size,Nat.mod_eq_of_lt usage,Nat.mod_eq_of_lt first]
  · rw [major_storeMajor _ apart,if_neg (by omega)]

theorem major_setFirst (small : v < 2^64) :
    major (storeMajor m a { major m a with first := v }) a = { major m a with first := v } := by
  obtain ⟨prev,next,pages,size,usage,_⟩ := major_lt m a
  rw [major_store]
  simp only [Major.clip,Nat.mod_eq_of_lt prev,Nat.mod_eq_of_lt next,Nat.mod_eq_of_lt pages,
    Nat.mod_eq_of_lt size,Nat.mod_eq_of_lt usage,Nat.mod_eq_of_lt small]

theorem major_setUsage (small : v < 2^32) :
    major (storeMajor m a { major m a with usage := v }) a = { major m a with usage := v } := by
  obtain ⟨prev,next,pages,size,_,first⟩ := major_lt m a
  rw [major_store]
  simp only [Major.clip,Nat.mod_eq_of_lt prev,Nat.mod_eq_of_lt next,Nat.mod_eq_of_lt pages,
    Nat.mod_eq_of_lt size,Nat.mod_eq_of_lt small,Nat.mod_eq_of_lt first]

end Fields

/-- The memory with `first` before `next`, and `last` behind `prev` or at the beginning of the list. -/
def linkAround (m : Store) (maj first last prev next : Nat) : Store :=
  let m := if next ≠ 0 then storeMinor m next { minor m next with prev := first } else m
  if prev ≠ 0 then storeMinor m prev { minor m prev with next := last }
    else storeMajor m maj { major m maj with first := last }

/-- The memory with the header of a block filled in. -/
def fillIn (m : Store) (maj prev next : Nat) (b : Blk) : Store :=
  let m := storeMinor m b.at_ ⟨prev,next,maj,magic,b.size,b.req⟩
  let m := storeMajor m maj { major m maj with usage := (major m maj).usage + b.size + 36 }
  Function.update m (b.ptr - 16) (.ofNat (b.ptr - (b.at_ + 36)))

theorem inserted_eq (s : Liballoc) (maj prev next : Nat) (b : Blk) :
    inserted s maj b.size b.req b.at_ prev next =
      ({ s with mem := fillIn (linkAround s.mem maj b.at_ b.at_ prev next) maj prev next b
                inuse := (s.inuse + b.size) % 2^64 },b.ptr) := by
  rw [inserted,linkAround]
  by_cases last : next ≠ 0
  · by_cases first : prev ≠ 0
    · simp only [if_pos last,if_pos first,newMinor,Liballoc.setMinor,Liballoc.setMajor,align_eq,fillIn]
    · simp only [if_pos last,if_neg first,newMinor,Liballoc.setMinor,Liballoc.setMajor,align_eq,fillIn]
  · by_cases first : prev ≠ 0
    · simp only [if_neg last,if_pos first,newMinor,Liballoc.setMinor,Liballoc.setMajor,align_eq,fillIn]
    · simp only [if_neg last,if_neg first,newMinor,Liballoc.setMinor,Liballoc.setMajor,align_eq,fillIn]

section Around
variable {m : Store} {c : Chunk} {first last prev next : Nat} {b : Blk}

/-- No block, or one of the chunk. -/
def Chunk.Near (c : Chunk) (x : Nat) : Prop := x = 0 ∨ ∃ b ∈ c.blocks, b.at_ = x

theorem Chunk.Valid.apart (valid : c.Valid) {b b' : Blk} (hb : b ∈ c.blocks) (hb' : b' ∈ c.blocks) :
    b = b' ∨ b.stop ≤ b'.at_ ∨ b'.stop ≤ b.at_ := by
  have ordered := valid.order.pairwise
  have weaker : c.blocks.Pairwise fun b b' => b = b' ∨ b.stop ≤ b'.at_ ∨ b'.stop ≤ b.at_ :=
    ordered.imp fun order => .inr (.inl order)
  have flipped : c.blocks.Pairwise (flip fun b b' => b = b' ∨ b.stop ≤ b'.at_ ∨ b'.stop ≤ b.at_) :=
    ordered.imp fun order => .inr (.inr order)
  exact weaker.forall_of_forall_of_flip (fun _ _ => .inl rfl) flipped hb hb'

theorem Chunk.Valid.same36 (valid : c.Valid) (hb : b ∈ c.blocks) {x : Nat} (near : c.Near x) (some_ : x ≠ 0) :
    Same36 b.at_ x := by
  obtain ⟨b',hb',rfl⟩ := near.resolve_left some_
  rcases valid.apart hb hb' with rfl | before | behind
  · exact .inl rfl
  · rw [Blk.stop] at before
    exact .inr (.inl (by omega))
  · rw [Blk.stop] at behind
    exact .inr (.inr (by omega))

theorem Chunk.Valid.head_apart (valid : c.Valid) {x : Nat} (near : c.Near x) (some_ : x ≠ 0) : c.at_ + 36 ≤ x := by
  obtain ⟨b',hb',rfl⟩ := near.resolve_left some_
  exact (valid.order.member hb').1

theorem linkAround_minor (valid : c.Valid) (small : first < 2^64 ∧ last < 2^64) (before : c.Near prev)
    (after : c.Near next) (hb : b ∈ c.blocks) : minor (linkAround m c.at_ first last prev next) b.at_ =
      { minor m b.at_ with
        prev := if b.at_ = next then first else (minor m b.at_).prev
        next := if b.at_ = prev then last else (minor m b.at_).next } := by
  have pos := valid.at_pos hb
  have ahead : minor (if next ≠ 0 then storeMinor m next { minor m next with prev := first } else m) b.at_ =
      { minor m b.at_ with prev := if b.at_ = next then first else (minor m b.at_).prev } := by
    by_cases there : next ≠ 0
    · rw [if_pos there,minor_setPrev small.1 (valid.same36 hb after there)]
    · rw [if_neg there,if_neg (by omega)]
  rw [linkAround]
  dsimp only
  by_cases some_ : prev ≠ 0
  · rw [if_pos some_,minor_setNext small.2 (valid.same36 hb before some_),ahead]
  · have low := (valid.order.member hb).1
    rw [if_neg some_,minor_storeMajor _ (.inr low),ahead,if_neg (show b.at_ ≠ prev by omega)]

theorem linkAround_major (m : Store) (first : Nat) (valid : c.Valid) (small : last < 2^64) (before : c.Near prev) (after : c.Near next) :
    major (linkAround m c.at_ first last prev next) c.at_ =
      { major m c.at_ with first := if prev = 0 then last else (major m c.at_).first } := by
  have ahead : major (if next ≠ 0 then storeMinor m next { minor m next with prev := first } else m) c.at_ =
      major m c.at_ := by
    by_cases there : next ≠ 0
    · rw [if_pos there,major_storeMinor _ (.inl (valid.head_apart after there))]
    · rw [if_neg there]
  rw [linkAround]
  dsimp only
  by_cases some_ : prev ≠ 0
  · rw [if_pos some_,major_storeMinor _ (.inl (valid.head_apart before some_)),ahead,if_neg some_]
  · rw [if_neg some_,major_setFirst small,ahead,if_pos (not_not.mp some_)]

/-- Only headers of the chunk are written to. -/
theorem linkAround_apart {i : Nat} (before : c.Near prev) (after : c.Near next) (major : i < c.at_ ∨ c.at_ + 36 ≤ i)
    (minors : ∀ b ∈ c.blocks, i < b.at_ ∨ b.at_ + 36 ≤ i) : linkAround m c.at_ first last prev next i = m i := by
  have ahead : (if next ≠ 0 then storeMinor m next { minor m next with prev := first } else m) i = m i := by
    by_cases there : next ≠ 0
    · obtain ⟨b,hb,rfl⟩ := after.resolve_left there
      rw [if_pos there,storeMinor_apart _ (minors b hb)]
    · rw [if_neg there]
  rw [linkAround]
  dsimp only
  by_cases some_ : prev ≠ 0
  · obtain ⟨b,hb,rfl⟩ := before.resolve_left some_
    rw [if_pos some_,storeMinor_apart _ (minors b hb),ahead]
  · rw [if_neg some_,storeMajor_apart _ major,ahead]

end Around

section Insert
variable {m : Store} {c : Chunk} {front back : List Blk} {n b : Blk} {prev next : Nat} {i : Nat}

theorem Chunk.Valid.usage_le (valid : c.Valid) : c.usage ≤ c.size := by
  have all := valid.order.sum_le
  have sizes : (c.blocks.map fun b => b.stop - b.at_) = c.blocks.map fun b => b.size + 36 := by
    refine List.map_congr_left fun b _ => ?_
    rw [Blk.stop]
    omega
  rw [sizes,Chunk.stop] at all
  rw [Chunk.usage]
  omega

theorem Chunk.Valid.size_lt (valid : c.Valid) : c.size < 2^32 := by
  have few := valid.few
  rw [Chunk.size]
  omega

theorem fillIn_major (apart : c.at_ + 36 ≤ n.at_)
    (small : (major m c.at_).usage + n.size + 36 < 2^32) :
    major (fillIn m c.at_ prev next n) c.at_ =
      { major m c.at_ with usage := (major m c.at_).usage + n.size + 36 } := by
  have bounds := n.ptr_bounds
  have header : major (storeMinor m n.at_ ⟨prev,next,c.at_,magic,n.size,n.req⟩) c.at_ = major m c.at_ :=
    major_storeMinor _ (.inl apart)
  rw [← header] at small
  calc major (fillIn m c.at_ prev next n) c.at_
      = major (storeMajor (storeMinor m n.at_ ⟨prev,next,c.at_,magic,n.size,n.req⟩) c.at_
          { major (storeMinor m n.at_ ⟨prev,next,c.at_,magic,n.size,n.req⟩) c.at_ with
            usage := (major (storeMinor m n.at_ ⟨prev,next,c.at_,magic,n.size,n.req⟩) c.at_).usage +
              n.size + 36 }) c.at_ :=
        major_congr fun i _ _ => Function.update_of_ne (by omega) ..
    _ = { major m c.at_ with usage := (major m c.at_).usage + n.size + 36 } := by
        rw [major_setUsage small,header]

theorem fillIn_new (apart : c.at_ + 36 ≤ n.at_) (near : prev < 2^64 ∧ next < 2^64 ∧ c.at_ < 2^64)
    (small : n.size < 2^32 ∧ n.req < 2^32) :
    minor (fillIn m c.at_ prev next n) n.at_ = ⟨prev,next,c.at_,magic,n.size,n.req⟩ := by
  have bounds := n.ptr_bounds
  calc minor (fillIn m c.at_ prev next n) n.at_
      = minor (storeMajor (storeMinor m n.at_ ⟨prev,next,c.at_,magic,n.size,n.req⟩) c.at_ _) n.at_ :=
        minor_congr fun i _ _ => Function.update_of_ne (by omega) ..
    _ = (⟨prev,next,c.at_,magic,n.size,n.req⟩ : Minor).clip := by
        rw [minor_storeMajor _ (.inr apart),minor_store]
    _ = ⟨prev,next,c.at_,magic,n.size,n.req⟩ := by
        simp only [Minor.clip,Nat.mod_eq_of_lt near.1,Nat.mod_eq_of_lt near.2.1,Nat.mod_eq_of_lt near.2.2,
          Nat.mod_eq_of_lt small.1,Nat.mod_eq_of_lt small.2,Nat.mod_eq_of_lt (show magic < 2^32 by decide)]

theorem fillIn_tag : (fillIn m c.at_ prev next n (n.ptr - 16)).toNat = n.ptr - (n.at_ + 36) := by
  have bounds := n.ptr_bounds
  rw [fillIn,Function.update_self,UInt8.toNat_ofNat']
  omega

theorem fillIn_apart (room : n.req + 144 ≤ n.size) (major : i < c.at_ ∨ c.at_ + 36 ≤ i) (new : i < n.at_ ∨ n.stop ≤ i) :
    fillIn m c.at_ prev next n i = m i := by
  have bounds := n.ptr_bounds
  rw [Blk.stop] at new
  rw [fillIn,Function.update_of_ne (by omega),storeMajor_apart _ major,storeMinor_apart _ (by omega)]

/-- What an operation on a chunk leaves of the memory. -/
structure Changes (m m' : Store) (c c' : Chunk) : Prop where
  valid : c'.Valid
  holds : c'.Holds m'
  prev : (major m' c.at_).prev = (major m c.at_).prev
  next : (major m' c.at_).next = (major m c.at_).next
  outside : ∀ i, i < c.at_ ∨ c.stop ≤ i → m' i = m i
  bodies : ∀ b ∈ c.blocks, ∀ i, b.at_ + 36 ≤ i → i < b.stop → m' i = m i

/-- The chunk with one more block. -/
def Chunk.add (c : Chunk) (front back : List Blk) (size req : Nat) : Chunk :=
  { c with blocks := front ++ ⟨edge Blk.stop (c.at_ + 36) front,size,req⟩ :: back }

theorem Chunk.Fits.near (fits : c.Fits n.size front back) : c.Near (prevOf front) ∧ c.Near (nextOf back) := by
  constructor
  · rcases List.eq_nil_or_concat front with rfl | ⟨init,b,rfl⟩
    · exact .inl rfl
    · rw [List.concat_eq_append] at fits ⊢
      have member : b ∈ c.blocks := by
        rw [fits.split]
        exact List.mem_append_left _ (List.mem_append_right _ (List.mem_singleton_self b))
      exact .inr ⟨b,member,prevOf_concat.symm⟩
  · cases back with
    | nil => exact .inl rfl
    | cons b back =>
      have member : b ∈ c.blocks := by
        rw [fits.split]
        exact List.mem_append_right _ (List.mem_cons_self ..)
      exact .inr ⟨b,member,rfl⟩

theorem Chunk.Fits.add_valid {size req : Nat} (fits : c.Fits size front back) (valid : c.Valid)
    (room : req + 144 ≤ size) : (c.add front back size req).Valid where
  order := by
    have order := valid.order
    rw [fits.split] at order
    refine order.insert (Nat.le_refl _) ?_ ?_
    · rw [Blk.stop]
      omega
    · have gap := fits.room
      rw [Blk.stop]
      dsimp only
      omega
  room b hb := by
    rcases List.mem_append.mp hb with old | new
    · exact valid.room b (fits.split ▸ List.mem_append_left _ old)
    · rcases List.mem_cons.mp new with rfl | old
      · exact room
      · exact valid.room b (fits.split ▸ List.mem_append_right _ old)
  some_ := valid.some_
  few := valid.few
  low := valid.low
  high := valid.high

theorem Chunk.Valid.nodup (valid : c.Valid) : (c.blocks.map Blk.at_).Nodup := by
  refine List.pairwise_map.mpr (valid.order.pairwise.imp fun {b b'} order => ?_)
  rw [Blk.stop] at order
  omega

/-- The place of a new block, and the others. -/
structure Chunk.Fits.Free (c : Chunk) (n : Blk) : Prop where
  lower : c.at_ + 36 ≤ n.at_
  upper : n.stop ≤ c.stop
  blocks : ∀ b ∈ c.blocks, b.stop ≤ n.at_ ∨ n.stop ≤ b.at_

theorem Chunk.Fits.free {size req : Nat} (fits : c.Fits size front back) (valid : c.Valid) (room : req + 144 ≤ size) :
    Free c ⟨edge Blk.stop (c.at_ + 36) front,size,req⟩ := by
  have order := (fits.add_valid valid room).order
  obtain ⟨lower,_,upper⟩ := order.member (List.mem_append_right front (List.mem_cons_self ..))
  refine ⟨lower,upper,fun b hb => ?_⟩
  obtain ⟨_,behind,before⟩ := List.pairwise_append.mp order.pairwise
  rcases List.mem_append.mp (fits.split ▸ hb) with ahead | later
  · exact .inl (before b ahead _ (List.mem_cons_self ..))
  · exact .inr ((List.pairwise_cons.mp behind).1 b later)

/-- The headers behind `CASE 2`, `CASE 3` and `CASE 4`, and the bytes that are as before. -/
structure Filled (m m' : Store) (c : Chunk) (front back : List Blk) (n : Blk) : Prop where
  minors : ∀ b ∈ c.blocks, minor m' b.at_ =
    { minor m b.at_ with
      prev := if b.at_ = nextOf back then n.at_ else (minor m b.at_).prev
      next := if b.at_ = prevOf front then n.at_ else (minor m b.at_).next }
  fresh : minor m' n.at_ = ⟨prevOf front,nextOf back,c.at_,magic,n.size,n.req⟩
  tag : (m' (n.ptr - 16)).toNat = n.ptr - (n.at_ + 36)
  top : major m' c.at_ =
    { major m c.at_ with
      first := if prevOf front = 0 then n.at_ else (major m c.at_).first
      usage := (major m c.at_).usage + n.size + 36 }
  outside : ∀ i, i < c.at_ ∨ c.stop ≤ i → m' i = m i
  bodies : ∀ b ∈ c.blocks, ∀ i, b.at_ + 36 ≤ i → i < b.stop → m' i = m i

theorem filled (valid : c.Valid) (before : c.Near (prevOf front)) (after : c.Near (nextOf back))
    (free : Chunk.Fits.Free c n) (room : n.req + 144 ≤ n.size)
    (small : (major m c.at_).usage + n.size + 36 < 2^32) :
    Filled m (fillIn (linkAround m c.at_ n.at_ n.at_ (prevOf front) (nextOf back)) c.at_ (prevOf front) (nextOf back) n)
      c front back n := by
  obtain ⟨lower,upper,others⟩ := free
  have high := valid.high
  have stop : n.stop = n.at_ + 36 + n.size := rfl
  have place : n.at_ < 2^64 := by omega
  have around := linkAround_major m n.at_ valid place before after
  have links (b : Blk) (hb : b ∈ c.blocks) := linkAround_minor (m := m) valid ⟨place,place⟩ before after hb
  have untouched (i : Nat) (major : i < c.at_ ∨ c.at_ + 36 ≤ i) (minors : ∀ b ∈ c.blocks, i < b.at_ ∨ b.at_ + 36 ≤ i) :
      linkAround m c.at_ n.at_ n.at_ (prevOf front) (nextOf back) i = m i := linkAround_apart before after major minors
  generalize linkAround m c.at_ n.at_ n.at_ (prevOf front) (nextOf back) = m1 at *
  -- the bytes of a block are outside of the new one and of the major
  have outside {b : Blk} (hb : b ∈ c.blocks) {i : Nat} (low : b.at_ ≤ i) (high : i < b.stop) :
      fillIn m1 c.at_ (prevOf front) (nextOf back) n i = m1 i := by
    obtain ⟨first,_⟩ := valid.order.member hb
    apply fillIn_apart room (.inr (by omega))
    rcases others b hb with ahead | later <;> omega
  have near (x : Nat) (there : c.Near x) : x < 2^64 := by
    rcases there with rfl | ⟨b,hb,rfl⟩
    · decide
    · obtain ⟨_,_,last⟩ := valid.order.member hb
      rw [Blk.stop] at last
      omega
  refine ⟨fun b hb => ?_,?_,fillIn_tag,?_,fun i away => ?_,fun b hb i low high => ?_⟩
  · rw [← links b hb]
    exact minor_congr fun i low high => outside hb low (by rw [Blk.stop]; omega)
  · exact fillIn_new lower ⟨near _ before,near _ after,by omega⟩ (by omega)
  · have fits : (major m1 c.at_).usage + n.size + 36 < 2^32 := by
      rw [around]
      exact small
    rw [fillIn_major lower fits,around]
  · have apart : fillIn m1 c.at_ (prevOf front) (nextOf back) n i = m1 i :=
      fillIn_apart room (by omega) (by omega)
    rw [apart]
    apply untouched i (by omega)
    intro b hb
    obtain ⟨first,_,last⟩ := valid.order.member hb
    rw [Blk.stop] at last
    omega
  · obtain ⟨first,_⟩ := valid.order.member hb
    rw [outside hb (by omega) high]
    apply untouched i (.inr (by omega))
    intro b' hb'
    rcases valid.apart hb' hb with rfl | ahead | later
    · exact .inr low
    · rw [Blk.stop] at ahead
      exact .inr (by omega)
    · exact .inl (by omega)

section Filled
variable {m' : Store}

/-- Headers around a place that are linked anew. -/
theorem sets_of_minors {first last : Nat} (pos : ∀ b ∈ front ++ back, 0 < b.at_)
    (minors : ∀ b ∈ front ++ back, minor m' b.at_ =
      { minor m b.at_ with
        prev := if b.at_ = nextOf back then first else (minor m b.at_).prev
        next := if b.at_ = prevOf front then last else (minor m b.at_).next }) :
    Sets (fun a => (minor m a).prev) (fun a => (minor m a).next) (fun a => (minor m' a).prev)
      (fun a => (minor m' a).next) (front.map Blk.at_) (back.map Blk.at_) first last := by
  have member (a : Nat) (ha : a ∈ front.map Blk.at_ ++ back.map Blk.at_) : ∃ b ∈ front ++ back, b.at_ = a := by
    rw [← List.map_append] at ha
    exact List.mem_map.mp ha
  have some_ : ∀ a ∈ front.map Blk.at_ ++ back.map Blk.at_, a ≠ 0 := fun a ha => by
    obtain ⟨b,hb,rfl⟩ := member a ha
    exact Nat.ne_of_gt (pos b hb)
  refine Sets.of_ite some_ (fun a ha => ?_) (fun a ha => ?_)
  · obtain ⟨b,hb,rfl⟩ := member a ha
    rw [minors b hb]
    rfl
  · obtain ⟨b,hb,rfl⟩ := member a ha
    rw [minors b hb]
    rfl

theorem Filled.links (filled : Filled m m' c front back n) (holds : c.Holds m) (valid : c.Valid)
    (split : c.blocks = front ++ back) : Linked 0 (fun a => (minor m' a).prev) (fun a => (minor m' a).next) 0
      ((front ++ n :: back).map Blk.at_) := by
  have links := holds.links
  have nodup := valid.nodup
  rw [split,List.map_append] at links nodup
  rw [List.map_append,List.map_cons]
  have sets := sets_of_minors (fun b hb => valid.at_pos (split ▸ hb)) (fun b hb => filled.minors b (split ▸ hb))
  exact links.insert_sets nodup sets (by rw [filled.fresh]; rfl) (by rw [filled.fresh]; rfl)

theorem prevOf_cons_ne (valid : c.Valid) (inside : ∀ b ∈ front, b ∈ c.blocks) (some_ : front ≠ []) :
    prevOf front ≠ 0 := by
  rcases List.eq_nil_or_concat front with none_ | ⟨init,b,rfl⟩
  · exact absurd none_ some_
  · rw [List.concat_eq_append,prevOf_concat]
    exact Nat.ne_of_gt (valid.at_pos (inside b (by simp)))

theorem Filled.holds (filled : Filled m m' c front back n) (holds : c.Holds m) (valid : c.Valid)
    (split : c.blocks = front ++ back) : ({ c with blocks := front ++ n :: back } : Chunk).Holds m' where
  pages := by
    rw [filled.top]
    exact holds.pages
  size := by
    rw [filled.top]
    exact holds.size
  usage := by
    rw [filled.top]
    dsimp only
    rw [holds.usage,Chunk.usage,Chunk.usage,split]
    simp only [List.map_append,List.map_cons,List.sum_append,List.sum_cons]
    omega
  first := by
    rw [filled.top]
    dsimp only
    cases front with
    | nil => exact if_pos rfl
    | cons b rest =>
      have there := prevOf_cons_ne valid (fun x hx => split ▸ List.mem_append_left _ hx) (List.cons_ne_nil b rest)
      rw [if_neg there,holds.first,split]
      rfl
  links := filled.links holds valid split
  blocks b hb := by
    have old (b : Blk) (hb : b ∈ c.blocks) :
        ({ c with blocks := front ++ n :: back } : Chunk).BlkHolds m' b := by
      obtain ⟨block,magic_,size_,req_,tag⟩ := holds.blocks b hb
      have bounds := b.ptr_bounds
      have fit := valid.room b hb
      have same := filled.bodies b hb (b.ptr - 16) (by omega) (by rw [Blk.stop]; omega)
      have header := filled.minors b hb
      exact ⟨header ▸ block,header ▸ magic_,header ▸ size_,header ▸ req_,same ▸ tag⟩
    rcases List.mem_append.mp hb with ahead | later
    · exact old b (split ▸ List.mem_append_left _ ahead)
    · rcases List.mem_cons.mp later with rfl | later
      · exact ⟨by rw [filled.fresh],by rw [filled.fresh],by rw [filled.fresh],by rw [filled.fresh],filled.tag⟩
      · exact old b (split ▸ List.mem_append_right _ later)

end Filled

/-- The memory after `CASE 2`, `CASE 3` and `CASE 4`. -/
theorem Chunk.Fits.changes {size req : Nat} (fits : c.Fits size front back) (holds : c.Holds m) (valid : c.Valid)
    (room : req + 144 ≤ size) :
    Changes m (fillIn (linkAround m c.at_ (edge Blk.stop (c.at_ + 36) front) (edge Blk.stop (c.at_ + 36) front)
      (prevOf front) (nextOf back)) c.at_ (prevOf front) (nextOf back) ⟨edge Blk.stop (c.at_ + 36) front,size,req⟩) c (c.add front back size req) := by
  have added := fits.add_valid valid room
  obtain ⟨before,after⟩ := fits.near (n := ⟨0,size,0⟩)
  have usage := added.usage_le
  have limit := valid.size_lt
  have counted : (c.add front back size req).usage = c.usage + size + 36 := by
    rw [Chunk.usage,Chunk.usage,Chunk.add,fits.split]
    simp only [List.map_append,List.map_cons,List.sum_append,List.sum_cons]
    omega
  change (c.add front back size req).usage ≤ c.size at usage
  have all := filled (m := m) valid before after (fits.free valid room) room (by rw [holds.usage]; dsimp only; omega)
  refine ⟨added,all.holds holds valid fits.split,?_,?_,all.outside,all.bodies⟩
  · rw [all.top]
  · rw [all.top]

end Insert

end Siegfried.ObjHeap
