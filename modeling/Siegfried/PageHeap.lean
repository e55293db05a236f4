import Siegfried.SlotStack
import Mathlib.Data.List.Nodup
import Mathlib.Data.List.Pairwise
import Mathlib.Algebra.Group.Int.Defs
import Mathlib.Algebra.Group.Nat.Defs

/-! `pageobj_heap.c`: the heap of 4096-byte pages. A block keeps its free offsets on
a stack stored right behind its header, inside the memory it manages. -/
namespace Siegfried

/-- `KHEAPBLOCKSS` at `addr`, with the offset stack behind it. -/
structure Block where
  addr : Nat
  top : Nat
  max : Nat
  size : Nat
  extended : Bool
  stack : Nat → Nat

/-- `KHEAPSS`; `blocks` is the chain from `fblock`. No function reads `out`: it
records the pages handed out and not yet freed. -/
structure Heap where
  blocks : List Block
  bsize : Nat
  out : List Nat

def kPageobjInitHeap (bsize : Nat) : Heap := ⟨[],bsize,[]⟩

/-- Slots that lie under the offset stack. The product is one of `unsigned int`s. -/
def slotres (bsize max : Nat) : Nat :=
  let stacksz := max * 8 % 2^32
  if stacksz / bsize * bsize < stacksz then stacksz / bsize + 1 else stacksz / bsize

def kPageobjAddHeapblk (h : Heap) (addr size : Nat) : Heap :=
  let max := (size + 2^64 - h.bsize) % 2^64 / h.bsize % 2^32
  let reserved := slotres h.bsize max
  let b : Block :=
    { addr, size, max
      top := reserved
      extended := false
      stack := fun x => if reserved ≤ x ∧ x < max then x * h.bsize else 0 }
  { h with blocks := b :: h.blocks }

/-- A page taken from a heap, and whether the block it came from runs low and has
to be extended. -/
structure Taken (σ : Type) where
  ptr : Nat
  grows : Bool
  rest : σ

def Block.take (bsize : Nat) (b : Block) : Taken Block :=
  let ptr := b.addr + bsize + b.stack b.top
  let top := b.top + 1
  let grows := decide ((b.max + 2^32 - top) % 2^32 < 3) && !b.extended
  ⟨ptr,grows,{ b with top, extended := b.extended || grows }⟩

def takeFrom (bsize : Nat) : List Block → Option (Taken (List Block))
  | [] => none
  | b :: bs =>
    if b.top ≠ b.max then
      let t := b.take bsize
      some ⟨t.ptr,t.grows,t.rest :: bs⟩
    else (takeFrom bsize bs).map fun t => ⟨t.ptr,t.grows,b :: t.rest⟩

/-- The search of `k_pageobj_alloc`, up to the point where it would extend the heap. -/
def Heap.take (h : Heap) : Option (Taken Heap) :=
  (takeFrom h.bsize h.blocks).map fun t =>
    ⟨t.ptr,t.grows,{ h with blocks := t.rest, out := t.ptr :: h.out }⟩

/-- The test by which `k_pageobj_free` finds the block of a page. -/
def Block.holds (b : Block) (ptr : Nat) : Bool :=
  decide (b.addr < ptr) && decide (ptr < b.addr + b.size)

def Block.give (bsize ptr : Nat) (b : Block) : Block :=
  let top := if b.top = 0 then 2^32 - 1 else b.top - 1
  { b with top, stack := Function.update b.stack top (ptr - b.addr - bsize) }

/-- A block of 32 MB whose last page comes back is unlinked. -/
def Block.empties (b : Block) : Bool := decide (b.size = 0x2000000) && decide (b.top = 0x10)

def giveTo (bsize ptr : Nat) : List Block → List Block × Option Block
  | [] => ([],none)
  | b :: bs =>
    if b.holds ptr then
      let b := b.give bsize ptr
      if b.empties then (bs,some b) else (b :: bs,none)
    else
      let rest := giveTo bsize ptr bs
      (b :: rest.1,rest.2)

def resetHead : List Block → List Block
  | [] => []
  | b :: bs =>
    (if 3 ≤ (b.max + 2^32 - b.top) % 2^32 then { b with extended := false } else b) :: bs

/-- The effect of `k_pageobj_free` on the heap; `unlinked` is the block it then
hands to `page_free_found`. -/
def Heap.free (h : Heap) (ptr : Nat) : Heap :=
  if h.blocks.any (·.holds ptr) then
    { h with
      blocks := resetHead (giveTo h.bsize ptr h.blocks).1
      out := h.out.erase ptr }
  else h

def Heap.unlinked (h : Heap) (ptr : Nat) : Option Block := (giveTo h.bsize ptr h.blocks).2

/-- What is left of a word at `addr` holding `v` once the bytes `[lo,hi)` are zero. -/
def clearWord (lo hi addr v : Nat) : Nat :=
  if addr + 8 ≤ lo ∨ hi ≤ addr then v
  else v % 2^(8 * (lo - addr)) + v / 2^(8 * min 8 (hi - addr)) * 2^(8 * min 8 (hi - addr))

/-- The stack of a block is ordinary memory, 32 bytes behind the header. -/
def Block.clear (lo hi : Nat) (b : Block) : Block :=
  { b with stack := fun x =>
      if x < b.max then clearWord lo hi (b.addr + 32 + 8 * x) (b.stack x) else b.stack x }

/-- The zeroing at the end of `k_pageobj_alloc`. A page starts a page or more past
the header of its block, so of its own block it can only meet the stack. -/
def Heap.clear (h : Heap) (lo hi : Nat) : Heap :=
  { h with blocks := h.blocks.map (Block.clear lo hi) }

/-- One inversion for every successful search. -/
theorem takeFrom_some {bs : List Block} {t : Taken (List Block)} (h : takeFrom bsize bs = some t) :
    ∃ before b after, bs = before ++ b :: after ∧ (∀ c ∈ before, c.top = c.max) ∧
      b.top ≠ b.max ∧ t = ⟨(b.take bsize).ptr,(b.take bsize).grows,
        before ++ (b.take bsize).rest :: after⟩ := by
  induction bs generalizing t with
  | nil => simp [takeFrom] at h
  | cons b bs ih =>
    simp only [takeFrom] at h
    split at h
    · next room => exact ⟨[],b,bs,rfl,by simp,room,(Option.some.inj h).symm⟩
    · next full =>
      obtain ⟨u,hu,rfl⟩ := Option.map_eq_some_iff.mp h
      obtain ⟨before,c,after,rfl,all,room,rfl⟩ := ih hu
      refine ⟨b :: before,c,after,rfl,?_,room,rfl⟩
      intro d member
      rcases List.mem_cons.mp member with rfl | member
      · exact Decidable.not_not.mp full
      · exact all d member

theorem take_some {h : Heap} {t : Taken Heap} (taken : h.take = some t) :
    ∃ before b after, h.blocks = before ++ b :: after ∧ (∀ c ∈ before, c.top = c.max) ∧
      b.top ≠ b.max ∧ t = ⟨(b.take h.bsize).ptr,(b.take h.bsize).grows,
        { h with
          blocks := before ++ (b.take h.bsize).rest :: after
          out := (b.take h.bsize).ptr :: h.out }⟩ := by
  obtain ⟨u,hu,rfl⟩ := Option.map_eq_some_iff.mp taken
  obtain ⟨before,b,after,split,all,room,rfl⟩ := takeFrom_some hu
  exact ⟨before,b,after,split,all,room,rfl⟩

/-- Freeing goes to the first block that holds the page. -/
theorem giveTo_split {before after : List Block} {b : Block}
    (others : ∀ c ∈ before, c.holds ptr = false) (holds : b.holds ptr = true) :
    (giveTo bsize ptr (before ++ b :: after)).1 =
      if (b.give bsize ptr).empties then before ++ after
      else before ++ b.give bsize ptr :: after := by
  induction before with
  | nil =>
    simp only [List.nil_append,giveTo,holds,if_true]
    split <;> rfl
  | cons c before ih =>
    have away := others c (List.mem_cons_self ..)
    simp only [List.cons_append,giveTo,away]
    simp only [Bool.false_eq_true,if_false]
    rw [ih fun d member => others d (List.mem_cons_of_mem _ member)]
    split <;> rfl

/-- The stack of a block as an abstract slot stack. -/
def Block.slots (b : Block) : SlotStack.Stack := ⟨b.top,b.max,b.stack⟩

/-- Offsets of the block's pages among `out`. -/
def Block.offsets (b : Block) (out : List Nat) : List Nat :=
  (out.filter b.holds).map fun p => p - b.addr - 4096

/-- The offsets a block manages. -/
def Block.range (b : Block) : List Nat :=
  (List.range' (slotres 4096 b.max) (b.max - slotres 4096 b.max)).map (· * 4096)

def Block.Apart (a b : Block) : Prop := a.addr + a.size ≤ b.addr ∨ b.addr + b.size ≤ a.addr

theorem Block.Apart.symm {a b : Block} (apart : a.Apart b) : b.Apart a := Or.symm apart

instance : Std.Symm Block.Apart := ⟨fun _ _ => Block.Apart.symm⟩

theorem Block.Apart.not_holds {a b : Block} (apart : a.Apart b) (holds : a.holds p = true) :
    b.holds p = false := by
  simp only [Block.holds,Bool.and_eq_true,decide_eq_true_eq,Bool.and_eq_false_iff,
    decide_eq_false_iff_not] at *
  rcases apart with h | h <;> omega

theorem Block.Apart.congr {a b c : Block} (apart : a.Apart b) (addr : c.addr = a.addr)
    (size : c.size = a.size) : c.Apart b := by
  rw [Block.Apart,addr,size]; exact apart

/-- The representation invariant of one block. -/
structure Block.Ok (out : List Nat) (b : Block) : Prop where
  aligned : b.addr % 4096 = 0
  pages : 8192 ≤ b.size
  max : b.max = (b.size - 4096) / 4096 % 2^32
  fits : b.max * 8 < 2^32
  lower : slotres 4096 b.max ≤ b.top
  upper : b.top ≤ b.max
  covers : SlotStack.Covers b.slots (b.offsets out) b.range

structure Heap.Inv (h : Heap) : Prop where
  bsize : h.bsize = 4096
  ok : ∀ b ∈ h.blocks, b.Ok h.out
  apart : h.blocks.Pairwise Block.Apart
  within : ∀ p ∈ h.out, ∃ b ∈ h.blocks, b.holds p = true

theorem slotres_spec {max : Nat} (fits : max * 8 < 2^32) :
    max * 8 ≤ slotres 4096 max * 4096 ∧ slotres 4096 max ≤ max := by
  simp only [slotres,Nat.mod_eq_of_lt fits]
  split <;> constructor <;> omega

theorem mem_range {b : Block} {o : Nat} :
    o ∈ b.range ↔ ∃ x, slotres 4096 b.max ≤ x ∧ x < b.max ∧ o = x * 4096 := by
  simp only [Block.range,List.mem_map,List.mem_range'_1]
  constructor
  · rintro ⟨x,⟨lower,upper⟩,rfl⟩
    exact ⟨x,lower,by omega,rfl⟩
  · rintro ⟨x,lower,upper,rfl⟩
    exact ⟨x,⟨lower,by omega⟩,rfl⟩

theorem range_nodup (b : Block) : b.range.Nodup :=
  List.Nodup.map (fun x y (h : x * 4096 = y * 4096) => by omega) List.nodup_range'

theorem Block.Ok.stack_mem {out : List Nat} {b : Block} (ok : b.Ok out) (room : b.top ≠ b.max) :
    b.stack b.top ∈ b.range := by
  have lt : b.top < b.max := by have := ok.upper; omega
  apply ok.covers.mem_iff.mp
  rw [SlotStack.free_pop (s := b.slots) lt]
  simp [Block.slots]

/-- A page at a managed offset lies between the offset stack and the block's end. -/
theorem Block.Ok.page {out : List Nat} {b : Block} (ok : b.Ok out) {o : Nat} (member : o ∈ b.range) :
    (b.addr + 4096 + o) % 4096 = 0 ∧ b.addr + 32 + 8 * b.max ≤ b.addr + 4096 + o ∧
      b.addr + 4096 + o + 4096 ≤ b.addr + b.size ∧ b.holds (b.addr + 4096 + o) = true := by
  obtain ⟨x,lower,upper,rfl⟩ := mem_range.mp member
  have aligned := ok.aligned
  have size := ok.max
  have large := ok.pages
  have reserved := (slotres_spec ok.fits).1
  have inside : b.max ≤ (b.size - 4096) / 4096 := by rw [size]; exact Nat.mod_le _ _
  refine ⟨by omega,by omega,by omega,?_⟩
  simp only [Block.holds,Bool.and_eq_true,decide_eq_true_eq]
  omega

theorem offsets_cons_same {b : Block} {p : Nat} {out : List Nat} (holds : b.holds p = true) :
    b.offsets (p :: out) = (p - b.addr - 4096) :: b.offsets out := by
  simp [Block.offsets,holds]

theorem offsets_cons_other {b : Block} {p : Nat} {out : List Nat} (away : b.holds p = false) :
    b.offsets (p :: out) = b.offsets out := by
  simp [Block.offsets,away]

theorem offsets_perm {b : Block} {out other : List Nat} (same : out.Perm other) :
    (b.offsets out).Perm (b.offsets other) :=
  (same.filter _).map _

/-- Other pages of `out` do not matter to a block. -/
theorem Block.Ok.congr {out other : List Nat} {b : Block} (ok : b.Ok out)
    (same : (b.offsets out).Perm (b.offsets other)) : b.Ok other :=
  { ok with covers := ok.covers.perm same }

theorem Heap.Inv.holder {h : Heap} (inv : h.Inv) {before after : List Block} {b : Block}
    (split : h.blocks = before ++ b :: after) (holds : b.holds p = true) :
    (∀ c ∈ before, c.holds p = false) ∧ (∀ c ∈ after, c.holds p = false) := by
  have apart := inv.apart
  rw [split,List.pairwise_append] at apart
  obtain ⟨_,tail,cross⟩ := apart
  constructor
  · intro c member
    exact (cross c member b (List.mem_cons_self ..)).symm.not_holds holds
  · intro c member
    exact ((List.pairwise_cons.mp tail).1 c member).not_holds holds

variable {h : Heap}

/-- Replacing the block that holds `p` by a version of itself. -/
theorem Heap.Inv.replace (inv : h.Inv) {before after : List Block} {b c : Block}
    (split : h.blocks = before ++ b :: after) (addr : c.addr = b.addr) (size : c.size = b.size)
    (holds : b.holds p = true) {out : List Nat} (ok : c.Ok out)
    (others : ∀ d : Block, d.holds p = false → (d.offsets h.out).Perm (d.offsets out))
    (known : ∀ q ∈ out, q = p ∨ q ∈ h.out) :
    ({ h with blocks := before ++ c :: after, out := out } : Heap).Inv := by
  have same (q : Nat) : c.holds q = b.holds q := by rw [Block.holds,Block.holds,addr,size]
  have away := inv.holder split holds
  have apart := inv.apart
  rw [split,List.pairwise_append] at apart
  obtain ⟨front,tail,cross⟩ := apart
  obtain ⟨first,rest⟩ := List.pairwise_cons.mp tail
  refine ⟨inv.bsize,?_,?_,?_⟩
  · intro d hd
    rcases List.mem_append.mp hd with hd | hd
    · exact (inv.ok d (by rw [split]; simp [hd])).congr (others d (away.1 d hd))
    · rcases List.mem_cons.mp hd with rfl | hd
      · exact ok
      · exact (inv.ok d (by rw [split]; simp [hd])).congr (others d (away.2 d hd))
  · rw [List.pairwise_append]
    refine ⟨front,List.pairwise_cons.mpr ⟨fun d hd => (first d hd).congr addr size,rest⟩,?_⟩
    intro d hd e he
    rcases List.mem_cons.mp he with rfl | he
    · exact ((cross d hd b (List.mem_cons_self ..)).symm.congr addr size).symm
    · exact cross d hd e (List.mem_cons_of_mem _ he)
  · intro q hq
    rcases known q hq with rfl | hq
    · exact ⟨c,by simp,by rw [same,holds]⟩
    · obtain ⟨d,hd,held⟩ := inv.within q hq
      rw [split] at hd
      rcases List.mem_append.mp hd with hd | hd
      · exact ⟨d,by simp [hd],held⟩
      · rcases List.mem_cons.mp hd with rfl | hd
        · exact ⟨c,by simp,by rw [same,held]⟩
        · exact ⟨d,by simp [hd],held⟩

theorem Block.take_ok {out : List Nat} {b : Block} (ok : b.Ok out) (room : b.top ≠ b.max) :
    (b.take 4096).rest.Ok ((b.take 4096).ptr :: out) := by
  have lt : b.top < b.max := by have := ok.upper; omega
  have page := (ok.page (ok.stack_mem room)).2.2.2
  have offset : b.addr + 4096 + b.stack b.top - b.addr - 4096 = b.stack b.top := by omega
  refine ⟨ok.aligned,ok.pages,ok.max,ok.fits,Nat.le_succ_of_le ok.lower,lt,?_⟩
  have covers := ok.covers.pop (s := b.slots) lt
  have live : (b.take 4096).rest.offsets ((b.take 4096).ptr :: out) =
      b.stack b.top :: b.offsets out := by
    rw [← offset]
    exact offsets_cons_same page
  rw [live]
  exact covers

/-- `k_pageobj_alloc` keeps the heap invariant up to its growth branch. -/
theorem Heap.Inv.take {t : Taken Heap} (inv : h.Inv) (taken : h.take = some t) : t.rest.Inv := by
  obtain ⟨blocks,bsize,out⟩ := h
  obtain rfl : bsize = 4096 := inv.bsize
  obtain ⟨before,b,after,split,_,room,rfl⟩ := take_some taken
  have ok := inv.ok b (by rw [split]; simp)
  have page := (ok.page (ok.stack_mem room)).2.2.2
  refine inv.replace (c := (b.take 4096).rest) split rfl rfl page (b.take_ok ok room) ?_
    (fun q => List.mem_cons.mp)
  intro d away
  exact .of_eq (offsets_cons_other away).symm

/-- What a page of the heap is: aligned, inside one block, clear of that block's
header and offset stack. -/
theorem Heap.Inv.page (inv : h.Inv) {p : Nat} (member : p ∈ h.out) :
    ∃ b ∈ h.blocks, b.holds p = true ∧ p % 4096 = 0 ∧ b.addr + 4096 ≤ p ∧
      b.addr + 32 + 8 * b.max ≤ p ∧ p + 4096 ≤ b.addr + b.size := by
  obtain ⟨b,hb,holds⟩ := inv.within p member
  have ok := inv.ok b hb
  have live : p - b.addr - 4096 ∈ b.offsets h.out :=
    List.mem_map.mpr ⟨p,List.mem_filter.mpr ⟨member,holds⟩,rfl⟩
  have managed : p - b.addr - 4096 ∈ b.range :=
    ok.covers.mem_iff.mp (List.mem_append_right _ live)
  obtain ⟨x,lower,upper,offset⟩ := mem_range.mp managed
  -- slot 0 is always under the stack, so the subtraction did not truncate
  have reserved := (slotres_spec ok.fits).1
  have page : p = b.addr + 4096 + x * 4096 := by omega
  obtain ⟨aligned,above,below,_⟩ := ok.page (mem_range.mpr ⟨x,lower,upper,rfl⟩)
  exact ⟨b,hb,holds,page ▸ aligned,by omega,by omega,by omega⟩

theorem offsets_erase_other {b : Block} {p : Nat} {out : List Nat} (member : p ∈ out)
    (away : b.holds p = false) : (b.offsets out).Perm (b.offsets (out.erase p)) := by
  have same := offsets_perm (b := b) (List.perm_cons_erase member)
  rwa [offsets_cons_other away] at same

theorem Block.give_ok {out : List Nat} {b : Block} {p : Nat} (ok : b.Ok out) (member : p ∈ out)
    (holds : b.holds p = true) : (b.give 4096 p).Ok (out.erase p) := by
  have live : (b.offsets out).Perm ((p - b.addr - 4096) :: b.offsets (out.erase p)) := by
    rw [← offsets_cons_same holds]
    exact offsets_perm (List.perm_cons_erase member)
  have covers := ok.covers.perm live
  have count := covers.length
  simp only [List.length_cons,Block.slots,Block.range,List.length_map,List.length_range'] at count
  have lower := ok.lower
  have upper := ok.upper
  have used : slotres 4096 b.max < b.top := by omega
  have top : (if b.top = 0 then 2^32 - 1 else b.top - 1) = b.top - 1 := if_neg (by omega)
  have shape : b.give 4096 p = { b with
      top := b.top - 1
      stack := Function.update b.stack (b.top - 1) (p - b.addr - 4096) } := by
    simp only [Block.give,top]
  rw [shape]
  refine ⟨ok.aligned,ok.pages,ok.max,ok.fits,Nat.le_sub_one_of_lt used,by dsimp only; omega,?_⟩
  exact covers.push (s := b.slots) (Nat.zero_lt_of_lt used) upper

/-- The block that `k_pageobj_free` unlinks has no live page. -/
theorem Block.Ok.none_live {out : List Nat} {b : Block} (ok : b.Ok out) (empties : b.empties = true) :
    ∀ p ∈ out, b.holds p = false := by
  simp only [Block.empties,Bool.and_eq_true,decide_eq_true_eq] at empties
  have max : b.max = 8191 := by have := ok.max; omega
  have count := ok.covers.length
  simp only [Block.slots,Block.range,List.length_map,List.length_range',max,empties.2] at count
  have sixteen : slotres 4096 8191 = 0x10 := rfl
  have none : b.offsets out = [] := List.length_eq_zero_iff.mp (by omega)
  intro p member
  rcases away : b.holds p with _ | _
  · rfl
  · have live : p - b.addr - 4096 ∈ b.offsets out :=
      List.mem_map.mpr ⟨p,List.mem_filter.mpr ⟨member,away⟩,rfl⟩
    rw [none] at live
    cases live

/-- Unlinking a block without live pages. -/
theorem Heap.Inv.unlink (inv : h.Inv) {before after : List Block} {b : Block}
    (split : h.blocks = before ++ b :: after) (none : ∀ p ∈ h.out, b.holds p = false) :
    ({ h with blocks := before ++ after } : Heap).Inv := by
  have sub : (before ++ after).Sublist h.blocks := by
    rw [split]
    exact List.Sublist.append_left (List.sublist_cons_self b after) before
  refine ⟨inv.bsize,fun d hd => inv.ok d (sub.subset hd),inv.apart.sublist sub,?_⟩
  intro p hp
  obtain ⟨d,hd,held⟩ := inv.within p hp
  rw [split] at hd
  rcases List.mem_append.mp hd with hd | hd
  · exact ⟨d,List.mem_append_left _ hd,held⟩
  · rcases List.mem_cons.mp hd with rfl | hd
    · rw [none p hp] at held
      cases held
    · exact ⟨d,List.mem_append_right _ hd,held⟩

/-- The invariant does not see the flags that steer growth. -/
theorem Heap.Inv.resetHead (inv : h.Inv) :
    ({ h with blocks := Siegfried.resetHead h.blocks } : Heap).Inv := by
  obtain ⟨blocks,bsize,out⟩ := h
  cases blocks with
  | nil => exact inv
  | cons b bs =>
    simp only [Siegfried.resetHead]
    split
    · obtain ⟨bsize,ok,apart,within⟩ := inv
      refine ⟨bsize,?_,?_,?_⟩
      · intro c hc
        rcases List.mem_cons.mp hc with rfl | hc
        · have head := ok b (List.mem_cons_self ..)
          exact ⟨head.aligned,head.pages,head.max,head.fits,head.lower,head.upper,head.covers⟩
        · exact ok c (List.mem_cons_of_mem _ hc)
      · obtain ⟨first,rest⟩ := List.pairwise_cons.mp apart
        exact List.pairwise_cons.mpr ⟨first,rest⟩
      · intro p hp
        obtain ⟨c,hc,held⟩ := within p hp
        rcases List.mem_cons.mp hc with rfl | hc
        · exact ⟨_,List.mem_cons_self ..,held⟩
        · exact ⟨c,List.mem_cons_of_mem _ hc,held⟩
    · exact inv

/-- `k_pageobj_free` keeps the heap invariant on pages that are out. -/
theorem Heap.Inv.free (inv : h.Inv) {p : Nat} (member : p ∈ h.out) : (h.free p).Inv := by
  obtain ⟨blocks,bsize,out⟩ := h
  obtain rfl : bsize = 4096 := inv.bsize
  obtain ⟨b,hb,holds⟩ := inv.within p member
  obtain ⟨before,after,split⟩ := List.append_of_mem hb
  have any : blocks.any (·.holds p) = true := List.any_eq_true.mpr ⟨b,hb,holds⟩
  have ok := Block.give_ok (inv.ok b hb) member holds
  have given : Heap.Inv ⟨before ++ b.give 4096 p :: after,4096,out.erase p⟩ := by
    refine inv.replace (c := b.give 4096 p) split rfl rfl holds ok
      (fun d away => offsets_erase_other member away) ?_
    exact fun q hq => .inr (List.mem_of_mem_erase hq)
  have target : (giveTo 4096 p blocks).1 = if (b.give 4096 p).empties then before ++ after
      else before ++ b.give 4096 p :: after := by
    rw [show blocks = before ++ b :: after from split]
    exact giveTo_split (inv.holder split holds).1 holds
  simp only [Heap.free,any,if_true,target]
  split
  · next empties => exact (given.unlink rfl (ok.none_live empties)).resetHead
  · exact given.resetHead

theorem Block.Ok.clear {out : List Nat} {b : Block} (ok : b.Ok out) {lo hi : Nat}
    (away : b.addr + 32 + 8 * b.max ≤ lo ∨ hi ≤ b.addr) : (b.clear lo hi).Ok out := by
  have free : (b.clear lo hi).slots.free = b.slots.free := by
    apply List.map_congr_left
    intro x member
    have bound : x < b.max := by
      have := List.mem_range'_1.mp member
      simp only [Block.slots,Block.clear] at this
      omega
    have word : clearWord lo hi (b.addr + 32 + 8 * x) (b.stack x) = b.stack x :=
      if_pos (by omega)
    simp only [Block.slots,Block.clear,if_pos bound,word]
  exact ⟨ok.aligned,ok.pages,ok.max,ok.fits,ok.lower,ok.upper,by
    unfold SlotStack.Covers; rw [free]; exact ok.covers⟩

theorem Heap.Inv.apart_of_ne (inv : h.Inv) {b c : Block} (hb : b ∈ h.blocks) (hc : c ∈ h.blocks)
    (different : b ≠ c) : b.Apart c :=
  inv.apart.forall hb hc different

/-- A page that is out meets no block's header or offset stack. -/
theorem Heap.Inv.page_away (inv : h.Inv) {p : Nat} (member : p ∈ h.out) {c : Block}
    (hc : c ∈ h.blocks) : c.addr + 32 + 8 * c.max ≤ p ∨ p + 4096 ≤ c.addr := by
  obtain ⟨b,hb,_,_,start,above,below⟩ := inv.page member
  by_cases same : b = c
  · subst same
    exact .inl above
  · have max := (inv.ok c hc).max
    have pages := (inv.ok c hc).pages
    have inside : c.max ≤ (c.size - 4096) / 4096 := by rw [max]; exact Nat.mod_le _ _
    rcases inv.apart_of_ne hb hc same with apart | apart <;> omega

/-- Zeroing a page that is out changes no stack entry in use. -/
theorem Heap.Inv.clear (inv : h.Inv) {p size : Nat} (member : p ∈ h.out) (small : size ≤ 4096) :
    (h.clear p (p + size)).Inv := by
  refine ⟨inv.bsize,?_,?_,?_⟩
  · intro c hc
    obtain ⟨d,hd,rfl⟩ := List.mem_map.mp hc
    have away := inv.page_away member hd
    exact (inv.ok d hd).clear (by omega)
  · exact List.pairwise_map.mpr inv.apart
  · intro q hq
    obtain ⟨c,hc,held⟩ := inv.within q hq
    exact ⟨c.clear p (p + size),List.mem_map_of_mem hc,held⟩

/-- Memory that `k_pageobj_add_heapblk` may be given: a page-aligned region of at
least two pages, neither at address 0 nor at the very end of the address space, and
disjoint from the blocks there are. -/
structure Heap.Region (h : Heap) (addr size : Nat) : Prop where
  aligned : addr % 4096 = 0
  pages : 8192 ≤ size
  start : 0 < addr
  finish : addr + size < 2^64
  disjoint : ∀ b ∈ h.blocks, addr + size ≤ b.addr ∨ b.addr + b.size ≤ addr

/-- The 32-bit product `b->max * 8` is exact for a region of this size. -/
def Fits (size : Nat) : Prop := (size - 4096) / 4096 % 2^32 * 8 < 2^32

instance (size : Nat) : Decidable (Fits size) := inferInstanceAs (Decidable (_ < _))

theorem Heap.Inv.add (inv : h.Inv) {addr size : Nat} (region : h.Region addr size)
    (fits : Fits size) : (kPageobjAddHeapblk h addr size).Inv := by
  obtain ⟨blocks,bsize,out⟩ := h
  obtain rfl : bsize = 4096 := inv.bsize
  have pages := region.pages
  have finish := region.finish
  have exact : (size + 2^64 - 4096) % 2^64 / 4096 % 2^32 = (size - 4096) / 4096 % 2^32 := by omega
  simp only [kPageobjAddHeapblk,exact]
  generalize hmax : (size - 4096) / 4096 % 2^32 = max
  have fits : max * 8 < 2^32 := hmax ▸ fits
  have reserved := (slotres_spec fits).2
  set b : Block := ⟨addr,slotres 4096 max,max,size,false,
    fun x => if slotres 4096 max ≤ x ∧ x < max then x * 4096 else 0⟩ with hb
  have unheld (p : Nat) (hp : p ∈ out) : b.holds p = false := by
    obtain ⟨c,hc,held⟩ := inv.within p hp
    exact Block.Apart.not_holds (region.disjoint c hc).symm held
  have live : b.offsets out = [] := by
    simp only [Block.offsets,List.map_eq_nil_iff,List.filter_eq_nil_iff]
    exact fun p hp => by simp [unheld p hp]
  have free : b.slots.free = b.range := by
    apply List.map_congr_left
    intro x member
    have bound := List.mem_range'_1.mp member
    simp only [Block.slots,hb] at bound ⊢
    rw [if_pos (by omega)]
  refine ⟨rfl,?_,?_,?_⟩
  · intro c hc
    rcases List.mem_cons.mp hc with rfl | hc
    · refine ⟨region.aligned,pages,hmax.symm,fits,Nat.le_refl _,reserved,?_⟩
      unfold SlotStack.Covers
      rw [free,live,List.append_nil]
    · exact inv.ok c hc
  · exact List.pairwise_cons.mpr ⟨fun c hc => region.disjoint c hc,inv.apart⟩
  · intro p hp
    obtain ⟨c,hc,held⟩ := inv.within p hp
    exact ⟨c,List.mem_cons_of_mem _ hc,held⟩

/-- `k_pageobj_alloc` called for each size in turn, with the pages it returned. The
growth branch calls `page_find_and_alloc(2)`, whose own calls come in between. -/
inductive Allocs : Heap → List (Nat × Nat) → Heap → Prop where
  | nil (h : Heap) : Allocs h [] h
  | plain {h h' : Heap} {t : Taken Heap} {rest : List (Nat × Nat)} {size : Nat}
      (small : size ≤ h.bsize) (taken : h.take = some t) (low : t.grows = false)
      (tail : Allocs (t.rest.clear t.ptr (t.ptr + size)) rest h') :
      Allocs h ((size,t.ptr) :: rest) h'
  | grow {h mid h' : Heap} {t : Taken Heap} {nested rest : List (Nat × Nat)} {size addr : Nat}
      (small : size ≤ h.bsize) (taken : h.take = some t) (low : t.grows = true)
      (inner : Allocs t.rest nested mid) (region : mid.Region addr (2097152 * 2))
      (tail : Allocs ((kPageobjAddHeapblk mid addr (2097152 * 2)).clear t.ptr (t.ptr + size))
        rest h') :
      Allocs h ((size,t.ptr) :: rest) h'

/-- Every history of a heap of 4096-byte pages whose blocks satisfy `cond`. -/
inductive HeapRun (cond : Nat → Prop) : Heap → Prop where
  | init : HeapRun cond (kPageobjInitHeap 4096)
  | add {h : Heap} {addr size : Nat} (before : HeapRun cond h) (region : h.Region addr size)
      (ok : cond size) : HeapRun cond (kPageobjAddHeapblk h addr size)
  | alloc {h h' : Heap} {pages : List (Nat × Nat)} (before : HeapRun cond h)
      (calls : Allocs h pages h') : HeapRun cond h'
  | free {h : Heap} {p : Nat} (before : HeapRun cond h) (live : p ∈ h.out) :
      HeapRun cond (h.free p)

theorem take_out {t : Taken Heap} (taken : h.take = some t) : t.rest.out = t.ptr :: h.out := by
  obtain ⟨_,_,_,_,_,_,rfl⟩ := take_some taken
  rfl

/-- The calls keep the heap invariant and every page that is out. -/
theorem Allocs.inv {pages : List (Nat × Nat)} {h' : Heap} (calls : Allocs h pages h')
    (inv : h.Inv) : h'.Inv ∧ h.out ⊆ h'.out := by
  induction calls with
  | nil h => exact ⟨inv,List.Subset.refl _⟩
  | plain small taken low _ ih =>
    rw [inv.bsize] at small
    have out := take_out taken
    have cleared := (inv.take taken).clear (by rw [out]; exact List.mem_cons_self ..) small
    obtain ⟨inv',sub⟩ := ih cleared
    refine ⟨inv',fun p hp => sub ?_⟩
    exact out ▸ List.mem_cons_of_mem _ hp
  | grow small taken low _ region _ inner ih =>
    rw [inv.bsize] at small
    have out := take_out taken
    obtain ⟨mid,kept⟩ := inner (inv.take taken)
    rw [out] at kept
    have added := mid.add region (by decide)
    obtain ⟨inv',sub⟩ := ih (added.clear (kept (List.mem_cons_self ..)) small)
    exact ⟨inv',fun p hp => sub (kept (List.mem_cons_of_mem _ hp))⟩

theorem HeapRun.inv (run : HeapRun Fits h) : h.Inv := by
  induction run with
  | init => exact ⟨rfl,by simp [kPageobjInitHeap],by simp [kPageobjInitHeap],
      by simp [kPageobjInitHeap]⟩
  | add _ region fits ih => exact ih.add region fits
  | alloc _ calls ih => exact (calls.inv ih).1
  | free _ live ih => exact ih.free live

/-- Offsets on the stack of a block. -/
def Block.freeOffsets (b : Block) : List Nat :=
  (List.range' b.top (b.max - b.top)).map b.stack

/-- Each block accounts for each of its slots once, on its stack or by a live page,
and a live page is a whole page of one block's memory that no other page and no
header or offset stack meets. -/
structure Heap.Sound (h : Heap) : Prop where
  bounds : ∀ b ∈ h.blocks, slotres h.bsize b.max ≤ b.top ∧ b.top ≤ b.max
  once : ∀ b ∈ h.blocks, (b.freeOffsets ++ b.offsets h.out).Nodup
  slots : ∀ b ∈ h.blocks, ∀ o, o ∈ b.freeOffsets ++ b.offsets h.out ↔
    ∃ x, slotres h.bsize b.max ≤ x ∧ x < b.max ∧ o = x * 4096
  distinct : h.out.Nodup
  page : ∀ p ∈ h.out, p % 4096 = 0 ∧ ∃ b ∈ h.blocks, b.addr < p ∧ p + 4096 ≤ b.addr + b.size
  away : ∀ p ∈ h.out, ∀ b ∈ h.blocks, b.addr + 32 + 8 * b.max ≤ p ∨ p + 4096 ≤ b.addr

theorem Heap.Inv.distinct (inv : h.Inv) : h.out.Nodup := by
  rw [List.nodup_iff_count_le_one]
  intro p
  by_cases member : p ∈ h.out
  · obtain ⟨b,hb,holds⟩ := inv.within p member
    have all := (inv.ok b hb).covers.nodup_iff.mpr (range_nodup b)
    have live : (h.out.filter b.holds).Nodup := (List.nodup_append.mp all).2.1.of_map
    rw [← List.count_filter (p := b.holds) holds]
    exact List.nodup_iff_count_le_one.mp live p
  · rw [List.count_eq_zero_of_not_mem member]
    exact Nat.zero_le 1

theorem Heap.Inv.sound (inv : h.Inv) : h.Sound := by
  have covers {b : Block} (hb : b ∈ h.blocks) : (b.freeOffsets ++ b.offsets h.out).Perm b.range :=
    (inv.ok b hb).covers
  refine ⟨?_,?_,?_,inv.distinct,?_,?_⟩
  · intro b hb
    rw [inv.bsize]
    exact ⟨(inv.ok b hb).lower,(inv.ok b hb).upper⟩
  · exact fun b hb => (covers hb).nodup_iff.mpr (range_nodup b)
  · intro b hb o
    rw [inv.bsize,(covers hb).mem_iff]
    exact mem_range
  · intro p hp
    obtain ⟨b,hb,_,aligned,start,_,below⟩ := inv.page hp
    exact ⟨aligned,b,hb,by omega,below⟩
  · exact fun p hp b hb => inv.page_away hp hb

/-- The first page taken from a block just added. -/
theorem take_added (h : Heap) (addr size max : Nat) (bsize : h.bsize = 4096)
    (hmax : (size + 2^64 - 4096) % 2^64 / 4096 % 2^32 = max) (room : slotres 4096 max + 4 ≤ max) :
    ∃ t, (kPageobjAddHeapblk h addr size).take = some t ∧ t.grows = false ∧
      t.ptr = addr + 4096 + slotres 4096 max * 4096 ∧
      ∃ b ∈ t.rest.blocks, b.addr = addr ∧ b.max = max := by
  have small : max < 2^32 := hmax ▸ Nat.mod_lt _ (by decide)
  have last : slotres 4096 max ≠ max := by omega
  have plenty : ¬(max + 2^32 - (slotres 4096 max + 1)) % 2^32 < 3 := by omega
  simp only [Heap.take,takeFrom,kPageobjAddHeapblk,bsize,hmax,if_pos last]
  refine ⟨_,rfl,?_,?_,_,List.mem_cons_self ..,rfl,rfl⟩
  · simp only [Block.take,decide_eq_false plenty,Bool.false_and]
  · have own : slotres 4096 max ≤ slotres 4096 max ∧ slotres 4096 max < max := by omega
    simp only [Block.take,if_pos own]

section History

/-- Where the 32-bit product is exact for every block, all histories are sound. -/
theorem page_heap_sound (run : HeapRun Fits h) : h.Sound := run.inv.sound

/-- One page taken and given back. -/
theorem page_heap_sound_first : ∃ h p, HeapRun Fits h ∧ p ∈ h.out ∧ h.Sound ∧ (h.free p).Sound := by
  have region : (kPageobjInitHeap 4096).Region 0x1800000 0x800000 :=
    ⟨by decide,by decide,by decide,by decide,by simp [kPageobjInitHeap]⟩
  have added : HeapRun Fits _ := HeapRun.init.add region (by decide)
  obtain ⟨t,taken,plain,_⟩ := take_added (kPageobjInitHeap 4096) 0x1800000 0x800000 2047 rfl
    (by decide) (by decide)
  have calls : Allocs _ [(4096,t.ptr)] _ := .plain (by decide) taken plain (.nil _)
  have run := added.alloc calls
  have live : t.ptr ∈ t.rest.out := take_out taken ▸ List.mem_cons_self ..
  exact ⟨_,t.ptr,run,live,page_heap_sound run,page_heap_sound (run.free live)⟩

/-- Where it is not exact, the first page taken from the block lies under its stack. -/
theorem page_heap_breaks {addr size : Nat} (region : (kPageobjInitHeap 4096).Region addr size)
    (overflow : ¬Fits size) : ∃ h, HeapRun (fun _ => True) h ∧ ¬h.Sound := by
  have added : HeapRun (fun _ => True) _ := HeapRun.init.add region trivial
  have pages := region.pages
  have finish := region.finish
  unfold Fits at overflow
  generalize hmax : (size - 4096) / 4096 % 2^32 = max at overflow
  have reserved : slotres 4096 max * 4096 < max * 8 % 2^32 + 4096 := by
    simp only [slotres]
    split
    · next more => rw [Nat.add_one_mul]; exact Nat.add_lt_add_right more 4096
    · omega
  have wraps : max * 8 % 2^32 + 2^32 ≤ max * 8 := by omega
  obtain ⟨t,taken,plain,ptr,b,hb,start,slots⟩ := take_added (kPageobjInitHeap 4096) addr size max
    rfl (by omega) (by omega)
  have calls : Allocs _ [(4096,t.ptr)] _ := .plain (Nat.le_refl 4096) taken plain (.nil _)
  have run := added.alloc calls
  refine ⟨_,run,fun sound => ?_⟩
  have live : t.ptr ∈ t.rest.out := take_out taken ▸ List.mem_cons_self ..
  have away := sound.away t.ptr live _ (List.mem_map_of_mem hb)
  simp only [Block.clear,start,slots,ptr] at away
  omega

/-- A region of 2 TiB: `b->max * 8` wraps to 0 and no slot is reserved. -/
theorem page_heap_overflow : ¬∀ h, HeapRun (fun _ => True) h → h.Sound := by
  intro all
  have region : (kPageobjInitHeap 4096).Region 4096 (2^41 + 4096) :=
    ⟨by decide,by decide,by decide,by decide,by simp [kPageobjInitHeap]⟩
  obtain ⟨h,run,broken⟩ := page_heap_breaks region (by decide)
  exact broken (all h run)

end History

end Siegfried
