import Siegfried.AcpiTables
import Mathlib.Tactic.Ring

/-! The text on the screen: `draw_swap_textbuf` through the pages that `draw_setup` maps. -/
namespace Siegfried

/-- `w`, `h`, `bb` and `p` of `draw.c`. -/
structure FbMode where
  w : Nat
  h : Nat
  bb : Nat
  p : Nat

namespace FbMode
variable (g : FbMode)

def tw : Nat := g.w / 8
def th : Nat := g.h / 10
def xInc : Nat := g.bb / 8

end FbMode

def drawFbAddr : Nat := 0xfe000000000

/-- The mapping loop of `draw_setup`, and `page_flush`. -/
def drawSetupMaps (alloc : Kernel → Option (Kernel × Nat)) (k : Kernel) (fbPaddr : Nat) : Option Kernel := do
  let k ← (List.range 0x10).foldlM (fun k i =>
    pageAllocDev alloc k ((fbPaddr + 0x200000 * i) % 2^64) (drawFbAddr + 0x200000 * i)) k
  some { k with cr3 := k.pml4Table }

/-- The store of a pixel: four bytes at `at_` or three, all set or all clear. -/
structure Pixel where
  at_ : Nat
  lit : Bool

/-- The letters that are drawn two rows lower. -/
def isSpecial (c : UInt8) : Bool := c == 0x79 || c == 0x67 || c == 0x70 || c == 0x71

/-- The values of `y`. -/
def glyphRows (c : UInt8) : List Int :=
  (if isSpecial c then [-2,-1] else []) ++ [0,1,2,3,4,5,6,7,8,9]

section Draw
variable (g : FbMode) (font : Nat → UInt8)

/-- A row of a character. -/
def drawCharRow (c : UInt8) (y : Int) (comp : Nat) (s : Nat × List Pixel) : Nat × List Pixel :=
  (List.range 8).foldl (fun s x =>
    let fbIt := s.1 + g.xInc
    (fbIt,s.2 ++ [⟨fbIt,decide (y < 8) && decide (0 ≤ y) && !(font comp).toNat.testBit x && c != 0⟩])) s

/-- `font` is `font_bits`, 64 pixels wide. The branches for 24 and 32 bits differ in the bytes of
a store only. -/
def drawCharAtFbptr (c : UInt8) (fbIt : Nat) : List Pixel :=
  let yInc := g.p - g.xInc * 8
  let comp := c.toNat / 8 * 8 * 64 / 8 + c.toNat % 8
  ((glyphRows c).foldl (fun (s : (Nat × List Pixel) × Nat) y =>
    let row := drawCharRow g font c y s.2 s.1
    ((row.1 + yInc,row.2),if 0 ≤ y then s.2 + 64 / 8 else s.2)) ((fbIt,[]),comp)).1.2

/-- A character that is drawn, and the stores. -/
structure DrawnCell where
  tx : Nat
  ty : Nat
  char : UInt8
  pixels : List Pixel

/-- The variables of `draw_swap_textbuf`: `ptr` is how far both text pointers are. -/
structure Swap where
  fbIt : Nat
  ptr : Nat
  text2 : Nat → UInt8
  drawn : List DrawnCell

variable (text : Nat → UInt8)

def swapCell (ty : Nat) (s : Swap) (tx : Nat) : Swap :=
  let s := if text s.ptr ≠ s.text2 s.ptr then
      { s with
        drawn := s.drawn ++ [⟨tx,ty,text s.ptr,drawCharAtFbptr g font (text s.ptr) s.fbIt⟩]
        text2 := Function.update s.text2 s.ptr (text s.ptr) }
    else s
  { s with ptr := s.ptr + 1, fbIt := s.fbIt + g.xInc * 8 }

def swapRow (s : Swap) (ty : Nat) : Swap :=
  let s := (List.range g.tw).foldl (swapCell g font text ty) s
  { s with fbIt := s.fbIt + g.p * 9 }

def drawSwapTextbuf (text2 : Nat → UInt8) : Swap :=
  (List.range g.th).foldl (swapRow g font text) ⟨drawFbAddr,0,text2,[]⟩

end Draw

/-- The addresses of so many rows of eight pixels. -/
def cellAddrs (g : FbMode) (base rows : Nat) : List Nat :=
  (List.range rows).flatMap fun r => (List.range 8).map fun x => base + r * g.p + x * g.xInc

/-- How many rows of pixels a character has. -/
def charRows (c : UInt8) : Nat := (glyphRows c).length

/-- The pixels begin in column `8 * tx` and row `10 * ty`. -/
def DrawnCell.Placed (g : FbMode) (d : DrawnCell) : Prop :=
  d.pixels.map Pixel.at_ = cellAddrs g (drawFbAddr + 10 * d.ty * g.p + 8 * d.tx * g.xInc) (charRows d.char)

/-- Every character that has changed is drawn in its place, and within the frame buffer. -/
structure ScreenDrawn (g : FbMode) (k : Kernel) (fbPaddr : Nat) (text text2 : Nat → UInt8) (s : Swap) : Prop where
  placed : ∀ ty < g.th, ∀ tx < g.tw, text (ty * g.tw + tx) ≠ text2 (ty * g.tw + tx) →
    ∃ d ∈ s.drawn, d.ty = ty ∧ d.tx = tx ∧ d.char = text (ty * g.tw + tx) ∧ d.Placed g
  inside : ∀ d ∈ s.drawn, ∀ q ∈ d.pixels, ∀ b < g.xInc,
    ∃ a, k.physical (q.at_ + b) = some a ∧ fbPaddr ≤ a ∧ a < fbPaddr + g.p * g.h

/-- The padding of the rows above makes up for one pixel, and the character is within the memory
that is mapped, which begins at a multiple of 2 MB. -/
structure CellFits (g : FbMode) (fbPaddr : Nat) (c : UInt8) (ty tx : Nat) : Prop where
  shift : ty * g.p = ty * (g.tw * (g.xInc * 8)) + g.xInc
  first : fbPaddr % 2^21 ≤ 10 * ty * g.p + 8 * tx * g.xInc
  last : (10 * ty + charRows c - 1) * g.p + (8 * tx + 8) * g.xInc ≤ g.p * g.h + fbPaddr % 2^21
  mapped : (10 * ty + charRows c - 1) * g.p + (8 * tx + 8) * g.xInc ≤ 2^25
  low : fbPaddr / 2^21 * 2^21 + (10 * ty + charRows c - 1) * g.p + (8 * tx + 8) * g.xInc ≤ 2^48

section Pixels
variable {g : FbMode} {font : Nat → UInt8} {c : UInt8} {fbIt base base' rows : Nat}

theorem drawCharRow_eq (g : FbMode) (font : Nat → UInt8) (c : UInt8) (y : Int) (comp : Nat)
    (s : Nat × List Pixel) :
    (drawCharRow g font c y comp s).1 = s.1 + 8 * g.xInc ∧
    (drawCharRow g font c y comp s).2.map Pixel.at_ =
      s.2.map Pixel.at_ ++ (List.range 8).map fun x => s.1 + (x + 1) * g.xInc := by
  simp only [drawCharRow,List.range_succ,List.range_zero,List.nil_append,List.cons_append,List.foldl_cons,
    List.foldl_nil,List.map_append,List.map_cons,List.map_nil,List.append_assoc]
  refine ⟨by omega,?_⟩
  congr 1
  simp only [List.cons.injEq,and_true]
  refine ⟨?_,?_,?_,?_,?_,?_,?_,?_⟩ <;> omega

theorem charRows_eq (c : UInt8) : charRows c = if isSpecial c then 12 else 10 := by
  rw [charRows,glyphRows]
  split
  · rfl
  · rfl

/-- A character is drawn one pixel to the right of where it begins. -/
theorem drawCharAtFbptr_addrs (wide : g.xInc * 8 ≤ g.p) :
    (drawCharAtFbptr g font c fbIt).map Pixel.at_ = cellAddrs g (fbIt + g.xInc) (charRows c) := by
  have loop (ys : List Int) (s : (Nat × List Pixel) × Nat) :
      (ys.foldl (fun (s : (Nat × List Pixel) × Nat) y =>
        ((((drawCharRow g font c y s.2 s.1).1 + (g.p - g.xInc * 8),(drawCharRow g font c y s.2 s.1).2) :
          Nat × List Pixel),if 0 ≤ y then s.2 + 64 / 8 else s.2)) s).1.2.map Pixel.at_ =
        s.1.2.map Pixel.at_ ++ cellAddrs g (s.1.1 + g.xInc) ys.length := by
    induction ys generalizing s with
    | nil => simp [cellAddrs]
    | cons y ys ih =>
      obtain ⟨next,row⟩ := drawCharRow_eq g font c y s.2 s.1
      rw [List.foldl_cons,ih]
      dsimp only
      rw [next,row,List.append_assoc]
      congr 1
      have rows : List.range (ys.length + 1) = 0 :: (List.range ys.length).map Nat.succ := List.range_succ_eq_map ..
      rw [cellAddrs,cellAddrs,List.length_cons,rows,List.flatMap_cons,List.flatMap_map]
      congr 1
      · refine List.map_congr_left fun x _ => ?_
        ring
      · refine List.flatMap_congr fun r _ => List.map_congr_left fun x _ => ?_
        have lower : r.succ * g.p = r * g.p + g.p := Nat.succ_mul ..
        omega
  exact loop (glyphRows c) _

theorem cellAddrs_inj (some_ : 0 < rows) : cellAddrs g base rows = cellAddrs g base' rows ↔ base = base' := by
  constructor
  · intro same
    obtain ⟨rows,rfl⟩ := Nat.exists_eq_succ_of_ne_zero (Nat.ne_of_gt some_)
    have first (b : Nat) : (cellAddrs g b (rows + 1)).head? = some b := by
      rw [cellAddrs,List.range_succ_eq_map]
      simp [List.range_succ_eq_map]
    exact Option.some.inj (by rw [← first base,same,first])
  · exact congrArg (cellAddrs g · rows)

theorem mem_cellAddrs {a : Nat} : a ∈ cellAddrs g base rows ↔
    ∃ r < rows, ∃ x < 8, a = base + r * g.p + x * g.xInc := by
  simp only [cellAddrs,List.mem_flatMap,List.mem_range,List.mem_map,eq_comm]

end Pixels

section Cells
variable {g : FbMode} {font text text2 : Nat → UInt8} {s : Swap} {d : DrawnCell} {n ty : Nat}

/-- What the loop over a row has drawn. -/
structure RowDrawn (g : FbMode) (font text : Nat → UInt8) (ty n : Nat) (s s' : Swap) : Prop where
  fbIt : s'.fbIt = s.fbIt + n * (g.xInc * 8)
  ptr : s'.ptr = s.ptr + n
  rest : ∀ i, s.ptr + n ≤ i → s'.text2 i = s.text2 i
  drawn : ∀ d, d ∈ s'.drawn ↔ d ∈ s.drawn ∨ ∃ tx < n, text (s.ptr + tx) ≠ s.text2 (s.ptr + tx) ∧
    d = ⟨tx,ty,text (s.ptr + tx),drawCharAtFbptr g font (text (s.ptr + tx)) (s.fbIt + tx * (g.xInc * 8))⟩

theorem swapCells (g : FbMode) (font text : Nat → UInt8) (ty n : Nat) (s : Swap) :
    RowDrawn g font text ty n s ((List.range n).foldl (swapCell g font text ty) s) := by
  induction n with
  | zero => exact ⟨by simp,rfl,fun _ _ => rfl,by simp⟩
  | succ n ih =>
    obtain ⟨fbIt,ptr,rest,drawn⟩ := ih
    rw [List.range_succ,List.foldl_append,List.foldl_cons,List.foldl_nil]
    generalize (List.range n).foldl (swapCell g font text ty) s = s' at fbIt ptr rest drawn ⊢
    have same : s'.text2 s'.ptr = s.text2 (s.ptr + n) := by rw [ptr,rest _ (Nat.le_refl _)]
    rw [swapCell]
    by_cases change : text s'.ptr ≠ s'.text2 s'.ptr
    · rw [if_pos change]
      refine ⟨by dsimp only; rw [fbIt,Nat.succ_mul,Nat.add_assoc],by dsimp only; rw [ptr,Nat.add_assoc],
        fun i later => ?_,fun d => ?_⟩
      · dsimp only
        rw [Function.update_of_ne (by omega),rest i (by omega)]
      · dsimp only
        rw [List.mem_append,List.mem_singleton,drawn,fbIt,ptr,or_assoc]
        refine or_congr_right ⟨?_,?_⟩
        · rintro (⟨tx,small,differs,rfl⟩ | rfl)
          · exact ⟨tx,Nat.lt_succ_of_lt small,differs,rfl⟩
          · refine ⟨n,Nat.lt_succ_self n,?_,rfl⟩
            rwa [same,ptr] at change
        · rintro ⟨tx,small,differs,rfl⟩
          rcases Nat.lt_succ_iff_lt_or_eq.mp small with before | rfl
          · exact .inl ⟨tx,before,differs,rfl⟩
          · exact .inr rfl
    · rw [if_neg change]
      refine ⟨by dsimp only; rw [fbIt,Nat.succ_mul,Nat.add_assoc],by dsimp only; rw [ptr,Nat.add_assoc],
        fun i later => rest i (by omega),fun d => ?_⟩
      dsimp only
      rw [drawn]
      refine or_congr_right ⟨?_,?_⟩
      · rintro ⟨tx,small,differs,rfl⟩
        exact ⟨tx,Nat.lt_succ_of_lt small,differs,rfl⟩
      · rintro ⟨tx,small,differs,rfl⟩
        rcases Nat.lt_succ_iff_lt_or_eq.mp small with before | rfl
        · exact ⟨tx,before,differs,rfl⟩
        · rw [same,ptr] at change
          exact absurd differs change

/-- Where the pointer is at a cell. -/
def cellIt (g : FbMode) (ty tx : Nat) : Nat :=
  drawFbAddr + ty * (g.tw * (g.xInc * 8) + g.p * 9) + tx * (g.xInc * 8)

theorem swapRows (n : Nat) :
    ((List.range n).foldl (swapRow g font text) ⟨drawFbAddr,0,text2,[]⟩).fbIt = cellIt g n 0 ∧
    ((List.range n).foldl (swapRow g font text) ⟨drawFbAddr,0,text2,[]⟩).ptr = n * g.tw ∧
    (∀ i, n * g.tw ≤ i →
      ((List.range n).foldl (swapRow g font text) ⟨drawFbAddr,0,text2,[]⟩).text2 i = text2 i) ∧
    ∀ d, d ∈ ((List.range n).foldl (swapRow g font text) ⟨drawFbAddr,0,text2,[]⟩).drawn ↔
      ∃ ty < n, ∃ tx < g.tw, text (ty * g.tw + tx) ≠ text2 (ty * g.tw + tx) ∧
        d = ⟨tx,ty,text (ty * g.tw + tx),drawCharAtFbptr g font (text (ty * g.tw + tx)) (cellIt g ty tx)⟩ := by
  induction n with
  | zero => simp [cellIt]
  | succ n ih =>
    obtain ⟨fbIt,ptr,rest,drawn⟩ := ih
    rw [List.range_succ,List.foldl_append,List.foldl_cons,List.foldl_nil]
    generalize (List.range n).foldl (swapRow g font text) ⟨drawFbAddr,0,text2,[]⟩ = s at fbIt ptr rest drawn ⊢
    obtain ⟨fbIt',ptr',rest',drawn'⟩ := swapCells g font text n g.tw s
    rw [swapRow]
    refine ⟨?_,?_,fun i later => ?_,fun d => ?_⟩
    · dsimp only
      rw [fbIt',fbIt,cellIt,cellIt]
      ring
    · rw [ptr',ptr,Nat.succ_mul]
    · rw [Nat.succ_mul] at later
      rw [rest' i (by omega),rest i (by omega)]
    · have at_cell (tx : Nat) : s.fbIt + tx * (g.xInc * 8) = cellIt g n tx := by
        rw [fbIt,cellIt,cellIt]
        ring
      have text_ (tx : Nat) : s.text2 (n * g.tw + tx) = text2 (n * g.tw + tx) := rest _ (Nat.le_add_right ..)
      dsimp only
      rw [drawn',drawn]
      simp only [at_cell,ptr,text_]
      constructor
      · rintro (⟨ty,small,cell⟩ | cell)
        · exact ⟨ty,Nat.lt_succ_of_lt small,cell⟩
        · exact ⟨n,Nat.lt_succ_self n,cell⟩
      · rintro ⟨ty,small,cell⟩
        rcases Nat.lt_succ_iff_lt_or_eq.mp small with before | rfl
        · exact .inl ⟨ty,before,cell⟩
        · exact .inr cell

theorem mem_drawn : d ∈ (drawSwapTextbuf g font text text2).drawn ↔
    ∃ ty < g.th, ∃ tx < g.tw, text (ty * g.tw + tx) ≠ text2 (ty * g.tw + tx) ∧
      d = ⟨tx,ty,text (ty * g.tw + tx),drawCharAtFbptr g font (text (ty * g.tw + tx)) (cellIt g ty tx)⟩ :=
  (swapRows g.th).2.2.2 d

end Cells

section Mapping
variable {root fbPaddr off : Nat} {bufs roots : List Nat} {k k' : Kernel}

/-- The pages of the frame buffer, from the one its first byte is in. -/
theorem drawSetupMaps_row (pool : Pool root bufs roots k) (at_root : k.pml4Table = root) (hr : root ∈ roots)
    (ran : drawSetupMaps takePage k fbPaddr = some k') :
    k'.cr3 = root ∧ RowMapped k' root drawFbAddr 16 (fbPaddr / 2097152) ∧
    ∀ v, (∀ j < 16, page v ≠ page (drawFbAddr + j * 2097152)) → k'.mapping root v = k.mapping root v := by
  simp only [drawSetupMaps,Option.bind_eq_bind,Option.bind_eq_some_iff,Option.some.injEq] at ran
  obtain ⟨m,loop,rfl⟩ := ran
  have last := Fold.foldlM_rest (fun l m => l.Nodup ∧ (∀ i ∈ l, i < 16) ∧ Pool root bufs roots m ∧
    m.pml4Table = root ∧ (∀ j < 16, j ∉ l →
      m.translate root (drawFbAddr + j * 2097152) = some ((fbPaddr / 2097152 + j) % 2^27)) ∧
    ∀ v, (∀ j < 16, page v ≠ page (drawFbAddr + j * 2097152)) → m.mapping root v = k.mapping root v) ?_
    ⟨List.nodup_range,fun i => List.mem_range.mp,pool,at_root,fun j inside out =>
      absurd (List.mem_range.mpr inside) out,fun _ _ => rfl⟩ loop
  · obtain ⟨_,_,_,same,row,others⟩ := last
    exact ⟨same,fun j inside => row j inside List.not_mem_nil,others⟩
  · rintro i l m m' ⟨nodup,bound,inv,same,done,others⟩ mapped
    obtain ⟨new,nodup⟩ := List.nodup_cons.mp nodup
    have here := bound i List.mem_cons_self
    rw [pageAllocDev,same,Nat.mul_comm 0x200000 i] at mapped
    obtain ⟨inv',⟨e,there⟩,apart⟩ := mapPage_mapping (takePage_pool ..) devStyle_ok inv hr mapped
    obtain ⟨_,kept⟩ := mapPage_kept (takePage_pool ..) takePage_steady devStyle_ok inv hr mapped
    refine ⟨nodup,fun j hj => bound j (List.mem_cons_of_mem _ hj),inv',kept.pml4Table.trans same,
      fun j inside out => ?_,fun v out => ?_⟩
    · by_cases this : j = i
      · subst this
        rw [Kernel.translate,there,Option.map_some,(devStyle_ok.pde _ e).2.1]
        refine congrArg some ?_
        omega
      · rw [Kernel.translate,apart root hr _ fun named => page_ne this (by omega) named.2,← Kernel.translate]
        exact done j inside fun member => (List.mem_cons.mp member).elim this out
    · rw [apart root hr v fun named => out i here named.2]
      exact others v out

theorem RowMapped.fb_physical (row : RowMapped k root drawFbAddr 16 (fbPaddr / 2097152)) (current : k.cr3 = root)
    (inside : off < 2^25) :
    k.physical (drawFbAddr + off) = some ((fbPaddr / 2^21 * 2^21 + off) % 2^48) := by
  have low : canonical (drawFbAddr + off) = true := by
    rw [canonical,Bool.or_eq_true,decide_eq_true_eq,drawFbAddr]
    exact .inl (by omega)
  have page_ : page (drawFbAddr + off) = page (drawFbAddr + off / 2097152 * 2097152) := by
    rw [page,page,drawFbAddr]
    omega
  rw [Kernel.physical,if_pos low,current,Kernel.translate,Kernel.mapping_page page_,← Kernel.translate,
    row _ (by omega),Option.map_some,drawFbAddr]
  refine congrArg some ?_
  omega

/-- A byte of the mapped memory, or of the pages behind it, that are not mapped. -/
theorem inside_iff {size : Nat} (row : RowMapped k root drawFbAddr 16 (fbPaddr / 2097152)) (current : k.cr3 = root)
    (vacant : ∀ off, 2^25 ≤ off → off < 2^26 → k.mapping root (drawFbAddr + off) = none) (few : size ≤ 2^25)
    (near : off < 2^26) :
    (∃ a, k.physical (drawFbAddr + off) = some a ∧ fbPaddr ≤ a ∧ a < fbPaddr + size) ↔
      off < 2^25 ∧ fbPaddr % 2^21 ≤ off ∧ off < size + fbPaddr % 2^21 ∧ fbPaddr / 2^21 * 2^21 + off < 2^48 := by
  by_cases inside : off < 2^25
  · rw [row.fb_physical current inside]
    simp only [Option.some.injEq,exists_eq_left']
    omega
  · have none_ : k.physical (drawFbAddr + off) = none := by
      rw [Kernel.physical,current,Kernel.translate,vacant off (Nat.le_of_not_lt inside) near,Option.map_none,
        Option.map_none,ite_self]
    rw [none_]
    constructor
    · rintro ⟨_,there,_⟩
      cases there
    · exact fun within => absurd within.1 inside

end Mapping

/-- What the boot loader reports, in 24 or 32 bits. -/
structure FbMode.Valid (g : FbMode) : Prop where
  wide : 8 ≤ g.w
  high : 10 ≤ g.h
  bits : g.bb = 24 ∨ g.bb = 32
  pitch : g.w * g.bb / 8 ≤ g.p
  fits : g.p * g.h ≤ 2^25

section Screen
variable {g : FbMode} {font text text2 : Nat → UInt8} {c : UInt8} {root fbPaddr ty tx : Nat} {k : Kernel}

theorem FbMode.Valid.row (valid : g.Valid) : g.tw * (g.xInc * 8) ≤ g.p ∧ 0 < g.xInc ∧ 0 < g.tw := by
  obtain ⟨wide,_,bits,pitch,_⟩ := valid
  rcases bits with same | same
  · rw [same] at pitch
    simp only [FbMode.tw,FbMode.xInc,same]
    omega
  · rw [same] at pitch
    simp only [FbMode.tw,FbMode.xInc,same]
    omega

theorem placed_iff (valid : g.Valid) (font : Nat → UInt8) (c : UInt8) (tx : Nat) :
    DrawnCell.Placed g ⟨tx,ty,c,drawCharAtFbptr g font c (cellIt g ty tx)⟩ ↔
      ty * g.p = ty * (g.tw * (g.xInc * 8)) + g.xInc := by
  obtain ⟨row,_,some_⟩ := valid.row
  have wide : g.xInc * 8 ≤ g.p := Nat.le_trans (Nat.le_mul_of_pos_left _ some_) row
  have rows : 0 < charRows c := by
    rw [charRows_eq]
    split
    · decide
    · decide
  rw [DrawnCell.Placed]
  dsimp only
  rw [drawCharAtFbptr_addrs wide,cellAddrs_inj rows,cellIt]
  have here : ty * (g.tw * (g.xInc * 8) + g.p * 9) = ty * (g.tw * (g.xInc * 8)) + 9 * (ty * g.p) := by ring
  have column : tx * (g.xInc * 8) = 8 * tx * g.xInc := by ring
  have line : 10 * ty * g.p = 10 * (ty * g.p) := by ring
  rw [here,column,line]
  omega

/-- The bytes of a character that is in its place. -/
theorem cell_inside_iff (valid : g.Valid) (row : RowMapped k root drawFbAddr 16 (fbPaddr / 2097152))
    (current : k.cr3 = root) (vacant : ∀ off, 2^25 ≤ off → off < 2^26 → k.mapping root (drawFbAddr + off) = none)
    (line : ty < g.th) (column : tx < g.tw) (shift : ty * g.p = ty * (g.tw * (g.xInc * 8)) + g.xInc) :
    (∀ q ∈ drawCharAtFbptr g font c (cellIt g ty tx), ∀ b < g.xInc,
      ∃ a, k.physical (q.at_ + b) = some a ∧ fbPaddr ≤ a ∧ a < fbPaddr + g.p * g.h) ↔
    CellFits g fbPaddr c ty tx := by
  obtain ⟨width,pixel,some_⟩ := valid.row
  have placed := (placed_iff valid font c tx).mpr shift
  have rows : charRows c = 10 ∨ charRows c = 12 := by
    rw [charRows_eq]
    split
    · exact .inr rfl
    · exact .inl rfl
  -- Everything in bytes from the start.
  have bytes : (∀ q ∈ drawCharAtFbptr g font c (cellIt g ty tx), ∀ b < g.xInc,
      ∃ a, k.physical (q.at_ + b) = some a ∧ fbPaddr ≤ a ∧ a < fbPaddr + g.p * g.h) ↔
      ∀ r < charRows c, ∀ x < 8, ∀ b < g.xInc,
        ∃ a, k.physical (drawFbAddr + (10 * ty * g.p + 8 * tx * g.xInc + r * g.p + x * g.xInc + b)) = some a ∧
          fbPaddr ≤ a ∧ a < fbPaddr + g.p * g.h := by
    constructor
    · intro all r small x left b inside
      have member : drawFbAddr + 10 * ty * g.p + 8 * tx * g.xInc + r * g.p + x * g.xInc ∈
          (drawCharAtFbptr g font c (cellIt g ty tx)).map Pixel.at_ := by
        rw [placed]
        exact mem_cellAddrs.mpr ⟨r,small,x,left,rfl⟩
      obtain ⟨q,drawn,same⟩ := List.mem_map.mp member
      have here := all q drawn b inside
      rw [same] at here
      simpa only [Nat.add_assoc] using here
    · intro all q drawn b inside
      have member : q.at_ ∈ (drawCharAtFbptr g font c (cellIt g ty tx)).map Pixel.at_ := List.mem_map_of_mem drawn
      rw [placed] at member
      obtain ⟨r,small,x,left,same⟩ := mem_cellAddrs.mp member
      rw [same]
      simpa only [Nat.add_assoc] using all r small x left b inside
  have most : (8 * tx + 8) * g.xInc ≤ g.p := by
    calc (8 * tx + 8) * g.xInc = (tx + 1) * (g.xInc * 8) := by ring
      _ ≤ g.tw * (g.xInc * 8) := Nat.mul_le_mul_right _ column
      _ ≤ g.p := width
  have lines : (10 * ty + 10) * g.p ≤ g.p * g.h := by
    rw [Nat.mul_comm g.p]
    refine Nat.mul_le_mul_right _ ?_
    rw [FbMode.th] at line
    omega
  have ten : 10 * g.p ≤ g.p * g.h := by
    rw [Nat.mul_comm g.p]
    exact Nat.mul_le_mul_right _ valid.high
  have few := valid.fits
  have whole : (10 * ty + charRows c - 1) * g.p + (8 * tx + 8) * g.xInc =
      10 * ty * g.p + 8 * tx * g.xInc + (charRows c - 1) * g.p + 8 * g.xInc := by
    rcases rows with same | same
    · rw [same]
      show (10 * ty + 9) * g.p + _ = _ + 9 * g.p + _
      ring
    · rw [same]
      show (10 * ty + 11) * g.p + _ = _ + 11 * g.p + _
      ring
  have near (r : Nat) (small : r < charRows c) (x : Nat) (left : x < 8) (b : Nat) (inside : b < g.xInc) :
      10 * ty * g.p + 8 * tx * g.xInc + r * g.p + x * g.xInc + b <
        (10 * ty + charRows c - 1) * g.p + (8 * tx + 8) * g.xInc := by
    have down : r * g.p ≤ (charRows c - 1) * g.p := Nat.mul_le_mul_right _ (by omega)
    have along : (x + 1) * g.xInc ≤ 8 * g.xInc := Nat.mul_le_mul_right _ left
    rw [Nat.succ_mul] at along
    omega
  have bound : (10 * ty + charRows c - 1) * g.p + (8 * tx + 8) * g.xInc ≤ 2^26 := by
    have rest : (10 * ty + charRows c - 1) * g.p ≤ (10 * ty + 11) * g.p := Nat.mul_le_mul_right _ (by omega)
    have split : (10 * ty + 11) * g.p = (10 * ty + 10) * g.p + g.p := Nat.succ_mul ..
    omega
  have each (r : Nat) (small : r < charRows c) (x : Nat) (left : x < 8) (b : Nat) (inside : b < g.xInc) :=
    inside_iff row current vacant few (Nat.lt_of_lt_of_le (near r small x left b inside) bound)
  rw [bytes]
  constructor
  · intro all
    have start := (each 0 (by omega) 0 (by decide) 0 pixel).mp (all 0 (by omega) 0 (by decide) 0 pixel)
    have finish := (each (charRows c - 1) (by omega) 7 (by decide) (g.xInc - 1) (by omega)).mp
      (all (charRows c - 1) (by omega) 7 (by decide) (g.xInc - 1) (by omega))
    exact ⟨shift,by omega,by omega,by omega,by omega⟩
  · rintro ⟨_,first,last,mapped,low⟩ r small x left b inside
    have within := near r small x left b inside
    exact (each r small x left b inside).mpr ⟨by omega,by omega,by omega,by omega⟩

/-- The frame buffer at 0xfd000000, mapped by a kernel whose table has no entry. -/
theorem fbKernel : ∃ k', drawSetupMaps takePage bareKernel 0xfd000000 = some k' := by
  have there : (drawSetupMaps takePage bareKernel 0xfd000000).isSome = true := by decide +kernel
  exact Option.isSome_iff_exists.mp there

/-- **The screen.** Every character that has changed is drawn in its place and inside the frame
buffer if and only if each of them fits; the first line never does, as the first pixel is drawn
in the second column. -/
theorem screen_drawn_iff {k' : Kernel} {bufs roots : List Nat} (pool : Pool root bufs roots k)
    (at_root : k.pml4Table = root) (hr : root ∈ roots)
    (vacant : ∀ off, 2^25 ≤ off → off < 2^26 → k.mapping root (drawFbAddr + off) = none)
    (ran : drawSetupMaps takePage k fbPaddr = some k') (valid : g.Valid) (font text text2 : Nat → UInt8) :
    ScreenDrawn g k' fbPaddr text text2 (drawSwapTextbuf g font text text2) ↔
      ∀ ty < g.th, ∀ tx < g.tw, text (ty * g.tw + tx) ≠ text2 (ty * g.tw + tx) →
        CellFits g fbPaddr (text (ty * g.tw + tx)) ty tx := by
  obtain ⟨current,row,others⟩ := drawSetupMaps_row pool at_root hr ran
  have vacant' (off : Nat) (behind : 2^25 ≤ off) (near : off < 2^26) : k'.mapping root (drawFbAddr + off) = none := by
    rw [others]
    · exact vacant off behind near
    · intro j inside
      rw [page,page,drawFbAddr]
      omega
  constructor
  · intro screen ty line tx column changed
    obtain ⟨d,member,rfl,rfl,_,placed⟩ := screen.placed ty line tx column changed
    obtain ⟨ty,_,tx,_,_,rfl⟩ := mem_drawn.mp member
    exact (cell_inside_iff valid row current vacant' line column ((placed_iff valid font _ _).mp placed)).mp
      (screen.inside _ member)
  · intro fits
    refine ⟨fun ty line tx column changed => ?_,fun d member => ?_⟩
    · exact ⟨_,mem_drawn.mpr ⟨ty,line,tx,column,changed,rfl⟩,rfl,rfl,rfl,
        (placed_iff valid font _ _).mpr (fits ty line tx column changed).shift⟩
    · obtain ⟨ty,line,tx,column,changed,rfl⟩ := mem_drawn.mp member
      have cell := fits ty line tx column changed
      exact (cell_inside_iff valid row current vacant' line column cell.shift).mpr cell

/-- One letter in the second line of a screen of nine by twenty pixels. -/
theorem screen_drawn_padded : ∃ k', ScreenDrawn ⟨9,20,32,36⟩ k' 0xfd000000
    (fun i => if i = 1 then 0x61 else 0) (fun _ => 0)
    (drawSwapTextbuf ⟨9,20,32,36⟩ (fun _ => 0) (fun i => if i = 1 then 0x61 else 0) fun _ => 0) := by
  obtain ⟨k',ran⟩ := fbKernel
  have valid : FbMode.Valid ⟨9,20,32,36⟩ := ⟨by decide,by decide,.inr rfl,by decide,by decide⟩
  refine ⟨k',(screen_drawn_iff bareKernel_pool rfl (List.mem_singleton.mpr rfl)
    (fun off _ _ => bareKernel_mapping _) ran valid (fun _ => 0) _ _).mpr ?_⟩
  intro ty line tx column changed
  have first : tx = 0 := Nat.lt_one_iff.mp column
  have second : ty = 1 := by
    by_contra other
    rw [first] at changed
    exact changed (if_neg (by simpa [FbMode.tw] using other))
  rw [first,second]
  exact ⟨by decide,by decide,by decide,by decide,by decide⟩

/-- One letter in the first line of a screen of 640 by 480. -/
theorem screen_drawn_right : ¬∀ (k k' : Kernel) (root : Nat) (bufs roots : List Nat) (fbPaddr : Nat) (g : FbMode)
    (font text text2 : Nat → UInt8), Pool root bufs roots k → k.pml4Table = root → root ∈ roots →
    (∀ off, 2^25 ≤ off → off < 2^26 → k.mapping root (drawFbAddr + off) = none) →
    drawSetupMaps takePage k fbPaddr = some k' → g.Valid →
    ScreenDrawn g k' fbPaddr text text2 (drawSwapTextbuf g font text text2) := by
  intro all
  obtain ⟨k',ran⟩ := fbKernel
  have valid : FbMode.Valid ⟨640,480,32,2560⟩ := ⟨by decide,by decide,.inr rfl,by decide,by decide⟩
  have screen := all bareKernel k' 0x1000 [] [0x1000] 0xfd000000 ⟨640,480,32,2560⟩ (fun _ => 0) (fun _ => 0x61)
    (fun _ => 0) bareKernel_pool rfl (List.mem_singleton.mpr rfl) (fun off _ _ => bareKernel_mapping _) ran valid
  obtain ⟨d,member,line,column,_,placed⟩ := screen.placed 0 (by decide) 0 (by decide) (by decide)
  obtain ⟨ty,_,tx,_,_,rfl⟩ := mem_drawn.mp member
  have shift := (placed_iff valid _ _ _).mp placed
  rw [show ty = 0 from line] at shift
  exact absurd shift (by decide)

end Screen

end Siegfried
