import Siegfried.MemCpy
import Mathlib.Data.List.Induction

/-! The kernel's text: a buffer of characters that scrolls. -/
namespace Siegfried
open Bytes

/-- What `draw_setup` leaves in `text_buf`, `tw` and `th`. -/
structure TextArea where
  textBuf : Nat
  tw : Nat
  th : Nat

structure TextState where
  mem : Store
  tcurx : Nat
  tcury : Nat

def drawScrollTextBuf (g : TextArea) (mem : Store) : Store :=
  let mem := Klib.memCpy mem g.textBuf (g.textBuf + g.tw) (g.tw * (g.th - 1))
  Klib.memSet mem (g.textBuf + g.tw * (g.th - 1)) 0 g.tw

def drawIncrementLine (g : TextArea) (s : TextState) : TextState :=
  if s.tcury + 1 ≥ g.th then { s with tcurx := 0, mem := drawScrollTextBuf g s.mem }
  else { s with tcurx := 0, tcury := s.tcury + 1 }

/-- The decrement is one of an `unsigned long`. -/
def drawAppendTextBuf (g : TextArea) (s : TextState) (c : UInt8) : TextState :=
  if c = 0 then s
  else if c = 8 then { s with tcurx := (s.tcurx + (2 ^ 64 - 1)) % 2 ^ 64 }
  else if c = 0xa then drawIncrementLine g s
  else
    let s := if s.tcurx ≥ g.tw then drawIncrementLine g s else s
    let where_ := s.tcury * g.tw + s.tcurx
    { s with mem := Function.update s.mem (g.textBuf + where_) c, tcurx := s.tcurx + 1 }

/-- The text of `draw_setup` in the blocks it has allocated, each of `w*h/10` bytes; the width
and height in the multiboot tag have 32 bits. -/
def drawSetup (mem : Store) (textBuf textBuf2 : Nat) (fbw fbh : UInt32) : TextArea × TextState :=
  let size := fbw.toNat * fbh.toNat / 10
  let mem := Klib.memSet mem textBuf 0 size
  let mem := Klib.memSet mem textBuf2 0 size
  (⟨textBuf,fbw.toNat / 8,fbh.toNat / 10⟩,⟨mem,0,0⟩)

section Scroll
variable {g : TextArea} {mem : Store}

theorem drawScrollTextBuf_eq : drawScrollTextBuf g mem =
    memSet (memCpy mem g.textBuf (g.textBuf + g.tw) (g.tw * (g.th - 1))) (g.textBuf + g.tw * (g.th - 1)) 0 g.tw := by
  have forward : Klib.Forward g.textBuf (g.textBuf + g.tw) (g.tw * (g.th - 1)) := .inl (Nat.le_add_right ..)
  rw [drawScrollTextBuf,Klib.memCpy_eq mem forward,Klib.memSet_eq]

theorem cell_lt {j k x w : Nat} (row : j < k) (column : x < w) : j * w + x < w * k := by
  calc j * w + x < j * w + w := Nat.add_lt_add_left column _
    _ = w * (j + 1) := by rw [Nat.mul_comm j,← Nat.mul_succ]
    _ ≤ w * k := Nat.mul_le_mul_left w row

/-- **Scrolling.** Every line takes the text of the next one, the last is cleared, and nothing
else changes, whatever the address and the width are. -/
theorem drawScrollTextBuf_lines (g : TextArea) (mem : Store) (high : 1 ≤ g.th) :
    (∀ j x, j < g.th - 1 → x < g.tw → drawScrollTextBuf g mem (g.textBuf + (j * g.tw + x)) =
      mem (g.textBuf + ((j + 1) * g.tw + x))) ∧
    (∀ x < g.tw, drawScrollTextBuf g mem (g.textBuf + ((g.th - 1) * g.tw + x)) = 0) ∧
    (∀ a, a < g.textBuf ∨ g.textBuf + g.th * g.tw ≤ a → drawScrollTextBuf g mem a = mem a) := by
  rw [drawScrollTextBuf_eq]
  refine ⟨fun j x row column => ?_,fun x column => ?_,fun a apart => ?_⟩
  · have cell : j * g.tw + x < g.tw * (g.th - 1) := cell_lt row column
    have next : g.textBuf + g.tw + (j * g.tw + x) = g.textBuf + ((j + 1) * g.tw + x) := by
      rw [Nat.succ_mul]
      omega
    rw [memSet,splice_apart (.inl (Nat.add_lt_add_left cell _)),memCpy,splice_inside cell,next]
  · rw [Nat.mul_comm (g.th - 1),← Nat.add_assoc,memSet,splice_inside column]
  · have size : g.tw * (g.th - 1) + g.tw = g.th * g.tw := by
      rw [← Nat.mul_succ,Nat.succ_eq_add_one,Nat.sub_add_cancel high,Nat.mul_comm]
    rw [memSet,splice_apart (by omega),memCpy,splice_apart (by omega)]

/-- A screen of two lines of three characters, right behind an address that is no multiple of
four. -/
theorem drawScrollTextBuf_lines_small : drawScrollTextBuf ⟨5,3,2⟩ (fun a => .ofNat a) 6 = 9 :=
  (drawScrollTextBuf_lines ⟨5,3,2⟩ (fun a => .ofNat a) (by decide)).1 0 1 (by decide) (by decide)

end Scroll

/-! What the text stands for: a sheet of lines that is never scrolled. -/

/-- The lines below the cursor's are blank. -/
structure Terminal where
  text : Nat → Nat → UInt8
  line : Nat
  col : Nat

namespace Terminal

def blank : Terminal := ⟨fun _ _ => 0,0,0⟩

def newLine (t : Terminal) : Terminal := { t with line := t.line + 1, col := 0 }

def put (t : Terminal) (c : UInt8) : Terminal :=
  { t with text := Function.update t.text t.line (Function.update (t.text t.line) t.col c), col := t.col + 1 }

/-- Wraps at column `tw`, and only when there is a character to write. -/
def write (tw : Nat) (t : Terminal) (c : UInt8) : Terminal :=
  if c = 0 then t
  else if c = 8 then { t with col := t.col - 1 }
  else if c = 0xa then t.newLine
  else if t.col < tw then t.put c
  else t.newLine.put c

/-- The first of the last `th` lines. -/
def top (th : Nat) (t : Terminal) : Nat := t.line + 1 - th

end Terminal

/-- The cursor is in its range, the text is that of the last lines, and memory is changed in the
text buffer only. -/
structure TextShown (g : TextArea) (before s : TextState) (t : Terminal) : Prop where
  curx : s.tcurx ≤ g.tw
  cury : s.tcury < g.th
  text : ∀ j < g.th, ∀ x < g.tw, s.mem (g.textBuf + (j * g.tw + x)) = t.text (t.top g.th + j) x
  inside : ∀ a, a < g.textBuf ∨ g.textBuf + g.th * g.tw ≤ a → s.mem a = before.mem a

/-- After every part of the stream. -/
def TextFollows (g : TextArea) (s : TextState) (stream : List UInt8) : Prop :=
  ∀ written, written <+: stream →
    TextShown g s (written.foldl (drawAppendTextBuf g) s) (written.foldl (Terminal.write g.tw) .blank)

/-- No 0x08 arrives in column 0. -/
def StepsBack (tw : Nat) (stream : List UInt8) : Prop :=
  ∀ written, written ++ [8] <+: stream → (written.foldl (Terminal.write tw) .blank).col ≠ 0

/-- The text and the terminal have the same cursor as well. -/
structure TextInv (g : TextArea) (before s : TextState) (t : Terminal) : Prop where
  shown : TextShown g before s t
  curx : s.tcurx = t.col
  cury : s.tcury + t.top g.th = t.line
  below : ∀ i, t.line < i → ∀ x, t.text i x = 0

section Steps
variable {g : TextArea} {before s : TextState} {t : Terminal} {c : UInt8}

theorem TextInv.newLine (inv : TextInv g before s t) (high : 1 ≤ g.th) :
    TextInv g before (drawIncrementLine g s) t.newLine := by
  obtain ⟨⟨_,small,text,inside⟩,curx,cury,below⟩ := inv
  rw [drawIncrementLine]
  by_cases last : s.tcury + 1 ≥ g.th
  · obtain ⟨up,clear,apart⟩ := drawScrollTextBuf_lines g s.mem high
    have top : t.newLine.top g.th = t.top g.th + 1 := by
      simp only [Terminal.top,Terminal.newLine] at cury ⊢
      omega
    rw [if_pos last]
    refine ⟨⟨Nat.zero_le _,small,fun j row x column => ?_,fun a out => ?_⟩,rfl,?_,?_⟩
    · by_cases bottom : j < g.th - 1
      · calc drawScrollTextBuf g s.mem (g.textBuf + (j * g.tw + x))
            = s.mem (g.textBuf + ((j + 1) * g.tw + x)) := up j x bottom column
          _ = t.text (t.top g.th + (j + 1)) x := text (j + 1) (by omega) x column
          _ = t.newLine.text (t.newLine.top g.th + j) x := by
            rw [top,Nat.add_assoc,Nat.add_comm 1 j]
            rfl
      · have bottom : j = g.th - 1 := by omega
        subst bottom
        have line : t.line < t.newLine.top g.th + (g.th - 1) := by
          rw [top]
          omega
        calc drawScrollTextBuf g s.mem (g.textBuf + ((g.th - 1) * g.tw + x)) = 0 := clear x column
          _ = t.newLine.text (t.newLine.top g.th + (g.th - 1)) x := (below _ line x).symm
    · exact (apart a out).trans (inside a out)
    · rw [top]
      show s.tcury + (t.top g.th + 1) = t.line + 1
      omega
    · intro i later
      exact below i (Nat.lt_of_succ_lt later)
  · have top : t.newLine.top g.th = t.top g.th := by
      simp only [Terminal.top,Terminal.newLine] at cury ⊢
      omega
    rw [if_neg last]
    refine ⟨⟨Nat.zero_le _,Nat.lt_of_not_le last,fun j row x column => ?_,inside⟩,rfl,?_,?_⟩
    · rw [top]
      exact text j row x column
    · rw [top]
      show s.tcury + 1 + t.top g.th = t.line + 1
      omega
    · intro i later
      exact below i (Nat.lt_of_succ_lt later)

theorem TextInv.put (inv : TextInv g before s t) (room : t.col < g.tw) :
    TextInv g before ⟨Function.update s.mem (g.textBuf + (s.tcury * g.tw + s.tcurx)) c,s.tcurx + 1,s.tcury⟩
      (t.put c) := by
  obtain ⟨⟨_,small,text,inside⟩,curx,cury,below⟩ := inv
  refine ⟨⟨?_,small,fun j row x column => ?_,fun a out => ?_⟩,?_,cury,fun i later x => ?_⟩
  · rw [curx]
    exact room
  · show Function.update s.mem _ c _ = Function.update t.text t.line (Function.update (t.text t.line) t.col c)
      (t.top g.th + j) x
    by_cases here : j = s.tcury
    · subst here
      have line : t.top g.th + s.tcury = t.line := by omega
      rw [line,Function.update_self]
      by_cases same : x = s.tcurx
      · rw [same,Function.update_self,curx,Function.update_self]
      · rw [Function.update_of_ne (by omega),Function.update_of_ne (by omega),text s.tcury row x column,line]
    · have other : t.top g.th + j ≠ t.line := by omega
      have apart : j * g.tw + x ≠ s.tcury * g.tw + s.tcurx := by
        intro same
        have rows : (j * g.tw + x) / g.tw = (s.tcury * g.tw + s.tcurx) / g.tw := by rw [same]
        rw [Nat.mul_comm j,Nat.mul_comm s.tcury,Nat.mul_add_div (by omega),Nat.mul_add_div (by omega),
          Nat.div_eq_of_lt column,Nat.div_eq_of_lt (by omega)] at rows
        exact here rows
      rw [Function.update_of_ne (by omega),Function.update_of_ne other,text j row x column]
  · have cell : s.tcury * g.tw + s.tcurx < g.tw * g.th := cell_lt small (by omega)
    have size : g.tw * g.th = g.th * g.tw := Nat.mul_comm ..
    rw [← inside a out]
    exact Function.update_of_ne (by omega) ..
  · exact congrArg (· + 1) curx
  · have other : i ≠ t.line := Nat.ne_of_gt later
    exact (congrFun (Function.update_of_ne other ..) x).trans (below i later x)

theorem TextInv.step (inv : TextInv g before s t) (wide : 1 ≤ g.tw) (high : 1 ≤ g.th) (narrow : g.tw < 2 ^ 64)
    (right : c = 8 → t.col ≠ 0) : TextInv g before (drawAppendTextBuf g s c) (t.write g.tw c) := by
  rw [drawAppendTextBuf,Terminal.write]
  by_cases zero : c = 0
  · rw [if_pos zero,if_pos zero]
    exact inv
  rw [if_neg zero,if_neg zero]
  by_cases back : c = 8
  · have right := right back
    have most := inv.curx ▸ inv.shown.curx
    have less : (s.tcurx + (2 ^ 64 - 1)) % 2 ^ 64 = t.col - 1 := by
      rw [inv.curx]
      omega
    rw [if_pos back,if_pos back,less]
    exact ⟨⟨Nat.le_trans (Nat.sub_le ..) most,inv.shown.cury,inv.shown.text,inv.shown.inside⟩,rfl,inv.cury,inv.below⟩
  rw [if_neg back,if_neg back]
  by_cases feed : c = 0xa
  · rw [if_pos feed,if_pos feed]
    exact inv.newLine high
  rw [if_neg feed,if_neg feed]
  by_cases room : t.col < g.tw
  · have stay : ¬s.tcurx ≥ g.tw := by
      rw [inv.curx]
      omega
    simp only [if_neg stay,if_pos room]
    exact inv.put room
  · have wrap : s.tcurx ≥ g.tw := by
      rw [inv.curx]
      omega
    simp only [if_pos wrap,if_neg room]
    exact (inv.newLine high).put wide

theorem drawSetup_inv (mem : Store) (textBuf textBuf2 : Nat) (fbw fbh : UInt32)
    (high : 1 ≤ (drawSetup mem textBuf textBuf2 fbw fbh).1.th) :
    TextInv (drawSetup mem textBuf textBuf2 fbw fbh).1 (drawSetup mem textBuf textBuf2 fbw fbh).2
      (drawSetup mem textBuf textBuf2 fbw fbh).2 .blank := by
  have top : Terminal.blank.top (drawSetup mem textBuf textBuf2 fbw fbh).1.th = 0 := Nat.sub_eq_zero_of_le high
  refine ⟨⟨Nat.zero_le _,high,fun j row x column => ?_,fun _ _ => rfl⟩,rfl,?_,fun _ _ _ => rfl⟩
  · have cell : j * (fbw.toNat / 8) + x < fbw.toNat / 8 * (fbh.toNat / 10) := cell_lt row column
    have fits : fbw.toNat / 8 * (fbh.toNat / 10) ≤ fbw.toNat * fbh.toNat / 10 :=
      calc fbw.toNat / 8 * (fbh.toNat / 10) ≤ fbw.toNat * (fbh.toNat / 10) :=
            Nat.mul_le_mul_right _ (Nat.div_le_self ..)
        _ ≤ fbw.toNat * fbh.toNat / 10 := Nat.mul_div_le_mul_div_assoc ..
    show Klib.memSet (Klib.memSet mem textBuf 0 _) textBuf2 0 _ (textBuf + (j * (fbw.toNat / 8) + x)) = 0
    rw [Klib.memSet_eq,Klib.memSet_eq,memSet]
    -- The second block holds zeros too, wherever it is.
    by_cases both : textBuf2 ≤ textBuf + (j * (fbw.toNat / 8) + x) ∧
        textBuf + (j * (fbw.toNat / 8) + x) < textBuf2 + fbw.toNat * fbh.toNat / 10
    · rw [splice,if_pos both]
    · rw [splice,if_neg both,memSet,splice_inside (Nat.lt_of_lt_of_le cell fits)]
  · rw [top]
    rfl

end Steps

section Runs
variable {g : TextArea} {s : TextState} {stream : List UInt8} {c : UInt8}

theorem stepsBack_snoc {tw : Nat} : StepsBack tw (stream ++ [c]) ↔
    StepsBack tw stream ∧ (c = 8 → (stream.foldl (Terminal.write tw) .blank).col ≠ 0) := by
  constructor
  · refine fun back => ⟨fun written sofar => back written (sofar.trans (List.prefix_append ..)),?_⟩
    rintro rfl
    exact back stream (List.prefix_refl _)
  · rintro ⟨back,last⟩ written sofar
    rcases List.prefix_concat_iff.mp sofar with whole | shorter
    · obtain ⟨rfl,same⟩ := List.append_inj' whole rfl
      exact last (List.cons.inj same).1.symm
    · exact back written shorter

theorem textFollows_snoc : TextFollows g s (stream ++ [c]) ↔ TextFollows g s stream ∧
    TextShown g s ((stream ++ [c]).foldl (drawAppendTextBuf g) s)
      ((stream ++ [c]).foldl (Terminal.write g.tw) .blank) := by
  constructor
  · exact fun all => ⟨fun written sofar => all written (sofar.trans (List.prefix_append ..)),
      all _ (List.prefix_refl _)⟩
  · rintro ⟨all,last⟩ written sofar
    rcases List.prefix_concat_iff.mp sofar with rfl | shorter
    · exact last
    · exact all written shorter

/-- A run whose backspaces have room. -/
theorem TextInv.run (start : TextInv g s s .blank) (wide : 1 ≤ g.tw) (high : 1 ≤ g.th) (narrow : g.tw < 2 ^ 64)
    (back : StepsBack g.tw stream) :
    TextInv g s (stream.foldl (drawAppendTextBuf g) s) (stream.foldl (Terminal.write g.tw) .blank) := by
  induction stream using List.reverseRecOn with
  | nil => exact start
  | append_singleton stream c ih =>
    obtain ⟨before,last⟩ := stepsBack_snoc.mp back
    rw [List.foldl_append,List.foldl_append]
    exact (ih before).step wide high narrow last

theorem TextInv.follows_iff (start : TextInv g s s .blank) (wide : 1 ≤ g.tw) (high : 1 ≤ g.th)
    (narrow : g.tw < 2 ^ 64 - 1) : TextFollows g s stream ↔ StepsBack g.tw stream := by
  have narrow' : g.tw < 2 ^ 64 := Nat.lt_of_lt_of_le narrow (Nat.sub_le ..)
  constructor
  · intro follows
    induction stream using List.reverseRecOn with
    | nil =>
      intro written sofar
      exact absurd (List.prefix_nil.mp sofar) (by simp)
    | append_singleton stream c ih =>
      obtain ⟨before,last⟩ := textFollows_snoc.mp follows
      have back := ih before
      refine stepsBack_snoc.mpr ⟨back,fun same zero => ?_⟩
      subst same
      have inv := start.run wide high narrow' back
      -- The cursor wraps below zero.
      have below := last.curx
      rw [List.foldl_append,List.foldl_cons,List.foldl_nil,drawAppendTextBuf,if_neg (by decide),if_pos rfl] at below
      dsimp only at below
      rw [inv.curx,zero] at below
      exact absurd below (by omega)
  · intro back written sofar
    have back' : StepsBack g.tw written := fun front first => back front (first.trans sofar)
    exact (start.run wide high narrow' back').shown

end Runs

/-- **The text buffer as a terminal.** The text is that of the reference terminal throughout a
stream if and only if no 0x08 arrives in column 0, where `tcurx` wraps. -/
theorem draw_text_iff (mem : Store) (textBuf textBuf2 : Nat) (fbw fbh : UInt32) (stream : List UInt8)
    (wide : 1 ≤ (drawSetup mem textBuf textBuf2 fbw fbh).1.tw)
    (high : 1 ≤ (drawSetup mem textBuf textBuf2 fbw fbh).1.th) :
    TextFollows (drawSetup mem textBuf textBuf2 fbw fbh).1 (drawSetup mem textBuf textBuf2 fbw fbh).2 stream ↔
      StepsBack (drawSetup mem textBuf textBuf2 fbw fbh).1.tw stream := by
  have narrow : fbw.toNat / 8 < 2 ^ 64 - 1 := by
    have word := fbw.toNat_lt
    omega
  exact (drawSetup_inv mem textBuf textBuf2 fbw fbh high).follows_iff wide high narrow

/-- `a`, back, and a new line on a screen of 80 by 48 characters. -/
theorem draw_text_back : TextFollows (drawSetup (fun _ => 0) 0 30720 640 480).1
    (drawSetup (fun _ => 0) 0 30720 640 480).2 [0x61,8,0xa] := by
  have wide : 1 ≤ (640 : UInt32).toNat / 8 := by decide
  have high : 1 ≤ (480 : UInt32).toNat / 10 := by decide
  refine (draw_text_iff (fun _ => 0) 0 30720 640 480 _ wide high).mpr fun written sofar => ?_
  have only : written = [0x61] := by
    match written with
    | [] => simp at sofar
    | [a] => simp at sofar; rw [sofar]
    | [a,b] => simp at sofar
    | a :: b :: d :: rest => simp at sofar
  rw [only]
  show (Terminal.write ((640 : UInt32).toNat / 8) .blank 0x61).col ≠ 0
  decide

/-- A backspace on an empty screen. -/
theorem draw_text_wraps : ¬∀ mem, TextFollows (drawSetup mem 0 30720 640 480).1 (drawSetup mem 0 30720 640 480).2 [8] := by
  intro always
  have below := (always (fun _ => 0) [8] (List.prefix_refl _)).curx
  exact absurd below (by decide)

end Siegfried
