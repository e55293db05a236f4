import Mathlib.Logic.Function.Basic
import Mathlib.Data.List.Basic
import Mathlib.Data.List.Induction

/-! The line editor of `posh`. -/
namespace Siegfried

/-- `mem` is memory from `buffer` on, of which 128 bytes are the buffer. Nothing reads `stores`:
it records the offsets that are stored to. -/
structure PoshLine where
  mem : Nat → UInt8
  bIdx : Nat
  stores : List Nat

namespace PoshLine

/-- After `memset(buffer, 0, 128)`. -/
def start (mem : Nat → UInt8) : PoshLine := ⟨fun i => if i < 128 then 0 else mem i,0,[]⟩

/-- One turn of the loop, for a character other than the newline; `b_idx` has 8 bits. -/
def type (s : PoshLine) (input : UInt8) : PoshLine :=
  if input = 8 then
    if 0 < s.bIdx then ⟨Function.update s.mem s.bIdx 0,s.bIdx - 1,s.stores ++ [s.bIdx]⟩ else s
  else ⟨Function.update s.mem s.bIdx input,(s.bIdx + 1) % 256,s.stores ++ [s.bIdx]⟩

/-- The string that starts at `buffer`. -/
def Holds (s : PoshLine) (str : List UInt8) : Prop :=
  0 ∉ str ∧ (∀ i c, str[i]? = some c → s.mem i = c) ∧ s.mem str.length = 0

end PoshLine

def poshLine (mem : Nat → UInt8) (input : List UInt8) : PoshLine := input.foldl PoshLine.type (.start mem)

/-- The characters that are left when each backspace takes the last one. -/
def typed (input : List UInt8) : List UInt8 :=
  input.foldl (fun str c => if c = 8 then str.dropLast else str ++ [c]) []

/-- Only the buffer is stored to, and the string that is tokenized, none when `b_idx` is zero, is
the one typed. -/
def Edits (mem : Nat → UInt8) (input : List UInt8) : Prop :=
  (∀ i ∈ (poshLine mem input).stores, i < 128) ∧
    if (poshLine mem input).bIdx = 0 then typed input = [] else (poshLine mem input).Holds (typed input)

/-- The buffer is not full before the last character, no zero is left, and behind what is left
stands a zero: the last character is no backspace, or took a zero away, and if the buffer is
full a zero follows it in memory. -/
structure Editable (mem : Nat → UInt8) (input : List UInt8) : Prop where
  room : ∀ front c rest, input = front ++ c :: rest → (typed front).length < 128
  proper : 0 ∉ typed input
  last : ∀ front, input = front ++ [8] → typed input = [] ∨ (typed front).getLast? = some 0
  full : (typed input).length = 128 → mem 128 = 0

section Line
variable {mem : Nat → UInt8} {input front : List UInt8} {c : UInt8}

theorem typed_snoc (front : List UInt8) (c : UInt8) :
    typed (front ++ [c]) = if c = 8 then (typed front).dropLast else typed front ++ [c] := by
  rw [typed,List.foldl_append]
  rfl

theorem poshLine_snoc (mem : Nat → UInt8) (front : List UInt8) (c : UInt8) :
    poshLine mem (front ++ [c]) = (poshLine mem front).type c := by
  rw [poshLine,List.foldl_append]
  rfl

/-- What memory holds when the buffer was never full before the last character. -/
structure LineKept (mem : Nat → UInt8) (input : List UInt8) : Prop where
  bIdx : (poshLine mem input).bIdx = (typed input).length
  few : (typed input).length ≤ 128
  stores : ∀ i ∈ (poshLine mem input).stores, i < 128
  left : ∀ i c, (typed input)[i]? = some c → (poshLine mem input).mem i = c
  clear : ∀ i, (typed input).length < i → (poshLine mem input).mem i = if i < 128 then 0 else mem i

theorem kept_nil : LineKept mem [] where
  bIdx := rfl
  few := Nat.zero_le _
  stores := nofun
  left := nofun
  clear := fun _ _ => rfl

/-- A backspace clears the cell behind the character it takes away. -/
theorem LineKept.backspace (kept : LineKept mem front) {str : List UInt8} {e : UInt8} (split : typed front = str ++ [e])
    (room : (typed front).length < 128) : LineKept mem (front ++ [8]) ∧
      (poshLine mem (front ++ [8])).mem (typed (front ++ [8])).length = e := by
  have length : (typed front).length = str.length + 1 := by rw [split,List.length_append]; rfl
  have after : typed (front ++ [8]) = str := by rw [typed_snoc,if_pos rfl,split,List.dropLast_concat]
  have step : poshLine mem (front ++ [8]) = ⟨Function.update (poshLine mem front).mem (str.length + 1) 0,
      str.length,(poshLine mem front).stores ++ [str.length + 1]⟩ := by
    rw [poshLine_snoc,PoshLine.type,if_pos rfl,kept.bIdx,length,if_pos (Nat.succ_pos _)]
    rfl
  refine ⟨?_,?_⟩
  · constructor
    · rw [step,after]
    · rw [after]
      omega
    · intro i member
      rw [step] at member
      rcases List.mem_append.mp member with member | member
      · exact kept.stores i member
      · obtain rfl := List.mem_singleton.mp member
        omega
    · intro i c found
      rw [after] at found
      have inside := (List.getElem?_eq_some_iff.mp found).1
      rw [step]
      refine (Function.update_of_ne (by omega) _ _).trans (kept.left i c ?_)
      rw [split,List.getElem?_append_left inside]
      exact found
    · intro i beyond
      rw [after] at beyond
      rw [step]
      by_cases same : i = str.length + 1
      · rw [same,if_pos (by omega)]
        exact Function.update_self ..
      · exact (Function.update_of_ne same _ _).trans (kept.clear i (by omega))
  · rw [step,after]
    refine (Function.update_of_ne (by omega) _ _).trans (kept.left _ e ?_)
    rw [split]
    exact List.getElem?_concat_length

theorem LineKept.nothing (kept : LineKept mem front) (none : typed front = []) :
    LineKept mem (front ++ [8]) ∧ typed (front ++ [8]) = [] := by
  have after : typed (front ++ [8]) = typed front := by rw [typed_snoc,if_pos rfl,none]; rfl
  have step : poshLine mem (front ++ [8]) = poshLine mem front := by
    rw [poshLine_snoc,PoshLine.type,if_pos rfl,kept.bIdx,none]
    rfl
  refine ⟨?_,after.trans none⟩
  exact {
    bIdx := by rw [step,after]; exact kept.bIdx
    few := by rw [after]; exact kept.few
    stores := by rw [step]; exact kept.stores
    left := by rw [step,after]; exact kept.left
    clear := by rw [step,after]; exact kept.clear }

theorem LineKept.store (kept : LineKept mem front) (plain : c ≠ 8) (room : (typed front).length < 128) :
    LineKept mem (front ++ [c]) ∧ (poshLine mem (front ++ [c])).mem (typed (front ++ [c])).length =
      if (typed (front ++ [c])).length < 128 then 0 else mem (typed (front ++ [c])).length := by
  have after : typed (front ++ [c]) = typed front ++ [c] := by rw [typed_snoc,if_neg plain]
  have length : (typed (front ++ [c])).length = (typed front).length + 1 := by
    rw [after,List.length_append]
    rfl
  have step : poshLine mem (front ++ [c]) = ⟨Function.update (poshLine mem front).mem (typed front).length c,
      (typed front).length + 1,(poshLine mem front).stores ++ [(typed front).length]⟩ := by
    rw [poshLine_snoc,PoshLine.type,if_neg plain,kept.bIdx,Nat.mod_eq_of_lt (by omega)]
  refine ⟨?_,?_⟩
  · constructor
    · rw [step,length]
    · omega
    · intro i member
      rw [step] at member
      rcases List.mem_append.mp member with member | member
      · exact kept.stores i member
      · obtain rfl := List.mem_singleton.mp member
        exact room
    · intro i d found
      rw [after] at found
      rw [step]
      by_cases last : i = (typed front).length
      · subst last
        rw [List.getElem?_concat_length] at found
        obtain rfl := Option.some.inj found
        exact Function.update_self ..
      · have inside := (List.getElem?_eq_some_iff.mp found).1
        rw [List.length_append,List.length_singleton] at inside
        rw [List.getElem?_append_left (by omega)] at found
        exact (Function.update_of_ne last _ _).trans (kept.left i d found)
    · intro i beyond
      rw [length] at beyond
      rw [step]
      exact (Function.update_of_ne (by omega) _ _).trans (kept.clear i (by omega))
  · rw [step,length]
    exact (Function.update_of_ne (by omega) _ _).trans (kept.clear _ (Nat.lt_succ_self _))

theorem LineKept.step (kept : LineKept mem front) (room : (typed front).length < 128) : LineKept mem (front ++ [c]) := by
  by_cases back : c = 8
  · subst back
    rcases List.eq_nil_or_concat' (typed front) with none | ⟨str,e,some⟩
    · exact (kept.nothing none).1
    · exact (kept.backspace some room).1
  · exact (kept.store back room).1

/-- A character that comes when the buffer is full is stored behind it. -/
theorem LineKept.full_store (kept : LineKept mem front) (full : 128 ≤ (typed front).length) (c : UInt8) :
    128 ∈ (poshLine mem (front ++ [c])).stores := by
  have at_end : (poshLine mem front).bIdx = 128 := by
    rw [kept.bIdx]
    exact Nat.le_antisymm kept.few full
  rw [poshLine_snoc,PoshLine.type,at_end]
  split
  · rw [if_pos (by decide)]
    exact List.mem_append_right _ (List.mem_singleton.mpr rfl)
  · exact List.mem_append_right _ (List.mem_singleton.mpr rfl)

theorem stores_mono (front : List UInt8) (c : UInt8) {i : Nat} (member : i ∈ (poshLine mem front).stores) :
    i ∈ (poshLine mem (front ++ [c])).stores := by
  rw [poshLine_snoc,PoshLine.type]
  split
  · split
    · exact List.mem_append_left _ member
    · exact member
  · exact List.mem_append_left _ member

/-- There was room before every character but the last one of a list. -/
def Roomy (input : List UInt8) : Prop :=
  ∀ front c rest, input = front ++ c :: rest → (typed front).length < 128

theorem roomy_snoc : Roomy (front ++ [c]) ↔ Roomy front ∧ (typed front).length < 128 := by
  constructor
  · intro room
    refine ⟨fun head d rest split => room head d (rest ++ [c]) ?_,room front c [] rfl⟩
    rw [split,List.append_assoc]
    rfl
  · rintro ⟨room,last⟩ head d rest split
    rcases List.eq_nil_or_concat' rest with rfl | ⟨rest,e,rfl⟩
    · obtain ⟨rfl,_⟩ := List.append_inj' split rfl
      exact last
    · rw [← List.cons_append,← List.append_assoc] at split
      exact room head d rest (List.append_inj' split rfl).1

theorem Roomy.kept (room : Roomy input) : LineKept mem input := by
  induction input using List.reverseRecOn with
  | nil => exact kept_nil
  | append_singleton front c ih =>
    obtain ⟨before,last⟩ := roomy_snoc.mp room
    exact (ih before).step last

theorem roomy_of_stores (inside : ∀ i ∈ (poshLine mem input).stores, i < 128) : Roomy input := by
  induction input using List.reverseRecOn with
  | nil =>
    intro head c rest split
    cases head <;> cases split
  | append_singleton front c ih =>
    have before := ih fun i member => inside i (stores_mono front c member)
    refine roomy_snoc.mpr ⟨before,Nat.lt_of_not_le fun full => ?_⟩
    exact absurd (inside 128 (before.kept.full_store full c)) (Nat.lt_irrefl _)

/-- The string ends behind what is typed. -/
theorem Roomy.ends (room : Roomy input) (nonempty : typed input ≠ []) :
    (poshLine mem input).mem (typed input).length = 0 ↔
      (∀ front, input = front ++ [8] → typed input = [] ∨ (typed front).getLast? = some 0) ∧
        ((typed input).length = 128 → mem 128 = 0) := by
  rcases List.eq_nil_or_concat' input with rfl | ⟨front,c,rfl⟩
  · exact absurd rfl nonempty
  obtain ⟨before,last⟩ := roomy_snoc.mp room
  have kept : LineKept mem front := before.kept
  by_cases back : c = 8
  · subst back
    rcases List.eq_nil_or_concat' (typed front) with none | ⟨str,e,split⟩
    · exact absurd (kept.nothing none).2 nonempty
    · rw [(kept.backspace split last).2]
      have short : (typed (front ++ [8])).length ≠ 128 := by
        rw [typed_snoc,if_pos rfl,List.length_dropLast]
        omega
      constructor
      · rintro rfl
        refine ⟨fun head same => .inr ?_,fun full => absurd full short⟩
        obtain ⟨rfl,_⟩ := List.append_inj' same rfl
        rw [split,List.getLast?_concat]
      · rintro ⟨ends,_⟩
        have zero := (ends front rfl).resolve_left nonempty
        rw [split,List.getLast?_concat] at zero
        exact Option.some.inj zero
  · rw [(kept.store back last).2]
    have bound := (show LineKept mem front from before.kept).few
    have few : (typed (front ++ [c])).length ≤ 128 := by
      rw [typed_snoc,if_neg back,List.length_append,List.length_singleton]
      omega
    constructor
    · intro zero
      refine ⟨fun head same => ?_,fun full => ?_⟩
      · obtain ⟨_,same⟩ := List.append_inj' same rfl
        exact absurd (List.singleton_inj.mp same) back
      · rwa [full] at zero
    · rintro ⟨_,full⟩
      split
      · rfl
      · have at_end : (typed (front ++ [c])).length = 128 := by omega
        rw [at_end]
        exact full at_end

/-- **The line editor of posh.** It stores to the buffer only, and the string tokenized is the
one typed, if and only if the input is editable. -/
theorem posh_edits_iff (mem : Nat → UInt8) (input : List UInt8) : Edits mem input ↔ Editable mem input := by
  constructor
  · rintro ⟨inside,result⟩
    have room := roomy_of_stores inside
    have kept : LineKept mem input := room.kept
    by_cases none : typed input = []
    · refine ⟨room,by simp [none],fun _ _ => .inl none,fun full => ?_⟩
      rw [none] at full
      cases full
    · have nonzero : (poshLine mem input).bIdx ≠ 0 := by
        rw [kept.bIdx]
        exact fun zero => none (List.eq_nil_of_length_eq_zero zero)
      rw [if_neg nonzero] at result
      obtain ⟨last,full⟩ := (room.ends none).mp result.2.2
      exact ⟨room,result.1,last,full⟩
  · rintro ⟨room,proper,last,full⟩
    have kept : LineKept mem input := Roomy.kept room
    refine ⟨kept.stores,?_⟩
    rw [kept.bIdx]
    split
    · next zero => exact List.eq_nil_of_length_eq_zero zero
    · next nonzero =>
      have nonempty : typed input ≠ [] := fun none => nonzero (by rw [none]; rfl)
      exact ⟨proper,kept.left,(Roomy.ends room nonempty).mpr ⟨last,full⟩⟩

/-- `ls`, an `x` too many and a backspace: `lsx` is tokenized. -/
theorem posh_keeps_erased : ¬∀ mem input, 10 ∉ input → Edits mem input := by
  intro always
  obtain ⟨_,result⟩ := always (fun _ => 0) [108,115,120,8] (by decide)
  exact absurd result.2.2 (by decide)

end Line

end Siegfried
