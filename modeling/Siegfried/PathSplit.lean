import Siegfried.SyscallDisks
import Mathlib.Data.List.TakeWhile

/-! `sys_basename` and `sys_dirname` of `syscall.c`. A pointer into a path is its offset; a
read behind the terminator ends the run. -/
namespace Siegfried

namespace Reads

/-- The character at an offset of a string, its terminator included. -/
def pathChar (str : List UInt8) (i : Nat) : Option UInt8 := (str ++ [0])[i]?

/-- `while(*(end++)); --end;` from `end = i` on. Every turn reads a character further on, so
that one turn more than the string is long ends it. -/
def pathEnd (str : List UInt8) : Nat → Nat → Option Nat
  | 0, _ => none
  | n + 1, i => do
    let c ← pathChar str i
    if c = 0 then some i else pathEnd str n (i + 1)

/-- `while(end > path && *end != '/') --end;`. -/
def scanSlash (str : List UInt8) : Nat → Option Nat
  | 0 => some 0
  | i + 1 => do
    let c ← pathChar str (i + 1)
    if c = 47 then some (i + 1) else scanSlash str i

/-- `sys_basename`. -/
def sysBasename (str : List UInt8) : Option Nat := do
  let i ← pathEnd str (str.length + 1) 0
  let i ← scanSlash str i
  some (i + 1)

/-- `sys_dirname`, with the bytes it copies into `buf`. -/
def sysDirname (str : List UInt8) : Option (Nat × List UInt8) := do
  let i ← pathEnd str (str.length + 1) 0
  let i ← scanSlash str i
  let copied ← (List.range (i + 1)).mapM (pathChar str)
  some (i + 1,copied)

end Reads

open Reads (pathChar pathEnd scanSlash sysBasename)

/-- The two functions part a path behind its last slash: both return the same place, in the
string or at its terminator, with no slash from there on, and what is copied is the string up
to there, nothing or with a slash at its end. -/
def SplitsPath (str : List UInt8) : Prop :=
  ∃ i copied, sysBasename str = some i ∧ Reads.sysDirname str = some (i,copied) ∧ i ≤ str.length ∧
    47 ∉ str.drop i ∧ copied = str.take i ∧ (copied = [] ∨ copied.getLast? = some 47)

section Scan
variable {str pre rest : List UInt8}

/-- A string with a slash is parted at the last one. -/
theorem last_slash (slash : 47 ∈ str) : ∃ pre rest, str = pre ++ 47 :: rest ∧ 47 ∉ rest := by
  obtain ⟨front,back,split,last⟩ := List.eq_append_cons_of_mem (List.mem_reverse.mpr slash)
  refine ⟨back.reverse,front.reverse,?_,fun member => last (List.mem_reverse.mp member)⟩
  rw [← List.reverse_reverse str,split,List.reverse_append,List.reverse_cons,List.append_assoc]
  rfl

theorem pathChar_inside {i : Nat} (inside : i < str.length) : pathChar str i = some str[i] := by
  rw [pathChar,List.getElem?_append_left inside,List.getElem?_eq_getElem inside]

theorem pathChar_end : pathChar str str.length = some 0 := List.getElem?_concat_length

theorem pathEnd_string (proper : 0 ∉ str) (n i : Nat) (here : i + n = str.length) :
    pathEnd str (n + 1) i = some str.length := by
  induction n generalizing i with
  | zero =>
    rw [Nat.add_zero] at here
    rw [pathEnd,here,pathChar_end]
    rfl
  | succ n ih =>
    have inside : i < str.length := by omega
    have nonzero : str[i] ≠ 0 := fun zero => proper (zero ▸ List.getElem_mem inside)
    rw [pathEnd,pathChar_inside inside]
    simp only [Option.bind_eq_bind,Option.bind_some,if_neg nonzero]
    exact ih (i + 1) (by omega)

/-- The scan goes back over characters that are no slash. -/
theorem scanSlash_back {i n : Nat} (none : ∀ j c, i < j → j ≤ i + n → pathChar str j = some c → c ≠ 47)
    (bound : i + n ≤ str.length) : scanSlash str (i + n) = scanSlash str i := by
  induction n with
  | zero => rfl
  | succ n ih =>
    have inside : i + n + 1 < (str ++ [0]).length := by
      rw [List.length_append]
      exact Nat.lt_succ_of_le bound
    obtain ⟨c,found⟩ : ∃ c, pathChar str (i + n + 1) = some c := ⟨_,List.getElem?_eq_getElem inside⟩
    have other := none (i + n + 1) c (by omega) (Nat.le_refl _) found
    rw [← Nat.add_assoc,scanSlash,found]
    simp only [Option.bind_eq_bind,Option.bind_some,if_neg other]
    exact ih (fun j d lower upper => none j d lower (by omega)) (by omega)

/-- What the scan finds in a string with a slash. -/
theorem scanSlash_last (split : str = pre ++ 47 :: rest) (last : 47 ∉ rest) :
    scanSlash str str.length = some pre.length := by
  have length : str.length = pre.length + (rest.length + 1) := by
    rw [split,List.length_append,List.length_cons]
  have back : scanSlash str (pre.length + (rest.length + 1)) = scanSlash str pre.length := by
    refine scanSlash_back (fun j c lower upper found same => ?_) (Nat.le_of_eq length.symm)
    subst same
    rw [pathChar] at found
    have member : 47 ∈ (str ++ [0]).drop (pre.length + 1) := by
      refine List.mem_of_getElem? (i := j - (pre.length + 1)) ?_
      rw [List.getElem?_drop,Nat.add_sub_cancel' lower]
      exact found
    have behind : (str ++ [0]).drop (pre.length + 1) = rest ++ [0] := by
      rw [split,List.append_assoc,List.drop_append,List.drop_eq_nil_of_le (Nat.le_succ _),
        Nat.add_sub_cancel_left]
      rfl
    rw [behind,List.mem_append] at member
    rcases member with member | member
    · exact last member
    · exact absurd (List.mem_singleton.mp member) (by decide)
  rw [length,back]
  cases h : pre.length with
  | zero => rfl
  | succ n =>
    have found : pathChar str (n + 1) = some 47 := by
      rw [← h,pathChar,split,List.append_assoc,List.getElem?_append_right (Nat.le_refl _),Nat.sub_self]
      rfl
    rw [scanSlash,found]
    rfl

theorem scanSlash_none (none : 47 ∉ str) : scanSlash str str.length = some 0 := by
  have back : scanSlash str (0 + str.length) = scanSlash str 0 := by
    refine scanSlash_back (fun j c _ upper found same => ?_) (Nat.le_of_eq (Nat.zero_add _))
    subst same
    have member : 47 ∈ str ++ [0] := List.mem_of_getElem? found
    rcases List.mem_append.mp member with member | member
    · exact none member
    · exact absurd (List.mem_singleton.mp member) (by decide)
  rwa [Nat.zero_add] at back

theorem pathChars (n : Nat) (inside : n ≤ str.length) :
    (List.range n).mapM (pathChar str) = some (str.take n) := by
  induction n with
  | zero => rfl
  | succ n ih =>
    rw [List.range_succ,List.mapM_append,ih (by omega),List.mapM_cons,pathChar_inside inside]
    simp only [List.mapM_nil,Option.pure_def,Option.bind_eq_bind,Option.bind_some]
    rw [List.take_succ_eq_append_getElem inside]

/-- Where the scan stops, both functions return the place behind it. -/
theorem split_at (proper : 0 ∉ str) {i : Nat} (found : scanSlash str str.length = some i) :
    sysBasename str = some (i + 1) ∧
      Reads.sysDirname str = ((List.range (i + 1)).mapM (pathChar str)).map fun copied => (i + 1,copied) := by
  have finish := pathEnd_string proper str.length 0 (Nat.zero_add _)
  constructor
  · rw [sysBasename,finish]
    simp only [Option.bind_eq_bind,Option.bind_some,found]
  · rw [Reads.sysDirname,finish]
    simp only [Option.bind_eq_bind,Option.bind_some,found]
    exact (Option.map_eq_bind ..).symm

theorem take_front (split : str = pre ++ 47 :: rest) : str.take (pre.length + 1) = pre ++ [47] := by
  rw [split,List.take_append,List.take_of_length_le (Nat.le_succ _),Nat.add_sub_cancel_left]
  rfl

/-- What is copied of a string that is not empty. -/
theorem reads_sysDirname (proper : 0 ∉ str) (nonempty : str ≠ []) :
    (Reads.sysDirname str).map Prod.snd = some (sysDirname str) := by
  by_cases slash : 47 ∈ str
  · obtain ⟨pre,rest,split,last⟩ := last_slash slash
    have bound : pre.length + 1 ≤ str.length := by
      rw [split,List.length_append,List.length_cons]
      omega
    have back : str.reverse.takeWhile (· ≠ 47) = rest.reverse := by
      have stop (c : UInt8) (hc : c ∈ rest.reverse) : decide (c ≠ 47) = true :=
        decide_eq_true (ne_of_mem_of_not_mem (List.mem_reverse.mp hc) last)
      rw [split,List.reverse_append,List.reverse_cons,List.append_assoc,List.takeWhile_append_of_pos stop]
      simp
    have count : str.length - rest.reverse.length = pre.length + 1 := by
      rw [split,List.length_append,List.length_cons,List.length_reverse]
      omega
    rw [(split_at proper (scanSlash_last split last)).2,pathChars _ bound,sysDirname,back,count,if_pos slash,
      List.append_nil]
    rfl
  · have all : str.reverse.takeWhile (· ≠ 47) = str.reverse :=
      List.takeWhile_eq_self_iff.mpr fun c hc =>
        decide_eq_true (ne_of_mem_of_not_mem (List.mem_reverse.mp hc) slash)
    rw [(split_at proper (scanSlash_none slash)).2,pathChars _ (List.length_pos_of_ne_nil nonempty),sysDirname,
      all,List.length_reverse,Nat.sub_self,if_neg slash]
    rfl

/-- **sys_basename, sys_dirname.** They part a path behind its last slash if and only if it has
one. -/
theorem splits_path_iff (str : List UInt8) (proper : 0 ∉ str) : SplitsPath str ↔ 47 ∈ str := by
  constructor
  · rintro ⟨i,copied,base,_,bound,_,same,dir⟩
    by_contra none
    obtain ⟨first,_⟩ := split_at proper (scanSlash_none none)
    obtain rfl : 0 + 1 = i := Option.some.inj (first.symm.trans base)
    rw [same] at dir
    rcases dir with empty | slash
    · have length := congrArg List.length empty
      rw [List.length_take,List.length_nil] at length
      omega
    · exact none (List.mem_of_mem_take (List.mem_of_getLast? slash))
  · intro slash
    obtain ⟨pre,rest,split,last⟩ := last_slash slash
    obtain ⟨base,dir⟩ := split_at proper (scanSlash_last split last)
    have bound : pre.length + 1 ≤ str.length := by
      rw [split,List.length_append,List.length_cons]
      omega
    rw [pathChars _ bound] at dir
    refine ⟨_,_,base,dir,bound,?_,rfl,.inr ?_⟩
    · rw [split,List.drop_append,List.drop_eq_nil_of_le (Nat.le_succ _),Nat.add_sub_cancel_left]
      exact last
    · rw [take_front split]
      exact List.getLast?_concat

/-- `/sbin/sfinit`. -/
theorem splits_path_sfinit : SplitsPath [47,115,98,105,110,47,115,102,105,110,105,116] :=
  (splits_path_iff _ (by decide)).mpr (by decide)

/-- A name without a slash: its first character is taken for the directory. -/
theorem splits_path_plain : ¬∀ str : List UInt8, 0 ∉ str → SplitsPath str := by
  intro always
  obtain ⟨i,copied,base,_,_,_,same,dir⟩ := always [115,104] (by decide)
  obtain rfl : 1 = i := Option.some.inj base
  subst same
  rcases dir with empty | slash
  · cases empty
  · exact absurd slash (by decide)

end Scan

end Siegfried
