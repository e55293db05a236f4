import Siegfried.ExitMessage

/-! `mem_cpy` and `mem_set`, store by store. -/
namespace Siegfried.Klib
open Bytes

def u32 (mem : Store) (a : Nat) : BitVec 32 := .ofNat 32 (read mem a 4)

def setU32 (mem : Store) (a : Nat) (v : BitVec 32) : Store := write mem a 4 v.toNat

/-- The variables of `mem_cpy` and the memory. -/
structure Cpy where
  mem : Store
  d : Nat
  s : Nat
  n : Nat

namespace Cpy

/-- `*d++ = *s++`, so many times. -/
def bytes (c : Cpy) : Nat → Cpy
  | 0 => c
  | j + 1 =>
    let c := c.bytes j
    { c with mem := Function.update c.mem c.d (c.mem c.s), d := c.d + 1, s := c.s + 1 }

/-- So many words from `s` to `d`, and both pointers behind them. -/
def words (c : Cpy) : Nat → Cpy
  | 0 => c
  | j + 1 =>
    let c := c.words j
    { c with mem := setU32 c.mem c.d (u32 c.mem c.s), d := c.d + 4, s := c.s + 4 }

/-- The first loop. -/
def align (c : Cpy) : Cpy :=
  if c.s % 4 ≠ 0 ∧ c.n ≠ 0 then
    let b := c.bytes 1
    align { b with n := c.n - 1 }
  else c
termination_by c.n

/-- The loop over 16 bytes of the aligned case. -/
def copy16 (c : Cpy) : Cpy :=
  if 16 ≤ c.n then
    let b := c.words 4
    copy16 { b with n := c.n - 16 }
  else c
termination_by c.n

/-- The loops of the other cases, where `r` is 1, 2 or 3 bytes short of a word in front. -/
def shift16 (r : Nat) (w : BitVec 32) (c : Cpy) : Cpy :=
  if 16 + r ≤ c.n then
    let x := u32 c.mem (c.s + r)
    let mem := setU32 c.mem c.d (w >>> (32 - 8 * r) ||| x <<< (8 * r))
    let w := u32 mem (c.s + (r + 4))
    let mem := setU32 mem (c.d + 4) (x >>> (32 - 8 * r) ||| w <<< (8 * r))
    let x := u32 mem (c.s + (r + 8))
    let mem := setU32 mem (c.d + 8) (w >>> (32 - 8 * r) ||| x <<< (8 * r))
    let w := u32 mem (c.s + (r + 12))
    let mem := setU32 mem (c.d + 12) (x >>> (32 - 8 * r) ||| w <<< (8 * r))
    shift16 r w { mem := mem, d := c.d + 16, s := c.s + 16, n := c.n - 16 }
  else c
termination_by c.n

/-- A case of the switch. -/
def shifted (c : Cpy) (r : Nat) : Cpy :=
  let w := u32 c.mem c.s
  let b := c.bytes (4 - r)
  shift16 r w { b with n := c.n - (4 - r) }

end Cpy

/-- `n & 16`, `n & 8` and so on are bits of `n`. -/
def memCpy (mem : Store) (dest src n : Nat) : Store :=
  let c := Cpy.align ⟨mem,dest,src,n⟩
  if c.d % 4 = 0 then
    let c := c.copy16
    let c := if c.n.testBit 3 then c.words 2 else c
    let c := if c.n.testBit 2 then c.words 1 else c
    let c := if c.n.testBit 1 then c.bytes 2 else c
    (if c.n.testBit 0 then c.bytes 1 else c).mem
  else
    let c := if 32 ≤ c.n then c.shifted (c.d % 4) else c
    let c := if c.n.testBit 4 then c.bytes 16 else c
    let c := if c.n.testBit 3 then c.bytes 8 else c
    let c := if c.n.testBit 2 then c.bytes 4 else c
    let c := if c.n.testBit 1 then c.bytes 2 else c
    (if c.n.testBit 0 then c.bytes 1 else c).mem

/-- `s[i] = c` for each of these `i`. -/
def puts (mem : Store) (s : Nat) (c : UInt8) : List Nat → Store
  | [] => mem
  | i :: rest => puts (Function.update mem (s + i) c) s c rest

/-- `for (; n; n--, s++) *s = c`. -/
def fill (mem : Store) (s : Nat) (c : UInt8) : Nat → Store
  | 0 => mem
  | n + 1 => fill (Function.update mem s c) (s + 1) c n

/-- `c` is converted to a character at each store. -/
def memSet (mem : Store) (dest : Nat) (c : UInt8) (n : Nat) : Store :=
  if n = 0 then mem
  else
    let mem := puts mem dest c [0,n - 1]
    if n ≤ 2 then mem
    else
      let mem := puts mem dest c [1,2,n - 2,n - 3]
      if n ≤ 6 then mem
      else
        let mem := puts mem dest c [3,n - 4]
        if n ≤ 8 then mem
        else
          let k := (4 - dest % 4) % 4
          fill mem (dest + k) c ((n - k) / 4 * 4)

section Words
variable {f : Store} {a b r : Nat}

theorem u32_bit (small : b < 32) : (u32 f a).getLsbD b = (f (a + b / 8)).toNat.testBit (b % 8) := by
  rw [u32,BitVec.getLsbD_ofNat,decide_eq_true small,Bool.true_and]
  exact read_testBit small

/-- The upper bytes of one word in front of the lower bytes of the next. -/
theorem merge (most : r ≤ 4) :
    u32 f a >>> (32 - 8 * r) ||| u32 f (a + 4) <<< (8 * r) = u32 f (a + (4 - r)) := by
  apply BitVec.eq_of_getLsbD_eq
  intro b small
  rw [BitVec.getLsbD_or,BitVec.getLsbD_ushiftRight,BitVec.getLsbD_shiftLeft,u32_bit small]
  by_cases first : b < 8 * r
  · have inside : 32 - 8 * r + b < 32 := by omega
    have place : a + (32 - 8 * r + b) / 8 = a + (4 - r) + b / 8 := by omega
    have bit : (32 - 8 * r + b) % 8 = b % 8 := by omega
    rw [u32_bit inside,place,bit,decide_eq_true first]
    simp
  · have above : (u32 f a).getLsbD (32 - 8 * r + b) = false := BitVec.getLsbD_of_ge _ _ (by omega)
    have inside : b - 8 * r < 32 := by omega
    have place : a + 4 + (b - 8 * r) / 8 = a + (4 - r) + b / 8 := by omega
    have bit : (b - 8 * r) % 8 = b % 8 := by omega
    rw [above,u32_bit inside,place,bit,decide_eq_true small,decide_eq_false first]
    simp

theorem setU32_u32 (mem : Store) : setU32 mem a (u32 f b) = splice mem a 4 fun i => f (b + i) := by
  have small : read f b 4 < 2 ^ 32 := read_lt f b 4
  rw [setU32,u32,BitVec.toNat_ofNat,Nat.mod_eq_of_lt small,write_read]

end Words

section Copies
variable {m mem : Store} {d s n k j r : Nat} {c : Cpy} {w : BitVec 32}

/-- The first `k` bytes are copied. -/
structure Copied (m : Store) (d s n k : Nat) (c : Cpy) : Prop where
  mem : c.mem = Siegfried.memCpy m d s k
  d : c.d = d + k
  s : c.s = s + k
  few : k ≤ n

/-- Nothing that is still to be read is stored over. -/
def Forward (d s n : Nat) : Prop := d ≤ s ∨ s + n ≤ d

/-- What lies ahead is as it was. -/
theorem Forward.ahead (forward : Forward d s n) {i : Nat} (behind : k ≤ i) (inside : i < n) :
    Siegfried.memCpy m d s k (s + i) = m (s + i) := by
  rcases forward with below | above
  · exact splice_apart (by omega)
  · exact splice_apart (by omega)

theorem Forward.word (forward : Forward d s n) {i : Nat} (behind : k ≤ i) (inside : i + 4 ≤ n) :
    u32 (Siegfried.memCpy m d s k) (s + i) = u32 m (s + i) := by
  rw [u32,u32]
  congr 1
  apply read_congr
  intro b small
  rw [Nat.add_assoc]
  exact forward.ahead (by omega) (by omega)

theorem memCpy_more : splice (Siegfried.memCpy m d s k) (d + k) j (fun i => m (s + k + i)) =
    Siegfried.memCpy m d s (k + j) := by
  rw [Siegfried.memCpy,splice_splice]
  apply splice_congr
  intro i _
  by_cases first : i < k
  · rw [if_pos first]
  · have place : s + k + (i - k) = s + i := by omega
    rw [if_neg first,place]

theorem store_word : setU32 (Siegfried.memCpy m d s k) (d + k) (u32 m (s + k)) =
    Siegfried.memCpy m d s (k + 4) := by
  rw [setU32_u32,memCpy_more]

theorem Copied.bytes (copied : Copied m d s n k c) (forward : Forward d s n) (inside : k + j ≤ n) :
    Copied m d s n (k + j) (c.bytes j) := by
  induction j with
  | zero => exact copied
  | succ j ih =>
    obtain ⟨mem,dest,src,_⟩ := ih (Nat.le_of_succ_le inside)
    refine ⟨?_,?_,?_,inside⟩
    · have byte : Siegfried.memCpy m d s (k + j) (s + (k + j)) = m (s + (k + j)) :=
        forward.ahead (Nat.le_refl _) inside
      calc Function.update (c.bytes j).mem (c.bytes j).d ((c.bytes j).mem (c.bytes j).s)
          = splice (Siegfried.memCpy m d s (k + j)) (d + (k + j)) 1 fun _ => m (s + (k + j)) := by
            rw [mem,dest,src,byte,update_eq_splice]
        _ = splice (Siegfried.memCpy m d s (k + j)) (d + (k + j)) 1 fun i => m (s + (k + j) + i) := by
            apply splice_congr
            intro i zero
            rw [Nat.lt_one_iff.mp zero,Nat.add_zero]
        _ = Siegfried.memCpy m d s (k + (j + 1)) := memCpy_more
    · rw [Cpy.bytes,dest,Nat.add_assoc,Nat.add_assoc]
    · rw [Cpy.bytes,src,Nat.add_assoc,Nat.add_assoc]

theorem Copied.words (copied : Copied m d s n k c) (forward : Forward d s n) (inside : k + 4 * j ≤ n) :
    Copied m d s n (k + 4 * j) (c.words j) := by
  induction j with
  | zero => exact copied
  | succ j ih =>
    obtain ⟨mem,dest,src,_⟩ := ih (by omega)
    refine ⟨?_,?_,?_,inside⟩
    · calc setU32 (c.words j).mem (c.words j).d (u32 (c.words j).mem (c.words j).s)
          = setU32 (Siegfried.memCpy m d s (k + 4 * j)) (d + (k + 4 * j)) (u32 m (s + (k + 4 * j))) := by
            rw [mem,dest,src,forward.word (Nat.le_refl _) (by omega)]
        _ = Siegfried.memCpy m d s (k + 4 * (j + 1)) := by rw [store_word,Nat.mul_succ,Nat.add_assoc]
    · calc (c.words j).d + 4 = d + (k + 4 * j) + 4 := by rw [dest]
        _ = d + (k + 4 * (j + 1)) := by omega
    · calc (c.words j).s + 4 = s + (k + 4 * j) + 4 := by rw [src]
        _ = s + (k + 4 * (j + 1)) := by omega

@[simp] theorem Cpy.bytes_n : (c.bytes j).n = c.n := by
  induction j with
  | zero => rfl
  | succ j ih => exact ih

@[simp] theorem Cpy.words_n : (c.words j).n = c.n := by
  induction j with
  | zero => rfl
  | succ j ih => exact ih

/-- Some bytes are copied, and `n` counts the others. -/
def Partly (m : Store) (d s n : Nat) (c : Cpy) : Prop := ∃ k, Copied m d s n k c ∧ c.n + k = n

theorem Partly.align (forward : Forward d s n) (partly : Partly m d s n c) : Partly m d s n c.align := by
  induction c using Cpy.align.induct with
  | case1 c more b ih =>
    obtain ⟨k,copied,left⟩ := partly
    rw [Cpy.align,if_pos more]
    obtain ⟨mem,dest,src,few⟩ := copied.bytes (j := 1) forward (by omega)
    exact ih ⟨k + 1,⟨mem,dest,src,few⟩,by dsimp only; omega⟩
  | case2 c done =>
    rw [Cpy.align,if_neg done]
    exact partly

theorem Partly.copy16 (forward : Forward d s n) (partly : Partly m d s n c) :
    Partly m d s n c.copy16 ∧ c.copy16.n < 16 := by
  induction c using Cpy.copy16.induct with
  | case1 c more b ih =>
    obtain ⟨k,copied,left⟩ := partly
    rw [Cpy.copy16,if_pos more]
    obtain ⟨mem,dest,src,few⟩ := copied.words (j := 4) forward (by omega)
    exact ih ⟨k + 4 * 4,⟨mem,dest,src,few⟩,by dsimp only; omega⟩
  | case2 c done =>
    rw [Cpy.copy16,if_neg done]
    exact ⟨partly,Nat.lt_of_not_le done⟩

/-- A word in two parts, the first of which was read before. -/
theorem store_merged {p : Nat} (most : r ≤ 4) (behind : k = p + (4 - r)) :
    setU32 (Siegfried.memCpy m d s k) (d + k)
      (u32 m (s + p) >>> (32 - 8 * r) ||| u32 m (s + (p + 4)) <<< (8 * r)) = Siegfried.memCpy m d s (k + 4) := by
  rw [← Nat.add_assoc,merge most,Nat.add_assoc,← behind,store_word]

theorem Partly.shift16 (forward : Forward d s n) (most : r ≤ 3) {p left : Nat} (behind : k = p + (4 - r))
    (counts : left + k = n) :
    Partly m d s n (Cpy.shift16 r (u32 m (s + p)) ⟨Siegfried.memCpy m d s k,d + k,s + k,left⟩) ∧
      (Cpy.shift16 r (u32 m (s + p)) ⟨Siegfried.memCpy m d s k,d + k,s + k,left⟩).n < 16 + r := by
  induction left using Nat.strongRecOn generalizing k p with
  | ind left ih =>
    rw [Cpy.shift16]
    by_cases more : 16 + r ≤ left
    · have word (j i q : Nat) (far : j ≤ k + i) (near : k + (i + 4) ≤ n) (place : k + i = q) :
          u32 (Siegfried.memCpy m d s j) (s + k + i) = u32 m (s + q) := by
        rw [Nat.add_assoc,place]
        exact forward.word (place ▸ far) (by omega)
      have first := word k r (p + 4) (by omega) (by omega) (by omega)
      have second := word (k + 4) (r + 4) (p + 4 + 4) (by omega) (by omega) (by omega)
      have third := word (k + 4 + 4) (r + 8) (p + 4 + 4 + 4) (by omega) (by omega) (by omega)
      have fourth := word (k + 4 + 4 + 4) (r + 12) (p + 4 + 4 + 4 + 4) (by omega) (by omega) (by omega)
      have dest (i : Nat) : d + k + i = d + (k + i) := Nat.add_assoc ..
      have store (j q i : Nat) (same : d + k + i = d + j) (behind : j = q + (4 - r)) :
          setU32 (Siegfried.memCpy m d s j) (d + k + i)
            (u32 m (s + q) >>> (32 - 8 * r) ||| u32 m (s + (q + 4)) <<< (8 * r)) =
              Siegfried.memCpy m d s (j + 4) := by
        rw [same]
        exact store_merged (by omega) behind
      have store1 := store k p 0 rfl behind
      have store2 := store (k + 4) (p + 4) 4 (by omega) (by omega)
      have store3 := store (k + 4 + 4) (p + 4 + 4) 8 (by omega) (by omega)
      have store4 := store (k + 4 + 4 + 4) (p + 4 + 4 + 4) 12 (by omega) (by omega)
      rw [if_pos more]
      dsimp only
      rw [first,show d + k = d + k + 0 from rfl,store1]
      rw [second,store2,third,store3,fourth,store4]
      exact ih (left - 16) (by omega) (by omega) (by omega)
    · rw [if_neg more]
      exact ⟨⟨k,⟨rfl,rfl,rfl,by omega⟩,counts⟩,Nat.lt_of_not_le more⟩

theorem Partly.shifted (forward : Forward d s n) (partly : Partly m d s n c) (most : r ≤ 3) (room : 32 ≤ c.n) :
    Partly m d s n (c.shifted r) ∧ (c.shifted r).n < 32 := by
  obtain ⟨k,copied,counts⟩ := partly
  have first : u32 c.mem c.s = u32 m (s + k) := by
    rw [copied.mem,copied.s]
    exact forward.word (Nat.le_refl k) (by omega)
  obtain ⟨mem,dest,src,_⟩ := copied.bytes (j := 4 - r) forward (by omega)
  rw [Cpy.shifted,first,mem,dest,src]
  have counts' : c.n - (4 - r) + (k + (4 - r)) = n := by omega
  obtain ⟨partly,rest⟩ := Partly.shift16 (m := m) forward most rfl counts'
  exact ⟨partly,by omega⟩

/-- One of the conditional copies at the end: bit `i` of `n` says whether `2 ^ i` bytes are left. -/
theorem Copied.bit (copied : Copied m d s n k c) {after : Cpy} {i : Nat}
    (more : k + 2 ^ i ≤ n → Copied m d s n (k + 2 ^ i) after) (same : after.n = c.n)
    (counts : k + c.n % 2 ^ (i + 1) = n) :
    ∃ k', Copied m d s n k' (if c.n.testBit i then after else c) ∧
      (if c.n.testBit i then after else c).n = c.n ∧ k' + c.n % 2 ^ i = n := by
  have split : c.n % 2 ^ (i + 1) = (if c.n.testBit i then 2 ^ i else 0) + c.n % 2 ^ i := by
    rw [Nat.mod_pow_succ,Nat.testBit_eq_decide_div_mod_eq,Nat.add_comm]
    rcases Nat.mod_two_eq_zero_or_one (c.n / 2 ^ i) with even | odd
    · simp [even]
    · simp [odd]
  by_cases bit : c.n.testBit i
  · rw [if_pos bit] at split
    rw [if_pos bit]
    exact ⟨k + 2 ^ i,more (by omega),same,by omega⟩
  · rw [if_neg bit] at split
    rw [if_neg bit]
    exact ⟨k,copied,rfl,by omega⟩

theorem Copied.bytesBit (copied : Copied m d s n k c) (forward : Forward d s n) {i : Nat}
    (counts : k + c.n % 2 ^ (i + 1) = n) :
    ∃ k', Copied m d s n k' (if c.n.testBit i then c.bytes (2 ^ i) else c) ∧
      (if c.n.testBit i then c.bytes (2 ^ i) else c).n = c.n ∧ k' + c.n % 2 ^ i = n :=
  copied.bit (copied.bytes forward) Cpy.bytes_n counts

theorem Copied.wordsBit (copied : Copied m d s n k c) (forward : Forward d s n) {i : Nat}
    (counts : k + c.n % 2 ^ (i + 2 + 1) = n) :
    ∃ k', Copied m d s n k' (if c.n.testBit (i + 2) then c.words (2 ^ i) else c) ∧
      (if c.n.testBit (i + 2) then c.words (2 ^ i) else c).n = c.n ∧ k' + c.n % 2 ^ (i + 2) = n := by
  have size : 4 * 2 ^ i = 2 ^ (i + 2) := by rw [Nat.pow_add,Nat.mul_comm]
  refine copied.bit (fun inside => ?_) Cpy.words_n counts
  rw [← size] at inside ⊢
  exact copied.words forward inside

theorem Copied.whole (copied : Copied m d s n k c) {x : Nat} (counts : k + x % 2 ^ 0 = n) :
    c.mem = Siegfried.memCpy m d s n := by
  rw [Nat.pow_zero,Nat.mod_one,Nat.add_zero] at counts
  rw [copied.mem,counts]

/-- Behind the switch. -/
theorem Partly.tail (forward : Forward d s n) (partly : Partly m d s n c) (few : c.n < 32) :
    (let c := if c.n.testBit 4 then c.bytes 16 else c
      let c := if c.n.testBit 3 then c.bytes 8 else c
      let c := if c.n.testBit 2 then c.bytes 4 else c
      let c := if c.n.testBit 1 then c.bytes 2 else c
      (if c.n.testBit 0 then c.bytes 1 else c).mem) = Siegfried.memCpy m d s n := by
  obtain ⟨k,copied,counts⟩ := partly
  have all : c.n % 2 ^ (4 + 1) = c.n := Nat.mod_eq_of_lt few
  have start : k + c.n % 2 ^ (4 + 1) = n := by omega
  obtain ⟨k4,copied4,same4,left4⟩ := copied.bytesBit forward start
  rw [← same4] at left4
  obtain ⟨k3,copied3,same3,left3⟩ := copied4.bytesBit forward left4
  rw [← same3] at left3
  obtain ⟨k2,copied2,same2,left2⟩ := copied3.bytesBit forward left3
  rw [← same2] at left2
  obtain ⟨k1,copied1,same1,left1⟩ := copied2.bytesBit forward left2
  rw [← same1] at left1
  obtain ⟨k0,copied0,_,left0⟩ := copied1.bytesBit forward left1
  exact copied0.whole left0

/-- At the end of the aligned case. -/
theorem Partly.wordTail (forward : Forward d s n) (partly : Partly m d s n c) (few : c.n < 16) :
    (let c := if c.n.testBit 3 then c.words 2 else c
      let c := if c.n.testBit 2 then c.words 1 else c
      let c := if c.n.testBit 1 then c.bytes 2 else c
      (if c.n.testBit 0 then c.bytes 1 else c).mem) = Siegfried.memCpy m d s n := by
  obtain ⟨k,copied,counts⟩ := partly
  have all : c.n % 2 ^ (1 + 2 + 1) = c.n := Nat.mod_eq_of_lt few
  have start : k + c.n % 2 ^ (1 + 2 + 1) = n := by omega
  obtain ⟨k3,copied3,same3,left3⟩ := copied.wordsBit forward start
  rw [← same3] at left3
  obtain ⟨k2,copied2,same2,left2⟩ := copied3.wordsBit (i := 0) forward left3
  rw [← same2] at left2
  obtain ⟨k1,copied1,same1,left1⟩ := copied2.bytesBit forward left2
  rw [← same1] at left1
  obtain ⟨k0,copied0,_,left0⟩ := copied1.bytesBit forward left1
  exact copied0.whole left0

/-- `mem_cpy` copies what was there before the call, also to a range that overlaps the source
from below. -/
theorem memCpy_eq (m : Store) (forward : Forward d s n) : memCpy m d s n = Siegfried.memCpy m d s n := by
  have start : Partly m d s n ⟨m,d,s,n⟩ := ⟨0,⟨splice_zero.symm,rfl,rfl,Nat.zero_le n⟩,rfl⟩
  have aligned := start.align forward
  rw [memCpy]
  by_cases both : (Cpy.align ⟨m,d,s,n⟩).d % 4 = 0
  · obtain ⟨partly,few⟩ := aligned.copy16 forward
    simp only [if_pos both]
    exact partly.wordTail forward few
  · simp only [if_neg both]
    by_cases many : 32 ≤ (Cpy.align ⟨m,d,s,n⟩).n
    · have most : (Cpy.align ⟨m,d,s,n⟩).d % 4 ≤ 3 := by omega
      obtain ⟨partly,few⟩ := aligned.shifted forward most many
      simp only [if_pos many]
      exact partly.tail forward few
    · simp only [if_neg many]
      exact aligned.tail forward (Nat.lt_of_not_le many)

end Copies

section Sets
variable {mem : Store} {s a n : Nat} {c : UInt8}

theorem puts_eq (offsets : List Nat) : puts mem s c offsets a = if ∃ i ∈ offsets, a = s + i then c else mem a := by
  induction offsets generalizing mem with
  | nil => simp [puts]
  | cons i rest ih =>
    rw [puts,ih]
    by_cases later : ∃ j ∈ rest, a = s + j
    · have all : ∃ j ∈ i :: rest, a = s + j := by
        obtain ⟨j,member,same⟩ := later
        exact ⟨j,List.mem_cons_of_mem i member,same⟩
      rw [if_pos later,if_pos all]
    · by_cases here : a = s + i
      · rw [if_neg later,if_pos ⟨i,List.mem_cons_self ..,here⟩,here,Function.update_self]
      · have none_ : ¬∃ j ∈ i :: rest, a = s + j := by
          rintro ⟨j,member,same⟩
          rcases List.mem_cons.mp member with rfl | member
          · exact here same
          · exact later ⟨j,member,same⟩
        rw [if_neg later,if_neg none_,Function.update_of_ne here]

theorem puts_append (first then_ : List Nat) :
    puts mem s c (first ++ then_) = puts (puts mem s c first) s c then_ := by
  induction first generalizing mem with
  | nil => rfl
  | cons i first ih => exact ih

theorem fill_eq : fill mem s c n = splice mem s n fun _ => c := by
  induction n generalizing mem s with
  | zero => exact splice_zero.symm
  | succ n ih =>
    rw [fill,ih,update_eq_splice,splice_splice,Nat.add_comm 1 n]
    exact splice_congr fun i _ => ite_self c

theorem memSet_eq : memSet mem s c n = Siegfried.memSet mem s c n := by
  funext a
  rw [Siegfried.memSet,memSet,splice]
  by_cases zero : n = 0
  · rw [if_pos zero,if_neg (by omega)]
  · rw [if_neg zero]
    dsimp only
    by_cases two : n ≤ 2
    · have ends : (∃ i ∈ [0,n - 1], a = s + i) ↔ s ≤ a ∧ a < s + n := by
        simp only [List.mem_cons,List.not_mem_nil,or_false,exists_eq_or_imp,exists_eq_left]
        omega
      rw [if_pos two,puts_eq,if_congr ends rfl rfl]
    rw [if_neg two,← puts_append]
    by_cases six : n ≤ 6
    · have ends : (∃ i ∈ [0,n - 1] ++ [1,2,n - 2,n - 3], a = s + i) ↔ s ≤ a ∧ a < s + n := by
        simp only [List.cons_append,List.nil_append,List.mem_cons,List.not_mem_nil,or_false,exists_eq_or_imp,
          exists_eq_left]
        omega
      rw [if_pos six,puts_eq,if_congr ends rfl rfl]
    rw [if_neg six,← puts_append]
    by_cases eight : n ≤ 8
    · have ends : (∃ i ∈ [0,n - 1] ++ [1,2,n - 2,n - 3] ++ [3,n - 4], a = s + i) ↔ s ≤ a ∧ a < s + n := by
        simp only [List.cons_append,List.nil_append,List.mem_cons,List.not_mem_nil,or_false,exists_eq_or_imp,
          exists_eq_left]
        omega
      rw [if_pos eight,puts_eq,if_congr ends rfl rfl]
    -- The loop leaves at most three bytes out at either end.
    have ends : (s + (4 - s % 4) % 4 ≤ a ∧ a < s + (4 - s % 4) % 4 + (n - (4 - s % 4) % 4) / 4 * 4) ∨
        (∃ i ∈ [0,n - 1] ++ [1,2,n - 2,n - 3] ++ [3,n - 4], a = s + i) ↔ s ≤ a ∧ a < s + n := by
      simp only [List.cons_append,List.nil_append,List.mem_cons,List.not_mem_nil,or_false,exists_eq_or_imp,
        exists_eq_left]
      omega
    rw [if_neg eight,fill_eq,splice,puts_eq,← ite_or,if_congr ends rfl rfl]

end Sets
end Siegfried.Klib
