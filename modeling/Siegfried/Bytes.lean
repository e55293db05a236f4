import Mathlib.Logic.Function.Basic
import Mathlib.Algebra.Group.Int.Defs
import Mathlib.Algebra.Group.Nat.Defs

/-! Byte memories: little-endian numbers and copied ranges. -/
namespace Bytes

abbrev Store := Nat → UInt8

/-- The `n`-byte number at `a`. -/
def read (m : Store) (a : Nat) : Nat → Nat
  | 0 => 0
  | n+1 => (m a).toNat + 256 * read m (a + 1) n

def write (m : Store) (a : Nat) : Nat → Nat → Store
  | 0, _ => m
  | n+1, v => Function.update (write m (a + 1) n (v / 256)) a (.ofNat v)

/-- `m` with the bytes of `f` from `a` to `a + n`. -/
def splice (m : Store) (a n : Nat) (f : Store) : Store :=
  fun i => if a ≤ i ∧ i < a + n then f (i - a) else m i

/-- The `n` bytes from `a` on. -/
def bytes (m : Store) (a n : Nat) : List UInt8 := (List.range n).map fun i => m (a + i)

variable {m m' f : Store} {a b n k i v : Nat}

theorem read_lt (m : Store) (a n : Nat) : read m a n < 256 ^ n := by
  induction n generalizing a with
  | zero => exact Nat.one_pos
  | succ n ih =>
    have byte := (m a).toNat_lt
    have rest := ih (a + 1)
    rw [read,Nat.pow_succ]
    omega

theorem read_congr (same : ∀ i < n, m (a + i) = m' (b + i)) : read m a n = read m' b n := by
  induction n generalizing a b with
  | zero => rfl
  | succ n ih =>
    have first : m a = m' b := same 0 (Nat.succ_pos n)
    rw [read,read,first,ih]
    intro i small
    have next := same (i + 1) (Nat.succ_lt_succ small)
    rwa [Nat.add_right_comm a 1 i,Nat.add_right_comm b 1 i,Nat.add_assoc a,Nat.add_assoc b]

theorem read_shift (m : Store) (b a n : Nat) : read (fun i => m (b + i)) a n = read m (b + a) n :=
  read_congr fun i _ => by rw [Nat.add_assoc]

theorem read_zero (a n : Nat) : read (fun _ => 0) a n = 0 := by
  induction n generalizing a with
  | zero => rfl
  | succ n ih =>
    rw [read,ih]
    rfl

theorem bytes_congr (same : ∀ i < n, m (a + i) = m' (b + i)) : bytes m a n = bytes m' b n :=
  List.map_congr_left fun i member => same i (List.mem_range.mp member)

theorem length_bytes : (bytes m a n).length = n := by
  rw [bytes,List.length_map,List.length_range]

theorem write_apart (apart : i < a ∨ a + n ≤ i) : write m a n v i = m i := by
  induction n generalizing a v with
  | zero => rfl
  | succ n ih =>
    rw [write,Function.update_of_ne (by omega)]
    exact ih (by omega)

theorem read_write_apart (apart : b + k ≤ a ∨ a + n ≤ b) :
    read (write m a n v) b k = read m b k :=
  read_congr fun i small => write_apart (by omega)

theorem read_write (m : Store) (a n v : Nat) : read (write m a n v) a n = v % 256 ^ n := by
  induction n generalizing m a v with
  | zero => exact (Nat.mod_one v).symm
  | succ n ih =>
    have rest : read (write m a (n + 1) v) (a + 1) n = read (write m (a + 1) n (v / 256)) (a + 1) n := by
      apply read_congr
      intro i _
      rw [write,Function.update_of_ne (by omega)]
    rw [read,rest,ih,write,Function.update_self,Nat.pow_succ',Nat.mod_mul]
    simp

theorem splice_inside (small : i < n) : splice m a n f (a + i) = f i := by
  rw [splice,if_pos (by omega),Nat.add_sub_cancel_left]

theorem splice_start (small : i < n) : splice m 0 n f i = f i := by
  rw [splice,if_pos (by omega),Nat.sub_zero]

theorem splice_apart (apart : i < a ∨ a + n ≤ i) : splice m a n f i = m i := by
  rw [splice,if_neg (by omega)]

theorem splice_zero : splice m a 0 f = m := by
  funext i
  exact splice_apart (by omega)

theorem splice_congr {g : Store} (same : ∀ i < n, f i = g i) : splice m a n f = splice m a n g := by
  funext i
  by_cases inside : a ≤ i ∧ i < a + n
  · rw [splice,splice,if_pos inside,if_pos inside,same (i - a) (by omega)]
  · rw [splice,splice,if_neg inside,if_neg inside]

/-- One range right behind another. -/
theorem splice_splice {g : Store} : splice (splice m a n f) (a + n) k g =
    splice m a (n + k) fun i => if i < n then f i else g (i - n) := by
  funext i
  simp only [splice]
  by_cases first : i < a + n
  · by_cases lower : a ≤ i
    · rw [if_neg (by omega),if_pos (by omega),if_pos (by omega),if_pos (by omega)]
    · rw [if_neg (by omega),if_neg (by omega),if_neg (by omega)]
  · by_cases second : i < a + n + k
    · rw [if_pos (by omega),if_pos (by omega),if_neg (by omega),Nat.sub_sub]
    · rw [if_neg (by omega),if_neg (by omega),if_neg (by omega)]

theorem read_splice_apart (apart : b + k ≤ a ∨ a + n ≤ b) :
    read (splice m a n f) b k = read m b k :=
  read_congr fun i small => splice_apart (by omega)

theorem read_splice_inside (within : b + k ≤ n) : read (splice m a n f) (a + b) k = read f b k :=
  read_congr fun i small => by rw [Nat.add_assoc,splice_inside (by omega)]

theorem read_testBit (inside : b < 8 * n) : (read m a n).testBit b = (m (a + b / 8)).toNat.testBit (b % 8) := by
  induction n generalizing a b with
  | zero => exact absurd inside (Nat.not_lt_zero b)
  | succ n ih =>
    have byte : (m a).toNat < 2 ^ 8 := (m a).toNat_lt
    rw [read,Nat.add_comm,show (256 : Nat) = 2 ^ 8 from rfl,Nat.testBit_two_pow_mul_add _ byte]
    by_cases first : b < 8
    · rw [if_pos first,Nat.div_eq_of_lt first,Nat.mod_eq_of_lt first,Nat.add_zero]
    · have place : a + 1 + (b - 8) / 8 = a + b / 8 := by omega
      have bit : (b - 8) % 8 = b % 8 := by omega
      rw [if_neg first,ih (by omega),place,bit]

theorem write_read : write m a n (read f b n) = splice m a n fun i => f (b + i) := by
  induction n generalizing m a b with
  | zero => exact splice_zero.symm
  | succ n ih =>
    have byte := (f b).toNat_lt
    have rest : read f b (n + 1) / 256 = read f (b + 1) n := by
      rw [read]
      omega
    have low : UInt8.ofNat (read f b (n + 1)) = f b := by
      apply UInt8.toNat_inj.mp
      rw [UInt8.toNat_ofNat',read]
      omega
    rw [write,rest,low,ih]
    funext i
    by_cases first : i = a
    · rw [first,Function.update_self,splice,if_pos (by omega),Nat.sub_self,Nat.add_zero]
    · rw [Function.update_of_ne first]
      by_cases inside : a ≤ i ∧ i < a + (n + 1)
      · have place : b + 1 + (i - (a + 1)) = b + (i - a) := by omega
        rw [splice,splice,if_pos (by omega),if_pos inside,place]
      · rw [splice_apart (by omega),splice_apart (by omega)]

theorem update_eq_splice {c : UInt8} : Function.update m a c = splice m a 1 fun _ => c := by
  funext i
  by_cases here : i = a
  · rw [here,Function.update_self,splice,if_pos (by omega)]
  · rw [Function.update_of_ne here,splice_apart (by omega)]

end Bytes
