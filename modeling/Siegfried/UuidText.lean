import Mathlib.Data.UInt

/-! The hexadecimal digits that `draw_uuid` prints and `str_to_uuid` reads. -/
namespace Siegfried

/-- One round of `str_to_uuid`. -/
def strToUuidRound (str : Nat → UInt8) (ret : BitVec 128) (i : Nat) : BitVec 128 :=
  let c := (str i).toNat
  let ret := if 0x30 ≤ c ∧ c ≤ 0x39 then ret ||| .ofNat 128 (c - 0x30) else ret
  let ret := if 0x41 ≤ c ∧ c ≤ 0x46 then ret ||| .ofNat 128 (c - 0x41 + 0xa) else ret
  let ret := if 0x61 ≤ c ∧ c ≤ 0x66 then ret ||| .ofNat 128 (c - 0x61 + 0xa) else ret
  if i < 31 then ret <<< 4 else ret

def strToUuid (str : Nat → UInt8) : BitVec 128 :=
  let ret := (List.range 32).foldl (strToUuidRound str) 0
  let lower := ret &&& .ofNat 128 (2 ^ 64 - 1)
  ret >>> 64 ||| lower <<< 64

/-- `"0123456789ABCDEF"`. -/
def hexlookup : List UInt8 :=
  [0x30,0x31,0x32,0x33,0x34,0x35,0x36,0x37,0x38,0x39,0x41,0x42,0x43,0x44,0x45,0x46]

/-- The count of the shift in round `i` of `draw_uuid`. -/
def drawUuidCount (i : Nat) : Int := (15 - i) * 4

/-- Digit `i` of `draw_uuid`. `shr` is `>>`, whose value the language defines for the counts from
0 to 127 only. -/
def drawUuidDigit (shr : BitVec 128 → Int → BitVec 128) (u : BitVec 128) (i : Nat) : UInt8 :=
  hexlookup.getD (shr u (drawUuidCount i) &&& 0xf).toNat 0

/-- The characters appended to the text buffer. -/
def drawUuid (shr : BitVec 128 → Int → BitVec 128) (u : BitVec 128) : List UInt8 :=
  (List.range 32).map (drawUuidDigit shr u) ++ [0xa]

/-- `>>` as x86-64 shifts a pair of registers: the count modulo 128. -/
def shrd (u : BitVec 128) (n : Int) : BitVec 128 := u >>> (n % 128).toNat

def toLower (c : UInt8) : UInt8 := if 0x41 ≤ c ∧ c ≤ 0x46 then c + 0x20 else c

/-- `str` begins with the 32 digits, each in either case. -/
def Spells (str : Nat → UInt8) (digits : Nat → UInt8) : Prop :=
  ∀ i < 32, str i = digits i ∨ str i = toLower (digits i)

/-- The digits are read back, and no shift has a count outside 0 to 127. -/
structure UuidReadsBack (shr : BitVec 128 → Int → BitVec 128) (u : BitVec 128) : Prop where
  same : ∀ str, Spells str (fun i => (drawUuid shr u).getD i 0) → strToUuid str = u
  counts : ∀ i < 32, 0 ≤ drawUuidCount i ∧ drawUuidCount i ≤ 127

/-- The number that `str_to_uuid` takes a character for. -/
def hexDigit (c : UInt8) : Nat :=
  if 0x30 ≤ c.toNat ∧ c.toNat ≤ 0x39 then c.toNat - 0x30
  else if 0x41 ≤ c.toNat ∧ c.toNat ≤ 0x46 then c.toNat - 0x41 + 0xa
  else if 0x61 ≤ c.toNat ∧ c.toNat ≤ 0x66 then c.toNat - 0x61 + 0xa
  else 0

variable {str : Nat → UInt8} {shr : BitVec 128 → Int → BitVec 128} {u : BitVec 128} {i b k : Nat}

theorem hexDigit_lt (c : UInt8) : hexDigit c < 16 := by
  unfold hexDigit
  split
  · omega
  · split
    · omega
    · split
      · omega
      · decide

theorem strToUuidRound_eq (ret : BitVec 128) : strToUuidRound str ret i =
    if i < 31 then (ret ||| .ofNat 128 (hexDigit (str i))) <<< 4
    else ret ||| .ofNat 128 (hexDigit (str i)) := by
  unfold strToUuidRound hexDigit
  -- At most one of the three ranges has the character.
  by_cases digit : 0x30 ≤ (str i).toNat ∧ (str i).toNat ≤ 0x39
  · have upper : ¬(0x41 ≤ (str i).toNat ∧ (str i).toNat ≤ 0x46) := by omega
    have lower : ¬(0x61 ≤ (str i).toNat ∧ (str i).toNat ≤ 0x66) := by omega
    simp only [if_pos digit,if_neg upper,if_neg lower]
  · by_cases upper : 0x41 ≤ (str i).toNat ∧ (str i).toNat ≤ 0x46
    · have lower : ¬(0x61 ≤ (str i).toNat ∧ (str i).toNat ≤ 0x66) := by omega
      simp only [if_neg digit,if_pos upper,if_neg lower]
    · by_cases lower : 0x61 ≤ (str i).toNat ∧ (str i).toNat ≤ 0x66
      · simp only [if_neg digit,if_neg upper,if_pos lower]
      · simp only [if_neg digit,if_neg upper,if_neg lower,BitVec.or_zero]

theorem digit_bit (c : UInt8) : (BitVec.ofNat 128 (hexDigit c)).getLsbD b =
    (decide (b < 4) && (hexDigit c).testBit b) := by
  rw [BitVec.getLsbD_ofNat]
  by_cases low : b < 4
  · rw [decide_eq_true low,decide_eq_true (by omega : b < 128)]
  · have high : (hexDigit c).testBit b = false := by
      apply Nat.testBit_lt_two_pow
      calc hexDigit c < 2 ^ 4 := hexDigit_lt c
        _ ≤ 2 ^ b := Nat.pow_le_pow_right (by decide) (by omega)
    rw [high,Bool.and_false,Bool.and_false]

/-- The digits read so far stand behind four clear bits, the last one first. -/
theorem fold_bit (few : k ≤ 31) (b : Nat) :
    ((List.range k).foldl (strToUuidRound str) 0).getLsbD b =
      (decide (4 ≤ b ∧ b < 4 * (k + 1)) && (hexDigit (str (k - b / 4))).testBit (b % 4)) := by
  induction k generalizing b with
  | zero =>
    have none_ : ¬(4 ≤ b ∧ b < 4 * (0 + 1)) := by omega
    rw [decide_eq_false none_,Bool.false_and]
    exact BitVec.getLsbD_zero
  | succ k ih =>
    rw [List.range_succ,List.foldl_append,List.foldl_cons,List.foldl_nil,strToUuidRound_eq,
      if_pos (by omega),BitVec.getLsbD_shiftLeft,BitVec.getLsbD_or,ih (by omega),digit_bit]
    by_cases first : b < 4
    · have out : ¬(4 ≤ b ∧ b < 4 * (k + 1 + 1)) := by omega
      rw [decide_eq_true first,decide_eq_false out]
      simp
    · have here : (b - 4) % 4 = b % 4 := by omega
      by_cases last : b < 8
      · have one : b / 4 = 1 := by omega
        have rest : b - 4 = b % 4 := by omega
        have inside : 4 ≤ b ∧ b < 4 * (k + 1 + 1) := by omega
        have out : ¬(4 ≤ b - 4 ∧ b - 4 < 4 * (k + 1)) := by omega
        rw [decide_eq_false first,decide_eq_false out,decide_eq_true inside,one,
          decide_eq_true (by omega : b < 128),decide_eq_true (by omega : b - 4 < 4),rest]
        simp
      · have place : k - (b - 4) / 4 = k + 1 - b / 4 := by omega
        have range : (4 ≤ b - 4 ∧ b - 4 < 4 * (k + 1)) ↔ (4 ≤ b ∧ b < 4 * (k + 1 + 1)) := by omega
        rw [decide_eq_false first,place,here,decide_eq_decide.mpr range,
          decide_eq_false (by omega : ¬b - 4 < 4)]
        by_cases inside : b < 128
        · simp [inside]
        · have out : ¬(4 ≤ b ∧ b < 4 * (k + 1 + 1)) := by omega
          rw [decide_eq_false out]
          simp

/-- Before the halves are exchanged digit 0 is the highest. -/
theorem read_bit (small : b < 128) : ((List.range 32).foldl (strToUuidRound str) 0).getLsbD b =
    (hexDigit (str (31 - b / 4))).testBit (b % 4) := by
  rw [List.range_succ,List.foldl_append,List.foldl_cons,List.foldl_nil,strToUuidRound_eq,
    if_neg (by decide),BitVec.getLsbD_or,fold_bit (Nat.le_refl _),digit_bit]
  by_cases last : b < 4
  · have zero : b / 4 = 0 := by omega
    have rest : b % 4 = b := by omega
    rw [decide_eq_false (by omega : ¬(4 ≤ b ∧ b < 4 * (31 + 1))),decide_eq_true last,zero,rest]
    simp
  · rw [decide_eq_true (by omega : 4 ≤ b ∧ b < 4 * (31 + 1)),decide_eq_false last]
    simp

/-- The digit that has the bits from `4 * n` on. -/
def digitOf (n : Nat) : Nat := (47 - n) % 32

theorem strToUuid_bit (small : b < 128) :
    (strToUuid str).getLsbD b = (hexDigit (str (digitOf (b / 4)))).testBit (b % 4) := by
  rw [strToUuid,BitVec.getLsbD_or,BitVec.getLsbD_ushiftRight,BitVec.getLsbD_shiftLeft,BitVec.getLsbD_and,
    BitVec.getLsbD_ofNat,Nat.testBit_two_pow_sub_one,digitOf]
  by_cases low : b < 64
  · have place : 31 - (64 + b) / 4 = (47 - b / 4) % 32 := by omega
    have rest : (64 + b) % 4 = b % 4 := by omega
    rw [read_bit (by omega),place,rest,decide_eq_true low]
    simp
  · have place : 31 - (b - 64) / 4 = (47 - b / 4) % 32 := by omega
    have rest : (b - 64) % 4 = b % 4 := by omega
    have above : ((List.range 32).foldl (strToUuidRound str) 0).getLsbD (64 + b) = false :=
      BitVec.getLsbD_of_ge _ _ (by omega)
    rw [above,read_bit (by omega),place,rest,decide_eq_true small,decide_eq_false low,
      decide_eq_true (by omega : b - 64 < 128),decide_eq_true (by omega : b - 64 < 64)]
    simp

theorem hexDigit_hexlookup {n : Nat} (small : n < 16) :
    hexDigit (hexlookup.getD n 0) = n ∧ hexDigit (toLower (hexlookup.getD n 0)) = n := by
  have all : ∀ n : Fin 16, hexDigit (hexlookup.getD n 0) = n ∧ hexDigit (toLower (hexlookup.getD n 0)) = n := by
    decide
  exact all ⟨n,small⟩

theorem drawUuid_get (small : i < 32) : (drawUuid shr u).getD i 0 = drawUuidDigit shr u i := by
  rw [drawUuid,List.getD_eq_getElem?_getD,List.getElem?_append_left (by simpa using small)]
  simp [small]

theorem spelled (spells : Spells str fun i => (drawUuid shr u).getD i 0) (small : i < 32) :
    hexDigit (str i) = (shr u (drawUuidCount i) &&& 0xf).toNat := by
  have nibble : (shr u (drawUuidCount i) &&& 0xf).toNat < 16 := by
    rw [BitVec.toNat_and]
    exact Nat.lt_succ_of_le Nat.and_le_right
  obtain ⟨upper,lower⟩ := hexDigit_hexlookup nibble
  have letter := spells i small
  simp only [drawUuid_get small] at letter
  rcases letter with same | same
  · rw [same]
    exact upper
  · rw [same]
    exact lower

theorem drawUuidCount_mod (small : b < 128) : (drawUuidCount (digitOf (b / 4)) % 128).toNat = b / 4 * 4 := by
  rw [drawUuidCount,digitOf]
  omega

/-- The digits of `draw_uuid` spell its argument where a negative count shifts as its remainder. -/
theorem strToUuid_drawUuid (spells : Spells str fun i => (drawUuid shrd u).getD i 0) :
    strToUuid str = u := by
  apply BitVec.eq_of_getLsbD_eq
  intro b small
  have inside : digitOf (b / 4) < 32 := Nat.mod_lt _ (by decide)
  rw [strToUuid_bit small,spelled spells inside,BitVec.testBit_toNat,BitVec.getLsbD_and,shrd,
    drawUuidCount_mod small,BitVec.getLsbD_ushiftRight]
  have place : b / 4 * 4 + b % 4 = b := by omega
  have mask : (0xf : BitVec 128).getLsbD (b % 4) = true := by
    have all : ∀ r : Fin 4, (0xf : BitVec 128).getLsbD r = true := by decide
    exact all ⟨b % 4,Nat.mod_lt _ (by decide)⟩
  rw [place,mask,Bool.and_true]

theorem drawUuidCount_range (small : i < 32) :
    (0 ≤ drawUuidCount i ∧ drawUuidCount i ≤ 127) ↔ i < 16 := by
  rw [drawUuidCount]
  omega

/-- **UUIDs as text.** The second half of the digits is shifted by negative counts, for every
UUID; where such a count is taken modulo 128 the digits are read back all the same. -/
theorem uuid_counts_negative (shr : BitVec 128 → Int → BitVec 128) (u : BitVec 128) :
    ¬UuidReadsBack shr u ∧ (∀ i < 32, drawUuidCount i < 0 ↔ 16 ≤ i) ∧
      ∀ str, Spells str (fun i => (drawUuid shrd u).getD i 0) → strToUuid str = u := by
  refine ⟨fun back => ?_,fun i small => ?_,fun str spells => strToUuid_drawUuid spells⟩
  · have first := back.counts 16 (by decide)
    exact absurd ((drawUuidCount_range (by decide)).mp first) (by decide)
  · have range := drawUuidCount_range small
    have most : drawUuidCount i ≤ 127 := by
      rw [drawUuidCount]
      omega
    omega

/-- The seventeenth digit is shifted by -4. -/
theorem uuid_counts_zero : ¬∀ u, UuidReadsBack shrd u :=
  fun always => absurd ((always 0).counts 16 (by decide)) (by decide)

end Siegfried
