import Siegfried.Nvme
import Siegfried.FileRead
import Mathlib.Data.List.Range

/-! How the bytes of a command travel: the bounce pages of `nvme_send_io_cmd`, and the
controller that fills or empties them (`nvme.c`). -/
namespace Siegfried

/-- The pages of a command: `prp1`, `prp2`, and the ones that `prp2_vm` points to. -/
inductive Bounce where
  | prp1 | prp2 | page (i : Nat)
  deriving DecidableEq

abbrev Pages := Bounce → RawStore

/-- `mem_cpy` between blocks. -/
def rawCpy (dest : RawStore) (pos num : Nat) (src : RawStore) : RawStore :=
  fun i => if pos ≤ i ∧ i < pos + num then src (i - pos) else dest i

/-- The bytes from a page on; those behind it are somebody else's. -/
def Pages.from (pages : Pages) (p : Bounce) : RawStore := fun j => if j < 4096 then pages p j else none

section Controller

/-- The zero-based count of blocks has 16 bits. -/
def transferLen (cint12 : UInt32) : Nat := ((cint12 &&& 0xffff).toNat + 1) * 512

/-- The page for the `k`th 4096 bytes of `len`, with `ents` pages in a list at `prp2`, or
no `prp2` at all. A list page has room for 512; of a longer list it has 511 and the
address of the rest. -/
def prpPage (prp2 : Bool) (ents len k : Nat) : Option Bounce :=
  if k = 0 then some .prp1
  else if prp2 = false then none
  else if len ≤ 8192 then some .prp2
  else if k ≤ ents ∧ (k ≤ 511 ∨ len ≤ 513 * 4096) then some (.page (k - 1))
  else none

def numPieces (len : Nat) : Nat := (len + 4095) / 4096

/-- Bytes from the device to the pages; `none` when they would go elsewhere. -/
def deviceToPages (prp2 : Bool) (ents len : Nat) (pages : Pages) (src : RawStore) : Option Pages :=
  if (List.range (numPieces len)).all fun k => (prpPage prp2 ents len k).isSome then
    some fun p j =>
      match (List.range (numPieces len)).find? fun k => prpPage prp2 ents len k = some p with
      | some k => if j < 4096 ∧ 4096 * k + j < len then src (4096 * k + j) else pages p j
      | none => pages p j
  else none

/-- The bytes that the device takes, with `stray` where a page is not one of the command's. -/
def pagesToDevice (prp2 : Bool) (ents len : Nat) (pages : Pages) (stray : RawStore) : RawStore :=
  fun i => match prpPage prp2 ents len (i / 4096) with
    | some p => pages p (i % 4096)
    | none => stray i

/-- What a command does to the pages and the device, from the byte `first` on. -/
def runCmd (opcode : Nat) (prp2 : Bool) (ents len first : Nat) (pages : Pages) (dev stray : RawStore) :
    Option (Pages × RawStore) :=
  if opcode = 2 then
    (deviceToPages prp2 ents len pages fun i => dev (first + i)).map fun pages => (pages,dev)
  else some (pages,rawCpy dev first len (pagesToDevice prp2 ents len pages stray))

end Controller

/-- What a command leaves: the buffer, and the device. -/
structure IoResult where
  buf : RawStore
  dev : RawStore

/-- The number of pages the loop allocates for `prp2_vm`. -/
def listEnts (numSects : UInt64) : UInt64 := (numSects * 512 - 4096) / 4096 + 1

/-- The pointers that the loop stores in the page `prp2`. -/
def Pages.withList (pages : Pages) (ents : Nat) : Pages := fun p j =>
  if p = .prp2 ∧ j < 8 * ents then none else pages p j

/-- The loop over `prp2_vm`. -/
def copyBack (pages : Pages) : List Nat → Nat → Int → RawStore → RawStore
  | [], _, _, buf => buf
  | i :: is, pos, left, buf =>
    if left ≤ 0 then buf
    else
      let num := if 4096 ≤ left then 4096 else left.toNat
      copyBack pages is (pos + num) (left - 4096) (rawCpy buf pos num (pages.from (.page i)))

/-- What is copied to the buffer behind a command. -/
def pagesToBuf (ents : Nat) (numSects : UInt64) (pages : Pages) (buf : RawStore) : RawStore :=
  let buf := rawCpy buf 0 (numSects * 512).toNat (pages.from .prp1)
  if 8 ≤ numSects then
    let left := numSects * 512 - 4096
    if numSects - 8 = 1 then rawCpy buf 4096 left.toNat (pages.from .prp2)
    else copyBack pages (List.range ents) 4096 (toLong left) buf
  else buf

/-- From `k_pageobj_alloc` come `pages`. `none` when the loop stores behind the 512
pointers of a page, or the controller writes outside the pages. -/
def nvmeSendIoCmd (stray : RawStore) (pages : Pages) (dev : RawStore) (offSects : UInt64)
    (opcode : Nat) (numSects : UInt64) (buf : RawStore) : Option IoResult :=
  let ents := if 8 ≤ numSects then (listEnts numSects).toNat else 0
  if 512 < ents then none
  else
    (runCmd opcode (8 ≤ numSects) ents (transferLen ((numSects &&& 0xffff) - 1).toUInt32)
      (offSects.toNat * 512) (pages.withList ents) dev stray).map fun r =>
        ⟨pagesToBuf ents numSects r.1 buf,r.2⟩

/-- The sectors arrive in the buffer, and nothing else changes, whatever the pages and
the buffer held. -/
def ReadsSectors (numSects : UInt64) : Prop :=
  ∀ (stray : RawStore) (pages : Pages) (dev : RawStore) (offSects : UInt64) (buf : RawStore),
    ∃ r, nvmeSendIoCmd stray pages dev offSects 2 numSects buf = some r ∧ r.dev = dev ∧
      ∀ i, r.buf i = if i < numSects.toNat * 512 then dev (offSects.toNat * 512 + i) else buf i

variable {prp2 : Bool} {ents len i j k : Nat} {pages pages' : Pages} {p : Bounce} {src buf : RawStore}
  {numSects : UInt64}

theorem rawCpy_inside {pos num : Nat} (inside : pos ≤ i ∧ i < pos + num) :
    rawCpy buf pos num src i = src (i - pos) := if_pos inside

theorem rawCpy_apart {pos num : Nat} (apart : ¬(pos ≤ i ∧ i < pos + num)) :
    rawCpy buf pos num src i = buf i := if_neg apart

theorem Pages.from_inside (inside : j < 4096) : pages.from p j = pages p j := if_pos inside

/-- Another piece goes to another page. -/
theorem prpPage_inj {k' : Nat} (small : k < numPieces len) (small' : k' < numPieces len)
    (this : prpPage prp2 ents len k = some p) (other : prpPage prp2 ents len k' = some p) : k = k' := by
  simp only [numPieces] at small small'
  simp only [prpPage] at this other
  cases p
  all_goals
    split at this
    · split at other
      all_goals grind
    · split at other
      all_goals grind

theorem deviceToPages_page (some : deviceToPages prp2 ents len pages src = some pages')
    (small : k < numPieces len) (this : prpPage prp2 ents len k = Option.some p) (j : Nat) :
    pages' p j = if j < 4096 ∧ 4096 * k + j < len then src (4096 * k + j) else pages p j := by
  rw [deviceToPages] at some
  split at some
  · cases some
    have found : ((List.range (numPieces len)).find? fun k => prpPage prp2 ents len k = Option.some p) =
        Option.some k := by
      rw [List.find?_range_eq_some]
      refine ⟨decide_eq_true this,List.mem_range.mpr small,fun k' before => ?_⟩
      have other : prpPage prp2 ents len k' ≠ Option.some p := fun same =>
        Nat.ne_of_lt before (prpPage_inj (Nat.lt_trans before small) small same this)
      simp [other]
    simp only [found]
  · cases some

/-- A page that no piece goes to stays as it was. -/
theorem deviceToPages_other (some : deviceToPages prp2 ents len pages src = some pages')
    (other : ∀ k < numPieces len, prpPage prp2 ents len k ≠ Option.some p) : pages' p = pages p := by
  rw [deviceToPages] at some
  split at some
  · cases some
    have missing : ((List.range (numPieces len)).find? fun k => prpPage prp2 ents len k = Option.some p) =
        none := by
      rw [List.find?_range_eq_none]
      intro k small
      simpa using other k small
    simp only [missing]
  · cases some

theorem copyBack_byte (pages : Pages) (j m pos : Nat) (left : Int) (buf : RawStore) (i : Nat) :
    copyBack pages (List.range' j m) pos left buf i =
      if pos ≤ i ∧ (i : Int) < pos + left ∧ i < pos + 4096 * m then
        pages (.page (j + (i - pos) / 4096)) ((i - pos) % 4096)
      else buf i := by
  induction m generalizing j pos left buf with
  | zero => exact (if_neg (by omega)).symm
  | succ m ih =>
    rw [List.range'_succ,copyBack]
    by_cases done : left ≤ 0
    · rw [if_pos done,if_neg (by omega)]
    · rw [if_neg done,ih]
      have num : (if 4096 ≤ left then 4096 else left.toNat) = min 4096 left.toNat := by
        split <;> omega
      rw [num]
      by_cases first : pos ≤ i ∧ i < pos + min 4096 left.toNat
      · have page : (i - pos) / 4096 = 0 := by omega
        have byte : (i - pos) % 4096 = i - pos := by omega
        rw [if_neg (by omega),if_pos (by omega),page,byte,rawCpy_inside first,Pages.from_inside (by omega)]
        rfl
      · by_cases later : pos + 4096 ≤ i ∧ (i : Int) < pos + left ∧ i < pos + 4096 * (m + 1)
        · have page : j + 1 + (i - (pos + min 4096 left.toNat)) / 4096 = j + (i - pos) / 4096 := by omega
          have byte : (i - (pos + min 4096 left.toNat)) % 4096 = (i - pos) % 4096 := by omega
          rw [if_pos (by omega),if_pos (by omega),page,byte]
        · rw [if_neg (by omega),if_neg (by omega),rawCpy_apart first]

theorem transferLen_small (some : 1 ≤ numSects.toNat) (small : numSects.toNat < 2^16) :
    transferLen ((numSects &&& 0xffff) - 1).toUInt32 = numSects.toNat * 512 := by
  have mask : (numSects &&& 0xffff).toNat = numSects.toNat := by
    rw [UInt64.toNat_and]
    exact (Nat.and_two_pow_sub_one_eq_mod _ 16).trans (Nat.mod_eq_of_lt small)
  have before : ((numSects &&& 0xffff) - 1).toNat = numSects.toNat - 1 := by
    rw [UInt64.toNat_sub_of_le _ _ (UInt64.le_iff_toNat_le.mpr (mask ▸ some)),mask]
    rfl
  have count : (((numSects &&& 0xffff) - 1).toUInt32 &&& 0xffff).toNat = numSects.toNat - 1 := by
    rw [UInt32.toNat_and,UInt64.toNat_toUInt32,before]
    exact (Nat.and_two_pow_sub_one_eq_mod _ 16).trans (by omega)
  rw [transferLen,count]
  omega

theorem listEnts_toNat (big : 8 ≤ numSects.toNat) (upper : numSects.toNat < 2^55) :
    (listEnts numSects).toNat = (numSects.toNat * 512 - 4096) / 4096 + 1 := by
  have bytes : (numSects * 512).toNat = numSects.toNat * 512 := by
    rw [UInt64.toNat_mul,toNat_512]
    omega
  have rest : (numSects * 512 - 4096).toNat = numSects.toNat * 512 - 4096 := by
    rw [UInt64.toNat_sub_of_le _ _ (UInt64.le_iff_toNat_le.mpr (by rw [bytes]; exact Nat.mul_le_mul_right 512 big)),
      bytes]
    rfl
  have page : (4096 : UInt64).toNat = 4096 := rfl
  have one : (1 : UInt64).toNat = 1 := rfl
  rw [listEnts,UInt64.toNat_add,UInt64.toNat_div,rest,page,one]
  omega

/-- A list that has room in its page has a pointer for every piece. -/
theorem deviceToPages_fits (big : prp2 = decide (8 * 512 ≤ len)) (room : ents ≤ 512)
    (all : len ≤ 8192 ∨ len ≤ 4096 * (ents + 1)) (pages : Pages) (src : RawStore) :
    ∃ pages', deviceToPages prp2 ents len pages src = some pages' := by
  rw [deviceToPages,if_pos]
  · exact ⟨_,rfl⟩
  · rw [List.all_eq_true]
    intro k member
    have small := List.mem_range.mp member
    rw [numPieces] at small
    simp only [prpPage]
    split
    · rfl
    · rw [if_neg (by rw [big]; simp; omega)]
      split
      · rfl
      · rw [if_pos (by omega)]
        rfl

/-- A read within one page. -/
theorem nvmeSendIoCmd_page (least : 1 ≤ numSects.toNat) (small : numSects.toNat < 8)
    (stray : RawStore) (pages : Pages) (dev : RawStore) (offSects : UInt64) (buf : RawStore) :
    ∃ pages', deviceToPages false 0 (numSects.toNat * 512) (pages.withList 0)
        (fun i => dev (offSects.toNat * 512 + i)) = some pages' ∧
      nvmeSendIoCmd stray pages dev offSects 2 numSects buf =
        some ⟨rawCpy buf 0 (numSects.toNat * 512) (pages'.from .prp1),dev⟩ := by
  have alone : ¬8 ≤ numSects := fun big => Nat.not_lt.mpr (UInt64.le_iff_toNat_le.mp big) small
  have short : false = decide (8 * 512 ≤ numSects.toNat * 512) := (decide_eq_false (by omega)).symm
  obtain ⟨pages',moved⟩ := deviceToPages_fits short (Nat.zero_le 512) (.inl (by omega)) (pages.withList 0)
    fun i => dev (offSects.toNat * 512 + i)
  have bytes : (numSects * 512).toNat = numSects.toNat * 512 := by
    rw [UInt64.toNat_mul,toNat_512]
    omega
  refine ⟨pages',moved,?_⟩
  have len := transferLen_small least (Nat.lt_trans small (by decide))
  simp only [nvmeSendIoCmd,if_neg alone,decide_eq_false alone,len,runCmd,if_true,moved,pagesToBuf,bytes]
  rfl

/-- A read with a list that has room in its page. -/
theorem nvmeSendIoCmd_list (big : 8 ≤ numSects.toNat) (small : numSects.toNat ≤ 4103)
    (stray : RawStore) (pages : Pages) (dev : RawStore) (offSects : UInt64) (buf : RawStore) :
    ∃ pages', deviceToPages true ((numSects.toNat * 512 - 4096) / 4096 + 1) (numSects.toNat * 512)
        (pages.withList ((numSects.toNat * 512 - 4096) / 4096 + 1))
        (fun i => dev (offSects.toNat * 512 + i)) = some pages' ∧
      nvmeSendIoCmd stray pages dev offSects 2 numSects buf = some ⟨
        let read := rawCpy buf 0 (numSects.toNat * 512) (pages'.from .prp1)
        if numSects.toNat = 9 then rawCpy read 4096 (numSects.toNat * 512 - 4096) (pages'.from .prp2)
        else copyBack pages' (List.range ((numSects.toNat * 512 - 4096) / 4096 + 1)) 4096
          (numSects.toNat * 512 - 4096 : Nat) read,dev⟩ := by
  have list : 8 ≤ numSects := UInt64.le_iff_toNat_le.mpr big
  have long : true = decide (8 * 512 ≤ numSects.toNat * 512) := (decide_eq_true (by omega)).symm
  have room : (numSects.toNat * 512 - 4096) / 4096 + 1 ≤ 512 := by omega
  obtain ⟨pages',moved⟩ := deviceToPages_fits long room (.inr (by omega))
    (pages.withList ((numSects.toNat * 512 - 4096) / 4096 + 1)) fun i => dev (offSects.toNat * 512 + i)
  have bytes : (numSects * 512).toNat = numSects.toNat * 512 := by
    rw [UInt64.toNat_mul,toNat_512]
    omega
  have left : (numSects * 512 - 4096).toNat = numSects.toNat * 512 - 4096 := by
    rw [UInt64.toNat_sub_of_le _ _ (UInt64.le_iff_toNat_le.mpr (by rw [bytes]; exact Nat.mul_le_mul_right 512 big)),
      bytes]
    rfl
  have signed : toLong (numSects * 512 - 4096) = (numSects.toNat * 512 - 4096 : Nat) := by
    rw [toLong,left,if_pos (by omega)]
  have nine : numSects - 8 = 1 ↔ numSects.toNat = 9 := by
    have eight : (8 : UInt64).toNat = 8 := rfl
    have one : (1 : UInt64).toNat = 1 := rfl
    have le : 8 ≤ numSects := UInt64.le_iff_toNat_le.mpr big
    rw [← UInt64.toNat_inj,UInt64.toNat_sub_of_le _ _ le,eight,one]
    omega
  refine ⟨pages',moved,?_⟩
  have len := transferLen_small (Nat.le_trans (by decide) big) (Nat.lt_of_le_of_lt small (by decide))
  have ents := listEnts_toNat big (Nat.lt_of_le_of_lt small (by decide))
  simp only [nvmeSendIoCmd,if_pos list,decide_eq_true list,ents,len,if_neg (Nat.not_lt.mpr room),runCmd,
    if_true,moved,Option.map_some,pagesToBuf,bytes,left,signed,nine]

/-- The bytes of a piece are those of the device. -/
theorem deviceToPages_byte (moved : deviceToPages prp2 ents len pages src = some pages')
    (this : prpPage prp2 ents len (i / 4096) = some p) (inside : i < len) :
    pages' p (i % 4096) = src i := by
  have whole : 4096 * (i / 4096) + i % 4096 = i := by omega
  rw [deviceToPages_page moved (by rw [numPieces]; omega) this,if_pos (by omega),whole]

/-- One page, the second page, or a list with a pointer for every page behind the first. -/
theorem readsSectors_of (least : 1 ≤ numSects.toNat)
    (sizes : numSects.toNat ≤ 9 ∨ 17 ≤ numSects.toNat ∧ numSects.toNat ≤ 4103) : ReadsSectors numSects := by
  intro stray pages dev offSects buf
  by_cases small : numSects.toNat < 8
  · obtain ⟨pages',moved,sent⟩ := nvmeSendIoCmd_page least small stray pages dev offSects buf
    refine ⟨_,sent,rfl,fun i => ?_⟩
    dsimp only
    by_cases inside : i < numSects.toNat * 512
    · have byte : i % 4096 = i := by omega
      have first := deviceToPages_byte moved (i := i) (p := .prp1) (if_pos (by omega)) inside
      rw [byte] at first
      rw [rawCpy_inside (by omega),Nat.sub_zero,Pages.from_inside (by omega),first,if_pos inside]
    · rw [rawCpy_apart (by omega),if_neg inside]
  · have upper : numSects.toNat ≤ 4103 := by omega
    obtain ⟨pages',moved,sent⟩ := nvmeSendIoCmd_list (by omega) upper stray pages dev offSects buf
    refine ⟨_,sent,rfl,fun i => ?_⟩
    dsimp only
    by_cases inside : i < numSects.toNat * 512
    · rw [if_pos inside]
      by_cases first : i < 4096
      · have byte : i % 4096 = i := by omega
        have page := deviceToPages_byte moved (i := i) (p := .prp1) (if_pos (by omega)) inside
        rw [byte] at page
        have read : rawCpy buf 0 (numSects.toNat * 512) (pages'.from .prp1) i =
            dev (offSects.toNat * 512 + i) := by
          rw [rawCpy_inside (by omega),Nat.sub_zero,Pages.from_inside first,page]
        split
        · rw [rawCpy_apart (by omega),read]
        · rw [List.range_eq_range',copyBack_byte,if_neg (by omega),read]
      · split
        · have byte : i % 4096 = i - 4096 := by omega
          have page : prpPage true ((numSects.toNat * 512 - 4096) / 4096 + 1) (numSects.toNat * 512)
              (i / 4096) = some .prp2 := by
            rw [prpPage,if_neg (by omega),if_neg (by decide),if_pos (by omega)]
          rw [rawCpy_inside (by omega),Pages.from_inside (by omega),← byte,deviceToPages_byte moved page inside]
        · have page : prpPage true ((numSects.toNat * 512 - 4096) / 4096 + 1) (numSects.toNat * 512)
              (i / 4096) = some (.page (0 + (i - 4096) / 4096)) := by
            have before : i / 4096 - 1 = 0 + (i - 4096) / 4096 := by omega
            rw [prpPage,if_neg (by omega),if_neg (by decide),if_neg (by omega),if_pos (by omega),before]
          have byte : (i - 4096) % 4096 = i % 4096 := by omega
          rw [List.range_eq_range',copyBack_byte,if_pos (by omega),byte,deviceToPages_byte moved page inside]
    · rw [if_neg inside]
      have read : rawCpy buf 0 (numSects.toNat * 512) (pages'.from .prp1) i = buf i :=
        rawCpy_apart (by omega)
      split
      · rw [rawCpy_apart (by omega),read]
      · rw [List.range_eq_range',copyBack_byte,if_neg (by omega),read]

/-- With 10 to 16 sectors the second page is at `prp2`, but taken from the list. -/
theorem not_readsSectors_two (lower : 10 ≤ numSects.toNat) (upper : numSects.toNat ≤ 16) :
    ¬ReadsSectors numSects := by
  intro all
  have big : 8 ≤ numSects.toNat := Nat.le_trans (by decide) lower
  obtain ⟨pages',moved,sent⟩ := nvmeSendIoCmd_list big (Nat.le_trans upper (by decide)) (fun _ => none)
    (fun _ _ => some 0) (fun _ => some 1) 0 fun _ => none
  obtain ⟨r,done,_,bytes⟩ := all (fun _ => none) (fun _ _ => some 0) (fun _ => some 1) 0 fun _ => none
  rw [sent] at done
  cases done
  have second := bytes 4096
  dsimp only at second
  have untouched : pages' (.page 0) = fun _ => some 0 := by
    refine (deviceToPages_other moved fun k small => ?_).trans rfl
    rw [numPieces] at small
    rw [prpPage]
    split
    · nofun
    · rw [if_neg (by decide),if_pos (by omega)]
      nofun
  rw [if_neg (by omega),List.range_eq_range',copyBack_byte,if_pos (by omega),untouched,if_pos (by omega)]
    at second
  cases second

/-- The loop stores behind the pages of pointers. -/
theorem not_readsSectors_list (lower : 4104 ≤ numSects.toNat) (upper : numSects.toNat < 2^55) :
    ¬ReadsSectors numSects := by
  intro all
  obtain ⟨r,done,_⟩ := all (fun _ => none) (fun _ _ => none) (fun _ => none) 0 fun _ => none
  have list : 8 ≤ numSects := UInt64.le_iff_toNat_le.mpr (Nat.le_trans (by decide) lower)
  have ents := listEnts_toNat (Nat.le_trans (by decide) lower) upper
  have full : 512 < (numSects.toNat * 512 - 4096) / 4096 + 1 := by omega
  simp only [nvmeSendIoCmd,if_pos list,ents,if_pos full] at done
  cases done

section Claim

/-- A read delivers the sectors exactly when `prp2` is neither a list where a page is
expected nor a list with more pointers than a page has room for. -/
theorem nvme_send_io_cmd_iff (numBytes : UInt64) (least : 1 ≤ bufSz numBytes / 512) :
    ReadsSectors (bufSz numBytes / 512) ↔ bufSz numBytes / 512 ≤ 9 ∨
      17 ≤ bufSz numBytes / 512 ∧ bufSz numBytes / 512 ≤ 4103 := by
  have upper : (bufSz numBytes / 512).toNat < 2^55 := by
    rw [UInt64.toNat_div,toNat_512]
    have := (bufSz numBytes).toNat_lt
    omega
  generalize bufSz numBytes / 512 = numSects at *
  simp only [UInt64.le_iff_toNat_le] at least ⊢
  have small : (9 : UInt64).toNat = 9 := rfl
  have list : (17 : UInt64).toNat = 17 := rfl
  have room : (4103 : UInt64).toNat = 4103 := rfl
  rw [small,list,room]
  constructor
  · intro all
    by_contra other
    by_cases two : numSects.toNat ≤ 16
    · exact not_readsSectors_two (by omega) two all
    · exact not_readsSectors_list (by omega) upper all
  · exact readsSectors_of least

/-- 512 bytes. -/
theorem nvme_send_io_cmd_one : ReadsSectors (bufSz 512 / 512) :=
  (nvme_send_io_cmd_iff 512 (by decide)).mpr (.inl (by decide))

/-- Five kilobytes, from a device full of ones through pages full of zeros. -/
theorem nvme_send_io_cmd_two_pages : ¬∀ numBytes : UInt64, 1 ≤ bufSz numBytes / 512 →
    ReadsSectors (bufSz numBytes / 512) := by
  intro all
  exact not_readsSectors_two (by decide) (by decide) (all 5120 (by decide))

end Claim

end Siegfried
