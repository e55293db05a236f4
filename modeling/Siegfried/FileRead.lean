import Siegfried.ExtentRead

/-! `sys_read` on an open file: `syscall.c` over `extfs_fread`. -/
namespace Siegfried

open Bytes Segments

/-- `siegfried_file`. -/
structure SiegfriedFile where
  disk : Disk
  inode : Int
  off : Nat

/-- `extfs_fopen` with the inode that the path gave; `f` is what the block from
`k_obj_alloc` held. -/
def extfsFopen (f : SiegfriedFile) (d : Disk) (currInode : Int) : Except Int SiegfriedFile :=
  if currInode ≤ 0 then .error currInode else .ok { f with inode := currInode, disk := d }

/-- An `unsigned long` as a `long`. -/
def toLong (n : UInt64) : Int := if n.toNat < 2^63 then n.toNat else n.toNat - 2^64

def extfsFread (fuel : Nat) (f : SiegfriedFile) (buf : Store) (off : Nat) (bytes : UInt64) :
    Option (Int × Store) :=
  let check := extfsReadInodeStruct f.disk f.inode
  if typesNPerm check &&& extfsDirType ≠ 0 then some (-eisdir,buf)
  else (extfsReadInodeContents f.disk fuel check buf (toLong bytes) off).map fun r => (r.1,r.2)

def syscallRead (fuel : Nat) (f : Option SiegfriedFile) (buf : Store) (szBytes : UInt64) :
    Option (Int × Store) :=
  match f with
  | some f => extfsFread fuel f buf f.off szBytes
  | none => some (-einval,buf)

/-- A call of `sys_read`: what it was asked for, what it returned, and so many bytes of
the buffer. -/
structure ReadCall where
  asked : UInt64
  ret : Int
  bytes : List UInt8

/-- An open file and the calls on it so far. -/
structure ReadSession where
  file : SiegfriedFile
  calls : List ReadCall

def ReadSession.delivered (s : ReadSession) : List UInt8 := s.calls.flatMap (·.bytes)

def ReadSession.read (fuel : Nat) (s : ReadSession) (buf : Store) (szBytes : UInt64) :
    Option ReadSession :=
  (syscallRead fuel (some s.file) buf szBytes).map fun r =>
    { s with calls := s.calls ++ [⟨szBytes,r.1,(List.range r.1.toNat).map r.2⟩] }

/-- Calls of `sys_read` on a handle that `extfs_fopen` made. -/
inductive ReadRun (fuel : Nat) (d : Disk) (ino : Int) (cond : ReadSession → UInt64 → Prop) :
    ReadSession → Prop where
  | opened {block f : SiegfriedFile} (h : extfsFopen block d ino = .ok f) :
    ReadRun fuel d ino cond ⟨f,[]⟩
  | read {s s' : ReadSession} (before : ReadRun fuel d ino cond s) (buf : Store) (szBytes : UInt64)
      (ok : cond s szBytes) (h : s.read fuel buf szBytes = some s') : ReadRun fuel d ino cond s'

/-- A regular file whose inode is `inode`: where its bytes are on the device, and where
the blocks of its extents end. -/
structure RegularFile (d : Disk) (dev : Store) (fuel : Nat) (inode : Store)
    (place : Nat → Option Nat) (last : Nat) : Prop where
  regular : typesNPerm inode &&& 0xf000 = 0x8000
  extents : d.info.reqFlags &&& extfsReqfExtent ≠ 0 → ∃ nodes height blks, height < fuel ∧
    ExtentTree d.info dev nodes height (fun i => inode (40 + i)) blks ∧
    Sorted (blks.map (·.segment d.info)) ∧ OnDevice d.info blks ∧
    place = fileMap d.info blks ∧ last = bound (blks.map (·.segment d.info))

/-- Each call delivers what follows, from `pos` on. -/
def InOrder (file : Nat → UInt8) (size : Nat) : Nat → List ReadCall → Prop
  | _, [] => True
  | pos, c :: calls => c.ret = min c.asked.toNat (size - pos) ∧
    c.bytes = (List.range' pos c.ret.toNat).map file ∧ InOrder file size (pos + c.ret.toNat) calls

/-- A call on a file with extents that delivers what follows: it asks for nothing, or
nothing is left, or the handle is where the last call ended, and the request touches no
gap and goes no further than the recorded size. -/
def FollowsExtents (place : Nat → Option Nat) (last size off pos n : Nat) : Prop :=
  n = 0 ∨ size ≤ pos ∧ (2^63 ≤ n ∨ last ≤ off) ∨
    off = pos ∧ n < 2^63 ∧ min (off + n) last = min (off + n) size ∧
      ∀ p, off ≤ p → p < off + n → p < last → (place p).isSome

/-- The same without extents: the bytes are where the first block leads to. -/
def FollowsBlock (place : Nat → Option Nat) (addr size pos n : Nat) : Prop :=
  n = 0 ∨ pos + n ≤ size ∧ ∀ i < n, place (pos + i) = some (addr + i)

/-- The condition on a call of `sys_read`. -/
def Follows (d : Disk) (inode : Store) (place : Nat → Option Nat) (last : Nat) (s : ReadSession)
    (szBytes : UInt64) : Prop :=
  let size := extfsGetInoSzinBytes inode
  let pos := s.delivered.length
  if d.info.reqFlags &&& extfsReqfExtent = 0 then
    FollowsBlock place ((blkDataPtr inode * d.info.blkszBytes + s.file.off) % 2^64) size pos szBytes.toNat
  else FollowsExtents place last size s.file.off pos szBytes.toNat

variable {d : Disk} {dev inode : Store} {fuel : Nat} {place : Nat → Option Nat} {last : Nat}
  {file : Nat → UInt8} {size pos : Nat} {calls : List ReadCall}

theorem RegularFile.not_dir (regular : RegularFile d dev fuel inode place last) :
    typesNPerm inode &&& extfsDirType = 0 := by
  have mask : typesNPerm inode &&& extfsDirType = typesNPerm inode &&& 0xf000 &&& extfsDirType := by
    rw [Nat.and_assoc]
    rfl
  rw [mask,regular.regular]
  rfl

/-- What the conversion leaves to be read. -/
theorem toLong_toNat (n : UInt64) : (toLong n).toNat = if n.toNat < 2^63 then n.toNat else 0 := by
  have small := n.toNat_lt
  rw [toLong]
  split <;> omega

theorem toLong_mod (n : UInt64) : (toLong n % 2^64).toNat = n.toNat := by
  have small := n.toNat_lt
  rw [toLong]
  split <;> omega

/-- A call that meets the condition delivers what follows. -/
theorem extfsReadInodeContents_follows (regular : RegularFile d dev fuel inode place last)
    (delivers : d.Delivers dev) {s : ReadSession} {n : UInt64} (ok : Follows d inode place last s n)
    (buf : Store) :
    ∃ k buf', k = min n.toNat (extfsGetInoSzinBytes inode - s.delivered.length) ∧
      extfsReadInodeContents d fuel inode buf (toLong n) s.file.off = some (k,buf') ∧
      ∀ i < k, buf' i = (place (s.delivered.length + i)).elim 0 dev := by
  rw [Follows] at ok
  generalize s.delivered.length = pos at *
  generalize s.file.off = off at *
  generalize extfsGetInoSzinBytes inode = size at *
  split at ok
  · next block =>
    rw [extfsReadInodeContents,if_pos block,toLong_mod]
    dsimp only
    refine ⟨n.toNat,_,?_,by rw [(delivers ..).1],fun i small => ?_⟩
    · rcases ok with zero | ⟨within,_⟩ <;> omega
    · rcases ok with zero | ⟨_,there⟩
      · omega
      · rw [splice_start small,delivers.bytes i small,there i small]
        rfl
  · next extents =>
    obtain ⟨nodes,height,blks,enough,tree,sorted,fits,rfl,rfl⟩ := regular.extents extents
    have wanted := toLong_toNat n
    have covered : ∀ p, off ≤ p → p < off + (toLong n).toNat → p < bound (blks.map (·.segment d.info)) →
        (fileMap d.info blks p).isSome := by
      intro p lower upper inside
      rcases ok with zero | ⟨_,huge | past⟩ | ⟨_,_,_,mapped⟩
      · split at wanted <;> omega
      · rw [if_neg (by omega)] at wanted
        omega
      · omega
      · exact mapped p lower (by split at wanted <;> omega) inside
    obtain ⟨k,short,done⟩ := extfsReadInodeContents_file extents delivers tree enough sorted fits
      covered buf
    have law : k = min n.toNat (size - pos) ∧ (k = 0 ∨ off = pos) := by
      rcases ok with zero | ⟨_,huge | past⟩ | ⟨start,_,_,_⟩
      · split at wanted <;> omega
      · rw [if_neg (by omega)] at wanted
        omega
      · omega
      · rw [if_pos (by omega)] at wanted
        omega
    refine ⟨k,_,law.1,done,fun i small => ?_⟩
    have start : off = pos := law.2.resolve_left (by omega)
    rw [splice_start small,fileByte,start]

theorem InOrder.concat {c : ReadCall} (inOrder : InOrder file size pos calls)
    (ret : c.ret = min c.asked.toNat (size - (pos + (calls.flatMap (·.bytes)).length)))
    (bytes : c.bytes =
      (List.range' (pos + (calls.flatMap (·.bytes)).length) c.ret.toNat).map file) :
    InOrder file size pos (calls ++ [c]) := by
  induction calls generalizing pos with
  | nil => exact ⟨ret,bytes,trivial⟩
  | cons b calls ih =>
    obtain ⟨first,here,rest⟩ := inOrder
    have length : pos + ((b :: calls).flatMap (·.bytes)).length =
        pos + b.ret.toNat + (calls.flatMap (·.bytes)).length := by
      simp only [List.flatMap_cons,List.length_append,here,List.length_map,List.length_range']
      omega
    rw [length] at ret bytes
    exact ⟨first,here,ih rest ret bytes⟩

/-- All deliveries together are a part of the file, within its size. -/
theorem InOrder.delivered (inOrder : InOrder file size pos calls) (start : pos ≤ size) :
    ∃ n, calls.flatMap (·.bytes) = (List.range' pos n).map file ∧ pos + n ≤ size := by
  induction calls generalizing pos with
  | nil => exact ⟨0,rfl,start⟩
  | cons c calls ih =>
    obtain ⟨ret,bytes,rest⟩ := inOrder
    obtain ⟨n,later,within⟩ := ih rest (by omega)
    refine ⟨c.ret.toNat + n,?_,by omega⟩
    rw [List.flatMap_cons,bytes,later,← List.map_append,List.range'_append_1]

section Run

variable {ino : Int} {s s' : ReadSession} {n : UInt64}

theorem ReadSession.read_follows (regular : RegularFile d dev fuel (extfsReadInodeStruct d ino) place last)
    (delivers : d.Delivers dev) (disk : s.file.disk = d) (inode : s.file.inode = ino)
    (ok : Follows d (extfsReadInodeStruct d ino) place last s n) (buf : Store) :
    ∃ k : Nat, k = min n.toNat (extfsGetInoSzinBytes (extfsReadInodeStruct d ino) - s.delivered.length) ∧
      s.read fuel buf n = some { s with calls := s.calls ++
        [⟨n,k,(List.range' s.delivered.length k).map fun p => (place p).elim 0 dev⟩] } := by
  obtain ⟨k,buf',short,done,right⟩ := extfsReadInodeContents_follows regular delivers ok buf
  refine ⟨k,short,?_⟩
  simp only [ReadSession.read,syscallRead,extfsFread,disk,inode,regular.not_dir,ne_eq,not_true,if_false,
    done,Option.map_some,Int.toNat_natCast]
  have bytes : (List.range k).map buf' =
      (List.range' s.delivered.length k).map fun p => (place p).elim 0 dev := by
    rw [List.range'_eq_map_range,List.map_map]
    exact List.map_congr_left fun i member => right i (List.mem_range.mp member)
  rw [bytes]

theorem ReadRun.inv (regular : RegularFile d dev fuel (extfsReadInodeStruct d ino) place last)
    (delivers : d.Delivers dev)
    (run : ReadRun fuel d ino (Follows d (extfsReadInodeStruct d ino) place last) s) :
    s.file.disk = d ∧ s.file.inode = ino ∧ InOrder (fun p => (place p).elim 0 dev)
      (extfsGetInoSzinBytes (extfsReadInodeStruct d ino)) 0 s.calls := by
  induction run with
  | opened h =>
    rw [extfsFopen] at h
    split at h
    · cases h
    · cases h
      exact ⟨rfl,rfl,trivial⟩
  | read before buf szBytes ok h ih =>
    obtain ⟨disk,inode,inOrder⟩ := ih
    obtain ⟨k,short,done⟩ := ReadSession.read_follows regular delivers disk inode ok buf
    rw [done] at h
    cases h
    refine ⟨disk,inode,inOrder.concat ?_ ?_⟩
    · rw [Nat.zero_add]
      exact congrArg Nat.cast short
    · rw [Nat.zero_add,Int.toNat_natCast]
      rfl

section Claim

/-- As long as each call meets the condition, the calls return and deliver the file in
order, up to its recorded size. -/
theorem sys_read_in_order (d : Disk) (dev : Store) (ino : Int) (fuel : Nat)
    (place : Nat → Option Nat) (last : Nat)
    (regular : RegularFile d dev fuel (extfsReadInodeStruct d ino) place last)
    (delivers : d.Delivers dev) (s : ReadSession)
    (run : ReadRun fuel d ino (Follows d (extfsReadInodeStruct d ino) place last) s) :
    let file := fun p => (place p).elim 0 dev
    let size := extfsGetInoSzinBytes (extfsReadInodeStruct d ino)
    InOrder file size 0 s.calls ∧
      s.delivered <+: (List.range size).map file ∧
      ∀ buf n, Follows d (extfsReadInodeStruct d ino) place last s n → (s.read fuel buf n).isSome := by
  intro file size
  obtain ⟨disk,inode,inOrder⟩ := run.inv regular delivers
  refine ⟨inOrder,?_,fun buf n ok => ?_⟩
  · obtain ⟨n,delivered,within⟩ := inOrder.delivered (Nat.zero_le _)
    have part := List.take_prefix n (List.range size)
    rw [List.take_range,Nat.min_eq_left (by omega)] at part
    rw [ReadSession.delivered,delivered,← List.range_eq_range']
    exact part.map file
  · obtain ⟨k,_,done⟩ := ReadSession.read_follows regular delivers disk inode ok buf
    rw [done]
    rfl

end Claim

/-- A device with the inode 3 and one block of data, at block 5. -/
def imageOf (inode data : Store) : Store :=
  splice (splice (write (fun _ => 0) 2056 4 4) 4352 128 inode) 5120 1024 data

/-- The inode of a regular file of one block. -/
def regularInode (size : Nat) : Store := write (write (oneExtent 0 1 5) 0 2 0x81a4) 4 4 size

theorem imageOf_inode (inode data : Store) :
    extfsReadInodeStruct (.of (imageOf inode data)) 3 = fun i => imageOf inode data (4352 + i) := by
  have tab : read (fun i => imageOf inode data (2048 + i)) 8 4 = 4 := by
    rw [read_shift,imageOf,read_splice_apart (by omega),read_splice_apart (by omega)]
    exact read_write ..
  have idx : (inodeIdx 3 / smallInfo.inodesPerGrp * smallInfo.bgdtSzB +
      smallInfo.blkStart * smallInfo.blkszBytes + smallInfo.blkszBytes) % 2^64 = 2048 := by decide
  have off : (4 * smallInfo.blkszBytes + inodeIdx 3 % smallInfo.inodesPerGrp *
      smallInfo.inodeStructSzB) % 2^64 = 4352 := by decide
  simp only [extfsReadInodeStruct,extfsReadInodesBlkDesc,Disk.of]
  rw [idx,tab,off]

theorem imageOf_same (inode data : Store) :
    ∀ k < 128, inode k = extfsReadInodeStruct (.of (imageOf inode data)) 3 k := by
  intro k small
  rw [imageOf_inode]
  dsimp only
  rw [imageOf,splice_apart (by omega),splice_inside small]

theorem imageOf_size (data : Store) :
    extfsGetInoSzinBytes (extfsReadInodeStruct (.of (imageOf (regularInode 2) data)) 3) = 2 := by
  have same := imageOf_same (regularInode 2) data
  have low := read_congr fun i (small : i < 4) => same (4 + i) (by omega)
  have high := read_congr fun i (small : i < 4) => same (108 + i) (by omega)
  rw [extfsGetInoSzinBytes,← low,← high]
  decide

theorem imageOf_regular (data : Store) :
    RegularFile (.of (imageOf (regularInode 2) data)) (imageOf (regularInode 2) data) 1
      (extfsReadInodeStruct (.of (imageOf (regularInode 2) data)) 3)
      (fileMap smallInfo [⟨1,5,0⟩]) 1024 := by
  have same := imageOf_same (regularInode 2) data
  have types : typesNPerm (regularInode 2) =
      typesNPerm (extfsReadInodeStruct (.of (imageOf (regularInode 2) data)) 3) :=
    read_congr fun i small => same (0 + i) (by omega)
  have size : nodeSize (fun i => oneExtent 0 1 5 (40 + i)) = 24 := by decide
  refine ⟨by rw [← types]; decide,fun _ => ⟨∅,0,[⟨1,5,0⟩],by decide,?_,by simp [Sorted],
    by simp [OnDevice,Disk.of,smallInfo],rfl,rfl⟩⟩
  refine (oneExtent_tree 0 1 5).root_congr fun k small => ?_
  rw [← same (40 + k) (by omega),regularInode,write_apart (by omega),write_apart (by omega)]

/-- The device of a file that holds 1 and 2. -/
def twoBytes : Store := imageOf (regularInode 2) fun i => .ofNat (i + 1)

section Claim

/-- Both bytes in one call. -/
theorem sys_read_in_order_two : ∃ s : ReadSession, s.delivered = [1,2] ∧
    InOrder (fun p => (fileMap smallInfo [⟨1,5,0⟩] p).elim 0 twoBytes) 2 0 s.calls := by
  have size : extfsGetInoSzinBytes (extfsReadInodeStruct (.of twoBytes) 3) = 2 := imageOf_size _
  have regular := imageOf_regular fun i => .ofNat (i + 1)
  have opened : ReadRun 1 (.of twoBytes) 3 (Follows (.of twoBytes)
      (extfsReadInodeStruct (.of twoBytes) 3) (fileMap smallInfo [⟨1,5,0⟩]) 1024)
      ⟨⟨.of twoBytes,3,0⟩,[]⟩ :=
    .opened (show extfsFopen ⟨.of twoBytes,0,0⟩ (.of twoBytes) 3 = .ok _ from rfl)
  have ok : Follows (.of twoBytes) (extfsReadInodeStruct (.of twoBytes) 3)
      (fileMap smallInfo [⟨1,5,0⟩]) 1024 ⟨⟨.of twoBytes,3,0⟩,[]⟩ 2 := by
    rw [Follows,if_neg (by decide),size]
    refine .inr (.inr ⟨rfl,by decide,rfl,fun p _ upper _ => ?_⟩)
    have upper : p < 0 + 2 := upper
    exact find_isSome.mpr ⟨⟨0,1024,5120⟩,by simp [ExtfsBlk.segment,smallInfo],Nat.zero_le p,
      show p < 0 + 1024 by omega⟩
  obtain ⟨k,short,done⟩ := ReadSession.read_follows regular (Disk.of_delivers _) rfl rfl ok fun _ => 0
  have law := (sys_read_in_order _ _ 3 1 _ _ regular (Disk.of_delivers _) _
    (opened.read (fun _ => 0) 2 ok done)).1
  have both : k = 2 := by
    rw [short]
    exact congrArg (fun size => min 2 (size - 0)) size
  subst both
  have law := size ▸ law
  exact ⟨_,by decide +kernel,law⟩

/-- One byte is asked for twice, and the first is delivered twice. -/
theorem sys_read_repeats : ¬∀ (d : Disk) (dev : Store) (ino : Int) (fuel : Nat)
    (place : Nat → Option Nat) (last : Nat),
    RegularFile d dev fuel (extfsReadInodeStruct d ino) place last → d.Delivers dev →
    ∀ s : ReadSession, ReadRun fuel d ino (fun _ _ => True) s →
      InOrder (fun p => (place p).elim 0 dev) (extfsGetInoSzinBytes (extfsReadInodeStruct d ino)) 0
        s.calls := by
  intro all
  have twice : ((ReadSession.read 1 ⟨⟨.of twoBytes,3,0⟩,[]⟩ (fun _ => 0) 1).bind fun s =>
      s.read 1 (fun _ => 0) 1).any (fun s => s.delivered = [1,1]) = true := by decide +kernel
  obtain ⟨s',second,twice⟩ := (Option.any_eq_true _ _).mp twice
  obtain ⟨s,first,second⟩ := Option.bind_eq_some_iff.mp second
  have opened : ReadRun 1 (.of twoBytes) 3 (fun _ _ => True) ⟨⟨.of twoBytes,3,0⟩,[]⟩ :=
    .opened (show extfsFopen ⟨.of twoBytes,0,0⟩ (.of twoBytes) 3 = .ok _ from rfl)
  have run := (opened.read _ 1 trivial first).read _ 1 trivial second
  have law := all _ _ 3 1 _ _ (imageOf_regular fun i => .ofNat (i + 1)) (Disk.of_delivers _) s' run
  obtain ⟨n,delivered,_⟩ := law.delivered (Nat.zero_le _)
  have same : (List.range' 0 n).map (fun p => (fileMap smallInfo [⟨1,5,0⟩] p).elim 0 twoBytes) =
      [1,1] := delivered.symm.trans (of_decide_eq_true twice)
  have two : n = 2 := by
    have length := congrArg List.length same
    rwa [List.length_map,List.length_range'] at length
  subst two
  exact absurd same (by decide +kernel)

end Claim

end Run

end Siegfried
