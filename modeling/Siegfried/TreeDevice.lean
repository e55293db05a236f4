import Siegfried.DirTree
import Mathlib.Data.List.GetD

/-! Disks that hold a given small tree. -/
namespace Siegfried

open Bytes

/-- The inode of a node whose data is in the block `blk`. -/
def inodeOf (blk : Nat) : Node → Store
  | .dir _ => write (write (oneExtent 0 1 blk) 0 2 0x41ed) 4 4 1024
  | .link target => write (write (fun k => if k < 40 then 0 else target.getD (k - 40) 0) 0 2 0xa1ff)
    4 4 target.length
  | .file type => write (fun _ => 0) 0 2 (Node.file type).types

/-- The bytes of a directory entry. -/
def direntBytes (e : Dirent) : List UInt8 :=
  bytes (write (fun _ => 0) 0 8 (e.inode + e.entSz * 2^32 + e.name.length * 2^48)) 0 8 ++ e.name ++
    List.replicate (e.entSz - 8 - e.name.length) 0

/-- The block of a node's data. -/
def blockOf : Node → Store
  | .dir ds => fun k => (ds.flatMap direntBytes).getD k 0
  | _ => fun _ => 0

/-- Sixteen inodes from block 4 on, and the data of each behind them. -/
def deviceOf (t : DirTree) : Store := fun a =>
  if a < 4096 then write (fun _ => 0) 2056 4 4 a
  else if a < 6144 then
    (t.node ((a - 4096) / 128 + 1 : Nat)).elim 0 fun n =>
      inodeOf (17 + (a - 4096) / 128) n ((a - 4096) % 128)
  else (t.node (a / 1024 - 16 : Nat)).elim 0 fun n => blockOf n (a % 1024)

/-- A node that fits into an inode and a block. -/
def Node.Fits : Node → Prop
  | .dir ds => Laid (blockOf (.dir ds)) 0 ds 1024
  | .link target => target.length < 60 ∧ 0 ∉ target
  | .file _ => True

instance Node.decidableFits (n : Node) : Decidable n.Fits :=
  match n with
  | .dir ds => inferInstanceAs (Decidable (Laid (blockOf (.dir ds)) 0 ds 1024))
  | .link target => inferInstanceAs (Decidable (target.length < 60 ∧ 0 ∉ target))
  | .file _ => inferInstanceAs (Decidable True)

/-- The tree has no inodes but the sixteen. -/
def DirTree.Fits (t : DirTree) : Prop := ∀ i n, t.node i = some n → i ≤ 16 ∧ n.Fits

section OfList

variable (nodes : List (Int × Node))

def nodeIn (i : Int) : Option Node := (nodes.find? (·.1 = i)).map (·.2)

def IsDir (i : Int) : Prop := ∃ ds, nodeIn nodes i = some (.dir ds)

instance decidableIsDir (i : Int) : Decidable (IsDir nodes i) :=
  match h : nodeIn nodes i with
  | some (.dir ds) => isTrue ⟨ds,h⟩
  | some (.link _) => isFalse fun ⟨ds,dir⟩ => by rw [h] at dir; cases dir
  | some (.file _) => isFalse fun ⟨ds,dir⟩ => by rw [h] at dir; cases dir
  | none => isFalse fun ⟨ds,dir⟩ => by rw [h] at dir; cases dir

/-- Nodes that make a tree. -/
def ValidNode (i : Int) : Node → Prop
  | .dir (own :: up :: rest) => (own.name = [46] ∧ own.inode = i ∧ up.name = dotDot ∧ IsDir nodes up.inode) ∧
    ∀ e ∈ own :: up :: rest, e.inode ≠ 0 → (nodeIn nodes e.inode).isSome
  | .dir _ => False
  | _ => True

instance decidableValidNode (i : Int) (n : Node) : Decidable (ValidNode nodes i n) :=
  match n with
  | .dir (own :: up :: rest) => inferInstanceAs (Decidable ((_ ∧ _ ∧ _ ∧ _) ∧ ∀ e ∈ own :: up :: rest, _ → _))
  | .dir [] => inferInstanceAs (Decidable False)
  | .dir [_] => inferInstanceAs (Decidable False)
  | .link _ => inferInstanceAs (Decidable True)
  | .file _ => inferInstanceAs (Decidable True)

variable {nodes} in
theorem nodeIn_mem {i : Int} {n : Node} (node : nodeIn nodes i = some n) : (i,n) ∈ nodes := by
  obtain ⟨p,first,rfl⟩ := Option.map_eq_some_iff.mp node
  have same := List.find?_some first
  simp only [decide_eq_true_eq] at same
  subst same
  exact List.mem_of_find?_eq_some first

/-- A tree of finitely many nodes. -/
def DirTree.ofList (root : IsDir nodes extfsRootdirInode)
    (valid : ∀ p ∈ nodes, 0 < p.1 ∧ ValidNode nodes p.1 p.2) : DirTree where
  node := nodeIn nodes
  positive i here := by
    obtain ⟨n,node⟩ := Option.isSome_iff_exists.mp here
    exact (valid _ (nodeIn_mem node)).1
  root := root
  closed i ds dir := by
    have ok := (valid _ (nodeIn_mem dir)).2
    match ds with
    | [] => exact ok.elim
    | [_] => exact ok.elim
    | own :: up :: rest => exact ok.2
  dots i ds dir := by
    have ok := (valid _ (nodeIn_mem dir)).2
    match ds with
    | [] => exact ok.elim
    | [_] => exact ok.elim
    | own :: up :: rest => exact ⟨own,up,rest,rfl,ok.1⟩

theorem DirTree.ofList_fits (root : IsDir nodes extfsRootdirInode)
    (valid : ∀ p ∈ nodes, 0 < p.1 ∧ ValidNode nodes p.1 p.2) (fits : ∀ p ∈ nodes, p.1 ≤ 16 ∧ p.2.Fits) :
    (DirTree.ofList nodes root valid).Fits :=
  fun _ _ node => fits _ (nodeIn_mem node)

end OfList

variable {t : DirTree} {n : Node} {i : Int} {ds : List Dirent}

theorem deviceOf_inode (node : t.node i = some n) (few : i ≤ 16) :
    ∀ k < 128, inodeOf (16 + i.toNat) n k = extfsReadInodeStruct (.of (deviceOf t)) i k := by
  intro k small
  have positive := t.positive i (t.isSome_of node)
  obtain ⟨i,rfl⟩ := Int.eq_ofNat_of_zero_le (Int.le_of_lt positive)
  rw [Int.toNat_natCast]
  have idx : inodeIdx i = i - 1 := by
    rw [inodeIdx]
    omega
  have desc : (inodeIdx i / smallInfo.inodesPerGrp * smallInfo.bgdtSzB +
      smallInfo.blkStart * smallInfo.blkszBytes + smallInfo.blkszBytes) % 2^64 = 2048 := by
    rw [idx]
    simp only [smallInfo]
    omega
  have tab : read (fun k => deviceOf t (2048 + k)) 8 4 = 4 := by
    rw [read_shift]
    have same : read (deviceOf t) 2056 4 = read (write (fun _ => 0) 2056 4 4) 2056 4 :=
      read_congr fun k small => if_pos (by omega)
    exact same.trans (read_write ..)
  have off : (4 * smallInfo.blkszBytes + inodeIdx i % smallInfo.inodesPerGrp *
      smallInfo.inodeStructSzB) % 2^64 = 4096 + 128 * (i - 1) := by
    rw [idx]
    simp only [smallInfo]
    omega
  simp only [extfsReadInodeStruct,extfsReadInodesBlkDesc,Disk.of]
  rw [desc,tab,off,deviceOf,if_neg (by omega),if_pos (by omega)]
  have place : (4096 + 128 * (i - 1) + k - 4096) / 128 = i - 1 ∧
      (4096 + 128 * (i - 1) + k - 4096) % 128 = k := by omega
  have back : i - 1 + 1 = i := by omega
  have blk : 17 + (i - 1) = 16 + i := by omega
  rw [place.1,place.2,back,node,blk]
  rfl

/-- Where the data of an inode is. -/
def blockAt (i : Int) : Nat → Option Nat := fileMap smallInfo [⟨1,16 + i.toNat,0⟩]

theorem deviceOf_contents (node : t.node i = some n) {p : Nat} (inside : p < 1024) :
    contents (deviceOf t) (blockAt i) p = blockOf n p := by
  have positive := t.positive i (t.isSome_of node)
  obtain ⟨i,rfl⟩ := Int.eq_ofNat_of_zero_le (Int.le_of_lt positive)
  have covers : (ExtfsBlk.segment smallInfo ⟨1,16 + i,0⟩).Covers p := by
    simp only [Segments.Segment.Covers,ExtfsBlk.segment,smallInfo]
    omega
  have place : (16 + i) * 1024 + (p - 0 * 1024) = 1024 * (16 + i) + p := by omega
  have index : (1024 * (16 + i) + p) / 1024 - 16 = i ∧ (1024 * (16 + i) + p) % 1024 = p := by omega
  rw [contents,blockAt,fileMap,List.map_cons,Int.toNat_natCast,Segments.find_covered covers,
    Option.elim_some]
  simp only [ExtfsBlk.segment,smallInfo]
  rw [place,deviceOf,if_neg (by omega),if_neg (by omega),index.1,index.2,node]
  rfl

theorem inodeOf_types (n : Node) (blk : Nat) : typesNPerm (inodeOf blk n) &&& 0xf000 = n.types := by
  cases n with
  | dir ds =>
    rw [typesNPerm,inodeOf,read_write_apart (by decide),read_write]
    rfl
  | link target =>
    rw [typesNPerm,inodeOf,read_write_apart (by decide),read_write]
    rfl
  | file type =>
    rw [typesNPerm,inodeOf,read_write]
    cases type <;> rfl

section InodeOf

variable {inode : Store} {n : Node} {blk : Nat} (same : ∀ k < 128, inodeOf blk n k = inode k)
include same

theorem read_inodeOf {a k : Nat} (inside : a + k ≤ 128) : read inode a k = read (inodeOf blk n) a k :=
  read_congr fun j small => (same (a + j) (by omega)).symm

end InodeOf

theorem inodeOf_dir_size (ds : List Dirent) (blk : Nat) :
    extfsGetInoSzinBytes (inodeOf blk (.dir ds)) = 1024 := by
  have high : read (inodeOf blk (.dir ds)) 108 4 = 0 := by
    rw [inodeOf,oneExtent]
    repeat rw [read_write_apart (by omega)]
    exact read_zero ..
  have low : read (inodeOf blk (.dir ds)) 4 4 = 1024 % 256 ^ 4 := by
    rw [inodeOf,read_write]
  have size : extfsGetInoSzinBytes (inodeOf blk (.dir ds)) = 1024 % 256 ^ 4 + 0 * 2^32 := by
    rw [extfsGetInoSzinBytes,high,low]
  omega

theorem inodeOf_dir_flags (ds : List Dirent) (blk : Nat) : inodeFlags (inodeOf blk (.dir ds)) = 0 := by
  rw [inodeFlags,inodeOf,oneExtent]
  repeat rw [read_write_apart (by omega)]
  exact read_zero ..

theorem inodeOf_link_size {target : List UInt8} {blk : Nat} (short : target.length < 60) :
    extfsGetInoSzinBytes (inodeOf blk (.link target)) = target.length := by
  have high : read (inodeOf blk (.link target)) 108 4 = 0 := by
    rw [inodeOf,read_write_apart (by omega),read_write_apart (by omega)]
    refine (read_congr (b := 0) fun k small => ?_).trans (read_zero 0 4)
    rw [if_neg (by omega),List.getD_eq_default _ _ (by omega)]
  rw [extfsGetInoSzinBytes,high,inodeOf,read_write]
  omega

theorem inodeOf_link_text (target : List UInt8) (blk : Nat) :
    bytes (inodeOf blk (.link target)) 40 target.length = target := by
  apply List.ext_getElem length_bytes
  intro k inside small
  simp only [Bytes.bytes]
  rw [List.getElem_map,List.getElem_range,inodeOf,write_apart (by omega),
    write_apart (by omega),if_neg (by omega),Nat.add_sub_cancel_left,List.getD_eq_getElem _ _ small]

/-- The tree in the inode of a directory. -/
theorem inodeOf_onBlocks {d : Disk} (info : d.info = smallInfo) {dev inode : Store} {blk : Nat}
    (same : ∀ k < 128, inodeOf blk (.dir ds) k = inode k) (few : blk < 2^32) :
    OnBlocks d dev 0 inode (fileMap smallInfo [⟨1,blk,0⟩]) := by
  intro _
  rw [info]
  have tree : ExtentTree smallInfo dev ∅ 0 (fun i => oneExtent 0 1 blk (40 + i)) _ :=
    oneExtent_tree 0 1 blk
  have ents := oneExtent_ents 0 1 blk
  rw [Nat.mod_eq_of_lt few] at tree
  refine ⟨∅,0,_,1,Nat.le_refl _,tree.root_congr fun k small => ?_,⟨rfl,⟨by simp,by simp⟩,rfl⟩,?_,?_,rfl⟩
  · rw [nodeSize,ents] at small
    rw [← same (40 + k) (by omega),inodeOf,write_apart (by omega),write_apart (by omega)]
  · rw [extfsGetInoSzinBytes,read_inodeOf same (by decide),read_inodeOf same (by decide)]
    exact Nat.le_of_eq (inodeOf_dir_size ds blk)
  · intro b member
    cases List.mem_singleton.mp member
    simp only [smallInfo]
    omega

theorem deviceOf_dir_size (fits : t.Fits) (dir : t.node i = some (.dir ds)) :
    extfsGetInoSzinBytes (extfsReadInodeStruct (.of (deviceOf t)) i) = 1024 := by
  have same := deviceOf_inode dir (fits i _ dir).1
  rw [extfsGetInoSzinBytes,read_inodeOf same (by decide),read_inodeOf same (by decide)]
  exact inodeOf_dir_size ds _

/-- The device holds the tree. -/
theorem deviceOf_image (fits : t.Fits) :
    TreeImage (.of (deviceOf t)) (deviceOf t) 0 blockAt t := by
  refine ⟨Disk.of_delivers _,fun i n node => ?_,fun i ds dir => ?_,fun i target link => ?_⟩
  · have same := deviceOf_inode node (fits i n node).1
    rw [typesNPerm,read_inodeOf same (by decide)]
    exact inodeOf_types n _
  · have positive := t.positive i (t.isSome_of dir)
    obtain ⟨last,laid⟩ := fits i _ dir
    have same := deviceOf_inode dir last
    rw [deviceOf_dir_size fits dir]
    refine ⟨inodeOf_onBlocks rfl same (by omega),by decide,?_⟩
    exact laid.congr fun p inside => (deviceOf_contents dir inside).symm
  · obtain ⟨last,short,noZero⟩ := fits i _ link
    have same := deviceOf_inode link last
    have size : extfsGetInoSzinBytes (extfsReadInodeStruct (.of (deviceOf t)) i) = target.length := by
      rw [extfsGetInoSzinBytes,read_inodeOf same (by decide),read_inodeOf same (by decide)]
      exact inodeOf_link_size short
    have text : bytes (extfsReadInodeStruct (.of (deviceOf t)) i) 40 target.length = target := by
      refine (bytes_congr fun k inside => ?_).trans (inodeOf_link_text target (16 + i.toNat))
      exact (same (40 + k) (by omega)).symm
    exact ⟨size,Nat.lt_trans short (by decide),noZero,by rwa [if_pos short]⟩

theorem deviceOf_readable (fits : t.Fits) (dir : t.node i = some (.dir ds)) :
    ReadableDir (.of (deviceOf t)) (extfsReadInodeStruct (.of (deviceOf t)) i)
      (blockAt i) := by
  refine ⟨fun block => absurd block (show extfsReqfExtent &&& extfsReqfExtent ≠ 0 by decide),fun _ => ?_⟩
  rw [inodeFlags,read_inodeOf (deviceOf_inode dir (fits i _ dir).1) (by decide)]
  exact (congrArg (· &&& extfsHashedIdxFlag) (inodeOf_dir_flags ds _)).trans (Nat.zero_and _)

end Siegfried
