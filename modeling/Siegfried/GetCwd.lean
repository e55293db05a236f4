import Siegfried.DirWalks

/-! `sys_get_dir_name`: what it writes of a buffer, and `curr_task->cwd` behind it
(`syscall.c`). -/
namespace Siegfried

open Bytes

/-- The fields of a `siegfried_dir` that it reads. -/
structure TaskDir where
  inode : Int
  di : Nat
  parent : Int
  deriving DecidableEq

/-- What it calls: `d->get_root_inode`, `syscall_open_dir` with `".."` when `curr_task->cwd`
is a directory, and `d->get_name_from_parent`, which leaves a string in an array of 256
bytes. `none` if a call does not return. -/
structure DirOps where
  rootInode : Int
  openDotDot : TaskDir → Option (Int32 × TaskDir)
  selfName : Int → Int → Option (List UInt8)
  short : ∀ parent inode name, selfName parent inode = some name → name.length < 256

/-- Where `curr_task->cwd` points to: the directory it was, or the `par` of a call. -/
inductive CwdPtr where
  | own | par (level : Nat)

structure CwdState where
  buf : Store
  wrote : List ByteRange
  cwd : CwdPtr

def CwdState.put (st : CwdState) (off : UInt64) (text : List UInt8) : CwdState :=
  { st with
    buf := splice st.buf off.toNat text.length fun i => text.getD i 0
    wrote := ⟨off.toNat,text.length⟩ :: st.wrote }

/-- Behind the call for the parent. -/
def appendName (s : UInt64) (selfName : List UInt8) (oldCwd : CwdPtr) (r : UInt64 × CwdState) :
    UInt64 × CwdState :=
  let st := if 0 < s - r.1 then r.2.put r.1 selfName else r.2
  let pathOff := r.1 + .ofNat selfName.length
  if pathOff = s - 1 then (s,st.put pathOff [0])
  else (pathOff + 1,{ (st.put pathOff [47]).put (pathOff + 1) [0] with cwd := oldCwd })

/-- `curr_task->cwd` is `dir` in every call. -/
def sysGetDirName (ops : DirOps) (s : UInt64) : Nat → TaskDir → CwdState → Option (UInt64 × CwdState)
  | 0, _, _ => none
  | fuel+1, dir, st =>
    if dir.inode = ops.rootInode then some (1,st.put 0 [47])
    else (ops.openDotDot dir).bind fun (ret,par) =>
      if ret < 0 then some (ret.toInt64.toUInt64,st)
      else (ops.selfName dir.parent dir.inode).bind fun selfName =>
        (sysGetDirName ops s fuel par { st with cwd := .par fuel }).map (appendName s selfName st.cwd)

def syscallGetcwd (ops : DirOps) (s : UInt64) (fuel : Nat) (cwd : TaskDir) (buf : Store) : Option CwdState :=
  (sysGetDirName ops s fuel cwd ⟨splice buf 0 s.toNat fun _ => 0,[⟨0,s.toNat⟩],.own⟩).map (·.2)

/-- Only the buffer was written, and the pointer is the old one. -/
structure CwdState.Contained (st : CwdState) (s : UInt64) : Prop where
  writes : ∀ r ∈ st.wrote, r.Within s.toNat
  back : st.cwd = .own

/-- The names on the way up to the root, outermost first, or up to where `".."` cannot be
opened. -/
inductive Ascends (ops : DirOps) : TaskDir → List (List UInt8) → Bool → Prop where
  | root {dir : TaskDir} (this : dir.inode = ops.rootInode) : Ascends ops dir [] true
  | fails {dir par : TaskDir} {ret : Int32} (other : dir.inode ≠ ops.rootInode)
    (opened : ops.openDotDot dir = some (ret,par)) (error : ret < 0) : Ascends ops dir [] false
  | up {dir par : TaskDir} {ret : Int32} {name : List UInt8} {names : List (List UInt8)} {ends : Bool}
    (other : dir.inode ≠ ops.rootInode) (opened : ops.openDotDot dir = some (ret,par)) (ok : ¬ret < 0)
    (named : ops.selfName dir.parent dir.inode = some name) (above : Ascends ops par names ends) :
    Ascends ops dir (names ++ [name]) ends

/-- A slash, and one behind every name. -/
def cwdText (names : List (List UInt8)) : List UInt8 := 47 :: names.flatMap (· ++ [47])

/-- Nothing was written elsewhere, the pointer is the old one, and the offset is behind the
text or an error. -/
structure Returns (s : UInt64) (st : CwdState) (names : List (List UInt8)) (ends : Bool)
    (r : UInt64 × CwdState) : Prop where
  back : r.2.cwd = st.cwd
  writes : ∀ x ∈ r.2.wrote, x ∈ st.wrote ∨ x.Within s.toNat
  off : if ends then r.1.toNat = (cwdText names).length else 2^63 ≤ r.1.toNat

/-- Something was written elsewhere, or the call was left early, with the pointer moved. -/
def Spoilt (s : UInt64) (old : CwdPtr) (r : UInt64 × CwdState) : Prop :=
  (∃ x ∈ r.2.wrote, ¬x.Within s.toNat) ∨ r.1 = s ∧ r.2.cwd ≠ old

/-- The text has room with a zero behind it, which the root goes without; or nothing has
to be written, as the first `".."` cannot be opened. -/
def TextFits (s : UInt64) (names : List (List UInt8)) : Bool → Prop
  | true => if names = [] then 1 ≤ s.toNat else (cwdText names).length + 1 ≤ s.toNat
  | false => names = []

variable {ops : DirOps} {s off : UInt64} {fuel : Nat} {dir par : TaskDir} {st : CwdState} {r : UInt64 × CwdState}
  {name text : List UInt8} {names : List (List UInt8)} {ends : Bool} {old : CwdPtr} {x : ByteRange}

theorem cwdText_append : cwdText (names ++ [name]) = cwdText names ++ name ++ [47] := by
  simp [cwdText]

theorem cwdText_length_append :
    (cwdText (names ++ [name])).length = (cwdText names).length + name.length + 1 := by
  rw [cwdText_append,List.length_append,List.length_append,List.length_singleton]

theorem cwdText_pos : 0 < (cwdText names).length := Nat.succ_pos _

theorem textFits_append : TextFits s (names ++ [name]) ends ↔
    ends = true ∧ (cwdText names).length + name.length + 2 ≤ s.toNat := by
  cases ends with
  | false => simp [TextFits]
  | true =>
    simp only [TextFits,List.append_ne_nil_of_right_ne_nil names (List.cons_ne_nil name []),if_false,
      cwdText_length_append,true_and]

/-- As an offset an error is behind every buffer. -/
theorem error_offset {ret : Int32} (error : ret < 0) : 2^63 ≤ ret.toInt64.toUInt64.toNat := by
  have negative : ret.toInt < 0 := Int32.lt_iff_toInt_lt.mp error
  have extended : ret.toInt64.toInt = ret.toInt := Int32.toInt_toInt64 ret
  have bits : ret.toInt64.toInt = ret.toInt64.toUInt64.toBitVec.toInt := rfl
  have nat : ret.toInt64.toUInt64.toBitVec.toNat = ret.toInt64.toUInt64.toNat := rfl
  rw [BitVec.toInt_eq_toNat_cond] at bits
  split at bits <;> omega

theorem sysGetDirName_root (this : dir.inode = ops.rootInode) :
    sysGetDirName ops s (fuel + 1) dir st = some (1,st.put 0 [47]) := by
  rw [sysGetDirName,if_pos this]

theorem sysGetDirName_fails {ret : Int32} (other : dir.inode ≠ ops.rootInode)
    (opened : ops.openDotDot dir = some (ret,par)) (error : ret < 0) :
    sysGetDirName ops s (fuel + 1) dir st = some (ret.toInt64.toUInt64,st) := by
  rw [sysGetDirName,if_neg other,opened]
  exact if_pos error

theorem sysGetDirName_up {ret : Int32} (other : dir.inode ≠ ops.rootInode)
    (opened : ops.openDotDot dir = some (ret,par)) (ok : ¬ret < 0)
    (named : ops.selfName dir.parent dir.inode = some name) :
    sysGetDirName ops s (fuel + 1) dir st =
      (sysGetDirName ops s fuel par { st with cwd := .par fuel }).map (appendName s name st.cwd) := by
  rw [sysGetDirName,if_neg other,opened]
  apply (if_neg ok).trans
  rw [named]
  rfl

/-- There is one way up. -/
theorem Ascends.unique (ascends : Ascends ops dir names ends) {names' : List (List UInt8)} {ends' : Bool}
    (ascends' : Ascends ops dir names' ends') : names = names' ∧ ends = ends' := by
  induction ascends generalizing names' ends' with
  | root this =>
    cases ascends' with
    | root => exact ⟨rfl,rfl⟩
    | fails other => exact absurd this other
    | up other => exact absurd this other
  | fails other opened error =>
    cases ascends' with
    | root this => exact absurd this other
    | fails => exact ⟨rfl,rfl⟩
    | up _ opened' ok =>
      cases opened.symm.trans opened'
      exact absurd error ok
  | up other opened ok named above ih =>
    cases ascends' with
    | root this => exact absurd this other
    | fails _ opened' error =>
      cases opened.symm.trans opened'
      exact absurd error ok
    | up _ opened' _ named' above' =>
      cases opened.symm.trans opened'
      cases named.symm.trans named'
      obtain ⟨rfl,rfl⟩ := ih above'
      exact ⟨rfl,rfl⟩

/-- A call that gets to the root, or to an error, returns. -/
theorem Ascends.returns (ascends : Ascends ops dir names ends) (enough : names.length < fuel) (st : CwdState) :
    ∃ r, sysGetDirName ops s fuel dir st = some r := by
  induction ascends generalizing fuel st with
  | root this =>
    cases fuel with
    | zero => cases enough
    | succ fuel => exact ⟨_,sysGetDirName_root this⟩
  | fails other opened error =>
    cases fuel with
    | zero => cases enough
    | succ fuel => exact ⟨_,sysGetDirName_fails other opened error⟩
  | up other opened ok named above ih =>
    cases fuel with
    | zero => cases enough
    | succ fuel =>
      rw [List.length_append] at enough
      obtain ⟨r,done⟩ := ih (Nat.lt_of_succ_lt_succ enough) { st with cwd := .par fuel }
      exact ⟨_,by rw [sysGetDirName_up other opened ok named,done]; rfl⟩

/-- A call that returns got to the root, or to an error. -/
theorem ascends_of_returns (done : sysGetDirName ops s fuel dir st = some r) :
    ∃ names ends, Ascends ops dir names ends := by
  induction fuel generalizing dir st r with
  | zero => cases done
  | succ fuel ih =>
    by_cases this : dir.inode = ops.rootInode
    · exact ⟨_,_,.root this⟩
    · rw [sysGetDirName,if_neg this,Option.bind_eq_some_iff] at done
      obtain ⟨⟨ret,par⟩,opened,done⟩ := done
      by_cases error : ret < 0
      · exact ⟨_,_,.fails this opened error⟩
      · have done := (if_neg error).symm.trans done
        obtain ⟨name,named,done⟩ := Option.bind_eq_some_iff.mp done
        obtain ⟨r,inner,_⟩ := Option.map_eq_some_iff.mp done
        obtain ⟨names,ends,above⟩ := ih inner
        exact ⟨_,_,.up this opened error named above⟩

/-- What is written is not forgotten. -/
theorem appendName_wrote (wrote : x ∈ r.2.wrote) : x ∈ (appendName s name old r).2.wrote := by
  have kept : x ∈ (if 0 < s - r.1 then r.2.put r.1 name else r.2).wrote := by
    split
    · exact List.mem_cons_of_mem _ wrote
    · exact wrote
  rw [appendName]
  split
  · exact List.mem_cons_of_mem _ kept
  · exact List.mem_cons_of_mem _ (List.mem_cons_of_mem _ kept)

/-- A byte of the last put is written behind the name. -/
theorem appendName_last : ∃ x ∈ (appendName s name old r).2.wrote,
    x.first = (r.1 + .ofNat name.length).toNat ∧ x.num = 1 := by
  rw [appendName]
  split
  · exact ⟨_,List.mem_cons_self,rfl,rfl⟩
  · exact ⟨_,List.mem_cons_of_mem _ List.mem_cons_self,rfl,rfl⟩

theorem toNat_add_length (short : name.length < 256) (small : off.toNat + name.length < 2^64) :
    (off + .ofNat name.length).toNat = off.toNat + name.length := by
  rw [UInt64.toNat_add,UInt64.toNat_ofNat']
  omega

section Append

variable (short : name.length < 256)
include short

/-- With room for the name, a slash and a zero all of them are put into the buffer. -/
theorem appendName_fits (fits : r.1.toNat + name.length + 2 ≤ s.toNat) :
    appendName s name old r = (r.1 + .ofNat name.length + 1,
      { ((r.2.put r.1 name).put (r.1 + .ofNat name.length) [47]).put (r.1 + .ofNat name.length + 1) [0]
        with cwd := old }) := by
  have lt := s.toNat_lt
  have behind : (r.1 + .ofNat name.length).toNat = r.1.toNat + name.length :=
      toNat_add_length short (by omega)
  have one : (1 : UInt64).toNat = 1 := rfl
  have room : 0 < s - r.1 := by
    rw [UInt64.lt_iff_toNat_lt,UInt64.toNat_sub_of_le _ _ (UInt64.le_iff_toNat_le.mpr (by omega))]
    exact Nat.sub_pos_of_lt (by omega)
  have more : r.1 + .ofNat name.length ≠ s - 1 := by
    intro same
    have := congrArg UInt64.toNat same
    rw [behind,UInt64.toNat_sub_of_le _ _ (UInt64.le_iff_toNat_le.mpr (by omega)),one] at this
    omega
  rw [appendName,if_pos room,if_neg more]

/-- Without that room something goes wrong. -/
theorem appendName_spoilt (few : s.toNat < 2^63) (tight : s.toNat < r.1.toNat + name.length + 2)
    (moved : r.1.toNat < s.toNat → r.2.cwd ≠ old) : Spoilt s old (appendName s name old r) := by
  by_cases before : r.1.toNat < s.toNat
  · have behind : (r.1 + .ofNat name.length).toNat = r.1.toNat + name.length :=
      toNat_add_length short (by omega)
    by_cases early : r.1 + .ofNat name.length = s - 1
    · have left : appendName s name old r = (s,CwdState.put (if 0 < s - r.1 then r.2.put r.1 name else r.2)
          (r.1 + .ofNat name.length) [0]) := if_pos early
      refine .inr ⟨by rw [left],?_⟩
      rw [left]
      simp only [CwdState.put]
      split
      · exact moved before
      · exact moved before
    · obtain ⟨x,wrote,first,num⟩ : ∃ x ∈ (appendName s name old r).2.wrote, x.first = _ ∧ x.num = 1 :=
        appendName_last
      refine .inl ⟨x,wrote,fun within => early (UInt64.toNat_inj.mp ?_)⟩
      have one : (1 : UInt64).toNat = 1 := rfl
      rw [ByteRange.Within,first,num] at within
      rw [behind,UInt64.toNat_sub_of_le _ _ (UInt64.le_iff_toNat_le.mpr (by omega)),one]
      omega
  · have lt := r.1.toNat_lt
    by_cases inside : r.1.toNat + name.length < 2^64
    · obtain ⟨x,wrote,first,num⟩ : ∃ x ∈ (appendName s name old r).2.wrote, x.first = _ ∧ x.num = 1 :=
        appendName_last
      refine .inl ⟨x,wrote,fun within => ?_⟩
      rw [ByteRange.Within,first,num,toNat_add_length short inside] at within
      omega
    · have other : 0 < s - r.1 := by
        apply UInt64.pos_iff_ne_zero.mpr
        intro zero
        have nothing := congrArg UInt64.toNat zero
        rw [UInt64.toNat_sub,UInt64.toNat_zero] at nothing
        omega
      have put : (⟨r.1.toNat,name.length⟩ : ByteRange) ∈ (r.2.put r.1 name).wrote := List.mem_cons_self
      have wrote : (⟨r.1.toNat,name.length⟩ : ByteRange) ∈ (appendName s name old r).2.wrote := by
        rw [appendName,if_pos other]
        split
        · exact List.mem_cons_of_mem _ put
        · exact List.mem_cons_of_mem _ (List.mem_cons_of_mem _ put)
      refine .inl ⟨_,wrote,fun within => ?_⟩
      rw [ByteRange.Within] at within
      dsimp only at within
      omega

end Append

/-- With room for the text every name is put into the buffer. -/
theorem Ascends.within (ascends : Ascends ops dir names ends) (fits : TextFits s names ends)
    (done : sysGetDirName ops s fuel dir st = some r) : Returns s st names ends r := by
  induction ascends generalizing fuel st r with
  | root this =>
    cases fuel with
    | zero => cases done
    | succ fuel =>
      rw [sysGetDirName_root this] at done
      cases done
      refine ⟨rfl,fun x wrote => ?_,rfl⟩
      rcases List.mem_cons.mp wrote with rfl | before
      · exact .inr (.inr fits)
      · exact .inl before
  | fails other opened error =>
    cases fuel with
    | zero => cases done
    | succ fuel =>
      rw [sysGetDirName_fails other opened error] at done
      cases done
      exact ⟨rfl,fun x before => .inl before,error_offset error⟩
  | @up dir par ret name names ends other opened ok named above ih =>
    cases fuel with
    | zero => cases done
    | succ fuel =>
      rw [sysGetDirName_up other opened ok named,Option.map_eq_some_iff] at done
      obtain ⟨r,inner,rfl⟩ := done
      have short := ops.short _ _ _ named
      obtain ⟨rfl,room⟩ := textFits_append.mp fits
      have fits' : TextFits s names true := by
        rw [TextFits]
        split <;> omega
      obtain ⟨_,writes,off⟩ := ih fits' inner
      have off : r.1.toNat = (cwdText names).length := off
      have lt := s.toNat_lt
      have behind : (r.1 + .ofNat name.length).toNat = r.1.toNat + name.length :=
      toNat_add_length short (by omega)
      have slash : (r.1 + .ofNat name.length + 1).toNat = r.1.toNat + name.length + 1 := by
        have one : (1 : UInt64).toNat = 1 := rfl
        rw [UInt64.toNat_add,behind,one]
        omega
      rw [appendName_fits short (by omega)]
      refine ⟨rfl,fun x wrote => ?_,?_⟩
      · simp only [CwdState.put,List.mem_cons] at wrote
        rcases wrote with rfl | rfl | rfl | before
        · refine .inr (.inr ?_)
          dsimp only
          rw [slash,off,List.length_singleton]
          omega
        · refine .inr (.inr ?_)
          dsimp only
          rw [behind,off,List.length_singleton]
          omega
        · refine .inr (.inr ?_)
          dsimp only
          omega
        · exact writes x before
      · rw [if_pos rfl,slash,cwdText_length_append]
        omega

/-- Without it something goes wrong. -/
theorem Ascends.spoilt (ascends : Ascends ops dir names ends) (few : s.toNat < 2^63)
    (tight : ¬TextFits s names ends) (outer : ∀ k < fuel, st.cwd ≠ .par k)
    (done : sysGetDirName ops s fuel dir st = some r) : Spoilt s st.cwd r := by
  induction ascends generalizing fuel st r with
  | root this =>
    cases fuel with
    | zero => cases done
    | succ fuel =>
      rw [sysGetDirName_root this] at done
      cases done
      refine .inl ⟨_,List.mem_cons_self,fun within => tight ?_⟩
      rcases within with none | room
      · cases none
      · exact room
  | fails => exact absurd rfl tight
  | @up dir par ret name names ends other opened ok named above ih =>
    cases fuel with
    | zero => cases done
    | succ fuel =>
      rw [sysGetDirName_up other opened ok named,Option.map_eq_some_iff] at done
      obtain ⟨r,inner,rfl⟩ := done
      have short := ops.short _ _ _ named
      by_cases fits : TextFits s names ends
      · obtain ⟨back,_,off⟩ := above.within fits inner
        refine appendName_spoilt short few ?_ fun _ => ?_
        · cases ends with
          | false =>
            have behind : 2^63 ≤ r.1.toNat := off
            omega
          | true =>
            have off : r.1.toNat = (cwdText names).length := off
            rw [off]
            exact Nat.not_le.mp fun room => tight (textFits_append.mpr ⟨rfl,room⟩)
        · rw [back]
          exact (outer fuel (Nat.lt_succ_self fuel)).symm
      · have apart : ∀ k < fuel, CwdPtr.par fuel ≠ .par k := by
          rintro k small ⟨⟩
          exact Nat.lt_irrefl _ small
        rcases ih fits apart inner with ⟨x,wrote,outside⟩ | ⟨early,_⟩
        · exact .inl ⟨x,appendName_wrote wrote,outside⟩
        · refine appendName_spoilt short few ?_ fun before => ?_
          · rw [early]
            omega
          · rw [early] at before
            exact absurd before (Nat.lt_irrefl _)

theorem Ascends.contained (ascends : Ascends ops dir names ends) (fits : TextFits s names ends) {buf : Store}
    {st : CwdState} (done : syscallGetcwd ops s fuel dir buf = some st) : st.Contained s := by
  obtain ⟨r,inner,rfl⟩ := Option.map_eq_some_iff.mp done
  obtain ⟨back,writes,_⟩ := ascends.within fits inner
  refine ⟨fun x wrote => ?_,back⟩
  rcases writes x wrote with before | within
  · cases List.mem_singleton.mp before
    exact .inr (Nat.le_of_eq (Nat.zero_add _))
  · exact within

/-- Every directory but the root is one called `a` in it. -/
def aBelow : DirOps := ⟨2,fun _ => some (0,⟨2,1,2⟩),fun _ _ => some [97],by rintro _ _ _ ⟨⟩; decide⟩

theorem aBelow_ascends : Ascends aBelow ⟨12,1,2⟩ [[97]] true :=
  show Ascends aBelow ⟨12,1,2⟩ ([] ++ [[97]]) true from .up (by decide) rfl (by decide) rfl (.root rfl)

section Claim

/-- `syscall_getcwd` is contained, for every buffer that there can be, exactly when the text
fits into it. -/
theorem getcwd_iff (ops : DirOps) (cwd : TaskDir) (s : UInt64) (buf : Store) :
    ((∀ names ends, Ascends ops cwd names ends → TextFits s names ends) →
      ∀ fuel st, syscallGetcwd ops s fuel cwd buf = some st → st.Contained s) ∧
    (s.toNat < 2^63 → (∀ fuel st, syscallGetcwd ops s fuel cwd buf = some st → st.Contained s) →
      ∀ names ends, Ascends ops cwd names ends → TextFits s names ends) := by
  constructor
  · intro fits fuel st done
    obtain ⟨r,inner,_⟩ := Option.map_eq_some_iff.mp done
    obtain ⟨names,ends,ascends⟩ := ascends_of_returns inner
    exact ascends.contained (fits names ends ascends) done
  · intro few all names ends ascends
    by_contra tight
    obtain ⟨r,inner⟩ := ascends.returns (Nat.lt_succ_self _)
      ⟨splice buf 0 s.toNat fun _ => 0,[⟨0,s.toNat⟩],.own⟩
    have contained := all _ r.2 (Option.map_eq_some_iff.mpr ⟨r,inner,rfl⟩)
    rcases ascends.spoilt few tight (by nofun) inner with ⟨x,wrote,outside⟩ | ⟨_,moved⟩
    · exact outside (contained.writes x wrote)
    · exact moved contained.back

/-- `/a/` takes four bytes. -/
theorem getcwd_iff_a : (∃ st, syscallGetcwd aBelow 4 2 ⟨12,1,2⟩ (fun _ => 0) = some st ∧ st.Contained 4) ∧
    ¬∀ fuel st, syscallGetcwd aBelow 3 fuel ⟨12,1,2⟩ (fun _ => 0) = some st → st.Contained 3 := by
  constructor
  · refine ⟨_,rfl,(getcwd_iff aBelow ⟨12,1,2⟩ 4 fun _ => 0).1 (fun names ends ascends => ?_) 2 _ rfl⟩
    obtain ⟨rfl,rfl⟩ := ascends.unique aBelow_ascends
    exact Nat.le_refl 4
  · intro all
    have fits := (getcwd_iff aBelow ⟨12,1,2⟩ 3 fun _ => 0).2 (by decide) all _ _ aBelow_ascends
    exact absurd (show 4 ≤ 3 from fits) (by decide)

/-- In three bytes there is no room for the last slash: `curr_task->cwd` stays at the `par`
of the call. -/
theorem getcwd_three : ¬∀ (ops : DirOps) (cwd : TaskDir) (s : UInt64) (buf : Store) (fuel : Nat) (st : CwdState),
    syscallGetcwd ops s fuel cwd buf = some st → st.Contained s := by
  intro all
  exact nomatch (all aBelow ⟨12,1,2⟩ 3 (fun _ => 0) 2 _ rfl).back

end Claim

end Siegfried
