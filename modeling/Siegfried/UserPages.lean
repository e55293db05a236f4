import Siegfried.FrameAlloc
import Siegfried.PaddrLookup

/-! `page_find_and_alloc_user` on pages whose tables exist: when every page asked for is the
user's afterwards, zeroed, and no other memory is written to. -/
namespace Siegfried

/-- The page `w` has a byte of `pgs` pages' worth of memory from `vaddr` on. -/
def InSpan (vaddr pgs w : Nat) : Prop := vaddr / 2097152 ≤ w ∧ w * 2097152 < vaddr + pgs * 2097152

/-- The page `w` is present in the table and the user's. -/
def Kernel.UserPage (k : Kernel) (tab w : Nat) : Prop :=
  canonical (w * 2097152) = true ∧ ∃ e, k.mapping tab (w * 2097152) = some e ∧ e.isuser = true

/-- A byte of memory is written to when what memory held can be seen not to stay there. -/
def Overwrites (call : Kernel → Option (Kernel × Nat)) (k : Kernel) (a : Nat) : Prop :=
  ∃ ram k' r, call { k with ram := ram } = some (k',r) ∧ k'.ram a ≠ ram a

/-- What a call is to do: every page is the user's, memory is written to only in frames of
pages that were not mapped, these are zero, and the pages that were mapped, in any table, keep
their frames and what is in them. -/
structure UserAllocated (call : Kernel → Option (Kernel × Nat)) (roots : List Nat) (k : Kernel)
    (tab vaddr pgs : Nat) (k' : Kernel) : Prop where
  returned : call k = some (k',vaddr)
  mapped : ∀ w, InSpan vaddr pgs w → k'.UserPage tab w
  inside : ∀ a, Overwrites call k a →
    ∃ v, k.mapping tab v = none ∧ k'.translate tab v = some (a / 2097152)
  zero : ∀ v a, k.mapping tab v = none → k'.translate tab v = some (a / 2097152) → k'.ram a = 0
  kept : ∀ s ∈ roots, ∀ v f, k.translate s v = some f → k'.translate s v = some f ∧
    ∀ a, a / 2097152 = f → ¬Overwrites call k a

/-- The next `n` frames that are free, from `off` on. -/
def nextFrames (k : Kernel) : Nat → Nat → Option (List Nat)
  | 0, _ => some []
  | n + 1, off => do
    let f ← nextFree k (2^27 - off) off
    let rest ← nextFrames k n (f + 1)
    some (f :: rest)

/-- Any frame is free, and every page is the user's already. -/
def AllUser (k : Kernel) (tab vaddr pgs : Nat) : Prop :=
  (∃ i, nextFree { k with cr3 := k.pml4Table } (frameBound pgs) 0 = some i) ∧
    ∀ w, InSpan vaddr pgs w → k.UserPage tab w

/-- The address is that of a page, none of the pages is mapped, and there are enough free
frames, with nothing mapped to them. -/
def FreshRun (roots : List Nat) (k : Kernel) (tab vaddr pgs : Nat) : Prop :=
  vaddr % 2097152 = 0 ∧
  (∀ i < pgs, canonical (vaddr + i * 2097152) = true ∧ k.mapping tab (vaddr + i * 2097152) = none) ∧
  ∃ i fs, nextFree { k with cr3 := k.pml4Table } (frameBound pgs) 0 = some i ∧
    nextFrames { k with cr3 := k.pml4Table } pgs i = some fs ∧
    ∀ s ∈ roots, ∀ v f, k.translate s v = some f → f ∉ fs

variable {root tab : Nat} {bufs roots : List Nat} {k k' : Kernel}
  {alloc : Kernel → Option (Kernel × Nat)}

theorem openTable_present {missing : Entry → Bool} {fresh flags : Entry → Entry} {p : Nat} {i : Fin 512}
    (there : missing (k.tables p i) = false) :
    openTable alloc missing fresh flags k p i = some (k.setEntry p i (flags (k.tables p i))) := by
  simp only [openTable,there]
  rfl

/-- Opening a table without a page to take goes the same way with any source of pages and
whatever memory holds. -/
theorem openTable_any {missing : Entry → Bool} {fresh flags : Entry → Entry} {p : Nat} {i : Fin 512}
    (h : openTable (fun _ => none) missing fresh flags k p i = some k') :
    openTable alloc missing fresh flags k p i = some k' ∧
      ∀ ram, openTable alloc missing fresh flags { k with ram := ram } p i = some { k' with ram := ram } := by
  cases there : missing (k.tables p i) with
  | true =>
    simp only [openTable,there] at h
    cases h
  | false =>
    cases (openTable_present there).symm.trans h
    exact ⟨openTable_present there,fun ram => openTable_present (k := { k with ram := ram }) there⟩

theorem mapPage_any {style : MapStyle} {phy vir : Nat}
    (h : mapPage style (fun _ => none) k tab phy vir = some k') :
    mapPage style alloc k tab phy vir = some k' ∧
      ∀ ram, mapPage style alloc { k with ram := ram } tab phy vir = some { k' with ram := ram } := by
  simp only [mapPage,Option.bind_eq_bind,Option.bind_eq_some_iff,Option.some.injEq] at h ⊢
  obtain ⟨k1,first,k2,second,rfl⟩ := h
  exact ⟨⟨_,(openTable_any first).1,_,(openTable_any second).1,rfl⟩,
    fun ram => ⟨_,(openTable_any first).2 ram,_,(openTable_any second).2 ram,rfl⟩⟩

theorem Kernel.region_slot {v : Nat} : k.region tab v ↔ ∃ e, k.slot tab v = some e := by
  rw [Kernel.region,Kernel.slot,Forest.read]
  cases Forest.walk Entry.child k.tables tab [pml4i v,pdptei v] with
  | none => simp
  | some pd => simp

/-- Where the tables exist, mapping a page takes no page from the heap. -/
theorem mapPage_noPage (pool : Pool root bufs roots k) (hr : tab ∈ roots) {style : MapStyle}
    (ok : style.Ok) (phy : Nat) {vir : Nat} (region : k.region tab vir) :
    ∃ k', mapPage style (fun _ => none) k tab phy vir = some k' := by
  have source := takePage_pool root bufs
  obtain ⟨e,slot⟩ := Kernel.region_slot.mp region
  have top : (!(k.tables tab (pml4i vir)).present) = false := by
    rcases pool.lookup source hr vir with ⟨_,absent⟩ | ⟨present,_⟩ | ⟨present,_⟩
    · exact absurd region absent
    · simpa using present
    · simpa using present
  have opened : openTable takePage (fun e => !e.present) id style.pml4e k tab (pml4i vir) = some _ :=
    openTable_present top
  have here := openTable_opened source pool hr (Forest.walk_nil tab) (by decide)
    (fun e absent => by simp [absent]) (fun e there _ => by simp [there]) (fun _ => ⟨rfl,rfl⟩)
    ok.pml4e (by simp) opened
  have kept := openTable_slot source pool hr (Forest.walk_nil tab) (by decide)
    (fun e absent => by simp [absent]) (fun e there _ => by simp [there]) (fun _ => rfl)
    ok.pml4e opened hr slot
  have first : openTable (fun _ => none) (fun e => !e.present) id style.pml4e k tab (pml4i vir) = some _ :=
    openTable_present top
  generalize k.setEntry tab (pml4i vir) (style.pml4e (k.tables tab (pml4i vir))) = k1 at here kept first
  obtain ⟨pd,reach⟩ := Kernel.region_slot.mpr ⟨e,kept⟩
  have start := (source.usable here.tabs.good (here.tabs.valid.inside hr (by simp) reach)).1
  rw [← here.tabs.pdeiTable source hr reach,pdeiTable] at start
  have bottom : style.missing (k1.tables (k1.tables tab (pml4i vir)).getPaddr (pdptei vir)) = false := by
    rcases here.tabs.lookup source hr vir with ⟨_,absent⟩ | ⟨_,_,absent⟩ | ⟨_,present,_⟩
    · exact absurd ⟨pd,reach⟩ absent
    · exact absurd ⟨pd,reach⟩ absent
    · exact ok.there _ present start
  have second : openTable (fun _ => none) style.missing style.fresh style.pdpte k1
      (k1.tables tab (pml4i vir)).getPaddr (pdptei vir) = some _ := openTable_present bottom
  simp only [mapPage,Option.bind_eq_bind,Option.bind_eq_some_iff]
  exact ⟨_,_,first,_,second,rfl⟩

/-- Only the marks from `f` on count. -/
theorem nextFree_congr {n f : Nat} (cr3 : k'.cr3 = k.cr3) (root : k'.pml4Table = k.pml4Table)
    (avail : k'.availMem = k.availMem) (marks : ∀ g, f ≤ g → k'.physMemMap g = k.physMemMap g) :
    nextFree k' n f = nextFree k n f := by
  induction n generalizing f with
  | zero => rfl
  | succ n ih =>
    have here : pagePhysmemmapIsUsed k' (f * 2097152) = pagePhysmemmapIsUsed k (f * 2097152) := by
      simp only [pagePhysmemmapIsUsed,cr3,root,avail,Nat.mul_div_cancel f (show 0 < 2097152 by decide)]
      rw [marks f (Nat.le_refl f)]
    rw [nextFree,nextFree,here,ih fun g hg => marks g (by omega)]

theorem nextFrames_congr {n off : Nat} (cr3 : k'.cr3 = k.cr3) (root : k'.pml4Table = k.pml4Table)
    (avail : k'.availMem = k.availMem) (marks : ∀ g, off ≤ g → k'.physMemMap g = k.physMemMap g) :
    nextFrames k' n off = nextFrames k n off := by
  induction n generalizing off with
  | zero => rfl
  | succ n ih =>
    rw [nextFrames,nextFrames,nextFree_congr cr3 root avail marks]
    cases found : nextFree k (2^27 - off) off with
    | none => rfl
    | some f =>
      have later := (nextFree_spec found).1
      simp only [Option.bind_eq_bind,Option.bind_some]
      rw [ih fun g hg => marks g (by omega)]

theorem nextFrames_few {n off : Nat} {fs : List Nat} (h : nextFrames k n off = some fs) :
    n = 0 ∨ off + n ≤ 2^27 := by
  induction n generalizing off fs with
  | zero => exact .inl rfl
  | succ n ih =>
    simp only [nextFrames,Option.bind_eq_bind,Option.bind_eq_some_iff] at h
    obtain ⟨f,found,rest,more,_⟩ := h
    obtain ⟨lower,upper,_,_⟩ := nextFree_spec found
    have := ih more
    omega

theorem nextFrames_length {n off : Nat} {fs : List Nat} (h : nextFrames k n off = some fs) : fs.length = n := by
  induction n generalizing off fs with
  | zero =>
    cases h
    rfl
  | succ n ih =>
    simp only [nextFrames,Option.bind_eq_bind,Option.bind_eq_some_iff,Option.some.injEq] at h
    obtain ⟨f,_,rest,more,rfl⟩ := h
    rw [List.length_cons,ih more]

/-- A run of pages mapped to the frames `fs`, in the same way for any source of pages and
whatever memory holds. -/
structure RunMapped (root : Nat) (bufs roots : List Nat) (tab addr n pi off : Nat) (fs : List Nat)
    (k k' : Kernel) : Prop where
  run : ∀ alloc ram, allocPages (fun k => pageAllocTab alloc k tab) addr n pi { k with ram := ram } off =
    some { k' with ram := ram }
  pool : Pool root bufs roots k'
  kept : Kept roots (fun s v => s = tab ∧ ∃ i, pi ≤ i ∧ i < pi + n ∧ page v = page (addr + i * 2097152)) k k'
  pages : ∀ i, pi ≤ i → i < pi + n → ∃ e, k'.mapping tab (addr + i * 2097152) = some e ∧
    fs[i - pi]? = some e.frame ∧ e.isuser = true

/-- One page more in front. -/
theorem RunMapped.cons {m : Kernel} {addr n pi f off : Nat} {fs : List Nat} (pool : Pool root bufs roots k)
    (hr : tab ∈ roots) (few : pi + (n + 1) ≤ 2^27) (found : nextFree k (2^27 - off) off = some f)
    (mapped : mapPage userStyle (fun _ => none) k tab (f * 2097152) (addr + pi * 2097152) = some m)
    (rest : RunMapped root bufs roots tab addr n (pi + 1) (f + 1) fs m k') :
    RunMapped root bufs roots tab addr (n + 1) pi off (f :: fs) k k' := by
  have source := takePage_pool root bufs
  have taken : mapPage userStyle takePage k tab (f * 2097152) (addr + pi * 2097152) = some m :=
    (mapPage_any mapped).1
  obtain ⟨_,⟨old,here⟩,_⟩ := mapPage_mapping source userStyle_ok pool hr taken
  obtain ⟨_,kept⟩ := mapPage_kept source takePage_steady userStyle_ok pool hr taken
  refine ⟨fun alloc ram => ?_,rest.pool,(kept.trans rest.kept).weaken ?_,fun i lower upper => ?_⟩
  · have same : nextFree { k with ram := ram } (2^27 - off) off = nextFree k (2^27 - off) off :=
      nextFree_congr rfl rfl rfl fun _ _ => rfl
    rw [← same] at found
    have mapped : pageAllocTab alloc { k with ram := ram } tab (f * 2097152) (addr + pi * 2097152) = _ :=
      (mapPage_any mapped).2 ram
    simp only [allocPages,found,mapped,Option.bind_eq_bind,Option.bind_some]
    exact rest.run alloc ram
  · rintro s v (⟨table,same⟩ | ⟨table,i,lower,upper,same⟩)
    · exact ⟨table,pi,Nat.le_refl pi,by omega,same⟩
    · exact ⟨table,i,by omega,by omega,same⟩
  · by_cases first : i = pi
    · subst first
      refine ⟨_,(rest.kept.mapping tab hr _ ?_).trans here,?_,rfl⟩
      · rintro ⟨_,j,lower,upper,same⟩
        exact page_ne (by omega) (by omega) same
      · obtain ⟨_,_,_,_⟩ := nextFree_spec found
        have frame : (userStyle.pde (f * 2097152) old).frame = f := by
          rw [(userStyle_ok.pde (f * 2097152) old).2.1,show 2^21 = 2097152 from rfl,
            Nat.mul_div_cancel f (by decide),Nat.mod_eq_of_lt (by omega)]
        rw [frame,Nat.sub_self,List.getElem?_cons_zero]
    · obtain ⟨e,mapping,frame,user⟩ := rest.pages i (by omega) (by omega)
      refine ⟨e,mapping,?_,user⟩
      rw [show i - pi = i - (pi + 1) + 1 by omega,List.getElem?_cons_succ,frame]

/-- With enough free frames the loop maps the run to the first of them, and without it does
not come to an end. -/
theorem allocPages_frames {addr n pi : Nat} (off : Nat) (pool : Pool root bufs roots k)
    (hr : tab ∈ roots) (few : pi + n ≤ 2^27)
    (region : ∀ i, pi ≤ i → i < pi + n → k.region tab (addr + i * 2097152)) :
    match nextFrames k n off with
    | none => ∀ alloc, allocPages (fun k => pageAllocTab alloc k tab) addr n pi k off = none
    | some fs => ∃ k', RunMapped root bufs roots tab addr n pi off fs k k' := by
  induction n generalizing k pi off with
  | zero =>
    exact ⟨k,fun _ _ => rfl,pool,⟨fun _ _ _ _ => rfl,fun _ mark => mark,rfl,rfl,rfl,rfl⟩,
      fun i lower upper => absurd upper (Nat.not_lt.mpr lower)⟩
  | succ n ih =>
    cases found : nextFree k (2^27 - off) off with
    | none =>
      simp only [nextFrames,found,Option.bind_eq_bind,Option.bind_none]
      intro alloc
      simp only [allocPages,found,Option.bind_eq_bind,Option.bind_none]
    | some f =>
      obtain ⟨m,mapped⟩ := mapPage_noPage pool hr userStyle_ok (f * 2097152) (region pi (Nat.le_refl pi) (by omega))
      have source := takePage_pool root bufs
      have taken : mapPage userStyle takePage k tab (f * 2097152) (addr + pi * 2097152) = some m :=
        (mapPage_any mapped).1
      obtain ⟨pool',kept⟩ := mapPage_kept source takePage_steady userStyle_ok pool hr taken
      have tables := (mapPage_region source userStyle_ok pool hr (region pi (Nat.le_refl pi) (by omega)) taken).2
      have region' (i : Nat) (lower : pi + 1 ≤ i) (upper : i < pi + 1 + n) :
          m.region tab (addr + i * 2097152) := (tables _).mpr (region i (by omega) (by omega))
      have marked := (mapPage_still takePage_steady taken).2
      rw [Nat.mul_div_cancel f (by decide)] at marked
      have later : nextFrames m n (f + 1) = nextFrames k n (f + 1) := by
        refine nextFrames_congr kept.cr3 kept.pml4Table kept.availMem fun g hg => ?_
        rw [marked,Function.update_of_ne (by omega)]
      have rest := ih (f + 1) pool' (by omega) region'
      rw [later] at rest
      simp only [nextFrames,found,Option.bind_eq_bind,Option.bind_some]
      cases frames : nextFrames k n (f + 1) with
      | none =>
        rw [frames] at rest
        intro alloc
        have first : pageAllocTab alloc k tab (f * 2097152) (addr + pi * 2097152) = some m :=
          (mapPage_any mapped).1
        simp only [allocPages,found,first,Option.bind_eq_bind,Option.bind_some]
        exact rest alloc
      | some fs =>
        rw [frames] at rest
        obtain ⟨k',run⟩ := rest
        exact ⟨k',run.cons pool hr few found mapped⟩

/-- The bytes of memory behind `[lo,hi)` in the `n` pages from the page `w` on. -/
def Behind (k : Kernel) (tab lo hi n w a : Nat) : Prop :=
  ∃ i, w ≤ i ∧ i < w + n ∧ ∃ e, k.mapping tab (i * 2097152) = some e ∧
    e.frame * 2097152 + (max lo (i * 2097152) - i * 2097152) ≤ a ∧
    a < e.frame * 2097152 + (min hi (i * 2097152 + 2097152) - i * 2097152)

theorem Kernel.userPage_ram {ram : Nat → UInt8} {w : Nat} :
    Kernel.UserPage { k with ram := ram } tab w ↔ k.UserPage tab w := Iff.rfl

theorem zeroUser_user {lo hi n w : Nat} (h : zeroUser tab lo hi n w k = some k') :
    ∀ i, w ≤ i → i < w + n → k.UserPage tab i := by
  induction n generalizing k w with
  | zero => exact fun i lower upper => absurd upper (Nat.not_lt.mpr lower)
  | succ n ih =>
    simp only [zeroUser,Option.bind_eq_bind,Option.bind_eq_some_iff] at h
    obtain ⟨e,mapping,h⟩ := h
    split at h
    · cases h
    · next ok =>
      simp only [Bool.or_eq_true,Bool.not_eq_true',not_or,Bool.not_eq_false] at ok
      intro i lower upper
      by_cases first : i = w
      · subst first
        exact ⟨ok.1,e,mapping,ok.2⟩
      · exact Kernel.userPage_ram.mp (ih h i (by omega) (by omega))

/-- What is zeroed of the user's pages. -/
theorem zeroUser_behind (lo hi : Nat) {n w : Nat} (user : ∀ i, w ≤ i → i < w + n → k.UserPage tab i) :
    ∃ ram, zeroUser tab lo hi n w k = some { k with ram := ram } ∧
      ∀ a, (Behind k tab lo hi n w a → ram a = 0) ∧ (¬Behind k tab lo hi n w a → ram a = k.ram a) := by
  induction n generalizing k w with
  | zero =>
    refine ⟨k.ram,rfl,fun a => ⟨?_,fun _ => rfl⟩⟩
    rintro ⟨i,lower,upper,_⟩
    omega
  | succ n ih =>
    obtain ⟨range,e,mapping,isuser⟩ := user w (Nat.le_refl w) (by omega)
    obtain ⟨ram0,first⟩ : ∃ ram0 : Nat → UInt8, ram0 = fun a =>
        if e.frame * 2097152 + (max lo (w * 2097152) - w * 2097152) ≤ a ∧
          a < e.frame * 2097152 + (min hi (w * 2097152 + 2097152) - w * 2097152) then 0 else k.ram a :=
      ⟨_,rfl⟩
    obtain ⟨ram,zeroed,rest⟩ := ih (k := { k with ram := ram0 }) (w := w + 1)
      fun i lower upper => user i (by omega) (by omega)
    refine ⟨ram,?_,fun a => ⟨?_,fun out => ?_⟩⟩
    · subst first
      simp only [zeroUser,mapping,range,isuser,Option.bind_eq_bind,Option.bind_some,Bool.not_true,
        Bool.or_self,Bool.false_eq_true,if_false]
      exact zeroed
    · rintro ⟨i,lower,upper,e',mapping',start,stop⟩
      by_cases later : Behind k tab lo hi n (w + 1) a
      · exact (rest a).1 later
      · rw [(rest a).2 later]
        by_cases same : i = w
        · subst same
          cases mapping.symm.trans mapping'
          rw [first]
          exact if_pos ⟨start,stop⟩
        · exact absurd ⟨i,by omega,by omega,e',mapping',start,stop⟩ later
    · have later : ¬Behind k tab lo hi n (w + 1) a := by
        rintro ⟨i,lower,upper,found⟩
        exact out ⟨i,by omega,by omega,found⟩
      rw [(rest a).2 later,first]
      refine if_neg fun here => out ⟨w,Nat.le_refl w,by omega,e,mapping,here⟩

/-- The entry that `page_lookup_pdei_tab` finds. -/
theorem pageLookupPdeiTab_region (pool : Pool root bufs roots k) (hr : tab ∈ roots) {v pd : Nat}
    (reach : Forest.walk Entry.child k.tables tab [pml4i v,pdptei v] = some pd) :
    pageLookupPdeiTab k tab v = (pd,pdei v) := by
  have source := takePage_pool root bufs
  rw [show [pml4i v,pdptei v] = [pml4i v] ++ [pdptei v] from rfl,Forest.walk_snoc] at reach
  obtain ⟨pdpt,first,second⟩ := Option.bind_eq_some_iff.mp reach
  obtain ⟨_,start,top,_⟩ := pool.getPaddr source hr (Forest.walk_nil tab) (by simp)
    (show (k.tables tab (pml4i v)).child = some pdpt by simpa [Forest.walk_cons] using first)
  obtain ⟨_,start',bottom,_⟩ := pool.getPaddr source hr first (by simp) second
  have table : pdpt ≠ 0 := Nat.ne_of_gt start
  have table' : pd ≠ 0 := Nat.ne_of_gt start'
  simp only [pageLookupPdeiTab,top,bottom,table,table',if_false]

theorem isMappedUser_iff (pool : Pool root bufs roots k) (hr : tab ∈ roots) {v : Nat}
    (region : k.region tab v) :
    isMappedUser k tab v = true ↔ ∃ e, k.mapping tab v = some e ∧ e.isuser = true := by
  obtain ⟨pd,reach⟩ := region
  have mapping : k.mapping tab v = (some (k.tables pd (pdei v))).filter (·.present) := by
    rw [Kernel.mapping,Forest.read,reach]
    rfl
  rw [isMappedUser,pageLookupPdeiTab_region pool hr reach,mapping]
  simp only [Bool.and_eq_true,Option.filter_eq_some_iff,Option.some.injEq]
  constructor
  · rintro ⟨present,user⟩
    exact ⟨_,⟨rfl,present⟩,user⟩
  · rintro ⟨e,⟨rfl,present⟩,user⟩
    exact ⟨present,user⟩

section Call
variable {vaddr pgs i : Nat} {fs : List Nat} {m : Kernel}

theorem inSpan_iff {w : Nat} (any : 1 ≤ pgs) : InSpan vaddr pgs w ↔ vaddr / 2097152 ≤ w ∧
    w < vaddr / 2097152 + ((vaddr + pgs * 2097152 - 1) / 2097152 + 1 - vaddr / 2097152) := by
  rw [InSpan]
  omega

/-- The first page is the user's: the call returns at once. -/
theorem userCall_mapped (alloc : Kernel → Option (Kernel × Nat)) (pgs : Nat) (mapped : isMappedUser k tab vaddr = true) (ram : Nat → UInt8) :
    pageFindAndAllocUser alloc { k with ram := ram } tab vaddr pgs =
      (nextFree { k with cr3 := k.pml4Table } (frameBound pgs) 0).map
        fun _ => ({ k with ram := ram },vaddr) := by
  have same : nextFree { k with ram := ram, cr3 := k.pml4Table } (frameBound pgs) 0 =
      nextFree { k with cr3 := k.pml4Table } (frameBound pgs) 0 := nextFree_congr rfl rfl rfl fun _ _ => rfl
  have test : isMappedUser { k with ram := ram, cr3 := k.pml4Table } tab vaddr = true := mapped
  simp only [pageFindAndAllocUser,same,test,if_true,Option.bind_eq_bind]
  cases nextFree { k with cr3 := k.pml4Table } (frameBound pgs) 0 <;> rfl

/-- It is not: the pages are mapped and zeroed. -/
theorem userCall_fresh (fresh : isMappedUser k tab vaddr = false) (any : 1 ≤ pgs)
    (found : nextFree { k with cr3 := k.pml4Table } (frameBound pgs) 0 = some i)
    (run : RunMapped root bufs roots tab vaddr pgs 0 i fs { k with cr3 := k.pml4Table } m)
    (ram : Nat → UInt8) :
    pageFindAndAllocUser alloc { k with ram := ram } tab vaddr pgs =
      (zeroUser tab vaddr (vaddr + pgs * 2097152)
        ((vaddr + pgs * 2097152 - 1) / 2097152 + 1 - vaddr / 2097152) (vaddr / 2097152)
        { m with ram := ram, cr3 := tab }).map fun k' => ({ k' with cr3 := k.cr3 },vaddr) := by
  have same : nextFree { k with ram := ram, cr3 := k.pml4Table } (frameBound pgs) 0 =
      nextFree { k with cr3 := k.pml4Table } (frameBound pgs) 0 := nextFree_congr rfl rfl rfl fun _ _ => rfl
  have test : isMappedUser { k with ram := ram, cr3 := k.pml4Table } tab vaddr = false := fresh
  have mapped := run.run alloc ram
  have more : pgs ≠ 0 := Nat.ne_of_gt any
  rw [pageFindAndAllocUser]
  dsimp only
  rw [same,found]
  simp only [Option.bind_eq_bind,Option.bind_some]
  rw [test,if_neg Bool.false_ne_true,if_neg more,mapped,Option.bind_some,Option.map_eq_bind]
  rfl

theorem userCall_frames {r : Kernel × Nat} (fresh : isMappedUser k tab vaddr = false)
    (h : pageFindAndAllocUser alloc k tab vaddr pgs = some r) :
    ∃ i m, nextFree { k with cr3 := k.pml4Table } (frameBound pgs) 0 = some i ∧
      allocPages (fun k => pageAllocTab alloc k tab) vaddr pgs 0 { k with cr3 := k.pml4Table } i = some m := by
  have test : isMappedUser { k with cr3 := k.pml4Table } tab vaddr = false := fresh
  simp only [pageFindAndAllocUser,test,Option.bind_eq_bind,Option.bind_eq_some_iff,Bool.false_eq_true,
    if_false] at h
  obtain ⟨i,found,h⟩ := h
  split at h
  · cases h
  · obtain ⟨m,mapped,_⟩ := Option.bind_eq_some_iff.mp h
    exact ⟨i,m,found,mapped⟩

/-- The bytes that a call zeroes when it maps pages. -/
def Zeroed (m : Kernel) (tab vaddr pgs a : Nat) : Prop :=
  Behind m tab vaddr (vaddr + pgs * 2097152)
    ((vaddr + pgs * 2097152 - 1) / 2097152 + 1 - vaddr / 2097152) (vaddr / 2097152) a

/-- From the start of a page on these are all bytes of the frames. -/
theorem zeroed_aligned {a : Nat} (aligned : vaddr % 2097152 = 0) : Zeroed m tab vaddr pgs a ↔
    ∃ j < pgs, m.translate tab (vaddr + j * 2097152) = some (a / 2097152) := by
  have whole (j f : Nat) (inside : j < pgs) :
      (f * 2097152 + (max vaddr (vaddr + j * 2097152) - (vaddr + j * 2097152)) ≤ a ∧
        a < f * 2097152 + (min (vaddr + pgs * 2097152) (vaddr + j * 2097152 + 2097152) -
          (vaddr + j * 2097152))) ↔ f = a / 2097152 := by
    omega
  constructor
  · rintro ⟨i,lower,upper,e,mapping,start,stop⟩
    obtain ⟨j,rfl⟩ := Nat.exists_eq_add_of_le lower
    have inside : j < pgs := by omega
    have place : (vaddr / 2097152 + j) * 2097152 = vaddr + j * 2097152 := by omega
    rw [place] at mapping start stop
    have frame := (whole j e.frame inside).mp ⟨start,stop⟩
    exact ⟨j,inside,by rw [Kernel.translate,mapping,← frame]; rfl⟩
  · rintro ⟨j,inside,found⟩
    obtain ⟨e,mapping,frame⟩ := Option.map_eq_some_iff.mp found
    have place : (vaddr / 2097152 + j) * 2097152 = vaddr + j * 2097152 := by omega
    obtain ⟨start,stop⟩ := (whole j e.frame inside).mpr frame
    rw [← place] at mapping start stop
    exact ⟨_,Nat.le_add_right ..,by omega,e,mapping,start,stop⟩

/-- From the middle of a page on, the last page that is zeroed is not one of those mapped. -/
theorem zeroed_beyond {e : Entry} (unaligned : vaddr % 2097152 ≠ 0)
    (mapping : m.mapping tab ((vaddr / 2097152 + pgs) * 2097152) = some e) (any : 1 ≤ pgs) :
    Zeroed m tab vaddr pgs (e.frame * 2097152) := by
  refine ⟨vaddr / 2097152 + pgs,Nat.le_add_right ..,by omega,e,mapping,?_,?_⟩
  · omega
  · omega

section Fresh
variable (fresh : isMappedUser k tab vaddr = false) (any : 1 ≤ pgs)
  (found : nextFree { k with cr3 := k.pml4Table } (frameBound pgs) 0 = some i)
  (run : RunMapped root bufs roots tab vaddr pgs 0 i fs { k with cr3 := k.pml4Table } m)
include fresh any found run

theorem fresh_user {r : Kernel × Nat} (ram : Nat → UInt8)
    (h : pageFindAndAllocUser alloc { k with ram := ram } tab vaddr pgs = some r) :
    ∀ w, InSpan vaddr pgs w → m.UserPage tab w := by
  rw [userCall_fresh fresh any found run] at h
  obtain ⟨k',zeroed,rfl⟩ := Option.map_eq_some_iff.mp h
  intro w inside
  obtain ⟨lower,upper⟩ := (inSpan_iff any).mp inside
  exact zeroUser_user zeroed w lower upper

theorem fresh_call (alloc : Kernel → Option (Kernel × Nat)) (user : ∀ w, InSpan vaddr pgs w → m.UserPage tab w) (ram : Nat → UInt8) :
    ∃ after, pageFindAndAllocUser alloc { k with ram := ram } tab vaddr pgs =
        some ({ m with cr3 := k.cr3, ram := after },vaddr) ∧
      ∀ a, (Zeroed m tab vaddr pgs a → after a = 0) ∧ (¬Zeroed m tab vaddr pgs a → after a = ram a) := by
  have pages : ∀ w, vaddr / 2097152 ≤ w →
      w < vaddr / 2097152 + ((vaddr + pgs * 2097152 - 1) / 2097152 + 1 - vaddr / 2097152) →
      Kernel.UserPage { m with ram := ram, cr3 := tab } tab w :=
    fun w lower upper => user w ((inSpan_iff any).mpr ⟨lower,upper⟩)
  obtain ⟨after,zeroed,bytes⟩ := zeroUser_behind vaddr (vaddr + pgs * 2097152) pages
  refine ⟨after,?_,bytes⟩
  rw [userCall_fresh fresh any found run,zeroed]
  rfl

theorem fresh_overwrites (alloc : Kernel → Option (Kernel × Nat)) (user : ∀ w, InSpan vaddr pgs w → m.UserPage tab w) (a : Nat) :
    Overwrites (fun k => pageFindAndAllocUser alloc k tab vaddr pgs) k a ↔ Zeroed m tab vaddr pgs a := by
  constructor
  · rintro ⟨ram,k',r,ran,changed⟩
    obtain ⟨after,returned,bytes⟩ := fresh_call fresh any found run alloc user ram
    cases returned.symm.trans ran
    by_contra out
    exact changed ((bytes a).2 out)
  · intro zeroed
    obtain ⟨after,returned,bytes⟩ := fresh_call fresh any found run alloc user fun _ => 1
    refine ⟨_,_,_,returned,?_⟩
    change after a ≠ 1
    rw [(bytes a).1 zeroed]
    decide

end Fresh

theorem allocated_mapped (mapped : isMappedUser k tab vaddr = true) :
    (∃ k', UserAllocated (fun k => pageFindAndAllocUser alloc k tab vaddr pgs) roots k tab vaddr pgs k') ↔
      AllUser k tab vaddr pgs := by
  have call (ram : Nat → UInt8) := userCall_mapped alloc pgs mapped ram
  constructor
  · rintro ⟨k',done⟩
    have returned := (call k.ram).symm.trans done.returned
    obtain ⟨i,found,same⟩ := Option.map_eq_some_iff.mp returned
    cases same
    exact ⟨⟨i,found⟩,done.mapped⟩
  · rintro ⟨⟨i,found⟩,user⟩
    have never (a : Nat) : ¬Overwrites (fun k => pageFindAndAllocUser alloc k tab vaddr pgs) k a := by
      rintro ⟨ram,k',r,ran,changed⟩
      have ran := (call ram).symm.trans ran
      rw [found] at ran
      cases ran
      exact changed rfl
    refine ⟨k,(call k.ram).trans (by rw [found]; rfl),user,fun a writes => (never a writes).elim,?_,?_⟩
    · intro v a absent present
      rw [Kernel.translate,absent] at present
      cases present
    · exact fun s _ v f present => ⟨present,fun a _ => never a⟩

section Promise
variable (pool : Pool root bufs roots k) (hr : tab ∈ roots) (any : 1 ≤ pgs)
  (region : ∀ i < pgs, k.region tab (vaddr + i * 2097152))
include pool hr any region

omit any in
/-- The loop over the pages, with the kernel's table current. -/
theorem frames_run (i : Nat) (few : 0 + pgs ≤ 2^27) : match nextFrames { k with cr3 := k.pml4Table } pgs i with
    | none => ∀ alloc, allocPages (fun k => pageAllocTab alloc k tab) vaddr pgs 0
        { k with cr3 := k.pml4Table } i = none
    | some fs => ∃ m, RunMapped root bufs roots tab vaddr pgs 0 i fs { k with cr3 := k.pml4Table } m := by
  have pool0 : Pool root bufs roots { k with cr3 := k.pml4Table } := pool.agree pool.good
    (fun _ hq => hq) fun _ _ => rfl
  exact allocPages_frames i pool0 hr few fun i _ inside => region i (by omega)

omit any in
/-- A call that returns has mapped the run. -/
theorem returned_run {r : Kernel × Nat} (fresh : isMappedUser k tab vaddr = false)
    (h : pageFindAndAllocUser alloc k tab vaddr pgs = some r) :
    pgs < 2^27 ∧ ∃ i fs m, nextFree { k with cr3 := k.pml4Table } (frameBound pgs) 0 = some i ∧
      nextFrames { k with cr3 := k.pml4Table } pgs i = some fs ∧
      RunMapped root bufs roots tab vaddr pgs 0 i fs { k with cr3 := k.pml4Table } m := by
  obtain ⟨i,_,found,mapped⟩ := userCall_frames fresh h
  have few := allocPages_few mapped
  have bound := (nextFree_spec found).2.1
  rw [frameBound,if_pos (by omega)] at bound
  have frames := frames_run pool hr region i (by omega)
  cases next : nextFrames { k with cr3 := k.pml4Table } pgs i with
  | none =>
    rw [next] at frames
    cases (frames alloc).symm.trans mapped
  | some fs =>
    rw [next] at frames
    obtain ⟨m,run⟩ := frames
    exact ⟨by omega,i,fs,m,found,next,run⟩

theorem allocated_fresh (fresh : isMappedUser k tab vaddr = false) :
    (∃ k', UserAllocated (fun k => pageFindAndAllocUser alloc k tab vaddr pgs) roots k tab vaddr pgs k') ↔
      FreshRun roots k tab vaddr pgs := by
  constructor
  · rintro ⟨k',done⟩
    obtain ⟨few,i,fs,m,found,next,run⟩ := returned_run pool hr region fresh done.returned
    have user := fresh_user fresh any found run k.ram done.returned
    have writes := fresh_overwrites fresh any found run alloc user
    -- a page that was mapped is not mapped to a frame that is written to
    have safe {s v f : Nat} (hs : s ∈ roots) (before : k.translate s v = some f) :
        ¬Zeroed m tab vaddr pgs (f * 2097152) := fun zeroed =>
      (done.kept s hs v f before).2 _ (Nat.mul_div_cancel f (by decide)) ((writes _).mpr zeroed)
    have aligned : vaddr % 2097152 = 0 := by
      by_contra unaligned
      obtain ⟨_,e,mapping,_⟩ := user (vaddr / 2097152 + pgs) (by rw [InSpan]; omega)
      have before : k.mapping tab ((vaddr / 2097152 + pgs) * 2097152) = some e := by
        refine (run.kept.mapping tab hr _ ?_).symm.trans mapping
        rintro ⟨_,j,_,inside,same⟩
        simp only [page] at same
        omega
      exact safe hr (by rw [Kernel.translate,before]; rfl) (zeroed_beyond unaligned mapping any)
    have place (j : Nat) : (vaddr / 2097152 + j) * 2097152 = vaddr + j * 2097152 := by omega
    have frame (j : Nat) (inside : j < pgs) : ∃ f, m.translate tab (vaddr + j * 2097152) = some f ∧
        fs[j]? = some f := by
      obtain ⟨e,mapping,taken,_⟩ := run.pages j (Nat.zero_le j) (by omega)
      exact ⟨e.frame,by rw [Kernel.translate,mapping]; rfl,taken⟩
    have zeroed {j f : Nat} (inside : j < pgs) (there : m.translate tab (vaddr + j * 2097152) = some f) :
        Zeroed m tab vaddr pgs (f * 2097152) := by
      refine (zeroed_aligned aligned).mpr ⟨j,inside,?_⟩
      rwa [Nat.mul_div_cancel f (by decide)]
    refine ⟨aligned,fun j inside => ⟨?_,?_⟩,i,fs,found,next,fun s hs v f before taken => ?_⟩
    · obtain ⟨range,_⟩ := user (vaddr / 2097152 + j) (by rw [InSpan]; omega)
      rwa [place] at range
    · by_contra mapped
      obtain ⟨e,mapping⟩ := Option.ne_none_iff_exists'.mp mapped
      have before : k.translate tab (vaddr + j * 2097152) = some e.frame := by
        rw [Kernel.translate,mapping]
        rfl
      obtain ⟨after,_⟩ := done.kept tab hr _ _ before
      obtain ⟨ramf,returned,_⟩ := fresh_call fresh any found run alloc user k.ram
      cases returned.symm.trans done.returned
      exact safe hr before (zeroed inside after)
    · obtain ⟨j,inside,same⟩ := List.getElem_of_mem taken
      rw [nextFrames_length next] at inside
      obtain ⟨g,there,listed⟩ := frame j inside
      rw [List.getElem?_eq_getElem (by omega),same] at listed
      cases listed
      exact safe hs before (zeroed inside there)
  · rintro ⟨aligned,pages,i,fs,found,next,loose⟩
    have frames := frames_run pool hr region i (by have := nextFrames_few next; omega)
    rw [next] at frames
    obtain ⟨m,run⟩ := frames
    have user (w : Nat) (inside : InSpan vaddr pgs w) : m.UserPage tab w := by
      obtain ⟨lower,upper⟩ := inside
      obtain ⟨j,rfl⟩ := Nat.exists_eq_add_of_le lower
      have place : (vaddr / 2097152 + j) * 2097152 = vaddr + j * 2097152 := by omega
      obtain ⟨e,mapping,_,isuser⟩ := run.pages j (Nat.zero_le j) (by omega)
      rw [Kernel.UserPage,place]
      exact ⟨(pages j (by omega)).1,e,mapping,isuser⟩
    obtain ⟨after,returned,bytes⟩ := fresh_call fresh any found run alloc user k.ram
    have writes := fresh_overwrites fresh any found run alloc user
    refine ⟨_,returned,user,?_,?_,?_⟩
    · intro a overwritten
      obtain ⟨j,inside,there⟩ := (zeroed_aligned aligned).mp ((writes a).mp overwritten)
      exact ⟨_,(pages j inside).2,there⟩
    · intro v a absent there
      have there : m.translate tab v = some (a / 2097152) := there
      -- a page that is mapped now and was not is one of the run
      obtain ⟨j,inside,same⟩ : ∃ j < pgs, page v = page (vaddr + j * 2097152) := by
        by_contra out
        have still := run.kept.mapping tab hr v (by
          rintro ⟨_,j,_,inside,same⟩
          exact out ⟨j,by omega,same⟩)
        rw [Kernel.translate,still.trans absent] at there
        cases there
      rw [Kernel.translate,Kernel.mapping_page same,← Kernel.translate] at there
      exact (bytes a).1 ((zeroed_aligned aligned).mpr ⟨j,inside,there⟩)
    · intro s hs v f before
      have still : m.mapping s v = k.mapping s v := by
        refine run.kept.mapping s hs v ?_
        rintro ⟨rfl,j,_,inside,same⟩
        rw [Kernel.translate,Kernel.mapping_page same,(pages j (by omega)).2] at before
        cases before
      have kept : m.translate s v = some f := by
        rw [Kernel.translate,still]
        exact before
      refine ⟨kept,fun a same overwritten => ?_⟩
      obtain ⟨j,inside,there⟩ := (zeroed_aligned aligned).mp ((writes a).mp overwritten)
      obtain ⟨e,mapping,taken,_⟩ := run.pages j (Nat.zero_le j) (by omega)
      rw [Kernel.translate,mapping,Option.map_some,same] at there
      cases there
      exact loose s hs v _ before (List.mem_of_getElem? taken)

/-- On pages whose tables exist, the call does what it is to do exactly when every page asked
for is the user's already, or the run starts on a page and none of it is mapped. -/
theorem user_alloc_iff :
    (∃ k', UserAllocated (fun k => pageFindAndAllocUser alloc k tab vaddr pgs) roots k tab vaddr pgs k') ↔
      AllUser k tab vaddr pgs ∨ FreshRun roots k tab vaddr pgs := by
  have first : isMappedUser k tab vaddr = true ↔ ∃ e, k.mapping tab vaddr = some e ∧ e.isuser = true :=
    isMappedUser_iff pool hr (by simpa using region 0 any)
  cases mapped : isMappedUser k tab vaddr with
  | true =>
    rw [allocated_mapped mapped]
    refine ⟨.inl,fun which => which.resolve_right ?_⟩
    rintro ⟨_,absent,_⟩
    obtain ⟨e,present,_⟩ := first.mp mapped
    have absent := (absent 0 any).2
    rw [Nat.zero_mul,Nat.add_zero,present] at absent
    cases absent
  | false =>
    rw [allocated_fresh pool hr any region mapped]
    refine ⟨.inr,fun which => which.resolve_left ?_⟩
    rintro ⟨_,user⟩
    obtain ⟨_,e,present,isuser⟩ := user (vaddr / 2097152) ⟨Nat.le_refl _,by omega⟩
    have same : page (vaddr / 2097152 * 2097152) = page vaddr := by
      simp only [page]
      omega
    rw [Kernel.mapping_page same] at present
    have := first.mpr ⟨e,present,isuser⟩
    rw [mapped] at this
    cases this

end Promise

end Call

theorem bareKernel_pool : Pool 0x1000 [] [0x1000] bareKernel := bareKernel_blank.ok.pool

theorem bareKernel_mapping (v : Nat) : bareKernel.mapping 0x1000 v = none := by
  have empty : (bareKernel.tables 0x1000 (pml4i v)).child = none := rfl
  rw [Kernel.mapping,Forest.read,Forest.walk_cons,empty]
  rfl

/-- One page of user memory, on the fourth frame. -/
theorem userKernel : ∃ k, Pool 0x1000 [] [0x1000] k ∧ (∀ v, v / 2^30 = 1 → k.region 0x1000 v) ∧
    (∀ v, page v ≠ page 0x40000000 → k.mapping 0x1000 v = none) ∧
    k.translate 0x1000 0x40000000 = some 3 ∧ k.availMem = [] ∧
    k.physMemMap = Function.update (fun _ => false) 3 true := by
  have root : 0x1000 ∈ [0x1000] := List.mem_singleton.mpr rfl
  have there : (pageAllocTab takePage bareKernel 0x1000 0x600000 0x40000000).isSome = true := by decide +kernel
  obtain ⟨k,mapped⟩ := Option.isSome_iff_exists.mp there
  have source := takePage_pool 0x1000 []
  obtain ⟨pool,⟨e,here⟩,others⟩ := mapPage_mapping source userStyle_ok bareKernel_pool root mapped
  obtain ⟨e',slot⟩ := (mapPage_slot source userStyle_ok bareKernel_pool root mapped).1
  obtain ⟨still,marks⟩ := mapPage_still takePage_steady mapped
  refine ⟨k,pool,fun v same => ?_,fun v other => ?_,?_,still.availMem,marks⟩
  · exact (Kernel.region_congr (same.trans (by decide))).mpr (Kernel.region_slot.mpr ⟨_,slot⟩)
  · exact (others 0x1000 root v fun same => other same.2).trans (bareKernel_mapping v)
  · have frame : (userStyle.pde 0x600000 e).frame = 3 := (userStyle_ok.pde 0x600000 e).2.1.trans (by decide)
    rw [Kernel.translate,here,Option.map_some,frame]

/-- Its first frame is free. -/
theorem userKernel_frames {k : Kernel} (avail : k.availMem = [])
    (marks : k.physMemMap = Function.update (fun _ => false) 3 true) :
    nextFree { k with cr3 := k.pml4Table } (frameBound 1) 0 = some 0 ∧
      nextFrames { k with cr3 := k.pml4Table } 1 0 = some [0] := by
  have unused : pagePhysmemmapIsUsed { k with cr3 := k.pml4Table } (0 * 2097152) = some false := by
    simp [pagePhysmemmapIsUsed,avail,marks]
  have first (n : Nat) : nextFree { k with cr3 := k.pml4Table } (n + 1) 0 = some 0 := by
    rw [nextFree,unused]
    rfl
  have all : nextFree { k with cr3 := k.pml4Table } (2^27 - 0) 0 = some 0 := first 134217727
  refine ⟨first 134217726,?_⟩
  rw [nextFrames,all]
  rfl

/-- The page behind it. -/
theorem user_alloc_iff_one : ∃ k k', UserAllocated (fun k => pageFindAndAllocUser takePage k 0x1000 0x40200000 1)
    [0x1000] k 0x1000 0x40200000 1 k' := by
  obtain ⟨k,pool,region,absent,frame,avail,marks⟩ := userKernel
  obtain ⟨found,next⟩ := userKernel_frames avail marks
  have root : 0x1000 ∈ [0x1000] := List.mem_singleton.mpr rfl
  refine ⟨k,(user_alloc_iff pool root (Nat.le_refl 1) ?_).mpr (.inr ?_)⟩
  · intro i inside
    exact region _ (by omega)
  · refine ⟨by decide,fun i inside => ?_,0,[0],found,next,?_⟩
    · obtain rfl : i = 0 := by omega
      exact ⟨by decide,absent _ (by decide)⟩
    · intro s hs v f present taken
      cases List.mem_singleton.mp hs
      cases List.mem_singleton.mp taken
      by_cases same : page v = page 0x40000000
      · rw [Kernel.translate,Kernel.mapping_page same,← Kernel.translate,frame] at present
        cases present
      · rw [Kernel.translate,absent v same] at present
        cases present

/-- From the middle of that page on, with frames free, the call runs into the page behind it. -/
theorem user_alloc_unaligned : ¬∀ (alloc : Kernel → Option (Kernel × Nat)) (root : Nat) (bufs roots : List Nat)
    (k : Kernel) (tab vaddr pgs : Nat), Pool root bufs roots k → tab ∈ roots → 1 ≤ pgs →
    (∀ i < pgs, k.region tab (vaddr + i * 2097152)) →
    (∃ i fs, nextFree { k with cr3 := k.pml4Table } (frameBound pgs) 0 = some i ∧
      nextFrames { k with cr3 := k.pml4Table } pgs i = some fs) →
    ∃ k', UserAllocated (fun k => pageFindAndAllocUser alloc k tab vaddr pgs) roots k tab vaddr pgs k' := by
  intro all
  obtain ⟨k,pool,region,absent,frame,avail,marks⟩ := userKernel
  obtain ⟨found,next⟩ := userKernel_frames avail marks
  have root : 0x1000 ∈ [0x1000] := List.mem_singleton.mpr rfl
  have there (i : Nat) (inside : i < 1) : k.region 0x1000 (0x40200010 + i * 2097152) := region _ (by omega)
  have done := all takePage _ _ _ k 0x1000 0x40200010 1 pool root (Nat.le_refl 1) there ⟨0,[0],found,next⟩
  have fresh : isMappedUser k 0x1000 0x40200010 = false := by
    by_contra mapped
    obtain ⟨e,mapping,_⟩ := (isMappedUser_iff pool root (region _ (by decide))).mp (Bool.not_eq_false _ ▸ mapped)
    rw [absent _ (by decide)] at mapping
    cases mapping
  obtain ⟨aligned,_⟩ := (allocated_fresh pool root (Nat.le_refl 1) there fresh).mp done
  exact absurd aligned (by decide)

end Siegfried
