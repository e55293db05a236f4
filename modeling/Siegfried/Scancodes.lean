import Siegfried.Keyboard

/-! `kb_handler`: the bytes the keyboard sends, one interrupt each, as key events. -/
namespace Siegfried

theorem bytes_neZero : @NeZero Nat Zero.ofOfNat0 256 := ⟨by decide⟩

attribute [local instance] bytes_neZero

def isShift (code : Nat) : Bool := code == 0x2a || code == 0x36

/-- `kb_handler` on the byte it reads. The dump that the escape key triggers leaves the
keyboard's state alone. -/
def kbHandler (k : Kb) (code : Fin 256) : Kb :=
  if code.val < 0x80 then
    if k.prevHas80 then
      let k := { k with prevHas80 := false }
      if isShift code then { k with hasShift := false } else kbPushEv k code false
    else if isShift code then { k with hasShift := true }
    else kbPushEv k code true
  else if code.val = 0xe0 then { k with prevHas80 := true }
  else
    let code := code.val % 0x80
    if isShift code then { k with hasShift := false } else kbPushEv k code false

/-- What a keyboard sends for a key: ordinary codes and extended ones. -/
inductive Scan where
  | make (c : Fin 128)
  | brk (c : Fin 128) (ordinary : c.val ≠ 0x60)
  | extMake (c : Fin 128)
  | extBrk (c : Fin 128)

namespace Scan

def low (c : Fin 128) : Fin 256 := ⟨c.val,by omega⟩
def high (c : Fin 128) : Fin 256 := ⟨c.val + 0x80,by omega⟩

def bytes : Scan → List (Fin 256)
  | make c => [low c]
  | brk c _ => [high c]
  | extMake c => [0xe0,low c]
  | extBrk c => [0xe0,high c]

def code : Scan → Fin 128
  | make c | brk c _ | extMake c | extBrk c => c

def extended : Scan → Bool
  | make _ | brk _ _ => false
  | extMake _ | extBrk _ => true

/-- The events of a key: for an extended one, those it has when no byte came before it. -/
def events : Scan → List KbEv
  | make c => if isShift c then [] else [⟨.pressed,c⟩]
  | brk c _ => if isShift c then [] else [⟨.depressed,c⟩]
  | extMake c => if isShift c then [] else [⟨.depressed,c⟩]
  | extBrk c => if isShift c || c.val == 0x60 then [] else [⟨.depressed,c⟩]

/-- The shift key is held after a key, when it is held before it or not. -/
def shift (held : Bool) : Scan → Bool
  | make c => held || isShift c
  | brk c _ => held && !isShift c
  | extMake _ | extBrk _ => held

end Scan

/-- The state after the bytes of a list of keys. -/
def kbRun (k : Kb) (keys : List Scan) : Kb := (keys.flatMap Scan.bytes).foldl kbHandler k

/-- Whether a shift key is held, by the ordinary codes of a list of keys alone. -/
def shiftHeld (keys : List Scan) : Bool := keys.foldl Scan.shift false

/-- Every key has the events that are its own, whatever came before it, and `has_shift` is
always set as the ordinary codes say. -/
def Decodes (keys : List Scan) : Prop :=
  ∀ before key after, keys = before ++ key :: after →
    (kbRun .start (before ++ [key])).pushed = (kbRun .start before).pushed ++ key.events ∧
      (kbRun .start (before ++ [key])).hasShift = shiftHeld (before ++ [key])

/-- Between a break code of an extended key and the next ordinary make code comes a make code
of an extended key, and no code of an extended shift key comes while a shift key is held. -/
def Legible (keys : List Scan) : Prop :=
  (∀ before c between d after, keys = before ++ .extBrk c :: between ++ .make d :: after →
      ∃ e, .extMake e ∈ between) ∧
    ∀ before key after, keys = before ++ key :: after → key.extended = true → isShift key.code = true →
      shiftHeld before = false

/-- A make code is read as a break code behind the prefix of an extended key that was not
taken back. -/
def Scan.stuck (prefixed : Bool) : Scan → Bool
  | make _ | extMake _ => false
  | brk _ _ => prefixed
  | extBrk _ => true

/-- A key is read as it should be. -/
def Scan.Clear (prefixed held : Bool) : Scan → Prop
  | .make _ => prefixed = false
  | .brk _ _ => True
  | .extMake c | .extBrk c => isShift c = true → held = false

section Keys
variable {k : Kb} {keys : List Scan} {key : Scan}

theorem kbRun_append (k : Kb) (front back : List Scan) :
    kbRun k (front ++ back) = kbRun (kbRun k front) back := by
  rw [kbRun,List.flatMap_append,List.foldl_append]
  rfl

theorem kbRun_cons (k : Kb) (key : Scan) (keys : List Scan) :
    kbRun k (key :: keys) = kbRun (kbRun k [key]) keys := kbRun_append k [key] keys

theorem low_code (c : Fin 128) : (Scan.low c).val = c.val := rfl

theorem high_code (c : Fin 128) : (Scan.high c).val = c.val + 0x80 := rfl

theorem kbHandler_low (k : Kb) (c : Fin 128) : kbHandler k (Scan.low c) =
    if k.prevHas80 then
      if isShift c then { k with prevHas80 := false, hasShift := false }
      else kbPushEv { k with prevHas80 := false } c false
    else if isShift c then { k with hasShift := true } else kbPushEv k c true := by
  have small : (Scan.low c).val < 0x80 := c.isLt
  rw [kbHandler,if_pos small]
  rfl

theorem kbHandler_extended (k : Kb) : kbHandler k 0xe0 = { k with prevHas80 := true } := rfl

theorem kbHandler_high (k : Kb) (c : Fin 128) (other : c.val ≠ 0x60) : kbHandler k (Scan.high c) =
    if isShift c then { k with hasShift := false } else kbPushEv k c false := by
  have large : ¬(Scan.high c).val < 0x80 := by
    rw [high_code]
    omega
  have plain : (Scan.high c).val ≠ 0xe0 := by
    rw [high_code]
    omega
  have released : (Scan.high c).val % 0x80 = c.val := by
    rw [high_code,Nat.add_mod_right,Nat.mod_eq_of_lt c.isLt]
  rw [kbHandler,if_neg large,if_neg plain,released]

/-- What one key does to the state. -/
theorem kbRun_key (k : Kb) (key : Scan) :
    (kbRun k [key]).prevHas80 = key.stuck k.prevHas80 ∧
      ((kbRun k [key]).pushed = k.pushed ++ key.events ∧
        (kbRun k [key]).hasShift = key.shift k.hasShift ↔ key.Clear k.prevHas80 k.hasShift) := by
  have run (bytes : List (Fin 256)) (same : key.bytes = bytes) : kbRun k [key] = bytes.foldl kbHandler k := by
    rw [kbRun,List.flatMap_singleton,same]
  cases key with
  | make c =>
    rw [run [Scan.low c] rfl,List.foldl_cons,List.foldl_nil,kbHandler_low]
    cases prefixed : k.prevHas80 <;> cases shift : isShift c <;>
      simp [Scan.stuck,Scan.events,Scan.shift,Scan.Clear,kbPushEv,kbEv,prefixed,shift]
  | brk c ordinary =>
    rw [run [Scan.high c] rfl,List.foldl_cons,List.foldl_nil,kbHandler_high k c ordinary]
    cases shift : isShift c <;> simp [Scan.stuck,Scan.events,Scan.shift,Scan.Clear,kbPushEv,kbEv,shift]
  | extMake c =>
    rw [run [0xe0,Scan.low c] rfl,List.foldl_cons,List.foldl_cons,List.foldl_nil,kbHandler_extended,kbHandler_low,
      if_pos rfl]
    cases shift : isShift c <;> cases k.hasShift <;>
      simp [Scan.stuck,Scan.events,Scan.shift,Scan.Clear,kbPushEv,kbEv,shift]
  | extBrk c =>
    rw [run [0xe0,Scan.high c] rfl,List.foldl_cons,List.foldl_cons,List.foldl_nil,kbHandler_extended]
    by_cases again : c.val = 0x60
    · have same : Scan.high c = 0xe0 := Fin.ext (by rw [high_code,again]; rfl)
      have plain : isShift 96 = false := rfl
      rw [same,kbHandler_extended]
      simp [Scan.stuck,Scan.events,Scan.shift,Scan.Clear,again,plain]
    · rw [kbHandler_high _ c again]
      cases shift : isShift c <;> cases k.hasShift <;>
        simp [Scan.stuck,Scan.events,Scan.shift,Scan.Clear,kbPushEv,kbEv,shift,again]

/-- An extended key has the events that it has alone. -/
theorem events_alone (extended : key.extended = true) : key.events = (kbRun .start [key]).pushed := by
  have clear : key.Clear false false := by
    cases key with
    | make c => cases extended
    | brk c ordinary => cases extended
    | extMake c => exact fun _ => rfl
    | extBrk c => exact fun _ => rfl
  exact ((kbRun_key .start key).2.mpr clear).1.symm

/-- `Decodes` from any state on. -/
def DecodesFrom (k : Kb) (keys : List Scan) : Prop :=
  ∀ before key after, keys = before ++ key :: after →
    (kbRun k (before ++ [key])).pushed = (kbRun k before).pushed ++ key.events ∧
      (kbRun k (before ++ [key])).hasShift = (before ++ [key]).foldl Scan.shift k.hasShift

theorem decodesFrom_cons : DecodesFrom k (key :: keys) ↔
    ((kbRun k [key]).pushed = k.pushed ++ key.events ∧ (kbRun k [key]).hasShift = key.shift k.hasShift) ∧
      DecodesFrom (kbRun k [key]) keys := by
  constructor
  · intro decodes
    have first : (kbRun k [key]).pushed = k.pushed ++ key.events ∧
        (kbRun k [key]).hasShift = key.shift k.hasShift := decodes [] key keys rfl
    refine ⟨first,fun before next after split => ?_⟩
    have rest := decodes (key :: before) next after (by rw [split]; rfl)
    rw [List.cons_append,kbRun_cons,kbRun_cons k key before,List.foldl_cons,← first.2] at rest
    exact rest
  · rintro ⟨first,rest⟩ before next after split
    cases before with
    | nil =>
      obtain ⟨rfl,rfl⟩ := List.cons.inj split
      exact first
    | cons head before =>
      obtain ⟨rfl,tail⟩ := List.cons.inj split
      have rest := rest before next after tail
      rw [List.cons_append,kbRun_cons,kbRun_cons k key before,List.foldl_cons,← first.2]
      exact rest

/-- No make code comes before a make code of an extended key. -/
def ReleasedLater (keys : List Scan) : Prop :=
  ∀ between d after, keys = between ++ .make d :: after → ∃ e, .extMake e ∈ between

/-- `Legible` when `prev_has_80` and `has_shift` are set already or not. -/
structure LegibleFrom (prefixed held : Bool) (keys : List Scan) : Prop where
  here : prefixed = true → ReleasedLater keys
  later : ∀ before c rest, keys = before ++ .extBrk c :: rest → ReleasedLater rest
  shifts : ∀ before key after, keys = before ++ key :: after → key.extended = true →
    isShift key.code = true → before.foldl Scan.shift held = false

theorem releasedLater_cons : ReleasedLater (key :: keys) ↔
    (∀ d, key ≠ .make d) ∧ ((∀ e, key ≠ .extMake e) → ReleasedLater keys) := by
  constructor
  · intro behind
    constructor
    · rintro d rfl
      obtain ⟨e,member⟩ := behind [] d keys rfl
      cases member
    · intro other between d after split
      obtain ⟨e,member⟩ := behind (key :: between) d after (by rw [split]; rfl)
      rcases List.mem_cons.mp member with same | member
      · exact absurd same.symm (other e)
      · exact ⟨e,member⟩
  · rintro ⟨first,rest⟩ between d after split
    cases between with
    | nil => exact absurd (List.cons.inj split).1 (first d)
    | cons head between =>
      obtain ⟨rfl,tail⟩ := List.cons.inj split
      by_cases ext : ∃ e, key = .extMake e
      · obtain ⟨e,rfl⟩ := ext
        exact ⟨e,List.mem_cons_self ..⟩
      · obtain ⟨e,member⟩ := rest (fun e same => ext ⟨e,same⟩) between d after tail
        exact ⟨e,List.mem_cons_of_mem _ member⟩

theorem legibleFrom_cons {prefixed held : Bool} : LegibleFrom prefixed held (key :: keys) ↔
    key.Clear prefixed held ∧ LegibleFrom (key.stuck prefixed) (key.shift held) keys := by
  constructor
  · intro legible
    have rest : ∀ before c rest, keys = before ++ .extBrk c :: rest → ReleasedLater rest :=
      fun before c rest split => legible.later (key :: before) c rest (by rw [split]; rfl)
    have shifts : ∀ before next after, keys = before ++ next :: after → next.extended = true →
        isShift next.code = true → before.foldl Scan.shift (key.shift held) = false :=
      fun before next after split => legible.shifts (key :: before) next after (by rw [split]; rfl)
    have now := legible.shifts [] key keys rfl
    cases key with
    | make c =>
      refine ⟨Bool.eq_false_iff.mpr fun set => ?_,nofun,rest,shifts⟩
      exact (releasedLater_cons.mp (legible.here set)).1 c rfl
    | brk c ordinary =>
      exact ⟨trivial,fun set => (releasedLater_cons.mp (legible.here set)).2 nofun,rest,shifts⟩
    | extMake c => exact ⟨now rfl,nofun,rest,shifts⟩
    | extBrk c => exact ⟨now rfl,fun _ => legible.later [] c keys rfl,rest,shifts⟩
  · rintro ⟨clear,legible⟩
    refine ⟨fun set => releasedLater_cons.mpr ?_,fun before c rest split => ?_,
      fun before next after split ext shift => ?_⟩
    · subst set
      cases key with
      | make c => cases clear
      | brk c ordinary => exact ⟨nofun,fun _ => legible.here rfl⟩
      | extMake c => exact ⟨nofun,fun other => absurd rfl (other c)⟩
      | extBrk c => exact ⟨nofun,fun _ => legible.here rfl⟩
    · cases before with
      | nil =>
        obtain ⟨rfl,rfl⟩ := List.cons.inj split
        exact legible.here rfl
      | cons head before => exact legible.later before c rest (List.cons.inj split).2
    · cases before with
      | nil =>
        obtain ⟨rfl,rfl⟩ := List.cons.inj split
        cases key with
        | make c => cases ext
        | brk c ordinary => cases ext
        | extMake c => exact clear shift
        | extBrk c => exact clear shift
      | cons head before =>
        obtain ⟨rfl,tail⟩ := List.cons.inj split
        exact legible.shifts before next after tail ext shift

theorem decodesFrom_iff (k : Kb) (keys : List Scan) :
    DecodesFrom k keys ↔ LegibleFrom k.prevHas80 k.hasShift keys := by
  induction keys generalizing k with
  | nil =>
    refine ⟨fun _ => ⟨?_,?_,?_⟩,?_⟩
    · rintro _ (_ | _) d after split <;> cases split
    · rintro (_ | _) c rest split <;> cases split
    · rintro (_ | _) key after split <;> cases split
    · rintro _ (_ | _) key after split <;> cases split
  | cons key keys ih =>
    obtain ⟨prefixed,clear⟩ := kbRun_key k key
    rw [decodesFrom_cons,legibleFrom_cons,ih,prefixed]
    constructor
    · rintro ⟨first,rest⟩
      rw [first.2] at rest
      exact ⟨clear.mp first,rest⟩
    · rintro ⟨first,rest⟩
      have first := clear.mpr first
      refine ⟨first,?_⟩
      rw [first.2]
      exact rest

theorem legible_iff : Legible keys ↔ LegibleFrom false false keys := by
  constructor
  · rintro ⟨later,shifts⟩
    refine ⟨nofun,fun before c rest split between d after rest_split => ?_,shifts⟩
    exact later before c between d after (by rw [split,rest_split,List.append_assoc]; rfl)
  · rintro ⟨_,later,shifts⟩
    refine ⟨fun before c between d after split => ?_,shifts⟩
    exact later before c (between ++ .make d :: after) (by rw [split,List.append_assoc]; rfl) between d after rfl

/-- **kb_handler.** Every key has its own events, and `has_shift` is as the ordinary shift
codes say, if and only if the keys are legible. -/
theorem kb_handler_decodes_iff (keys : List Scan) : Decodes keys ↔ Legible keys :=
  (decodesFrom_iff .start keys).trans legible_iff.symm

/-- The break code of an extended key, and then an ordinary key: it is released, not pressed. -/
theorem kb_handler_misreads : ¬∀ keys, Decodes keys := by
  intro always
  have read := (always [.extMake 0x48,.extBrk 0x48,.make 0x1e] [.extMake 0x48,.extBrk 0x48] (.make 0x1e) [] rfl).1
  have differ : (kbRun .start ([.extMake 0x48,.extBrk 0x48] ++ [.make 0x1e])).pushed ≠
      (kbRun .start [.extMake 0x48,.extBrk 0x48]).pushed ++ (Scan.make 0x1e).events := by decide
  exact differ read

end Keys

end Siegfried
