import Siegfried.StrTokens

/-! `strtok_r` of `hagen`, and the loop of `posh` over the tokens of a line. Memory is a list of
cells and a pointer an index into it; a read behind the last cell ends the run. -/
namespace Siegfried

namespace Hagen

def strlen : List UInt8 → Option Nat
  | [] => none
  | c :: rest => if c = 0 then some 0 else (strlen rest).map (· + 1)

/-- Where the first character of `s2` is, if there is one. -/
def strpbrk (s2 : List UInt8) : List UInt8 → Option (Option Nat)
  | [] => none
  | c :: rest =>
    if c = 0 then some none
    else if s2.contains c then some (some 0)
    else (strpbrk s2 rest).map (Option.map (· + 1))

def strcspn (s1 s2 : List UInt8) : Option Nat := do
  match ← strpbrk s2 s1 with
  | none => strlen s1
  | some n => some n

/-- The loop of `strspn`, for so many turns at most; `found` is never reset. -/
def strspnLoop (s1 s2 : List UInt8) : Nat → Bool → Nat → Option Nat
  | 0, _, _ => none
  | fuel + 1, found, len => do
    let c ← s1[len]?
    let found := found || s2.contains c
    let len := if s2.contains c then len + 1 else len
    if found then strspnLoop s1 s2 fuel found len else some len

def strspn (fuel : Nat) (s1 s2 : List UInt8) : Option Nat := strspnLoop s1 s2 fuel false 0

/-- The memory and `*prevS1` that `strtok_r` leaves, and what it returns. -/
structure Tok where
  cells : List UInt8
  prevS1 : Option Nat
  ret : Option Nat

def strtokR (fuel : Nat) (cells : List UInt8) (s1 : Option Nat) (s2 : List UInt8) (prevS1 : Option Nat) :
    Option Tok :=
  match s1 <|> prevS1 with
  | none => some ⟨cells,prevS1,none⟩
  | some s1 => do
    let n ← strspn fuel (cells.drop s1) s2
    let s1 := s1 + n
    let c ← cells[s1]?
    if c = 0 then some ⟨cells,prevS1,none⟩
    else
      let s1newLen ← strcspn (cells.drop s1) s2
      let c ← cells[s1 + s1newLen]?
      if c = 0 then some ⟨cells,none,some s1⟩
      else some ⟨cells.set (s1 + s1newLen) 0,some (s1 + s1newLen + 1),some s1⟩

end Hagen

open Hagen

/-- The string that a call has returned. -/
def Hagen.Tok.string (t : Tok) : Option (Option StrTokResult) :=
  match t.ret with
  | none => some none
  | some p => (strlen (t.cells.drop p)).map fun n => some ⟨p,n⟩

/-- The loop of `posh`, with the strings that the calls return. The commands themselves are left
out; one reads `tok[0]`. -/
def poshLoop (fuel : Nat) : Nat → Tok → List (Option StrTokResult) → Option (List (Option StrTokResult))
  | 0, _, _ => none
  | n + 1, tok, calls => do
    let dir ← strtokR fuel tok.cells none [32] tok.prevS1
    let name ← dir.string
    if tok.ret = none then none
    else
      let next ← strtokR fuel dir.cells none [32] dir.prevS1
      let word ← next.string
      let calls := calls ++ [name,word]
      if next.ret = none then some calls else poshLoop fuel n next calls

/-- What the calls return for a line; an empty one is skipped. -/
def poshTokens (fuel : Nat) (buffer : List UInt8) : Option (List (Option StrTokResult)) :=
  if buffer = [] then some []
  else do
    let tok ← strtokR fuel (buffer ++ [0]) (some 0) [32] none
    let word ← tok.string
    poshLoop fuel fuel tok [word]

/-- The loop comes to an end without reading through a null token, and the calls return the
maximal substrings without a space, in order, and then null. -/
def PoshTokenizes (buffer : List UInt8) : Prop :=
  ∃ fuel toks n, poshTokens fuel buffer = some (toks.map some ++ List.replicate (n + 1) none) ∧
    Tokenizes buffer 32 toks

section Strings
variable {s1 s2 buffer cells : List UInt8} {p fuel : Nat}

/-- Once `found` is set the loop does not end. -/
theorem strspnLoop_found (fuel len : Nat) : strspnLoop s1 s2 fuel true len = none := by
  induction fuel generalizing len with
  | zero => rfl
  | succ fuel ih =>
    rw [strspnLoop]
    cases s1[len]? with
    | none => rfl
    | some c => simp [ih]

theorem strspn_delim {c : UInt8} (first : s1[0]? = some c) (member : s2.contains c = true) (fuel : Nat) :
    strspn fuel s1 s2 = none := by
  cases fuel with
  | zero => rfl
  | succ fuel =>
    rw [strspn,strspnLoop,first]
    simp only [Option.bind_eq_bind,Option.bind_some,member,Bool.or_true,if_true]
    exact strspnLoop_found fuel 1

theorem strspn_other {c : UInt8} (first : s1[0]? = some c) (other : s2.contains c = false) (fuel : Nat) :
    strspn (fuel + 1) s1 s2 = some 0 := by
  rw [strspn,strspnLoop,first]
  simp only [Option.bind_eq_bind,Option.bind_some,other,Bool.or_false,Bool.false_eq_true,if_false]

theorem strlen_eq {str rest : List UInt8} (proper : 0 ∉ str) :
    strlen (str ++ 0 :: rest) = some str.length := by
  induction str with
  | nil => rfl
  | cons c str ih =>
    obtain ⟨nonzero,proper⟩ := List.ne_and_not_mem_of_not_mem_cons proper
    rw [List.cons_append,strlen,if_neg (Ne.symm nonzero),ih proper]
    rfl

theorem strcspn_stop {word rest : List UInt8} (proper : 0 ∉ word) (free : 32 ∉ word) :
    strcspn (word ++ 32 :: rest) [32] = some word.length := by
  have found : strpbrk [32] (word ++ 32 :: rest) = some (some word.length) := by
    induction word with
    | nil => rfl
    | cons c word ih =>
      obtain ⟨nonzero,proper⟩ := List.ne_and_not_mem_of_not_mem_cons proper
      obtain ⟨other,free⟩ := List.ne_and_not_mem_of_not_mem_cons free
      have plain : [32].contains c = false := by simp [Ne.symm other]
      rw [List.cons_append,strpbrk,if_neg (Ne.symm nonzero),plain,if_neg Bool.false_ne_true,ih proper free]
      rfl
  rw [strcspn,found]
  rfl

theorem strcspn_last {word rest : List UInt8} (proper : 0 ∉ word) (free : 32 ∉ word) :
    strcspn (word ++ 0 :: rest) [32] = some word.length := by
  have none_ : strpbrk [32] (word ++ 0 :: rest) = some none := by
    induction word with
    | nil => rfl
    | cons c word ih =>
      obtain ⟨nonzero,proper⟩ := List.ne_and_not_mem_of_not_mem_cons proper
      obtain ⟨other,free⟩ := List.ne_and_not_mem_of_not_mem_cons free
      have plain : [32].contains c = false := by simp [Ne.symm other]
      rw [List.cons_append,strpbrk,if_neg (Ne.symm nonzero),plain,if_neg Bool.false_ne_true,ih proper free]
      rfl
  rw [strcspn,none_]
  exact strlen_eq proper

end Strings

section Calls
variable {buffer pre word rest : List UInt8} {s1 prevS1 : Option Nat} {t : Tok} {toks : List StrTokResult}

theorem drop_front {α : Type} (pre rest : List α) : (pre ++ rest).drop pre.length = rest := by
  rw [List.drop_append,List.drop_length,Nat.sub_self,List.drop_zero,List.nil_append]

theorem get_front {α : Type} (pre rest : List α) : (pre ++ rest)[pre.length]? = rest[0]? := by
  rw [List.getElem?_append_right (Nat.le_refl _),Nat.sub_self]

/-- At the end of the line there is nothing. -/
theorem strtokR_end (start : (s1 <|> prevS1) = some pre.length) (fuel : Nat) :
    strtokR (fuel + 1) (pre ++ [0]) s1 [32] prevS1 = some ⟨pre ++ [0],prevS1,none⟩ := by
  rw [strtokR,start]
  dsimp only
  rw [drop_front,strspn_other (c := 0) rfl (by decide),Option.bind_eq_bind,Option.bind_some,Nat.add_zero,
    get_front]
  rfl

/-- At a space the call does not return. -/
theorem strtokR_space (start : (s1 <|> prevS1) = some pre.length) (fuel : Nat) :
    strtokR fuel (pre ++ 32 :: rest) s1 [32] prevS1 = none := by
  rw [strtokR,start]
  dsimp only
  rw [drop_front,strspn_delim (c := 32) rfl (by decide)]
  rfl

/-- A call at a word returns it, and ends it with a zero where a space was. -/
theorem strtokR_word (start : (s1 <|> prevS1) = some pre.length) (nonempty : word ≠ []) (proper : 0 ∉ word)
    (free : 32 ∉ word) (fuel : Nat) :
    strtokR (fuel + 1) (pre ++ (word ++ 32 :: rest)) s1 [32] prevS1 =
        some ⟨pre ++ (word ++ 0 :: rest),some (pre.length + word.length + 1),some pre.length⟩ ∧
      strtokR (fuel + 1) (pre ++ (word ++ 0 :: rest)) s1 [32] prevS1 =
        some ⟨pre ++ (word ++ 0 :: rest),none,some pre.length⟩ := by
  obtain ⟨c,chars,rfl⟩ := List.exists_cons_of_ne_nil nonempty
  have nonzero : c ≠ 0 := fun same => proper (same ▸ List.mem_cons_self ..)
  have other : [32].contains c = false := by
    have other : c ≠ 32 := fun same => free (same ▸ List.mem_cons_self ..)
    simp [other]
  have stop (d : UInt8) : (pre ++ (c :: chars ++ d :: rest))[pre.length + (c :: chars).length]? = some d := by
    rw [← List.append_assoc,← List.length_append,get_front]
    rfl
  have skip (d : UInt8) : strspn (fuel + 1) (c :: chars ++ d :: rest) [32] = some 0 :=
    strspn_other (c := c) rfl other fuel
  have here (d : UInt8) : (pre ++ (c :: chars ++ d :: rest))[pre.length]? = some c := get_front ..
  constructor
  · rw [strtokR,start]
    dsimp only
    rw [drop_front,skip]
    simp only [Option.bind_eq_bind,Option.bind_some,Nat.add_zero,here,if_neg nonzero,drop_front,
      strcspn_stop proper free,stop]
    rw [if_neg (by decide)]
    have ended : (pre ++ (c :: chars ++ 32 :: rest)).set (pre.length + (c :: chars).length) 0 =
        pre ++ (c :: chars ++ 0 :: rest) := by
      rw [← List.append_assoc,← List.length_append,List.set_append_right _ _ (Nat.le_refl _),Nat.sub_self,
        List.append_assoc]
      rfl
    rw [ended]
  · rw [strtokR,start]
    dsimp only
    rw [drop_front,skip]
    simp only [Option.bind_eq_bind,Option.bind_some,Nat.add_zero,here,if_neg nonzero,drop_front,
      strcspn_last proper free,stop,if_true]

/-- What the calls after `t` return before they return null. -/
def Gives : List StrTokResult → Tok → Prop
  | [], t => ∀ fuel, strtokR (fuel + 1) t.cells none [32] t.prevS1 = some ⟨t.cells,t.prevS1,none⟩
  | r :: toks, t => ∃ u, (∀ fuel, strtokR (fuel + 1) t.cells none [32] t.prevS1 = some u) ∧
      u.string = some (some r) ∧ Gives toks u

/-- From a word on, or from the end of the line, the calls return the tokens there are. -/
theorem gives_found (proper : 0 ∉ buffer) (single : ∀ i : Nat, buffer[i]? = some 32 → buffer[i + 1]? ≠ some 32)
    (n : Nat) {done rest pre : List UInt8} {ret : Option Nat} (size : rest.length = n) (split : buffer = done ++ rest)
    (length : pre.length = done.length) (first : rest.head? ≠ some 32)
    (starts : done.length = 0 ∨ buffer[done.length - 1]? = some 32) :
    ∃ toks, Gives toks ⟨pre ++ (rest ++ [0]),some pre.length,ret⟩ ∧ (rest ≠ [] → toks ≠ []) ∧
      Found buffer 32 done.length toks := by
  induction n using Nat.strongRecOn generalizing done rest pre ret with
  | ind n ih =>
    have zeros : 0 ∉ rest := fun member => proper (split ▸ List.mem_append_right _ member)
    by_cases empty : rest = []
    · subst empty
      refine ⟨[],fun fuel => strtokR_end rfl fuel,absurd rfl,.nil ?_⟩
      rw [split,List.append_nil]
    obtain ⟨word,tail,rfl,nonempty,free,ends⟩ := word_split empty first
    have some_ : 0 < word.length := List.length_pos_of_ne_nil nonempty
    have word_proper : 0 ∉ word := fun member => zeros (List.mem_append_left _ member)
    have inside : done.length < buffer.length := by
      rw [split,List.length_append,List.length_append]
      omega
    have next : nextDelim buffer 32 (done.length + 1) = done.length + word.length := by
      rw [split]
      exact nextDelim_word free ends some_
    have token : (⟨done.length,nextDelim buffer 32 (done.length + 1) - done.length⟩ : StrTokResult) =
        ⟨pre.length,word.length⟩ := by rw [next,Nat.add_sub_cancel_left,length]
    have string (d : UInt8) (back : List UInt8) (prevS1 : Option Nat) :
        (⟨pre ++ (word ++ 0 :: back),prevS1,some pre.length⟩ : Tok).string =
          some (some ⟨pre.length,word.length⟩) := by
      rw [Tok.string]
      dsimp only
      rw [drop_front,strlen_eq word_proper]
      rfl
    cases tail with
    | nil =>
      rw [List.append_nil]
      refine ⟨[_],⟨_,fun fuel => (strtokR_word rfl nonempty word_proper free fuel).2,string 0 [] none,
        fun fuel => rfl⟩,fun _ => List.cons_ne_nil _ _,?_⟩
      rw [← token]
      refine .cons inside starts (.nil ?_)
      rw [next,split,List.append_nil,List.length_append]
      exact Nat.le_succ _
    | cons c back =>
      obtain rfl := ends c rfl
      have split' : buffer = (done ++ (word ++ [32])) ++ back := by
        rw [split,List.append_assoc,List.append_assoc,List.singleton_append]
      have gap : buffer[done.length + word.length]? = some 32 := by
        rw [split,← List.append_assoc,← List.length_append,get_front]
        rfl
      have first' : back.head? ≠ some 32 := by
        have after := single _ gap
        rw [split',List.getElem?_append_right (by simp [Nat.add_assoc])] at after
        simpa [List.head?_eq_getElem?,Nat.add_assoc] using after
      have length' : (pre ++ (word ++ [0])).length = (done ++ (word ++ [32])).length := by
        simp [length]
      have fewer : back.length < n := by
        rw [← size,List.length_append,List.length_cons]
        omega
      have starts' : buffer[(done ++ (word ++ [32])).length - 1]? = some 32 := by
        simpa [← Nat.add_assoc] using gap
      obtain ⟨toks,gives,_,found⟩ := @ih back.length fewer (done ++ (word ++ [32])) back (pre ++ (word ++ [0]))
        (some pre.length) rfl split' length' first' (.inr starts')
      have cells : pre ++ (word ++ [0]) ++ (back ++ [0]) = pre ++ (word ++ 0 :: (back ++ [0])) := by simp
      have place : (pre ++ (word ++ [0])).length = pre.length + word.length + 1 := by
        simp [Nat.add_assoc]
      rw [cells,place] at gives
      refine ⟨⟨pre.length,word.length⟩ :: toks,⟨_,fun fuel => ?_,string 0 _ _,gives⟩,
        fun _ => List.cons_ne_nil _ _,?_⟩
      · rw [List.append_assoc,List.cons_append]
        exact (strtokR_word rfl nonempty word_proper free fuel).1
      · rw [← token]
        refine .cons inside starts ?_
        rw [next]
        have place : (done ++ (word ++ [32])).length = done.length + word.length + 1 := by
          simp [Nat.add_assoc]
        rwa [place] at found

theorem string_null (cells : List UInt8) (prevS1 : Option Nat) :
    (⟨cells,prevS1,none⟩ : Tok).string = some none := rfl

/-- The loop takes the strings two by two. -/
theorem poshLoop_gives (fuel n : Nat) (enough : toks.length < n) (gives : Gives toks t) (there : t.ret ≠ none)
    (calls : List (Option StrTokResult)) :
    ∃ m, poshLoop (fuel + 1) n t calls = some (calls ++ toks.map some ++ List.replicate (m + 1) none) := by
  induction size : toks.length using Nat.strongRecOn generalizing toks t n calls with
  | ind size ih =>
    obtain ⟨n,rfl⟩ := Nat.exists_eq_add_one_of_ne_zero (Nat.ne_zero_of_lt enough)
    match toks with
    | [] =>
      refine ⟨1,?_⟩
      have again : strtokR (fuel + 1) t.cells none [32] t.prevS1 = _ := gives fuel
      rw [poshLoop,again]
      simp only [Option.bind_eq_bind,Option.bind_some,string_null,if_neg there,again]
      simp [List.replicate]
    | [r] =>
      refine ⟨0,?_⟩
      obtain ⟨u,called,string,rest⟩ := gives
      have again : strtokR (fuel + 1) u.cells none [32] u.prevS1 = _ := rest fuel
      rw [poshLoop,called]
      simp only [Option.bind_eq_bind,Option.bind_some,string,if_neg there,again,string_null]
      simp
    | r :: r' :: toks =>
      obtain ⟨u,called,string,u',called',string',rest⟩ := gives
      have there' : u'.ret ≠ none := by
        intro none_
        rw [Tok.string,none_] at string'
        cases string'
      simp only [List.length_cons] at enough size
      obtain ⟨m,value⟩ := ih toks.length (by omega) n (by omega) rest there' (calls ++ [some r,some r']) rfl
      refine ⟨m,?_⟩
      rw [poshLoop,called]
      simp only [Option.bind_eq_bind,Option.bind_some,string,if_neg there,called',string',if_neg there',value]
      simp

/-- A call that has two spaces in a row before it, or a space at its start. -/
def Spaced (t : Tok) : Prop :=
  ∃ pre rest, t.cells = pre ++ (rest ++ [0]) ∧ t.prevS1 = some pre.length ∧ 0 ∉ rest ∧
    (rest.head? = some 32 ∨ ∃ a b, rest = a ++ 32 :: 32 :: b)

theorem spaced_call {fuel : Nat} (start : (s1 <|> prevS1) = some pre.length) (proper : 0 ∉ rest)
    (spaces : rest.head? = some 32 ∨ ∃ a b, rest = a ++ 32 :: 32 :: b) :
    strtokR fuel (pre ++ (rest ++ [0])) s1 [32] prevS1 = none ∨
      ∃ u, strtokR fuel (pre ++ (rest ++ [0])) s1 [32] prevS1 = some u ∧ u.ret ≠ none ∧ Spaced u := by
  by_cases first : rest.head? = some 32
  · obtain ⟨rest,rfl⟩ : ∃ back, rest = 32 :: back := by
      cases rest with
      | nil => cases first
      | cons c back => exact ⟨back,by rw [Option.some.inj first]⟩
    exact .inl (strtokR_space start fuel)
  obtain ⟨a,b,double⟩ := spaces.resolve_left first
  have empty : rest ≠ [] := by
    rintro rfl
    cases a <;> cases double
  obtain ⟨word,tail,rfl,nonempty,free,ends⟩ := word_split empty first
  have word_proper : 0 ∉ word := fun member => proper (List.mem_append_left _ member)
  obtain ⟨back,behind,spaces'⟩ : ∃ back, tail = 32 :: back ∧
      (back.head? = some 32 ∨ ∃ a b, back = a ++ 32 :: 32 :: b) := by
    rcases List.append_eq_append_iff.mp double with ⟨more,rfl,same⟩ | ⟨more,rfl,same⟩
    · cases more with
      | nil => exact ⟨_,same,.inl rfl⟩
      | cons c more =>
        obtain rfl := ends c (by rw [same]; rfl)
        exact ⟨_,same,.inr ⟨more,b,rfl⟩⟩
    · cases more with
      | nil => exact ⟨_,same.symm,.inl rfl⟩
      | cons c more =>
        obtain ⟨rfl,_⟩ := List.cons.inj same
        exact absurd (List.mem_append_right _ (List.mem_cons_self ..)) free
  subst behind
  cases fuel with
  | zero =>
    left
    rw [strtokR,start]
    rfl
  | succ fuel =>
    right
    rw [List.append_assoc,List.cons_append]
    refine ⟨_,(strtokR_word start nonempty word_proper free fuel).1,nofun,pre ++ (word ++ [0]),back,?_,?_,?_,spaces'⟩
    · simp
    · simp [Nat.add_assoc]
    · exact fun member => proper (List.mem_append_right _ (List.mem_cons_of_mem _ member))

theorem Spaced.call (spaced : Spaced t) (fuel : Nat) : strtokR fuel t.cells none [32] t.prevS1 = none ∨
    ∃ u, strtokR fuel t.cells none [32] t.prevS1 = some u ∧ u.ret ≠ none ∧ Spaced u := by
  obtain ⟨pre,rest,cells,prevS1,proper,spaces⟩ := spaced
  rw [cells,prevS1]
  exact spaced_call rfl proper spaces

/-- The loop does not end before it comes to the spaces, and not there. -/
theorem Spaced.poshLoop (spaced : Spaced t) (fuel n : Nat) (calls : List (Option StrTokResult)) :
    Siegfried.poshLoop fuel n t calls = none := by
  induction n generalizing t calls with
  | zero => rfl
  | succ n ih =>
    rw [Siegfried.poshLoop]
    rcases spaced.call fuel with stuck | ⟨u,called,_,spaced⟩
    · rw [stuck]
      rfl
    rw [called]
    simp only [Option.bind_eq_bind,Option.bind_some]
    cases u.string with
    | none => rfl
    | some name =>
      simp only [Option.bind_some]
      split
      · rfl
      rcases spaced.call fuel with stuck | ⟨v,called,there,spaced⟩
      · rw [stuck]
        rfl
      rw [called]
      simp only [Option.bind_some]
      cases v.string with
      | none => rfl
      | some word =>
        simp only [Option.bind_some,if_neg there]
        exact ih spaced _

/-- The first call is like one that goes on at the start of the line. -/
theorem strtokR_first (proper : 0 ∉ buffer) (first : buffer.head? ≠ some 32) (nonempty : buffer ≠ []) (fuel : Nat) :
    strtokR (fuel + 1) (buffer ++ [0]) (some 0) [32] none = strtokR (fuel + 1) (buffer ++ [0]) none [32] (some 0) := by
  obtain ⟨c,rest,rfl⟩ := List.exists_cons_of_ne_nil nonempty
  have nonzero : c ≠ 0 := fun same => proper (same ▸ List.mem_cons_self ..)
  have other : [32].contains c = false := by
    have other : c ≠ 32 := fun same => first (congrArg some same)
    simp [other]
  have skip : strspn (fuel + 1) ((c :: rest ++ [0]).drop 0) [32] = some 0 := strspn_other (c := c) rfl other fuel
  have here : (c :: rest ++ [0])[0]? = some c := rfl
  have start : (some 0 <|> none : Option Nat) = some 0 := rfl
  have start' : (none <|> some 0 : Option Nat) = some 0 := rfl
  rw [strtokR,strtokR,start,start']
  dsimp only
  rw [skip]
  simp only [Option.bind_eq_bind,Option.bind_some,Nat.add_zero,here,if_neg nonzero]

theorem spaced_of_not_single (repeated : ¬SinglyDelimited buffer 32) :
    buffer.head? = some 32 ∨ ∃ a b, buffer = a ++ 32 :: 32 :: b := by
  by_contra none_
  refine repeated ⟨fun first => none_ (.inl (by rwa [List.head?_eq_getElem?])),fun i here next => ?_⟩
  obtain ⟨inside,char⟩ := List.getElem?_eq_some_iff.mp here
  obtain ⟨inside',char'⟩ := List.getElem?_eq_some_iff.mp next
  refine none_ (.inr ⟨buffer.take i,buffer.drop (i + 1 + 1),?_⟩)
  calc buffer = buffer.take i ++ buffer.drop i := (List.take_append_drop ..).symm
    _ = buffer.take i ++ 32 :: 32 :: buffer.drop (i + 1 + 1) := by
      rw [List.drop_eq_getElem_cons inside,char,List.drop_eq_getElem_cons inside',char']

/-- **The token loop of posh.** On a line that is not empty, which is skipped, it ends, with the
tokens and then null, if and only if the line does not begin with a space and has no two in a
row; otherwise `strspn` does not return. -/
theorem posh_tokenizes_iff (buffer : List UInt8) (proper : 0 ∉ buffer) (nonempty : buffer ≠ []) :
    PoshTokenizes buffer ↔ SinglyDelimited buffer 32 := by
  have entry (fuel : Nat) : poshTokens fuel buffer = (strtokR fuel (buffer ++ [0]) (some 0) [32] none).bind
      fun tok => tok.string.bind fun word => poshLoop fuel fuel tok [word] := if_neg nonempty
  constructor
  · rintro ⟨fuel,toks,n,ends,_⟩
    by_contra repeated
    have spaces := spaced_of_not_single repeated
    rw [entry] at ends
    have start : (some 0 <|> none : Option Nat) = some ([] : List UInt8).length := rfl
    rcases spaced_call start proper spaces with stuck | ⟨u,called,_,spaced⟩
    · rw [List.nil_append] at stuck
      rw [stuck] at ends
      cases ends
    · rw [List.nil_append] at called
      rw [called,Option.bind_some] at ends
      cases word : u.string with
      | none => rw [word] at ends; cases ends
      | some word =>
        rw [word,Option.bind_some,spaced.poshLoop] at ends
        cases ends
  · intro single
    have first : buffer.head? ≠ some 32 := by
      rw [List.head?_eq_getElem?]
      exact single.1
    have given : ∃ toks, Gives toks ⟨[] ++ (buffer ++ [0]),some ([] : List UInt8).length,none⟩ ∧
        (buffer ≠ [] → toks ≠ []) ∧ Found buffer 32 ([] : List UInt8).length toks :=
      gives_found proper single.2 buffer.length rfl rfl rfl first (.inl rfl)
    obtain ⟨toks,gives,there,found⟩ := given
    obtain ⟨r,toks,rfl⟩ := List.exists_cons_of_ne_nil (there nonempty)
    obtain ⟨u,called,string,rest⟩ := gives
    have some_ : u.ret ≠ none := by
      intro none_
      rw [Tok.string,none_] at string
      cases string
    obtain ⟨m,value⟩ := poshLoop_gives toks.length (toks.length + 1) (Nat.lt_succ_self _) rest some_ [some r]
    refine ⟨toks.length + 1,r :: toks,m,?_,found.tokenizes.mpr single⟩
    rw [entry,strtokR_first proper first nonempty,← List.nil_append (buffer ++ [0])]
    rw [show strtokR (toks.length + 1) ([] ++ (buffer ++ [0])) none [32] (some 0) = some u from called _,
      Option.bind_some,string,Option.bind_some,value]
    rfl

/-- `ls /bin`. -/
theorem posh_tokenizes_ls : PoshTokenizes [108,115,32,47,98,105,110] := by
  refine (posh_tokenizes_iff _ (by decide) (by decide)).mpr ⟨by decide,fun i there next => ?_⟩
  match i with
  | 0 | 1 | 2 | 3 | 4 | 5 | 6 => simp at there next
  | i + 7 => simp at there

/-- A line that begins with a space. -/
theorem posh_hangs : ¬∀ buffer : List UInt8, 0 ∉ buffer → buffer ≠ [] → PoshTokenizes buffer := by
  intro always
  obtain ⟨fuel,toks,n,ends,_⟩ := always [32,108,115] (by decide) (by decide)
  have stuck : strtokR fuel ([] ++ 32 :: [108,115,0]) (some 0) [32] none = none := strtokR_space rfl fuel
  have none_ : poshTokens fuel [32,108,115] = none := by
    rw [poshTokens,if_neg (by decide)]
    exact congrArg (Option.bind · _) stuck
  rw [none_] at ends
  cases ends

end Calls

end Siegfried
