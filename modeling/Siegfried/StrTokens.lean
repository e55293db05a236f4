import Siegfried.Loops
import Siegfried.StrTok

/-! `str_tok` with what it reads, called until it finds nothing. -/
namespace Siegfried

open Loops

namespace Reads

/-- `do ++off while(str[off] && str[off] != delim)`, on the characters from the first on that
is read. -/
def skipToken (delim : UInt8) : List UInt8 → Nat → Option Nat
  | [], _ => none
  | c :: rest, off => if c ≠ 0 ∧ c ≠ delim then skipToken delim rest (off + 1) else some off

/-- The loop over `i`, on the characters before the zero. -/
def scanToken (delim : UInt8) : List UInt8 → Nat → Nat
  | [], i => i
  | c :: rest, i => if c = delim ∨ c = 0 then i else scanToken delim rest (i + 1)

/-- Where the search begins. -/
def searchFrom (str : List UInt8) (delim : UInt8) (res : StrTokResult) : Option Nat :=
  if res.sz ≠ 0 then
    (skipToken delim ((str ++ [0]).drop (res.off + 1)) (res.off + 1)).map (· + 1)
  else some res.off

/-- Whether the string begins with a delimiter, which is asked at its start only. -/
def atDelim (str : List UInt8) (delim : UInt8) (off : Nat) : Option Bool :=
  if off = 0 then (str ++ [0])[off]?.map fun c => decide (c = delim ∨ c = 0) else some false

/-- `str_tok` on the characters of a string and its zero; there is nothing to read behind it. -/
def strTok (str : List UInt8) (delim : UInt8) (res : StrTokResult) : Option StrTokResult :=
  if str.length < res.off ∨ str.length = 0 then some ⟨0,0⟩
  else do
    let off ← searchFrom str delim res
    let first ← atDelim str delim off
    if first then some ⟨0,1⟩
    else
      let i := scanToken delim (str.drop (off + 1)) (off + 1)
      if str.length < i then some ⟨0,0⟩ else some ⟨off,i - off⟩

/-- One more call, or the end: the results so far, unless the call reads behind the zero. -/
def tokTurn (str : List UInt8) (delim : UInt8) : StrTokResult × List StrTokResult →
    (StrTokResult × List StrTokResult) ⊕ Option (List StrTokResult)
  | (res,toks) =>
    match strTok str delim res with
    | none => .inr none
    | some res => if res.sz = 0 then .inr (some toks) else .inl (res,toks ++ [res])

end Reads

/-- A maximal substring that is not empty and has no delimiter. -/
structure IsToken (str : List UInt8) (delim : UInt8) (t : StrTokResult) : Prop where
  nonempty : 0 < t.sz
  free : ∀ i, t.off ≤ i → i < t.off + t.sz → ∃ c, str[i]? = some c ∧ c ≠ delim
  starts : t.off = 0 ∨ str[t.off - 1]? = some delim
  stops : ∀ c, str[t.off + t.sz]? = some c → c = delim

/-- The string does not begin with a delimiter and has no two of them in a row. -/
def SinglyDelimited (str : List UInt8) (delim : UInt8) : Prop :=
  str[0]? ≠ some delim ∧ ∀ i, str[i]? = some delim → str[i + 1]? ≠ some delim

variable {str : List UInt8} {delim : UInt8} {res r : StrTokResult} {toks : List StrTokResult} {off : Nat}

theorem skipToken_eq {chars : List UInt8} (proper : 0 ∉ chars) (off : Nat) :
    Reads.skipToken delim (chars ++ [0]) off = some (off + (chars.takeWhile (· != delim)).length) := by
  induction chars generalizing off with
  | nil => rfl
  | cons c rest ih =>
    obtain ⟨nonzero,rest_proper⟩ := List.ne_and_not_mem_of_not_mem_cons proper
    rw [List.cons_append,Reads.skipToken]
    by_cases stop : c = delim
    · simp [stop]
    · rw [if_pos ⟨Ne.symm nonzero,stop⟩,ih rest_proper]
      simp [stop]
      omega

theorem scanToken_eq {chars : List UInt8} (proper : 0 ∉ chars) (i : Nat) :
    Reads.scanToken delim chars i = i + (chars.takeWhile (· != delim)).length := by
  induction chars generalizing i with
  | nil => rfl
  | cons c rest ih =>
    obtain ⟨nonzero,rest_proper⟩ := List.ne_and_not_mem_of_not_mem_cons proper
    rw [Reads.scanToken]
    by_cases stop : c = delim
    · simp [stop]
    · rw [if_neg (by simp [stop,Ne.symm nonzero]),ih rest_proper]
      simp [stop]
      omega

theorem searchFrom_eq (proper : 0 ∉ str) (inside : res.sz ≠ 0 → res.off < str.length) :
    Reads.searchFrom str delim res =
      some (if res.sz ≠ 0 then nextDelim str delim (res.off + 1) + 1 else res.off) := by
  rw [Reads.searchFrom]
  split
  · next found =>
    have := inside found
    have chars : 0 ∉ str.drop (res.off + 1) := fun member => proper (List.mem_of_mem_drop member)
    rw [List.drop_append_of_le_length (by omega),skipToken_eq chars]
    rfl
  · rfl

theorem atDelim_eq (proper : 0 ∉ str) (nonempty : str.length ≠ 0) :
    Reads.atDelim str delim off = some (decide (off = 0 ∧ str.head? = some delim)) := by
  rw [Reads.atDelim]
  by_cases start : off = 0
  · subst start
    cases str with
    | nil => exact absurd rfl nonempty
    | cons c rest =>
      have nonzero : c ≠ 0 := fun same => proper (same ▸ List.mem_cons_self)
      simp [nonzero]
  · rw [if_neg start]
    simp [start]

/-- Nothing behind the zero is read, if the token before lies in the string. -/
theorem reads_strTok (proper : 0 ∉ str) (inside : res.sz ≠ 0 → res.off < str.length) :
    Reads.strTok str delim res = some (strTok str delim res) := by
  rw [Reads.strTok,strTok]
  split
  · rfl
  · next more =>
    rw [searchFrom_eq proper inside,Option.bind_eq_bind,Option.bind_some,
      atDelim_eq proper fun empty => more (.inr empty)]
    generalize (if res.sz ≠ 0 then nextDelim str delim (res.off + 1) + 1 else res.off) = off
    have chars : 0 ∉ str.drop (off + 1) := fun member => proper (List.mem_of_mem_drop member)
    have scan : Reads.scanToken delim (str.drop (off + 1)) (off + 1) = nextDelim str delim (off + 1) :=
      scanToken_eq chars _
    rw [Option.bind_eq_bind,Option.bind_some,scan,strTokAt]
    by_cases first : off = 0 ∧ str.head? = some delim
    · simp [first]
    · simp only [first,decide_false,Bool.false_eq_true,if_false]
      split <;> rfl

theorem nextDelim_spec (str : List UInt8) (delim : UInt8) (off : Nat) : off ≤ nextDelim str delim off ∧
    (off ≤ str.length → nextDelim str delim off ≤ str.length) ∧
    (∀ i, off ≤ i → i < nextDelim str delim off → ∃ c, str[i]? = some c ∧ c ≠ delim) ∧
    ∀ c, str[nextDelim str delim off]? = some c → c = delim := by
  rw [nextDelim]
  have split : (str.drop off).takeWhile (· != delim) ++ (str.drop off).dropWhile (· != delim) = str.drop off :=
    List.takeWhile_append_dropWhile
  have run : ∀ c ∈ (str.drop off).takeWhile (· != delim), c ≠ delim := fun c member => by
    simpa using List.mem_takeWhile_imp member
  have stop := List.head?_dropWhile_not (· != delim) (str.drop off)
  generalize (str.drop off).takeWhile (· != delim) = word at split run
  generalize (str.drop off).dropWhile (· != delim) = rest at split stop
  have chars (i : Nat) : str[off + i]? = (word ++ rest)[i]? := by rw [split,List.getElem?_drop]
  have length := congrArg List.length split
  rw [List.length_append,List.length_drop] at length
  refine ⟨Nat.le_add_right ..,fun _ => by omega,fun i lower upper => ?_,fun c found => ?_⟩
  · obtain ⟨j,rfl⟩ := Nat.exists_eq_add_of_le lower
    have inside : j < word.length := by omega
    rw [chars,List.getElem?_append_left inside,List.getElem?_eq_getElem inside]
    exact ⟨_,rfl,run _ (List.getElem_mem inside)⟩
  · rw [chars,List.getElem?_append_right (Nat.le_refl _),Nat.sub_self,← List.head?_eq_getElem?] at found
    rw [found] at stop
    simpa using stop

/-- From a result on, the calls find these before one that finds nothing, and none reads behind
the zero. -/
def Yields (str : List UInt8) (delim : UInt8) (res : StrTokResult) (toks : List StrTokResult) : Prop :=
  ∀ before, ∃ p, Comes (Reads.tokTurn str delim) (res,before) p ∧
    Reads.tokTurn str delim p = .inr (some (before ++ toks))

theorem Yields.nil (found : Reads.strTok str delim res = some r) (empty : r.sz = 0) :
    Yields str delim res [] := by
  intro before
  refine ⟨_,.start,?_⟩
  rw [Reads.tokTurn,found,List.append_nil]
  exact if_pos empty

theorem Yields.cons (found : Reads.strTok str delim res = some r) (more : r.sz ≠ 0)
    (rest : Yields str delim r toks) : Yields str delim res (r :: toks) := by
  intro before
  obtain ⟨p,comes,stop⟩ := rest (before ++ [r])
  refine ⟨p,.head ?_ comes,?_⟩
  · rw [Reads.tokTurn,found]
    exact if_neg more
  · rw [stop,List.append_assoc,List.singleton_append]

/-- What the calls find from `off` on: these are the tokens there, if no delimiter is at `off` or
behind another, and else one of them begins with a delimiter. -/
structure Found (str : List UInt8) (delim : UInt8) (off : Nat) (toks : List StrTokResult) : Prop where
  behind : ∀ t ∈ toks, off ≤ t.off
  ordered : toks.Pairwise (·.off < ·.off)
  exact : str[off]? ≠ some delim → (∀ i, off ≤ i → str[i]? = some delim → str[i + 1]? ≠ some delim) →
    ∀ t, t ∈ toks ↔ IsToken str delim t ∧ off ≤ t.off
  wrong : str[off]? = some delim ∨ (∃ i, off ≤ i ∧ str[i]? = some delim ∧ str[i + 1]? = some delim) →
    ∃ t ∈ toks, str[t.off]? = some delim

theorem Found.nil (beyond : str.length ≤ off) : Found str delim off [] where
  behind := fun t member => absurd member List.not_mem_nil
  ordered := .nil
  exact := by
    intro _ _ t
    refine iff_of_false List.not_mem_nil ?_
    rintro ⟨token,behind⟩
    obtain ⟨c,found,_⟩ := token.free t.off (Nat.le_refl _) (Nat.lt_add_of_pos_right token.nonempty)
    rw [List.getElem?_eq_none (by omega)] at found
    cases found
  wrong := by
    have none_ (i : Nat) (behind : off ≤ i) : str[i]? ≠ some delim := by
      rw [List.getElem?_eq_none (by omega)]
      exact nofun
    rintro (here | ⟨i,behind,there,_⟩)
    · exact absurd here (none_ off (Nat.le_refl _))
    · exact absurd there (none_ i behind)

/-- The token at `off` ends where the next delimiter is. -/
theorem Found.cons (inside : off < str.length) (starts : off = 0 ∨ str[off - 1]? = some delim)
    (rest : Found str delim (nextDelim str delim (off + 1) + 1) toks) :
    Found str delim off (⟨off,nextDelim str delim (off + 1) - off⟩ :: toks) := by
  obtain ⟨lower,upper,free,stops⟩ := nextDelim_spec str delim (off + 1)
  generalize nextDelim str delim (off + 1) = n at rest lower upper free stops
  have size : off + (n - off) = n := by omega
  refine ⟨?_,?_,?_,?_⟩
  · intro t member
    rcases List.mem_cons.mp member with rfl | later
    · exact Nat.le_refl off
    · have := rest.behind t later
      omega
  · refine List.pairwise_cons.mpr ⟨fun t later => ?_,rest.ordered⟩
    have := rest.behind t later
    change off < t.off
    omega
  · intro first single t
    have token : IsToken str delim ⟨off,n - off⟩ := by
      refine ⟨?_,?_,starts,?_⟩
      · change 0 < n - off
        omega
      · change ∀ i, off ≤ i → i < off + (n - off) → _
        intro i lower_ upper_
        by_cases same : i = off
        · subst same
          rw [List.getElem?_eq_getElem inside] at first ⊢
          exact ⟨_,rfl,fun same => first (congrArg some same)⟩
        · exact free i (by omega) (by omega)
      · change ∀ c, str[off + (n - off)]? = some c → _
        rwa [size]
    have next : str[n + 1]? ≠ some delim := by
      intro found
      have short : n < str.length := by
        obtain ⟨inside,_⟩ := List.getElem?_eq_some_iff.mp found
        omega
      have here := List.getElem?_eq_getElem short
      exact single n (by omega) (here.trans (congrArg some (stops _ here))) found
    have later := rest.exact next (fun i behind => single i (by omega)) t
    rw [List.mem_cons,later]
    constructor
    · rintro (rfl | ⟨other,behind⟩)
      · exact ⟨token,Nat.le_refl off⟩
      · exact ⟨other,by omega⟩
    · rintro ⟨other,behind⟩
      by_cases far : n + 1 ≤ t.off
      · exact .inr ⟨other,far⟩
      left
      have positive := other.nonempty
      obtain ⟨c,here,char⟩ := other.free t.off (Nat.le_refl _) (by omega)
      have before : t.off ≠ n := fun same => char (stops c (same ▸ here))
      have start : t.off = off := by
        by_contra differ
        rcases other.starts with zero | prev
        · omega
        · by_cases second : t.off - 1 = off
          · exact first (second ▸ prev)
          · obtain ⟨d,there,free_⟩ := free (t.off - 1) (by omega) (by omega)
            exact free_ (Option.some.inj (there.symm.trans prev))
      have ends : t.sz = n - off := by
        rcases Nat.lt_trichotomy t.sz (n - off) with less | same | more
        · obtain ⟨d,there,free_⟩ := free (t.off + t.sz) (by omega) (by omega)
          exact absurd (other.stops d there) free_
        · exact same
        · obtain ⟨d,there,free_⟩ := other.free n (by omega) (by omega)
          exact absurd (stops d there) free_
      cases t
      exact StrTokResult.mk.injEq .. ▸ ⟨start,ends⟩
  · rintro (here | ⟨i,behind,there,next⟩)
    · exact ⟨_,List.mem_cons_self,here⟩
    · by_cases same : i = off
      · exact ⟨_,List.mem_cons_self,same ▸ there⟩
      have far : n ≤ i := by
        by_contra within
        obtain ⟨c,here,char⟩ := free i (by omega) (by omega)
        exact char (Option.some.inj (here.symm.trans there))
      have later : ∃ t ∈ toks, str[t.off]? = some delim := by
        by_cases last : i = n
        · exact rest.wrong (.inl (last ▸ next))
        · exact rest.wrong (.inr ⟨i,by omega,there,next⟩)
      obtain ⟨t,member,bad⟩ := later
      exact ⟨t,List.mem_cons_of_mem _ member,bad⟩

/-- From any position that the search comes to, the calls end. -/
theorem yields_found (proper : 0 ∉ str) (search : Reads.strTok str delim res = some (strTokAt str delim off))
    (starts : off = 0 ∨ str.length < off ∨ str[off - 1]? = some delim)
    (first : ¬(off = 0 ∧ str.head? = some delim)) :
    ∃ toks, Yields str delim res toks ∧ Found str delim off toks := by
  induction size : str.length - off using Nat.strongRecOn generalizing res off with
  | ind size ih =>
    obtain ⟨lower,upper,_,stops⟩ := nextDelim_spec str delim (off + 1)
    have value : strTokAt str delim off = if str.length < nextDelim str delim (off + 1) then ⟨0,0⟩
        else ⟨off,nextDelim str delim (off + 1) - off⟩ := by rw [strTokAt,if_neg first]
    rw [value] at search
    by_cases beyond : str.length ≤ off
    · rw [if_pos (by omega)] at search
      exact ⟨[],.nil search rfl,.nil beyond⟩
    rw [if_neg (by have := upper (by omega); omega)] at search
    have next : Reads.strTok str delim ⟨off,nextDelim str delim (off + 1) - off⟩ =
        some (strTokAt str delim (nextDelim str delim (off + 1) + 1)) := by
      have more : nextDelim str delim (off + 1) - off ≠ 0 := by omega
      rw [reads_strTok proper fun _ => Nat.lt_of_not_le beyond,strTok,if_neg (by dsimp only; omega)]
      dsimp only
      rw [if_pos more]
    have starts' : nextDelim str delim (off + 1) + 1 = 0 ∨
        str.length < nextDelim str delim (off + 1) + 1 ∨
        str[nextDelim str delim (off + 1) + 1 - 1]? = some delim := by
      right
      by_cases last : str.length < nextDelim str delim (off + 1) + 1
      · exact .inl last
      · right
        have here := List.getElem?_eq_getElem (l := str) (i := nextDelim str delim (off + 1)) (by omega)
        rw [Nat.add_sub_cancel,here,stops _ here]
    obtain ⟨toks,yields,found⟩ := ih (str.length - (nextDelim str delim (off + 1) + 1)) (by omega) next
      starts' (fun both => Nat.succ_ne_zero _ both.1) rfl
    have starts_ : off = 0 ∨ str[off - 1]? = some delim := by
      rcases starts with zero | far | prev
      · exact .inl zero
      · omega
      · exact .inr prev
    refine ⟨_,.cons search ?_ yields,.cons (Nat.lt_of_not_le beyond) starts_ found⟩
    change nextDelim str delim (off + 1) - off ≠ 0
    omega

/-- The results are the maximal delimiter-free substrings, in order. -/
def Tokenizes (str : List UInt8) (delim : UInt8) (toks : List StrTokResult) : Prop :=
  toks.Pairwise (·.off < ·.off) ∧ ∀ t, t ∈ toks ↔ IsToken str delim t

theorem not_tokenizes {t : StrTokResult} (member : t ∈ toks) (begins : str[t.off]? = some delim) :
    ¬Tokenizes str delim toks := by
  rintro ⟨_,all⟩
  have token := (all t).mp member
  obtain ⟨c,here,char⟩ := token.free t.off (Nat.le_refl _) (Nat.lt_add_of_pos_right token.nonempty)
  exact char (Option.some.inj (here.symm.trans begins))

theorem Found.tokenizes (found : Found str delim 0 toks) :
    Tokenizes str delim toks ↔ SinglyDelimited str delim := by
  constructor
  · intro right
    by_contra repeated
    have wrong : str[0]? = some delim ∨ ∃ i, 0 ≤ i ∧ str[i]? = some delim ∧ str[i + 1]? = some delim := by
      by_contra none_
      exact repeated ⟨fun first => none_ (.inl first),fun i there next =>
        none_ (.inr ⟨i,Nat.zero_le i,there,next⟩)⟩
    obtain ⟨t,member,begins⟩ := found.wrong wrong
    exact not_tokenizes member begins right
  · rintro ⟨first,single⟩
    refine ⟨found.ordered,fun t => ?_⟩
    rw [found.exact first (fun i _ => single i) t]
    exact and_iff_left (Nat.zero_le _)

/-- What the calls yield, on any string. -/
theorem yields_start (delim : UInt8) (proper : 0 ∉ str) : ∃ toks, Yields str delim ⟨0,0⟩ toks ∧
    (Tokenizes str delim toks ↔ SinglyDelimited str delim) := by
  have call : Reads.strTok str delim ⟨0,0⟩ = some (strTok str delim ⟨0,0⟩) := reads_strTok proper (absurd rfl)
  by_cases empty : str.length = 0
  · rw [strTok,if_pos (.inr empty)] at call
    exact ⟨[],.nil call rfl,(Found.nil (Nat.le_of_eq empty)).tokenizes⟩
  have search : Reads.strTok str delim ⟨0,0⟩ = some (strTokAt str delim 0) := by
    rw [call,strTok,if_neg (by simp [empty])]
    rfl
  by_cases first : str.head? = some delim
  · rw [strTokAt,if_pos ⟨rfl,first⟩] at search
    have some_ : 0 < str.length := Nat.pos_of_ne_zero empty
    have next : Reads.strTok str delim ⟨0,1⟩ = some (strTokAt str delim (nextDelim str delim 1 + 1)) := by
      rw [reads_strTok proper fun _ => some_,strTok,if_neg (by simp [empty])]
      rfl
    obtain ⟨_,upper,_,stops⟩ := nextDelim_spec str delim 1
    have starts : nextDelim str delim 1 + 1 = 0 ∨ str.length < nextDelim str delim 1 + 1 ∨
        str[nextDelim str delim 1 + 1 - 1]? = some delim := by
      right
      by_cases last : str.length < nextDelim str delim 1 + 1
      · exact .inl last
      · right
        have here := List.getElem?_eq_getElem (l := str) (i := nextDelim str delim 1) (by omega)
        rw [Nat.add_sub_cancel,here,stops _ here]
    obtain ⟨toks,yields,_⟩ := yields_found proper next starts (fun both => Nat.succ_ne_zero _ both.1)
    rw [List.head?_eq_getElem?] at first
    refine ⟨_,.cons search Nat.one_ne_zero yields,iff_of_false ?_ fun single => single.1 first⟩
    exact not_tokenizes (List.mem_cons_self) first
  · obtain ⟨toks,yields,found⟩ := yields_found proper search (.inl rfl) (fun both => first both.2)
    exact ⟨toks,yields,found.tokenizes⟩

/-- Called until it finds nothing, `str_tok` comes to an end and reads nothing behind the zero;
it finds the maximal delimiter-free substrings exactly when the string does not begin with a
delimiter and has no two of them in a row. -/
theorem str_tok_iff (proper : 0 ∉ str) (delim : UInt8) :
    (∃ fuel toks, run (Reads.tokTurn str delim) fuel (⟨0,0⟩,[]) = some (some toks)) ∧
    ((∃ fuel toks, run (Reads.tokTurn str delim) fuel (⟨0,0⟩,[]) = some (some toks) ∧
      Tokenizes str delim toks) ↔ SinglyDelimited str delim) := by
  obtain ⟨toks,yields,right⟩ := yields_start delim proper
  obtain ⟨fuel,ends⟩ := run_iff.mpr (yields [])
  rw [List.nil_append] at ends
  refine ⟨⟨fuel,toks,ends⟩,?_⟩
  rw [← right]
  constructor
  · rintro ⟨fuel',toks',ends',tokenizes⟩
    cases run_unique ends ends'
    exact tokenizes
  · exact fun tokenizes => ⟨fuel,toks,ends,tokenizes⟩

/-- `ab/c` is split at its slash. -/
theorem str_tok_iff_single : ∃ fuel toks, run (Reads.tokTurn [97,98,47,99] 47) fuel (⟨0,0⟩,[]) = some (some toks) ∧
    Tokenizes [97,98,47,99] 47 toks := by
  refine (str_tok_iff (by decide) 47).2.mpr ⟨by decide,fun i there next => ?_⟩
  match i with
  | 0 | 1 | 2 | 3 => simp at there next
  | i + 4 => simp at there

/-- In `a//b` a slash is taken for the beginning of a name. -/
theorem str_tok_repeated : ¬∀ (str : List UInt8) (delim : UInt8), 0 ∉ str →
    ∃ fuel toks, run (Reads.tokTurn str delim) fuel (⟨0,0⟩,[]) = some (some toks) ∧ Tokenizes str delim toks := by
  intro all
  obtain ⟨fuel,toks,ends,tokenizes⟩ := all [97,47,47,98] 47 (by decide)
  have ran : run (Reads.tokTurn [97,47,47,98] 47) 3 (⟨0,0⟩,[]) = some (some [⟨0,1⟩,⟨2,2⟩]) := rfl
  cases run_unique ran ends
  exact not_tokenizes (List.mem_cons_of_mem _ List.mem_cons_self) rfl tokenizes

end Siegfried
