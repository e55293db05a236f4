import Mathlib.Data.List.Infix
import Mathlib.Data.List.TakeWhile

/-! `str_tok` of `klib.c`, and the components of a path. -/
namespace Siegfried

structure StrTokResult where
  off : Nat
  sz : Nat
  deriving DecidableEq

/-- Where the next `delim` is from `off` on, or the end. -/
def nextDelim (str : List UInt8) (delim : UInt8) (off : Nat) : Nat :=
  off + ((str.drop off).takeWhile (· != delim)).length

/-- The second half of `str_tok`; its first character is never looked for a `delim`,
unless it is that of the string. -/
def strTokAt (str : List UInt8) (delim : UInt8) (off : Nat) : StrTokResult :=
  if off = 0 ∧ str.head? = some delim then ⟨0,1⟩
  else
    let i := nextDelim str delim (off + 1)
    if str.length < i then ⟨0,0⟩ else ⟨off,i - off⟩

/-- `str_tok` on a string without its zero. -/
def strTok (str : List UInt8) (delim : UInt8) (res : StrTokResult) : StrTokResult :=
  if str.length < res.off ∨ str.length = 0 then ⟨0,0⟩
  else strTokAt str delim
    (if res.sz ≠ 0 then nextDelim str delim (res.off + 1) + 1 else res.off)

/-- The results of `str_tok` up to an empty one; each is behind the last, so that fuel
beyond the length of the string is enough. -/
def strToks (str : List UInt8) (delim : UInt8) : Nat → StrTokResult → List StrTokResult
  | 0, _ => []
  | fuel+1, res =>
    let res := strTok str delim res
    if res.sz = 0 then [] else res :: strToks str delim fuel res

/-- What is copied into `name`. -/
def StrTokResult.name (path : List UInt8) (res : StrTokResult) : List UInt8 :=
  (path.drop res.off).take res.sz

/-- The maximal runs of characters other than the slash. -/
def components (path : List UInt8) : List (List UInt8) := (path.splitOn 47).filter (· ≠ [])

/-- No two slashes in a row. -/
def SingleSlashes (path : List UInt8) : Prop := ¬[47,47] <:+: path

instance (path : List UInt8) : Decidable (SingleSlashes path) := inferInstanceAs (Decidable (¬_))

variable {str pre path word rest : List UInt8} {delim : UInt8} {res : StrTokResult} {off k : Nat}

theorem components_slash : components (47 :: path) = components path := by
  have split : ([] ++ 47 :: path).splitOn (47 : UInt8) = [] :: path.splitOn 47 :=
    List.splitOnP_append_cons_of_forall_mem nofun 47 rfl path
  rw [List.nil_append] at split
  rw [components,components,split]
  exact List.filter_cons_of_neg (by decide)

theorem components_word (nonempty : word ≠ []) (run : 47 ∉ word) : components word = [word] := by
  have split : word.splitOn (47 : UInt8) = [word] := by
    apply List.splitOnP_eq_singleton
    intro c member
    rw [beq_eq_false_iff_ne]
    exact ne_of_mem_of_not_mem member run
  rw [components,split]
  exact List.filter_cons_of_pos (decide_eq_true nonempty)

theorem components_cons (nonempty : word ≠ []) (run : 47 ∉ word) :
    components (word ++ 47 :: rest) = word :: components rest := by
  have split : (word ++ 47 :: rest).splitOn (47 : UInt8) = word :: rest.splitOn 47 := by
    apply List.splitOnP_append_cons_of_forall_mem
    · intro c member
      rw [beq_eq_false_iff_ne]
      exact ne_of_mem_of_not_mem member run
    · rfl
  rw [components,split]
  exact List.filter_cons_of_pos (decide_eq_true nonempty)

/-- Inside a word the next `delim` is the one behind it. -/
theorem nextDelim_word (run : delim ∉ word) (ends : ∀ c ∈ rest.head?, c = delim)
    (inside : k ≤ word.length) :
    nextDelim (pre ++ (word ++ rest)) delim (pre.length + k) = pre.length + word.length := by
  have stop : rest.takeWhile (· != delim) = [] := by
    cases rest with
    | nil => rfl
    | cons c rest => rw [ends c rfl,List.takeWhile_cons,if_neg (by simp)]
  have all : (word.drop k).takeWhile (· != delim) = word.drop k := by
    apply List.takeWhile_eq_self_iff.mpr
    intro c member
    exact bne_iff_ne.mpr (ne_of_mem_of_not_mem (List.mem_of_mem_drop member) run)
  rw [nextDelim,List.drop_append,List.drop_eq_nil_of_le (by omega),Nat.add_sub_cancel_left,
    List.nil_append,List.drop_append_of_le_length inside,List.takeWhile_append,all,if_pos rfl,stop,
    List.append_nil,List.length_drop]
  omega

theorem nextDelim_ge : off ≤ nextDelim str delim off := Nat.le_add_right ..

/-- Behind the string there is nothing. -/
theorem strTokAt_end (beyond : str.length ≤ off) (first : ∀ c ∈ str.head?, c ≠ delim) :
    strTokAt str delim off = ⟨0,0⟩ := by
  have far : off + 1 ≤ nextDelim str delim (off + 1) := nextDelim_ge
  rw [strTokAt,if_neg (fun both => first delim both.2 rfl)]
  exact if_pos (by omega)

theorem strTokAt_word (nonempty : word ≠ []) (run : delim ∉ word)
    (ends : ∀ c ∈ rest.head?, c = delim) :
    strTokAt (pre ++ (word ++ rest)) delim pre.length = ⟨pre.length,word.length⟩ := by
  have some_ : 0 < word.length := List.length_pos_of_ne_nil nonempty
  have first : ¬(pre.length = 0 ∧ (pre ++ (word ++ rest)).head? = some delim) := by
    rintro ⟨empty,head⟩
    rw [List.eq_nil_of_length_eq_zero empty,List.nil_append] at head
    cases word with
    | nil => exact nonempty rfl
    | cons c word =>
      rw [List.cons_append,List.head?_cons] at head
      exact run (Option.some.inj head ▸ List.mem_cons_self)
  rw [strTokAt,if_neg first]
  dsimp only
  rw [nextDelim_word run ends some_,if_neg,Nat.add_sub_cancel_left]
  rw [List.length_append,List.length_append]
  omega

/-- From one word the search goes on behind the delimiter that ends it. -/
theorem strTok_next (nonempty : word ≠ []) (run : delim ∉ word)
    (ends : ∀ c ∈ rest.head?, c = delim) :
    strTok (pre ++ (word ++ rest)) delim ⟨pre.length,word.length⟩ =
      strTokAt (pre ++ (word ++ rest)) delim (pre.length + word.length + 1) := by
  have some_ : 0 < word.length := List.length_pos_of_ne_nil nonempty
  have length : (pre ++ (word ++ rest)).length = pre.length + (word.length + rest.length) := by
    rw [List.length_append,List.length_append]
  rw [strTok,if_neg (by rw [length]; dsimp only; omega),if_pos (Nat.pos_iff_ne_zero.mp some_)]
  dsimp only
  rw [nextDelim_word run ends some_]

/-- A nonempty string that does not begin with a delimiter is a word and what is behind it. -/
theorem word_split (nonempty : path ≠ []) (first : path.head? ≠ some delim) :
    ∃ word rest, path = word ++ rest ∧ word ≠ [] ∧ delim ∉ word ∧ ∀ c ∈ rest.head?, c = delim := by
  refine ⟨path.takeWhile (· != delim),path.dropWhile (· != delim),List.takeWhile_append_dropWhile.symm,
    ?_,fun member => ?_,fun c head => ?_⟩
  · cases path with
    | nil => exact absurd rfl nonempty
    | cons c path =>
      have other : (c != delim) = true := bne_iff_ne.mpr fun same => first (congrArg some same)
      rw [List.takeWhile_cons,if_pos other]
      exact nofun
  · have other := List.mem_takeWhile_imp member
    simp at other
  · have stops := List.head?_dropWhile_not (· != delim) path
    rw [Option.mem_def.mp head] at stops
    simpa using stops

theorem SingleSlashes.suffix (single : SingleSlashes (pre ++ path)) : SingleSlashes path :=
  fun inside => single (inside.trans (List.suffix_append pre path).isInfix)

theorem SingleSlashes.tail (single : SingleSlashes (47 :: path)) : SingleSlashes path :=
  fun inside => single (inside.trans (List.suffix_cons 47 path).isInfix)

theorem SingleSlashes.first (single : SingleSlashes (47 :: path)) : path.head? ≠ some 47 := by
  intro head
  obtain ⟨rest,rfl⟩ := List.head?_eq_some_iff.mp head
  exact single ⟨[],rest,rfl⟩

/-- Where slashes are single, the tokens are the components. -/
theorem strToks_components {fuel : Nat} (enough : path.length < fuel) (single : SingleSlashes path)
    (first : path.head? ≠ some 47) (start : (pre ++ path).head? ≠ some 47)
    (search : strTok (pre ++ path) 47 res = strTokAt (pre ++ path) 47 pre.length) :
    (strToks (pre ++ path) 47 fuel res).map (·.name (pre ++ path)) = components path := by
  have slash : ∀ c ∈ (pre ++ path).head?, c ≠ 47 := fun c head same => start (same ▸ head)
  induction fuel generalizing pre path res with
  | zero => exact absurd enough (Nat.not_lt_zero _)
  | succ fuel ih =>
    rw [strToks]
    by_cases done : path = []
    · subst done
      rw [search,strTokAt_end (by simp) slash,if_pos rfl]
      rfl
    · obtain ⟨word,rest,rfl,nonempty,run,ends⟩ := word_split done first
      have some_ : 0 < word.length := List.length_pos_of_ne_nil nonempty
      have name : StrTokResult.name (pre ++ (word ++ rest)) ⟨pre.length,word.length⟩ = word := by
        rw [StrTokResult.name,List.drop_left,List.take_left]
      have next : strTok (pre ++ (word ++ rest)) 47 ⟨pre.length,word.length⟩ = _ :=
        strTok_next nonempty run ends
      rw [search,strTokAt_word nonempty run ends,if_neg (Nat.pos_iff_ne_zero.mp some_),
        List.map_cons,name]
      cases rest with
      | nil =>
        have last : strTok (pre ++ (word ++ [])) 47 ⟨pre.length,word.length⟩ = ⟨0,0⟩ := by
          rw [next]
          exact strTokAt_end (by simp) slash
        have none_ : strToks (pre ++ (word ++ [])) 47 fuel ⟨pre.length,word.length⟩ = [] := by
          cases fuel with
          | zero => rfl
          | succ fuel =>
            rw [strToks,last]
            rfl
        rw [none_,List.append_nil,components_word nonempty run]
        rfl
      | cons c rest =>
        obtain rfl := ends c rfl
        have rest_single : SingleSlashes (47 :: rest) := single.suffix
        have moved : pre ++ (word ++ 47 :: rest) = (pre ++ word ++ [47]) ++ rest := by simp
        have length : pre.length + word.length + 1 = (pre ++ word ++ [47]).length := by simp; omega
        rw [components_cons nonempty run]
        congr 1
        rw [moved] at next start slash ⊢
        rw [length] at next
        refine ih ?_ rest_single.tail rest_single.first start next slash
        rw [List.length_append,List.length_cons] at enough
        omega

/-- What the loop over a path finds in it. -/
def pathToks (path : List UInt8) : List StrTokResult := strToks path 47 (path.length + 1) ⟨0,0⟩

/-- The names that the loop looks up. -/
def pathNames (path : List UInt8) : List (List UInt8) := (pathToks path).map (·.name path)

theorem pathNames_components (single : SingleSlashes path) (first : path.head? ≠ some 47) :
    pathNames path = components path := by
  have search : strTok path 47 ⟨0,0⟩ = strTokAt path 47 0 := by
    cases path with
    | nil => rfl
    | cons c path => exact if_neg (by simp)
  have names := @strToks_components [] path ⟨0,0⟩ (path.length + 1) (Nat.lt_succ_self _) single first first search
  exact names

end Siegfried
