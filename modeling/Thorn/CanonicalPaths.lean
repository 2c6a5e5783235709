import Thorn.PathNames

set_option autoImplicit false

namespace Thorn.Paths
open FatImage

/-- The `while` loop of `simplifyPath` over the list itself and the index of the
iterator: the rounds are as many as pieces are left. -/
def editLoop : ℕ → List Str → ℕ → List Str
  | 0, split, _ => split
  | fuel + 1, split, iter =>
    match split[iter]? with
    | none => split
    | some piece =>
      if piece = [] ∨ piece = dotName ∨ piece = dotDotName ∧ iter = 0 then
        if iter + 1 = split.length then split.eraseIdx iter else editLoop fuel (split.eraseIdx iter) iter
      else if piece = dotDotName then
        -- the piece before is erased first, so the piece itself stands in its place
        editLoop fuel ((split.eraseIdx (iter - 1)).eraseIdx (iter - 1)) (iter - 1)
      else editLoop fuel split (iter + 1)

/-- What both functions do with a path that is not empty. -/
def editPath (path : Str) : Str :=
  let pieces := split path [slash] true
  let pieces := editLoop pieces.length pieces 0
  if pieces = [] then [slash] else joinPieces pieces

def simplifyPathIn (cwd path : Str) : Str :=
  let cwd := if cwd = [] then [slash] else cwd
  if path = [] then cwd else
    editPath (if path.head? ≠ some slash then
      if cwd.getLast? = some slash then cwd ++ path else cwd ++ slash :: path
    else path)

section Edit

theorem eraseIdx_middle (l m : List Str) (piece : Str) : (l ++ piece :: m).eraseIdx l.length = l ++ m := by
  rw [List.eraseIdx_append_of_length_le le_rfl, Nat.sub_self, List.eraseIdx_cons_zero]

theorem editLoop_eq (rest done : List Str) (fuel : ℕ) (hfuel : rest.length ≤ fuel) :
    editLoop fuel (done.reverse ++ rest) done.length = simplifyLoop done rest := by
  induction rest generalizing done fuel with
  | nil =>
    rw [List.append_nil, simplifyLoop]
    cases fuel with
    | zero => rfl
    | succ fuel =>
      have hend : done.reverse[done.length]? = none := List.getElem?_eq_none (by rw [List.length_reverse])
      rw [editLoop, hend]
  | cons piece rest ih =>
    obtain ⟨fuel, rfl⟩ : ∃ n, fuel = n + 1 := ⟨fuel - 1, by rw [List.length_cons] at hfuel; omega⟩
    have hrest : rest.length ≤ fuel := by
      rw [List.length_cons] at hfuel
      omega
    have hlen : done.reverse.length = done.length := List.length_reverse
    have hget : (done.reverse ++ piece :: rest)[done.length]? = some piece := by
      rw [← hlen, List.getElem?_append_right le_rfl, Nat.sub_self, List.getElem?_cons_zero]
    have herase : (done.reverse ++ piece :: rest).eraseIdx done.length = done.reverse ++ rest := by
      rw [← hlen]
      exact eraseIdx_middle _ _ _
    rw [editLoop, hget, simplifyLoop]
    dsimp only
    simp only [List.length_eq_zero_iff]
    split_ifs with hskip hlast hdots
    · have hnil : rest = [] := by
        rw [List.length_append, List.length_cons, hlen] at hlast
        exact List.length_eq_zero_iff.mp (by omega)
      rw [herase, hnil, List.append_nil, simplifyLoop]
    · rw [herase]
      exact ih done fuel hrest
    · cases done with
      | nil => exact absurd (.inr (.inr ⟨hdots, rfl⟩)) hskip
      | cons last done =>
        have hlast : (done.reverse ++ last :: piece :: rest).eraseIdx done.length =
            done.reverse ++ piece :: rest := by
          have hfirst := eraseIdx_middle done.reverse (piece :: rest) last
          rwa [List.length_reverse] at hfirst
        have hboth : (done.reverse ++ piece :: rest).eraseIdx done.length = done.reverse ++ rest := by
          have hsecond := eraseIdx_middle done.reverse rest piece
          rwa [List.length_reverse] at hsecond
        rw [List.length_cons, Nat.add_sub_cancel, List.reverse_cons, List.append_assoc, List.singleton_append,
          hlast, hboth]
        exact ih done fuel hrest
    · have hnext := ih (piece :: done) fuel hrest
      rwa [List.length_cons, List.reverse_cons, List.append_assoc, List.singleton_append] at hnext

theorem simplifyPath_edits (path : Str) (h : path ≠ []) : simplifyPath path = editPath path := by
  have hloop := editLoop_eq (split path [slash] true) [] _ le_rfl
  rw [List.reverse_nil, List.nil_append, List.length_nil] at hloop
  rw [simplifyPath, if_neg h, editPath]
  dsimp only
  rw [hloop]

end Edit

/-- One piece of a path, on the stack of the names before it. -/
def push (stack : List Str) (piece : Str) : List Str :=
  if piece = [] ∨ piece = dotName then stack else if piece = dotDotName then stack.dropLast else stack ++ [piece]

def stackOf (path : Str) : List Str := (path.splitOn slash).foldl push []

/-- The reference: a slash, and the stack joined by slashes. -/
def canonical (path : Str) : Str := slash :: [slash].intercalate (stackOf path)

section Stack

theorem push_nil (stack : List Str) : push stack [] = stack := if_pos (.inl rfl)

theorem push_plain (stack : List Str) {piece : Str} (h : Plain piece) :
    push stack piece = stack ++ [piece] := by
  rw [push, if_neg, if_neg h.dotDot]
  rintro (h' | h')
  · exact h.nonempty h'
  · exact h.dot h'

theorem foldl_plain (stack names : List Str) (h : ∀ name ∈ names, Plain name) :
    names.foldl push stack = stack ++ names := by
  induction names generalizing stack with
  | nil => rw [List.foldl_nil, List.append_nil]
  | cons name names ih =>
    rw [List.foldl_cons, push_plain _ (h name List.mem_cons_self),
      ih _ fun n hn => h n (List.mem_cons_of_mem _ hn), List.append_assoc, List.singleton_append]

theorem simplifyLoop_push (done rest : List Str) : simplifyLoop done rest = rest.foldl push done.reverse := by
  induction rest generalizing done with
  | nil => rfl
  | cons piece rest ih =>
    rw [simplifyLoop, List.foldl_cons, push]
    split_ifs with h₁ h₂ h₃ h₄ h₅
    · exact ih done
    · have hdone : done = [] := by
        rcases h₁ with h | h | h
        · exact absurd (.inl h) h₂
        · exact absurd (.inr h) h₂
        · exact h.2
      rw [ih, hdone]
      rfl
    · rcases h₁ with h | h | h
      · exact absurd (.inl h) h₂
      · exact absurd (.inr h) h₂
      · exact absurd h.1 h₃
    · rcases h₅ with h | h
      · exact absurd (.inl h) h₁
      · exact absurd (.inr (.inl h)) h₁
    · rw [ih, List.dropLast_reverse]
    · rename_i h₅
      rcases h₅ with h | h
      · exact absurd (.inl h) h₁
      · exact absurd (.inr (.inl h)) h₁
    · rw [ih, List.reverse_cons]

theorem findIn_cut (str : Str) (next : ℕ) (h : findIn [slash] str = some next) :
    str = str.take next ++ slash :: str.drop (next + 1) := by
  have hcut := findIn_around h
  rwa [List.append_assoc, List.singleton_append, List.length_singleton] at hcut

theorem splitOn_findIn {str : Str} {next : ℕ} (h : findIn [slash] str = some next) :
    str.splitOn slash = str.take next :: (str.drop (next + 1)).splitOn slash := by
  have hcut := List.splitOn_append_cons_self_of_not_mem (findIn_some str next h) (str.drop (next + 1))
  rwa [← findIn_cut str next h] at hcut

theorem keepPiece_push (stack : List Str) (sub : Str) :
    (keepPiece true sub).foldl push stack = push stack sub := by
  rw [keepPiece]
  split_ifs with h
  · rw [h.1, push_nil]
    rfl
  · rfl

theorem splitLoop_push (fuel : ℕ) (rest : Str) (stack : List Str) (hfuel : rest.length < fuel) :
    (splitLoop [slash] true fuel rest).foldl push stack = (rest.splitOn slash).foldl push stack := by
  induction fuel generalizing rest stack with
  | zero => omega
  | succ fuel ih =>
    rw [splitLoop]
    cases hf : findIn [slash] rest with
    | none =>
      rw [List.splitOn_eq_singleton (findIn_none rest hf)]
      exact keepPiece_push stack rest
    | some next =>
      have hcut := congrArg List.length (findIn_cut rest next hf)
      rw [List.length_append, List.length_cons, List.length_take] at hcut
      dsimp only
      rw [splitOn_findIn hf, List.foldl_append, keepPiece_push, List.foldl_cons, List.length_singleton]
      exact ih (rest.drop (next + 1)) _ (by omega)

theorem split_push (path : Str) (stack : List Str) :
    (split path [slash] true).foldl push stack = (path.splitOn slash).foldl push stack := by
  rw [split]
  split_ifs with h
  · subst h
    rw [List.splitOn_nil, List.foldl_cons, push_nil]
  · cases hf : findIn [slash] path with
    | none =>
      rw [List.splitOn_eq_singleton (findIn_none path hf)]
    | some next =>
      dsimp only
      rw [splitOn_findIn hf, List.foldl_cons, List.foldl_cons, List.length_singleton]
      apply splitLoop_push
      rw [List.length_drop]
      omega

theorem simplified_stack (path : Str) : simplified path = stackOf path := by
  rw [simplified, stackOf]
  split_ifs with h
  · subst h
    rw [List.splitOn_nil, List.foldl_cons, push_nil]
    rfl
  · rw [simplifyLoop_push, List.reverse_nil, split_push]

theorem stackOf_plain (path : Str) : ∀ p ∈ stackOf path, Plain p := by
  rw [← simplified_stack]
  exact simplified_plain path

theorem simplifyPath_canonical (path : Str) : simplifyPath path = canonical path := by
  rw [simplifyPath_eq, simplified_stack, canonical]
  cases stackOf path with
  | nil => rfl
  | cons p rest =>
    rw [if_neg (List.cons_ne_nil p rest), intercalate_join]
    rfl

theorem stackOf_append (a b : Str) : stackOf (a ++ slash :: b) = (b.splitOn slash).foldl push (stackOf a) := by
  rw [stackOf, List.splitOn_append_cons_self, List.foldl_append]
  rfl

theorem stackOf_lead (b : Str) : stackOf (slash :: b) = stackOf b := by
  rw [stackOf, List.splitOn_cons_eq_if_modifyHead, if_pos (beq_self_eq_true slash), List.foldl_cons, push_nil]
  rfl

theorem Spells.stackOf_eq {path : Str} {names : List Str} (h : Spells path names) : stackOf path = names := by
  have hjoined : stackOf ([slash].intercalate names) = names := by
    rw [stackOf, List.splitOn_intercalate slash (fun name hn => (h.plain name hn).noSlash) h.nonempty]
    exact foldl_plain [] names h.plain
  obtain ⟨lead, tail, hlead, htail, rfl⟩ := h.text
  have htailed : stackOf ([slash].intercalate names ++ tail) = names := by
    rcases htail with rfl | rfl
    · rw [List.append_nil, hjoined]
    · rw [stackOf_append, hjoined, List.splitOn_nil, List.foldl_cons, List.foldl_nil, push_nil]
  rcases hlead with rfl | rfl
  · exact htailed
  · rw [List.singleton_append, List.cons_append, stackOf_lead, htailed]

theorem Spells.pathNames_simplify {path : Str} {names : List Str} (h : Spells path names) :
    FatImage.pathNames (simplifyPath path) = names := by
  rw [pathNames_simplifyPath, simplified_stack, h.stackOf_eq]

theorem stackOf_canonical (path : Str) : stackOf (canonical path) = stackOf path := by
  have hplain := stackOf_plain path
  rw [canonical, stackOf_lead]
  generalize stackOf path = names at hplain ⊢
  cases names with
  | nil => rfl
  | cons p rest =>
    rw [stackOf, List.splitOn_intercalate slash (fun name hn => (hplain name hn).noSlash)
      (List.cons_ne_nil p rest), foldl_plain [] _ hplain, List.nil_append]

theorem canonical_congr {a b : Str} (h : stackOf a = stackOf b) : canonical a = canonical b := by
  rw [canonical, canonical, h]

end Stack

section Both

theorem editPath_canonical (path : Str) : editPath path = canonical path := by
  by_cases h : path = []
  · rw [h]
    rfl
  · rw [← simplifyPath_edits path h, simplifyPath_canonical]

theorem stackOf_closed (a b : Str) (h : a.getLast? = some slash) :
    stackOf (a ++ b) = stackOf (a ++ slash :: b) := by
  obtain ⟨c, rfl⟩ := List.getLast?_eq_some_iff.mp h
  rw [List.append_assoc, List.append_assoc, List.singleton_append, List.singleton_append, stackOf_append,
    stackOf_append,
    List.splitOn_cons_eq_if_modifyHead, if_pos (beq_self_eq_true slash), List.foldl_cons, push_nil]

theorem simplifyPathIn_eq (cwd : Str) {path : Str} (h : path ≠ []) :
    simplifyPathIn cwd path = canonical (if path.head? = some slash then path else cwd ++ slash :: path) := by
  rw [simplifyPathIn, if_neg h, editPath_canonical]
  apply canonical_congr
  by_cases habs : path.head? = some slash
  · rw [if_neg (not_not.mpr habs), if_pos habs]
  · rw [if_pos habs, if_neg habs]
    by_cases hempty : cwd = []
    · rw [if_pos hempty, hempty]
      rfl
    · rw [if_neg hempty]
      by_cases hlast : cwd.getLast? = some slash
      · rw [if_pos hlast]
        exact stackOf_closed cwd path hlast
      · rw [if_neg hlast]

theorem canonical_ne_nil (path : Str) : canonical path ≠ [] := List.cons_ne_nil _ _

theorem canonical_head (path : Str) : (canonical path).head? = some slash := rfl

theorem canonical_twice (path : Str) : canonical (canonical path) = canonical path :=
  canonical_congr (stackOf_canonical path)

/-- Both functions compute the canonical path, so that neither changes what it has computed, and a relative path
may be appended before or after. -/
theorem simplifies_canonically (cwd path rest : Str) :
    simplifyPath path = canonical path ∧
    (path ≠ [] → simplifyPathIn cwd path =
      if path.head? = some slash then simplifyPath path else simplifyPath (cwd ++ slash :: path)) ∧
    simplifyPath (simplifyPath path) = simplifyPath path ∧
    (path ≠ [] → simplifyPathIn cwd (simplifyPathIn cwd path) = simplifyPathIn cwd path) ∧
    (path ≠ [] → rest ≠ [] → rest.head? ≠ some slash →
      simplifyPathIn (simplifyPathIn cwd path) rest = simplifyPathIn cwd (path ++ slash :: rest)) := by
  refine ⟨simplifyPath_canonical path, fun h => ?_, ?_, fun h => ?_, fun h hrest hrel => ?_⟩
  · rw [simplifyPathIn_eq cwd h, simplifyPath_canonical, simplifyPath_canonical]
    split_ifs <;> rfl
  · rw [simplifyPath_canonical, simplifyPath_canonical, canonical_twice]
  · rw [simplifyPathIn_eq cwd h, simplifyPathIn_eq cwd (canonical_ne_nil _), if_pos (canonical_head _),
      canonical_twice]
  · have hhead : (path ++ slash :: rest).head? = path.head? := by
      cases path with
      | nil => exact absurd rfl h
      | cons c path => rfl
    have hne : path ++ slash :: rest ≠ [] := List.append_ne_nil_of_left_ne_nil h _
    rw [simplifyPathIn_eq _ hrest, if_neg hrel, simplifyPathIn_eq cwd h, simplifyPathIn_eq cwd hne, hhead]
    apply canonical_congr
    rw [stackOf_append, stackOf_canonical]
    split_ifs with habs
    · rw [stackOf_append]
    · rw [← List.cons_append, ← List.append_assoc, stackOf_append, stackOf_append (cwd ++ slash :: path),
        stackOf_append]

end Both

end Thorn.Paths
