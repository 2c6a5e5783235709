import Mathlib

set_option autoImplicit false

/-!
# Path strings

`Util::split`, the two `simplifyPath` functions and the ThornFAT path helpers.
A string is the list of its bytes; a path handed over as `const char *` holds
no NUL byte.
-/
namespace Thorn.Paths

abbrev Str := List UInt8

def slash : UInt8 := 47
def dot : UInt8 := 46
def dotName : Str := [dot]
def dotDotName : Str := [dot, dot]

def findIn (delimiter : Str) : Str → Option ℕ
  | [] => if delimiter = [] then some 0 else none
  | c :: str =>
    if delimiter.isPrefixOf (c :: str) then some 0 else (findIn delimiter str).map (· + 1)

def keepPiece (condense : Bool) (sub : Str) : List Str :=
  if sub = [] ∧ condense = true then [] else [sub]

def splitLoop (delimiter : Str) (condense : Bool) : ℕ → Str → List Str
  | 0, _ => []
  | fuel + 1, rest =>
    match findIn delimiter rest with
    | none => keepPiece condense rest
    | some next => keepPiece condense (rest.take next) ++
        splitLoop delimiter condense fuel (rest.drop (next + delimiter.length))

def split (str delimiter : Str) (condense : Bool) : List Str :=
  if str = [] then [] else
    match findIn delimiter str with
    | none => [str]
    | some next => str.take next ::
        splitLoop delimiter condense (str.length + 1) (str.drop (next + delimiter.length))

/-- The editing loop of `simplifyPath`: `done` is the part of the list before
the iterator, last piece first, and the argument is the part from it on. -/
def simplifyLoop (done : List Str) : List Str → List Str
  | [] => done.reverse
  | piece :: rest =>
    if piece = [] ∨ piece = dotName ∨ piece = dotDotName ∧ done = [] then simplifyLoop done rest
    else if piece = dotDotName then simplifyLoop done.tail rest
    else simplifyLoop (piece :: done) rest

def joinPieces (pieces : List Str) : Str := pieces.flatMap (slash :: ·)

def simplifyPath (path : Str) : Str :=
  if path = [] then [slash] else
    let pieces := simplifyLoop [] (split path [slash] true)
    if pieces = [] then [slash] else joinPieces pieces

def pathFirst (path : Str) : Option Str × Str :=
  if path = [] then (none, []) else
    let path := if path.head? = some slash then path.tail else path
    let last := path.dropWhile (· ≠ slash)
    (some (path.takeWhile (· ≠ slash)), if last = [] ∨ last = [slash] then [] else last)

def lastSlash (path : Str) : ℕ → Option ℕ
  | 0 => none
  | i + 1 => if path[i]? = some slash then some i else lastSlash path i

def pathLast (path : Str) : Option Str :=
  let len := path.length
  let terminal_slash := path.getLast? = some slash
  if len = 0 then some []
  else if len = 1 ∧ terminal_slash then some []
  else
    match lastSlash path (len - 1) with
    | none => if terminal_slash then some (path.take (len - 1)) else some path
    | some last_slash =>
      let out_len := len - last_slash - 1 - (if terminal_slash then 1 else 0)
      some ((path.drop (last_slash + 1)).take out_len)

def pathParent (path : Str) : Option Str :=
  let len := path.length
  let terminal_slash := path.getLast? = some slash
  if len = 0 then some [slash]
  else if len = 1 ∧ terminal_slash then some [slash]
  else
    match lastSlash path (len - 1) with
    | none => some []
    | some last_slash => if last_slash = 0 then some [slash] else some (path.take last_slash)

/-- What repeated `pathFirst` produces: the components `find` walks. -/
def componentsLoop : ℕ → Str → List Str
  | 0, _ => []
  | fuel + 1, remaining =>
    match pathFirst remaining with
    | (none, _) => []
    | (some search, newpath) => search :: if newpath = [] then [] else componentsLoop fuel newpath

def components (path : Str) : List Str := componentsLoop path.length path

theorem pathFirst_length (path out rest : Str) (h : pathFirst path = (some out, rest)) :
    rest.length < path.length := by
  unfold pathFirst at h
  split at h
  · cases h
  · rename_i hne
    have hpos := List.length_pos_of_ne_nil hne
    simp only [Prod.mk.injEq, Option.some.injEq] at h
    obtain ⟨-, rfl⟩ := h
    split_ifs with hh hl hl
    · exact hpos
    · have hs := List.length_dropWhile_le (· ≠ slash) path.tail
      simp only [List.length_tail] at hs
      simp only [ne_eq, decide_not] at hs ⊢
      omega
    · exact hpos
    · cases path with
      | nil => exact absurd rfl hne
      | cons c path =>
        have hc : c ≠ slash := by simpa using hh
        have hs := List.length_dropWhile_le (· ≠ slash) path
        simp only [List.dropWhile_cons, ne_eq, hc, not_false_eq_true, decide_true, ite_true,
          List.length_cons] at hs ⊢
        omega

theorem componentsLoop_fuel (fuel : ℕ) (path : Str) (h : path.length ≤ fuel) :
    componentsLoop fuel path = components path := by
  induction fuel using Nat.strong_induction_on generalizing path with
  | _ fuel ih =>
    unfold components
    cases fuel with
    | zero => rw [Nat.le_zero.mp h]
    | succ fuel =>
      cases hp : path.length with
      | zero =>
        have hnil := List.length_eq_zero_iff.mp hp
        subst hnil
        simp [componentsLoop, pathFirst]
      | succ len =>
        rcases hf : pathFirst path with ⟨_ | out, rest⟩
        · simp [componentsLoop, hf]
        · have hl := pathFirst_length path out rest hf
          simp only [componentsLoop, hf]
          split_ifs
          · rfl
          · rw [ih fuel (by omega) rest (by omega), ih len (by omega) rest (by omega)]

theorem components_step (path out rest : Str) (h : pathFirst path = (some out, rest)) :
    components path = out :: if rest = [] then [] else components rest := by
  have hl := pathFirst_length path out rest h
  rw [← componentsLoop_fuel (path.length + 1) path (by omega)]
  simp only [componentsLoop, h]
  split_ifs
  · rfl
  · rw [componentsLoop_fuel path.length rest (by omega)]

end Thorn.Paths
