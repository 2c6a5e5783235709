import Thorn.FatImage
import Thorn.SplitPieces

set_option autoImplicit false

namespace Thorn.Paths
open FatImage

structure Plain (piece : Str) : Prop where
  nonempty : piece ≠ []
  dot : piece ≠ dotName
  dotDot : piece ≠ dotDotName
  noSlash : slash ∉ piece

theorem findIn_none (str : Str) (h : findIn [slash] str = none) : slash ∉ str :=
  fun hm => findIn_absent h ((List.singleton_infix_iff _ _).mpr hm)

theorem findIn_some (str : Str) (next : ℕ) (h : findIn [slash] str = some next) : slash ∉ str.take next :=
  fun hm => findIn_before (List.cons_ne_nil slash []) h ((List.singleton_infix_iff _ _).mpr hm)

theorem keepPiece_mem {condense : Bool} {sub piece : Str} (h : piece ∈ keepPiece condense sub) :
    piece = sub := by
  unfold keepPiece at h
  split_ifs at h
  · cases h
  · exact List.mem_singleton.mp h

theorem splitLoop_noSlash (condense : Bool) (fuel : ℕ) (rest : Str) :
    ∀ piece ∈ splitLoop [slash] condense fuel rest, slash ∉ piece := by
  induction fuel generalizing rest with
  | zero => simp [splitLoop]
  | succ fuel ih =>
    intro piece hp
    rw [splitLoop] at hp
    cases hf : findIn [slash] rest with
    | none =>
      rw [hf] at hp
      rw [keepPiece_mem hp]
      exact findIn_none rest hf
    | some next =>
      rw [hf] at hp
      rcases List.mem_append.mp hp with hp | hp
      · rw [keepPiece_mem hp]
        exact findIn_some rest next hf
      · exact ih _ piece hp

theorem split_noSlash (path : Str) (condense : Bool) :
    ∀ piece ∈ split path [slash] condense, slash ∉ piece := by
  intro piece hp
  rw [split] at hp
  split_ifs at hp with hnil
  · cases hp
  · cases hf : findIn [slash] path with
    | none =>
      rw [hf] at hp
      rw [List.mem_singleton.mp hp]
      exact findIn_none path hf
    | some next =>
      rw [hf] at hp
      rcases List.mem_cons.mp hp with rfl | hp
      · exact findIn_some path next hf
      · exact splitLoop_noSlash condense _ _ piece hp

theorem simplifyLoop_plain (done pieces : List Str) (hdone : ∀ p ∈ done, Plain p)
    (hp : ∀ p ∈ pieces, slash ∉ p) : ∀ p ∈ simplifyLoop done pieces, Plain p := by
  induction pieces generalizing done with
  | nil =>
    intro p hm
    exact hdone p (by simpa [simplifyLoop] using hm)
  | cons piece rest ih =>
    have hrest : ∀ p ∈ rest, slash ∉ p := fun p hm => hp p (by simp [hm])
    rw [simplifyLoop]
    split_ifs with h₁ h₂
    · exact ih done hdone hrest
    · exact ih done.tail (fun p hm => hdone p (List.mem_of_mem_tail hm)) hrest
    · apply ih (piece :: done) _ hrest
      intro p hm
      rcases List.mem_cons.mp hm with rfl | hm
      · exact ⟨fun h => h₁ (.inl h), fun h => h₁ (.inr (.inl h)), h₂, hp p (by simp)⟩
      · exact hdone p hm

def simplified (path : Str) : List Str :=
  if path = [] then [] else simplifyLoop [] (split path [slash] true)

theorem simplified_plain (path : Str) : ∀ p ∈ simplified path, Plain p := by
  unfold simplified
  split_ifs
  · simp
  · exact simplifyLoop_plain [] _ (by simp) (split_noSlash path true)

theorem simplifyPath_eq (path : Str) :
    simplifyPath path = if simplified path = [] then [slash] else joinPieces (simplified path) := by
  unfold simplifyPath simplified
  by_cases h : path = []
  · rw [if_pos h, if_pos h, if_pos rfl]
  · rw [if_neg h, if_neg h]

theorem takeWhile_noSlash (p rest : Str) (h : slash ∉ p) :
    (p ++ slash :: rest).takeWhile (· ≠ slash) = p ∧ (p ++ slash :: rest).dropWhile (· ≠ slash) = slash :: rest := by
  have hall : ∀ c ∈ p, decide (c ≠ slash) = true := fun c hc => decide_eq_true fun he => h (he ▸ hc)
  constructor
  · rw [List.takeWhile_append_of_pos hall]
    simp
  · rw [List.dropWhile_append_of_pos hall]
    simp

theorem takeWhile_all (p : Str) (h : slash ∉ p) :
    p.takeWhile (· ≠ slash) = p ∧ p.dropWhile (· ≠ slash) = [] := by
  have hall : ∀ c ∈ p, decide (c ≠ slash) = true := fun c hc => decide_eq_true fun he => h (he ▸ hc)
  exact ⟨List.takeWhile_eq_self_iff.mpr hall, List.dropWhile_eq_nil_iff.mpr hall⟩

theorem components_closed (pieces : List Str) (h : ∀ p ∈ pieces, p ≠ [] ∧ slash ∉ p) (hpieces : pieces ≠ [])
    {tail : Str} (htail : tail = [] ∨ tail = [slash]) : components (joinPieces pieces ++ tail) = pieces := by
  induction pieces with
  | nil => exact absurd rfl hpieces
  | cons p rest ih =>
    obtain ⟨hne, hno⟩ := h p (by simp)
    cases rest with
    | nil =>
      have hpath : joinPieces [p] ++ tail = slash :: (p ++ tail) := by simp [joinPieces]
      have hsplit : (p ++ tail).takeWhile (· ≠ slash) = p ∧ (p ++ tail).dropWhile (· ≠ slash) = tail := by
        rcases htail with rfl | rfl
        · rw [List.append_nil]
          exact takeWhile_all p hno
        · exact takeWhile_noSlash p [] hno
      have hfirst : pathFirst (slash :: (p ++ tail)) = (some p, []) := by
        simp only [pathFirst, reduceCtorEq, ite_false, List.head?_cons, ite_true, List.tail_cons, hsplit.1,
          hsplit.2, htail]
      rw [hpath, components_step _ _ _ hfirst, if_pos rfl]
    | cons q rest =>
      obtain ⟨hq, -⟩ := h q (by simp)
      have hrest := ih (fun q hq => h q (by simp [hq])) (List.cons_ne_nil q rest)
      have hlong : joinPieces (q :: rest) ++ tail = slash :: (q ++ joinPieces rest ++ tail) := rfl
      have hnot : ¬ (joinPieces (q :: rest) ++ tail = [] ∨ joinPieces (q :: rest) ++ tail = [slash]) := by
        rw [hlong]
        simp [hq]
      have hjoin : joinPieces (p :: q :: rest) ++ tail = slash :: (p ++ (joinPieces (q :: rest) ++ tail)) := by
        simp [joinPieces]
      have hfirst : pathFirst (slash :: (p ++ (joinPieces (q :: rest) ++ tail))) =
          (some p, joinPieces (q :: rest) ++ tail) := by
        have hsplit := takeWhile_noSlash p (q ++ joinPieces rest ++ tail) hno
        rw [← hlong] at hsplit
        simp only [pathFirst, reduceCtorEq, ite_false, List.head?_cons, ite_true, List.tail_cons, hsplit.1,
          hsplit.2, hnot]
      rw [hjoin, components_step _ _ _ hfirst, if_neg fun he => hnot (.inl he), hrest]

theorem components_join (pieces : List Str) (h : ∀ p ∈ pieces, p ≠ [] ∧ slash ∉ p) :
    components (joinPieces pieces) = pieces := by
  by_cases hp : pieces = []
  · rw [hp]
    rfl
  · have hclosed := components_closed pieces h hp (.inl rfl)
    rwa [List.append_nil] at hclosed

theorem components_slash (path : Str) (h : path ≠ []) (hhead : path.head? ≠ some slash) :
    components (slash :: path) = components path := by
  obtain ⟨search, rest, hfirst⟩ : ∃ search rest, pathFirst path = (some search, rest) := by
    rw [pathFirst, if_neg h]
    exact ⟨_, _, rfl⟩
  have hsame : pathFirst (slash :: path) = pathFirst path := by
    rw [pathFirst, pathFirst, if_neg (List.cons_ne_nil _ _), if_neg h, if_neg hhead]
    rfl
  rw [components_step _ _ _ (hsame.trans hfirst), components_step _ _ _ hfirst]

structure Spells (path : Str) (names : List Str) : Prop where
  nonempty : names ≠ []
  plain : ∀ name ∈ names, Plain name
  text : ∃ lead tail : Str, (lead = [] ∨ lead = [slash]) ∧ (tail = [] ∨ tail = [slash]) ∧
    path = lead ++ [slash].intercalate names ++ tail

theorem intercalate_join (p : Str) (rest : List Str) :
    [slash].intercalate (p :: rest) = p ++ joinPieces rest := by
  induction rest generalizing p with
  | nil => simp [joinPieces]
  | cons q rest ih =>
    rw [List.intercalate_cons_cons, ih]
    simp [joinPieces]

theorem Spells.pathNames {path : Str} {names : List Str} (h : Spells path names) : pathNames path = names := by
  obtain ⟨hne, hplain, lead, tail, hlead, htail, rfl⟩ := h
  obtain ⟨p, rest, rfl⟩ := List.exists_cons_of_ne_nil hne
  obtain ⟨c, p, rfl⟩ := List.exists_cons_of_ne_nil (hplain p (by simp)).nonempty
  have hc : c ≠ slash := fun he => (hplain (c :: p) (by simp)).noSlash (he ▸ List.mem_cons_self)
  have hbody : [slash].intercalate ((c :: p) :: rest) ++ tail = c :: (p ++ joinPieces rest ++ tail) := by
    rw [intercalate_join]
    simp
  have hclosed := components_closed ((c :: p) :: rest)
    (fun q hq => ⟨(hplain q hq).nonempty, (hplain q hq).noSlash⟩) (List.cons_ne_nil _ _) htail
  have hjoin : joinPieces ((c :: p) :: rest) ++ tail = slash :: (c :: (p ++ joinPieces rest ++ tail)) := by
    simp [joinPieces]
  have hhead : (c :: (p ++ joinPieces rest ++ tail)).head? ≠ some slash := by simpa using hc
  rw [hjoin] at hclosed
  rw [List.append_assoc, hbody]
  rcases hlead with rfl | rfl
  · rw [List.nil_append, FatImage.pathNames, if_neg (by simp [hc]),
      ← components_slash _ (List.cons_ne_nil _ _) hhead]
    exact hclosed
  · rw [List.singleton_append, FatImage.pathNames, if_neg (by simp)]
    exact hclosed

theorem Spells.noDots {path : Str} {names : List Str} (h : Spells path names) : NoDots path := by
  rw [NoDots, h.pathNames]
  exact ⟨fun hm => (h.plain _ hm).dot rfl, fun hm => (h.plain _ hm).dotDot rfl⟩

theorem pathNames_simplifyPath (path : Str) : pathNames (simplifyPath path) = simplified path := by
  have hplain := simplified_plain path
  rw [simplifyPath_eq]
  cases hs : simplified path with
  | nil =>
    rw [if_pos rfl, pathNames, if_pos (.inl rfl)]
  | cons p rest =>
    rw [hs] at hplain
    have hne := (hplain p (by simp)).nonempty
    have hjoin : joinPieces (p :: rest) = slash :: (p ++ joinPieces rest) := rfl
    rw [if_neg (by simp), pathNames, if_neg (by rw [hjoin]; simp [hne])]
    exact components_join _ fun q hq => ⟨(hplain q hq).nonempty, (hplain q hq).noSlash⟩

theorem simplifyPath_noDots (path : Str) : NoDots (simplifyPath path) := by
  rw [NoDots, pathNames_simplifyPath]
  exact ⟨fun h => (simplified_plain path _ h).dot rfl, fun h => (simplified_plain path _ h).dotDot rfl⟩

def afterSlash (path : Str) : Str := (path.reverse.takeWhile (· ≠ slash)).reverse

def stripSlash (path : Str) : Str := if path.getLast? = some slash then path.dropLast else path

theorem afterSlash_split (a b : Str) (h : slash ∉ b) : afterSlash (a ++ slash :: b) = b := by
  have hrev : (a ++ slash :: b).reverse = b.reverse ++ slash :: a.reverse := by simp
  rw [afterSlash, hrev, (takeWhile_noSlash _ _ (by simpa using h)).1, List.reverse_reverse]

theorem afterSlash_all (b : Str) (h : slash ∉ b) : afterSlash b = b := by
  rw [afterSlash, (takeWhile_all _ (by simpa using h)).1, List.reverse_reverse]

theorem afterSlash_append (a b : Str) (h : slash ∈ b) : afterSlash (a ++ b) = afterSlash b := by
  have hr : slash ∈ b.reverse := by simpa using h
  rw [afterSlash, afterSlash, List.reverse_append, List.takeWhile_append, if_neg]
  intro he
  have hall : b.reverse.takeWhile (· ≠ slash) = b.reverse := List.takeWhile_prefix _ |>.eq_of_length he
  have := List.takeWhile_eq_self_iff.mp hall slash hr
  simp at this

theorem lastSlash_none (path : Str) (n : ℕ) (h : lastSlash path n = none) : ∀ i < n, path[i]? ≠ some slash := by
  induction n with
  | zero => exact fun i hi => absurd hi (Nat.not_lt_zero i)
  | succ n ih =>
    rw [lastSlash] at h
    split_ifs at h with hs
    intro i hi
    rcases Nat.lt_succ_iff_lt_or_eq.mp hi with hi | rfl
    · exact ih h i hi
    · exact hs

theorem lastSlash_some (path : Str) (n i : ℕ) (h : lastSlash path n = some i) :
    i < n ∧ path[i]? = some slash ∧ ∀ j, i < j → j < n → path[j]? ≠ some slash := by
  induction n with
  | zero => cases h
  | succ n ih =>
    rw [lastSlash] at h
    split_ifs at h with hs
    · cases h
      exact ⟨Nat.lt_succ_self _, hs, fun j h₁ h₂ => by omega⟩
    · obtain ⟨hi, he, hno⟩ := ih h
      refine ⟨by omega, he, fun j h₁ h₂ => ?_⟩
      rcases Nat.lt_succ_iff_lt_or_eq.mp h₂ with h₂ | rfl
      · exact hno j h₁ h₂
      · exact hs

theorem mem_take_drop {path : Str} {i n : ℕ} {c : UInt8} (h : c ∈ (path.drop i).take n) :
    ∃ j, i ≤ j ∧ j < i + n ∧ path[j]? = some c := by
  obtain ⟨j, hj⟩ := List.mem_iff_getElem?.mp h
  rw [List.getElem?_take] at hj
  split_ifs at hj with hlt
  rw [List.getElem?_drop] at hj
  exact ⟨i + j, by omega, by omega, hj⟩

theorem stripSlash_take (path : Str) :
    stripSlash path = path.take (path.length - if path.getLast? = some slash then 1 else 0) := by
  unfold stripSlash
  split_ifs
  · exact List.dropLast_eq_take
  · rw [Nat.sub_zero, List.take_length]

theorem stripSlash_end {path : Str} {i : ℕ} (hi : path.length - 1 ≤ i)
    (hlt : i < path.length - if path.getLast? = some slash then 1 else 0) : path[i]? ≠ some slash := by
  split_ifs at hlt with ht
  · omega
  · obtain rfl : i = path.length - 1 := by omega
    rwa [← List.getLast?_eq_getElem?]

theorem lastSlash_strip_none {path : Str} (h : lastSlash path (path.length - 1) = none) :
    slash ∉ stripSlash path := by
  intro hm
  rw [stripSlash_take, ← List.drop_zero (l := path)] at hm
  obtain ⟨j, -, hj, he⟩ := mem_take_drop hm
  simp only [List.drop_zero] at hj
  by_cases hjl : j < path.length - 1
  · exact lastSlash_none path _ h j hjl he
  · exact stripSlash_end (by omega) (by omega) he

theorem lastSlash_strip_some {path : Str} {i : ℕ} (h : lastSlash path (path.length - 1) = some i) :
    stripSlash path = path.take i ++ slash :: afterSlash (stripSlash path) ∧
      afterSlash (stripSlash path) =
        (path.drop (i + 1)).take (path.length - i - 1 - if path.getLast? = some slash then 1 else 0) := by
  obtain ⟨hi, he, hno⟩ := lastSlash_some path _ i h
  have hsplit : stripSlash path = path.take i ++ slash :: (path.drop (i + 1)).take
      (path.length - i - 1 - if path.getLast? = some slash then 1 else 0) := by
    have hget : path.drop i = slash :: path.drop (i + 1) := by
      have hlt : i < path.length := by omega
      rw [List.drop_eq_getElem_cons hlt]
      rw [List.getElem?_eq_getElem hlt] at he
      rw [Option.some.inj he]
    have hcut : path.length - (if path.getLast? = some slash then 1 else 0) =
        i + (path.length - i - 1 - (if path.getLast? = some slash then 1 else 0) + 1) := by
      split_ifs <;> omega
    rw [stripSlash_take, hcut, List.take_add, hget, List.take_succ_cons]
  have hlast : afterSlash (stripSlash path) = (path.drop (i + 1)).take
      (path.length - i - 1 - if path.getLast? = some slash then 1 else 0) := by
    rw [hsplit, afterSlash_split]
    intro hm
    obtain ⟨j, hj, hlt, hej⟩ := mem_take_drop hm
    by_cases hjl : j < path.length - 1
    · exact hno j (by omega) hjl hej
    · exact stripSlash_end (by omega) (by omega) hej
  exact ⟨by rw [hlast]; exact hsplit, hlast⟩

theorem not_only_slash {path : Str} (h : path ≠ [slash]) :
    ¬ (path.length = 1 ∧ path.getLast? = some slash) := by
  rintro ⟨h₁, h₂⟩
  obtain ⟨c, rfl⟩ := List.length_eq_one_iff.mp h₁
  simp only [List.getLast?_singleton, Option.some.injEq] at h₂
  exact h (h₂ ▸ rfl)

theorem pathLast_strip (path : Str) (h : path ≠ []) (h' : path ≠ [slash]) :
    pathLast path = some (afterSlash (stripSlash path)) := by
  have hlen := List.length_pos_of_ne_nil h
  unfold pathLast
  dsimp only
  rw [if_neg (by omega), if_neg (not_only_slash h')]
  cases hs : lastSlash path (path.length - 1) with
  | none =>
    rw [afterSlash_all _ (lastSlash_strip_none hs), stripSlash_take]
    dsimp only
    split_ifs
    · rfl
    · rw [Nat.sub_zero, List.take_length]
  | some i => rw [(lastSlash_strip_some hs).2]

theorem stripSlash_append (a b : Str) (h : b ≠ []) : stripSlash (a ++ b) = a ++ stripSlash b := by
  unfold stripSlash
  rw [List.getLast?_append_of_ne_nil _ h, List.dropLast_append_of_ne_nil h]
  split_ifs <;> rfl

theorem stripSlash_none (b : Str) (h : slash ∉ b) : stripSlash b = b :=
  if_neg fun he => h (List.mem_of_getLast? he)

theorem slash_mem_strip (b : Str) (h : b ≠ []) : slash ∈ stripSlash (slash :: b) := by
  have ha := stripSlash_append [slash] b h
  rw [List.singleton_append] at ha
  rw [ha]
  simp

theorem pathFirst_split (path : Str) (h : path ≠ []) : ∃ lead search last : Str,
    (lead = [] ∨ lead = [slash]) ∧ path = lead ++ search ++ last ∧ slash ∉ search ∧
      (last = [] ∨ ∃ y, last = slash :: y) ∧
      pathFirst path = (some search, if last = [] ∨ last = [slash] then [] else last) := by
  have hsplit : ∀ p : Str, slash ∉ p.takeWhile (· ≠ slash) ∧
      (p.dropWhile (· ≠ slash) = [] ∨ ∃ y, p.dropWhile (· ≠ slash) = slash :: y) := by
    intro p
    constructor
    · intro hm
      have := List.mem_takeWhile_imp hm
      simp at this
    · cases hl : p.dropWhile (· ≠ slash) with
      | nil => exact .inl rfl
      | cons c y =>
        have hc := List.head?_dropWhile_not (· ≠ slash) p
        rw [hl] at hc
        have hc : c = slash := by simpa using hc
        exact .inr ⟨y, by rw [hc]⟩
  unfold pathFirst
  rw [if_neg h]
  dsimp only
  by_cases hh : path.head? = some slash
  · obtain ⟨tail, rfl⟩ : ∃ tail, path = slash :: tail := ⟨path.tail, (List.cons_head?_tail hh).symm⟩
    rw [if_pos hh]
    refine ⟨[slash], _, _, .inr rfl, ?_, (hsplit tail).1, (hsplit tail).2, rfl⟩
    rw [List.append_assoc, List.takeWhile_append_dropWhile, List.singleton_append]
  · rw [if_neg hh]
    refine ⟨[], _, _, .inl rfl, ?_, (hsplit path).1, (hsplit path).2, rfl⟩
    rw [List.nil_append, List.takeWhile_append_dropWhile]

theorem afterSlash_lead {lead search : Str} (h : lead = [] ∨ lead = [slash]) (hs : slash ∉ search) :
    afterSlash (lead ++ search) = search := by
  rcases h with rfl | rfl
  · exact afterSlash_all search hs
  · exact afterSlash_split [] search hs

theorem components_last (path : Str) (h : path ≠ []) (h' : path ≠ [slash]) :
    (components path).getLastD [] = afterSlash (stripSlash path) := by
  induction hn : path.length using Nat.strong_induction_on generalizing path with
  | _ n ih =>
    subst hn
    obtain ⟨lead, search, last, hlead, hpath, hs, hl, hp⟩ := pathFirst_split path h
    have hlen := pathFirst_length path search _ hp
    rw [components_step path search _ hp]
    by_cases hlast : last = [] ∨ last = [slash]
    · rw [if_pos hlast, if_pos rfl]
      have hstrip : stripSlash path = lead ++ search := by
        rcases hlast with rfl | rfl
        · rw [List.append_nil] at hpath
          have hne : search ≠ [] := by
            rintro rfl
            rw [List.append_nil] at hpath
            rcases hlead with rfl | rfl
            · exact h hpath
            · exact h' hpath
          rw [hpath, stripSlash_append _ _ hne, stripSlash_none _ hs]
        · rw [hpath, stripSlash_append _ _ (by simp)]
          exact List.append_nil _
      rw [hstrip, afterSlash_lead hlead hs]
      rfl
    · rw [if_neg hlast] at hlen ⊢
      push Not at hlast
      obtain ⟨hne, hone⟩ := hlast
      obtain ⟨y, rfl⟩ := hl.resolve_left hne
      have hy : y ≠ [] := by
        rintro rfl
        exact hone rfl
      have hrest := ih _ hlen _ hne hone rfl
      obtain ⟨_, next, _, -, -, -, -, hnext⟩ := pathFirst_split _ hne
      rw [components_step _ next _ hnext, List.getLastD_cons] at hrest
      rw [if_neg hne, components_step _ next _ hnext, List.getLastD_cons, List.getLastD_cons]
      rw [hpath, stripSlash_append _ _ hne, afterSlash_append _ _ (slash_mem_strip y hy)]
      exact hrest

theorem pathLast_eq (path : Str) (h : ¬ (path = [slash] ∨ path = [])) :
    pathLast path = some ((pathNames path).getLastD []) := by
  push Not at h
  rw [pathLast_strip path h.2 h.1, pathNames, if_neg (by tauto), components_last path h.2 h.1]

end Thorn.Paths
