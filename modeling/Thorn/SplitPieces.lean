import Thorn.Paths

set_option autoImplicit false

namespace Thorn.Paths

section Search
variable {delimiter str : Str} {next : ℕ}

theorem findIn_absent (h : findIn delimiter str = none) : ¬ delimiter <:+: str := by
  induction str with
  | nil =>
    rw [findIn] at h
    split_ifs at h with hd
    exact fun hin => hd (List.infix_nil.mp hin)
  | cons c str ih =>
    rw [findIn] at h
    split_ifs at h with hp
    rw [List.isPrefixOf_iff_prefix] at hp
    intro hin
    rcases List.infix_cons_iff.mp hin with hin | hin
    · exact hp hin
    · exact ih (Option.map_eq_none_iff.mp h) hin

theorem findIn_first (h : findIn delimiter str = some next) :
    delimiter <+: str.drop next ∧ ∀ i < next, ¬ delimiter <+: str.drop i := by
  induction str generalizing next with
  | nil =>
    rw [findIn] at h
    split_ifs at h with hd
    cases h
    exact ⟨hd ▸ List.nil_prefix, fun i hi => absurd hi (Nat.not_lt_zero i)⟩
  | cons c str ih =>
    rw [findIn] at h
    split_ifs at h with hp
    · cases h
      exact ⟨List.isPrefixOf_iff_prefix.mp hp, fun i hi => absurd hi (Nat.not_lt_zero i)⟩
    · obtain ⟨n, hn, rfl⟩ := Option.map_eq_some_iff.mp h
      obtain ⟨hat, hbefore⟩ := ih hn
      refine ⟨hat, fun i hi => ?_⟩
      cases i with
      | zero => exact fun hin => hp (List.isPrefixOf_iff_prefix.mpr hin)
      | succ i => exact hbefore i (Nat.lt_of_succ_lt_succ hi)

theorem findIn_around (h : findIn delimiter str = some next) :
    str = str.take next ++ delimiter ++ str.drop (next + delimiter.length) := by
  have hat := (findIn_first h).1
  calc str = str.take next ++ str.drop next := (List.take_append_drop next str).symm
    _ = str.take next ++ (delimiter ++ (str.drop next).drop delimiter.length) := by
      rw [List.prefix_iff_eq_append.mp hat]
    _ = str.take next ++ delimiter ++ str.drop (next + delimiter.length) := by
      rw [List.drop_drop, List.append_assoc]

theorem findIn_before (hd : delimiter ≠ []) (h : findIn delimiter str = some next) :
    ¬ delimiter <:+: str.take next := by
  rintro ⟨a, b, hab⟩
  have hpos := List.length_pos_of_ne_nil hd
  have hshort : a.length < next := by
    have hlen := congrArg List.length hab
    rw [List.length_append, List.length_append, List.length_take] at hlen
    omega
  have hstr : str = a ++ (delimiter ++ (b ++ str.drop next)) := by
    rw [← List.append_assoc, ← List.append_assoc, hab, List.take_append_drop]
  have hearly : delimiter <+: str.drop a.length := by
    rw [hstr, List.drop_left]
    exact List.prefix_append _ _
  exact (findIn_first h).2 a.length hshort hearly

theorem findIn_zero (hstr : str ≠ []) : findIn delimiter str = some 0 ↔ delimiter <+: str := by
  constructor
  · intro h
    have hat := (findIn_first h).1
    rwa [List.drop_zero] at hat
  · intro h
    obtain ⟨c, str, rfl⟩ := List.exists_cons_of_ne_nil hstr
    rw [findIn, if_pos (List.isPrefixOf_iff_prefix.mpr h)]

theorem findIn_shrinks (hd : delimiter ≠ []) (h : findIn delimiter str = some next) :
    (str.drop (next + delimiter.length)).length < str.length := by
  have hpos := List.length_pos_of_ne_nil hd
  have hlen := congrArg List.length (findIn_around h)
  rw [List.length_append, List.length_append] at hlen
  omega

end Search

inductive LoopPushes (delimiter : Str) (condense : Bool) : Str → List Str → Prop
  | last {rest : Str} (found : findIn delimiter rest = none) :
      LoopPushes delimiter condense rest (keepPiece condense rest)
  | round {rest : Str} {next : ℕ} {out : List Str} (found : findIn delimiter rest = some next)
      (after : LoopPushes delimiter condense (rest.drop (next + delimiter.length)) out) :
      LoopPushes delimiter condense rest (keepPiece condense (rest.take next) ++ out)

inductive SplitReturns (delimiter : Str) (condense : Bool) : Str → List Str → Prop
  | empty : SplitReturns delimiter condense [] []
  | whole {str : Str} (nonempty : str ≠ []) (found : findIn delimiter str = none) :
      SplitReturns delimiter condense str [str]
  | pieces {str : Str} {next : ℕ} {out : List Str} (nonempty : str ≠ [])
      (found : findIn delimiter str = some next)
      (loop : LoopPushes delimiter condense (str.drop (next + delimiter.length)) out) :
      SplitReturns delimiter condense str (str.take next :: out)

section Pieces
variable {delimiter : Str} {condense : Bool} {rest : Str} {out : List Str}

theorem splitLoop_pushes (hd : delimiter ≠ []) (fuel : ℕ) (hfuel : rest.length < fuel) :
    LoopPushes delimiter condense rest (splitLoop delimiter condense fuel rest) := by
  induction fuel generalizing rest with
  | zero => exact absurd hfuel (Nat.not_lt_zero _)
  | succ fuel ih =>
    rw [splitLoop]
    cases hf : findIn delimiter rest with
    | none => exact .last hf
    | some next =>
      have hless := findIn_shrinks hd hf
      exact .round hf (ih (by omega))

theorem split_returns (str : Str) (hd : delimiter ≠ []) :
    SplitReturns delimiter condense str (split str delimiter condense) := by
  rw [split]
  split_ifs with hnil
  · rw [hnil]
    exact .empty
  · cases hf : findIn delimiter str with
    | none => exact .whole hnil hf
    | some next =>
      have hless := findIn_shrinks hd hf
      exact .pieces hnil hf (splitLoop_pushes hd _ (by omega))

theorem keepPiece_all (sub : Str) : keepPiece false sub = [sub] :=
  if_neg fun h => Bool.false_ne_true h.2

theorem keepPiece_condensed (sub : Str) : keepPiece true sub = (keepPiece false sub).filter (· ≠ []) := by
  rw [keepPiece_all, keepPiece]
  by_cases h : sub = []
  · rw [if_pos ⟨h, rfl⟩, h]
    rfl
  · rw [if_neg fun h' => h h'.1, List.filter_singleton, decide_eq_true h, cond_true]

theorem LoopPushes.apart (hd : delimiter ≠ []) (h : LoopPushes delimiter false rest out) :
    ∀ piece ∈ out, ¬ delimiter <:+: piece := by
  induction h with
  | last found =>
    rw [keepPiece_all, List.forall_mem_singleton]
    exact findIn_absent found
  | round found after ih =>
    rw [keepPiece_all, List.singleton_append, List.forall_mem_cons]
    exact ⟨findIn_before hd found, ih⟩

theorem LoopPushes.ne_nil (h : LoopPushes delimiter false rest out) : out ≠ [] := by
  cases h with
  | last found =>
    rw [keepPiece_all]
    exact List.cons_ne_nil _ _
  | round found after =>
    rw [keepPiece_all]
    exact List.cons_ne_nil _ _

theorem LoopPushes.joined (h : LoopPushes delimiter false rest out) : delimiter.intercalate out = rest := by
  induction h with
  | last found => rw [keepPiece_all, List.intercalate_singleton]
  | round found after ih =>
    rw [keepPiece_all, List.singleton_append, List.intercalate_cons_of_ne_nil after.ne_nil, ih]
    exact (findIn_around found).symm

theorem SplitReturns.apart (hd : delimiter ≠ []) {str : Str} (h : SplitReturns delimiter false str out) :
    ∀ piece ∈ out, ¬ delimiter <:+: piece := by
  cases h with
  | empty => exact fun piece hp => absurd hp List.not_mem_nil
  | whole nonempty found =>
    rw [List.forall_mem_singleton]
    exact findIn_absent found
  | pieces nonempty found loop =>
    rw [List.forall_mem_cons]
    exact ⟨findIn_before hd found, loop.apart hd⟩

theorem SplitReturns.joined {str : Str} (h : SplitReturns delimiter false str out) :
    delimiter.intercalate out = str := by
  cases h with
  | empty => rfl
  | whole nonempty found => exact List.intercalate_singleton
  | pieces nonempty found loop =>
    rw [List.intercalate_cons_of_ne_nil loop.ne_nil, loop.joined]
    exact (findIn_around found).symm

theorem splitLoop_condensed (fuel : ℕ) (rest : Str) :
    splitLoop delimiter true fuel rest = (splitLoop delimiter false fuel rest).filter (· ≠ []) := by
  induction fuel generalizing rest with
  | zero => rfl
  | succ fuel ih =>
    rw [splitLoop, splitLoop]
    cases findIn delimiter rest with
    | none => exact keepPiece_condensed rest
    | some next =>
      dsimp only
      rw [ih, keepPiece_condensed, List.filter_append]

/-- The first piece is pushed without a look at `condense`: the empty pieces are
dropped just when it is not one of them. -/
theorem split_condensed_iff (str : Str) (hd : delimiter ≠ []) :
    split str delimiter true = (split str delimiter false).filter (· ≠ []) ↔ ¬ delimiter <+: str := by
  by_cases hnil : str = []
  · rw [hnil]
    exact iff_of_true rfl fun h => hd (List.prefix_nil.mp h)
  rw [← findIn_zero hnil, split, split, if_neg hnil, if_neg hnil]
  cases hf : findIn delimiter str with
  | none =>
    refine iff_of_true ?_ (by simp)
    rw [List.filter_singleton, decide_eq_true hnil, cond_true]
  | some next =>
    dsimp only
    rw [splitLoop_condensed, List.filter_cons]
    cases next with
    | zero =>
      refine iff_of_false (fun h => ?_) (not_not.mpr rfl)
      rw [List.take_zero, if_neg (by simp)] at h
      have hlong := congrArg List.length h
      rw [List.length_cons] at hlong
      omega
    | succ next =>
      have hne : str.take (next + 1) ≠ [] := by
        obtain ⟨c, str, rfl⟩ := List.exists_cons_of_ne_nil hnil
        exact List.cons_ne_nil _ _
      refine iff_of_true ?_ (by simp)
      rw [if_pos (decide_eq_true hne)]

end Pieces

/-- `split` returns, loses nothing of the string, and condensing drops the empty
pieces and nothing else. -/
structure SplitsExactly (str delimiter : Str) : Prop where
  returns : ∀ condense, SplitReturns delimiter condense str (split str delimiter condense)
  apart : ∀ piece ∈ split str delimiter false, ¬ delimiter <:+: piece
  joined : delimiter.intercalate (split str delimiter false) = str
  condensed : split str delimiter true = (split str delimiter false).filter (· ≠ [])

theorem splits_exactly_iff (str delimiter : Str) (hd : delimiter ≠ []) :
    SplitsExactly str delimiter ↔ ¬ delimiter <+: str := by
  constructor
  · exact fun h => (split_condensed_iff str hd).mp h.condensed
  · intro h
    have hreturns : SplitReturns delimiter false str (split str delimiter false) := split_returns str hd
    exact { returns := fun condense => split_returns str hd
            apart := hreturns.apart hd
            joined := hreturns.joined
            condensed := (split_condensed_iff str hd).mpr h }

theorem splits_exactly_inner : SplitsExactly [97, slash, slash, 98, slash] [slash] :=
  (splits_exactly_iff [97, slash, slash, 98, slash] [slash] (by decide)).mpr (by decide)

/-- With a delimiter in front the condensed list still has an empty piece. -/
theorem leading_piece_kept : ¬ ∀ str delimiter : Str, delimiter ≠ [] → SplitsExactly str delimiter := by
  intro h
  have hcondensed := (h [slash, 97] [slash] (by decide)).condensed
  exact absurd hcondensed (by decide)

end Thorn.Paths
