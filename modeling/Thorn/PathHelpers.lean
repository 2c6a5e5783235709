import Thorn.CanonicalPaths
import Thorn.FatDriver

set_option autoImplicit false

namespace Thorn.Paths
open FatDriver

/-- What `pathFirst` produces when it is applied to a path and then to each
remainder, up to an empty remainder or no result. -/
inductive Walked : Str → List Str → Prop
  | none {path newpath : Str} (first : pathFirst path = (.none, newpath)) : Walked path []
  | last {path search : Str} (first : pathFirst path = (some search, [])) : Walked path [search]
  | next {path search newpath : Str} {names : List Str} (first : pathFirst path = (some search, newpath))
      (more : newpath ≠ []) (rest : Walked newpath names) : Walked path (search :: names)

theorem pathFirst_nil : pathFirst [] = (none, []) := rfl

theorem components_nil : components [] = [] := rfl

theorem walked_components (path : Str) : Walked path (components path) := by
  induction hn : path.length using Nat.strong_induction_on generalizing path with
  | _ n ih =>
    subst hn
    by_cases h : path = []
    · rw [h, components_nil]
      exact .none pathFirst_nil
    · obtain ⟨_, search, last, -, -, -, -, hfirst⟩ := pathFirst_split path h
      have hless := pathFirst_length path search _ hfirst
      rw [components_step path search _ hfirst]
      by_cases hlast : last = [] ∨ last = [slash]
      · rw [if_pos hlast] at hfirst ⊢
        rw [if_pos rfl]
        exact .last hfirst
      · rw [if_neg hlast] at hfirst hless ⊢
        have hmore : last ≠ [] := fun hnil => hlast (.inl hnil)
        rw [if_neg hmore]
        exact .next hfirst hmore (ih _ hless last rfl)

theorem Walked.eq {path : Str} {names : List Str} (h : Walked path names) : names = components path := by
  induction h with
  | @none path newpath first =>
    have hnil : path = [] := by
      by_contra hne
      obtain ⟨_, search, last, -, -, -, -, hfirst⟩ := pathFirst_split path hne
      rw [hfirst] at first
      cases first
    rw [hnil, components_nil]
  | last first => rw [components_step _ _ _ first, if_pos rfl]
  | next first more rest ih => rw [components_step _ _ _ first, if_neg more, ih]

theorem pathLast_components (path : Str) : pathLast path = some ((components path).getLastD []) := by
  by_cases h : path = []
  · rw [h]
    rfl
  · by_cases h' : path = [slash]
    · rw [h']
      rfl
    · rw [pathLast_strip path h h', components_last path h h']

section Find
variable {σ : Type} [StorageDevice σ]

theorem findLoop_lastName (fuel : ℕ) {remaining : Str} (dir : FatTypes.DirEntry) (dir_offset : ℕ)
    {d d' : Driver σ} {r : FindResult} (hne : remaining ≠ [])
    (h : findLoop true fuel remaining dir dir_offset d = some (r, d')) (hr : r.status = 0) :
    r.last_name = (components remaining).getLastD [] := by
  induction fuel generalizing remaining dir dir_offset d with
  | zero => cases h
  | succ fuel ih =>
    obtain ⟨_, search, last, -, -, -, -, hfirst⟩ := pathFirst_split remaining hne
    rw [findLoop, hfirst] at h
    rw [components_step remaining search _ hfirst]
    generalize (if last = [] ∨ last = [slash] then [] else last) = newpath at h ⊢
    dsimp only at h
    by_cases hnew : newpath = []
    · rw [if_pos ⟨hnew, rfl⟩] at h
      rw [if_pos hnew]
      cases h
      rfl
    · rw [if_neg fun hboth => hnew hboth.1] at h
      rw [if_neg hnew]
      obtain ⟨⟨listing, d₁⟩, -, h⟩ := Option.bind_eq_some_iff.mp h
      dsimp only at h
      split_ifs at h with hbad
      · cases h
        exact absurd hr hbad.ne
      · obtain ⟨⟨hit, d₂⟩, -, h⟩ := Option.bind_eq_some_iff.mp h
        cases hit with
        | none =>
          cases h
          exact absurd hr (by decide)
        | some hit =>
          dsimp only at h
          split_ifs at h with hfile
          · cases h
            exact absurd hr (by decide)
          · have hrest := ih _ _ hnew h
            obtain ⟨_, next, _, -, -, -, -, hnext⟩ := pathFirst_split newpath hnew
            rw [components_step _ next _ hnext] at hrest ⊢
            rw [hrest, List.getLastD_cons, List.getLastD_cons, List.getLastD_cons]

theorem find_lastName (path : Str) {d d' : Driver σ} {r : FindResult} (h : find path true d = some (r, d'))
    (hr : r.status = 0) : pathLast path = some r.last_name := by
  rw [pathLast_components]
  obtain ⟨⟨⟨root, start⟩, d₁⟩, -, h⟩ := Option.bind_eq_some_iff.mp h
  dsimp only at h
  split_ifs at h with hroot
  · cases h
    rcases hroot with rfl | rfl <;> rfl
  · rw [findLoop_lastName _ _ _ (fun hnil => hroot (.inr hnil)) h hr]

end Find

theorem stackOf_strip (path : Str) : stackOf (stripSlash path) = stackOf path := by
  rw [stripSlash]
  split_ifs with h
  · obtain ⟨front, rfl⟩ := List.getLast?_eq_some_iff.mp h
    rw [List.dropLast_concat, stackOf_append, List.splitOn_nil, List.foldl_cons, List.foldl_nil, push_nil]
  · rfl

theorem pathParent_joins (path : Str) : ∃ parent last, pathParent path = some parent ∧
    pathLast path = some last ∧ stackOf (parent ++ slash :: last) = stackOf path := by
  by_cases h : path = []
  · rw [h]
    exact ⟨[slash], [], rfl, rfl, (stackOf_lead [slash]).trans (stackOf_lead [])⟩
  by_cases h' : path = [slash]
  · rw [h']
    exact ⟨[slash], [], rfl, rfl, stackOf_lead [slash]⟩
  have hlen := List.length_pos_of_ne_nil h
  rw [pathLast_strip path h h', ← stackOf_strip path]
  unfold pathParent
  dsimp only
  rw [if_neg (by omega), if_neg (not_only_slash h')]
  cases hs : lastSlash path (path.length - 1) with
  | none =>
    refine ⟨[], _, rfl, rfl, ?_⟩
    rw [List.nil_append, stackOf_lead, afterSlash_all _ (lastSlash_strip_none hs)]
  | some i =>
    have hsplit := (lastSlash_strip_some hs).1
    dsimp only
    by_cases hi : i = 0
    · rw [if_pos hi]
      rw [hi, List.take_zero, List.nil_append] at hsplit
      refine ⟨[slash], _, rfl, rfl, ?_⟩
      rw [List.singleton_append, stackOf_lead, ← hsplit]
    · rw [if_neg hi]
      exact ⟨path.take i, _, rfl, rfl, congrArg stackOf hsplit.symm⟩

/-- The walk ends, and its last name is the base name and the one a search for
the parent hands out; parent and base name make up the path again. -/
theorem helpers_agree (path : Str) :
    (∀ names, Walked path names ↔ names = components path) ∧
    pathLast path = some ((components path).getLastD []) ∧
    (∀ (σ : Type) [StorageDevice σ] (d d' : Driver σ) (r : FindResult),
      find path true d = some (r, d') → r.status = 0 → pathLast path = some r.last_name) ∧
    ∃ parent last, pathParent path = some parent ∧ pathLast path = some last ∧
      simplifyPath (parent ++ slash :: last) = simplifyPath path := by
  refine ⟨fun names => ⟨Walked.eq, fun h => h ▸ walked_components path⟩, pathLast_components path, ?_, ?_⟩
  · exact fun σ _ d d' r h hr => find_lastName path h hr
  · obtain ⟨parent, last, hparent, hlast, hstack⟩ := pathParent_joins path
    refine ⟨parent, last, hparent, hlast, ?_⟩
    rw [simplifyPath_canonical, simplifyPath_canonical, canonical_congr hstack]

end Thorn.Paths
