import Thorn.DirectoryNames
import Thorn.ParentCopies

set_option autoImplicit false

namespace Thorn.Paths

section Components

theorem components_push (path : Str) (stack : List Str) :
    (components path).foldl push stack = (path.splitOn slash).foldl push stack := by
  induction hn : path.length using Nat.strong_induction_on generalizing path stack with
  | _ n ih =>
    subst hn
    by_cases h : path = []
    · rw [h, List.splitOn_nil, List.foldl_cons, push_nil]
      rfl
    · obtain ⟨lead, search, last, hlead, hpath, hs, hl, hp⟩ := pathFirst_split path h
      have hlen := pathFirst_length path search _ hp
      have hpieces : (path.splitOn slash).foldl push stack =
          ((search ++ last).splitOn slash).foldl push stack := by
        rcases hlead with rfl | rfl
        · rw [hpath, List.nil_append]
        · rw [hpath, List.append_assoc, List.singleton_append, List.splitOn_cons_eq_if_modifyHead,
            if_pos (beq_self_eq_true slash), List.foldl_cons, push_nil]
      rw [components_step path search _ hp, hpieces, List.foldl_cons]
      rcases hl with rfl | ⟨y, rfl⟩
      · have hnone : (if ([] : Str) = [] ∨ [] = [slash] then [] else ([] : Str)) = [] := if_pos (.inl rfl)
        rw [List.append_nil, List.splitOn_eq_singleton hs, if_pos hnone]
        rfl
      · rw [List.splitOn_append_cons_self_of_not_mem hs, List.foldl_cons]
        by_cases hy : y = []
        · have hnone : (if [slash] = [] ∨ [slash] = [slash] then [] else [slash]) = [] := if_pos (.inr rfl)
          rw [hy, if_pos hnone, List.splitOn_nil, List.foldl_cons, push_nil]
        · have hne : ¬ (slash :: y = [] ∨ slash :: y = [slash]) := by simp [hy]
          rw [if_neg hne] at hlen ⊢
          rw [if_neg (List.cons_ne_nil slash y), ih _ hlen _ _ rfl, List.splitOn_cons_eq_if_modifyHead,
            if_pos (beq_self_eq_true slash), List.foldl_cons, push_nil]

theorem pathNames_push (path : Str) : (FatImage.pathNames path).foldl push [] = stackOf path := by
  rw [FatImage.pathNames]
  split_ifs with h
  · rcases h with rfl | rfl
    · decide
    · decide
  · exact components_push path []

def Ordinary (name : Str) : Prop := name ≠ [] ∧ name ≠ dotName ∧ name ≠ dotDotName

theorem push_ordinary (stack : List Str) {name : Str} (h : Ordinary name) :
    push stack name = stack ++ [name] := by
  rw [push, if_neg (by rintro (h' | h'); exacts [h.1 h', h.2.1 h']), if_neg h.2.2]

theorem foldl_ordinary (stack names : List Str) (h : ∀ name ∈ names, Ordinary name) :
    names.foldl push stack = stack ++ names := by
  induction names generalizing stack with
  | nil => rw [List.foldl_nil, List.append_nil]
  | cons name names ih =>
    rw [List.foldl_cons, push_ordinary _ (h name List.mem_cons_self),
      ih _ fun n hn => h n (List.mem_cons_of_mem _ hn), List.append_assoc, List.singleton_append]

theorem push_dotless (stack : List Str) (name : Str) (h : FatImage.Image.Dotless stack) :
    FatImage.Image.Dotless (push stack name) := by
  rw [push]
  split_ifs with h₁ h₂
  · exact h
  · exact ⟨fun hm => h.1 (List.mem_of_mem_dropLast hm), fun hm => h.2 (List.mem_of_mem_dropLast hm)⟩
  · push Not at h₁
    refine ⟨fun hm => ?_, fun hm => ?_⟩
    · rcases List.mem_append.mp hm with hm | hm
      · exact h.1 hm
      · exact h₁.2 (List.mem_singleton.mp hm).symm
    · rcases List.mem_append.mp hm with hm | hm
      · exact h.2 hm
      · exact h₂ (List.mem_singleton.mp hm).symm

theorem foldl_dotless (stack names : List Str) (h : FatImage.Image.Dotless stack) :
    FatImage.Image.Dotless (names.foldl push stack) := by
  induction names generalizing stack with
  | nil => exact h
  | cons name names ih => exact ih _ (push_dotless stack name h)

end Components

end Thorn.Paths

namespace Thorn.FatImage.Image
open Paths FatTypes LinkedChain
variable {I : Image}

/-- Two searches end in one error, or in entries of one start block, length and type. -/
inductive EndsAlike (I : Image) : Except ℤ ℕ → Except ℤ ℕ → Prop
  | error (status : ℤ) : EndsAlike I (.error status) (.error status)
  | ok {j k : ℕ} (h : Alike (I.entry j) (I.entry k)) : EndsAlike I (.ok j) (.ok k)

def DotsInside (I : Image) (names : List Str) : Prop := ∀ pre name rest, names = pre ++ name :: rest →
  name = dotName ∨ name = dotDotName → ∃ q, I.Named (pre.foldl push []) q ∧ (I.entry q).isDirectory

/-- No component is empty, `.` stands only behind names that lead to the root, and `..` only in a directory whose
copy has the length that the directory above has. -/
structure KeepsPace (I : Image) (names : List Str) : Prop where
  nonempty : [] ∉ names
  dot : ∀ pre rest, names = pre ++ dotName :: rest → pre.foldl push [] = []
  dotdot : ∀ pre rest p d, names = pre ++ dotDotName :: rest → I.Named (pre.foldl push []) d → I.Live p →
    I.Child p d → (I.entry (I.dotdotSlot d)).len = (I.entry p).len

section Copies
variable {k q : ℕ}

theorem slots_alike (h : Alike (I.entry k) (I.entry q)) : I.slots k = I.slots q := by
  rw [slots, slots, chain, chain, chainOf, chainOf, h.start, count, count, h.len]

theorem findSlot_alike_entry (h : Alike (I.entry k) (I.entry q)) (name : Str) :
    I.findSlot k name = I.findSlot q name := by
  rw [findSlot, findSlot, slots_alike h]

theorem walkable_alike (h : Alike (I.entry k) (I.entry q)) : I.Walkable k = I.Walkable q := by
  rw [Walkable, Walkable, h.len, h.isDirectory]

theorem WellFormed.slots_cons (hw : I.WellFormed) (hq : I.Live q) (hd : (I.entry q).isDirectory) :
    ∃ l, I.slots q = I.slotAt (I.chain q) 0 :: l := by
  have hcount := hw.copies_le hq hd
  have hpos := I.copies_pos q
  obtain ⟨n, hn⟩ : ∃ n, I.count q = n + 1 := ⟨I.count q - 1, by omega⟩
  refine ⟨((List.range n).map Nat.succ).map (I.slotAt (I.chain q)), ?_⟩
  rw [slots, slotsIn, hn, List.range_succ_eq_map, List.map_cons]

theorem WellFormed.root_slots (hw : I.WellFormed) :
    ∃ l, I.slots I.rootSlot = I.rootSlot :: (I.rootSlot + 1) :: l := by
  have hcount := hw.copies_le .root hw.root_directory
  rw [root_copies] at hcount
  obtain ⟨n, hn⟩ : ∃ n, I.count I.rootSlot = n + 1 + 1 := ⟨I.count I.rootSlot - 2, by omega⟩
  refine ⟨(((List.range n).map Nat.succ).map Nat.succ).map (I.slotAt (I.chain I.rootSlot)), ?_⟩
  rw [slots, slotsIn, hn, List.range_succ_eq_map, List.map_cons, List.range_succ_eq_map, List.map_cons,
    List.map_cons, hw.root_slotAt hw.epb_pos, hw.root_succ]
  rfl

theorem free_alike {e d : DirEntry} (h : LeadsTo e d) : I.free e = I.free d := by
  rw [free, free, h.start]

theorem WellFormed.findSlot_dot (hw : I.WellFormed) : I.findSlot I.rootSlot dotName = some I.rootSlot := by
  obtain ⟨l, hl⟩ := hw.root_slots
  rw [findSlot, hl, List.find?_cons_of_pos]
  simp [hw.dot, (hw.owns _ .root).not_free]

theorem WellFormed.findSlot_dotdot (hw : I.WellFormed) (hc : I.Copied) {names : List Str} (hq : I.Named names q)
    (hd : (I.entry q).isDirectory) : I.findSlot q dotDotName = some (I.dotdotSlot q) ∧
      ∃ p, I.Named names.dropLast p ∧ (I.entry p).isDirectory ∧ LeadsTo (I.entry (I.dotdotSlot q)) (I.entry p) ∧
        (q = I.rootSlot ∧ Alike (I.entry (I.dotdotSlot q)) (I.entry p) ∨ I.Live p ∧ I.Child p q) := by
  have hname := hw.dotdotSlot_name hq.live hd
  by_cases hr : q = I.rootSlot
  · subst hr
    obtain rfl := hq.unique hw .root
    have hnot : dotName ≠ dotDotName := by decide
    obtain ⟨l, hl⟩ := hw.root_slots
    rw [hw.dotdotSlot_root] at hname ⊢
    refine ⟨?_, _, .root, hw.root_directory, hc.root.toLeadsTo, .inl ⟨rfl, hc.root⟩⟩
    rw [findSlot, hl, List.find?_cons_of_neg (by simp [hw.dot, hnot]), List.find?_cons_of_pos]
    simp [hname, free_alike hc.root.toLeadsTo, (hw.owns _ .root).not_free]
  · cases hq with
    | root => exact absurd rfl hr
    | @child names p q hp hk =>
      have habove := hc.above p q hp.live hk hd
      obtain ⟨l, hl⟩ := hw.slots_cons (hp.child hk).live hd
      rw [List.dropLast_concat]
      refine ⟨?_, p, hp, hk.1, habove, .inr ⟨hp.live, hk⟩⟩
      rw [← dotdotSlot_below hr] at hl
      rw [findSlot, hl, List.find?_cons_of_pos]
      simp [hname, free_alike habove, (hw.owns _ hp.live).not_free]

end Copies

section Walk
variable {names pre rest : List Str} {name : Str} {k q : ℕ}

theorem DotsInside.ordinary (hdots : I.DotsInside names) (hempty : [] ∉ names)
    (hn : pre ++ name :: rest <+: names)
    (hname : Ordinary name) (hno : ∀ q, I.Named (pre.foldl push [] ++ [name]) q → (I.entry q).isDirectory = false) :
    ∀ c ∈ rest, Ordinary c := by
  induction rest using List.reverseRecOn with
  | nil => exact fun c hc => absurd hc List.not_mem_nil
  | append_singleton init c ih =>
    have hpre : (pre ++ name :: init) ++ [c] <+: names := by
      rwa [List.append_assoc, List.cons_append]
    have hinit := ih ((List.prefix_append _ _).trans hpre)
    have hc : ¬ (c = dotName ∨ c = dotDotName) := by
      intro hc
      obtain ⟨tail, htail⟩ := hpre
      rw [List.append_assoc, List.singleton_append] at htail
      obtain ⟨q, hq, hd⟩ := hdots _ c tail htail.symm hc
      rw [List.foldl_append, List.foldl_cons, push_ordinary _ hname, foldl_ordinary _ _ hinit] at hq
      by_cases hnil : init = []
      · rw [hnil, List.append_nil] at hq
        rw [hno q hq] at hd
        cases hd
      · obtain ⟨q', hq', hd'⟩ :=
          hq.through (List.prefix_append _ _) fun he => hnil (List.self_eq_append_right.mp he)
        rw [hno q' hq'] at hd'
        cases hd'
    push Not at hc
    intro n hm
    rcases List.mem_append.mp hm with hm | hm
    · exact hinit n hm
    · obtain rfl := List.mem_singleton.mp hm
      exact ⟨fun he => hempty (he ▸ hpre.subset (List.mem_append_right _ (List.mem_singleton_self n))), hc.1,
        hc.2⟩

theorem resolve_cons_found (hw : I.Walkable k) {j : ℕ} (hj : I.findSlot k name = some j)
    (hd : (I.entry j).isFile = false) : I.resolve k (name :: rest) = I.resolve j rest := by
  rw [resolve, if_pos hw, hj]
  dsimp only
  rw [hd, if_neg Bool.false_ne_true]
  split_ifs with hrest
  · rw [hrest]
    rfl
  · rfl

theorem WellFormed.resolve_from (hw : I.WellFormed) (hu : I.UniqueNames) {stack : List Str}
    (hstack : Dotless stack) (hq : I.Named stack q) (hd : (I.entry q).isDirectory) :
    I.resolve I.rootSlot (stack ++ name :: rest) = I.resolve q (name :: rest) := by
  rw [hw.resolve_through hu .root (not_file hw.root_directory) hq hstack (List.cons_ne_nil name rest),
    not_file hd, if_neg Bool.false_ne_true]

theorem readable_alike (h : Alike (I.entry k) (I.entry q)) (hr : I.Readable (I.entry q)) :
    I.Readable (I.entry k) := by
  have hchain : I.chainOf (I.entry k) = I.chainOf (I.entry q) := by rw [chainOf, chainOf, h.start]
  refine ⟨?_, ?_⟩
  · rw [hchain]
    exact ⟨by rw [h.start]; exact hr.owns.start, hr.owns.data⟩
  · rw [hchain, h.len]
    exact hr.size

theorem walkReadable_found (hr : I.Readable (I.entry k)) {j : ℕ} (hj : I.findSlot k name = some j)
    (h : I.WalkReadable j rest) : I.WalkReadable k (name :: rest) := by
  refine fun _ => ⟨hr, fun i hi => ?_⟩
  obtain rfl := Option.some.inj (hj.symm.trans hi)
  exact h

theorem walkReadable_stopped (hr : I.Readable (I.entry k))
    (h : ∀ j, I.findSlot k name = some j → (I.entry j).isDirectory = false) : I.WalkReadable k (name :: rest) := by
  refine fun _ => ⟨hr, fun j hj => ?_⟩
  cases rest with
  | nil => trivial
  | cons c rest =>
    intro hwalk
    rw [walkable_iff, h j hj] at hwalk
    cases hwalk.2

/-- The walk over the disk, dots and all, against the walk along the stack. -/
theorem WellFormed.resolve_lexical (hw : I.WellFormed) (hu : I.UniqueNames) (hc : I.Copied)
    (hdots : I.DotsInside names) (hpace : I.KeepsPace names) (hn : pre ++ rest = names)
    (hq : I.Named (pre.foldl push []) q) (hd : (I.entry q).isDirectory) (hk : Alike (I.entry k) (I.entry q)) :
    I.WalkReadable k rest ∧ EndsAlike I (I.resolve k rest) (I.resolve I.rootSlot (names.foldl push [])) := by
  have hdotless : ∀ l : List Str, Dotless (l.foldl push []) := fun l => foldl_dotless [] l ⟨by simp, by simp⟩
  induction rest generalizing pre k q with
  | nil =>
    rw [List.append_nil] at hn
    subst hn
    rw [hw.resolve_named hu hq (hdotless pre)]
    exact ⟨trivial, .ok hk⟩
  | cons name rest ih =>
    have hwalk : I.Walkable k := by
      rw [walkable_alike hk]
      exact (hw.walkable_iff hq.live).mpr hd
    have hread := readable_alike hk (hw.readable hq.live)
    have hfind := findSlot_alike_entry hk name
    have hnext : (pre ++ [name]) ++ rest = names := by rw [List.append_assoc, List.singleton_append, hn]
    have hstack : (pre ++ [name]).foldl push [] = push (pre.foldl push []) name := by
      rw [List.foldl_append, List.foldl_cons, List.foldl_nil]
    have hmem : name ∈ names := hn ▸ List.mem_append_right _ List.mem_cons_self
    by_cases hdot : name = dotName
    · subst hdot
      have hnil := hpace.dot pre rest hn.symm
      rw [hnil] at hq hstack
      obtain rfl := hu.named_eq hq .root
      rw [hw.findSlot_dot] at hfind
      rw [resolve_cons_found hwalk hfind (not_file hd)]
      have hend := ih hnext (by rw [hstack]; exact hq) hd (.refl _)
      exact ⟨walkReadable_found hread hfind hend.1, hend.2⟩
    by_cases hdotdot : name = dotDotName
    · subst hdotdot
      obtain ⟨hslot, p, hp, hpd, hleads, habove⟩ := hw.findSlot_dotdot hc hq hd
      have hpush : push (pre.foldl push []) dotDotName = (pre.foldl push []).dropLast := rfl
      rw [hslot] at hfind
      have halike : Alike (I.entry (I.dotdotSlot q)) (I.entry p) := by
        rcases habove with ⟨-, halike⟩ | ⟨hlive, hchild⟩
        · exact halike
        · exact ⟨hleads, hpace.dotdot pre rest p q hn.symm hq hlive hchild⟩
      rw [resolve_cons_found hwalk hfind (not_file (hleads.isDirectory.trans hpd))]
      have hend := ih hnext (by rw [hstack, hpush]; exact hp) hpd halike
      exact ⟨walkReadable_found hread hfind hend.1, hend.2⟩
    have hname : Ordinary name := ⟨fun he => hpace.nonempty (he ▸ hmem), hdot, hdotdot⟩
    have hplain : Dotless [name] := ⟨fun he => hdot (List.mem_singleton.mp he).symm,
      fun he => hdotdot (List.mem_singleton.mp he).symm⟩
    have hnamed : ∀ j, I.findSlot k name = some j ↔ I.Named (pre.foldl push [] ++ [name]) j := fun j => by
      rw [hfind]
      exact hw.findSlot_named hu hq hd hplain
    by_cases hdir : ∃ j, I.Named (pre.foldl push [] ++ [name]) j ∧ (I.entry j).isDirectory
    · obtain ⟨j, hj, hjd⟩ := hdir
      rw [resolve_cons_found hwalk ((hnamed j).mpr hj) (not_file hjd)]
      have hend := ih hnext (by rw [hstack, push_ordinary _ hname]; exact hj) hjd (.refl _)
      exact ⟨walkReadable_found hread ((hnamed j).mpr hj) hend.1, hend.2⟩
    · push Not at hdir
      have hno : ∀ j, I.Named (pre.foldl push [] ++ [name]) j → (I.entry j).isDirectory = false := fun j hj =>
        Bool.eq_false_iff.mpr (hdir j hj)
      have hwhole : pre ++ name :: rest <+: names := by rw [hn]
      have hrest := hdots.ordinary hpace.nonempty hwhole hname hno
      have hall : names.foldl push [] = pre.foldl push [] ++ name :: rest := by
        rw [← hn, List.foldl_append, List.foldl_cons, push_ordinary _ hname, foldl_ordinary _ _ hrest,
          List.append_assoc, List.singleton_append]
      have hsame : I.resolve q (name :: rest) = I.resolve k (name :: rest) := by
        rw [resolve, resolve, walkable_alike hk, hfind]
      rw [hall, hw.resolve_from hu (hdotless pre) hq hd, hsame]
      refine ⟨walkReadable_stopped hread fun j hj => hno j ((hnamed j).mp hj), ?_⟩
      cases I.resolve k (name :: rest) with
      | error status => exact .error status
      | ok j => exact .ok (.refl _)

end Walk

end Thorn.FatImage.Image
