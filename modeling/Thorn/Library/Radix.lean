import Mathlib.Data.List.Induction
import Mathlib.Order.Nat

set_option autoImplicit false

/-!
# Trees of tables

Tables of entries that name further tables: walks from a root, the tree they form
when no table is named twice, and what linking a new table, clearing one that is
not part of the tree and storing a last entry do to walks and lookups.
-/
namespace Radix
variable {N I E : Type}

section Walk
variable (next : E → Option N) (mem : N → I → E)

def walk : N → List I → Option N
  | n, [] => some n
  | n, i :: q => (next (mem n i)).bind fun m => walk m q

def lookup (root : N) (q : List I) (i : I) : Option E :=
  (walk next mem root q).bind fun n => (next (mem n i)).map fun _ => mem n i

theorem walk_append (n : N) (p q : List I) :
    walk next mem n (p ++ q) = (walk next mem n p).bind fun m => walk next mem m q := by
  induction p generalizing n with
  | nil => rfl
  | cons i p ih =>
    rw [List.cons_append, walk, walk, Option.bind_assoc]
    congr 1
    funext m
    exact ih m

theorem walk_concat (n : N) (q : List I) (i : I) :
    walk next mem n (q ++ [i]) = (walk next mem n q).bind fun m => next (mem m i) := by
  rw [walk_append]
  congr 1
  funext m
  rw [walk]
  cases next (mem m i) <;> rfl

/-- Up to the depth given no table is reached through two ways. -/
def Tree (root : N) (depth : ℕ) : Prop :=
  ∀ {p q : List I} {n : N}, p.length ≤ depth → q.length ≤ depth →
    walk next mem root p = some n → walk next mem root q = some n → p = q

def Fresh (root : N) (depth : ℕ) (g : N) : Prop :=
  ∀ q : List I, q.length ≤ depth → walk next mem root q ≠ some g

end Walk

section Write
variable [DecidableEq N]

def clear (blank : E) (mem : N → I → E) (g : N) : N → I → E := fun m j => if m = g then blank else mem m j

theorem clear_self (blank : E) (mem : N → I → E) (g : N) (j : I) : clear blank mem g g j = blank := if_pos rfl

theorem clear_other {blank : E} {mem : N → I → E} {g m : N} (h : m ≠ g) (j : I) :
    clear blank mem g m j = mem m j :=
  if_neg h

variable {next : E → Option N} {mem : N → I → E} {root n g : N} {depth : ℕ} {p : List I} {i : I} {e blank : E}

theorem walk_clear (hfresh : Fresh next mem root depth g) (q : List I) (hq : q.length ≤ depth) :
    walk next (clear blank mem g) root q = walk next mem root q := by
  induction q using List.reverseRecOn with
  | nil => rfl
  | append_singleton q j ih =>
    rw [List.length_append, List.length_singleton] at hq
    rw [walk_concat, walk_concat, ih (by omega)]
    cases hwalk : walk next mem root q with
    | none => rfl
    | some m =>
      have hne : m ≠ g := fun h => hfresh q (by omega) (h ▸ hwalk)
      rw [Option.bind_some, Option.bind_some, clear_other hne]

theorem lookup_clear (hfresh : Fresh next mem root depth g) (q : List I) (hq : q.length ≤ depth) (j : I) :
    lookup next (clear blank mem g) root q j = lookup next mem root q j := by
  rw [lookup, lookup, walk_clear hfresh q hq]
  cases hwalk : walk next mem root q with
  | none => rfl
  | some m =>
    have hne : m ≠ g := fun h => hfresh q hq (h ▸ hwalk)
    rw [Option.bind_some, Option.bind_some, clear_other hne]

theorem Tree.clear (h : Tree next mem root depth) (hfresh : Fresh next mem root depth g) :
    Tree next (clear blank mem g) root depth := by
  intro p q n hp hq h₁ h₂
  rw [walk_clear hfresh p hp] at h₁
  rw [walk_clear hfresh q hq] at h₂
  exact h hp hq h₁ h₂

variable [DecidableEq I]

def store (mem : N → I → E) (n : N) (i : I) (e : E) :
    N → I → E := fun m j => if m = n ∧ j = i then e else mem m j

theorem store_self (mem : N → I → E) (n : N) (i : I) (e : E) : store mem n i e n i = e := if_pos ⟨rfl, rfl⟩

theorem store_other {mem : N → I → E} {n m : N} {i j : I} {e : E} (h : ¬ (m = n ∧ j = i)) :
    store mem n i e m j = mem m j := if_neg h

section Last
variable (h : Tree next mem root depth) (hp : walk next mem root p = some n) (hdepth : p.length = depth)
include h hp hdepth

theorem walk_store_last (q : List I) (hq : q.length ≤ depth) :
    walk next (store mem n i e) root q = walk next mem root q := by
  induction q using List.reverseRecOn with
  | nil => rfl
  | append_singleton q j ih =>
    rw [List.length_append, List.length_singleton] at hq
    rw [walk_concat, walk_concat, ih (by omega)]
    cases hwalk : walk next mem root q with
    | none => rfl
    | some m =>
      have hne : ¬ (m = n ∧ j = i) := by
        rintro ⟨rfl, -⟩
        have := congrArg List.length (h (by omega) (by omega) hwalk hp)
        omega
      rw [Option.bind_some, Option.bind_some, store_other hne]

theorem Tree.store_last : Tree next (store mem n i e) root depth := by
  intro p' q m hp' hq h₁ h₂
  rw [walk_store_last h hp hdepth p' hp'] at h₁
  rw [walk_store_last h hp hdepth q hq] at h₂
  exact h hp' hq h₁ h₂

theorem lookup_store_last (q : List I) (hq : q.length ≤ depth) (j : I) :
    lookup next (store mem n i e) root q j =
      if q = p ∧ j = i then (next e).map fun _ => e else lookup next mem root q j := by
  rw [lookup, lookup, walk_store_last h hp hdepth q hq]
  split_ifs with hhere
  · obtain ⟨rfl, rfl⟩ := hhere
    rw [hp, Option.bind_some, store_self]
  · cases hwalk : walk next mem root q with
    | none => rfl
    | some m =>
      have hne : ¬ (m = n ∧ j = i) := by
        rintro ⟨rfl, rfl⟩
        exact hhere ⟨h hq (by omega) hwalk hp, rfl⟩
      rw [Option.bind_some, Option.bind_some, store_other hne]

end Last

def link (blank : E) (mem : N → I → E) (n : N) (i : I) (e : E) (g : N) :
    N → I → E := clear blank (store mem n i e) g

section Link
variable (h : Tree next mem root depth) (hp : walk next mem root p = some n) (hdepth : p.length < depth)
  (habsent : next (mem n i) = none) (hfresh : Fresh next mem root depth g) (he : next e = some g)
  (hblank : next blank = none)
include h hp hdepth habsent hfresh he hblank

theorem walk_link (q : List I) (hq : q.length ≤ depth) :
    walk next (link blank mem n i e g) root q = if q = p ++ [i] then some g else walk next mem root q := by
  have hnone : walk next mem root (p ++ [i]) = none := by rw [walk_concat, hp, Option.bind_some, habsent]
  induction q using List.reverseRecOn with
  | nil => rw [if_neg (by simp), walk, walk]
  | append_singleton q j ih =>
    rw [List.length_append, List.length_singleton] at hq
    rw [walk_concat, walk_concat, ih (by omega)]
    by_cases hnew : q = p ++ [i]
    · have hlonger : ¬ q ++ [j] = p ++ [i] := fun heq => by
        have := congrArg List.length heq
        rw [hnew] at this
        simp at this
      rw [if_pos hnew, if_neg hlonger, hnew, hnone, Option.bind_some, Option.bind_none, link, clear_self,
        hblank]
    · rw [if_neg hnew]
      cases hwalk : walk next mem root q with
      | none =>
        have hother : ¬ q ++ [j] = p ++ [i] := fun heq => by
          rw [(List.append_inj' heq rfl).1, hp] at hwalk
          cases hwalk
        rw [if_neg hother, Option.bind_none, Option.bind_none]
      | some m =>
        have hne : m ≠ g := fun heq => hfresh q (by omega) (heq ▸ hwalk)
        rw [Option.bind_some, Option.bind_some, link, clear_other hne]
        by_cases hhere : m = n ∧ j = i
        · obtain ⟨rfl, rfl⟩ := hhere
          rw [h (by omega) (by omega) hwalk hp, if_pos rfl, store_self, he]
        · have hother : ¬ q ++ [j] = p ++ [i] := fun heq => by
            obtain ⟨rfl, hj⟩ := List.append_inj' heq rfl
            exact hhere ⟨Option.some.inj (hwalk.symm.trans hp), List.singleton_inj.mp hj⟩
          rw [if_neg hother, store_other hhere]

theorem Tree.link : Tree next (link blank mem n i e g) root depth := by
  have hwalk := walk_link h hp hdepth habsent hfresh he hblank
  intro p' q m hp' hq h₁ h₂
  rw [hwalk p' hp'] at h₁
  rw [hwalk q hq] at h₂
  split_ifs at h₁ h₂ with hnew₁ hnew₂ hnew₂
  · rw [hnew₁, hnew₂]
  · exact absurd (h₂.trans h₁.symm) (hfresh q hq)
  · exact absurd (h₁.trans h₂.symm) (hfresh p' hp')
  · exact h hp' hq h₁ h₂

theorem lookup_link (q : List I) (hq : q.length = depth) (j : I) :
    lookup next (link blank mem n i e g) root q j = lookup next mem root q j := by
  rw [lookup, lookup, walk_link h hp hdepth habsent hfresh he hblank q hq.le]
  by_cases hnew : q = p ++ [i]
  · have hnone : walk next mem root q = none := by rw [hnew, walk_concat, hp, Option.bind_some, habsent]
    rw [if_pos hnew, hnone, Option.bind_some, Option.bind_none, Radix.link, clear_self, hblank, Option.map_none]
  · rw [if_neg hnew]
    cases hwalk : walk next mem root q with
    | none => rfl
    | some m =>
      have hne : m ≠ g := fun heq => hfresh q hq.le (heq ▸ hwalk)
      have hother : ¬ (m = n ∧ j = i) := by
        rintro ⟨rfl, -⟩
        have := congrArg List.length (h hq.le (by omega) hwalk hp)
        omega
      rw [Option.bind_some, Option.bind_some, Radix.link, clear_other hne, store_other hother]

end Link

end Write

end Radix
