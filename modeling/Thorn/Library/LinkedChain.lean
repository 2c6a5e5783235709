import Mathlib

set_option autoImplicit false

/-!
# Chains through a successor table

`Chain next final a l` says that following `next` from `a` visits exactly the
cells of `l` and stops on a `final` cell. A cell is never both linked and final.
-/
namespace LinkedChain

variable {α : Type*}

inductive Chain (next : α → Option α) (final : α → Prop) : α → List α → Prop
  | last {a : α} (h : final a) : Chain next final a [a]
  | link {a b : α} {l : List α} (h : next a = some b) (t : Chain next final b l) : Chain next final a (a :: l)

namespace Chain

variable {next next' : α → Option α} {final final' : α → Prop} {a b : α} {l l' : List α}

theorem ne_nil (h : Chain next final a l) : l ≠ [] := by
  cases h <;> simp

theorem length_pos (h : Chain next final a l) : 0 < l.length :=
  List.length_pos_of_ne_nil h.ne_nil

theorem head_mem (h : Chain next final a l) : a ∈ l := by
  cases h <;> simp

theorem head? (h : Chain next final a l) : l.head? = some a := by
  cases h <;> rfl

theorem getElem_zero (h : Chain next final a l) (hl : 0 < l.length) : l[0] = a := by
  cases h <;> rfl

theorem unique (excl : ∀ x, final x → next x = none) (h : Chain next final a l)
    (h' : Chain next final a l') : l = l' := by
  induction h generalizing l' with
  | last hf =>
    cases h' with
    | last => rfl
    | link hn => rw [excl _ hf] at hn; cases hn
  | link hn _ ih =>
    cases h' with
    | last hf => rw [excl _ hf] at hn; cases hn
    | link hn' t' =>
      obtain rfl : _ = _ := Option.some.inj (hn.symm.trans hn')
      rw [ih t']

theorem congr (h : Chain next final a l) (hn : ∀ x ∈ l, next' x = next x)
    (hf : ∀ x ∈ l, final x → final' x) : Chain next' final' a l := by
  induction h with
  | last hl => exact .last (hf _ (by simp) hl)
  | link hl _ ih =>
    exact .link ((hn _ (by simp)).trans hl) (ih (fun x hx => hn x (by simp [hx]))
      (fun x hx => hf x (by simp [hx])))

theorem final_getLast (h : Chain next final a l) : final (l.getLast h.ne_nil) := by
  induction h with
  | last hf => exact hf
  | link _ t ih => rwa [List.getLast_cons t.ne_nil]

theorem next_getElem (h : Chain next final a l) (i : ℕ) (hi : i + 1 < l.length) :
    next l[i] = some l[i + 1] := by
  induction h generalizing i with
  | last => simp at hi
  | link hn t ih =>
    cases i with
    | zero => simpa [t.getElem_zero t.length_pos] using hn
    | succ i => simpa using ih i (by simpa using hi)

theorem drop (h : Chain next final a l) (i : ℕ) (hi : i < l.length) : Chain next final l[i] (l.drop i) := by
  induction h generalizing i with
  | last hf =>
    obtain rfl : i = 0 := by simpa using hi
    exact .last hf
  | link hn t ih =>
    cases i with
    | zero => exact .link hn t
    | succ i => exact ih i (by simpa using hi)

theorem exists_of_mem (h : Chain next final a l) (hb : b ∈ l) :
    ∃ i, ∃ hi : i < l.length, l[i] = b ∧ Chain next final b (l.drop i) := by
  obtain ⟨i, hi, rfl⟩ := List.mem_iff_getElem.mp hb
  exact ⟨i, hi, rfl, h.drop i hi⟩

theorem nodup (excl : ∀ x, final x → next x = none) (h : Chain next final a l) : l.Nodup := by
  induction h with
  | last => simp
  | @link a b l hn t ih =>
    refine List.nodup_cons.mpr ⟨fun ha => ?_, ih⟩
    obtain ⟨i, hi, -, hd⟩ := t.exists_of_mem ha
    have he := congrArg List.length (unique excl hd (.link hn t))
    simp only [List.length_drop, List.length_cons] at he
    omega

theorem not_self (excl : ∀ x, final x → next x = none) (h : Chain next final a l) : next a ≠ some a := by
  intro hself
  have hlen := congrArg List.length (unique excl h (.link hself h))
  exact absurd hlen (Nat.ne_of_lt (Nat.lt_succ_self _))

theorem forall_mem {P : α → Prop} (h : Chain next final a l) (ha : P a) (hnext : ∀ x y, next x = some y → P y) :
    ∀ x ∈ l, P x := by
  induction h with
  | last => exact List.forall_mem_singleton.mpr ha
  | link hn t ih => exact List.forall_mem_cons.mpr ⟨ha, ih (hnext _ _ hn)⟩

theorem length_le [DecidableEq α] (excl : ∀ x, final x → next x = none) (h : Chain next final a l)
    (cells : Finset α)
    (ha : a ∈ cells) (hnext : ∀ x y, next x = some y → y ∈ cells) : l.length ≤ cells.card := by
  have hmem := h.forall_mem ha hnext
  have hcard := Finset.card_le_card fun x hx => hmem x (List.mem_toFinset.mp hx)
  rw [List.toFinset_card_of_nodup (h.nodup excl)] at hcard
  exact hcard

theorem append {m : List α} {c : α} (h : Chain next final a l)
    (hn : ∀ x ∈ l.dropLast, next' x = next x) (hj : next' (l.getLast h.ne_nil) = some c)
    (hm : Chain next' final' c m) : Chain next' final' a (l ++ m) := by
  induction h with
  | last => exact .link hj hm
  | link hl t ih =>
    rw [List.getLast_cons t.ne_nil] at hj
    rw [List.dropLast_cons_of_ne_nil t.ne_nil] at hn
    refine .link ((hn _ (by simp)).trans hl) (ih (fun x hx => hn x (by simp [hx])) hj)

theorem take (h : Chain next final a l) (n : ℕ) (hn : n < l.length)
    (hnext : ∀ x ∈ l.take n, next' x = next x) (hf : final' l[n]) : Chain next' final' a (l.take (n + 1)) := by
  induction n generalizing a l with
  | zero =>
    cases h with
    | last => exact .last hf
    | link => exact .last hf
  | succ n ih =>
    cases h with
    | last => simp at hn
    | link hl t =>
      exact .link ((hnext _ (by simp)).trans hl) (ih t (by simpa using hn)
        (fun x hx => hnext x (by simp [hx])) (by simpa using hf))

end Chain

section Walk
open Relation
variable {r r' : α → α → Prop} {b c x : α}

theorem reach_stop (h : ∀ z, ¬ r b z) : ReflTransGen r b x ↔ x = b := by
  constructor
  · intro hwalk
    rcases hwalk.cases_head with heq | ⟨z, hz, -⟩
    · exact heq.symm
    · exact absurd hz (h z)
  · rintro rfl
    exact .refl

/-- What a walk reaches behind the only successor of `b` it reaches without the step out of `b`. -/
theorem reach_cut (h : ∀ z, r b z ↔ z = c) (hcut : ∀ y z, r' y z ↔ y ≠ b ∧ r y z) :
    ReflTransGen r b x ↔ x = b ∨ ReflTransGen r' c x := by
  constructor
  · intro hwalk
    induction hwalk with
    | refl => exact .inl rfl
    | @tail y z _ hyz ih =>
      by_cases hy : y = b
      · rw [hy, h z] at hyz
        rw [hyz]
        exact .inr .refl
      · exact .inr ((ih.resolve_left hy).tail ((hcut y z).mpr ⟨hy, hyz⟩))
  · rintro (rfl | hwalk)
    · exact .refl
    · have hmono : ∀ y z, r' y z → r y z := fun y z hyz => ((hcut y z).mp hyz).2
      exact .head ((h c).mpr rfl) (ReflTransGen.mono hmono _ _ hwalk)

end Walk

end LinkedChain
