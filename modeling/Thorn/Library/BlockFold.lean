import Mathlib.Data.List.Basic
import Mathlib.Algebra.Order.Group.Nat
import Mathlib.Data.Nat.Basic

set_option autoImplicit false

/-!
# Folding over blocks

A fold that takes its input by blocks of one size, and what the input leaves
over. Fed in pieces, with what is left over kept for the next piece, it comes to
the same.
-/
namespace BlockFold
variable {σ α : Type}

def takeBlocks (n : ℕ) (f : σ → List α → σ) : ℕ → σ → List α → σ
  | 0, s, _ => s
  | k + 1, s, l => takeBlocks n f k (f s (l.take n)) (l.drop n)

def absorb (n : ℕ) (f : σ → List α → σ) (s : σ) (l : List α) : σ := takeBlocks n f (l.length / n) s l

def rest (n : ℕ) (l : List α) : List α := l.drop (n * (l.length / n))

section
variable {n : ℕ} {f : σ → List α → σ} {s : σ} {b l m : List α}

theorem rest_length (n : ℕ) (l : List α) : (rest n l).length = l.length % n := by
  rw [rest, List.length_drop, Nat.mod_def]

theorem absorb_short (h : l.length < n) : absorb n f s l = s := by
  rw [absorb, Nat.div_eq_of_lt h, takeBlocks]

theorem rest_short (h : l.length < n) : rest n l = l := by
  rw [rest, Nat.div_eq_of_lt h, Nat.mul_zero, List.drop_zero]

theorem blocks_cons (hn : 0 < n) (hb : b.length = n) : (b ++ l).length / n = l.length / n + 1 := by
  rw [List.length_append, hb, Nat.add_div_left _ hn]

theorem absorb_block (hn : 0 < n) (hb : b.length = n) : absorb n f s (b ++ l) = absorb n f (f s b) l := by
  rw [absorb, blocks_cons hn hb, takeBlocks, List.take_left' hb, List.drop_left' hb, absorb]

theorem rest_block (hn : 0 < n) (hb : b.length = n) : rest n (b ++ l) = rest n l := by
  rw [rest, blocks_cons hn hb, Nat.mul_add, Nat.mul_one, Nat.add_comm, ← List.drop_drop, List.drop_left' hb,
    rest]

theorem block_cases (n : ℕ) (l : List α) : l.length < n ∨ ∃ b l', l = b ++ l' ∧ b.length = n := by
  rcases Nat.lt_or_ge l.length n with h | h
  · exact .inl h
  · exact .inr ⟨l.take n, l.drop n, (List.take_append_drop n l).symm, List.length_take_of_le h⟩

theorem absorb_append (hn : 0 < n) (s : σ) (l m : List α) :
    absorb n f s (l ++ m) = absorb n f (absorb n f s l) (rest n l ++ m) ∧ rest n (l ++ m) = rest n (rest n l ++ m) := by
  induction hk : l.length using Nat.strong_induction_on generalizing s l with
  | _ k ih =>
    rcases block_cases n l with h | ⟨b, l', rfl, hb⟩
    · rw [absorb_short h, rest_short h]
      exact ⟨rfl, rfl⟩
    · rw [List.length_append] at hk
      obtain ⟨hs, hr⟩ := ih l'.length (by omega) (f s b) l' rfl
      rw [List.append_assoc, absorb_block hn hb, absorb_block hn hb, rest_block hn hb, rest_block hn hb]
      exact ⟨hs, hr⟩

end

end BlockFold
