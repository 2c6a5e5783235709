import Thorn.SHA1
import Mathlib.Tactic.IntervalCases

set_option autoImplicit false

/-!
# The compression function

SHA-1's compression by its definition: a schedule of eighty words, and rounds
that pass the working variables along. `Transform` unrolls the rounds, renames
the variables instead of moving them, and keeps sixteen words of the schedule.
-/
namespace Thorn.SHA1

section Schedule

def messageWord (block : List UInt8) (i : ℕ) : UINT_32 :=
  (block.getD (4 * i) 0).toBitVec ++ (block.getD (4 * i + 1) 0).toBitVec ++
    (block.getD (4 * i + 2) 0).toBitVec ++ (block.getD (4 * i + 3) 0).toBitVec

def schedule (block : List UInt8) (t : ℕ) : UINT_32 :=
  if _h : t < 16 then messageWord block t
  else (schedule block (t - 3) ^^^ schedule block (t - 8) ^^^ schedule block (t - 14) ^^^
    schedule block (t - 16)).rotateLeft 1

def choose (x y z : UINT_32) : UINT_32 := (x &&& y) ^^^ (~~~x &&& z)
def parity (x y z : UINT_32) : UINT_32 := x ^^^ y ^^^ z
def majority (x y z : UINT_32) : UINT_32 := (x &&& y) ^^^ (x &&& z) ^^^ (y &&& z)

def roundFunction (t : ℕ) : (UINT_32 → UINT_32 → UINT_32 → UINT_32) × UINT_32 :=
  if t < 20 then (choose, 0x5A827999#32)
  else if t < 40 then (parity, 0x6ED9EBA1#32)
  else if t < 60 then (majority, 0x8F1BBCDC#32)
  else (parity, 0xCA62C1D6#32)

def round (block : List UInt8) (s : State) (t : ℕ) : State :=
  ⟨s.s0.rotateLeft 5 + (roundFunction t).1 s.s1 s.s2 s.s3 + s.s4 + (roundFunction t).2 + schedule block t,
    s.s0, s.s1.rotateLeft 30, s.s2, s.s3⟩

def State.add (s t : State) : State := ⟨s.s0 + t.s0, s.s1 + t.s1, s.s2 + t.s2, s.s3 + t.s3, s.s4 + t.s4⟩

def compress (s : State) (block : List UInt8) : State := s.add ((List.range 80).foldl (round block) s)

end Schedule

section Words

theorem ROL32_eq (val : UINT_32) {n : ℕ} (hn : n < 32) : ROL32 val n = val.rotateLeft n := by
  rw [ROL32, BitVec.rotateLeft_def, Nat.mod_eq_of_lt hn]

theorem bytes_swapped (b3 b2 b1 b0 : BitVec 8) :
    (ROL32 (b3 ++ b2 ++ b1 ++ b0) 24 &&& 0xFF00FF00#32) ||| (ROL32 (b3 ++ b2 ++ b1 ++ b0) 8 &&& 0x00FF00FF#32) =
      b0 ++ b1 ++ b2 ++ b3 := by
  apply BitVec.eq_of_getLsbD_eq
  intro i hi
  simp only [ROL32, BitVec.getLsbD_or, BitVec.getLsbD_and, BitVec.getLsbD_shiftLeft, BitVec.getLsbD_ushiftRight,
    BitVec.getLsbD_append]
  interval_cases i <;> simp

theorem choose_eq (x y z : UINT_32) : (x &&& (y ^^^ z)) ^^^ z = choose x y z := by
  rw [choose]
  ext i hi
  simp only [BitVec.getElem_xor, BitVec.getElem_and, BitVec.getElem_not]
  cases x[i] <;> simp

theorem majority_eq (x y z : UINT_32) : ((x ||| y) &&& z) ||| (x &&& y) = majority x y z := by
  rw [majority]
  ext i hi
  simp only [BitVec.getElem_xor, BitVec.getElem_and, BitVec.getElem_or]
  cases x[i] <;> cases y[i] <;> simp

end Words

def var (n : ℕ) : Var :=
  match n % 5 with
  | 0 => .a
  | 1 => .b
  | 2 => .c
  | 3 => .d
  | _ => .e

def unrolled (t : ℕ) : Work → Work :=
  let m := 80 - t
  (if t < 16 then S_R0 else if t < 20 then S_R1 else if t < 40 then S_R2 else if t < 60 then S_R3 else S_R4)
    (var m) (var (m + 1)) (var (m + 2)) (var (m + 3)) (var (m + 4)) t

theorem rounds_eq : rounds = (List.range 80).map unrolled := rfl

/-- Before round `t` the variables hold the state, and the workspace the schedule as far as it is used. -/
structure Stage (block : List UInt8) (t : ℕ) (work : Work) (s : State) : Prop where
  s0 : work.vars (var (80 - t)) = s.s0
  s1 : work.vars (var (80 - t + 1)) = s.s1
  s2 : work.vars (var (80 - t + 2)) = s.s2
  s3 : work.vars (var (80 - t + 3)) = s.s3
  s4 : work.vars (var (80 - t + 4)) = s.s4
  past : ∀ j, j < t → t ≤ j + 16 → work.l (j % 16) = schedule block j
  ahead : ∀ j, t ≤ j → j < 16 → work.l j = blockWord block j

theorem var_eq_iff (m n : ℕ) : var m = var n ↔ m % 5 = n % 5 := by
  have hm := Nat.mod_lt m (show 0 < 5 by omega)
  have hn := Nat.mod_lt n (show 0 < 5 by omega)
  unfold var
  generalize m % 5 = a at hm ⊢
  generalize n % 5 = b at hn ⊢
  interval_cases a <;> interval_cases b <;> decide

theorem and_fifteen (n : ℕ) : n &&& 15 = n % 16 := Nat.and_two_pow_sub_one_eq_mod n 4

section Round
variable {s : Work} {place : ℕ} {word mixed constant : UINT_32} {v w z q : Var}

theorem Work.round_z (h : z ≠ w) : (s.round place word mixed constant v w z).vars z =
    s.vars z + (mixed + word + constant + ROL32 (s.vars v) 5) := by
  unfold Work.round
  exact (Function.update_of_ne h _ _).trans (Function.update_self _ _ _)

theorem Work.round_w (h : z ≠ w) : (s.round place word mixed constant v w z).vars w = ROL32 (s.vars w) 30 := by
  unfold Work.round
  exact (Function.update_self _ _ _).trans (congrArg (ROL32 · 30) (Function.update_of_ne h.symm _ _))

theorem Work.round_other (hz : q ≠ z) (hw : q ≠ w) :
    (s.round place word mixed constant v w z).vars q = s.vars q := by
  unfold Work.round
  exact (Function.update_of_ne hw _ _).trans (Function.update_of_ne hz _ _)

theorem Work.round_l : (s.round place word mixed constant v w z).l = Function.update s.l place word := rfl

end Round

section Steps
variable {block : List UInt8} {t : ℕ} {work : Work} {s : State}

theorem schedule_first (h : t < 16) : schedule block t = messageWord block t := by
  rw [schedule, dif_pos h]

theorem schedule_later (h : 16 ≤ t) : schedule block t = (schedule block (t - 3) ^^^ schedule block (t - 8) ^^^
    schedule block (t - 14) ^^^ schedule block (t - 16)).rotateLeft 1 := by
  rw [schedule, dif_neg (by omega)]

theorem Stage.word_first (h : Stage block t work s) (ht : t < 16) : SHABLK0 t work.l = schedule block t := by
  rw [SHABLK0, h.ahead t le_rfl ht, schedule_first ht]
  exact bytes_swapped _ _ _ _

theorem Stage.word_later (h : Stage block t work s) (ht : 16 ≤ t) : SHABLK t work.l = schedule block t := by
  have hback : ∀ k, 0 < k → k ≤ 16 → work.l ((t - k) % 16) = schedule block (t - k) := fun k hk hle =>
    h.past (t - k) (by omega) (by omega)
  have hplace : ∀ k, k ≤ 16 → (t + (16 - k)) % 16 = (t - k) % 16 := fun k hle => by omega
  rw [SHABLK, and_fifteen, and_fifteen, and_fifteen, and_fifteen, ROL32_eq _ (by omega), schedule_later ht,
    hplace 3 (by omega), hplace 8 (by omega), hplace 14 (by omega), show t % 16 = (t - 16) % 16 by omega,
    hback 3 (by omega) (by omega), hback 8 (by omega) (by omega), hback 14 (by omega) (by omega),
    hback 16 (by omega) (by omega)]

theorem Stage.next (h : Stage block t work s) (ht : t < 80) {word mixed constant : UINT_32}
    (hword : word = schedule block t) (hmixed : mixed = (roundFunction t).1 s.s1 s.s2 s.s3)
    (hconstant : constant = (roundFunction t).2) :
    Stage block (t + 1) (work.round (t % 16) word mixed constant (var (80 - t)) (var (80 - t + 1)) (var (80 - t + 4)))
      (round block s t) := by
  have hrole : ∀ k, var (80 - (t + 1) + k) = var (80 - t + (k + 4)) := fun k => (var_eq_iff _ _).mpr (by omega)
  have hround : ∀ k, var (80 - t + (k + 5)) = var (80 - t + k) := fun k => (var_eq_iff _ _).mpr (by omega)
  have hne : ∀ i j, i < 5 → j < 5 → i ≠ j → var (80 - t + i) ≠ var (80 - t + j) := fun i j hi hj hij heq => by
    have := (var_eq_iff _ _).mp heq
    omega
  have hzw := hne 4 1 (by omega) (by omega) (by omega)
  refine ⟨?_, ?_, ?_, ?_, ?_, fun j hj hle => ?_, fun j hj hlt => ?_⟩
  · have hsame : var (80 - (t + 1)) = var (80 - t + 4) := hrole 0
    rw [hsame, Work.round_z hzw, h.s0, h.s4, hword, hmixed, hconstant, ROL32_eq _ (by omega), round]
    ac_rfl
  · rw [(hrole 1).trans (hround 0),
      Work.round_other (hne 0 4 (by omega) (by omega) (by omega)) (hne 0 1 (by omega) (by omega) (by omega))]
    exact h.s0
  · rw [(hrole 2).trans (hround 1), Work.round_w hzw, h.s1, ROL32_eq _ (by omega), round]
  · rw [(hrole 3).trans (hround 2),
      Work.round_other (hne 2 4 (by omega) (by omega) (by omega)) (hne 2 1 (by omega) (by omega) (by omega)),
      h.s2, round]
  · rw [(hrole 4).trans (hround 3),
      Work.round_other (hne 3 4 (by omega) (by omega) (by omega)) (hne 3 1 (by omega) (by omega) (by omega)),
      h.s3, round]
  · rcases Nat.lt_or_ge j t with hlt | hge
    · rw [Work.round_l, Function.update_of_ne (by omega), h.past j hlt (by omega)]
    · obtain rfl : j = t := by omega
      rw [Work.round_l, Function.update_self, hword]
  · rw [Work.round_l, Function.update_of_ne (by omega), h.ahead j (by omega) hlt]

theorem Stage.step (h : Stage block t work s) (ht : t < 80) :
    Stage block (t + 1) (unrolled t work) (round block s t) := by
  have hnext := @Stage.next block t work s h ht
  rw [← h.s1, ← h.s2, ← h.s3] at hnext
  unfold unrolled
  split_ifs with h₁ h₂ h₃ h₄
  · have hmod : t % 16 = t := Nat.mod_eq_of_lt h₁
    rw [hmod] at hnext
    have hround : roundFunction t = (choose, 0x5A827999#32) := if_pos (by omega)
    exact hnext (h.word_first h₁) (by rw [hround, choose_eq]) (by rw [hround])
  · have hround : roundFunction t = (choose, 0x5A827999#32) := if_pos (by omega)
    rw [← and_fifteen] at hnext
    exact hnext (h.word_later (by omega)) (by rw [hround, choose_eq]) (by rw [hround])
  · have hround : roundFunction t = (parity, 0x6ED9EBA1#32) := by rw [roundFunction, if_neg h₂, if_pos h₃]
    rw [← and_fifteen] at hnext
    exact hnext (h.word_later (by omega)) (by rw [hround]; rfl) (by rw [hround])
  · have hround : roundFunction t = (majority, 0x8F1BBCDC#32) := by
      rw [roundFunction, if_neg h₂, if_neg h₃, if_pos h₄]
    rw [← and_fifteen] at hnext
    exact hnext (h.word_later (by omega)) (by rw [hround, majority_eq]) (by rw [hround])
  · have hround : roundFunction t = (parity, 0xCA62C1D6#32) := by
      rw [roundFunction, if_neg h₂, if_neg h₃, if_neg h₄]
    rw [← and_fifteen] at hnext
    exact hnext (h.word_later (by omega)) (by rw [hround]; rfl) (by rw [hround])

theorem Stage.run (n : ℕ) (h : Stage block 0 work s) (hn : n ≤ 80) :
    Stage block n (((List.range n).map unrolled).foldl (fun s r => r s) work)
      ((List.range n).foldl (round block) s) := by
  induction n with
  | zero => exact h
  | succ n ih =>
    rw [List.range_succ, List.map_append, List.foldl_append, List.foldl_append]
    exact (ih (by omega)).step (by omega)

end Steps

theorem transform_compress (state : State) (block : List UInt8) :
    Transform state block = compress state block := by
  obtain ⟨ha, hb, hc, hd, he⟩ : var 80 = .a ∧ var 81 = .b ∧ var 82 = .c ∧ var 83 = .d ∧ var 84 = .e := by decide
  have hstart : Stage block 0 ⟨state.vars, blockWord block⟩ state :=
    ⟨congrArg state.vars ha, congrArg state.vars hb, congrArg state.vars hc, congrArg state.vars hd,
      congrArg state.vars he, fun j hj => absurd hj (Nat.not_lt_zero j), fun _ _ _ => rfl⟩
  have hstage := Stage.run 80 hstart le_rfl
  rw [← rounds_eq] at hstage
  unfold Transform compress State.add
  generalize rounds.foldl (fun s r => r s) ⟨state.vars, blockWord block⟩ = work at hstage ⊢
  obtain ⟨ha, hb, hc, hd, he⟩ : var 0 = .a ∧ var 1 = .b ∧ var 2 = .c ∧ var 3 = .d ∧ var 4 = .e := by decide
  obtain ⟨h0, h1, h2, h3, h4, -, -⟩ := hstage
  rw [Nat.sub_self] at h0 h1 h2 h3 h4
  rw [← h0, ← h1, ← h2, ← h3, ← h4, ha, hb, hc, hd, he]

end Thorn.SHA1
