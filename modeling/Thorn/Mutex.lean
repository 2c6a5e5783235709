import Thorn.Library.Runs

set_option autoImplicit false

/-!
# Mutexes

`Mutex.h`: the mutex and the recursive mutex over it. A call that spins, or that
fails an assertion and halts, does not return: it is `none`.
-/
namespace Thorn
open Runs

structure Mutex where
  locked : Bool

namespace Mutex

def lock (m : Mutex) : Option Mutex := if m.locked then none else some ⟨true⟩

def tryLock (m : Mutex) : Bool × Mutex := (!m.locked, ⟨true⟩)

def unlock (m : Mutex) : Option Mutex := if m.locked then some ⟨false⟩ else none

def tryUnlock (m : Mutex) : Bool × Mutex := (m.locked, ⟨false⟩)

end Mutex

abbrev ThreadID := UInt32

structure RecursiveMutex where
  submutex : Mutex
  locked : Bool
  owner : ThreadID
  depth : ℤ

namespace RecursiveMutex

def fresh : RecursiveMutex := { submutex := ⟨false⟩, locked := false, owner := 0, depth := 0 }

def int (n : ℤ) : ℤ := n.bmod (2 ^ 32)

def lock (m : RecursiveMutex) (self : ThreadID) : Option RecursiveMutex := do
  let m := { m with submutex := ← m.submutex.lock }
  if m.locked = false ∧ m.owner = self then
    let m := { m with depth := int (m.depth + 1) }
    return { m with submutex := ← m.submutex.unlock }
  let m := { m with submutex := ← m.submutex.unlock }
  if m.locked then failure
  let m := { m with locked := true }
  let m := { m with submutex := ← m.submutex.lock }
  let m := { m with owner := self, depth := 1 }
  return { m with submutex := ← m.submutex.unlock }

def tryLock (m : RecursiveMutex) (self : ThreadID) : Option (Bool × RecursiveMutex) := do
  let m := { m with submutex := ← m.submutex.lock }
  if m.locked ∧ m.owner = self then
    let m := { m with depth := int (m.depth + 1) }
    return (true, { m with submutex := ← m.submutex.unlock })
  let out := !m.locked
  let m := { m with locked := true }
  let m := if out then { m with owner := self, depth := 1 } else m
  return (out, { m with submutex := ← m.submutex.unlock })

def unlock (m : RecursiveMutex) (self : ThreadID) : Option RecursiveMutex := do
  let m := { m with submutex := ← m.submutex.lock }
  if m.locked then
    if m.owner = self then
      guard (m.depth > 0)
      let m := { m with depth := int (m.depth - 1) }
      let m := if m.depth = 0 then { m with owner := 0, locked := false } else m
      return { m with submutex := ← m.submutex.unlock }
    else failure
  else failure

def tryUnlock (m : RecursiveMutex) (self : ThreadID) : Option (Bool × RecursiveMutex) := do
  let m := { m with submutex := ← m.submutex.lock }
  if m.locked ∧ m.owner = self then
    guard (m.depth > 0)
    let m := { m with depth := int (m.depth - 1) }
    if m.depth = 0 then
      let m := { m with owner := 0, locked := false }
      return (true, { m with submutex := ← m.submutex.unlock })
    return (false, { m with submutex := ← m.submutex.unlock })
  return (false, { m with submutex := ← m.submutex.unlock })

/-! ### What a call comes to, between calls that leave the submutex free -/

section Calls
variable {m : RecursiveMutex} (h : m.submutex.locked = false) (self : ThreadID)
include h

theorem lock_eq : m.lock self =
    if m.locked = false ∧ m.owner = self then some { m with depth := int (m.depth + 1) }
    else if m.locked then none else some { m with locked := true, owner := self, depth := 1 } := by
  obtain ⟨⟨_⟩, locked, owner, depth⟩ := m
  cases h
  unfold lock Mutex.lock Mutex.unlock
  cases locked <;> by_cases ho : owner = self <;> simp [ho]

theorem tryLock_eq : m.tryLock self =
    if m.locked ∧ m.owner = self then some (true, { m with depth := int (m.depth + 1) })
    else if m.locked then some (false, m) else some (true, { m with locked := true, owner := self, depth := 1 }) := by
  obtain ⟨⟨_⟩, locked, owner, depth⟩ := m
  cases h
  unfold tryLock Mutex.lock Mutex.unlock
  cases locked <;> by_cases ho : owner = self <;> simp [ho]

def lower (m : RecursiveMutex) : RecursiveMutex :=
  if int (m.depth - 1) = 0 then { m with depth := int (m.depth - 1), owner := 0, locked := false }
  else { m with depth := int (m.depth - 1) }

theorem unlock_eq : m.unlock self =
    if m.locked ∧ m.owner = self ∧ m.depth > 0 then some m.lower else none := by
  obtain ⟨⟨_⟩, locked, owner, depth⟩ := m
  cases h
  unfold unlock Mutex.lock Mutex.unlock lower
  cases locked <;> by_cases ho : owner = self <;> by_cases hd : depth > 0 <;> by_cases hz : int (depth - 1) = 0 <;>
    simp [ho, hd, hz, guard]

theorem tryUnlock_eq : m.tryUnlock self =
    if m.locked ∧ m.owner = self then
      if m.depth > 0 then some (decide (int (m.depth - 1) = 0), m.lower) else none
    else some (false, m) := by
  obtain ⟨⟨_⟩, locked, owner, depth⟩ := m
  cases h
  unfold tryUnlock Mutex.lock Mutex.unlock lower
  cases locked <;> by_cases ho : owner = self <;> by_cases hd : depth > 0 <;> by_cases hz : int (depth - 1) = 0 <;>
    simp [ho, hd, hz, guard]

end Calls

end RecursiveMutex

/-! ### Threads over one recursive mutex -/

/-- The mutex, and how many of its acquisitions each thread has not given up. -/
structure Threads where
  mutex : RecursiveMutex
  count : ThreadID → ℕ

namespace Threads
open RecursiveMutex

inductive Call
  | lock (self : ThreadID)
  | tryLock (self : ThreadID)
  | unlock (self : ThreadID)
  | tryUnlock (self : ThreadID)

def fresh : Threads := { mutex := RecursiveMutex.fresh, count := fun _ => 0 }

def acquired (s : Threads) (self : ThreadID) (m : RecursiveMutex) : Threads :=
  { mutex := m, count := Function.update s.count self (s.count self + 1) }

def released (s : Threads) (self : ThreadID) (m : RecursiveMutex) : Threads :=
  { mutex := m, count := Function.update s.count self (s.count self - 1) }

/-- A call that does not return leaves everything as it is. -/
def step (s : Threads) : Call → Threads
  | .lock self => match s.mutex.lock self with
    | some m => s.acquired self m
    | none => s
  | .tryLock self => match s.mutex.tryLock self with
    | some (true, m) => s.acquired self m
    | some (false, m) => { s with mutex := m }
    | none => s
  | .unlock self => match s.mutex.unlock self with
    | some m => s.released self m
    | none => s
  | .tryUnlock self => match s.mutex.tryUnlock self with
    | some (_, m) => s.released self m
    | none => s

def Legal (s : Threads) (c : Call) : Prop := ∀ self, c = .unlock self → 0 < s.count self

/-- At most one thread holds the mutex, and the mutex says which and how often. -/
structure Exclusive (s : Threads) : Prop where
  one : ∀ i j, 0 < s.count i → 0 < s.count j → i = j
  locked_iff : s.mutex.locked ↔ ∃ i, 0 < s.count i
  owner : ∀ i, 0 < s.count i → s.mutex.owner = i ∧ s.mutex.depth = s.count i

/-- Whoever holds the mutex can lock it again. -/
def Reenters (s : Threads) : Prop := ∀ self, 0 < s.count self → (s.mutex.lock self).isSome

def Call.Acquires : Call → Prop
  | .lock _ => True
  | .tryLock _ => True
  | .unlock _ => False
  | .tryUnlock _ => False

/-- Thread 0 does not `lock` a free mutex, and `try_lock` does not overflow the depth. -/
def Sound (s : Threads) : Call → Prop
  | .lock self => self = 0 → s.mutex.locked
  | .tryLock self => 0 < s.count self → s.count self + 1 < 2 ^ 31
  | .unlock _ => True
  | .tryUnlock _ => True

structure Settled (s : Threads) : Prop where
  exclusive : Exclusive s
  quiet : s.mutex.submutex.locked = false
  free : s.mutex.locked = false → s.mutex.owner = 0
  bounded : ∀ i, s.count i < 2 ^ 31

theorem fresh_settled : Settled fresh where
  exclusive :=
    { one := fun _ _ h _ => absurd h (Nat.lt_irrefl 0)
      locked_iff := by
        constructor
        · intro h
          cases h
        · rintro ⟨_, h⟩
          exact absurd h (Nat.lt_irrefl 0)
      owner := fun _ h => absurd h (Nat.lt_irrefl 0) }
  quiet := rfl
  free := fun _ => rfl
  bounded := fun _ => Nat.two_pow_pos 31

variable {s : Threads}

theorem Settled.count_eq_zero (h : Settled s) (hl : s.mutex.locked = false) (i : ThreadID) : s.count i = 0 := by
  by_contra hi
  have hlocked : s.mutex.locked = true := h.exclusive.locked_iff.mpr ⟨i, Nat.pos_of_ne_zero hi⟩
  rw [hl] at hlocked
  cases hlocked

theorem Settled.owner_iff (h : Settled s) (self : ThreadID) :
    s.mutex.locked = true ∧ s.mutex.owner = self ↔ 0 < s.count self := by
  constructor
  · rintro ⟨hl, rfl⟩
    obtain ⟨i, hi⟩ := h.exclusive.locked_iff.mp hl
    rw [(h.exclusive.owner i hi).1]
    exact hi
  · intro hself
    exact ⟨h.exclusive.locked_iff.mpr ⟨self, hself⟩, (h.exclusive.owner self hself).1⟩

theorem exclusive_of_only {m : RecursiveMutex} {self : ThreadID} {n : ℕ}
    (hother : ∀ i, i ≠ self → s.count i = 0)
    (hlocked : m.locked = decide (0 < n)) (howner : 0 < n → m.owner = self ∧ m.depth = n) :
    Exclusive { mutex := m, count := Function.update s.count self n } := by
  have hself : ∀ i, 0 < Function.update s.count self n i → i = self ∧ 0 < n := by
    intro i hi
    by_cases h : i = self
    · subst h
      rw [Function.update_self] at hi
      exact ⟨rfl, hi⟩
    · rw [Function.update_of_ne h, hother i h] at hi
      exact absurd hi (Nat.lt_irrefl 0)
  constructor
  · intro i j hi hj
    exact (hself i hi).1.trans (hself j hj).1.symm
  · change m.locked = true ↔ _
    rw [hlocked, decide_eq_true_iff]
    constructor
    · intro hn
      refine ⟨self, ?_⟩
      change 0 < Function.update s.count self n self
      rwa [Function.update_self]
    · rintro ⟨i, hi⟩
      exact (hself i hi).2
  · intro i hi
    obtain ⟨rfl, hn⟩ := hself i hi
    change m.owner = i ∧ m.depth = (Function.update s.count i n i : ℕ)
    rw [Function.update_self]
    exact howner hn

theorem Settled.others (h : Settled s) {self : ThreadID} (hself : 0 < s.count self) (i : ThreadID)
    (hi : i ≠ self) : s.count i = 0 := by
  by_contra h0
  exact hi (h.exclusive.one i self (Nat.pos_of_ne_zero h0) hself)

theorem Settled.taken (h : Settled s) (hl : s.mutex.locked = false) (self : ThreadID) :
    Settled (s.acquired self { s.mutex with locked := true, owner := self, depth := 1 }) where
  exclusive := by
    have hzero := h.count_eq_zero hl
    unfold acquired
    rw [hzero self]
    exact exclusive_of_only (fun i _ => hzero i) rfl fun _ => ⟨rfl, rfl⟩
  quiet := h.quiet
  free := by
    intro hfree
    cases hfree
  bounded := by
    intro i
    change Function.update s.count self (s.count self + 1) i < 2 ^ 31
    rw [h.count_eq_zero hl self]
    by_cases hi : i = self
    · rw [hi, Function.update_self]
      decide
    · rw [Function.update_of_ne hi]
      exact h.bounded i

theorem int_eq_succ_iff {n : ℕ} (h : n < 2 ^ 31) : int ((n : ℤ) + 1) = (n + 1 : ℕ) ↔ n + 1 < 2 ^ 31 := by
  unfold int
  rw [Int.bmod_def]
  split_ifs <;> omega

theorem int_pred {n : ℕ} (h : n < 2 ^ 31) (hpos : 0 < n) : int ((n : ℤ) - 1) = (n - 1 : ℕ) := by
  unfold int
  rw [Int.bmod_def]
  split_ifs <;> omega

/-- One more acquisition by the holder counts right as long as the depth can say so. -/
theorem Settled.raised_iff (h : Settled s) {self : ThreadID} (hself : 0 < s.count self) :
    Exclusive (s.acquired self { s.mutex with depth := int (s.mutex.depth + 1) }) ↔ s.count self + 1 < 2 ^ 31 := by
  obtain ⟨howner, hdepth⟩ := h.exclusive.owner self hself
  have hbound := h.bounded self
  rw [← int_eq_succ_iff hbound, hdepth]
  constructor
  · intro he
    have hcount :
        (s.acquired self { s.mutex with depth := int (s.count self + 1) }).count self = s.count self + 1 :=
      Function.update_self ..
    obtain ⟨-, hnew⟩ := he.owner self (by omega)
    rw [hcount] at hnew
    dsimp only [acquired] at hnew
    exact hnew
  · intro hint
    refine exclusive_of_only (h.others hself)
      (by
        change s.mutex.locked = _
        rw [decide_eq_true (Nat.succ_pos _)]
        exact h.exclusive.locked_iff.mpr ⟨self, hself⟩)
      fun _ => ⟨howner, ?_⟩
    dsimp only
    exact hint

theorem Settled.raised (h : Settled s) {self : ThreadID} (hself : 0 < s.count self)
    (hroom : s.count self + 1 < 2 ^ 31) :
    Settled (s.acquired self { s.mutex with depth := int (s.mutex.depth + 1) }) where
  exclusive := (h.raised_iff hself).mpr hroom
  quiet := h.quiet
  free := h.free
  bounded := by
    intro i
    change Function.update s.count self (s.count self + 1) i < 2 ^ 31
    by_cases hi : i = self
    · rwa [hi, Function.update_self]
    · rw [Function.update_of_ne hi]
      exact h.bounded i

theorem Settled.lowered (h : Settled s) {self : ThreadID} (hself : 0 < s.count self) :
    Settled (s.released self s.mutex.lower) := by
  obtain ⟨howner, hdepth⟩ := h.exclusive.owner self hself
  have hint : int (s.mutex.depth - 1) =
      (s.count self - 1 : ℕ) := by rw [hdepth, int_pred (h.bounded self) hself]
  have hbounded : ∀ i, (s.released self s.mutex.lower).count i < 2 ^ 31 := by
    intro i
    change Function.update s.count self (s.count self - 1) i < 2 ^ 31
    by_cases hi : i = self
    · rw [hi, Function.update_self]
      exact (Nat.sub_le _ _).trans_lt (h.bounded self)
    · rw [Function.update_of_ne hi]
      exact h.bounded i
  unfold released at hbounded ⊢
  unfold lower at hbounded ⊢
  rw [hint] at hbounded ⊢
  split_ifs at hbounded ⊢ with hz
  · have hlast : s.count self - 1 = 0 := Int.natCast_eq_zero.mp hz
    refine ⟨exclusive_of_only (h.others hself) ?_ fun hpos => absurd hlast (by omega), h.quiet, fun _ => rfl,
      hbounded⟩
    rw [hlast]
    rfl
  · have hmore : 0 < s.count self - 1 := Nat.pos_of_ne_zero fun h0 => hz (by rw [h0]; rfl)
    refine ⟨exclusive_of_only (h.others hself) ?_ fun _ => ⟨howner, rfl⟩, h.quiet, h.free, hbounded⟩
    rw [decide_eq_true hmore]
    exact h.exclusive.locked_iff.mpr ⟨self, hself⟩

theorem Settled.lock_eq (h : Settled s) (self : ThreadID) : s.mutex.lock self =
    if s.mutex.locked then none
    else if self = 0 then some { s.mutex with depth := int (s.mutex.depth + 1) }
    else some { s.mutex with locked := true, owner := self, depth := 1 } := by
  rw [RecursiveMutex.lock_eq h.quiet]
  cases hl : s.mutex.locked with
  | true => rw [if_neg (fun hc => Bool.noConfusion hc.1), if_pos rfl, if_pos rfl]
  | false =>
    have howner := h.free hl
    rw [if_neg Bool.false_ne_true, if_neg Bool.false_ne_true]
    by_cases hz : self = 0
    · rw [if_pos ⟨rfl, howner.trans hz.symm⟩, if_pos hz, ← hl]
    · rw [if_neg (fun hc => hz (hc.2.symm.trans howner)), if_neg hz]

theorem Settled.lock_held (h : Settled s) {self : ThreadID} (hself : 0 < s.count self) :
    s.mutex.lock self = none := by
  rw [h.lock_eq, if_pos (h.exclusive.locked_iff.mpr ⟨self, hself⟩)]

theorem Settled.lock_sound (h : Settled s) (self : ThreadID) :
    (Exclusive (s.step (.lock self)) ↔ Sound s (.lock self)) ∧
      (Sound s (.lock self) → Settled (s.step (.lock self))) := by
  dsimp only [Sound, step]
  rw [h.lock_eq]
  cases hl : s.mutex.locked with
  | true =>
    rw [if_pos rfl]
    exact ⟨iff_of_true h.exclusive fun _ => rfl, fun _ => h⟩
  | false =>
    rw [if_neg Bool.false_ne_true]
    by_cases hz : self = 0
    · rw [if_pos hz]
      refine ⟨iff_of_false ?_ fun hc => Bool.noConfusion (hc hz), fun hc => Bool.noConfusion (hc hz)⟩
      intro he
      have hlocked : s.mutex.locked = true := he.locked_iff.mpr ⟨self, by
        change 0 < Function.update s.count self (s.count self + 1) self
        rw [Function.update_self]
        exact Nat.succ_pos _⟩
      rw [hl] at hlocked
      cases hlocked
    · rw [if_neg hz]
      have ht := h.taken hl self
      exact ⟨iff_of_true ht.exclusive fun hc => absurd hc hz, fun _ => ht⟩

theorem Settled.tryLock_sound (h : Settled s) (self : ThreadID) :
    (Exclusive (s.step (.tryLock self)) ↔ Sound s (.tryLock self)) ∧
      (Sound s (.tryLock self) → Settled (s.step (.tryLock self))) := by
  dsimp only [Sound, step]
  rw [RecursiveMutex.tryLock_eq h.quiet]
  by_cases hself : 0 < s.count self
  · rw [if_pos ((h.owner_iff self).mpr hself)]
    refine ⟨(h.raised_iff hself).trans ⟨fun hroom _ => hroom, fun hroom => hroom hself⟩, fun hroom => ?_⟩
    exact h.raised hself (hroom hself)
  · rw [if_neg (mt (h.owner_iff self).mp hself)]
    cases hl : s.mutex.locked with
    | true =>
      rw [if_pos rfl]
      exact ⟨iff_of_true h.exclusive fun hc => absurd hc hself, fun _ => h⟩
    | false =>
      rw [if_neg Bool.false_ne_true]
      have ht := h.taken hl self
      exact ⟨iff_of_true ht.exclusive fun hc => absurd hc hself, fun _ => ht⟩

theorem Settled.unlock_settled (h : Settled s) (self : ThreadID) (hself : 0 < s.count self) :
    Settled (s.step (.unlock self)) := by
  obtain ⟨hlocked, howner⟩ := (h.owner_iff self).mpr hself
  have hdepth : s.mutex.depth > 0 := by
    rw [(h.exclusive.owner self hself).2]
    exact Int.natCast_pos.mpr hself
  dsimp only [step]
  rw [RecursiveMutex.unlock_eq h.quiet, if_pos ⟨hlocked, howner, hdepth⟩]
  exact h.lowered hself

theorem Settled.tryUnlock_settled (h : Settled s) (self : ThreadID) : Settled (s.step (.tryUnlock self)) := by
  dsimp only [step]
  rw [RecursiveMutex.tryUnlock_eq h.quiet]
  by_cases hself : 0 < s.count self
  · have hdepth : s.mutex.depth > 0 := by
      rw [(h.exclusive.owner self hself).2]
      exact Int.natCast_pos.mpr hself
    rw [if_pos ((h.owner_iff self).mpr hself), if_pos hdepth]
    exact h.lowered hself
  · rw [if_neg (mt (h.owner_iff self).mp hself)]
    have hzero : s.count self = 0 := by omega
    have hsame : s.released self s.mutex = s := by
      unfold released
      rw [show s.count self - 1 = s.count self by omega, Function.update_eq_self]
    change Settled (s.released self s.mutex)
    rw [hsame]
    exact h

theorem Settled.sound_iff (h : Settled s) (c : Call) (hlegal : Legal s c) :
    (Exclusive (s.step c) ↔ Sound s c) ∧ (Sound s c → Settled (s.step c)) := by
  cases c with
  | lock self => exact h.lock_sound self
  | tryLock self => exact h.tryLock_sound self
  | unlock self =>
    have hs := h.unlock_settled self (hlegal self rfl)
    exact ⟨iff_of_true hs.exclusive trivial, fun _ => hs⟩
  | tryUnlock self =>
    have hs := h.tryUnlock_settled self
    exact ⟨iff_of_true hs.exclusive trivial, fun _ => hs⟩

theorem step_fresh {c : Call} (hlegal : Legal fresh c) (h : ¬ c.Acquires) : step fresh c = fresh := by
  cases c with
  | lock self => exact absurd trivial h
  | tryLock self => exact absurd trivial h
  | unlock self => exact absurd (hlegal self rfl) (Nat.lt_irrefl 0)
  | tryUnlock self =>
    dsimp only [step]
    rw [RecursiveMutex.tryUnlock_eq rfl, if_neg (fun hc => Bool.noConfusion hc.1)]
    change released fresh self RecursiveMutex.fresh = fresh
    unfold released
    rw [show fresh.count self - 1 = fresh.count self from rfl, Function.update_eq_self]
    rfl

/-- The first thread to acquire the mutex cannot lock it again. -/
theorem not_reenters_of_acquires {c : Call} (h : c.Acquires) (hs : Settled (step fresh c)) :
    ¬ Reenters (step fresh c) := by
  have held : ∀ self, 0 < (step fresh c).count self → ¬ Reenters (step fresh c) := by
    intro self hself hre
    have hsome := hre self hself
    rw [hs.lock_held hself] at hsome
    cases hsome
  cases c with
  | lock self =>
    refine held self ?_
    dsimp only [step]
    rw [fresh_settled.lock_eq, if_neg (show ¬ fresh.mutex.locked = true from Bool.false_ne_true)]
    split_ifs
    · change 0 < Function.update fresh.count self (fresh.count self + 1) self
      rw [Function.update_self]
      exact Nat.succ_pos _
    · change 0 < Function.update fresh.count self (fresh.count self + 1) self
      rw [Function.update_self]
      exact Nat.succ_pos _
  | tryLock self =>
    refine held self ?_
    dsimp only [step]
    rw [RecursiveMutex.tryLock_eq rfl, if_neg (fun hc => Bool.noConfusion hc.1),
      if_neg (show ¬ fresh.mutex.locked = true from Bool.false_ne_true)]
    change 0 < Function.update fresh.count self (fresh.count self + 1) self
    rw [Function.update_self]
    exact Nat.succ_pos _
  | unlock self => cases h
  | tryUnlock self => cases h

theorem reenters_iff {calls : List Call} (legal : Throughout step Legal fresh calls) :
    Always step (fun s => Exclusive s ∧ Reenters s) fresh calls ↔ ∀ c ∈ calls, ¬ c.Acquires := by
  have hfresh : Exclusive fresh ∧ Reenters fresh :=
    ⟨fresh_settled.exclusive, fun _ h => absurd h (Nat.lt_irrefl 0)⟩
  induction calls with
  | nil => exact iff_of_true (always_nil.mpr hfresh) fun _ h => absurd h List.not_mem_nil
  | cons c calls ih =>
    obtain ⟨hlegal, hrest⟩ := throughout_cons.mp legal
    rw [always_cons, and_iff_right hfresh, List.forall_mem_cons]
    by_cases hc : c.Acquires
    · refine iff_of_false ?_ fun h => h.1 hc
      intro h
      obtain ⟨he, hre⟩ : Exclusive (step fresh c) ∧ Reenters (step fresh c) := h [] List.nil_prefix
      obtain ⟨hiff, hkeep⟩ := fresh_settled.sound_iff c hlegal
      exact not_reenters_of_acquires hc (hkeep (hiff.mp he)) hre
    · rw [step_fresh hlegal hc] at hrest ⊢
      exact (ih hrest).trans (and_iff_right hc).symm

/-- A run keeps the mutex exclusive and open to its holder just when nobody acquires
it; and it keeps it exclusive just when all its calls are sound. -/
theorem exclusive_iff (calls : List Call) (legal : Throughout step Legal fresh calls) :
    (Always step (fun s => Exclusive s ∧ Reenters s) fresh calls ↔ ∀ c ∈ calls, ¬ c.Acquires) ∧
    (Always step Exclusive fresh calls ↔ Throughout step Sound fresh calls) := by
  refine ⟨reenters_iff legal, ?_⟩
  rw [always_iff_throughout, and_iff_right fresh_settled.exclusive]
  exact throughout_iff fresh_settled (fun s c h hl hs => (h.sound_iff c hl).2 hs)
    (fun s c h hl => (h.sound_iff c hl).1) legal

/-- Thread 5 goes in twice and out twice while thread 6 tries: only one of them is
ever in, but thread 5 could not have gone in by `lock`. -/
theorem exclusive_nested :
    ¬ Always step (fun s => Exclusive s ∧ Reenters s) fresh
        [.tryLock 5, .tryLock 5, .tryLock 6, .unlock 5, .tryUnlock 5, .lock 6] ∧
    Always step Exclusive fresh [.tryLock 5, .tryLock 5, .tryLock 6, .unlock 5, .tryUnlock 5, .lock 6] ∧
    Always step (fun s => Exclusive s ∧ Reenters s) fresh [.tryUnlock 5, .tryUnlock 6] := by
  have hlegal : Throughout step Legal fresh
      [.tryLock 5, .tryLock 5, .tryLock 6, .unlock 5, .tryUnlock 5, .lock 6] := by
    simp only [throughout_cons, throughout_nil, and_true]
    refine ⟨by rintro _ ⟨⟩, by rintro _ ⟨⟩, by rintro _ ⟨⟩, ?_, by rintro _ ⟨⟩, by rintro _ ⟨⟩⟩
    rintro _ ⟨⟩
    decide
  have hidle : Throughout step Legal fresh [.tryUnlock 5, .tryUnlock 6] := by
    simp only [throughout_cons, throughout_nil, and_true]
    exact ⟨by rintro _ ⟨⟩, by rintro _ ⟨⟩⟩
  obtain ⟨hreenters, hexclusive⟩ := exclusive_iff _ hlegal
  refine ⟨?_, hexclusive.mpr ?_, (exclusive_iff _ hidle).1.mpr ?_⟩
  · intro h
    exact hreenters.mp h _ List.mem_cons_self trivial
  · simp only [throughout_cons, throughout_nil, and_true, Sound]
    decide
  · intro c hc
    simp only [List.mem_cons, List.not_mem_nil, or_false] at hc
    rcases hc with rfl | rfl <;> exact id

/-- Threads 0 and 1 lock the same mutex, and both hold it; and a thread that holds
it waits for itself. -/
theorem lock_not_exclusive :
    ¬ Always step Exclusive fresh [.lock 0, .lock 1] ∧ ¬ Always step Reenters fresh [.lock 1] := by
  constructor
  · intro h
    have hboth := h.after.one 0 1 (by decide) (by decide)
    cases hboth
  · intro h
    have hsome := h.after 1 (by decide)
    revert hsome
    decide

end Threads
end Thorn
