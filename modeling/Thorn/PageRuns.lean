import Thorn.PageFrames

set_option autoImplicit false

/-!
# Runs of consecutive page frames

`PageMeta::allocateFreePhysicalAddress` for any count. `isFree` shifts an `int`:
the shifts that C++ leaves undefined are the parameter `wide`.
-/
namespace Thorn.Paging
open ByteStore

namespace PageMeta4K

/-- `1 << shift`, an `int` that is then widened to 64 bits. -/
def shiftedOne (wide : ℕ → ℕ) (shift : ℕ) : ℕ :=
  if shift < 31 then 2 ^ shift else if shift = 31 then 2 ^ 64 - 2 ^ 31 else wide shift

/-- What the processor makes of the undefined shifts: the count is taken modulo 32. -/
def shiftMod32 (shift : ℕ) : ℕ := if shift % 32 = 31 then 2 ^ 64 - 2 ^ 31 else 2 ^ (shift % 32)

variable (wide : ℕ → ℕ) (p : PageMeta4K)

def isFree (m : Store) (index : ℕ) : Bool := word 8 m (index / 64) &&& shiftedOne wide (index % 64) != 0

def restFree (m : Store) (index : ℤ) (consecutive_count : ℕ) : Bool :=
  (List.range (consecutive_count - 1)).all fun i => isFree wide m ((index + (i + 1 : ℕ)) % (2 ^ 64 : ℕ)).toNat

/-- `mark(index, true)`: the word of a negative index has no canonical address. -/
def markAt (m : Store) (index : ℤ) : Option Store :=
  if p.pages = -1 then some m else if index < 0 then none else some (p.mark m index.toNat true)

/-- The loop has no exit of its own: it ends where `restFree` holds. -/
def consecutiveLoop (consecutive_count : ℕ) : ℕ → ℤ → Store → Option (ℕ × Store)
  | 0, _, _ => none
  | fuel + 1, index, m =>
    -- the index of a bit goes in where that of a word is taken
    let index := p.findFree m (index + 1).toNat
    if restFree wide m index consecutive_count then
      (p.markAt m index).map fun m' => (((p.physicalStart + index * pageSize) % (2 ^ 64 : ℕ)).toNat, m')
    else consecutiveLoop consecutive_count fuel index m

def allocateFreePhysicalRun (fuel consecutive_count : ℕ) (m : Store) : Option (ℕ × Store) :=
  if consecutive_count = 0 then some (0, m)
  else if consecutive_count = 1 then some (p.allocateFreePhysicalAddress m)
  else p.consecutiveLoop wide consecutive_count fuel (-1) m

def searchable : ℕ := if p.pages = -1 then 0 else 64 * (p.pageCount / 64)

def AllocatesRun (n : ℕ) (m : Store) : Prop :=
  ∃ fuel address m', p.allocateFreePhysicalRun wide fuel n m = some (address, m') ∧
    (address = 0 ∧ (∀ k, bitAt m' k = bitAt m k) ∧
        (∀ i, i + n ≤ p.searchable → ∃ k, i ≤ k ∧ k < i + n ∧ bitAt m k = true) ∨
      ∃ i, address = (p.physicalStart + 4096 * i) % 2 ^ 64 ∧ (∀ k, i ≤ k → k < i + n → bitAt m k = false) ∧
        ∀ k, bitAt m' k = (decide (i ≤ k ∧ k < i + n) || bitAt m k))

variable {wide} {p}

theorem findFree_cases (m : Store) (start : ℕ) : p.findFree m start = -1 ∨
    p.pages ≠ -1 ∧ ∃ k : ℕ, p.findFree m start = k ∧ bitAt m k = false := by
  rw [findFree]
  by_cases hnone : p.pages = -1
  · left
    rw [if_pos hnone]
  · rw [if_neg hnone]
    cases hscan : scanWords 8 m (p.pageCount / (8 * 8) - start) start with
    | none => exact .inl rfl
    | some k => exact .inr ⟨hnone, k, rfl, (scanWords_eq_some hscan).2.2⟩

theorem findFree_unset (h : p.pages = -1) (m : Store) (start : ℕ) : p.findFree m start = -1 := by
  rw [findFree, if_pos h]

theorem markAt_unset (h : p.pages = -1) (m : Store) (index : ℤ) : p.markAt m index = some m := by
  rw [markAt, if_pos h]

theorem consecutiveLoop_marks (h : p.pages ≠ -1) {n fuel : ℕ} {index : ℤ} {m m' : Store} {address : ℕ}
    (hrun : p.consecutiveLoop wide n fuel index m = some (address, m')) :
    ∃ k, bitAt m k = false ∧ ∀ j, bitAt m' j = (decide (j = k) || bitAt m j) := by
  induction fuel generalizing index with
  | zero => cases hrun
  | succ fuel ih =>
    rw [consecutiveLoop] at hrun
    split_ifs at hrun
    · rcases findFree_cases (p := p) m (index + 1).toNat with hfail | ⟨-, k, hfound, hclear⟩
      · rw [hfail, markAt, if_neg h, if_pos (by omega)] at hrun
        cases hrun
      · rw [hfound, markAt, if_neg h, if_neg (by omega), mark, if_neg h, if_pos rfl, Int.toNat_natCast] at hrun
        cases hrun
        exact ⟨k, hclear, fun j => bitAt_setBit m k j (by omega)⟩
    · exact ih hrun

theorem consecutiveLoop_unset (h : p.pages = -1) {n fuel : ℕ} {index : ℤ} {m m' : Store} {address : ℕ}
    (hrun : p.consecutiveLoop wide n fuel index m = some (address, m')) : restFree wide m (-1) n = true ∧
      address = ((p.physicalStart + (-1) * pageSize) % (2 ^ 64 : ℕ) : ℤ).toNat ∧ m' = m := by
  induction fuel generalizing index with
  | zero => cases hrun
  | succ fuel ih =>
    rw [consecutiveLoop] at hrun
    rw [findFree_unset h, markAt_unset h] at hrun
    split_ifs at hrun with hfree
    · cases hrun
      exact ⟨hfree, rfl, rfl⟩
    · exact ih hrun

theorem restFree_unset (m : Store) {n : ℕ} (hn : n < 2 ^ 64) :
    restFree wide m (-1) n = true ↔ ∀ i, i + 1 < n → isFree wide m i = true := by
  have hindex : ∀ i, i + 1 < n → (((-1 : ℤ) + (i + 1 : ℕ)) % (2 ^ 64 : ℕ)).toNat = i := fun i hi => by omega
  rw [restFree, List.all_eq_true]
  constructor
  · intro h i hi
    have hfree := h i (List.mem_range.mpr (by omega))
    rwa [hindex i hi] at hfree
  · intro h i hi
    have hi' := List.mem_range.mp hi
    rw [hindex i (by omega)]
    exact h i (by omega)

theorem allocateFreePhysicalRun_loop {n : ℕ} (hn : 2 ≤ n) (fuel : ℕ) (m : Store) :
    p.allocateFreePhysicalRun wide fuel n m = p.consecutiveLoop wide n fuel (-1) m := by
  rw [allocateFreePhysicalRun, if_neg (by omega), if_neg (by omega)]

/-- A real allocator never finds a run: it would mark one frame of it. -/
theorem not_allocatesRun (h : p.pages ≠ -1) {n : ℕ} (hn : 2 ≤ n) (m : Store) : ¬ AllocatesRun wide p n m := by
  rintro ⟨fuel, address, m', hrun, hend⟩
  rw [allocateFreePhysicalRun_loop hn] at hrun
  obtain ⟨k, hclear, hbits⟩ := consecutiveLoop_marks h hrun
  have hset : bitAt m' k = true := by rw [hbits, decide_eq_true rfl, Bool.true_or]
  rcases hend with ⟨-, hsame, -⟩ | ⟨i, -, hfree, hmarked⟩
  · rw [hsame, hclear] at hset
    cases hset
  · -- of two neighbours in the run, one is not the frame that was marked
    have hone : ∀ j, i ≤ j → j < i + n → j = k := by
      intro j hlow hhigh
      have hbit := hmarked j
      rw [decide_eq_true ⟨hlow, hhigh⟩, Bool.true_or, hbits, hfree j hlow hhigh, Bool.or_false] at hbit
      exact of_decide_eq_true hbit
    have hfirst := hone i (le_refl i) (by omega)
    have hsecond := hone (i + 1) (by omega) (by omega)
    omega

/-- Only an allocator without frames answers as it should, and only from address 4096. -/
theorem allocatesRun_iff {n : ℕ} (hn : 2 ≤ n) (hmax : n < 2 ^ 64) (hstart : p.physicalStart < 2 ^ 64)
    (m : Store) :
    AllocatesRun wide p n m ↔
      p.pages = -1 ∧ p.physicalStart = 4096 ∧ ∀ i, i + 1 < n → isFree wide m i = true := by
  by_cases hset : p.pages = -1
  · constructor
    · rintro ⟨fuel, address, m', hrun, hend⟩
      rw [allocateFreePhysicalRun_loop hn] at hrun
      obtain ⟨hfree, rfl, rfl⟩ := consecutiveLoop_unset hset hrun
      refine ⟨hset, ?_, (restFree_unset m' hmax).mp hfree⟩
      rcases hend with ⟨hzero, -, -⟩ | ⟨i, -, hclear, hmarked⟩
      · rw [pageSize] at hzero
        omega
      · have hbit := hmarked i
        rw [hclear i (le_refl i) (by omega), decide_eq_true ⟨le_refl i, by omega⟩] at hbit
        cases hbit
    · rintro ⟨-, hplace, hfree⟩
      refine ⟨1, 0, m, ?_, .inl ⟨rfl, fun k => rfl, fun i hi => ?_⟩⟩
      · rw [allocateFreePhysicalRun_loop hn, consecutiveLoop, findFree_unset hset, markAt_unset hset,
          if_pos ((restFree_unset m hmax).mpr hfree), hplace]
        rfl
      · rw [searchable, if_pos hset] at hi
        omega
  · exact iff_of_false (not_allocatesRun hset hn m) fun h => hset h.1

/-- A run of two frames asked of an allocator that has none: the answer is 0. -/
theorem allocatesRun_without_frames : AllocatesRun shiftMod32 ⟨4096, -1⟩ 2 (fun _ => 255) :=
  (allocatesRun_iff (by decide) (by decide) (by decide) _).mpr ⟨rfl, rfl, fun i hi => by
    obtain rfl : i = 0 := by omega
    decide⟩

theorem isFree_zero (index : ℕ) : isFree wide (fun _ => 0) index = false := by
  have hword : word 8 (fun _ => 0) (index / 64) = 0 := by
    rw [word, slice]
    rfl
  rw [isFree, hword, Nat.zero_and]
  rfl

theorem consecutiveLoop_zero (fuel : ℕ) (index : ℤ) :
    p.consecutiveLoop wide 2 fuel index (fun _ => 0) = none := by
  induction fuel generalizing index with
  | zero => rfl
  | succ fuel ih =>
    have hrest : ∀ next, restFree wide (fun _ => 0) next 2 = false := by
      intro next
      rw [restFree, List.range_one, List.all_cons, isFree_zero, Bool.false_and]
    rw [consecutiveLoop, hrest, if_neg Bool.false_ne_true]
    exact ih _

/-- All 64 frames are free, and the call for two of them never ends. -/
theorem consecutive_never_ends :
    (∀ fuel, allocateFreePhysicalRun shiftMod32 ⟨2 ^ 24, 64⟩ fuel 2 (fun _ => 0) = none) ∧
      ¬ AllocatesRun shiftMod32 ⟨2 ^ 24, 64⟩ 2 (fun _ => 0) :=
  ⟨fun fuel => (allocateFreePhysicalRun_loop (le_refl 2) fuel _).trans (consecutiveLoop_zero fuel (-1)),
    not_allocatesRun (by decide) (le_refl 2) _⟩

end PageMeta4K

end Thorn.Paging
