import Thorn.Processes

set_option autoImplicit false

namespace Thorn.Kernel
open Runs Paging ByteStore

inductive PIDCall
  | makeProcess
  /-- The entry of a key is taken out of the table. -/
  | remove (key : ℕ)

/-- A call that halts leaves everything as it is. -/
def pidStep (s : Kernel) : PIDCall → Kernel
  | .makeProcess => s.makeProcess.getD s
  | .remove key => { s with processes := s.processes.erase key }

def lastBefore (s : Kernel) : ℕ := if MaxPID ≤ s.lastPID then 1 else s.lastPID

/-- `nextPID` comes back with a PID in range that is not in use, and remembers it. -/
def FindsFresh (s : Kernel) : Prop :=
  ∃ pid t, s.nextPID = some (pid, t) ∧ 1 ≤ pid ∧ pid ≤ MaxPID ∧ pid ∉ s.processes ∧ t.lastPID = pid

def RoomAbove (s : Kernel) : Prop := ∃ pid, s.lastBefore < pid ∧ pid ≤ MaxPID ∧ pid ∉ s.processes

section Search
variable {procs : ProcessMap} {key next candidate : ℕ}

def keysFrom (procs : ProcessMap) (candidate : ℕ) : Finset ℕ := procs.keys.filter (candidate ≤ ·)

theorem nextKey_none (h : nextKey procs candidate = none) : ∀ key ∈ procs, key ≤ candidate := by
  intro key hkey
  by_contra hlarger
  have hmem : key ∈ (procs.keys.filter (candidate < ·)).sort (· ≤ ·) :=
    (Finset.mem_sort _).mpr (Finset.mem_filter.mpr ⟨Finmap.mem_keys.mpr hkey, not_le.mp hlarger⟩)
  rw [List.head?_eq_none_iff.mp h] at hmem
  cases hmem

theorem nextKey_some (h : nextKey procs candidate = some next) :
    next ∈ procs ∧ candidate < next ∧ ∀ key ∈ procs, candidate < key → next ≤ key := by
  obtain ⟨rest, hsort⟩ := List.head?_eq_some_iff.mp h
  have hmem : ∀ key, key ∈ next :: rest ↔ key ∈ procs ∧ candidate < key := by
    intro key
    rw [← hsort, Finset.mem_sort, Finset.mem_filter, Finmap.mem_keys]
  have hordered := Finset.pairwise_sort (procs.keys.filter (candidate < ·)) (· ≤ ·)
  rw [hsort] at hordered
  obtain ⟨hnext, hgreater⟩ := (hmem next).mp List.mem_cons_self
  refine ⟨hnext, hgreater, fun key hkey hlarger => ?_⟩
  rcases List.mem_cons.mp ((hmem key).mpr ⟨hkey, hlarger⟩) with rfl | hrest
  · exact le_rfl
  · exact (List.pairwise_cons.mp hordered).1 key hrest

theorem keysFrom_succ (h : candidate ∈ procs) :
    (keysFrom procs (candidate + 1)).card + 1 ≤ (keysFrom procs candidate).card := by
  have hsub : insert candidate (keysFrom procs (candidate + 1)) ⊆ keysFrom procs candidate := by
    intro key hkey
    rcases Finset.mem_insert.mp hkey with rfl | hkey
    · exact Finset.mem_filter.mpr ⟨Finmap.mem_keys.mpr h, le_rfl⟩
    · obtain ⟨hmem, hlarger⟩ := Finset.mem_filter.mp hkey
      exact Finset.mem_filter.mpr ⟨hmem, Nat.le_of_succ_le hlarger⟩
  have habsent : candidate ∉ keysFrom procs (candidate + 1) := fun hkey =>
    absurd (Finset.mem_filter.mp hkey).2 (Nat.not_succ_le_self candidate)
  have hcard := Finset.card_le_card hsub
  rw [Finset.card_insert_of_notMem habsent] at hcard
  exact hcard

theorem nextPIDLoop_least (procs : ProcessMap) (fuel candidate : ℕ)
    (hfuel : (keysFrom procs candidate).card < fuel)
    (hwide : candidate + (keysFrom procs candidate).card < 2 ^ 32) :
    ∃ pid, nextPIDLoop procs fuel candidate = some pid ∧ IsLeast {q | candidate ≤ q ∧ q ∉ procs} pid := by
  induction fuel generalizing candidate with
  | zero => exact absurd hfuel (Nat.not_lt_zero _)
  | succ fuel ih =>
    rw [nextPIDLoop]
    by_cases hkey : candidate ∉ procs
    · rw [if_pos hkey]
      exact ⟨candidate, rfl, ⟨le_rfl, hkey⟩, fun q hq => hq.1⟩
    · rw [if_neg hkey]
      rw [not_not] at hkey
      have hfewer := keysFrom_succ hkey
      have hfits : (candidate + 1) % 2 ^ 32 = candidate + 1 := Nat.mod_eq_of_lt (by omega)
      -- Nothing from the candidate on is free before the number behind it.
      have hbehind : ∀ q ∈ {q | candidate ≤ q ∧ q ∉ procs}, candidate + 1 ≤ q := by
        rintro q ⟨hq, hfree⟩
        have hne : q ≠ candidate := fun h => hfree (h ▸ hkey)
        omega
      cases hnext : nextKey procs candidate with
      | none =>
        have habsent : candidate + 1 ∉ procs :=
          fun h => absurd (nextKey_none hnext _ h) (Nat.not_succ_le_self candidate)
        dsimp only
        rw [hfits]
        exact ⟨candidate + 1, rfl, ⟨Nat.le_succ candidate, habsent⟩, hbehind⟩
      | some next =>
        obtain ⟨-, -, hclosest⟩ := nextKey_some hnext
        dsimp only
        rw [hfits]
        split_ifs with hgap
        · have habsent : candidate + 1 ∉ procs := fun h =>
            absurd (hclosest _ h (Nat.lt_succ_self candidate)) (not_le.mpr hgap)
          exact ⟨candidate + 1, rfl, ⟨Nat.le_succ candidate, habsent⟩, hbehind⟩
        · obtain ⟨pid, hrun, ⟨hle, hfree⟩, hleast⟩ := ih (candidate + 1) (by omega) (by omega)
          exact ⟨pid, hrun, ⟨Nat.le_of_succ_le hle, hfree⟩, fun q hq => hleast ⟨hbehind q hq, hq.2⟩⟩

end Search

section Fresh
variable {s : Kernel}

/-- With fewer processes than the limit the search always comes back. -/
theorem nextPID_least (hfull : ¬ s.Full) : ∃ pid, s.nextPID = some (pid, { s with lastPID := pid }) ∧
    IsLeast {q | s.lastBefore + 1 ≤ q ∧ q ∉ s.processes} pid := by
  have hmax : MaxPID = 2147483647 := rfl
  have hfew : s.processes.keys.card < MaxPID - 5 := Nat.lt_of_not_le hfull
  have hlast : s.lastBefore < MaxPID := by
    unfold lastBefore
    split_ifs <;> omega
  have hsome : (keysFrom s.processes (s.lastBefore + 1)).card ≤ s.processes.keys.card :=
    Finset.card_filter_le _ _
  obtain ⟨pid, hrun, hleast⟩ := nextPIDLoop_least s.processes (s.processes.keys.card + 1) (s.lastBefore + 1)
    (by omega) (by omega)
  refine ⟨pid, ?_, hleast⟩
  unfold nextPID
  dsimp only
  rw [if_neg hfull]
  change (nextPIDLoop s.processes _ ((s.lastBefore + 1) % 2 ^ 32)).map _ = _
  rw [Nat.mod_eq_of_lt (by omega), hrun]
  rfl

theorem findsFresh_iff (hfull : ¬ s.Full) : FindsFresh s ↔ RoomAbove s := by
  obtain ⟨pid, hrun, ⟨habove, hfree⟩, hleast⟩ := nextPID_least hfull
  constructor
  · rintro ⟨pid', t, hrun', -, hbelow, hfree', -⟩
    obtain ⟨rfl, -⟩ := Prod.mk.inj (Option.some.inj (hrun.symm.trans hrun'))
    exact ⟨pid, habove, hbelow, hfree'⟩
  · rintro ⟨q, hq, hqmax, hqfree⟩
    exact ⟨pid, _, hrun, by omega, (hleast ⟨hq, hqfree⟩).trans hqmax, hfree, rfl⟩

end Fresh

/-- In every run, PIDs are fresh and in range wherever there is one left above the last. -/
theorem pids_fresh_iff (M : Memory) (bitmap : Store) (calls : List PIDCall) :
    Always pidStep (fun s => ¬ s.Full → FindsFresh s) (start M bitmap) calls ↔
      Always pidStep (fun s => ¬ s.Full → RoomAbove s) (start M bitmap) calls := by
  constructor
  · exact fun h => h.imp fun s hs hfull => (findsFresh_iff hfull).mp (hs hfull)
  · exact fun h => h.imp fun s hs hfull => (findsFresh_iff hfull).mpr (hs hfull)

section Sample

structure Stands (K : Finset ℕ) (n : ℕ) (s : Kernel) : Prop where
  keys : s.processes.keys = K
  last : s.lastPID = n

variable {K : Finset ℕ} {n : ℕ} {s : Kernel}

theorem Stands.not_full (h : Stands K n s) (hK : K.card < 2) : ¬ s.Full := by
  unfold Full
  rw [h.keys]
  have hmax : MaxPID = 2147483647 := rfl
  omega

theorem Stands.mem_iff (h : Stands K n s) (pid : ℕ) : pid ∈ s.processes ↔ pid ∈ K := by
  rw [← Finmap.mem_keys, h.keys]

theorem Stands.make (h : Stands K n s) (hK : K.card < 2) (hfree : s.lastBefore + 1 ∉ K) :
    Stands (insert (s.lastBefore + 1) K) (s.lastBefore + 1) (pidStep s .makeProcess) := by
  obtain ⟨pid, hrun, ⟨hle, hnew⟩, hleast⟩ := nextPID_least (h.not_full hK)
  have hbehind : s.lastBefore + 1 ∉ s.processes := fun hmem => hfree ((h.mem_iff _).mp hmem)
  obtain rfl : pid = s.lastBefore + 1 := Nat.le_antisymm (hleast ⟨le_rfl, hbehind⟩) hle
  have hstep : pidStep s .makeProcess = s.makeProcess.getD s := rfl
  rw [hstep, makeProcess_eq hrun hnew, Option.getD_some]
  refine ⟨?_, rfl⟩
  ext key
  rw [Finmap.mem_keys, Finset.mem_insert, ← h.mem_iff]
  exact Finmap.mem_insert

theorem Stands.churn (h : Stands K n s) (hK : K.card < 2) (hfree : s.lastBefore + 1 ∉ K) :
    Stands K (s.lastBefore + 1) (after pidStep s [.makeProcess, .remove (s.lastBefore + 1)]) := by
  have hmade := h.make hK hfree
  refine ⟨?_, hmade.last⟩
  change ((pidStep s .makeProcess).processes.erase (s.lastBefore + 1)).keys = K
  rw [Finmap.keys_erase, hmade.keys, Finset.erase_insert hfree]

theorem Stands.churn_many (h : Stands K n s) (hK : K.card < 2) (k : ℕ) (hk : n + k ≤ MaxPID)
    (hfree : ∀ pid, n < pid → pid ≤ n + k → pid ∉ K) : ∃ calls, Stands K (n + k) (after pidStep s calls) := by
  induction k with
  | zero => exact ⟨[], h⟩
  | succ k ih =>
    obtain ⟨calls, hs⟩ := ih (by omega) fun pid hpid hle => hfree pid hpid (by omega)
    have hbefore : (after pidStep s calls).lastBefore = n + k := by
      unfold lastBefore
      rw [hs.last, if_neg (by omega)]
    have hnext := hs.churn hK (by rw [hbefore]; exact hfree _ (by omega) (by omega))
    rw [← after_append, hbefore] at hnext
    exact ⟨_, hnext⟩

/-- One process keeps the greatest PID, and the others come and go until the search gets there once more: it finds
the number behind. -/
theorem pids_run_out :
    ∃ calls, ¬ Always pidStep (fun s => ¬ s.Full → FindsFresh s) (start .sample fun _ => 0) calls := by
  have hmax : MaxPID = 2147483647 := rfl
  have hempty : (∅ : Finset ℕ).card < 2 := by decide
  have hsingle : ({MaxPID} : Finset ℕ).card < 2 := by
    rw [Finset.card_singleton]
    exact Nat.one_lt_two
  have hother : ∀ pid, pid < MaxPID → pid ∉ ({MaxPID} : Finset ℕ) := fun pid hpid =>
    Finset.notMem_singleton.mpr (Nat.ne_of_lt hpid)
  have hstart : Stands ∅ 1 (start .sample fun _ => 0) := ⟨Finmap.keys_empty, rfl⟩
  obtain ⟨c₁, h₁⟩ := hstart.churn_many hempty (MaxPID - 2) (by omega) fun pid _ _ => Finset.notMem_empty pid
  -- The PID that is kept.
  have hbefore₁ : (after pidStep (start .sample fun _ => 0) c₁).lastBefore + 1 = MaxPID := by
    unfold lastBefore
    rw [h₁.last, if_neg (by omega)]
    omega
  have h₂ := h₁.make hempty (Finset.notMem_empty _)
  rw [hbefore₁] at h₂
  -- The search begins again.
  have hbefore₂ : (pidStep (after pidStep (start .sample fun _ => 0) c₁) .makeProcess).lastBefore + 1 = 2 := by
    unfold lastBefore
    rw [h₂.last, if_pos le_rfl]
  have h₃ := h₂.churn hsingle (by rw [hbefore₂]; exact hother 2 (by omega))
  rw [hbefore₂] at h₃
  obtain ⟨c₂, h₄⟩ := h₃.churn_many hsingle (MaxPID - 3) (by omega) fun pid _ hpid => hother pid (by omega)
  refine ⟨c₁ ++ (.makeProcess :: [.makeProcess, .remove 2] ++ c₂), fun h => ?_⟩
  have hlast := h.after
  rw [after_append, after_append, after_cons] at hlast
  have hfull := h₄.not_full hsingle
  obtain ⟨pid, habove, hbelow, hfree⟩ := (findsFresh_iff hfull).mp (hlast hfull)
  rw [lastBefore, h₄.last, if_neg (by omega)] at habove
  obtain rfl : pid = MaxPID := by omega
  exact hfree ((h₄.mem_iff MaxPID).mpr (Finset.mem_singleton_self MaxPID))

end Sample

end Thorn.Kernel
