import Thorn.Library.Runs
import Thorn.PageFrames
import Mathlib.Data.Finmap

set_option autoImplicit false

/-!
# Processes and their frames

`Process.cpp`, and what `Kernel.cpp` does to make a process: the table of
processes, the owners of page frames, and the pager they take frames from. A call
that halts the kernel is `none`.
-/
namespace Thorn
open Runs Paging ByteStore

/-- `std::numeric_limits<PID>::max() / 2`. -/
def MaxPID : ℕ := (2 ^ 32 - 1) / 2

structure Process where
  pid : ℕ
  /-- The address of the PML4 that the wrapper is for. -/
  pageTable : Option ℕ

abbrev ProcessMap := Finmap fun _ : ℕ => Process

def Process.zero : Process := { pid := 0, pageTable := none }

structure Kernel where
  pager : PageMeta4K
  bitmap : Store
  processes : ProcessMap
  pageFrameProcesses : Finmap fun _ : ℕ => ℕ
  lastPID : ℕ

namespace Kernel

/-- The memory behind the kernel as the pager knows it: `pages` is an `int`, and
the frames have addresses. -/
structure Memory where
  layout : Layout
  pages : ℕ
  int : pages < 2 ^ 31
  fit : layout.kernelEnd + 4096 * pages ≤ 2 ^ 64

def Memory.pager (M : Memory) : PageMeta4K := M.layout.pager M.pages

def start (M : Memory) (bitmap : Store) : Kernel :=
  { pager := M.pager, bitmap := bitmap, processes := ∅, pageFrameProcesses := ∅, lastPID := 1 }

def nextKey (procs : ProcessMap) (pid : ℕ) : Option ℕ := ((procs.keys.filter (pid < ·)).sort (· ≤ ·)).head?

def nextPIDLoop (procs : ProcessMap) : ℕ → ℕ → Option ℕ
  | 0, _ => none
  | n + 1, candidate =>
    if candidate ∉ procs then some candidate
    else match nextKey procs candidate with
      | none => some ((candidate + 1) % 2 ^ 32)
      | some next =>
        let candidate := (candidate + 1) % 2 ^ 32
        if candidate < next then some candidate else nextPIDLoop procs n candidate

/-- The number of processes at which `nextPID` perishes. -/
def Full (s : Kernel) : Prop := MaxPID - 5 ≤ s.processes.keys.card

instance (s : Kernel) : Decidable s.Full := inferInstanceAs (Decidable (_ ≤ _))

def nextPID (s : Kernel) : Option (ℕ × Kernel) :=
  let lastPID := if MaxPID ≤ s.lastPID then 1 else s.lastPID
  if s.Full then none
  else (nextPIDLoop s.processes (s.processes.keys.card + 1) ((lastPID + 1) % 2 ^ 32)).map fun pid =>
    (pid, { s with lastPID := pid })

def allocateFreePhysicalAddress (s : Kernel) : ℕ × Kernel :=
  let (address, bitmap) := s.pager.allocateFreePhysicalAddress s.bitmap
  (address, { s with bitmap := bitmap })

def allocateFreePhysicalFrame (s : Kernel) : ℕ × Kernel :=
  let (address, s) := s.allocateFreePhysicalAddress
  (address / 4096, s)

def init (s : Kernel) (key : ℕ) (process : Process) : Kernel :=
  let (pml4, s) := s.allocateFreePhysicalAddress
  { s with processes := s.processes.insert key { process with pageTable := some pml4 } }

def makeProcess (s : Kernel) : Option Kernel := do
  let (pid, s) ← s.nextPID
  guard (pid ∉ s.processes)
  let s := { s with processes := s.processes.insert pid Process.zero }
  return s.init pid Process.zero

def allocatePage (s : Kernel) (process : Process) : Kernel :=
  let (pfn, s) := s.allocateFreePhysicalFrame
  { s with pageFrameProcesses := s.pageFrameProcesses.insert pfn process.pid }

inductive Call
  | makeProcess
  /-- By the process of a key. -/
  | allocatePage (key : ℕ)

/-- A call that halts leaves everything as it is. -/
def step (s : Kernel) : Call → Kernel
  | .makeProcess => s.makeProcess.getD s
  | .allocatePage key => match s.processes.lookup key with
    | some process => s.allocatePage process
    | none => s

def Legal (s : Kernel) (c : Call) : Prop := ∀ key, c = .allocatePage key → key ∈ s.processes

def FrameFree (s : Kernel) : Prop := s.pager.findFree s.bitmap 0 ≠ -1

def PidsMatch (s : Kernel) : Prop := ∀ key process, s.processes.lookup key = some process → process.pid = key

/-- The PML4 frames and the recorded frames are distinct, and none is frame 0. -/
structure FramesApart (s : Kernel) : Prop where
  pml4 : ∀ key process, s.processes.lookup key = some process →
    ∃ a, process.pageTable = some a ∧ a / 4096 ≠ 0 ∧ a / 4096 ∉ s.pageFrameProcesses
  pml4_inj : ∀ i j p q a b, s.processes.lookup i = some p → s.processes.lookup j = some q →
    p.pageTable = some a → q.pageTable = some b → a / 4096 = b / 4096 → i = j
  recorded : 0 ∉ s.pageFrameProcesses

/-- A page that a process gets is recorded as its own, and a call that finds no
frame changes no entry and no owner there is. -/
structure KeepsOwners (s : Kernel) (c : Call) : Prop where
  obtained : s.FrameFree → ∀ key process, c = .allocatePage key → s.processes.lookup key = some process →
    ∃ pfn, pfn ∉ s.pageFrameProcesses ∧
      (s.step c).pageFrameProcesses = s.pageFrameProcesses.insert pfn process.pid
  exhausted : ¬ s.FrameFree →
    (∀ key process, s.processes.lookup key = some process → (s.step c).processes.lookup key = some process) ∧
    ∀ pfn owner, s.pageFrameProcesses.lookup pfn = some owner →
      (s.step c).pageFrameProcesses.lookup pfn = some owner

/-- The call finds a frame, or halts before it looks for one. -/
def FindsFrame (s : Kernel) (c : Call) : Prop := s.FrameFree ∨ c = .makeProcess ∧ s.Full

section Frames
variable {M : Memory} {s : Kernel}

def Used (M : Memory) (s : Kernel) (frame : ℕ) : Prop :=
  ∃ k, frame = M.layout.kernelEnd / 4096 + k ∧ bitAt s.bitmap k = true

theorem findFree_full {start pages : ℕ} (hpages : pages < 2 ^ 31) {m : Store}
    (hfull : ∀ k, 0 ≤ k → k < 64 * (pages / 64) → bitAt m k = true) :
    PageMeta4K.findFree ⟨start, pages⟩ m 0 = -1 := by
  have hcount : PageMeta4K.pageCount ⟨start, pages⟩ = pages := by
    change (((pages : ℕ) : ℤ) % (2 ^ 64 : ℕ)).toNat = pages
    omega
  have hset : ((pages : ℕ) : ℤ) ≠ -1 := by omega
  unfold PageMeta4K.findFree
  rw [hcount]
  refine (if_neg hset).trans ?_
  cases hscan : scanWords 8 m (pages / (8 * 8) - 0) 0 with
  | none => rfl
  | some k =>
    obtain ⟨-, hlt, hclear⟩ := scanWords_eq_some hscan
    rw [hfull k (Nat.zero_le k) (by omega)] at hclear
    cases hclear

theorem allocate_cases (hpager : s.pager = M.pager) :
    ¬ s.FrameFree ∧ s.pager.allocateFreePhysicalAddress s.bitmap = (0, s.bitmap) ∨
    s.FrameFree ∧ ∃ a m, s.pager.allocateFreePhysicalAddress s.bitmap = (a, m) ∧
      a / 4096 ≠ 0 ∧ ¬ Used M s (a / 4096) ∧ Used M { s with bitmap := m } (a / 4096) ∧
      ∀ frame, Used M s frame → Used M { s with bitmap := m } frame := by
  have habove := M.layout.above
  have haligned := M.layout.aligned
  unfold FrameFree
  by_cases hfree : s.pager.findFree s.bitmap 0 = -1
  · exact .inl ⟨not_not.mpr hfree, if_pos hfree⟩
  · refine .inr ⟨hfree, ?_⟩
    obtain ⟨-, hfull⟩ | ⟨k, -, -, hclear, haddress, hbits⟩ :=
      kernel_allocates M.layout.kernelEnd M.pages M.fit M.int s.bitmap
    · exfalso
      apply hfree
      rw [hpager]
      exact findFree_full M.int hfull
    · have hframe : (M.layout.kernelEnd + 4096 * k) / 4096 = M.layout.kernelEnd / 4096 + k := by omega
      have hpager' : s.pager.allocateFreePhysicalAddress s.bitmap =
          PageMeta4K.allocateFreePhysicalAddress ⟨M.layout.kernelEnd, M.pages⟩ s.bitmap := by rw [hpager]; rfl
      refine ⟨_, _, hpager'.trans (Prod.ext haddress rfl), by omega, ?_, ?_, ?_⟩
      · rintro ⟨j, hj, hset⟩
        obtain rfl : j = k := by omega
        rw [hclear] at hset
        cases hset
      · refine ⟨k, hframe, ?_⟩
        rw [hbits, decide_eq_true rfl, Bool.true_or]
      · rintro frame ⟨j, hj, hset⟩
        refine ⟨j, hj, ?_⟩
        rw [hbits, hset, Bool.or_true]

structure Accounted (M : Memory) (s : Kernel) : Prop where
  pager_eq : s.pager = M.pager
  lastPID_eq : s.lastPID = s.processes.keys.card + 1
  bounded : s.processes.keys.card ≤ MaxPID - 5
  keys : ∀ key ∈ s.processes, 2 ≤ key ∧ key ≤ s.lastPID
  pid : ∀ key process, s.processes.lookup key = some process → process.pid = 0
  pml4 : ∀ key process, s.processes.lookup key = some process →
    ∃ a, process.pageTable = some a ∧ (a / 4096 = 0 ∨ Used M s (a / 4096))
  owner : ∀ pfn owner, s.pageFrameProcesses.lookup pfn = some owner → owner = 0
  frames : ∀ pfn ∈ s.pageFrameProcesses, pfn = 0 ∨ Used M s pfn

theorem start_accounted (bitmap : Store) : Accounted M (start M bitmap) where
  pager_eq := rfl
  lastPID_eq := rfl
  bounded := Nat.zero_le _
  keys := fun _ h => absurd h Finmap.notMem_empty
  pid := by
    intro key process h
    cases h.symm.trans (Finmap.lookup_empty key)
  pml4 := by
    intro key process h
    cases h.symm.trans (Finmap.lookup_empty key)
  owner := by
    intro pfn owner h
    cases h.symm.trans (Finmap.lookup_empty pfn)
  frames := fun _ h => absurd h Finmap.notMem_empty

theorem start_framesApart (bitmap : Store) : FramesApart (start M bitmap) where
  pml4 := by
    intro key process h
    cases h.symm.trans (Finmap.lookup_empty key)
  pml4_inj := by
    intro i j p q a b h
    cases h.symm.trans (Finmap.lookup_empty i)
  recorded := Finmap.notMem_empty

theorem Accounted.nextPID (h : Accounted M s) (hfull : ¬ s.Full) :
    s.nextPID = some (s.lastPID + 1, { s with lastPID := s.lastPID + 1 }) ∧ s.lastPID + 1 ∉ s.processes := by
  have hlast := h.lastPID_eq
  have hlt : s.processes.keys.card < MaxPID - 5 := Nat.lt_of_not_le hfull
  have hmax : MaxPID = 2147483647 := rfl
  have habsent : s.lastPID + 1 ∉ s.processes := fun hc => by
    have := (h.keys _ hc).2
    omega
  refine ⟨?_, habsent⟩
  unfold Kernel.nextPID
  dsimp only
  rw [if_neg hfull, if_neg (show ¬ MaxPID ≤ s.lastPID by omega), Nat.mod_eq_of_lt (by omega), nextPIDLoop,
    if_pos habsent, Option.map_some]

theorem makeProcess_eq {pid : ℕ} (hrun : s.nextPID = some (pid, { s with lastPID := pid }))
    (hnew : pid ∉ s.processes) :
    s.makeProcess = some
      { s with
        bitmap := (s.pager.allocateFreePhysicalAddress s.bitmap).2
        lastPID := pid
        processes := s.processes.insert pid ⟨0, some (s.pager.allocateFreePhysicalAddress s.bitmap).1⟩ } := by
  unfold makeProcess init allocateFreePhysicalAddress Process.zero
  rw [hrun]
  simp only [Option.bind_eq_bind, Option.bind_some, guard, if_pos hnew, Finmap.insert_insert]
  rfl

theorem Accounted.step_makeProcess (h : Accounted M s) (hfull : ¬ s.Full) :
    s.step .makeProcess =
      { s with
        bitmap := (s.pager.allocateFreePhysicalAddress s.bitmap).2
        lastPID := s.lastPID + 1
        processes := s.processes.insert (s.lastPID + 1)
          ⟨0, some (s.pager.allocateFreePhysicalAddress s.bitmap).1⟩ } := by
  obtain ⟨hnext, habsent⟩ := h.nextPID hfull
  change s.makeProcess.getD s = _
  rw [makeProcess_eq hnext habsent, Option.getD_some]

theorem step_makeProcess_full (hfull : s.Full) : s.step .makeProcess = s := by
  unfold step makeProcess Kernel.nextPID
  dsimp only
  rw [if_pos hfull]
  rfl

theorem step_allocatePage {key : ℕ} {process : Process} (hl : s.processes.lookup key = some process) :
    s.step (.allocatePage key) =
      { s with
        bitmap := (s.pager.allocateFreePhysicalAddress s.bitmap).2
        pageFrameProcesses := s.pageFrameProcesses.insert
          ((s.pager.allocateFreePhysicalAddress s.bitmap).1 / 4096) process.pid } := by
  unfold step
  dsimp only
  rw [hl]
  rfl

theorem Used.lookup_ne (h : Accounted M s) {frame : ℕ} (hfree : ¬ Used M s frame) (hne : frame ≠ 0) {key : ℕ}
    {process : Process} {b : ℕ} (hl : s.processes.lookup key = some process) (hb : process.pageTable = some b) :
    b / 4096 ≠ frame := by
  obtain ⟨a, ha, hcases⟩ := h.pml4 key process hl
  rw [hb] at ha
  cases ha
  rintro rfl
  rcases hcases with h0 | hused
  · exact hne h0
  · exact hfree hused

theorem Used.notMem (h : Accounted M s) {frame : ℕ} (hfree : ¬ Used M s frame) (hne : frame ≠ 0) :
    frame ∉ s.pageFrameProcesses := by
  intro hmem
  rcases h.frames frame hmem with h0 | hused
  · exact hne h0
  · exact hfree hused

def made (s : Kernel) (a : ℕ) (m : Store) : Kernel :=
  { s with bitmap := m, lastPID := s.lastPID + 1, processes := s.processes.insert (s.lastPID + 1) ⟨0, some a⟩ }

def recorded (s : Kernel) (a : ℕ) (m : Store) : Kernel :=
  { s with bitmap := m, pageFrameProcesses := s.pageFrameProcesses.insert (a / 4096) 0 }

theorem Accounted.step_make (h : Accounted M s) (hfull : ¬ s.Full) {a : ℕ} {m : Store}
    (halloc : s.pager.allocateFreePhysicalAddress s.bitmap = (a, m)) : s.step .makeProcess = s.made a m := by
  rw [h.step_makeProcess hfull, halloc]
  rfl

theorem Accounted.step_record (h : Accounted M s) {key : ℕ} {process : Process}
    (hl : s.processes.lookup key = some process) {a : ℕ} {m : Store}
    (halloc : s.pager.allocateFreePhysicalAddress s.bitmap = (a, m)) :
    s.step (.allocatePage key) = s.recorded a m := by
  rw [step_allocatePage hl, halloc, h.pid key process hl]
  rfl

theorem Accounted.made (h : Accounted M s) (hfull : ¬ s.Full) {a : ℕ} {m : Store}
    (hmono : ∀ frame, Used M s frame → Used M { s with bitmap := m } frame)
    (ha : a / 4096 = 0 ∨ Used M { s with bitmap := m } (a / 4096)) : Accounted M (s.made a m) := by
  obtain ⟨-, habsent⟩ := h.nextPID hfull
  have hcard : (s.made a m).processes.keys.card = s.processes.keys.card + 1 := by
    have hkeys : (s.made a m).processes.keys = insert (s.lastPID + 1) s.processes.keys := by
      ext key
      rw [Finmap.mem_keys, Finset.mem_insert, Finmap.mem_keys]
      exact Finmap.mem_insert
    rw [hkeys, Finset.card_insert_of_notMem (by rwa [Finmap.mem_keys])]
  have hlookup : ∀ key process, (s.made a m).processes.lookup key = some process →
      key = s.lastPID + 1 ∧ process = ⟨0, some a⟩ ∨ s.processes.lookup key = some process := by
    intro key process hl
    change (s.processes.insert (s.lastPID + 1) ⟨0, some a⟩).lookup key = some process at hl
    by_cases hkey : key = s.lastPID + 1
    · subst hkey
      rw [Finmap.lookup_insert] at hl
      exact .inl ⟨rfl, (Option.some.inj hl).symm⟩
    · rw [Finmap.lookup_insert_of_ne _ hkey] at hl
      exact .inr hl
  have hlast := h.lastPID_eq
  have hlt : s.processes.keys.card < MaxPID - 5 := Nat.lt_of_not_le hfull
  constructor
  · exact h.pager_eq
  · rw [hcard]
    exact congrArg (· + 1) hlast
  · rw [hcard]
    exact hlt
  · intro key hkey
    change 2 ≤ key ∧ key ≤ s.lastPID + 1
    rcases Finmap.mem_insert.mp hkey with rfl | hkey
    · omega
    · have := h.keys key hkey
      omega
  · intro key process hl
    rcases hlookup key process hl with ⟨-, rfl⟩ | hl
    · rfl
    · exact h.pid key process hl
  · intro key process hl
    rcases hlookup key process hl with ⟨-, rfl⟩ | hl
    · exact ⟨a, rfl, ha⟩
    · obtain ⟨b, hb, hcases⟩ := h.pml4 key process hl
      exact ⟨b, hb, hcases.imp_right (hmono _)⟩
  · exact h.owner
  · intro pfn hpfn
    exact (h.frames pfn hpfn).imp_right (hmono _)

theorem Accounted.recorded (h : Accounted M s) {a : ℕ} {m : Store}
    (hmono : ∀ frame, Used M s frame → Used M { s with bitmap := m } frame)
    (ha : a / 4096 = 0 ∨ Used M { s with bitmap := m } (a / 4096)) : Accounted M (s.recorded a m) where
  pager_eq := h.pager_eq
  lastPID_eq := h.lastPID_eq
  bounded := h.bounded
  keys := h.keys
  pid := h.pid
  pml4 := by
    intro key process hl
    obtain ⟨b, hb, hcases⟩ := h.pml4 key process hl
    exact ⟨b, hb, hcases.imp_right (hmono _)⟩
  owner := by
    intro pfn owner hl
    change (s.pageFrameProcesses.insert (a / 4096) 0).lookup pfn = some owner at hl
    by_cases hpfn : pfn = a / 4096
    · subst hpfn
      rw [Finmap.lookup_insert] at hl
      exact (Option.some.inj hl).symm
    · rw [Finmap.lookup_insert_of_ne _ hpfn] at hl
      exact h.owner pfn owner hl
  frames := by
    intro pfn hpfn
    rcases Finmap.mem_insert.mp hpfn with rfl | hpfn
    · exact ha
    · exact (h.frames pfn hpfn).imp_right (hmono _)

theorem FramesApart.made (h : FramesApart s) {a : ℕ} {m : Store} (hne : a / 4096 ≠ 0)
    (hnew : a / 4096 ∉ s.pageFrameProcesses)
    (hother : ∀ key process b, s.processes.lookup key = some process →
      process.pageTable = some b → b / 4096 ≠ a / 4096) : FramesApart (s.made a m) := by
  have hlookup : ∀ key process b, (s.made a m).processes.lookup key = some process → process.pageTable =
      some b → key = s.lastPID + 1 ∧ b = a ∨ key ≠ s.lastPID + 1 ∧ s.processes.lookup key = some process := by
    intro key process b hl hb
    change (s.processes.insert (s.lastPID + 1) ⟨0, some a⟩).lookup key = some process at hl
    by_cases hkey : key = s.lastPID + 1
    · subst hkey
      rw [Finmap.lookup_insert] at hl
      cases hl
      exact .inl ⟨rfl, (Option.some.inj hb).symm⟩
    · rw [Finmap.lookup_insert_of_ne _ hkey] at hl
      exact .inr ⟨hkey, hl⟩
  constructor
  · intro key process hl
    by_cases hkey : key = s.lastPID + 1
    · subst hkey
      change (s.processes.insert (s.lastPID + 1) ⟨0, some a⟩).lookup _ = some process at hl
      rw [Finmap.lookup_insert] at hl
      cases hl
      exact ⟨a, rfl, hne, hnew⟩
    · change (s.processes.insert (s.lastPID + 1) ⟨0, some a⟩).lookup _ = some process at hl
      rw [Finmap.lookup_insert_of_ne _ hkey] at hl
      exact h.pml4 key process hl
  · intro i j p q b c hi hj hb hc heq
    rcases hlookup i p b hi hb with ⟨hi', hba⟩ | ⟨-, hi'⟩ <;> rcases hlookup j q c hj hc with ⟨hj', hca⟩ |
      ⟨-, hj'⟩
    · exact hi'.trans hj'.symm
    · exact absurd (heq.symm.trans (congrArg (· / 4096) hba)) (hother j q c hj' hc)
    · exact absurd (heq.trans (congrArg (· / 4096) hca)) (hother i p b hi' hb)
    · exact h.pml4_inj i j p q b c hi' hj' hb hc heq
  · exact h.recorded

theorem FramesApart.record (h : FramesApart s) {a : ℕ} {m : Store} (hne : a / 4096 ≠ 0)
    (hother : ∀ key process b, s.processes.lookup key = some process →
      process.pageTable = some b → b / 4096 ≠ a / 4096) : FramesApart (s.recorded a m) where
  pml4 := by
    intro key process hl
    obtain ⟨b, hb, hb0, hnot⟩ := h.pml4 key process hl
    refine ⟨b, hb, hb0, fun hmem => ?_⟩
    rcases Finmap.mem_insert.mp hmem with heq | hmem
    · exact hother key process b hl hb heq
    · exact hnot hmem
  pml4_inj := h.pml4_inj
  recorded := by
    intro hmem
    rcases Finmap.mem_insert.mp hmem with heq | hmem
    · exact hne heq.symm
    · exact h.recorded hmem

theorem made_zero (m : Store) : ¬ FramesApart (s.made 0 m) := by
  intro h
  obtain ⟨a, ha, hne, -⟩ := h.pml4 (s.lastPID + 1) ⟨0, some 0⟩ (Finmap.lookup_insert _)
  cases ha
  exact hne rfl

theorem recorded_zero (m : Store) : ¬ FramesApart (s.recorded 0 m) :=
  fun h => h.recorded (Finmap.mem_insert.mpr (.inl rfl))

structure Outcome (M : Memory) (s : Kernel) (c : Call) : Prop where
  accounted : Accounted M (s.step c)
  keeps : KeepsOwners s c
  apart : FramesApart s → (FramesApart (s.step c) ↔ FindsFrame s c)

theorem Accounted.outcome_makeProcess (h : Accounted M s) : Outcome M s .makeProcess := by
  by_cases hfull : s.Full
  · have hsame : s.step .makeProcess = s := step_makeProcess_full hfull
    refine ⟨?_, ⟨fun _ key process hc => (by cases hc), fun _ => ?_⟩, fun ha => ?_⟩
    · rw [hsame]
      exact h
    · rw [hsame]
      exact ⟨fun _ _ hl => hl, fun _ _ hl => hl⟩
    · rw [hsame]
      exact iff_of_true ha (.inr ⟨rfl, hfull⟩)
  · have hnew : ∀ a m key process,
        s.processes.lookup key = some process → (s.made a m).processes.lookup key = some process := by
      intro a m key process hl
      have hkey : key ≠ s.lastPID + 1 := by
        rintro rfl
        exact (h.nextPID hfull).2 (Finmap.mem_of_lookup_eq_some hl)
      exact (Finmap.lookup_insert_of_ne _ hkey).trans hl
    obtain ⟨hno, halloc⟩ | ⟨hfree, a, m, halloc, hne, hunused, hused, hmono⟩ := allocate_cases h.pager_eq
    · have hstep := h.step_make hfull halloc
      refine ⟨?_, ⟨fun hc => absurd hc hno, fun _ => ?_⟩, fun _ => ?_⟩
      · rw [hstep]
        exact h.made hfull (fun _ hu => hu) (.inl rfl)
      · rw [hstep]
        exact ⟨hnew 0 _, fun _ _ hl => hl⟩
      · rw [hstep]
        refine iff_of_false (made_zero _) ?_
        rintro (hc | ⟨-, hc⟩)
        · exact hno hc
        · exact hfull hc
    · have hstep := h.step_make hfull halloc
      refine ⟨?_, ⟨fun _ key process hc => (by cases hc), fun hc => absurd hfree hc⟩, fun ha => ?_⟩
      · rw [hstep]
        exact h.made hfull hmono (.inr hused)
      · rw [hstep]
        exact iff_of_true (ha.made hne (Used.notMem h hunused hne) fun _ _ _ => Used.lookup_ne h hunused hne)
          (.inl hfree)

theorem Accounted.outcome_allocatePage (h : Accounted M s) {key : ℕ} (hkey : key ∈ s.processes) :
    Outcome M s (.allocatePage key) := by
  obtain ⟨process, hl⟩ := Finmap.mem_iff.mp hkey
  obtain ⟨hno, halloc⟩ | ⟨hfree, a, m, halloc, hne, hunused, hused, hmono⟩ := allocate_cases h.pager_eq
  · have hstep := h.step_record hl halloc
    refine ⟨?_, ⟨fun hc => absurd hc hno, fun _ => ?_⟩, fun _ => ?_⟩
    · rw [hstep]
      exact h.recorded (fun _ hu => hu) (.inl rfl)
    · rw [hstep]
      refine ⟨fun _ _ hp => hp, fun pfn owner hpfn => ?_⟩
      change (s.pageFrameProcesses.insert 0 0).lookup pfn = some owner
      -- The owner of frame 0 is overwritten, with the PID that every process has.
      by_cases h0 : pfn = 0
      · rw [h0, Finmap.lookup_insert, h.owner pfn owner hpfn]
      · rw [Finmap.lookup_insert_of_ne _ h0, hpfn]
    · rw [hstep]
      refine iff_of_false (recorded_zero _) ?_
      rintro (hc | ⟨hc, -⟩)
      · exact hno hc
      · cases hc
  · have hstep := h.step_record hl halloc
    have hnew := Used.notMem h hunused hne
    refine ⟨?_, ⟨fun _ key' process' hc hl' => ?_, fun hc => absurd hfree hc⟩, fun ha => ?_⟩
    · rw [hstep]
      exact h.recorded hmono (.inr hused)
    · cases hc
      refine ⟨a / 4096, hnew, ?_⟩
      rw [hstep, h.pid key process' hl']
      rfl
    · rw [hstep]
      exact iff_of_true (ha.record hne fun _ _ _ => Used.lookup_ne h hunused hne) (.inl hfree)

theorem Accounted.outcome (h : Accounted M s) (c : Call) (hlegal : Legal s c) : Outcome M s c := by
  cases c with
  | makeProcess => exact h.outcome_makeProcess
  | allocatePage key => exact h.outcome_allocatePage (hlegal key rfl)

theorem start_not_full (bitmap : Store) : ¬ (start M bitmap).Full := by
  change ¬ MaxPID - 5 ≤ 0
  decide

theorem first_pid (bitmap : Store) : ¬ PidsMatch ((start M bitmap).step .makeProcess) := by
  intro h
  rw [(start_accounted bitmap).step_makeProcess (start_not_full bitmap)] at h
  cases h 2 _ (Finmap.lookup_insert _)

/-- Once there is a process the PIDs do not match. Its frames stay apart just as long
as every call finds one, and in any run frames are recorded for their callers and
a call that finds none changes nothing recorded. -/
theorem owners_iff (M : Memory) (bitmap : Store) (calls : List Call)
    (legal : Throughout step Legal (start M bitmap) calls) :
    (Always step (fun s => PidsMatch s ∧ FramesApart s) (start M bitmap) calls ∧
      Throughout step KeepsOwners (start M bitmap) calls ↔ calls = []) ∧
    (Always step FramesApart (start M bitmap) calls ↔ Throughout step FindsFrame (start M bitmap) calls) ∧
    Throughout step KeepsOwners (start M bitmap) calls := by
  have haccounted : Always step (Accounted M) (start M bitmap) calls :=
    always_of_throughout (C := fun _ _ => True) (start_accounted bitmap) (fun s c h hl _ => (h.outcome c hl).accounted)
      legal throughout_true
  have hkeeps : Throughout step KeepsOwners (start M bitmap) calls :=
    haccounted.throughout legal fun s c h hl => (h.outcome c hl).keeps
  refine ⟨?_, ?_, hkeeps⟩
  · rw [and_iff_left hkeeps]
    constructor
    · intro h
      cases calls with
      | nil => rfl
      | cons c calls =>
        cases c with
        | makeProcess =>
          have hfirst := (always_cons.mp h).2 [] List.nil_prefix
          exact absurd hfirst.1 (first_pid bitmap)
        | allocatePage key => exact absurd ((throughout_cons.mp legal).1 key rfl) Finmap.notMem_empty
    · rintro rfl
      refine always_nil.mpr ⟨fun key process hl => ?_, start_framesApart bitmap⟩
      cases hl.symm.trans (Finmap.lookup_empty key)
  · rw [always_iff_throughout, and_iff_right (start_framesApart bitmap)]
    exact throughout_iff (I := fun s => Accounted M s ∧ FramesApart s)
      ⟨start_accounted bitmap, start_framesApart bitmap⟩
      (fun s c h hl hc => ⟨(h.1.outcome c hl).accounted, ((h.1.outcome c hl).apart h.2).mpr hc⟩)
      (fun s c h hl => (h.1.outcome c hl).apart h.2) legal

def Memory.sample : Memory where
  layout := .sample
  pages := 2 ^ 14
  int := by decide
  fit := by decide

/-- A process and two of its pages. -/
theorem owners_two_pages :
    (Always step (fun s => PidsMatch s ∧ FramesApart s) (start .sample fun _ => 0)
        [.makeProcess, .allocatePage 2, .allocatePage 2] ∧
      Throughout step KeepsOwners (start .sample fun _ => 0) [.makeProcess, .allocatePage 2, .allocatePage 2] ↔
        ([.makeProcess, .allocatePage 2, .allocatePage 2] : List Call) = []) ∧
    (Always step FramesApart (start .sample fun _ => 0) [.makeProcess, .allocatePage 2, .allocatePage 2] ↔
      Throughout step FindsFrame (start .sample fun _ => 0) [.makeProcess, .allocatePage 2, .allocatePage 2]) ∧
    Throughout step KeepsOwners (start .sample fun _ => 0) [.makeProcess, .allocatePage 2, .allocatePage 2] := by
  refine owners_iff .sample _ _ ?_
  have hmade : 2 ∈ ((start .sample fun _ => 0).step .makeProcess).processes := by
    rw [(start_accounted _).step_makeProcess (start_not_full _)]
    exact Finmap.mem_insert.mpr (.inl rfl)
  obtain ⟨process, hl⟩ := Finmap.mem_iff.mp hmade
  have hagain : 2 ∈ (((start .sample fun _ => 0).step .makeProcess).step (.allocatePage 2)).processes := by
    rw [step_allocatePage hl]
    exact hmade
  simp only [throughout_cons, throughout_nil, and_true]
  refine ⟨by rintro _ ⟨⟩, ?_, ?_⟩
  · rintro _ ⟨⟩
    exact hmade
  · rintro _ ⟨⟩
    exact hagain

/-- The first process has PID 0 under key 2; and with no frame left its PML4 is in frame 0. -/
theorem process_without_pid :
    ¬ Always step (fun s => PidsMatch s ∧ FramesApart s) (start .sample fun _ => 0) [.makeProcess] ∧
    ¬ Always step FramesApart (start { Memory.sample with pages := 0, int := by decide, fit := by decide } fun _ => 0)
        [.makeProcess] := by
  constructor
  · intro h
    exact first_pid _ h.after.1
  · intro h
    have hlast := h.after
    rw [after_cons, after_nil, (start_accounted _).step_makeProcess (start_not_full _)] at hlast
    exact made_zero _ hlast

end Frames

end Kernel
end Thorn
