import Thorn.FatFlat

set_option autoImplicit false

namespace Thorn.FatOperations
open ByteStore Paths FatTypes FatDriver

structure Accepted (length block_size : ℕ) : Prop where
  enough : MINBLOCKS ≤ length / block_size
  entries : block_size % sizeofDirEntry = 0
  two : 2 * sizeofDirEntry ≤ block_size
  superblock : sizeofSuperblock ≤ block_size
  table : tableSize (length / block_size) block_size < 2 ^ 32 - 1

def geometry (length block_size : ℕ) : Superblock :=
  ⟨MAGIC, length / block_size, tableSize (length / block_size) block_size, block_size,
    toInt32 (tableSize (length / block_size) block_size + 1)⟩

theorem Accepted.room {length block_size : ℕ} (h : Accepted length block_size) :
    tableSize (length / block_size) block_size + 1 < length / block_size := by
  have henough := h.enough
  have htwo := h.two
  simp only [MINBLOCKS] at henough
  simp only [sizeofDirEntry] at htwo
  have hper : 160 ≤ block_size / 4 := by omega
  generalize length / block_size = count at *
  unfold tableSize updiv
  split_ifs with hsmall hrem
  · omega
  · have := Nat.div_le_div_left hper (a := count) (by omega)
    omega
  · have := Nat.div_le_div_left hper (a := count) (by omega)
    omega

section Keeps
variable {σ α β : Type}

/-- The action ends, and leaves the superblock alone. -/
def KeepsSuper (x : Action σ α) : Prop :=
  ∀ d, ∃ a d', x d = some (a, d') ∧ d'.superblock = d.superblock

theorem keepsSuper_pure (a : α) : KeepsSuper (pure a : Action σ α) := fun d => ⟨a, d, rfl, rfl⟩

theorem keepsSuper_bind {x : Action σ α} {f : α → Action σ β} (hx : KeepsSuper x) (hf : ∀ a, KeepsSuper (f a)) :
    KeepsSuper (x >>= f) := by
  intro d
  obtain ⟨a, d₁, h₁, hs₁⟩ := hx d
  obtain ⟨b, d₂, h₂, hs₂⟩ := hf a d₁
  refine ⟨b, d₂, ?_, hs₂.trans hs₁⟩
  rw [run_bind, h₁, Option.bind_some, h₂]

theorem keepsSuper_ite {c : Prop} [Decidable c] {x y : Action σ α} (hx : KeepsSuper x) (hy : KeepsSuper y) :
    KeepsSuper (if c then x else y) := by
  split_ifs
  · exact hx
  · exact hy

theorem keepsSuper_get : KeepsSuper (get : Action σ (Driver σ)) := fun d => ⟨d, d, rfl, rfl⟩

theorem keepsSuper_modify {f : Driver σ → Driver σ} (hf : ∀ d, (f d).superblock = d.superblock) :
    KeepsSuper (modify f : Action σ PUnit) := fun d => ⟨⟨⟩, f d, rfl, hf d⟩

variable [StorageDevice σ]

theorem keepsSuper_partitionWrite (buffer : List UInt8) (offset : ℕ) :
    KeepsSuper (partitionWrite buffer offset : Action σ ℤ) := fun _ => ⟨_, _, rfl, rfl⟩

theorem keepsSuper_writeRecord (bytes : List UInt8) : KeepsSuper (writeRecord bytes : Action σ ℤ) :=
  keepsSuper_bind keepsSuper_get fun _ => keepsSuper_bind (keepsSuper_partitionWrite _ _) fun _ =>
    keepsSuper_ite (keepsSuper_pure _) (keepsSuper_bind (keepsSuper_modify fun _ => rfl) fun _ => keepsSuper_pure _)

theorem keepsSuper_writeMany (n : ℤ) (count : ℕ) : KeepsSuper (writeMany n count : Action σ ℤ) := by
  induction count with
  | zero => exact keepsSuper_pure 0
  | succ count ih =>
    exact keepsSuper_bind keepsSuper_get fun _ => keepsSuper_bind (keepsSuper_partitionWrite _ _) fun _ =>
      keepsSuper_ite (keepsSuper_pure _) (keepsSuper_bind (keepsSuper_modify fun _ => rfl) fun _ => ih)

theorem keepsSuper_initFATLoop (fuel position remaining : ℕ) (hfuel : remaining < fuel) :
    KeepsSuper (initFATLoop fuel position remaining : Action σ Unit) := by
  induction fuel generalizing position remaining with
  | zero => omega
  | succ fuel ih =>
    rw [initFATLoop]
    split_ifs with hlarge
    · exact keepsSuper_bind (keepsSuper_partitionWrite _ _) fun _ => ih _ _ (by omega)
    · exact keepsSuper_bind (keepsSuper_partitionWrite _ _) fun _ => keepsSuper_pure _

theorem keepsSuper_initFAT (table_size block_size : ℕ) :
    KeepsSuper (initFAT table_size block_size : Action σ Unit) :=
  keepsSuper_bind (keepsSuper_initFATLoop _ _ _ (by omega)) fun _ =>
    keepsSuper_bind (keepsSuper_modify fun _ => rfl) fun _ => keepsSuper_bind (keepsSuper_writeMany _ _) fun _ =>
      keepsSuper_bind (keepsSuper_writeMany _ _) fun _ => keepsSuper_pure _

theorem keepsSuper_initData (table_size : ℕ) : KeepsSuper (initData table_size : Action σ Unit) :=
  keepsSuper_bind (keepsSuper_modify fun _ => rfl) fun _ => keepsSuper_bind (keepsSuper_writeRecord _) fun _ =>
    keepsSuper_bind (keepsSuper_writeRecord _) fun _ => keepsSuper_pure _

def format (s : Superblock) : Action σ Bool := do
  modify fun d => { d with superblock := s, writeOffset := 0 }
  let _ ← writeRecord s.encode
  initFAT s.fatBlocks s.blockSize
  initData s.fatBlocks
  pure true

theorem run_format (s : Superblock) (d : Driver σ) :
    ∃ d', format s d = some (true, d') ∧ d'.superblock = s := by
  have hrest : ∀ x : Action σ Unit, KeepsSuper x → ∀ d₀ : Driver σ,
      ∃ d', (x >>= fun _ => pure true : Action σ Bool) d₀ = some (true, d') ∧ d'.superblock = d₀.superblock := by
    intro x hx d₀
    obtain ⟨u, d', hrun, hs⟩ := hx d₀
    exact ⟨d', by rw [run_bind, hrun, Option.bind_some, run_pure], hs⟩
  obtain ⟨a, d₁, h₁, hs₁⟩ := keepsSuper_writeRecord s.encode { d with superblock := s, writeOffset := 0 }
  obtain ⟨u, d₂, h₂, hs₂⟩ := keepsSuper_initFAT s.fatBlocks s.blockSize d₁
  obtain ⟨d₃, h₃, hs₃⟩ := hrest _ (keepsSuper_initData s.fatBlocks) d₂
  refine ⟨d₃, ?_, hs₃.trans (hs₂.trans hs₁)⟩
  rw [format, run_bind, run_modify, Option.bind_some, run_bind, h₁, Option.bind_some, run_bind, h₂,
    Option.bind_some, h₃]

end Keeps

section Make
variable {σ : Type} [StorageDevice σ] {d d' : Driver σ} {block_size : ℕ}

def clearing (d : Driver σ) : ℤ × Driver σ :=
  let r := StorageDevice.clear d.partition.parent d.partition.offset d.partition.length
  (r.1, { d with partition := { d.partition with parent := r.2 } })

theorem run_make (hclear : (clearing d).1 = 0) (hpos : block_size ≠ 0) : make block_size d =
    if d.partition.length / block_size < MINBLOCKS then some (false, (clearing d).2)
    else if block_size % sizeofDirEntry ≠ 0 then some (false, (clearing d).2)
    else if block_size < 2 * sizeofDirEntry then some (false, (clearing d).2)
    else if block_size < sizeofSuperblock then some (false, (clearing d).2)
    else if 2 ^ 32 - 1 ≤ tableSize (d.partition.length / block_size) block_size then some (false, (clearing d).2)
    else format (geometry d.partition.length block_size) (clearing d).2 := by
  have hstep : partitionClear d = some (0, (clearing d).2) := by
    rw [← hclear]
    rfl
  rw [make, run_bind, hstep, Option.bind_some, run_ite, if_neg (not_not.mpr rfl), run_bind, run_get,
    Option.bind_some, run_ite, if_neg hpos]
  simp only [run_ite, run_pure]
  rfl

theorem make_uncleared (h : (clearing d).1 ≠ 0) : make block_size d = some (false, (clearing d).2) := by
  have hstep : partitionClear d = some (clearing d) := rfl
  rw [make, run_bind, hstep, Option.bind_some, run_ite, if_pos h, run_pure]

theorem make_zero (h : (clearing d).1 = 0) : make 0 d = none := by
  have hstep : partitionClear d = some (clearing d) := rfl
  rw [make, run_bind, hstep, Option.bind_some, run_ite, if_neg (not_not.mpr h), run_bind, run_get,
    Option.bind_some, run_ite, if_pos rfl]
  rfl

theorem make_refused (h : (clearing d).1 = 0) (hpos : block_size ≠ 0)
    (hno : ¬ Accepted d.partition.length block_size) : make block_size d = some (false, (clearing d).2) := by
  rw [run_make h hpos]
  split_ifs with h₁ h₂ h₃ h₄ h₅
  · rfl
  · rfl
  · rfl
  · rfl
  · rfl
  · exact absurd ⟨not_lt.mp h₁, not_not.mp h₂, not_lt.mp h₃, not_lt.mp h₄, not_le.mp h₅⟩ hno

theorem make_granted (h : (clearing d).1 = 0) (hyes : Accepted d.partition.length block_size) :
    make block_size d = format (geometry d.partition.length block_size) (clearing d).2 := by
  have htwo : 640 ≤ block_size := hyes.two
  rw [run_make h (by omega), if_neg (not_lt.mpr hyes.enough), if_neg (not_not.mpr hyes.entries),
    if_neg (not_lt.mpr hyes.two), if_neg (not_lt.mpr hyes.superblock), if_neg (not_le.mpr hyes.table)]

theorem make_accepts {b : ℕ} (hclear : (clearing d).1 = 0) (h : Accepted d.partition.length b) :
    ∃ d', make b d = some (true, d') ∧ d'.superblock = geometry d.partition.length b := by
  rw [make_granted hclear h]
  exact run_format _ _

theorem make_true (h : make block_size d = some (true, d')) :
    Accepted d.partition.length block_size ∧ d'.superblock = geometry d.partition.length block_size := by
  by_cases hclear : (clearing d).1 = 0
  · by_cases hpos : block_size = 0
    · subst hpos
      rw [make_zero hclear] at h
      cases h
    · by_cases hacc : Accepted d.partition.length block_size
      · obtain ⟨d'', hrun, hs⟩ := make_accepts hclear hacc
        obtain rfl : d'' = d' := congrArg Prod.snd (Option.some.inj (hrun.symm.trans h))
        exact ⟨hacc, hs⟩
      · rw [make_refused hclear hpos hacc] at h
        cases h
  · rw [make_uncleared hclear] at h
    cases h

end Make

end Thorn.FatOperations
