import Thorn.Library.Bytes

set_option autoImplicit false

/-!
# The IDE block device

`IDE.cpp` and `IDEDevice.cpp` over the controller's own transfers. A request
goes through one call with an 8-bit sector count when it is aligned, and sector
by sector otherwise.
-/
namespace Thorn.IDE
open ByteStore

abbrev SECTOR_SIZE : ℕ := 512
def ENXIO : ℕ := 6
def EINVAL : ℕ := 22

inductive DeviceType
  | IDE_ATA
  | IDE_ATAPI
deriving DecidableEq

structure Device where
  reserved : Bool
  type : DeviceType
  /-- Size in sectors. -/
  size : ℕ

/-- The port I/O behind the driver: the transfers, with the error code each
returns, and the error register that `printError` reads. -/
class Controller (σ : Type) where
  accessRead : σ → (drive lba numsects : ℕ) → (ℕ × List UInt8) × σ
  accessWrite : σ → (drive lba numsects : ℕ) → List UInt8 → ℕ × σ
  readATAPI : σ → (drive lba : ℕ) → (ℕ × List UInt8) × σ
  errorRegister : σ → (drive : ℕ) → ℕ × σ

structure Machine (σ : Type) where
  devices : ℕ → Device
  hardware : σ

abbrev Action (σ α : Type) := StateM (Machine σ) α

section Run
variable {σ : Type}

def Machine.turn (m : Machine σ) (h : σ) : Machine σ := { m with hardware := h }

@[simp] theorem run_bind {α β : Type} (x : Action σ α) (f : α → Action σ β) (m : Machine σ) :
    (x >>= f) m = f (x m).1 (x m).2 := rfl

@[simp] theorem run_pure {α : Type} (a : α) (m : Machine σ) : (pure a : Action σ α) m = (a, m) := rfl

@[simp] theorem run_get (m : Machine σ) : (get : Action σ (Machine σ)) m = (m, m) := rfl

@[simp] theorem run_ite {α : Type} (c : Prop) [Decidable c] (x y : Action σ α) (m : Machine σ) :
    (if c then x else y) m = if c then x m else y m := by
  split_ifs <;> rfl

end Run

section
variable {σ : Type} [Controller σ]

def accessRead (drive lba numsects : ℕ) : Action σ (ℕ × List UInt8) := fun m =>
  let r := Controller.accessRead m.hardware drive lba numsects
  (r.1, { m with hardware := r.2 })

def accessWrite (drive lba numsects : ℕ) (buffer : List UInt8) : Action σ ℕ := fun m =>
  let r := Controller.accessWrite m.hardware drive lba numsects buffer
  (r.1, { m with hardware := r.2 })

def readATAPI (drive lba : ℕ) : Action σ (ℕ × List UInt8) := fun m =>
  let r := Controller.readATAPI m.hardware drive lba
  (r.1, { m with hardware := r.2 })

def errorRegister (drive : ℕ) : Action σ ℕ := fun m =>
  let r := Controller.errorRegister m.hardware drive
  (r.1, { m with hardware := r.2 })

/-- The error bits of the register in the order they are tested, with the code
each sets; the last one set counts. -/
def errorBits : List (ℕ × ℕ) := [(0, 7), (1, 3), (2, 20), (3, 3), (4, 21), (5, 3), (6, 22), (7, 13)]

def printError (drive err : ℕ) : Action σ ℕ := do
  if err = 0 then pure err
  else if err = 1 then pure 19
  else if err = 2 then do
    let st ← errorRegister drive
    pure (errorBits.foldl (fun e p => if st.testBit p.1 then p.2 else e) err)
  else if err = 3 then pure 23
  else if err = 4 then pure 8
  else pure err

def missing (d : Device) (drive : ℕ) : Bool := 3 < drive || !d.reserved

def beyond (d : Device) (lba numsects : ℕ) : Bool :=
  d.size < (lba + numsects) % 2 ^ 32 && d.type = .IDE_ATA

def readATAPILoop (drive lba : ℕ) : ℕ → ℕ → ℕ → List UInt8 → Action σ (ℕ × List UInt8)
  | 0, _, err, out => pure (err, out)
  | n + 1, i, _, out => do
    let (err, bytes) ← readATAPI drive ((lba + i) % 2 ^ 32)
    readATAPILoop drive lba n (i + 1) err (out ++ bytes)

def readSectors (drive numsects lba : ℕ) : Action σ (ℤ × List UInt8) := do
  let m ← get
  let d := m.devices drive
  if missing d drive then pure (- ENXIO, [])
  else if beyond d lba numsects then pure (-EINVAL, [])
  else do
    let (err, bytes) ← match d.type with
      | .IDE_ATA => accessRead drive lba numsects
      | .IDE_ATAPI => readATAPILoop drive lba numsects 0 0 []
    let status ← printError drive err
    pure (-status, bytes)

def writeSectors (drive numsects lba : ℕ) (buffer : List UInt8) : Action σ ℤ := do
  let m ← get
  let d := m.devices drive
  if missing d drive then pure (-1)
  else if beyond d lba numsects then pure (-2)
  else do
    let err ← match d.type with
      | .IDE_ATA => accessWrite drive lba numsects buffer
      | .IDE_ATAPI => pure 4
    let ideStatus ← printError drive err
    pure (-ideStatus)

def readBytesLoop (drive : ℕ) : ℕ → (bytes offset lba : ℕ) → List UInt8 → Action σ (ℤ × List UInt8)
  | 0, _, _, _, out => pure (0, out)
  | fuel + 1, bytes, offset, lba, out => do
    if bytes = 0 then pure (0, out) else do
      let (status, read_buffer) ← readSectors drive 1 lba
      if status ≠ 0 then pure (status, out) else do
        let to_copy := if SECTOR_SIZE - offset < bytes then SECTOR_SIZE - offset else bytes
        readBytesLoop drive fuel (bytes - to_copy) 0 ((lba + 1) % 2 ^ 32)
          (out ++ (read_buffer.drop offset).take to_copy)

def readBytes (drive bytes offset : ℕ) : Action σ (ℤ × List UInt8) :=
  readBytesLoop drive bytes bytes (offset % SECTOR_SIZE) (offset / SECTOR_SIZE % 2 ^ 32) []

def writeBytesLoop (drive : ℕ) : ℕ → (lba : ℕ) → (cbuffer write_buffer : List UInt8) → Action σ ℤ
  | 0, _, _, _ => pure 0
  | fuel + 1, lba, cbuffer, write_buffer => do
    if cbuffer.length = 0 then pure 0
    else if cbuffer.length < SECTOR_SIZE then do
      let (status, sector) ← readSectors drive 1 lba
      if status ≠ 0 then pure status else do
        let status ← writeSectors drive 1 lba (overlay (overlay write_buffer 0 sector) 0 cbuffer)
        if status ≠ 0 then pure status else pure 0
    else do
      let status ← writeSectors drive 1 lba cbuffer
      if status ≠ 0 then pure status
      else writeBytesLoop drive fuel ((lba + 1) % 2 ^ 32) (cbuffer.drop SECTOR_SIZE) write_buffer

def writeBytes (drive offset : ℕ) (buffer : List UInt8) : Action σ ℤ := do
  let lba := offset / SECTOR_SIZE % 2 ^ 32
  let rem := offset % SECTOR_SIZE
  if buffer.length % SECTOR_SIZE = 0 ∧ rem = 0 then
    writeSectors drive (buffer.length / SECTOR_SIZE % 2 ^ 8) lba buffer
  else do
    let write_buffer := List.replicate SECTOR_SIZE 0
    if rem ≠ 0 then do
      let (status, sector) ← readSectors drive 1 lba
      if status ≠ 0 then pure status else do
        let write_buffer := overlay write_buffer 0 sector
        let to_write := if SECTOR_SIZE - rem < buffer.length then SECTOR_SIZE - rem else buffer.length
        let write_buffer := overlay write_buffer rem (buffer.take to_write)
        let status ← writeSectors drive 1 lba write_buffer
        if status ≠ 0 then pure status
        else writeBytesLoop drive buffer.length ((lba + 1) % 2 ^ 32) (buffer.drop to_write) write_buffer
    else writeBytesLoop drive buffer.length lba buffer write_buffer

end

structure Present (d : Device) (drive S : ℕ) : Prop where
  drive : drive ≤ 3
  reserved : d.reserved = true
  type : d.type = .IDE_ATA
  size : d.size = S
  small : S < 2 ^ 32

section Checks
variable {σ : Type} {m : Machine σ} {drive S : ℕ}

theorem missing_false (hp : Present (m.devices drive) drive S) : missing (m.devices drive) drive = false := by
  simp [missing, hp.reserved, hp.drive]

theorem beyond_false (hp : Present (m.devices drive) drive S) {lba k : ℕ} (h : lba + k ≤ S) :
    beyond (m.devices drive) lba k = false := by
  have hs := hp.small
  simp only [beyond, hp.size, Bool.and_eq_false_imp, decide_eq_true_eq]
  omega

end Checks

section
variable {σ : Type} [Controller σ]

/-- The controller transfers exactly the sectors asked for, to and from the
content of one drive with `S` sectors. -/
structure Transfers (content : σ → Store) (drive S : ℕ) : Prop where
  read : ∀ h lba k, lba + k ≤ S → ∃ h', Controller.accessRead h drive lba k =
    ((0, slice (content h) (512 * lba) (512 * k)), h') ∧ content h' = content h
  write : ∀ h lba k (buffer : List UInt8), lba + k ≤ S → 512 * k ≤ buffer.length → ∃ h',
    Controller.accessWrite h drive lba k buffer = (0, h') ∧
      content h' = patch (content h) (512 * lba) (buffer.take (512 * k))

end

section Flat
variable {σ : Type} [Controller σ] {content : σ → Store} {drive S : ℕ} {m : Machine σ}

theorem run_readSectors (ht : Transfers content drive S) (hp : Present (m.devices drive) drive S) {k l : ℕ}
    (h : l + k ≤ S) : ∃ h', readSectors drive k l m =
      ((0, slice (content m.hardware) (512 * l) (512 * k)), m.turn h') ∧ content h' = content m.hardware := by
  obtain ⟨h', hr, hc⟩ := ht.read m.hardware l k h
  refine ⟨h', ?_, hc⟩
  simp only [readSectors, run_bind, run_get, missing_false hp, beyond_false hp h, hp.type, run_ite, accessRead,
    hr, printError, run_pure, Bool.false_eq_true, ite_false, ite_true]
  rfl

theorem run_writeSectors (ht : Transfers content drive S) (hp : Present (m.devices drive) drive S) {k l : ℕ}
    (buffer : List UInt8) (h : l + k ≤ S) (hb : 512 * k ≤ buffer.length) : ∃ h',
    writeSectors drive k l buffer m = (0, m.turn h') ∧
      content h' = patch (content m.hardware) (512 * l) (buffer.take (512 * k)) := by
  obtain ⟨h', hw, hc⟩ := ht.write m.hardware l k buffer h hb
  refine ⟨h', ?_, hc⟩
  simp only [writeSectors, run_bind, run_get, missing_false hp, beyond_false hp h, hp.type, run_ite,
    accessWrite, hw, printError, run_pure, Bool.false_eq_true, ite_false, ite_true]
  rfl

theorem run_readBytesLoop (ht : Transfers content drive S) (hp : Present (m.devices drive) drive S)
    (fuel bytes offset lba : ℕ) (out : List UInt8) (hfuel : bytes ≤ fuel) (ho : offset < 512)
    (h : 512 * lba + offset + bytes ≤ 512 * S) : ∃ h', readBytesLoop drive fuel bytes offset lba out m =
      ((0, out ++ slice (content m.hardware) (512 * lba + offset) bytes), m.turn h') ∧
        content h' = content m.hardware := by
  induction fuel generalizing m bytes offset lba out with
  | zero =>
    obtain rfl : bytes = 0 := by omega
    exact ⟨m.hardware, by rw [slice_zero, List.append_nil]; rfl, rfl⟩
  | succ fuel ih =>
    rw [readBytesLoop, run_ite]
    by_cases h0 : bytes = 0
    · subst h0
      exact ⟨m.hardware, by rw [if_pos rfl, slice_zero, List.append_nil]; rfl, rfl⟩
    · have hs := hp.small
      obtain ⟨h₁, hr, hc₁⟩ := run_readSectors ht hp (k := 1) (l := lba) (by omega)
      rw [if_neg h0, run_bind, hr]
      simp only [ne_eq, not_true_eq_false, ite_false, Nat.mul_one]
      generalize hn : (if SECTOR_SIZE - offset < bytes then SECTOR_SIZE - offset else bytes) = n
      have hn' : n ≤ bytes ∧ n ≤ 512 - offset ∧ 0 < n ∧ (n < bytes → n = 512 - offset) := by
        have hs512 : SECTOR_SIZE = 512 := rfl
        rw [← hn]
        split_ifs <;> omega
      have hlba : (lba + 1) % 2 ^ 32 = lba + 1 ∨ n = bytes := by
        by_cases hlt : n < bytes
        · exact .inl (Nat.mod_eq_of_lt (by omega))
        · exact .inr (by omega)
      have hslice : slice (content m.hardware) (512 * lba + offset) bytes =
          ((slice (content m.hardware) (512 * lba) 512).drop offset).take n ++
            slice (content m.hardware) (512 * lba + offset + n) (bytes - n) := by
        rw [slice_drop_take _ _ _ _ _ (by omega), ← slice_eq_take_drop _ _ _ _ hn'.1]
      rcases hlba with hlba | rfl
      · obtain ⟨h₂, hrest, hc₂⟩ := ih (m := m.turn h₁) hp (bytes - n) 0 (lba + 1)
          (out ++ ((slice (content m.hardware) (512 * lba) 512).drop offset).take n) (by omega) (by omega) (by omega)
        refine ⟨h₂, ?_, hc₂.trans hc₁⟩
        have htail : slice (content (m.turn h₁).hardware) (512 * (lba + 1) + 0) (bytes - n) =
            slice (content m.hardware) (512 * lba + offset + n) (bytes - n) := by
          change slice (content h₁) _ _ = _
          rw [hc₁]
          by_cases hlt : n < bytes
          · congr 1
            omega
          · rw [show bytes - n = 0 by omega, slice_zero, slice_zero]
        rw [hlba, hrest, hslice, htail, ← List.append_assoc]
        rfl
      · refine ⟨h₁, ?_, hc₁⟩
        rw [hslice, Nat.sub_self, slice_zero, List.append_nil]
        cases fuel <;> rfl

theorem run_writeBytesLoop (ht : Transfers content drive S) (hp : Present (m.devices drive) drive S)
    (fuel lba : ℕ) (cbuffer write_buffer : List UInt8) (hfuel : cbuffer.length ≤ fuel)
    (hw : write_buffer.length = 512) (h : cbuffer ≠ [] → lba < 2 ^ 32 ∧ 512 * lba + cbuffer.length ≤ 512 * S) :
    ∃ h', writeBytesLoop drive fuel lba cbuffer write_buffer m = (0, m.turn h') ∧
      content h' = patch (content m.hardware) (512 * lba) cbuffer := by
  induction fuel generalizing m lba cbuffer with
  | zero =>
    have hnil : cbuffer = [] := List.eq_nil_of_length_eq_zero (by omega)
    exact ⟨m.hardware, rfl, by rw [hnil, patch_nil]⟩
  | succ fuel ih =>
    rw [writeBytesLoop, run_ite]
    by_cases h0 : cbuffer.length = 0
    · refine ⟨m.hardware, by rw [if_pos h0]; rfl, ?_⟩
      rw [List.eq_nil_of_length_eq_zero h0, patch_nil]
    · obtain ⟨hlba, hfit⟩ := h fun he => h0 (by rw [he]; rfl)
      rw [if_neg h0, run_ite]
      by_cases hlt : cbuffer.length < SECTOR_SIZE
      · have hlt' : cbuffer.length < 512 := hlt
        obtain ⟨h₁, hr, hc₁⟩ := run_readSectors ht hp (k := 1) (l := lba) (by omega)
        have hsector : overlay write_buffer 0 (slice (content m.hardware) (512 * lba) 512) =
            slice (content m.hardware) (512 * lba) 512 := overlay_full _ _ (by rw [slice_length, hw])
        have hlen : (overlay (slice (content m.hardware) (512 * lba) 512) 0 cbuffer).length = 512 := by
          rw [overlay_length _ _ _ (by rw [slice_length]; omega), slice_length]
        obtain ⟨h₂, hwr, hc₂⟩ := run_writeSectors (m := m.turn h₁) ht hp (k := 1) (l := lba)
          (overlay (slice (content m.hardware) (512 * lba) 512) 0 cbuffer) (by omega) (by omega)
        refine ⟨h₂, ?_, ?_⟩
        · rw [if_pos hlt, run_bind, hr]
          simp only [ne_eq, not_true_eq_false, ite_false, Nat.mul_one, hsector, run_bind, hwr]
          rfl
        · change content h₁ = _ at hc₁
          rw [hc₂, List.take_of_length_le (by omega)]
          change patch (content h₁) _ _ = _
          rw [hc₁, patch_overlay _ _ _ _ _ (by omega), Nat.add_zero]
      · have hge : ¬ cbuffer.length < 512 := hlt
        obtain ⟨h₁, hwr, hc₁⟩ := run_writeSectors ht hp (k := 1) (l := lba) cbuffer (by omega) (by omega)
        have hs := hp.small
        obtain ⟨h₂, hrest, hc₂⟩ := ih (m := m.turn h₁) hp ((lba + 1) % 2 ^ 32) (cbuffer.drop 512)
          (by rw [List.length_drop]; omega) fun hne => by
            have hpos := List.length_pos_of_ne_nil hne
            rw [List.length_drop] at hpos ⊢
            rw [Nat.mod_eq_of_lt (by omega)]
            omega
        refine ⟨h₂, ?_, ?_⟩
        · rw [if_neg hlt, run_bind, hwr]
          simp only [ne_eq, not_true_eq_false, ite_false, hrest]
          rfl
        · rw [hc₂]
          change patch (content h₁) _ _ = _
          have hcut : (cbuffer.take 512).length = 512 := by
            rw [List.length_take]
            omega
          by_cases hne : cbuffer.drop 512 = []
          · rw [hne, patch_nil, hc₁, Nat.mul_one]
            rw [List.take_of_length_le (List.drop_eq_nil_iff.mp hne)]
          · have hpos := List.length_pos_of_ne_nil hne
            rw [List.length_drop] at hpos
            have hjoin := patch_append (content m.hardware) (512 * lba) (cbuffer.take 512) (cbuffer.drop 512)
            rw [hcut, List.take_append_drop] at hjoin
            rw [hc₁, Nat.mod_eq_of_lt (by omega), Nat.mul_one, ← hjoin, Nat.mul_add, Nat.mul_one]

theorem run_writeBytes (ht : Transfers content drive S) (hp : Present (m.devices drive) drive S) (offset : ℕ)
    (buffer : List UInt8) (hslow : ¬ (buffer.length % SECTOR_SIZE = 0 ∧ offset % SECTOR_SIZE = 0))
    (h : offset + buffer.length ≤ 512 * S) : ∃ h', writeBytes drive offset buffer m = (0, m.turn h') ∧
      content h' = patch (content m.hardware) offset buffer := by
  have hs := hp.small
  have hd := Nat.div_add_mod offset 512
  have hlba : offset / SECTOR_SIZE % 2 ^ 32 = offset / 512 := Nat.mod_eq_of_lt (by
    have : offset / 512 ≤ S := by omega
    change offset / 512 < _
    omega)
  rw [writeBytes, run_ite, if_neg hslow, hlba, run_ite]
  by_cases hrem : offset % SECTOR_SIZE = 0
  · have hne : buffer ≠ [] := fun he => hslow ⟨by simp [he], hrem⟩
    have hpos := List.length_pos_of_ne_nil hne
    have hrem' : offset % 512 = 0 := hrem
    obtain ⟨h', hrun, hc⟩ := run_writeBytesLoop ht hp buffer.length (offset / 512) buffer
      (List.replicate SECTOR_SIZE 0) le_rfl (List.length_replicate ..) fun _ => by omega
    refine ⟨h', by rw [if_neg (not_not.mpr hrem), hrun], ?_⟩
    rw [hc, show 512 * (offset / 512) = offset by omega]
  · have hrem' : offset % 512 ≠ 0 := hrem
    have hmod := Nat.mod_lt offset (show 0 < 512 by omega)
    have hs512 : SECTOR_SIZE = 512 := rfl
    obtain ⟨h₁, hr, hc₁⟩ := run_readSectors ht hp (k := 1) (l := offset / 512) (by omega)
    generalize hn : (if SECTOR_SIZE - offset % SECTOR_SIZE < buffer.length then SECTOR_SIZE - offset % SECTOR_SIZE
      else buffer.length) = n
    have hn' : n ≤ buffer.length ∧ n ≤ 512 - offset % 512 ∧ (n < buffer.length → n = 512 - offset % 512) := by
      rw [← hn, hs512]
      split_ifs <;> omega
    have htake : (buffer.take n).length = n := by
      rw [List.length_take]
      omega
    have hsector :
        overlay (List.replicate SECTOR_SIZE 0) 0 (slice (content m.hardware) (512 * (offset / 512)) 512) =
        slice (content m.hardware) (512 * (offset / 512)) 512 := overlay_full _ _ (by simp)
    have hlen : (overlay (slice (content m.hardware) (512 * (offset / 512)) 512) (offset % 512)
        (buffer.take n)).length = 512 := by
      rw [overlay_length _ _ _ (by rw [slice_length, htake]; omega), slice_length]
    obtain ⟨h₂, hw, hc₂⟩ := run_writeSectors (m := m.turn h₁) ht hp (k := 1) (l := offset / 512)
      (overlay (slice (content m.hardware) (512 * (offset / 512)) 512) (offset % 512) (buffer.take n))
      (by omega) (by omega)
    have hhead : content h₂ = patch (content m.hardware) offset (buffer.take n) := by
      rw [hc₂, List.take_of_length_le (by omega)]
      change patch (content h₁) _ _ = _
      rw [hc₁, patch_overlay _ _ _ _ _ (by omega), hd]
    obtain ⟨h₃, hrest, hc₃⟩ := run_writeBytesLoop (m := (m.turn h₁).turn h₂) ht hp buffer.length
      ((offset / 512 + 1) % 2 ^ 32) (buffer.drop n)
      (overlay (slice (content m.hardware) (512 * (offset / 512)) 512) (offset % 512) (buffer.take n))
      (by rw [List.length_drop]; omega) hlen fun hne => by
        have hpos := List.length_pos_of_ne_nil hne
        rw [List.length_drop] at hpos ⊢
        rw [Nat.mod_eq_of_lt (by omega)]
        omega
    refine ⟨h₃, ?_, ?_⟩
    · rw [if_pos hrem, run_bind, hr]
      simp only [ne_eq, not_true_eq_false, ite_false, Nat.mul_one, hsector]
      simp only [show offset % SECTOR_SIZE = offset % 512 from rfl, run_bind, hw, run_ite, not_true_eq_false,
        ite_false, hrest]
      rfl
    · rw [hc₃]
      change patch (content h₂) _ _ = _
      rw [hhead]
      by_cases hne : buffer.drop n = []
      · rw [hne, patch_nil, List.take_of_length_le (List.drop_eq_nil_iff.mp hne)]
      · have hpos := List.length_pos_of_ne_nil hne
        rw [List.length_drop] at hpos
        have hjoin := patch_append (content m.hardware) offset (buffer.take n) (buffer.drop n)
        rw [htake, List.take_append_drop] at hjoin
        have hplace : 512 * ((offset / 512 + 1) % 2 ^ 32) = offset + n := by
          rw [Nat.mod_eq_of_lt (by omega)]
          omega
        rw [hplace, hjoin]

end Flat

end Thorn.IDE

namespace Thorn.IDEDevice
open ByteStore IDE

variable {σ : Type} [Controller σ]

/-- The sector count and number are narrowed to `uint8_t` and `uint32_t`. -/
def read (ideID size offset : ℕ) : Action σ (ℤ × List UInt8) :=
  if offset % SECTOR_SIZE = 0 ∧ size % SECTOR_SIZE = 0 then
    readSectors ideID (size / SECTOR_SIZE % 2 ^ 8) (offset / SECTOR_SIZE % 2 ^ 32)
  else readBytes ideID size offset

def write (ideID offset : ℕ) (buffer : List UInt8) : Action σ ℤ :=
  if offset % SECTOR_SIZE = 0 ∧ buffer.length % SECTOR_SIZE = 0 then
    writeSectors ideID (buffer.length / SECTOR_SIZE % 2 ^ 8) (offset / SECTOR_SIZE % 2 ^ 32) buffer
  else writeBytes ideID offset buffer


section Flat
variable {content : σ → Store} {drive S : ℕ} {m : Machine σ}

/-- What an aligned request transfers: the sectors that an 8-bit count leaves of it. -/
def narrowed (size : ℕ) : ℕ := 512 * (size / 512 % 2 ^ 8)

theorem narrowed_le (size : ℕ) : narrowed size ≤ size := by
  unfold narrowed
  omega

theorem run_read (ht : Transfers content drive S) (hp : Present (m.devices drive) drive S) (size offset : ℕ)
    (h : offset + size ≤ 512 * S) : ∃ h', read drive size offset m = ((0, slice (content m.hardware) offset
      (if offset % SECTOR_SIZE = 0 ∧ size % SECTOR_SIZE = 0 then narrowed size else size)), m.turn h') ∧
        content h' = content m.hardware := by
  have hs := hp.small
  have hd := Nat.div_add_mod offset 512
  have hlba : offset / SECTOR_SIZE % 2 ^ 32 = offset / 512 := Nat.mod_eq_of_lt (by
    change offset / 512 < _
    omega)
  rw [read, run_ite, hlba]
  by_cases ha : offset % SECTOR_SIZE = 0 ∧ size % SECTOR_SIZE = 0
  · have hoff : offset % 512 = 0 := ha.1
    have hle := narrowed_le size
    unfold narrowed at hle ⊢
    obtain ⟨h', hr, hc⟩ := run_readSectors ht hp (k := size / 512 % 2 ^ 8) (l := offset / 512) (by omega)
    refine ⟨h', ?_, hc⟩
    rw [if_pos ha, if_pos ha, hr, show 512 * (offset / 512) = offset by omega]
  · obtain ⟨h', hr, hc⟩ := run_readBytesLoop ht hp size size (offset % 512) (offset / 512) [] le_rfl
      (Nat.mod_lt _ (by omega)) (by omega)
    refine ⟨h', ?_, hc⟩
    rw [if_neg ha, if_neg ha, readBytes, hlba]
    rw [hd] at hr
    exact hr

theorem run_write (ht : Transfers content drive S) (hp : Present (m.devices drive) drive S) (offset : ℕ)
    (buffer : List UInt8) (h : offset + buffer.length ≤ 512 * S) : ∃ h',
    write drive offset buffer m = (0, m.turn h') ∧ content h' = patch (content m.hardware) offset
      (if offset % SECTOR_SIZE = 0 ∧ buffer.length % SECTOR_SIZE = 0 then buffer.take (narrowed buffer.length)
        else buffer) := by
  rw [write, run_ite]
  by_cases ha : offset % SECTOR_SIZE = 0 ∧ buffer.length % SECTOR_SIZE = 0
  · have hs := hp.small
    have hoff : offset % 512 = 0 := ha.1
    have hlba : offset / SECTOR_SIZE % 2 ^ 32 = offset / 512 := Nat.mod_eq_of_lt (by
      change offset / 512 < _
      omega)
    have hle := narrowed_le buffer.length
    unfold narrowed at hle ⊢
    obtain ⟨h', hw, hc⟩ := run_writeSectors ht hp (k := buffer.length / 512 % 2 ^ 8) (l := offset / 512) buffer
      (by omega) hle
    refine ⟨h', by rw [if_pos ha, hlba, hw], ?_⟩
    rw [if_pos ha, hc, show 512 * (offset / 512) = offset by omega]
  · obtain ⟨h', hw, hc⟩ := run_writeBytes ht hp offset buffer (fun hb => ha ⟨hb.2, hb.1⟩) h
    exact ⟨h', by rw [if_neg ha, hw], by rw [if_neg ha, hc]⟩

/-- One request serves the drive as a flat byte array: a read into `out`, a write
of `buffer`, and a read of the same range after that write. -/
structure ServesFlat (content : σ → Store) (drive : ℕ) (m : Machine σ) (offset : ℕ) (out buffer : List UInt8) :
    Prop where
  reads : ∃ bytes m', read drive out.length offset m = ((0, bytes), m') ∧
    overlay out 0 bytes = slice (content m.hardware) offset out.length
  writes : ∃ m', write drive offset buffer m = (0, m') ∧
    content m'.hardware = patch (content m.hardware) offset buffer
  returns : ∃ m' bytes m'', write drive offset buffer m = (0, m') ∧
    read drive out.length offset m' = ((0, bytes), m'') ∧ overlay out 0 bytes = buffer

/-- An aligned request transfers a whole number of sectors below 256 of its own;
the rest of it must be as it should be already. -/
def Fits (old : Store) (offset : ℕ) (out buffer : List UInt8) : Prop :=
  offset % 512 ≠ 0 ∨ out.length % 512 ≠ 0 ∨ out.length < 512 * 256 ∨
    out.drop (narrowed out.length) = (slice old offset out.length).drop (narrowed out.length) ∧
    buffer.drop (narrowed out.length) = (slice old offset out.length).drop (narrowed out.length)

theorem narrowed_small {size : ℕ} (h₁ : size % 512 = 0) (h₂ : size < 512 * 256) : narrowed size = size := by
  unfold narrowed
  omega

theorem overlay_start (out bytes : List UInt8) : overlay out 0 bytes = bytes ++ out.drop bytes.length := by
  simp [overlay]

theorem overlay_slice_iff (old : Store) (offset k : ℕ) (out : List UInt8) (hk : k ≤ out.length) :
    overlay out 0 (slice old offset k) = slice old offset out.length ↔
      out.drop k = (slice old offset out.length).drop k := by
  rw [overlay_start, slice_length, slice_eq_take_drop _ _ _ _ hk, List.append_cancel_left_eq,
    List.drop_left' (slice_length _ _ _)]

theorem serves_of_run (ht : Transfers content drive S) (hp : Present (m.devices drive) drive S) {offset : ℕ}
    {out buffer : List UInt8} (hlen : buffer.length = out.length) (h : offset + out.length ≤ 512 * S) {k : ℕ}
    (hk : k ≤ out.length)
    (hread : (if offset % SECTOR_SIZE = 0 ∧ out.length % SECTOR_SIZE = 0 then narrowed out.length
      else out.length) = k)
    (hwrite : (if offset % SECTOR_SIZE = 0 ∧ buffer.length % SECTOR_SIZE = 0 then
      buffer.take (narrowed buffer.length) else buffer) = buffer.take k) :
    ServesFlat content drive m offset out buffer ↔
      out.drop k = (slice (content m.hardware) offset out.length).drop k ∧
      buffer.drop k = (slice (content m.hardware) offset out.length).drop k := by
  obtain ⟨h₁, hr, -⟩ := run_read ht hp out.length offset h
  obtain ⟨h₂, hw, hc₂⟩ := run_write ht hp offset buffer (by omega)
  obtain ⟨h₃, hr₂, -⟩ := run_read (m := m.turn h₂) ht hp out.length offset h
  rw [hread] at hr hr₂
  rw [hwrite] at hc₂
  have hr' := overlay_slice_iff (content m.hardware) offset k out hk
  have hw' := patch_take_iff (content m.hardware) offset k buffer (by omega)
  rw [hlen] at hw'
  constructor
  · rintro ⟨⟨bytes, m', hread', hout⟩, ⟨m'', hwrite', hcontent⟩, -⟩
    rw [hr] at hread'
    rw [hw] at hwrite'
    obtain ⟨hres, -⟩ := Prod.mk.inj hread'
    obtain ⟨-, rfl⟩ := Prod.mk.inj hres
    obtain ⟨-, rfl⟩ := Prod.mk.inj hwrite'
    exact ⟨hr'.mp hout, hw'.mp (hc₂.symm.trans hcontent)⟩
  · rintro ⟨hout, hbuf⟩
    have hcontent := hc₂.trans (hw'.mpr hbuf)
    refine ⟨⟨_, _, hr, hr'.mpr hout⟩, ⟨_, hw, hcontent⟩, ⟨_, _, _, hw, hr₂, ?_⟩⟩
    have hself : slice (content h₂) offset out.length = buffer := by
      rw [hcontent, ← hlen, slice_patch_self]
    have hback := overlay_slice_iff (content h₂) offset k out hk
    rw [hself] at hback
    exact hback.mpr (hout.trans hbuf.symm)

/-- The drive is served as a flat byte array exactly when the request fits the
8-bit sector count, or nothing was missing beyond it. -/
theorem serves_flat_iff (ht : Transfers content drive S) (hp : Present (m.devices drive) drive S)
    (offset : ℕ) (out buffer : List UInt8) (hlen : buffer.length = out.length)
    (h : offset + out.length ≤ 512 * S) :
    ServesFlat content drive m offset out buffer ↔ Fits (content m.hardware) offset out buffer := by
  have hle := narrowed_le out.length
  by_cases ha : offset % SECTOR_SIZE = 0 ∧ out.length % SECTOR_SIZE = 0
  · have hiff := serves_of_run ht hp hlen h hle (if_pos ha) (by rw [hlen, if_pos ha])
    rw [hiff]
    constructor
    · exact fun hd => .inr (.inr (.inr hd))
    · rintro (h₁ | h₁ | h₁ | h₁)
      · exact absurd ha.1 h₁
      · exact absurd ha.2 h₁
      · have hbuf : buffer.drop out.length = [] := List.drop_of_length_le hlen.le
        have hold : (slice (content m.hardware) offset out.length).drop out.length = [] :=
          List.drop_of_length_le (slice_length _ _ _).le
        rw [narrowed_small ha.2 h₁, List.drop_length, hbuf, hold]
        exact ⟨rfl, rfl⟩
      · exact h₁
  · have hiff := serves_of_run ht hp hlen h le_rfl (if_neg ha) (by
      rw [hlen, if_neg ha, List.take_of_length_le hlen.le])
    rw [hiff, List.drop_length, List.drop_of_length_le hlen.le, List.drop_of_length_le (by rw [slice_length])]
    refine iff_of_true ⟨rfl, rfl⟩ ?_
    rcases Classical.not_and_iff_not_or_not.mp ha with h₁ | h₁
    · exact .inl h₁
    · exact .inr (.inl h₁)

end Flat

structure FlatDrive where
  bytes : Store

instance : Controller FlatDrive where
  accessRead d _ lba numsects := ((0, slice d.bytes (512 * lba) (512 * numsects)), d)
  accessWrite d _ lba numsects buffer := (0, ⟨patch d.bytes (512 * lba) (buffer.take (512 * numsects))⟩)
  readATAPI d _ _ := ((0, []), d)
  errorRegister d _ := (0, d)

theorem flatDrive_transfers (drive S : ℕ) : Transfers FlatDrive.bytes drive S where
  read h _ _ _ := ⟨h, rfl, rfl⟩
  write _ _ _ _ _ _ := ⟨_, rfl, rfl⟩

def ones : Machine FlatDrive := ⟨fun _ => ⟨true, .IDE_ATA, 256⟩, ⟨fun _ => 1⟩⟩

theorem ones_present : Present (ones.devices 0) 0 256 := ⟨by omega, rfl, rfl, rfl, by omega⟩

/-- One sector is served. -/
theorem serves_flat_sector :
    ServesFlat FlatDrive.bytes 0 ones 512 (List.replicate 512 0) (List.replicate 512 7) := by
  refine (serves_flat_iff (flatDrive_transfers 0 256) ones_present 512 _ _ ?_ ?_).mpr (.inr (.inr (.inl ?_)))
  · rw [List.length_replicate, List.length_replicate]
  · rw [List.length_replicate]
    omega
  · rw [List.length_replicate]
    omega

/-- A read of all 256 sectors transfers none of them. -/
theorem serves_flat_overrun : Transfers FlatDrive.bytes 0 256 ∧ Present (ones.devices 0) 0 256 ∧
    ¬ ServesFlat FlatDrive.bytes 0 ones 0 (List.replicate (512 * 256) 0) (List.replicate (512 * 256) 0) := by
  refine ⟨flatDrive_transfers 0 256, ones_present, fun h => ?_⟩
  obtain ⟨bytes, m', hread, hout⟩ := h.reads
  obtain ⟨h', hr, -⟩ := run_read (flatDrive_transfers 0 256) ones_present (512 * 256) 0 le_rfl
  rw [List.length_replicate] at hread hout
  rw [hr, if_pos ⟨rfl, rfl⟩, show narrowed (512 * 256) = 0 by decide, slice_zero] at hread
  obtain ⟨hres, -⟩ := Prod.mk.inj hread
  obtain ⟨-, rfl⟩ := Prod.mk.inj hres
  have hfirst := congrArg (fun l : List UInt8 => l[0]?) hout
  simp only [overlay_start, List.nil_append, List.length_nil, List.drop_zero,
    slice_getElem? _ _ _ _ (show 0 < 512 * 256 by omega), List.getElem?_replicate,
    if_pos (show 0 < 512 * 256 by omega)] at hfirst
  cases hfirst

end Thorn.IDEDevice
