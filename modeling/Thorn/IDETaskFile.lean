import Mathlib.Data.Fin.VecNotation
import Mathlib.Data.Nat.Bitwise

set_option autoImplicit false

namespace Thorn.IDEPorts

def EIO : ℕ := 5

def ATA_SR_BSY : ℕ := 0x80
def ATA_SR_DF : ℕ := 0x20
def ATA_SR_DRQ : ℕ := 0x08
def ATA_SR_ERR : ℕ := 0x01

def ATA_CMD_READ_PIO : ℕ := 0x20
def ATA_CMD_READ_PIO_EXT : ℕ := 0x24
def ATA_CMD_WRITE_PIO : ℕ := 0x30
def ATA_CMD_WRITE_PIO_EXT : ℕ := 0x34
def ATA_CMD_CACHE_FLUSH : ℕ := 0xe7
def ATA_CMD_CACHE_FLUSH_EXT : ℕ := 0xea

abbrev ATA_REG_SECCOUNT0 : ℕ := 0x02
abbrev ATA_REG_LBA0 : ℕ := 0x03
abbrev ATA_REG_LBA1 : ℕ := 0x04
abbrev ATA_REG_LBA2 : ℕ := 0x05
abbrev ATA_REG_HDDEVSEL : ℕ := 0x06
abbrev ATA_REG_COMMAND : ℕ := 0x07
abbrev ATA_REG_STATUS : ℕ := 0x07
abbrev ATA_REG_SECCOUNT1 : ℕ := 0x08
abbrev ATA_REG_LBA3 : ℕ := 0x09
abbrev ATA_REG_LBA4 : ℕ := 0x0a
abbrev ATA_REG_LBA5 : ℕ := 0x0b
abbrev ATA_REG_CONTROL : ℕ := 0x0c
abbrev ATA_REG_ALTSTATUS : ℕ := 0x0c

structure Device where
  channel : ℕ
  drive : ℕ
  capabilities : ℕ

structure ChannelRegisters where
  base : ℕ
  ctrl : ℕ
  bmide : ℕ
  nIEN : ℕ

/-- The ports. Sectors are moved as bytes, two for each word. -/
class Ports (σ : Type) where
  inb : (port : ℕ) → σ → ℕ × σ
  outb : (port data : ℕ) → σ → σ
  insw : (port words : ℕ) → σ → List UInt8 × σ
  outsw : (port : ℕ) → List UInt8 → σ → σ

structure Machine (σ : Type) where
  devices : ℕ → Device
  channels : ℕ → ChannelRegisters
  hardware : σ
  /-- The registers that `write` was called for so far, with the values. -/
  written : List (ℕ × ℕ)

/-- `none` when a wait does not end. -/
abbrev Action (σ α : Type) := OptionT (StateM (Machine σ)) α

section
variable {σ : Type} [Ports σ]

def getMachine : Action σ (Machine σ) := fun m => (some m, m)

def hang {α : Type} : Action σ α := fun m => (none, m)

def portOf (c : ChannelRegisters) (reg : ℕ) : Option ℕ :=
  if reg < 0x08 then some (c.base + reg)
  else if reg < 0x0c then some (c.base + reg - 0x06)
  else if reg < 0x0e then some (c.ctrl + reg - 0x0a)
  else if reg < 0x16 then some (c.bmide + reg - 0x0e)
  else none

def outReg (channel reg data : ℕ) : Action σ Unit := fun m =>
  (some (), match portOf (m.channels channel) reg with
    | some port => { m with hardware := Ports.outb port (data % 2 ^ 8) m.hardware }
    | none => m)

def inReg (channel reg : ℕ) : Action σ ℕ := fun m =>
  match portOf (m.channels channel) reg with
  | some port =>
    let r := Ports.inb port m.hardware
    (some r.1, { m with hardware := r.2 })
  | none => (some 0, m)

/-- The high-order registers are reached through a bit of the control register. -/
def highOrder (reg : ℕ) : Bool := 0x07 < reg && reg < 0x0c

def bracket {α : Type} (channel reg : ℕ) (x : Action σ α) : Action σ α := do
  let m ← getMachine
  if highOrder reg then do
    outReg channel ATA_REG_CONTROL (0x80 ||| (m.channels channel).nIEN)
    let a ← x
    outReg channel ATA_REG_CONTROL (m.channels channel).nIEN
    return a
  else x

def read (channel reg : ℕ) : Action σ ℕ := bracket channel reg (inReg channel reg)

def log (reg data : ℕ) :
    Action σ Unit := fun m => (some (), { m with written := m.written ++ [(reg, data % 2 ^ 8)] })

def write (channel reg data : ℕ) : Action σ Unit := do
  log reg data
  bracket channel reg (outReg channel reg data)

/-- `while (read(channel, ATA_REG_STATUS) & ATA_SR_BSY);` -/
def waitReady (channel : ℕ) : ℕ → Action σ Unit
  | 0 => hang
  | fuel + 1 => do
    let status ← read channel ATA_REG_STATUS
    if status &&& ATA_SR_BSY ≠ 0 then waitReady channel fuel else pure ()

def polling (fuel channel : ℕ) (advanced_check : Bool) : Action σ ℕ := do
  let _ ← read channel ATA_REG_ALTSTATUS
  let _ ← read channel ATA_REG_ALTSTATUS
  let _ ← read channel ATA_REG_ALTSTATUS
  let _ ← read channel ATA_REG_ALTSTATUS
  waitReady channel fuel
  if advanced_check then do
    let state ← read channel ATA_REG_STATUS
    return if state &&& (ATA_SR_DF ||| ATA_SR_ERR) ≠ 0 ∨ state &&& ATA_SR_DRQ = 0 then EIO else 0
  else return 0

def insw (bus words : ℕ) : Action σ (List UInt8) := fun m =>
  let r := Ports.insw bus words m.hardware
  (some r.1, { m with hardware := r.2 })

def outsw (bus : ℕ) (bytes : List UInt8) : Action σ Unit := fun m =>
  (some (), { m with hardware := Ports.outsw bus bytes m.hardware })

def readLoop (fuel channel bus : ℕ) : ℕ → List UInt8 → Action σ (ℕ × List UInt8)
  | 0, out => return (0, out)
  | left + 1, out => do
    let err ← polling fuel channel true
    if err ≠ 0 then return (err, out)
    else do
      let bytes ← insw bus 256
      readLoop fuel channel bus left (out ++ bytes)

def writeLoop (fuel channel bus : ℕ) : ℕ → List UInt8 → Action σ Unit
  | 0, _ => return ()
  | left + 1, buffer => do
    let _ ← polling fuel channel false
    outsw bus (buffer.take 512)
    writeLoop fuel channel bus left (buffer.drop 512)

inductive LBAMode
  | CHS
  | LBA28
  | LBA48
deriving DecidableEq

/-- What `accessATA` makes of a sector number. -/
structure Addressing where
  lba_mode : LBAMode
  lba_io : Fin 6 → ℕ
  head : ℕ

def addressing (lba capabilities : ℕ) : Addressing :=
  if lba ≥ 0x10000000 then
    { lba_mode := .LBA48
      lba_io := ![lba % 2 ^ 8, lba / 2 ^ 8 % 2 ^ 8, lba / 2 ^ 16 % 2 ^ 8, lba / 2 ^ 24 % 2 ^ 8, 0, 0]
      head := 0 }
  else if capabilities &&& 0x200 ≠ 0 then
    { lba_mode := .LBA28
      lba_io := ![lba % 2 ^ 8, lba / 2 ^ 8 % 2 ^ 8, lba / 2 ^ 16 % 2 ^ 8, 0, 0, 0]
      head := lba / 2 ^ 24 % 2 ^ 4 }
  else
    let sect := lba % 63 + 1
    -- `cyl` is a `uint16_t`
    let cyl := (lba + 1 - sect) / (16 * 63) % 2 ^ 16
    { lba_mode := .CHS
      lba_io := ![sect, cyl % 2 ^ 8, cyl / 2 ^ 8 % 2 ^ 8, 0, 0, 0]
      head := (lba + 1 - sect) % (16 * 63) / 63 }

/-- There is no DMA. -/
def commandOf (writing : Bool) (lba_mode : LBAMode) : ℕ :=
  if writing then if lba_mode = .LBA48 then ATA_CMD_WRITE_PIO_EXT else ATA_CMD_WRITE_PIO
  else if lba_mode = .LBA48 then ATA_CMD_READ_PIO_EXT else ATA_CMD_READ_PIO

def driveSelect (slavebit : ℕ) (a : Addressing) : ℕ :=
  if a.lba_mode = .CHS then 0xa0 ||| slavebit <<< 4 ||| a.head else 0xe0 ||| slavebit <<< 4 ||| a.head

def writeHigh (channel : ℕ) (a : Addressing) : Action σ Unit :=
  if a.lba_mode = .LBA48 then do
    write channel ATA_REG_SECCOUNT1 0
    write channel ATA_REG_LBA3 (a.lba_io 3)
    write channel ATA_REG_LBA4 (a.lba_io 4)
    write channel ATA_REG_LBA5 (a.lba_io 5)
  else return ()

def program (channel slavebit numsects : ℕ) (writing : Bool) (a : Addressing) : Action σ Unit := do
  write channel ATA_REG_HDDEVSEL (driveSelect slavebit a)
  writeHigh channel a
  write channel ATA_REG_SECCOUNT0 numsects
  write channel ATA_REG_LBA0 (a.lba_io 0)
  write channel ATA_REG_LBA1 (a.lba_io 1)
  write channel ATA_REG_LBA2 (a.lba_io 2)
  write channel ATA_REG_COMMAND (commandOf writing a.lba_mode)

def transfer (fuel channel bus numsects : ℕ) (writing : Bool) (lba_mode : LBAMode) (buffer : List UInt8) :
    Action σ (ℕ × List UInt8) :=
  if !writing then readLoop fuel channel bus numsects []
  else do
    writeLoop fuel channel bus numsects buffer
    write channel ATA_REG_COMMAND (if lba_mode = .LBA48 then ATA_CMD_CACHE_FLUSH_EXT else ATA_CMD_CACHE_FLUSH)
    let _ ← polling fuel channel false
    return (0, [])

def disableInterrupts (channel : ℕ) : Action σ Unit := fun m =>
  (some (), { m with channels := Function.update m.channels channel { m.channels channel with nIEN := 0x02 } })

def accessATA (fuel : ℕ) (writing : Bool) (drive lba numsects : ℕ) (buffer : List UInt8) :
    Action σ (ℕ × List UInt8) := do
  let m ← getMachine
  let channel := (m.devices drive).channel
  disableInterrupts channel
  write channel ATA_REG_CONTROL 0x02
  let a := addressing lba (m.devices drive).capabilities
  waitReady channel fuel
  program channel (m.devices drive).drive numsects writing a
  transfer fuel channel (m.channels channel).base numsects writing a.lba_mode buffer

end

section Log
variable {σ α β : Type}

theorem bind_some {x : Action σ α} (f : α → Action σ β) {m m' : Machine σ} {a : α} (h : x m = (some a, m')) :
    (x >>= f) m = f a m' := by
  simp only [bind, OptionT.bind, OptionT.mk, StateT.bind, h]

theorem bind_none {x : Action σ α} (f : α → Action σ β) {m m' : Machine σ} (h : x m = (none, m')) :
    (x >>= f) m = (none, m') := by
  simp only [bind, OptionT.bind, OptionT.mk, StateT.bind, h]
  rfl

def Extends (x : Action σ α) : Prop := ∀ m, ∃ l, (x m).2.written = m.written ++ l

def Silent (x : Action σ α) : Prop := ∀ m, (x m).2.written = m.written

def Writes (x : Action σ Unit) (l : List (ℕ × ℕ)) : Prop :=
  ∀ m, ∃ m', x m = (some (), m') ∧ m'.written = m.written ++ l

theorem Silent.extends {x : Action σ α} (h : Silent x) :
    Extends x := fun m => ⟨[], by rw [h m, List.append_nil]⟩

theorem Writes.extends {x : Action σ Unit} {l : List (ℕ × ℕ)} (h : Writes x l) : Extends x := fun m => by
  obtain ⟨m', hrun, hlog⟩ := h m
  exact ⟨l, by rw [hrun, hlog]⟩

theorem Silent.bind {x : Action σ α} {f : α → Action σ β} (hx : Silent x) (hf : ∀ a, Silent (f a)) :
    Silent (x >>= f) := by
  intro m
  have hm := hx m
  rcases hrun : x m with ⟨_ | a, m'⟩
  · rw [bind_none f hrun]
    exact (congrArg (fun r => r.2.written) hrun).symm.trans hm
  · rw [bind_some f hrun]
    exact (hf a m').trans ((congrArg (fun r => r.2.written) hrun).symm.trans hm)

theorem Extends.bind {x : Action σ α} {f : α → Action σ β} (hx : Extends x) (hf : ∀ a, Extends (f a)) :
    Extends (x >>= f) := by
  intro m
  obtain ⟨l, hm⟩ := hx m
  rcases hrun : x m with ⟨_ | a, m'⟩
  · rw [bind_none f hrun]
    exact ⟨l, (congrArg (fun r => r.2.written) hrun).symm.trans hm⟩
  · rw [bind_some f hrun]
    obtain ⟨k, hk⟩ := hf a m'
    have hlog : m'.written = m.written ++ l := (congrArg (fun r => r.2.written) hrun).symm.trans hm
    exact ⟨l ++ k, by rw [hk, hlog, List.append_assoc]⟩

theorem Writes.bind {x y : Action σ Unit} {k l : List (ℕ × ℕ)} (hx : Writes x k) (hy : Writes y l) :
    Writes (x >>= fun _ => y) (k ++ l) := by
  intro m
  obtain ⟨m₁, hrun, hlog⟩ := hx m
  obtain ⟨m₂, hrun', hlog'⟩ := hy m₁
  refine ⟨m₂, ?_, by rw [hlog', hlog, List.append_assoc]⟩
  rw [bind_some _ hrun]
  exact hrun'

theorem silent_pure (a : α) : Silent (pure a : Action σ α) := fun _ => rfl

variable [Ports σ]

theorem outReg_silent (channel reg data : ℕ) (m : Machine σ) :
    ∃ m', outReg channel reg data m = (some (), m') ∧ m'.written = m.written := by
  refine ⟨_, rfl, ?_⟩
  cases portOf (m.channels channel) reg <;> rfl

theorem inReg_silent (channel reg : ℕ) : Silent (inReg channel reg : Action σ ℕ) := by
  intro m
  rw [inReg]
  cases portOf (m.channels channel) reg <;> rfl

theorem read_silent (channel reg : ℕ) : Silent (read channel reg : Action σ ℕ) := by
  have hout : ∀ data, Silent (outReg channel ATA_REG_CONTROL data : Action σ Unit) := by
    intro data m
    obtain ⟨m', hrun, hlog⟩ := outReg_silent channel ATA_REG_CONTROL data m
    rw [hrun]
    exact hlog
  refine Silent.bind (fun m => rfl) fun m => ?_
  split_ifs
  · exact (hout _).bind fun _ => (inReg_silent channel reg).bind fun a => (hout _).bind fun _ => silent_pure a
  · exact inReg_silent channel reg

theorem write_writes (channel reg data : ℕ) :
    Writes (write channel reg data : Action σ Unit) [(reg, data % 2 ^ 8)] := by
  intro m
  obtain ⟨m₀, hlog, hwritten⟩ : ∃ m₀,
      log reg data m = (some (), m₀) ∧ m₀.written = m.written ++ [(reg, data % 2 ^ 8)] :=
    ⟨_, rfl, rfl⟩
  have hmachine : getMachine m₀ = (some m₀, m₀) := rfl
  rw [write, bind_some _ hlog, bracket, bind_some _ hmachine]
  split_ifs
  · obtain ⟨m₁, hrun₁, h₁⟩ := outReg_silent channel ATA_REG_CONTROL (0x80 ||| (m₀.channels channel).nIEN) m₀
    obtain ⟨m₂, hrun₂, h₂⟩ := outReg_silent channel reg data m₁
    obtain ⟨m₃, hrun₃, h₃⟩ := outReg_silent channel ATA_REG_CONTROL (m₀.channels channel).nIEN m₂
    refine ⟨m₃, ?_, by rw [h₃, h₂, h₁, hwritten]⟩
    rw [bind_some _ hrun₁, bind_some _ hrun₂, bind_some _ hrun₃]
    rfl
  · obtain ⟨m₁, hrun₁, h₁⟩ := outReg_silent channel reg data m₀
    exact ⟨m₁, hrun₁, by rw [h₁, hwritten]⟩

theorem waitReady_silent (channel fuel : ℕ) : Silent (waitReady channel fuel : Action σ Unit) := by
  induction fuel with
  | zero => exact fun m => rfl
  | succ fuel ih =>
    refine (read_silent channel ATA_REG_STATUS).bind fun status => ?_
    split_ifs
    · exact ih
    · exact silent_pure ()

theorem polling_silent (fuel channel : ℕ) (advanced_check : Bool) :
    Silent (polling fuel channel advanced_check : Action σ ℕ) := by
  have hread := (read_silent channel ATA_REG_ALTSTATUS : Silent (read channel ATA_REG_ALTSTATUS : Action σ ℕ))
  refine hread.bind fun _ => hread.bind fun _ => hread.bind fun _ => hread.bind fun _ => ?_
  refine (waitReady_silent channel fuel).bind fun _ => ?_
  split_ifs
  · exact (read_silent channel ATA_REG_STATUS).bind fun _ => silent_pure _
  · exact silent_pure _

theorem readLoop_silent (fuel channel bus left : ℕ) (out : List UInt8) :
    Silent (readLoop fuel channel bus left out : Action σ (ℕ × List UInt8)) := by
  induction left generalizing out with
  | zero => exact silent_pure _
  | succ left ih =>
    refine (polling_silent fuel channel true).bind fun err => ?_
    split_ifs
    · exact silent_pure _
    · exact Silent.bind (fun m => rfl) fun bytes => ih (out ++ bytes)

theorem writeLoop_silent (fuel channel bus left : ℕ) (buffer : List UInt8) :
    Silent (writeLoop fuel channel bus left buffer : Action σ Unit) := by
  induction left generalizing buffer with
  | zero => exact silent_pure _
  | succ left ih =>
    exact (polling_silent fuel channel false).bind fun _ => Silent.bind (fun m => rfl) fun _ => ih
      (buffer.drop 512)

theorem transfer_extends (fuel channel bus numsects : ℕ) (writing : Bool) (lba_mode : LBAMode)
    (buffer : List UInt8) :
    Extends (transfer fuel channel bus numsects writing lba_mode buffer : Action σ (ℕ × List UInt8)) := by
  have hflush : ∀ data, Extends (do
      write channel ATA_REG_COMMAND data
      let _ ← polling fuel channel false
      return (0, []) : Action σ (ℕ × List UInt8)) := fun data =>
    (write_writes channel ATA_REG_COMMAND data).extends.bind fun _ =>
      ((polling_silent fuel channel false).bind fun _ => silent_pure _).extends
  rw [transfer]
  split_ifs
  · exact (readLoop_silent fuel channel bus numsects []).extends
  · exact (writeLoop_silent fuel channel bus numsects buffer).extends.bind fun _ => hflush _
  · exact (writeLoop_silent fuel channel bus numsects buffer).extends.bind fun _ => hflush _

end Log

section TaskFile
variable {σ : Type}

def sent (ws : List (ℕ × ℕ)) : Option ℕ := (ws.find? fun w => w.1 = ATA_REG_COMMAND).map Prod.snd

def register (ws : List (ℕ × ℕ)) (reg : ℕ) : ℕ :=
  (((ws.takeWhile fun w => w.1 ≠ ATA_REG_COMMAND).reverse.find? fun w => w.1 = reg).map Prod.snd).getD 0

def decode (lba_mode : LBAMode) (r : ℕ → ℕ) : ℕ :=
  match lba_mode with
  | .LBA48 => ((r ATA_REG_LBA3 * 2 ^ 8 + r ATA_REG_LBA2) * 2 ^ 8 + r ATA_REG_LBA1) * 2 ^ 8 + r ATA_REG_LBA0
  | .LBA28 => ((r ATA_REG_HDDEVSEL % 16 * 2 ^ 8 + r ATA_REG_LBA2) * 2 ^ 8 + r ATA_REG_LBA1) * 2 ^ 8 + r ATA_REG_LBA0
  | .CHS => ((r ATA_REG_LBA2 * 2 ^ 8 + r ATA_REG_LBA1) * 16 + r ATA_REG_HDDEVSEL % 16) * 63 + r ATA_REG_LBA0 - 1

/-- The registers stand for the sector, and the command is an extended one in the mode for it. -/
def Addresses (lba_mode : LBAMode) (ws : List (ℕ × ℕ)) (lba : ℕ) : Prop :=
  decode lba_mode (register ws) = lba ∧
    ∀ command, sent ws = some command →
      (command = ATA_CMD_READ_PIO_EXT ∨ command = ATA_CMD_WRITE_PIO_EXT ↔ lba_mode = .LBA48)

def programmedHigh (a : Addressing) : List (ℕ × ℕ) :=
  if a.lba_mode = .LBA48 then
    [(ATA_REG_SECCOUNT1, 0 % 2 ^ 8), (ATA_REG_LBA3, a.lba_io 3 % 2 ^ 8), (ATA_REG_LBA4, a.lba_io 4 % 2 ^ 8),
      (ATA_REG_LBA5, a.lba_io 5 % 2 ^ 8)]
  else []

def programmed (slavebit numsects : ℕ) (a : Addressing) : List (ℕ × ℕ) :=
  (ATA_REG_HDDEVSEL, driveSelect slavebit a % 2 ^ 8) :: (programmedHigh a ++
    [(ATA_REG_SECCOUNT0, numsects % 2 ^ 8), (ATA_REG_LBA0, a.lba_io 0 % 2 ^ 8), (ATA_REG_LBA1, a.lba_io 1 % 2 ^ 8),
      (ATA_REG_LBA2, a.lba_io 2 % 2 ^ 8)])

theorem programmed_command (slavebit numsects : ℕ) (a : Addressing) :
    ∀ w ∈ programmed slavebit numsects a, w.1 ≠ ATA_REG_COMMAND := by
  rw [programmed, programmedHigh]
  split_ifs <;> simp

theorem programmed_before (slavebit numsects : ℕ) (a : Addressing) :
    ∀ w ∈ (ATA_REG_CONTROL, 0x02) :: programmed slavebit numsects a, w.1 ≠ ATA_REG_COMMAND :=
  List.forall_mem_cons.mpr ⟨by decide, programmed_command slavebit numsects a⟩

theorem sent_split (ws l : List (ℕ × ℕ)) (c : ℕ) (h : ∀ w ∈ ws, w.1 ≠ ATA_REG_COMMAND) :
    sent (ws ++ (ATA_REG_COMMAND, c) :: l) = some c ∧
      ∀ reg, register (ws ++ (ATA_REG_COMMAND, c) :: l) reg =
        ((ws.reverse.find? fun w => w.1 = reg).map Prod.snd).getD 0 := by
  constructor
  · have hnone : ws.find? (fun w => w.1 = ATA_REG_COMMAND) = none :=
      List.find?_eq_none.mpr fun w hw => by simpa using h w hw
    rw [sent, List.find?_append, hnone]
    rfl
  · intro reg
    have hwhile : (ws ++ (ATA_REG_COMMAND, c) :: l).takeWhile (fun w => w.1 ≠ ATA_REG_COMMAND) = ws := by
      rw [List.takeWhile_append_of_pos fun w hw => decide_eq_true (h w hw),
        List.takeWhile_cons_of_neg (by simp), List.append_nil]
    rw [register, hwhile]

theorem driveSelect_low (slavebit : ℕ) (a : Addressing) (h : a.head < 16) :
    driveSelect slavebit a % 2 ^ 8 % 16 = a.head := by
  have hslave : slavebit <<< 4 % 2 ^ 4 = 0 := by
    rw [Nat.shiftLeft_eq]
    exact Nat.mul_mod_left slavebit _
  have hhead : a.head % 2 ^ 4 = a.head := Nat.mod_eq_of_lt h
  rw [Nat.mod_mod_of_dvd _ (by decide : 16 ∣ 2 ^ 8), driveSelect, show 16 = 2 ^ 4 from rfl]
  split_ifs
  · rw [Nat.or_mod_two_pow, Nat.or_mod_two_pow, hslave, hhead]
    exact Nat.zero_or _
  · rw [Nat.or_mod_two_pow, Nat.or_mod_two_pow, hslave, hhead]
    exact Nat.zero_or _

theorem register_programmed (slavebit numsects c : ℕ) (a : Addressing) (l : List (ℕ × ℕ))
    (hhead : a.head < 16) :
    let r := register ((ATA_REG_CONTROL, 0x02) :: programmed slavebit numsects a ++ (ATA_REG_COMMAND, c) :: l)
    r ATA_REG_HDDEVSEL % 16 = a.head ∧ r ATA_REG_LBA0 = a.lba_io 0 % 2 ^ 8 ∧ r ATA_REG_LBA1 = a.lba_io 1 % 2 ^ 8 ∧
      r ATA_REG_LBA2 = a.lba_io 2 % 2 ^ 8 ∧ (a.lba_mode = .LBA48 → r ATA_REG_LBA3 = a.lba_io 3 % 2 ^ 8) := by
  have hregister := (sent_split _ l c (programmed_before slavebit numsects a)).2
  have hselect := driveSelect_low slavebit a hhead
  dsimp only
  simp only [hregister]
  rw [programmed, programmedHigh]
  split_ifs with hmode
  · exact ⟨hselect, rfl, rfl, rfl, fun _ => rfl⟩
  · exact ⟨hselect, rfl, rfl, rfl, fun h => absurd h hmode⟩

theorem addressing_head (lba capabilities : ℕ) : (addressing lba capabilities).head < 16 := by
  rw [addressing]
  split_ifs
  · exact Nat.zero_lt_succ 15
  · exact Nat.mod_lt _ (by decide)
  · have hbelow : (lba + 1 - (lba % 63 + 1)) % (16 * 63) < 16 * 63 := Nat.mod_lt _ (by decide)
    exact Nat.div_lt_of_lt_mul (by omega)

theorem track_split (lba : ℕ) : (lba + 1 - (lba % 63 + 1)) / (16 * 63) = lba / 63 / 16 ∧
    (lba + 1 - (lba % 63 + 1)) % (16 * 63) / 63 = lba / 63 % 16 := by
  have htracks : lba + 1 - (lba % 63 + 1) = 63 * (lba / 63) := by omega
  rw [htracks]
  generalize lba / 63 = t
  constructor <;> omega

theorem cylinder_iff (t : ℕ) {s : ℕ} (hs : s < 63) :
    (t / 16 % 65536 * 16 + t % 16) * 63 + (s + 1) - 1 = 63 * t + s ↔ 63 * t + s < 65536 * (16 * 63) := by
  omega

theorem decode_iff (lba capabilities : ℕ) (hlba : lba < 2 ^ 32) (r : ℕ → ℕ)
    (hselect : r ATA_REG_HDDEVSEL % 16 = (addressing lba capabilities).head)
    (h₀ : r ATA_REG_LBA0 = (addressing lba capabilities).lba_io 0 % 2 ^ 8)
    (h₁ : r ATA_REG_LBA1 = (addressing lba capabilities).lba_io 1 % 2 ^ 8)
    (h₂ : r ATA_REG_LBA2 = (addressing lba capabilities).lba_io 2 % 2 ^ 8)
    (h₃ : (addressing lba capabilities).lba_mode = .LBA48 →
      r ATA_REG_LBA3 = (addressing lba capabilities).lba_io 3 % 2 ^ 8) :
    decode (addressing lba capabilities).lba_mode r = lba ↔
      0x10000000 ≤ lba ∨ capabilities &&& 0x200 ≠ 0 ∨ lba < 65536 * (16 * 63) := by
  by_cases hlarge : lba ≥ 0x10000000
  · have ha : addressing lba capabilities =
        ⟨.LBA48, ![lba % 2 ^ 8, lba / 2 ^ 8 % 2 ^ 8, lba / 2 ^ 16 % 2 ^ 8, lba / 2 ^ 24 % 2 ^ 8, 0, 0], 0⟩ :=
      if_pos hlarge
    rw [ha] at h₀ h₁ h₂ h₃ ⊢
    have h₃ := h₃ rfl
    change r ATA_REG_LBA0 = lba % 2 ^ 8 % 2 ^ 8 at h₀
    change r ATA_REG_LBA1 = lba / 2 ^ 8 % 2 ^ 8 % 2 ^ 8 at h₁
    change r ATA_REG_LBA2 = lba / 2 ^ 16 % 2 ^ 8 % 2 ^ 8 at h₂
    change r ATA_REG_LBA3 = lba / 2 ^ 24 % 2 ^ 8 % 2 ^ 8 at h₃
    refine iff_of_true ?_ (.inl hlarge)
    rw [decode, h₀, h₁, h₂, h₃]
    omega
  · by_cases hcapable : capabilities &&& 0x200 ≠ 0
    · have ha : addressing lba capabilities =
          ⟨.LBA28, ![lba % 2 ^ 8, lba / 2 ^ 8 % 2 ^ 8, lba / 2 ^ 16 % 2 ^ 8, 0, 0, 0], lba / 2 ^ 24 % 2 ^ 4⟩ :=
        (if_neg hlarge).trans (if_pos hcapable)
      rw [ha] at hselect h₀ h₁ h₂ ⊢
      change r ATA_REG_HDDEVSEL % 16 = lba / 2 ^ 24 % 2 ^ 4 at hselect
      change r ATA_REG_LBA0 = lba % 2 ^ 8 % 2 ^ 8 at h₀
      change r ATA_REG_LBA1 = lba / 2 ^ 8 % 2 ^ 8 % 2 ^ 8 at h₁
      change r ATA_REG_LBA2 = lba / 2 ^ 16 % 2 ^ 8 % 2 ^ 8 at h₂
      refine iff_of_true ?_ (.inr (.inl hcapable))
      rw [decode, hselect, h₀, h₁, h₂]
      omega
    · have ha : addressing lba capabilities =
          ⟨.CHS, ![lba % 63 + 1, (lba + 1 - (lba % 63 + 1)) / (16 * 63) % 2 ^ 16 % 2 ^ 8,
            (lba + 1 - (lba % 63 + 1)) / (16 * 63) % 2 ^ 16 / 2 ^ 8 % 2 ^ 8, 0, 0, 0],
            (lba + 1 - (lba % 63 + 1)) % (16 * 63) / 63⟩ :=
        (if_neg hlarge).trans (if_neg hcapable)
      rw [ha] at hselect h₀ h₁ h₂ ⊢
      change r ATA_REG_HDDEVSEL % 16 = (lba + 1 - (lba % 63 + 1)) % (16 * 63) / 63 at hselect
      change r ATA_REG_LBA0 = (lba % 63 + 1) % 2 ^ 8 at h₀
      change r ATA_REG_LBA1 = (lba + 1 - (lba % 63 + 1)) / (16 * 63) % 2 ^ 16 % 2 ^ 8 % 2 ^ 8 at h₁
      change r ATA_REG_LBA2 = (lba + 1 - (lba % 63 + 1)) / (16 * 63) % 2 ^ 16 / 2 ^ 8 % 2 ^ 8 % 2 ^ 8 at h₂
      obtain ⟨hcyl, hhead⟩ := track_split lba
      rw [hcyl] at h₁ h₂
      rw [hhead] at hselect
      have hwhole : (r ATA_REG_LBA2 * 2 ^ 8 + r ATA_REG_LBA1) = lba / 63 / 16 % 65536 := by omega
      have hsect : lba % 63 < 63 := Nat.mod_lt _ (by decide)
      have hbyte : (lba % 63 + 1) % 2 ^ 8 = lba % 63 + 1 := Nat.mod_eq_of_lt (by omega)
      rw [decode, hselect, h₀, hwhole, hbyte]
      have hmode : ¬ (0x10000000 ≤ lba ∨ capabilities &&& 0x200 ≠ 0) := by
        rintro (h | h)
        · exact hlarge h
        · exact hcapable h
      have hiff := cylinder_iff (lba / 63) hsect
      rw [Nat.div_add_mod lba 63] at hiff
      rw [← or_assoc, or_iff_right hmode]
      exact hiff

theorem extended_iff (writing : Bool) (lba_mode : LBAMode) :
    commandOf writing lba_mode % 2 ^ 8 = ATA_CMD_READ_PIO_EXT ∨
      commandOf writing lba_mode % 2 ^ 8 = ATA_CMD_WRITE_PIO_EXT ↔ lba_mode = .LBA48 := by
  cases writing <;> cases lba_mode <;> decide

theorem programmed_iff {lba capabilities : ℕ} (slavebit numsects : ℕ) (writing : Bool) (l : List (ℕ × ℕ))
    (hlba : lba < 2 ^ 32) :
    Addresses (addressing lba capabilities).lba_mode
      ((ATA_REG_CONTROL, 0x02) :: programmed slavebit numsects (addressing lba capabilities) ++
        (ATA_REG_COMMAND, commandOf writing (addressing lba capabilities).lba_mode % 2 ^ 8) :: l) lba ↔
      0x10000000 ≤ lba ∨ capabilities &&& 0x200 ≠ 0 ∨ lba < 65536 * (16 * 63) := by
  obtain ⟨hselect, h₀, h₁, h₂, h₃⟩ := register_programmed slavebit numsects
    (commandOf writing (addressing lba capabilities).lba_mode % 2 ^ 8) _ l (addressing_head lba capabilities)
  rw [Addresses, (sent_split _ l _ (programmed_before slavebit numsects _)).1,
    decode_iff lba _ hlba _ hselect h₀ h₁ h₂ h₃]
  apply and_iff_left
  rintro command ⟨⟩
  exact extended_iff writing _

variable [Ports σ]

theorem writeHigh_writes (channel : ℕ) (a : Addressing) :
    Writes (writeHigh channel a : Action σ Unit) (programmedHigh a) := by
  have hwrite :=
    fun reg data => (write_writes channel reg data : Writes (write channel reg data : Action σ Unit) _)
  rw [writeHigh, programmedHigh]
  split_ifs
  · exact (hwrite _ _).bind ((hwrite _ _).bind ((hwrite _ _).bind (hwrite _ _)))
  · exact fun m => ⟨m, rfl, (List.append_nil _).symm⟩

theorem program_writes (channel slavebit numsects : ℕ) (writing : Bool) (a : Addressing) :
    Writes (program channel slavebit numsects writing a : Action σ Unit)
      (programmed slavebit numsects a ++ [(ATA_REG_COMMAND, commandOf writing a.lba_mode % 2 ^ 8)]) := by
  have hwrite :=
    fun reg data => (write_writes channel reg data : Writes (write channel reg data : Action σ Unit) _)
  have hall := (hwrite ATA_REG_HDDEVSEL (driveSelect slavebit a)).bind ((writeHigh_writes channel a).bind
    ((hwrite ATA_REG_SECCOUNT0 numsects).bind ((hwrite ATA_REG_LBA0 (a.lba_io 0)).bind (
      (hwrite ATA_REG_LBA1 (a.lba_io 1)).bind
      ((hwrite ATA_REG_LBA2 (a.lba_io 2)).bind (hwrite ATA_REG_COMMAND (commandOf writing a.lba_mode)))))))
  rw [program, programmed, List.cons_append, List.append_assoc]
  exact hall

/-- What the driver writes: if the drive does not stay busy for ever, the parameters and the command. -/
theorem accessATA_written (fuel : ℕ) (writing : Bool) (drive lba numsects : ℕ) (buffer : List UInt8)
    (m : Machine σ) (hm : m.written = []) :
    (∃ m' : Machine σ, (waitReady (m.devices drive).channel fuel m').1 = none) ∧
      (accessATA fuel writing drive lba numsects buffer m).2.written = [(ATA_REG_CONTROL, 0x02)] ∨
    ∃ l, (accessATA fuel writing drive lba numsects buffer m).2.written =
      (ATA_REG_CONTROL, 0x02) ::
          programmed (m.devices drive).drive numsects (addressing lba (m.devices drive).capabilities) ++
        (ATA_REG_COMMAND, commandOf writing (addressing lba (m.devices drive).capabilities).lba_mode % 2 ^ 8) :: l := by
  obtain ⟨m₀, hdisable, h₀⟩ : ∃ m₀, disableInterrupts (m.devices drive).channel m = (some (), m₀) ∧
      m₀.written = m.written := ⟨_, rfl, rfl⟩
  obtain ⟨m₁, hcontrol, h₁⟩ := write_writes (m.devices drive).channel ATA_REG_CONTROL 0x02 m₀
  have hmachine : getMachine m = (some m, m) := rfl
  rw [h₀, hm, List.nil_append] at h₁
  rw [accessATA, bind_some _ hmachine]
  dsimp only
  rw [bind_some _ hdisable, bind_some _ hcontrol]
  have hwait := waitReady_silent (m.devices drive).channel fuel m₁
  rw [h₁] at hwait
  rcases hrun : waitReady (m.devices drive).channel fuel m₁ with ⟨_ | u, m₂⟩
  · rw [bind_none _ hrun]
    rw [hrun] at hwait
    exact .inl ⟨⟨m₁, by rw [hrun]⟩, hwait⟩
  · rw [hrun] at hwait
    obtain ⟨m₃, hprogram, h₃⟩ :=
      program_writes (m.devices drive).channel (m.devices drive).drive numsects writing
      (addressing lba (m.devices drive).capabilities) m₂
    obtain ⟨l, hl⟩ :=
      transfer_extends fuel (m.devices drive).channel (m.channels (m.devices drive).channel).base
      numsects writing (addressing lba (m.devices drive).capabilities).lba_mode buffer m₃
    refine .inr ⟨l, ?_⟩
    rw [bind_some _ hrun, bind_some _ hprogram, hl, h₃]
    change m₂.written = _ at hwait
    rw [hwait]
    simp only [List.append_assoc, List.cons_append, List.nil_append]
    rfl

/-- The task file stands for the sector in each mode, except that of a drive without LBA that is too large for cylinders
of 16 bits. -/
theorem addressed_iff (fuel : ℕ) (writing : Bool) (drive lba numsects : ℕ) (buffer : List UInt8) (m : Machine σ)
    (hm : m.written = []) (hlba : lba < 2 ^ 32)
    (hsent : sent (accessATA fuel writing drive lba numsects buffer m).2.written ≠ none) :
    Addresses (addressing lba (m.devices drive).capabilities).lba_mode
        (accessATA fuel writing drive lba numsects buffer m).2.written lba ↔
      0x10000000 ≤ lba ∨ (m.devices drive).capabilities &&& 0x200 ≠ 0 ∨ lba < 65536 * (16 * 63) := by
  rcases accessATA_written fuel writing drive lba numsects buffer m hm with ⟨-, hbusy⟩ | ⟨l, hlog⟩
  · rw [hbusy] at hsent
    exact absurd rfl hsent
  · rw [hlog]
    exact programmed_iff (m.devices drive).drive numsects writing l hlba

end TaskFile

section Sample

structure Idle where

instance : Ports Idle where
  inb _ d := (0x58, d)
  outb _ _ d := d
  insw _ _ d := ([], d)
  outsw _ _ d := d

def idleMachine (capabilities : ℕ) : Machine Idle where
  devices _ := ⟨0, 0, capabilities⟩
  channels _ := ⟨0x1f0, 0x3f6, 0, 0⟩
  hardware := ⟨⟩
  written := []

theorem idle_written (lba capabilities : ℕ) :
    ∃ l, (accessATA 1 false 0 lba 1 [] (idleMachine capabilities)).2.written =
    (ATA_REG_CONTROL, 0x02) :: programmed 0 1 (addressing lba capabilities) ++
      (ATA_REG_COMMAND, commandOf false (addressing lba capabilities).lba_mode % 2 ^ 8) :: l := by
  rcases accessATA_written 1 false 0 lba 1 [] (idleMachine capabilities) rfl with ⟨⟨m', hnone⟩, -⟩ | hlog
  · have hread : read 0 ATA_REG_STATUS m' = (some 0x58, m') := rfl
    have hready : (waitReady 0 1 m').1 = some () := by
      rw [waitReady, bind_some _ hread]
      rfl
    exact absurd (hready.symm.trans hnone) (by decide)
  · exact hlog

theorem idle_sent (lba capabilities : ℕ) :
    sent (accessATA 1 false 0 lba 1 [] (idleMachine capabilities)).2.written ≠ none := by
  obtain ⟨l, hlog⟩ := idle_written lba capabilities
  rw [hlog, (sent_split _ l _ (programmed_before 0 1 (addressing lba capabilities))).1]
  exact Option.some_ne_none _

theorem addressed_lba28 : Addresses (addressing 1000000 0x200).lba_mode
    (accessATA 1 false 0 1000000 1 [] (idleMachine 0x200)).2.written 1000000 :=
  (addressed_iff 1 false 0 1000000 1 [] (idleMachine 0x200) rfl (by decide) (idle_sent 1000000 0x200)).mpr
    (.inr (.inl (by decide)))

/-- The first sector of cylinder 65536 is looked for in cylinder 0. -/
theorem addressed_wrong : sent (accessATA 1 false 0 66060288 1 [] (idleMachine 0)).2.written ≠ none ∧
    ¬ Addresses (addressing 66060288 0).lba_mode
      (accessATA 1 false 0 66060288 1 [] (idleMachine 0)).2.written 66060288 := by
  refine ⟨idle_sent 66060288 0, fun h => ?_⟩
  obtain ⟨l, hlog⟩ := idle_written 66060288 0
  rw [hlog] at h
  rcases (programmed_iff 0 1 false l (by decide)).mp h with habs | habs | habs
  · exact absurd habs (by decide)
  · exact habs (by decide)
  · exact absurd habs (by decide)

end Sample

end Thorn.IDEPorts
