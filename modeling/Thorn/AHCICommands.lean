import Thorn.AHCIDevice

set_option autoImplicit false

namespace Thorn.AHCICommands
open ByteStore AHCI

abbrev SPIN_COUNT : ℕ := 1000
abbrev BLOCKSIZE : ℕ := 512

def HBA_PxCMD_ST : BitVec 32 := 0x0001
def HBA_PxCMD_FRE : BitVec 32 := 0x0010
def HBA_PxCMD_FR : BitVec 32 := 0x4000
def HBA_PxCMD_CR : BitVec 32 := 0x8000
def HBA_PxIS_TFES : BitVec 32 := 1 <<< 30
def ATA_DEV_BUSY : BitVec 32 := 0x80
def ATA_DEV_DRQ : BitVec 32 := 0x08
def SIG_ATAPI : BitVec 32 := 0xeb140101
def SIG_SEMB : BitVec 32 := 0xc33c0101
def SIG_PM : BitVec 32 := 0x96690101
def HBA_PORT_IPM_ACTIVE : BitVec 32 := 1
def HBA_PORT_DET_PRESENT : BitVec 32 := 3

inductive DeviceType
  | Null
  | SATA
  | SEMB
  | PortMultiplier
  | SATAPI
deriving DecidableEq

namespace Command
def IdentifyDevice : ℕ := 0xec
def IdentifyPacketDevice : ℕ := 0xa1
def ReadDMAExt : ℕ := 0x25
def WriteDMAExt : ℕ := 0x35
end Command

/-- The fields that a command sets; the others are zero. -/
structure FISRegH2D where
  type : ℕ := 0x27
  c : Bool := true
  pmport : ℕ := 0
  command : ℕ
  lba0 : ℕ := 0
  lba1 : ℕ := 0
  lba2 : ℕ := 0
  device : ℕ := 0
  lba3 : ℕ := 0
  lba4 : ℕ := 0
  lba5 : ℕ := 0
  countLow : ℕ := 0
  countHigh : ℕ := 0
  control : ℕ := 0

/-- The fields that a command sets; the others stay as they are. -/
structure HBACommandHeader where
  cfl : ℕ := 5
  atapi : Bool := false
  write : Bool := false
  clearBusy : Bool := false
  prefetchable : Bool := false
  prdbc : ℕ := 0
  pmport : ℕ := 0

structure HBAPRDTEntry where
  dba : ℕ
  dbaUpper : ℕ
  dbc : ℕ
  interrupt : Bool

structure HBACommandTable where
  cfis : FISRegH2D
  prdtEntry : HBAPRDTEntry

/-- The registers of the port, and `cap` of the controller. -/
inductive Register
  | is
  | ie
  | cmd
  | tfd
  | sig
  | ssts
  | serr
  | sact
  | ci
  | cap
deriving DecidableEq

/-- A device with its registers and the memory it shares with the driver. An access may change it. -/
class HBAPort (σ : Type) where
  load : Register → σ → BitVec 32 × σ
  store : Register → BitVec 32 → σ → σ
  setHeader : (slot : ℕ) → HBACommandHeader → σ → σ
  setTable : (slot : ℕ) → HBACommandTable → σ → σ
  bytes : (address length : ℕ) → σ → List UInt8
  /-- `Kernel::wait(1, 1000)`. -/
  wait : σ → σ

structure Port where
  type : DeviceType
  physicalBuffers : ℕ → ℕ

/-- `slots` is signed: the shift copies its highest bit. The first argument is the number of slots that are left. -/
def slotLoop : ℕ → ℕ → BitVec 32 → ℤ
  | 0, _, _ => -1
  | left + 1, i, slots => if slots &&& 1 = 0 then i else slotLoop left (i + 1) (slots.sshiftRight 1)

/-- `Port::getCommandSlot`, from the values of the registers. -/
def getCommandSlot (sact ci cap : BitVec 32) : ℤ :=
  let slots := sact ||| ci
  let command_slots := (cap &&& 0xf00) >>> 8
  slotLoop command_slots.toNat 0 slots

/-- A wait: its condition, which is true as long as the device is busy, and the body of its loop, which is true
when the function returns from there. -/
structure Wait (σ : Type) where
  poll : σ → Bool × σ
  body : σ → Bool × σ

/-- How a wait ended: the counter, what the last poll saw, and whether the function returned. -/
structure Spun (σ : Type) where
  spin : ℤ
  busy : Bool
  left : Bool
  dev : σ

/-- `while (poll && spin--) body`. -/
def Wait.run {σ : Type} (w : Wait σ) : ℕ → σ → Spun σ
  | spin, d =>
    let p := w.poll d
    if p.1 then
      match spin with
      | 0 => ⟨-1, true, false, p.2⟩
      | spin + 1 =>
        let b := w.body p.2
        if b.1 then ⟨spin, true, true, b.2⟩ else w.run spin b.2
    else ⟨spin, false, false, p.2⟩

/-- The device, and the waits so far with the states in which they began. -/
structure Session (σ : Type) where
  dev : σ
  waits : List (Wait σ × σ)

abbrev Action (σ α : Type) := StateM (Session σ) α

section
variable {σ : Type} [HBAPort σ]

def load (register : Register) : Action σ (BitVec 32) := fun s =>
  let r := HBAPort.load register s.dev
  (r.1, { s with dev := r.2 })

def store (register : Register) (value : BitVec 32) : Action σ Unit := fun s =>
  ((), { s with dev := HBAPort.store register value s.dev })

def setHeader (slot : ℕ) (header : HBACommandHeader) : Action σ Unit := fun s =>
  ((), { s with dev := HBAPort.setHeader slot header s.dev })

def setTable (slot : ℕ) (table : HBACommandTable) : Action σ Unit := fun s =>
  ((), { s with dev := HBAPort.setTable slot table s.dev })

def copyOut (address length : ℕ) : Action σ (List UInt8) := fun s => (HBAPort.bytes address length s.dev, s)

/-- `while ((registers->tfd & (ATA_DEV_BUSY | ATA_DEV_DRQ)) && spin--) Kernel::wait(1, 1000);` -/
def tfdWait : Wait σ where
  poll d :=
    let r := HBAPort.load .tfd d
    (decide (r.1 &&& (ATA_DEV_BUSY ||| ATA_DEV_DRQ) ≠ 0), r.2)
  body d := (false, HBAPort.wait d)

/-- The wait for a command; a task file error ends it. -/
def ciWait (slot : ℕ) : Wait σ where
  poll d :=
    let r := HBAPort.load .ci d
    (decide (r.1 &&& 1 <<< slot ≠ 0), r.2)
  body d :=
    let r := HBAPort.load .is d
    if r.1 &&& HBA_PxIS_TFES ≠ 0 then (true, r.2) else (false, HBAPort.wait r.2)

/-- The wait of `stop`. The second register access is made only if the first one found `FR` clear. -/
def stopWait : Wait σ where
  poll d :=
    let r := HBAPort.load .cmd d
    if r.1 &&& HBA_PxCMD_FR = 0 then
      let r := HBAPort.load .cmd r.2
      (decide (r.1 &&& HBA_PxCMD_CR ≠ 0), r.2)
    else (true, r.2)
  body d := (false, HBAPort.wait d)

def spinFor (w : Wait σ) : Action σ (Spun σ) := fun s =>
  let r := w.run SPIN_COUNT s.dev
  (r, ⟨r.dev, s.waits ++ [(w, s.dev)]⟩)

/-- `while (spin--) { if (!busy) break; wait }`. The counter runs out only after a poll that was busy. -/
def stopLoop : ℕ → σ → Spun σ
  | 0, d => ⟨-1, true, false, d⟩
  | spin + 1, d =>
    let p := stopWait.poll d
    if p.1 then stopLoop spin (stopWait.body p.2).2 else ⟨spin, false, false, p.2⟩

def stopRequest : Action σ Unit := do
  let cmd ← load .cmd
  store .cmd (cmd &&& ~~~HBA_PxCMD_ST)
  let cmd ← load .cmd
  store .cmd (cmd &&& ~~~HBA_PxCMD_FRE)

/-- True when it prints that the port hung. -/
def stop : Action σ Bool := do
  stopRequest
  let w ← fun s =>
    let r := stopLoop SPIN_COUNT s.dev
    (r, { s with dev := r.dev })
  let cmd ← load .cmd
  store .cmd (cmd &&& ~~~HBA_PxCMD_FRE)
  return decide (w.spin ≤ 0)

def start : Action σ Unit := do
  let cmd ← load .cmd
  store .cmd (cmd ||| HBA_PxCMD_FRE)
  let cmd ← load .cmd
  store .cmd (cmd ||| HBA_PxCMD_ST)
  store .is 0

def identifyDevice : Action σ DeviceType := do
  let ssts ← load .ssts
  let ipm := (ssts >>> 8) &&& 0x0f
  let ssts ← load .ssts
  let det := ssts &&& 0x0f
  if det ≠ HBA_PORT_DET_PRESENT ∨ ipm ≠ HBA_PORT_IPM_ACTIVE then return .Null
  else do
    let sig ← load .sig
    return if sig = SIG_ATAPI then .SATAPI
      else if sig = SIG_SEMB then .SEMB
      else if sig = SIG_PM then .PortMultiplier
      else .SATA

def commandSlot : Action σ ℤ := do
  let sact ← load .sact
  let ci ← load .ci
  let cap ← load .cap
  return getCommandSlot sact ci cap

/-- The ways in which `identify` returns. -/
inductive Identified
  | noSlot
  | hung
  | diskError
  | info (out : List UInt8)

/-- `identify` from its command on. -/
def identifyIssued (port : Port) (slot : ℕ) : Action σ Identified := do
  store .is 0xffffffff
  store .ie 0xffffffff
  start
  let sact ← load .sact
  store .sact (sact ||| 1 <<< slot)
  let ci ← load .ci
  store .ci (ci ||| 1 <<< slot)
  let w ← spinFor (ciWait slot)
  if w.left then do
    let _ ← load .serr
    let _ ← stop
    return .diskError
  else do
    let _ ← stop
    let _ ← spinFor tfdWait
    let is ← load .is
    if is &&& HBA_PxIS_TFES ≠ 0 then do
      let _ ← load .serr
      let _ ← stop
      return .diskError
    else do
      let out ← copyOut (port.physicalBuffers 0) 512
      return .info out

def identifySlot : Action σ ℤ := do
  store .ie 0xffffffff
  store .is 0
  store .tfd 0
  commandSlot

def identifyTable (buffer : ℕ) (type : DeviceType) : HBACommandTable where
  cfis := { command := if type = .SATAPI then Command.IdentifyPacketDevice else Command.IdentifyDevice }
  prdtEntry :=
    { dba := buffer % 2 ^ 32
      dbaUpper := buffer / 2 ^ 32 % 2 ^ 32
      dbc := BLOCKSIZE - 1
      interrupt := true }

def identify (port : Port) : Action σ Identified := do
  let slot ← identifySlot
  if slot = -1 then return .noSlot
  else do
    let type ← identifyDevice
    setHeader slot.toNat {}
    setTable slot.toNat (identifyTable (port.physicalBuffers 0) type)
    let w ← spinFor tfdWait
    if 0 ≤ w.spin then return .hung
    else identifyIssued port slot.toNat

def accessTable (lba count buffer : ℕ) (write : Bool) : HBACommandTable where
  cfis :=
    { command := if write then Command.WriteDMAExt else Command.ReadDMAExt
      lba0 := lba % 2 ^ 8
      lba1 := lba / 2 ^ 8 % 2 ^ 8
      lba2 := lba / 2 ^ 16 % 2 ^ 8
      device := 2 ^ 6
      lba3 := lba / 2 ^ 24 % 2 ^ 8
      lba4 := lba / 2 ^ 32 % 2 ^ 8
      lba5 := lba / 2 ^ 40 % 2 ^ 8
      countLow := count % 2 ^ 8
      countHigh := count / 2 ^ 8 % 2 ^ 8
      control := 8 }
  prdtEntry :=
    { dba := buffer % 2 ^ 32
      dbaUpper := buffer / 2 ^ 32 % 2 ^ 32
      dbc := (BLOCKSIZE * count + (2 ^ 22 - 1)) % 2 ^ 22
      interrupt := true }

def accessIssued (slot : ℕ) : Action σ AccessStatus := do
  store .ie 0xffffffff
  store .is 0xffffffff
  start
  let ci ← load .ci
  store .ci (ci ||| 1 <<< slot)
  let w ← spinFor (ciWait slot)
  if w.left then do
    let _ ← load .serr
    let _ ← stop
    return .DiskError
  else if w.spin ≤ 0 then return .Hung
  else do
    let w ← spinFor tfdWait
    let _ ← stop
    if w.spin ≤ 0 then return .Hung
    else do
      let is ← load .is
      if is &&& HBA_PxIS_TFES ≠ 0 then do
        let _ ← load .serr
        return .DiskError
      else return .Success

def access (port : Port) (lba count buffer : ℕ) (write : Bool) : Action σ AccessStatus := do
  store .ie 0xffffffff
  store .is 0
  let slot ← commandSlot
  if slot = -1 then return .BadSlot
  else do
    store .serr 0
    store .tfd 0
    setHeader slot.toNat { atapi := decide (port.type = .SATAPI), write := write }
    setTable slot.toNat (accessTable lba count buffer write)
    let w ← spinFor tfdWait
    if w.spin ≤ 0 then return .Hung
    else accessIssued slot.toNat

end

section Slots
variable {sact ci cap : BitVec 32}

/-- A slot that neither register shows to be in use. -/
def Free (sact ci : BitVec 32) (slot : ℕ) : Prop := sact.getLsbD slot = false ∧ ci.getLsbD slot = false

instance (sact ci : BitVec 32) (slot : ℕ) : Decidable (Free sact ci slot) := inferInstanceAs (Decidable (_ ∧ _))

def advertised (cap : BitVec 32) : ℕ := ((cap >>> 8) &&& 0x1f).toNat + 1

/-- The number of slots that `getCommandSlot` looks at. -/
def scanned (cap : BitVec 32) : ℕ := ((cap &&& 0xf00) >>> 8).toNat

def Usable (sact ci cap : BitVec 32) (slot : ℕ) : Prop := Free sact ci slot ∧ slot < advertised cap ∧ slot < 8

def Chosen (sact ci cap : BitVec 32) (slot : ℤ) : Prop :=
  (slot = -1 ∧ ∀ i, ¬ Usable sact ci cap i) ∨ ∃ i : ℕ, slot = i ∧ Usable sact ci cap i

theorem scanned_eq (cap : BitVec 32) : scanned cap = cap.toNat / 256 % 16 := by
  have h : (cap &&& 0xf00) >>> 8 = (cap >>> 8) &&& 0xf#32 := by
    rw [BitVec.ushiftRight_and_distrib]
    rfl
  rw [scanned, h, BitVec.toNat_and, BitVec.toNat_ushiftRight, Nat.shiftRight_eq_div_pow]
  exact Nat.and_two_pow_sub_one_eq_mod _ 4

theorem advertised_eq (cap : BitVec 32) : advertised cap = cap.toNat / 256 % 32 + 1 := by
  rw [advertised, BitVec.toNat_and, BitVec.toNat_ushiftRight, Nat.shiftRight_eq_div_pow]
  exact congrArg (· + 1) (Nat.and_two_pow_sub_one_eq_mod _ 5)

theorem scanned_lt (cap : BitVec 32) : scanned cap < advertised cap := by
  rw [scanned_eq, advertised_eq]
  omega

theorem lowest_clear (slots : BitVec 32) : slots &&& 1 = 0 ↔ slots.getLsbD 0 = false := by
  have h := BitVec.and_one_eq_setWidth_ofBool_getLsbD (x := slots)
  change slots &&& 1#32 = 0 ↔ _
  rw [h]
  cases slots.getLsbD 0 <;> decide

theorem shifted (slots : BitVec 32) {k : ℕ} (h : k < 31) :
    (slots.sshiftRight 1).getLsbD k = slots.getLsbD (k + 1) := by
  have hinside : ¬ 32 ≤ k := by omega
  have hnext : 1 + k < 32 := by omega
  rw [BitVec.getLsbD_sshiftRight, if_pos hnext, decide_eq_false hinside, Nat.add_comm]
  rfl

theorem slotLoop_first (left i : ℕ) (slots : BitVec 32) (hleft : left < 32) :
    (slotLoop left i slots = -1 ∧ ∀ k < left, slots.getLsbD k = true) ∨
    ∃ k < left, slotLoop left i slots = (i + k : ℕ) ∧ slots.getLsbD k = false ∧ ∀ l < k, slots.getLsbD l = true := by
  induction left generalizing i slots with
  | zero => exact .inl ⟨rfl, fun k hk => absurd hk (Nat.not_lt_zero k)⟩
  | succ left ih =>
    rw [slotLoop]
    by_cases hclear : slots &&& 1 = 0
    · rw [if_pos hclear]
      exact .inr ⟨0, Nat.succ_pos left, rfl, (lowest_clear slots).mp hclear,
        fun l hl => absurd hl (Nat.not_lt_zero l)⟩
    · have hset : slots.getLsbD 0 = true :=
        (Bool.not_eq_false _).mp fun h => hclear ((lowest_clear slots).mpr h)
      have hbelow : ∀ {n}, n ≤ left → (∀ k < n, (slots.sshiftRight 1).getLsbD k = true) → ∀ k < n + 1,
          slots.getLsbD k = true := by
        intro n hn h k hk
        cases k with
        | zero => exact hset
        | succ k => exact (shifted slots (by omega)).symm.trans (h k (by omega))
      rw [if_neg hclear]
      rcases ih (i + 1) (slots.sshiftRight 1) (by omega) with ⟨hnone, hall⟩ | ⟨k, hk, hfound, hfree, hall⟩
      · exact .inl ⟨hnone, hbelow (Nat.le_refl left) hall⟩
      · refine .inr ⟨k + 1, by omega, ?_, (shifted slots (by omega)).symm.trans hfree, hbelow (by omega) hall⟩
        rw [hfound, Nat.add_assoc, Nat.add_comm 1]

theorem free_iff (sact ci : BitVec 32) (slot : ℕ) : (sact ||| ci).getLsbD slot = false ↔ Free sact ci slot := by
  rw [BitVec.getLsbD_or, Bool.or_eq_false_iff]
  rfl

theorem busy_iff (sact ci : BitVec 32) (slot : ℕ) :
    (sact ||| ci).getLsbD slot = true ↔ ¬ Free sact ci slot := by
  rw [← free_iff, Bool.not_eq_false]

theorem getCommandSlot_first (sact ci cap : BitVec 32) :
    (getCommandSlot sact ci cap = -1 ∧ ∀ i < scanned cap, ¬ Free sact ci i) ∨
    ∃ i < scanned cap, getCommandSlot sact ci cap = i ∧ Free sact ci i ∧ ∀ j < i, ¬ Free sact ci j := by
  have hsmall : scanned cap < 32 := by
    rw [scanned_eq]
    omega
  rcases slotLoop_first (scanned cap) 0 (sact ||| ci) hsmall with ⟨hnone, hall⟩ | ⟨i, hi, hfound, hfree, hall⟩
  · exact .inl ⟨hnone, fun i hi => (busy_iff sact ci i).mp (hall i hi)⟩
  · rw [Nat.zero_add] at hfound
    exact .inr ⟨i, hi, hfound, (free_iff sact ci i).mp hfree, fun j hj => (busy_iff sact ci j).mp (hall j hj)⟩

/-- The slot is right just when the scan meets a free slot with a command table, or when the slots it does not
look at are in use as well, and it has not gone on to one without a table. -/
theorem slot_chosen_iff (sact ci cap : BitVec 32) : Chosen sact ci cap (getCommandSlot sact ci cap) ↔
    (∃ i < min (scanned cap) 8, Free sact ci i) ∨
      ∀ i < max (scanned cap) (min (advertised cap) 8), ¬ Free sact ci i := by
  have hless := scanned_lt cap
  rcases getCommandSlot_first sact ci cap with ⟨hnone, hbusy⟩ | ⟨i, hi, hfound, hfree, hbusy⟩
  · rw [hnone]
    constructor
    · rintro (⟨-, hunusable⟩ | ⟨i, hi, -⟩)
      · refine .inr fun i hi hfree => ?_
        by_cases hscanned : i < scanned cap
        · exact hbusy i hscanned hfree
        · exact hunusable i ⟨hfree, by omega, by omega⟩
      · exact absurd hi (by omega)
    · rintro (⟨i, hi, hfree⟩ | hall)
      · exact absurd hfree (hbusy i (by omega))
      · exact .inl ⟨rfl, fun i ⟨hfree, hadvertised, htable⟩ => hall i (by omega) hfree⟩
  · rw [hfound]
    constructor
    · rintro (⟨hnone, -⟩ | ⟨j, hj, -, -, htable⟩)
      · exact absurd hnone (by omega)
      · exact .inl ⟨i, by omega, hfree⟩
    · rintro (⟨j, hj, hfreeAt⟩ | hall)
      · have hfirst : i ≤ j := Nat.le_of_not_lt fun h => hbusy j h hfreeAt
        exact .inr ⟨i, rfl, hfree, by omega, by omega⟩
      · exact absurd hfree (hall i (by omega))

/-- A controller with one slot gets none, although it is free. -/
theorem single_slot_missed : ¬ Chosen 0 0 0 (getCommandSlot 0 0 0) := by
  rintro (⟨-, hnone⟩ | ⟨i, hi, -⟩)
  · exact hnone 0 ⟨by decide, by decide, by decide⟩
  · have hval : getCommandSlot 0 0 0 = -1 := by decide
    rw [hval] at hi
    exact absurd hi (by omega)

end Slots

section Waits
variable {σ : Type}

/-- Every poll is busy but the last one that the counter allows. -/
def Wait.late (w : Wait σ) : ℕ → σ → Bool
  | 0, d => !(w.poll d).1
  | spin + 1, d =>
    let p := w.poll d
    let b := w.body p.2
    p.1 && !b.1 && w.late spin b.2

/-- What a wait leaves: by a return, by the last poll, by the counter, or by an earlier poll. -/
theorem Wait.run_ends (w : Wait σ) (spin : ℕ) (d : σ) :
    ((w.run spin d).left = true ∧ w.late spin d = false) ∨ (w.run spin d).left = false ∧
      ((w.late spin d = true ∧ (w.run spin d).busy = false ∧ (w.run spin d).spin = 0) ∨
      (w.late spin d = false ∧ (w.run spin d).busy = true ∧ (w.run spin d).spin = -1) ∨
      (w.late spin d = false ∧ (w.run spin d).busy = false ∧ 0 < (w.run spin d).spin)) := by
  induction spin generalizing d with
  | zero =>
    rw [Wait.run, Wait.late]
    cases hpoll : (w.poll d).1 with
    | false => exact .inr ⟨rfl, .inl ⟨rfl, rfl, rfl⟩⟩
    | true => exact .inr ⟨rfl, .inr (.inl ⟨rfl, rfl, rfl⟩)⟩
  | succ spin ih =>
    rw [Wait.run, Wait.late]
    cases hpoll : (w.poll d).1 with
    | false => exact .inr ⟨rfl, .inr (.inr ⟨rfl, rfl, Int.natCast_pos.mpr (Nat.succ_pos spin)⟩)⟩
    | true =>
      cases hbody : (w.body (w.poll d).2).1 with
      | false =>
        simp only [hbody, if_true, Bool.true_and, Bool.not_false, Bool.false_eq_true, if_false]
        exact ih (w.body (w.poll d).2).2
      | true =>
        simp only [hbody, if_true, Bool.not_true, Bool.and_false, Bool.false_and]
        exact .inl ⟨trivial, trivial⟩

/-- The last register value that was polled showed the device busy. A return from the body comes after another value. -/
def Spun.EndsBusy (r : Spun σ) : Prop := r.busy = true ∧ r.left = false

/-- The port is taken for hung just if the last value was busy. -/
def Judged (hung : Prop) (w : Wait σ) (d : σ) : Prop := hung ↔ (w.run SPIN_COUNT d).EndsBusy

def Judges (r : AccessStatus × Session σ) : Prop :=
  ∀ i w d, r.2.waits[i]? = some (w, d) → Judged (r.1 = .Hung ∧ i + 1 = r.2.waits.length) w d

def Passed (x : Wait σ × σ) : Prop := (x.1.run SPIN_COUNT x.2).left = false ∧ 0 < (x.1.run SPIN_COUNT x.2).spin

def Timely (x : Wait σ × σ) : Prop := x.1.late SPIN_COUNT x.2 = false

theorem Passed.timely {x : Wait σ × σ} (h : Passed x) : Timely x ∧ (x.1.run SPIN_COUNT x.2).busy = false := by
  obtain ⟨hleft, hspin⟩ := h
  rcases x.1.run_ends SPIN_COUNT x.2 with ⟨hout, -⟩ | ⟨-, ⟨-, -, hzero⟩ | ⟨-, -, hzero⟩ | ⟨hlate, hbusy, -⟩⟩
  · rw [hout] at hleft
    cases hleft
  · omega
  · omega
  · exact ⟨hlate, hbusy⟩

theorem judged_iff (w : Wait σ) (d : σ) {hung : Prop}
    (h : hung ↔ (w.run SPIN_COUNT d).left = false ∧ (w.run SPIN_COUNT d).spin ≤ 0) :
    Judged hung w d ↔ Timely (w, d) := by
  rw [Judged, h, Timely, Spun.EndsBusy]
  dsimp only
  rcases w.run_ends SPIN_COUNT d with
    ⟨hleft, hlate⟩ | ⟨hleft, ⟨hlate, hbusy, hspin⟩ | ⟨hlate, hbusy, hspin⟩ | ⟨hlate, hbusy, hspin⟩⟩
  · simp [hleft, hlate]
  · simp [hleft, hbusy, hlate, hspin]
  · simp [hleft, hbusy, hlate, hspin]
  · simp [hleft, hbusy, hlate, hspin]

def Decides (r : AccessStatus × Session σ) : Prop :=
  (r.2.waits = [] ∧ r.1 ≠ .Hung) ∨ ∃ l w d, r.2.waits = l ++ [(w, d)] ∧ (∀ x ∈ l, Passed x) ∧
    (r.1 = .Hung ↔ (w.run SPIN_COUNT d).left = false ∧ (w.run SPIN_COUNT d).spin ≤ 0)

theorem Decides.judges_iff {r : AccessStatus × Session σ} (h : Decides r) :
    Judges r ↔ ∀ x ∈ r.2.waits, Timely x := by
  rcases h with ⟨hnone, -⟩ | ⟨l, w, d, hwaits, hpassed, hlast⟩
  · rw [Judges, hnone]
    exact ⟨fun _ x hx => absurd hx List.not_mem_nil, fun _ i w d hi => absurd hi (by simp)⟩
  · have hfinal := judged_iff w d hlast
    have hlen : (l ++ [(w, d)]).length = l.length + 1 := by rw [List.length_append, List.length_singleton]
    rw [Judges, hwaits]
    constructor
    · intro hall x hx
      rcases List.mem_append.mp hx with hx | hx
      · exact (hpassed x hx).timely.1
      · rw [List.mem_singleton.mp hx]
        apply hfinal.mp
        have hat := hall l.length w d (by rw [List.getElem?_append_right (Nat.le_refl _), Nat.sub_self]; rfl)
        rw [hlen, and_iff_left rfl] at hat
        exact hat
    · intro hall i v e hi
      by_cases hlater : i < l.length
      · rw [List.getElem?_append_left hlater] at hi
        have hbusy := (hpassed _ (List.mem_of_getElem? hi)).timely.2
        rw [Judged, Spun.EndsBusy, hbusy, hlen]
        exact iff_of_false (fun h => by omega) fun h => Bool.false_ne_true h.1
      · rw [List.getElem?_append_right (Nat.le_of_not_lt hlater), List.getElem?_singleton] at hi
        split_ifs at hi with hzero
        obtain ⟨rfl, rfl⟩ := Prod.mk.inj (Option.some.inj hi)
        have hlastIndex : i + 1 = l.length + 1 := by omega
        rw [hlen, Judged, and_iff_left hlastIndex]
        exact hfinal.mpr (hall (w, d) (List.mem_append_right _ (List.mem_singleton_self _)))

end Waits

section Run
variable {σ α β : Type}

@[simp] theorem run_bind (x : Action σ α) (f : α → Action σ β) (s : Session σ) :
    (x >>= f) s = f (x s).1 (x s).2 := rfl

@[simp] theorem run_pure (a : α) (s : Session σ) : (pure a : Action σ α) s = (a, s) := rfl

@[simp] theorem run_ite (c : Prop) [Decidable c] (x y : Action σ α) (s : Session σ) :
    (if c then x else y) s = if c then x s else y s := by
  split_ifs <;> rfl

variable [HBAPort σ]

theorem tfdWait_left (spin : ℕ) (d : σ) : ((tfdWait : Wait σ).run spin d).left = false := by
  induction spin generalizing d with
  | zero =>
    rw [Wait.run]
    split_ifs <;> rfl
  | succ spin ih =>
    rw [Wait.run]
    split_ifs
    · exact ih _
    · rfl

theorem accessIssued_decides (slot : ℕ) (s : Session σ) (hpassed : ∀ x ∈ s.waits, Passed x) :
    Decides (accessIssued slot s) := by
  rw [accessIssued]
  simp only [run_bind, run_ite, run_pure]
  split_ifs with hleft hspin hdone herror
  · refine .inr ⟨s.waits, ciWait slot, _, rfl, hpassed, ?_⟩
    exact iff_of_false (fun h => by cases h) fun h => Bool.false_ne_true (h.1.symm.trans hleft)
  · refine .inr ⟨s.waits, ciWait slot, _, rfl, hpassed, ?_⟩
    exact iff_of_true rfl ⟨(Bool.not_eq_true _).mp hleft, hspin⟩
  all_goals
    have hthrough := List.forall_mem_append.mpr ⟨hpassed, List.forall_mem_singleton.mpr
      (show Passed (ciWait slot, _) from ⟨(Bool.not_eq_true _).mp hleft, not_le.mp hspin⟩)⟩
  · refine .inr ⟨_, tfdWait, _, rfl, hthrough, ?_⟩
    exact iff_of_true rfl ⟨tfdWait_left _ _, hdone⟩
  · refine .inr ⟨_, tfdWait, _, rfl, hthrough, ?_⟩
    exact iff_of_false (fun h => by cases h) fun h => hdone h.2
  · refine .inr ⟨_, tfdWait, _, rfl, hthrough, ?_⟩
    exact iff_of_false (fun h => by cases h) fun h => hdone h.2

theorem access_decides (port : Port) (lba count buffer : ℕ) (write : Bool) (d : σ) :
    Decides (access port lba count buffer write ⟨d, []⟩) := by
  rw [access]
  simp only [run_bind, run_ite, run_pure]
  split_ifs with hslot hspin
  · exact .inl ⟨rfl, fun h => by cases h⟩
  · exact .inr ⟨[], tfdWait, _, rfl, fun x hx => absurd hx List.not_mem_nil,
      iff_of_true rfl ⟨tfdWait_left _ _, hspin⟩⟩
  · exact accessIssued_decides _ _ (List.forall_mem_singleton.mpr ⟨tfdWait_left _ _, not_le.mp hspin⟩)

theorem stopLoop_run (spin : ℕ) (d : σ) : (stopLoop (spin + 1) d).spin = (stopWait.run spin d).spin ∧
    (stopLoop (spin + 1) d).busy = (stopWait.run spin d).busy ∧ (stopWait.run spin d).left = false := by
  induction spin generalizing d with
  | zero =>
    rw [stopLoop, Wait.run]
    split_ifs
    · exact ⟨rfl, rfl, rfl⟩
    · exact ⟨rfl, rfl, rfl⟩
  | succ spin ih =>
    rw [stopLoop, Wait.run]
    dsimp only
    split_ifs with hbusy hreturn
    · cases hreturn
    · exact ih _
    · exact ⟨rfl, rfl, rfl⟩

theorem stopLoop_judged_iff (spin : ℕ) (d : σ) :
    ((stopLoop (spin + 1) d).spin ≤ 0 ↔ (stopLoop (spin + 1) d).busy = true) ↔ stopWait.late spin d = false := by
  obtain ⟨hspin, hbusy, hleft⟩ := stopLoop_run spin d
  rw [hspin, hbusy]
  rcases (stopWait : Wait σ).run_ends spin d with
    ⟨hout, -⟩ | ⟨-, ⟨hlate, hbusy, hspin⟩ | ⟨hlate, hbusy, hspin⟩ | ⟨hlate, hbusy, hspin⟩⟩
  · rw [hout] at hleft
    cases hleft
  · simp [hbusy, hlate, hspin]
  · simp [hbusy, hlate, hspin]
  · simp [hbusy, hlate, hspin]

def StopJudges (s : Session σ) : Prop :=
  (stop s).1 = true ↔ (stopLoop SPIN_COUNT (stopRequest s).2.dev).busy = true

theorem stop_judges_iff (s : Session σ) :
    StopJudges s ↔ (stopWait : Wait σ).late (SPIN_COUNT - 1) (stopRequest s).2.dev = false := by
  have hprints : (stop s).1 = decide ((stopLoop SPIN_COUNT (stopRequest s).2.dev).spin ≤ 0) := rfl
  rw [StopJudges, hprints, decide_eq_true_iff]
  exact stopLoop_judged_iff (SPIN_COUNT - 1) (stopRequest s).2.dev

def IdentifyJudges (r : Identified × Session σ) : Prop :=
  ∀ w d, r.2.waits.head? = some (w, d) → Judged (r.1 = .hung) w d

theorem identifyIssued_goes (port : Port) (slot : ℕ) (s : Session σ) :
    (identifyIssued port slot s).1 ≠ .hung ∧ ∃ l, (identifyIssued port slot s).2.waits = s.waits ++ l := by
  rw [identifyIssued]
  simp only [run_bind, run_ite, run_pure]
  split_ifs
  · exact ⟨nofun, _, rfl⟩
  · exact ⟨nofun, _, List.append_assoc _ _ _⟩
  · exact ⟨nofun, _, List.append_assoc _ _ _⟩

theorem identifyDevice_waits (s : Session σ) : (identifyDevice s).2.waits = s.waits := by
  rw [identifyDevice]
  simp only [run_bind, run_ite, run_pure]
  split_ifs <;> rfl

/-- The test of `identify` is the wrong way round. -/
theorem identify_judges_iff (port : Port) (d : σ) :
    IdentifyJudges (identify port ⟨d, []⟩) ↔ (identifySlot (⟨d, []⟩ : Session σ)).1 = -1 := by
  have hwrong : ∀ (w : Wait σ) d, (w.run SPIN_COUNT d).left = false →
      (0 ≤ (w.run SPIN_COUNT d).spin ↔ ¬ (w.run SPIN_COUNT d).EndsBusy) := by
    intro w d hleft
    rw [Spun.EndsBusy]
    rcases w.run_ends SPIN_COUNT d with ⟨hout, -⟩ |
      ⟨-, ⟨-, hbusy, hspin⟩ | ⟨-, hbusy, hspin⟩ | ⟨-, hbusy, hspin⟩⟩
    · rw [hout] at hleft
      cases hleft
    · simp [hbusy, hspin]
    · simp [hbusy, hspin, hleft]
    · simp [hbusy, hspin.le]
  have hfirst : ∀ (slot : ℕ) (t : HBACommandTable),
      let asked := (setTable slot t (setHeader slot {} (identifyDevice (identifySlot (⟨d, []⟩ : Session σ)).2).2).2).2
      (spinFor tfdWait asked).2.waits = [(tfdWait, asked.dev)] :=
    fun slot t => congrArg (· ++ _) (identifyDevice_waits _)
  rw [identify, IdentifyJudges]
  simp only [run_bind, run_ite, run_pure]
  split_ifs with hslot hspin
  · exact iff_of_true (fun w d hhead => by cases hhead) hslot
  · refine iff_of_false (fun h => ?_) hslot
    exact (hwrong tfdWait _ (tfdWait_left _ _)).mp hspin ((h tfdWait _ (by rw [hfirst]; rfl)).mp rfl)
  · refine iff_of_false (fun h => ?_) hslot
    have hgoes := fun s : Session σ => identifyIssued_goes port (identifySlot (⟨d, []⟩ : Session σ)).1.toNat s
    have hbusy := not_not.mp fun hend => hspin ((hwrong tfdWait _ (tfdWait_left _ _)).mpr hend)
    refine (hgoes _).1 ((h tfdWait _ ?_).mpr hbusy)
    obtain ⟨l, hwaits⟩ := (hgoes _).2
    rw [hwaits, hfirst]
    rfl

end Run

/-- Which waits are taken right: those of `access` and the one of `stop` unless the device becomes ready at the very
last poll, and the first one of `identify` never. -/
theorem hangs_judged_iff {σ : Type} [HBAPort σ] (port : Port) (lba count buffer : ℕ) (write : Bool)
    (s : Session σ) (d : σ) :
    (Judges (access port lba count buffer write ⟨d, []⟩) ↔
      ∀ x ∈ (access port lba count buffer write (⟨d, []⟩ : Session σ)).2.waits, Timely x) ∧
    (StopJudges s ↔ (stopWait : Wait σ).late (SPIN_COUNT - 1) (stopRequest s).2.dev = false) ∧
    (IdentifyJudges (identify port ⟨d, []⟩) ↔ (identifySlot (⟨d, []⟩ : Session σ)).1 = -1) :=
  ⟨(access_decides port lba count buffer write d).judges_iff, stop_judges_iff s, identify_judges_iff port d⟩

section Sample

/-- A device that is always ready, with two command slots. -/
structure Ready where

instance : HBAPort Ready where
  load register d := (if register = .cap then 0x100 else 0, d)
  store _ _ d := d
  setHeader _ _ d := d
  setTable _ _ d := d
  bytes _ length _ := List.replicate length 0
  wait d := d

/-- It is ready at the first poll, and `identify` takes it for a hang. -/
theorem ready_device_hung : ¬ IdentifyJudges (identify ⟨.SATA, fun _ => 0⟩ (⟨⟨⟩, []⟩ : Session Ready)) := by
  intro h
  have hpoll : (tfdWait : Wait Ready).run SPIN_COUNT ⟨⟩ = ⟨1000, false, false, ⟨⟩⟩ := rfl
  have hhung : (identify ⟨.SATA, fun _ => 0⟩ (⟨⟨⟩, []⟩ : Session Ready)).1 = .hung := rfl
  have hend := (h tfdWait ⟨⟩ rfl).mp hhung
  rw [hpoll] at hend
  exact absurd hend.1 Bool.false_ne_true

end Sample

end Thorn.AHCICommands
