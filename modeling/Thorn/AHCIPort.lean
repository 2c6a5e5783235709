import Thorn.AHCIDevice

set_option autoImplicit false

/-!
# The AHCI port

`Port::read`, `readBytes`, `write` and `writeBytes` over `Port::access`, which
moves whole sectors between the disk and a buffer of the port. An action is
`none` when it reads past the end of the caller's buffer.
-/
namespace Thorn.AHCIPort
open ByteStore AHCI

abbrev BLOCKSIZE : ℕ := 512

/-- `Port::access`: the status, and the buffer afterwards. -/
class Hardware (σ : Type) where
  access : σ → (lba count : ℕ) → (buffer : Store) → (write : Bool) → (AccessStatus × Store) × σ

structure Port (σ : Type) where
  /-- `physicalBuffers[1]`. -/
  physicalBuffer : Store
  hardware : σ

abbrev Action (σ α : Type) := StateT (Port σ) Option α

section Run
variable {σ α β : Type}

@[simp] theorem run_bind (x : Action σ α) (f : α → Action σ β) (p : Port σ) :
    (x >>= f) p = (x p).bind fun r => f r.1 r.2 := rfl

@[simp] theorem run_pure (a : α) (p : Port σ) : (pure a : Action σ α) p = some (a, p) := rfl

@[simp] theorem run_ite (c : Prop) [Decidable c] (x y : Action σ α) (p : Port σ) :
    (if c then x else y) p = if c then x p else y p := by
  split_ifs <;> rfl

end Run

/-- Where `read` stands: the counters, and the bytes stored so far. -/
structure Progress where
  lba : ℕ
  block_count : ℕ
  count : ℕ
  out : List UInt8

section
variable {σ : Type} [Hardware σ]

def access (lba count : ℕ) (write : Bool) : Action σ AccessStatus := fun p =>
  let r := Hardware.access p.hardware lba count p.physicalBuffer write
  some (r.1.1, ⟨r.1.2, r.2⟩)

/-- `memcpy` out of the port's buffer. -/
def copyOut (size : ℕ) : Action σ (List UInt8) := fun p => some (slice p.physicalBuffer 0 size, p)

/-- `memcpy` from the caller's buffer, of which `cbuffer` is left, into the port's. -/
def copyIn (cbuffer : List UInt8) (size : ℕ) : Action σ Unit := fun p =>
  if size ≤ cbuffer.length then some ((), { p with physicalBuffer := patch p.physicalBuffer 0 (cbuffer.take size) })
  else none

/-- One of the loops of `read`, with batches of `k` sectors. Every turn takes a batch off the block count. -/
def readLoop (k : ℕ) : ℕ → Progress → Action σ (AccessStatus × Progress)
  | 0, s => pure (.Success, s)
  | fuel + 1, s => do
    if k ≤ s.block_count ∧ s.count ≠ 0 then do
      let size := if s.count < BLOCKSIZE * k then s.count else BLOCKSIZE * k
      let status ← access s.lba k false
      if status ≠ .Success then pure (.DiskError, s) else do
        let bytes ← copyOut size
        readLoop k fuel ⟨(s.lba + k) % 2 ^ 64, s.block_count - k, s.count - size, s.out ++ bytes⟩
    else pure (.Success, s)

/-- The status and the bytes stored at the start of the buffer. -/
def read (lba count : ℕ) : Action σ (AccessStatus × List UInt8) := do
  let block_count := (count + BLOCKSIZE - 1) / BLOCKSIZE
  let (status, s) ← readLoop 8 block_count ⟨lba, block_count, count, []⟩
  if status ≠ .Success then pure (status, s.out) else do
    let (status, s) ← readLoop 2 block_count s
    if status ≠ .Success then pure (status, s.out) else do
      let (status, s) ← readLoop 1 block_count s
      pure (status, s.out)

/-- Every turn copies at least one byte. -/
def readBytesLoop : ℕ → (count offset lba : ℕ) → List UInt8 → Action σ (AccessStatus × List UInt8)
  | 0, _, _, _, out => pure (.Success, out)
  | fuel + 1, count, offset, lba, out => do
    if count = 0 then pure (.Success, out) else do
      let (status, read_buffer) ← read lba BLOCKSIZE
      if status ≠ .Success then pure (status, out) else do
        let to_copy := if BLOCKSIZE - offset < count then BLOCKSIZE - offset else count
        readBytesLoop fuel (count - to_copy) 0 ((lba + 1) % 2 ^ 64) (out ++ (read_buffer.drop offset).take to_copy)

def readBytes (count offset : ℕ) : Action σ (AccessStatus × List UInt8) :=
  readBytesLoop count count (offset % BLOCKSIZE) (offset / BLOCKSIZE) []

/-- The count never changes: `block_count` alone ends the loop. -/
def writeLoop (count : ℕ) : ℕ → ℕ → List UInt8 → Action σ AccessStatus
  | 0, _, _ => pure .Success
  | block_count + 1, lba, cbuffer => do
    if count = 0 then pure .Success else do
      let size := if count < BLOCKSIZE then count else BLOCKSIZE
      copyIn cbuffer size
      let status ← access lba 1 true
      if status ≠ .Success then pure status
      else writeLoop count block_count ((lba + 1) % 2 ^ 64) (cbuffer.drop size)

def write (lba count : ℕ) (buffer : List UInt8) : Action σ AccessStatus :=
  writeLoop count ((count + BLOCKSIZE - 1) / BLOCKSIZE) lba buffer

def writeBytesLoop : ℕ → (lba : ℕ) → (cbuffer write_buffer : List UInt8) → Action σ AccessStatus
  | 0, _, _, _ => pure .Success
  | fuel + 1, lba, cbuffer, write_buffer => do
    if cbuffer.length = 0 then pure .Success
    else if cbuffer.length < BLOCKSIZE then do
      let (status, sector) ← read lba BLOCKSIZE
      if status ≠ .Success then pure status
      else write lba BLOCKSIZE (overlay (overlay write_buffer 0 sector) 0 cbuffer)
    else do
      -- the source writes `write_buffer` here, not `cbuffer`
      let status ← write lba BLOCKSIZE write_buffer
      if status ≠ .Success then pure status
      else writeBytesLoop fuel ((lba + 1) % 2 ^ 64) (cbuffer.drop BLOCKSIZE) write_buffer

/-- The count that `write` is given is a `uint32_t`. -/
def writeBytes (offset : ℕ) (buffer : List UInt8) : Action σ AccessStatus := do
  let lba := offset / BLOCKSIZE
  let rem := offset % BLOCKSIZE
  if buffer.length % BLOCKSIZE = 0 ∧ rem = 0 then write lba (buffer.length % 2 ^ 32) buffer
  else do
    let write_buffer := List.replicate BLOCKSIZE 0
    if rem ≠ 0 then do
      let (status, sector) ← read lba BLOCKSIZE
      if status ≠ .Success then pure status else do
        let write_buffer := overlay write_buffer 0 sector
        let to_write := if BLOCKSIZE - rem < buffer.length then BLOCKSIZE - rem else buffer.length
        let write_buffer := overlay write_buffer rem (buffer.take to_write)
        let status ← write lba BLOCKSIZE write_buffer
        if status ≠ .Success then pure status
        else writeBytesLoop buffer.length ((lba + 1) % 2 ^ 64) (buffer.drop to_write) write_buffer
    else writeBytesLoop buffer.length lba buffer write_buffer

end

/-- The sector numbers from `lba` on, which are `uint64_t`. -/
def sectors (lba n : ℕ) : List ℕ := (List.range n).map fun i => (lba + i) % 2 ^ 64

def sectorBytes (F : Store) (lba n : ℕ) : List UInt8 := (sectors lba n).flatMap fun l => slice F (512 * l) 512

/-- `access`, when it returns `Success`, moves exactly the sectors asked for. -/
structure Transfers {σ : Type} [Hardware σ] (content : σ → Store) : Prop where
  read : ∀ h lba k buffer buffer' h', Hardware.access h lba k buffer false = ((.Success, buffer'), h') →
    content h' = content h ∧ slice buffer' 0 (512 * k) = sectorBytes (content h) lba k
  write : ∀ h lba k buffer buffer' h', Hardware.access h lba k buffer true = ((.Success, buffer'), h') →
    content h' = patch (content h) (512 * lba) (slice buffer 0 (512 * k))

section Sectors
variable {F : Store}

theorem sectors_add (lba a b : ℕ) : sectors lba (a + b) = sectors lba a ++ sectors ((lba + a) % 2 ^ 64) b := by
  rw [sectors, sectors, sectors, List.range_add, List.map_append, List.map_map]
  congr 1
  apply List.map_congr_left
  intro i _
  rw [Function.comp_apply, Nat.mod_add_mod, Nat.add_assoc]

theorem sectorBytes_add (lba a b : ℕ) :
    sectorBytes F lba (a + b) = sectorBytes F lba a ++ sectorBytes F ((lba + a) % 2 ^ 64) b := by
  rw [sectorBytes, sectors_add, List.flatMap_append]
  rfl

theorem sectorBytes_length (lba n : ℕ) : (sectorBytes F lba n).length = 512 * n := by
  rw [sectorBytes, List.length_flatMap, List.map_congr_left fun _ _ => slice_length _ _ _, List.map_const',
    List.sum_replicate, sectors, List.length_map, List.length_range, smul_eq_mul, Nat.mul_comm]

theorem sectorBytes_one {lba : ℕ} (h : lba < 2 ^ 64) : sectorBytes F lba 1 = slice F (512 * lba) 512 := by
  rw [sectorBytes, sectors, List.range_one, List.map_singleton, List.flatMap_singleton, Nat.add_zero,
    Nat.mod_eq_of_lt h]

theorem sectorBytes_slice {lba n : ℕ} (h : lba + n ≤ 2 ^ 64) :
    sectorBytes F lba n = slice F (512 * lba) (512 * n) := by
  induction n with
  | zero => rfl
  | succ n ih =>
    rw [sectorBytes_add, ih (by omega), Nat.mod_eq_of_lt (by omega), sectorBytes_one (by omega), Nat.mul_succ,
      slice_add, Nat.mul_add]

end Sectors

structure Request where
  lba : ℕ
  count : ℕ
  status : AccessStatus

def requested (rs : List Request) : List ℕ := rs.flatMap fun r => sectors r.lba r.count

/-- One port becomes another by these calls that read. -/
inductive Requests {σ : Type} [Hardware σ] : Port σ → List Request → Port σ → Prop
  | nil (p : Port σ) : Requests p [] p
  | snoc {p q r : Port σ} {rs : List Request} {lba k : ℕ} {status : AccessStatus} (h : Requests p rs q)
      (hrun : access lba k false q = some (status, r)) : Requests p (rs ++ [⟨lba, k, status⟩]) r

def blocks (count : ℕ) : ℕ := (count + 511) / 512

section Reads
variable {σ : Type} [Hardware σ] {content : σ → Store} {p₀ p : Port σ} {lba count j : ℕ} {s : Progress}

/-- The first `j` sectors are in the buffer, and what the counters make of it. -/
structure Batched (content : σ → Store) (p₀ : Port σ) (lba count j : ℕ) (s : Progress) (p : Port σ) : Prop where
  le : j ≤ blocks count
  next : s.lba = (lba + j) % 2 ^ 64
  blocksLeft : s.block_count = blocks count - j
  bytesLeft : s.count = count - 512 * j
  out : s.out = (sectorBytes (content p₀.hardware) lba j).take count
  same : content p.hardware = content p₀.hardware
  ran : ∃ rs, Requests p₀ rs p ∧ requested rs = sectors lba j ∧ ∀ r ∈ rs, r.status = .Success

/-- A call has failed; the sectors asked for are the first ones of the request. -/
structure Stopped (p₀ : Port σ) (lba count : ℕ) (out : List UInt8) (p : Port σ) : Prop where
  length : out.length ≤ count
  ran : ∃ rs n, n ≤ blocks count ∧ Requests p₀ rs p ∧ requested rs = sectors lba n ∧ ∃ r ∈ rs, r.status ≠ .Success

structure HasRead (content : σ → Store) (p₀ : Port σ) (lba count : ℕ) (out : List UInt8)
    (p : Port σ) : Prop where
  out : out = (sectorBytes (content p₀.hardware) lba (blocks count)).take count
  same : content p.hardware = content p₀.hardware
  ran : ∃ rs, Requests p₀ rs p ∧ requested rs = sectors lba (blocks count) ∧ ∀ r ∈ rs, r.status = .Success

theorem Batched.start (p : Port σ) (count : ℕ) (hl : lba < 2 ^ 64) :
    Batched content p lba count 0 ⟨lba, blocks count, count, []⟩ p where
  le := Nat.zero_le _
  next := (Nat.mod_eq_of_lt hl).symm
  blocksLeft := rfl
  bytesLeft := rfl
  out := List.take_nil.symm
  same := rfl
  ran := ⟨[], .nil p, rfl, by simp⟩

theorem requested_snoc {rs : List Request} (h : requested rs = sectors lba j) (k : ℕ) (status : AccessStatus) :
    requested (rs ++ [⟨(lba + j) % 2 ^ 64, k, status⟩]) = sectors lba (j + k) := by
  rw [requested, List.flatMap_append, List.flatMap_singleton, sectors_add]
  exact congrArg (· ++ _) h

theorem Batched.left {k : ℕ} (h : Batched content p₀ lba count j s p) (hk : k ≤ s.block_count) :
    j + k ≤ blocks count := by
  have := h.le
  have := h.blocksLeft
  omega

theorem Batched.step (ht : Transfers content) (h : Batched content p₀ lba count j s p) {k size : ℕ}
    (hk : k ≤ s.block_count)
    (hsize : size = min s.count (512 * k)) {q : Port σ} (hrun : access s.lba k false p = some (.Success, q)) :
    Batched content p₀ lba count (j + k)
      ⟨(s.lba + k) % 2 ^ 64, s.block_count - k, s.count - size, s.out ++ slice q.physicalBuffer 0 size⟩ q := by
  have haccess : Hardware.access p.hardware s.lba k p.physicalBuffer false =
      ((.Success, q.physicalBuffer), q.hardware) := by
    simp only [access, Option.some.injEq, Prod.mk.injEq] at hrun
    obtain ⟨hstatus, rfl⟩ := hrun
    rw [← hstatus]
  obtain ⟨hsame, hbytes⟩ := ht.read _ _ _ _ _ _ haccess
  have hle := h.left hk
  have hb := h.blocksLeft
  have hcount := h.bytesLeft
  refine ⟨hle, ?_, ?_, ?_, ?_, hsame.trans h.same, ?_⟩
  · dsimp only
    rw [h.next, Nat.mod_add_mod, Nat.add_assoc]
  · dsimp only
    omega
  · have hblocks : blocks count = (count + 511) / 512 := rfl
    dsimp only
    omega
  · have hlen : (sectorBytes (content p₀.hardware) lba j).length = 512 * j := sectorBytes_length lba j
    have hpart : slice q.physicalBuffer 0 size =
        (sectorBytes (content p₀.hardware) ((lba + j) % 2 ^ 64) k).take (count - 512 * j) := by
      rw [← slice_take _ _ (512 * k) _ (by omega), hbytes, h.same, h.next, ← hcount, hsize, ← List.take_take,
        List.take_of_length_le (l := sectorBytes _ _ _) (sectorBytes_length _ _).le]
    dsimp only
    rw [h.out, hpart, sectorBytes_add, List.take_append, hlen]
  · obtain ⟨rs, hran, hreq, hall⟩ := h.ran
    refine ⟨_, .snoc hran hrun, h.next ▸ requested_snoc hreq k _, fun r hr => ?_⟩
    rcases List.mem_append.mp hr with hr | hr
    · exact hall r hr
    · rw [List.mem_singleton.mp hr]

theorem Batched.stop (h : Batched content p₀ lba count j s p) {k : ℕ} (hk : k ≤ s.block_count) {q : Port σ}
    {status : AccessStatus} (hrun : access s.lba k false p = some (status, q)) (hs : status ≠ .Success) :
    Stopped p₀ lba count s.out q := by
  refine ⟨?_, ?_⟩
  · rw [h.out, List.length_take]
    exact Nat.min_le_left _ _
  · obtain ⟨rs, hran, hreq, -⟩ := h.ran
    exact ⟨_, j + k, h.left hk, .snoc hran hrun, h.next ▸ requested_snoc hreq k status, _,
      List.mem_append_right rs (List.mem_singleton.mpr rfl), hs⟩

/-- One loop, from any place where the loops before it can end. -/
theorem readLoop_batched (ht : Transfers content) {k : ℕ} (hk : 0 < k) (fuel : ℕ)
    (h : Batched content p₀ lba count j s p) (hfuel : s.block_count ≤ fuel) : ∃ status s' p',
    readLoop k fuel s p = some ((status, s'), p') ∧
      (status = .Success ∧ (s'.block_count < k ∨ s'.count = 0) ∧ (∃ j', Batched content p₀ lba count j' s' p') ∨
        status ≠ .Success ∧ Stopped p₀ lba count s'.out p') := by
  induction fuel generalizing j s p with
  | zero => exact ⟨.Success, s, p, rfl, .inl ⟨rfl, .inl (by omega), j, h⟩⟩
  | succ fuel ih =>
    rw [readLoop, run_ite]
    by_cases hc : k ≤ s.block_count ∧ s.count ≠ 0
    · have haccess : ∃ status q, access s.lba k false p = some (status, q) := ⟨_, _, rfl⟩
      obtain ⟨status, q, hrun⟩ := haccess
      rw [if_pos hc, run_bind, hrun, Option.bind_some, run_ite]
      by_cases hs : status = .Success
      · subst hs
        have hsize : (if s.count < BLOCKSIZE * k then s.count else BLOCKSIZE * k) = min s.count (512 * k) := by
          change (if s.count < 512 * k then s.count else 512 * k) = _
          split_ifs <;> omega
        have hnext := h.step ht hc.1 hsize hrun
        rw [if_neg (not_not.mpr rfl), run_bind, copyOut, Option.bind_some]
        exact ih hnext (by dsimp only; omega)
      · rw [if_pos hs, run_pure]
        exact ⟨.DiskError, s, q, rfl, .inr ⟨by decide, h.stop hc.1 hrun hs⟩⟩
    · rw [if_neg hc, run_pure]
      exact ⟨.Success, s, p, rfl, .inl ⟨rfl, by omega, j, h⟩⟩

theorem Batched.done (h : Batched content p₀ lba count j s p) (hend : s.block_count < 1 ∨ s.count = 0) :
    HasRead content p₀ lba count s.out p := by
  have hle := h.le
  have hb := h.blocksLeft
  have hc := h.bytesLeft
  have hj : j = blocks count := by
    unfold blocks at hle hb ⊢
    omega
  subst hj
  exact ⟨h.out, h.same, h.ran⟩

theorem run_read (ht : Transfers content) (p : Port σ) {lba : ℕ} (hl : lba < 2 ^ 64) (count : ℕ) :
    ∃ status out p',
    read lba count p = some ((status, out), p') ∧ (status = .Success ∧ HasRead content p lba count out p' ∨
      status ≠ .Success ∧ Stopped p lba count out p') := by
  have hstart : Batched content p lba count 0 _ p := Batched.start p count hl
  have hleft : ∀ {j : ℕ} {s : Progress} {q : Port σ},
      Batched content p lba count j s q → s.block_count ≤ blocks count :=
    fun h => by
      have := h.blocksLeft
      omega
  obtain ⟨status₁, s₁, p₁, hrun₁, hend₁⟩ :=
    readLoop_batched ht (show 0 < 8 by omega) (blocks count) hstart le_rfl
  have hread : read lba count p = (readLoop 8 (blocks count) ⟨lba, blocks count, count, []⟩ p).bind _ := rfl
  rw [hread, hrun₁, Option.bind_some]
  dsimp only
  rw [run_ite]
  rcases hend₁ with ⟨rfl, -, j₁, h₁⟩ | ⟨hs₁, hstop⟩
  · obtain ⟨status₂, s₂, p₂, hrun₂, hend₂⟩ :=
      readLoop_batched ht (show 0 < 2 by omega) (blocks count) h₁ (hleft h₁)
    have hnext : readLoop 2 ((count + BLOCKSIZE - 1) / BLOCKSIZE) s₁ p₁ = some ((status₂, s₂), p₂) := hrun₂
    rw [if_neg (not_not.mpr rfl), run_bind, hnext, Option.bind_some]
    dsimp only
    rw [run_ite]
    rcases hend₂ with ⟨rfl, -, j₂, h₂⟩ | ⟨hs₂, hstop⟩
    · obtain ⟨status₃, s₃, p₃, hrun₃, hend₃⟩ :=
        readLoop_batched ht (show 0 < 1 by omega) (blocks count) h₂ (hleft h₂)
      have hlast : readLoop 1 ((count + BLOCKSIZE - 1) / BLOCKSIZE) s₂ p₂ = some ((status₃, s₃), p₃) := hrun₃
      rw [if_neg (not_not.mpr rfl), run_bind, hlast, Option.bind_some]
      rcases hend₃ with ⟨hs₃, hdone, j₃, h₃⟩ | ⟨hs₃, hstop⟩
      · exact ⟨_, _, _, rfl, .inl ⟨hs₃, h₃.done hdone⟩⟩
      · exact ⟨_, _, _, rfl, .inr ⟨hs₃, hstop⟩⟩
    · rw [if_pos hs₂, run_pure]
      exact ⟨_, _, _, rfl, .inr ⟨hs₂, hstop⟩⟩
  · rw [if_pos hs₁, run_pure]
    exact ⟨_, _, _, rfl, .inr ⟨hs₁, hstop⟩⟩

end Reads

structure Recorded (σ : Type) where
  hardware : σ
  requests : List Request

instance {σ : Type} [Hardware σ] : Hardware (Recorded σ) where
  access h lba count buffer write :=
    let r := Hardware.access h.hardware lba count buffer write
    (r.1, ⟨r.2, h.requests ++ [⟨lba, count, r.1.1⟩]⟩)

section Record
variable {σ : Type} [Hardware σ] {content : σ → Store} {p q : Port (Recorded σ)} {rs : List Request}

theorem Requests.recorded (h : Requests p rs q) : q.hardware.requests = p.hardware.requests ++ rs := by
  induction h with
  | nil => exact (List.append_nil _).symm
  | snoc h hrun ih =>
    simp only [access, Option.some.injEq, Prod.mk.injEq] at hrun
    obtain ⟨hstatus, rfl⟩ := hrun
    rw [← List.append_assoc, ← ih, ← hstatus]
    rfl

theorem Transfers.recorded (ht : Transfers content) : Transfers fun h : Recorded σ => content h.hardware where
  read h lba k buffer buffer' h' hrun := by
    apply ht.read h.hardware lba k buffer buffer' h'.hardware
    obtain ⟨hr, rfl⟩ := Prod.mk.inj hrun
    exact Prod.ext hr rfl
  write h lba k buffer buffer' h' hrun := by
    apply ht.write h.hardware lba k buffer buffer' h'.hardware
    obtain ⟨hr, rfl⟩ := Prod.mk.inj hrun
    exact Prod.ext hr rfl

end Record

structure ReadsSectors (F : Store) (lba count : ℕ) (status : AccessStatus) (out : List UInt8)
    (rs : List Request) : Prop where
  length : out.length ≤ count
  bytes : status = .Success → out = (sectorBytes F lba (blocks count)).take count
  piece : status = .Success → lba + blocks count ≤ 2 ^ 64 → out = slice F (512 * lba) count
  requests : status = .Success → requested rs = sectors lba (blocks count)
  inOrder : ∃ n, n ≤ blocks count ∧ requested rs = sectors lba n
  fails : (∃ r ∈ rs, r.status ≠ .Success) → status ≠ .Success

/-- `read` stores the bytes asked for and no more, and asks for their sectors once and in order. -/
theorem read_sectors {σ : Type} [Hardware σ] {content : σ → Store} (ht : Transfers content)
    (p : Port (Recorded σ))
    (hp : p.hardware.requests = []) (lba count : ℕ) (hl : lba < 2 ^ 64) : ∃ status out p',
      read lba count p = some ((status, out), p') ∧
        ReadsSectors (content p.hardware.hardware) lba count status out p'.hardware.requests := by
  obtain ⟨status, out, p', hrun, hend⟩ := run_read ht.recorded p hl count
  refine ⟨status, out, p', hrun, ?_⟩
  rcases hend with ⟨rfl, hout, -, rs, hran, hreq, hall⟩ | ⟨hs, hlen, rs, n, hn, hran, hreq, -⟩
  · have hlog := hran.recorded
    rw [hp, List.nil_append] at hlog
    rw [hlog]
    refine ⟨?_, fun _ => hout, fun _ hfit => ?_, fun _ => hreq, ⟨_, le_rfl, hreq⟩, ?_⟩
    · rw [hout, List.length_take]
      exact Nat.min_le_left _ _
    · rw [hout, sectorBytes_slice hfit, slice_take]
      unfold blocks
      omega
    · rintro ⟨r, hr, hfail⟩
      exact absurd (hall r hr) hfail
  · have hlog := hran.recorded
    rw [hp, List.nil_append] at hlog
    rw [hlog]
    exact ⟨hlen, fun h => absurd h hs, fun h => absurd h hs, fun h => absurd h hs, ⟨n, hn, hreq⟩, fun _ => hs⟩

structure FlatDisk where
  bytes : Store

instance : Hardware FlatDisk where
  access d lba count buffer write :=
    if write then ((.Success, buffer), ⟨patch d.bytes (512 * lba) (slice buffer 0 (512 * count))⟩)
    else ((.Success, patch buffer 0 (sectorBytes d.bytes lba count)), d)

theorem flatDisk_transfers : Transfers FlatDisk.bytes where
  read h lba k buffer buffer' h' hrun := by
    obtain ⟨hr, rfl⟩ := Prod.mk.inj hrun
    obtain ⟨-, rfl⟩ := Prod.mk.inj hr
    refine ⟨rfl, ?_⟩
    have hself := slice_patch_self buffer 0 (sectorBytes h.bytes lba k)
    rwa [sectorBytes_length] at hself
  write h lba k buffer buffer' h' hrun := by
    obtain ⟨-, rfl⟩ := Prod.mk.inj hrun
    rfl

/-- Nineteen sectors and a part of one more. -/
theorem read_sectors_twenty : ∃ status out p',
    read 7 10000 ⟨fun _ => 0, (⟨⟨fun _ => 1⟩, []⟩ : Recorded FlatDisk)⟩ = some ((status, out), p') ∧
      ReadsSectors (fun _ => 1) 7 10000 status out p'.hardware.requests :=
  read_sectors flatDisk_transfers ⟨fun _ => 0, ⟨⟨fun _ => 1⟩, []⟩⟩ rfl 7 10000 (by omega)

end Thorn.AHCIPort
