import Thorn.DeviceClears
import Thorn.DeviceTwins
import Thorn.FatSample

set_option autoImplicit false

/-!
# The file system on an IDE drive

The driver on a partition of an IDE drive against the driver on a flat array of
bytes, for whatever is asked of it, as long as each request of its own lies on
the drive and fits the sector count of one transfer.
-/
namespace Thorn.FatDriver
open ByteStore Paths FatTypes FatOperations Twins

structure Watched where
  bytes : Store
  requests : List Record

instance : StorageDevice Watched where
  read d size offset := ((0, slice d.bytes offset size), ⟨d.bytes, d.requests ++ [⟨size, offset⟩]⟩)
  write d buffer offset := (0, ⟨patch d.bytes offset buffer, d.requests ++ [⟨buffer.length, offset⟩]⟩)
  clear d offset size := (0, ⟨fun i => if offset ≤ i ∧ i < offset + size then 0 else d.bytes i,
    d.requests ++ [⟨size, offset⟩]⟩)

/-- `IDEDevice`, with the memory that its `clear` finds not initialised. -/
structure IDEDisk (σ : Type) where
  machine : IDE.Machine σ
  ideID : ℕ
  status : ℤ
  heap : Store

section
variable {σ : Type} [IDE.Controller σ]

instance : StorageDevice (IDEDisk σ) where
  read d size offset :=
    let r := IDEDevice.read d.ideID size offset d.machine
    (r.1, { d with machine := r.2 })
  write d buffer offset :=
    let r := IDEDevice.write d.ideID offset buffer d.machine
    (r.1, { d with machine := r.2 })
  clear d offset size :=
    let r := IDEDevice.clear d.ideID d.status d.heap offset size d.machine
    (r.1, { d with machine := r.2 })

end

/-- A request that a drive of `S` sectors serves whole: an aligned one has an 8-bit sector count. -/
structure Record.Served (S : ℕ) (r : Record) : Prop where
  within : r.offset + r.size ≤ 512 * S
  counted : r.offset % 512 = 0 → r.size % 512 = 0 → r.size < 512 * 256

def watched : DeviceTwins Watched FlatDevice where
  rel p q := p.bytes = q.bytes
  good _ := True
  reads p q size offset h _ := ⟨trivial, by
    change (0, slice p.bytes offset size) = (0, slice q.bytes offset size)
    rw [h trivial], h trivial⟩
  writes p q buffer offset h _ := ⟨trivial, rfl, congrArg (patch · offset buffer) (h trivial)⟩

section
variable {σ : Type} [IDE.Controller σ] {content : σ → Store} {drive S : ℕ}

structure IDEDisk.Holds (content : σ → Store) (drive S : ℕ) (d : IDEDisk σ) (bytes : Store) : Prop where
  ideID : d.ideID = drive
  present : IDE.Present (d.machine.devices drive) drive S
  content : content d.machine.hardware = bytes

section Requests
variable {d : IDEDisk σ} {bytes : Store} {offset : ℕ}

theorem IDEDisk.Holds.read (ht : IDE.Transfers content drive S) (h : d.Holds content drive S bytes) {size : ℕ}
    (hs : Record.Served S ⟨size, offset⟩) : (StorageDevice.read d size offset).1 = (0, slice bytes offset size) ∧
      (StorageDevice.read d size offset).2.Holds content drive S bytes := by
  obtain ⟨rfl, hp, rfl⟩ := h
  obtain ⟨h', hrun, hcontent⟩ := IDEDevice.run_read ht hp size offset hs.within
  have hlen : (if offset % 512 = 0 ∧ size % 512 = 0 then IDEDevice.narrowed size else size) = size := by
    split_ifs with ha
    · exact IDEDevice.narrowed_small ha.2 (hs.counted ha.1 ha.2)
    · rfl
  rw [hlen] at hrun
  change (IDEDevice.read d.ideID size offset d.machine).1 = _ ∧
    IDEDisk.Holds content d.ideID S { d with machine := (IDEDevice.read d.ideID size offset d.machine).2 } _
  rw [hrun]
  exact ⟨rfl, rfl, hp, hcontent⟩

theorem IDEDisk.Holds.write (ht : IDE.Transfers content drive S) (h : d.Holds content drive S bytes)
    {buffer : List UInt8} (hs : Record.Served S ⟨buffer.length, offset⟩) :
    (StorageDevice.write d buffer offset).1 = 0 ∧
      (StorageDevice.write d buffer offset).2.Holds content drive S (patch bytes offset buffer) := by
  obtain ⟨rfl, hp, rfl⟩ := h
  obtain ⟨h', hrun, hcontent⟩ := IDEDevice.run_write ht hp offset buffer hs.within
  have hbuffer : (if offset % 512 = 0 ∧ buffer.length % 512 = 0 then
      buffer.take (IDEDevice.narrowed buffer.length) else buffer) = buffer := by
    split_ifs with ha
    · rw [IDEDevice.narrowed_small ha.2 (hs.counted ha.1 ha.2), List.take_length]
    · rfl
  rw [hbuffer] at hcontent
  change (IDEDevice.write d.ideID offset buffer d.machine).1 = _ ∧
    IDEDisk.Holds content d.ideID S { d with machine := (IDEDevice.write d.ideID offset buffer d.machine).2 } _
  rw [hrun]
  exact ⟨rfl, rfl, hp, hcontent⟩

end Requests

def ideTwins (ht : IDE.Transfers content drive S) : DeviceTwins (IDEDisk σ) Watched where
  rel d q := d.Holds content drive S q.bytes
  good q := ∀ r ∈ q.requests, r.Served S
  reads d q size offset h hgood := by
    obtain ⟨hbefore, hserved⟩ := List.forall_mem_append.mp hgood
    have hread := (h hbefore).read ht (hserved _ (List.mem_singleton_self _))
    exact ⟨hbefore, hread.1, hread.2⟩
  writes d q buffer offset h hgood := by
    obtain ⟨hbefore, hserved⟩ := List.forall_mem_append.mp hgood
    have hwrite := (h hbefore).write ht (hserved _ (List.mem_singleton_self _))
    exact ⟨hbefore, hwrite.1, hwrite.2⟩

end

inductive Answer
  | status (status : ℤ)
  | content (status : ℤ) (buffer : List UInt8)
  | names (status : ℤ) (entries : List (Str × ℕ))
deriving DecidableEq

section Clients
variable {σ : Type} [StorageDevice σ]

def Call.ask : Call → Action σ Answer
  | .read path size offset => do
    let r ← FatOperations.read path size offset
    pure (.content r.1 r.2)
  | .readdir path => do
    let r ← FatOperations.readdir path
    pure (.names r.1 r.2)
  | call => do
    let status ← call.run
    pure (.status status)

abbrev Client := List Answer → Option Call

def Client.session (client : Client) : ℕ → List Answer → Action σ (List Answer)
  | 0, answers => pure answers
  | n + 1, answers =>
    match client answers with
    | none => pure answers
    | some call => do
      let answer ← call.ask
      client.session n (answer :: answers)

end Clients

namespace DeviceTwins
variable {σ τ : Type} [StorageDevice σ] [StorageDevice τ] {T : DeviceTwins σ τ}

theorem ask (c : Call) : T.Same c.ask c.ask := by
  cases c with
  | read path size offset => exact Follows.bind (read path size offset) fun _ => pure _
  | readdir path => exact Follows.bind (readdir path) fun _ => pure _
  | create | mkdir | write | truncate | unlink | rmdir | rename | utimens | countFree =>
    exact Follows.bind (call _) fun _ => pure _

theorem session (client : Client) (n : ℕ) (answers : List Answer) :
    T.Same (client.session n answers) (client.session n answers) := by
  induction n generalizing answers with
  | zero => exact pure _
  | succ n ih =>
    unfold Client.session
    rcases client answers with _ | c
    · exact pure _
    · exact Follows.bind (ask c) fun _ => ih _

end DeviceTwins

def Client.requests (client : Client) (n : ℕ) (s : Fs) : List Record :=
  match client.session n [] (s.mount (⟨s.partition.parent.bytes, []⟩ : Watched)) with
  | some (_, d) => d.partition.parent.requests
  | none => []

/-- Whatever a client asks of the driver, on the IDE drive it gets the answers that a flat array would give, and
the drive is left with the bytes of that array. -/
theorem session_on_ide {σ : Type} [IDE.Controller σ] {content : σ → Store} {drive S : ℕ}
    (ht : IDE.Transfers content drive S) (client : Client) (n : ℕ) (s t : Fs) (answers : List Answer)
    (hrun : client.session n [] s = some (answers, t)) (hserved : ∀ r ∈ client.requests n s, r.Served S)
    (d : IDEDisk σ) (hd : d.Holds content drive S s.partition.parent.bytes) :
    ∃ d' : IDEDisk σ, client.session n [] (s.mount d) = some (answers, t.mount d') ∧
      d'.Holds content drive S t.partition.parent.bytes := by
  obtain ⟨-, w, hw, hmount, hbytes⟩ := DeviceTwins.session client n [] _ s
    (⟨rfl, fun _ => rfl⟩ : watched.pairing.rel (s.mount ⟨s.partition.parent.bytes, []⟩) s) answers t hrun trivial
  rw [Client.requests, hw] at hserved
  obtain ⟨-, d', hd', hmount', hholds⟩ := DeviceTwins.session client n [] (s.mount d) _
    (⟨rfl, fun _ => hd⟩ : (ideTwins ht).pairing.rel (s.mount d) (s.mount (⟨s.partition.parent.bytes, []⟩ : Watched)))
    answers w hw hserved
  have hcontent : w.partition.parent.bytes = t.partition.parent.bytes := hbytes trivial
  refine ⟨d'.partition.parent, ?_, hcontent ▸ hholds hserved⟩
  rw [hd', hmount', hmount]
  rfl

section Sample
open FatSample

def toucher : Client
  | [] => some .countFree
  | [_] => some (.utimens [slash] 5)
  | _ => none

instance (S : ℕ) (r : Record) : Decidable (r.Served S) :=
  decidable_of_iff (r.offset + r.size ≤ 512 * S ∧ (r.offset % 512 = 0 → r.size % 512 = 0 → r.size < 512 * 256))
    ⟨fun h => ⟨h.1, h.2⟩, fun h => ⟨h.within, h.counted⟩⟩

def blankDrive :
    IDEDisk IDEDevice.FlatDrive := ⟨⟨fun _ => ⟨true, .IDE_ATA, 15⟩, ⟨blank.partition.parent.bytes⟩⟩, 0, 0,
    fun _ => 0⟩

theorem session_on_ide_toucher : ∃ d' : IDEDisk IDEDevice.FlatDrive, ∃ t : Fs,
    toucher.session 3 [] (blank.mount blankDrive) = some ([.status 0, .status 12], t.mount d') := by
  have hanswers : (toucher.session 3 [] blank).map Prod.fst = some [.status 0, .status 12] := by
    decide +kernel
  obtain ⟨⟨answers, t⟩, hrun, rfl⟩ := Option.map_eq_some_iff.mp hanswers
  obtain ⟨d', hd', -⟩ := session_on_ide (IDEDevice.flatDrive_transfers 0 15) toucher 3 blank t _ hrun
     (by decide +kernel)
    blankDrive ⟨rfl, ⟨by decide, rfl, rfl, rfl, by decide⟩, rfl⟩
  exact ⟨d', t, hd'⟩

end Sample

end Thorn.FatDriver
