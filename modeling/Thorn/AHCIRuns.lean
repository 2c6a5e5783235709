import Thorn.AHCIFlat

set_option autoImplicit false

namespace Thorn.AHCI
open ByteStore

/-- A disk of whole blocks behind the port: how each transfer ends, and the
blocks that were written, in order. -/
structure Disk where
  bytes : Store
  status : ℕ → AccessStatus
  written : List ℕ

instance : Port Disk where
  write d lba buffer := (d.status lba,
    { d with
      bytes := if d.status lba = .Success then patch d.bytes (512 * lba) buffer else d.bytes
      written := d.written ++ [lba] })

def CacheLength : ℕ := 2 ^ 20 / 2 ^ 3

def fresh (D : Store) : AHCIDevice Disk := ⟨.empty CacheLength (by decide), ⟨D, fun _ => .Success, []⟩⟩

inductive Call
  | read (size offset : ℕ)
  | write (buffer : List UInt8) (offset : ℕ)

namespace Call
variable {π : Type}

def run : Call → Action π (ℤ × List UInt8)
  | .read size offset => AHCI.read size offset
  | .write buffer offset => do
    let status ← AHCI.write buffer offset
    pure (status, [])

def after (F : Store) : Call → Store
  | .read _ _ => F
  | .write buffer offset => patch F offset buffer

def answer (F : Store) : Call → List UInt8
  | .read size offset => slice F offset size
  | .write _ _ => []

/-- The request is not an empty one at a block boundary, and every block that it
reads, or writes in part, is still cached when its turn comes or holds only zeros. -/
def Served (d : AHCIDevice π) (F : Store) : Call → Prop
  | .read size offset => (size ≠ 0 ∨ offset % 512 ≠ 0) ∧
      Held d.cache.maxSize F (fun _ => True) d.cache.list (offset / 512) (blocks (offset % 512 + size))
  | .write buffer offset => (buffer.length ≠ 0 ∨ offset % 512 ≠ 0) ∧
      Held d.cache.maxSize F (Partial offset buffer.length) d.cache.list (offset / 512)
        (blocks (offset % 512 + buffer.length))

end Call

def ServedAll {π : Type} (d : AHCIDevice π) (F : Store) : List Call → Prop
  | [] => True
  | c :: rest => c.Served d F ∧ ∀ p, c.run d = some p → ServedAll p.2 (c.after F) rest

def BehavesFlat {π : Type} (d : AHCIDevice π) (F : Store) : List Call → Prop
  | [] => True
  | c :: rest => ∃ d', c.run d = some ((0, c.answer F), d') ∧ BehavesFlat d' (c.after F) rest

section Flat
variable {π : Type} {d : AHCIDevice π} {F : Store} {cap : ℕ} {keys : List ℕ}

theorem run_call (h : Tracks d F cap keys) {c : Call} (hs : c.Served d F) :
    ∃ d' keys', c.run d = some ((0, c.answer F), d') ∧ Tracks d' (c.after F) cap keys' := by
  cases c with
  | read size offset =>
    obtain ⟨h0, hheld⟩ := hs
    rw [h.cap, h.keys] at hheld
    obtain ⟨d', hrun, h'⟩ := run_read h size offset h0 hheld
    exact ⟨d', _, hrun, h'⟩
  | write buffer offset =>
    obtain ⟨h0, hheld⟩ := hs
    rw [h.cap, h.keys] at hheld
    obtain ⟨d', hrun, h'⟩ := run_write h buffer offset h0 hheld
    refine ⟨d', _, ?_, h'⟩
    simp only [Call.run, run_bind, hrun, Option.bind_some, run_pure]
    rfl

theorem run_calls (calls : List Call) (h : Tracks d F cap keys) (hs : ServedAll d F calls) :
    BehavesFlat d F calls := by
  induction calls generalizing d F keys with
  | nil => trivial
  | cons c rest ih =>
    obtain ⟨d', keys', hrun, h'⟩ := run_call h hs.1
    exact ⟨d', hrun, ih h' (hs.2 _ hrun)⟩

end Flat

theorem fresh_tracks (D F : Store) : Tracks (fresh D) F CacheLength [] where
  cap := rfl
  keys := rfl
  agrees b e he := by cases he

/-- From an empty cache on, served calls see the disk as a flat byte array. -/
theorem cached_flat (D : Store) (calls : List Call) (h : ServedAll (fresh D) D calls) :
    BehavesFlat (fresh D) D calls := run_calls calls (fresh_tracks D D) h

/-- A block that was written as a whole can be read in part. -/
theorem served_block (buffer : List UInt8) (hlen : buffer.length = 512) :
    ServedAll (fresh fun _ => 1) (fun _ => 1) [.write buffer 0, .read 100 200] := by
  have hblocks : blocks (0 % 512 + buffer.length) = 1 := by
    rw [hlen]
    rfl
  have hheld : Held CacheLength (fun _ => 1) (Partial 0 buffer.length) [] 0
      (blocks (0 % 512 + buffer.length)) := by
    rw [hblocks]
    refine ⟨fun hp => ?_, trivial⟩
    rcases hp with hp | hp <;> omega
  obtain ⟨d', hrun, h'⟩ := run_write (fresh_tracks (fun _ => 1) fun _ => 1) buffer 0 (.inl (by omega)) hheld
  refine ⟨⟨.inl (by omega), hheld⟩, fun p hp => ⟨⟨.inl (by omega), ?_⟩, fun _ _ => trivial⟩⟩
  have hp' : Call.run (.write buffer 0) (fresh fun _ => 1) = some ((0, []), d') := by
    simp only [Call.run, run_bind, hrun, Option.bind_some, run_pure]
  obtain rfl : ((0, []), d') = p := Option.some.inj (hp'.symm.trans hp)
  refine ⟨fun _ => .inl ?_, trivial⟩
  change 0 ∈ d'.cache.list
  rw [h'.keys, hblocks]
  exact Cache.touch_mem CacheLength [] 0

/-- A block is written as a whole, and a part of it read back. -/
theorem cached_flat_block : BehavesFlat (fresh fun _ => 1) (fun _ => 1)
    [.write (List.replicate 512 7) 0, .read 100 200] :=
  cached_flat _ _ (served_block _ List.length_replicate)

/-- The first read of a disk full of ones delivers zeros. -/
theorem cached_flat_zeros : ¬ BehavesFlat (fresh fun _ => 1) (fun _ => 1) [.read 512 0] := by
  rintro ⟨d', hrun, -⟩
  obtain ⟨d'', hzero, -⟩ := run_read (fresh_tracks (fun _ => 1) fun _ => 0) 512 0 (.inl (by omega))
    ⟨fun _ => .inr fun _ _ => rfl, trivial⟩
  rw [Call.run, hzero] at hrun
  simp only [Option.some.injEq, Prod.mk.injEq, Call.answer] at hrun
  have hfirst := congrArg (fun l : List UInt8 => l[0]?) hrun.1.2
  simp only [slice_getElem? _ _ _ _ (show 0 < 512 by omega)] at hfirst
  cases hfirst

end Thorn.AHCI
