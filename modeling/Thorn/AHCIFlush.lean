import Thorn.AHCIRuns

set_option autoImplicit false

namespace Thorn.AHCI
open ByteStore

section Port
variable {π α β : Type}

def KeepsPort (x : Action π α) : Prop := ∀ d a d', x d = some (a, d') → d'.port = d.port

theorem keepsPort_pure (a : α) : KeepsPort (pure a : Action π α) := by
  intro d b d' h
  rw [run_pure] at h
  exact congrArg (fun p => p.2.port) (Option.some.inj h).symm

theorem keepsPort_halt : KeepsPort (halt : Action π α) := by
  intro d a d' h
  cases h

theorem keepsPort_bind {x : Action π α} {f : α → Action π β} (hx : KeepsPort x) (hf : ∀ a, KeepsPort (f a)) :
    KeepsPort (x >>= f) := by
  intro d b d' h
  rw [run_bind] at h
  obtain ⟨⟨a, d₁⟩, h₁, h₂⟩ := Option.bind_eq_some_iff.mp h
  exact (hf a d₁ b d' h₂).trans (hx d a d₁ h₁)

theorem keepsPort_ite {c : Prop} [Decidable c] {x y : Action π α} (hx : KeepsPort x) (hy : KeepsPort y) :
    KeepsPort (if c then x else y) := by
  split_ifs
  · exact hx
  · exact hy

theorem keepsPort_lookup (b : ℕ) : KeepsPort (lookup b : Action π Bool) := by
  intro d a d' h
  exact congrArg (fun p => p.2.port) (Option.some.inj h).symm

theorem keepsPort_entry (b : ℕ) : KeepsPort (entry b : Action π StorageCacheEntry) := by
  intro d a d' h
  exact congrArg (fun p => p.2.port) (Option.some.inj h).symm

theorem keepsPort_update (b : ℕ) (f : StorageCacheEntry → StorageCacheEntry) :
    KeepsPort (update b f : Action π Unit) := by
  intro d a d' h
  exact congrArg (fun p => p.2.port) (Option.some.inj h).symm

theorem keepsPort_fill {x : Action π (ℤ × List UInt8)} (hx : KeepsPort x) (b : ℕ)
    (f : List UInt8 → StorageCacheEntry → StorageCacheEntry) {next : ℤ → Action π β}
    (hnext : ∀ status, KeepsPort (next status)) : KeepsPort (x >>= fun (status, bytes) =>
      if status ≠ 0 then pure status >>= next else update b (f bytes) >>= fun _ => pure 0 >>= next) :=
  keepsPort_bind hx fun _ => keepsPort_ite (keepsPort_bind (keepsPort_pure _) hnext)
    (keepsPort_bind (keepsPort_update b _) fun _ => keepsPort_bind (keepsPort_pure 0) hnext)

section Requests
variable {read : ℕ → ℕ → Action π (ℤ × List UInt8)} (hread : ∀ size offset, KeepsPort (read size offset))
include hread

theorem keepsPort_readHead (size offset : ℕ) : KeepsPort (readHead read size offset) := by
  refine keepsPort_bind (keepsPort_lookup _) fun created => ?_
  have hnext := fun (status : ℤ) (part : StorageCacheEntry → List UInt8) =>
    keepsPort_ite (c := status ≠ 0) (keepsPort_pure (status, ([] : List UInt8)))
      (keepsPort_bind (keepsPort_entry (π := π) (offset / BlockSize)) fun e => keepsPort_pure (0, part e))
  exact keepsPort_ite
    (keepsPort_fill (hread _ _) _ (fun bytes e => ⟨patch e.data 0 bytes, true⟩) fun status => hnext status _)
    (keepsPort_bind (keepsPort_pure 0) fun status => hnext status _)

theorem keepsPort_readTail (size offset : ℕ) : KeepsPort (readTail read size offset) := by
  refine keepsPort_bind (keepsPort_lookup _) fun created => ?_
  have hnext := fun (status : ℤ) (part : StorageCacheEntry → List UInt8) =>
    keepsPort_ite (c := status ≠ 0) (keepsPort_pure (status, ([] : List UInt8)))
      (keepsPort_bind (keepsPort_entry (π := π) (offset / BlockSize)) fun e => keepsPort_pure (0, part e))
  exact keepsPort_ite
    (keepsPort_fill (hread _ _) _ (fun bytes e => ⟨patch e.data 0 bytes, true⟩) fun status => hnext status _)
    (keepsPort_bind (keepsPort_pure 0) fun status => hnext status _)

theorem keepsPort_readAligned (fuel size offset : ℕ) : KeepsPort (readAligned read fuel size offset) := by
  induction fuel generalizing size offset with
  | zero => exact keepsPort_halt
  | succ fuel ih =>
    refine keepsPort_ite ?_ (keepsPort_ite keepsPort_halt (keepsPort_readTail hread _ _))
    refine keepsPort_bind (keepsPort_lookup _) fun _ => keepsPort_bind (keepsPort_update _ _) fun _ =>
      keepsPort_bind (keepsPort_entry _) fun _ => keepsPort_ite (keepsPort_pure _) ?_
    exact keepsPort_bind (ih _ _) fun _ => keepsPort_pure _

end Requests

theorem keepsPort_readCache (depth size offset : ℕ) :
    KeepsPort (readCache depth size offset : Action π (ℤ × List UInt8)) := by
  induction depth generalizing size offset with
  | zero => exact keepsPort_halt
  | succ depth ih =>
    refine keepsPort_ite ?_ (keepsPort_readAligned ih _ _ _)
    refine keepsPort_bind (keepsPort_readHead ih _ _) fun _ => keepsPort_ite (keepsPort_pure _)
      (keepsPort_ite (keepsPort_pure _) ?_)
    exact keepsPort_bind (keepsPort_readAligned ih _ _ _) fun _ => keepsPort_pure _

theorem keepsPort_writePart (block rem fill_size fill_offset : ℕ) (buffer : List UInt8) :
    KeepsPort (writePart block rem fill_size fill_offset buffer : Action π ℤ) := by
  refine keepsPort_bind (keepsPort_lookup _) fun created => ?_
  have hnext := fun status : ℤ => keepsPort_ite (c := status ≠ 0) (keepsPort_pure (π := π) status)
    (keepsPort_bind (keepsPort_update block fun e => ⟨patch e.data rem buffer, e.flushed⟩) fun _ => keepsPort_pure 0)
  exact keepsPort_ite
    (keepsPort_fill (keepsPort_readCache 2 _ _) _ (fun bytes e => ⟨patch e.data 0 bytes, e.flushed⟩) hnext)
    (keepsPort_bind (keepsPort_update _ _) fun _ => keepsPort_bind (keepsPort_pure 0) hnext)

theorem keepsPort_writeAligned (fuel : ℕ) (buffer : List UInt8) (offset : ℕ) :
    KeepsPort (writeAligned fuel buffer offset : Action π ℤ) := by
  induction fuel generalizing buffer offset with
  | zero => exact keepsPort_halt
  | succ fuel ih =>
    refine keepsPort_ite ?_ (keepsPort_ite keepsPort_halt (keepsPort_writePart _ _ _ _ _))
    exact keepsPort_bind (keepsPort_lookup _) fun _ => keepsPort_bind (keepsPort_update _ _) fun _ =>
      keepsPort_bind (keepsPort_update _ _) fun _ => keepsPort_ite (keepsPort_pure 0) (ih _ _)

theorem keepsPort_writeCache (buffer : List UInt8) (offset : ℕ) :
    KeepsPort (writeCache buffer offset : Action π ℤ) := by
  refine keepsPort_ite ?_ (keepsPort_writeAligned _ _ _)
  exact keepsPort_bind (keepsPort_writePart _ _ _ _ _) fun _ => keepsPort_ite (keepsPort_pure _)
    (keepsPort_ite (keepsPort_pure 0) (keepsPort_writeAligned _ _ _))

theorem keepsPort_call (c : Call) : KeepsPort (c.run : Action π (ℤ × List UInt8)) := by
  cases c with
  | read size offset => exact keepsPort_readCache 2 size offset
  | write buffer offset => exact keepsPort_bind (keepsPort_writeCache buffer offset) fun _ => keepsPort_pure _

def runCalls : List Call → Action π Unit
  | [] => pure ()
  | c :: rest => do
    let _ ← c.run
    runCalls rest

theorem keepsPort_calls (calls : List Call) : KeepsPort (runCalls calls : Action π Unit) := by
  induction calls with
  | nil => exact keepsPort_pure ()
  | cons c rest ih => exact keepsPort_bind (keepsPort_call c) fun _ => ih

end Port

section Flush
variable {π : Type} [Port π]

def AllFlushed (d : AHCIDevice π) : Prop := ∀ b e, d.cache.map b = some e → e.flushed = true

theorem run_flushEntry_clean {d : AHCIDevice π} {b : ℕ} {e : StorageCacheEntry} (he : d.cache.map b = some e)
    (hclean : e.flushed = true) : flushEntry b d = some ((), d) := by
  simp only [flushEntry, run_bind, run_entry, he, Option.getD_some, Option.bind_some, hclean, if_true, run_pure]

theorem run_flushEntry_dirty {d : AHCIDevice π} {b : ℕ} {e : StorageCacheEntry} (he : d.cache.map b = some e)
    (hdirty : e.flushed = false) (hport : (Port.write d.port b (slice e.data 0 BlockSize)).1 = .Success) :
    flushEntry b d = none := by
  have hwrite : (portWrite b (slice e.data 0 BlockSize) : Action π AccessStatus) d =
      some (.Success, { d with port := (Port.write d.port b (slice e.data 0 BlockSize)).2 }) := by
    rw [portWrite, hport]
  simp only [flushEntry, run_bind, run_entry, he, Option.getD_some, Option.bind_some, hdirty,
    Bool.false_eq_true, if_false, hwrite, AccessStatus.code]
  rfl

theorem run_flushLoop_clean {d : AHCIDevice π} {keys : List ℕ} (h : AllFlushed d)
    (hkeys : ∀ b ∈ keys, b ∈ d.cache.list) : flushLoop keys d = some ((), d) := by
  induction keys with
  | nil => rfl
  | cons b rest ih =>
    obtain ⟨e, he⟩ := Option.isSome_iff_exists.mp ((d.cache.keys b).mp (hkeys b List.mem_cons_self))
    rw [flushLoop, run_bind, run_flushEntry_clean he (h b e he), Option.bind_some]
    exact ih fun j hj => hkeys j (List.mem_cons_of_mem b hj)

/-- The first dirty entry whose transfer succeeds halts the kernel. -/
theorem run_flushLoop_dirty {d : AHCIDevice π} {keys : List ℕ} (hkeys : ∀ b ∈ keys, b ∈ d.cache.list)
    (hport : ∀ b bytes, (Port.write d.port b bytes).1 = .Success) {b : ℕ}
    (hb : b ∈ keys) {e : StorageCacheEntry}
    (he : d.cache.map b = some e) (hdirty : e.flushed = false) : flushLoop keys d = none := by
  induction keys with
  | nil => cases hb
  | cons j rest ih =>
    obtain ⟨e', he'⟩ := Option.isSome_iff_exists.mp ((d.cache.keys j).mp (hkeys j List.mem_cons_self))
    rw [flushLoop, run_bind]
    cases hj : e'.flushed with
    | false => rw [run_flushEntry_dirty he' hj (hport _ _), Option.bind_none]
    | true =>
      have hne : b ≠ j := by
        rintro rfl
        rw [Option.some.inj (he.symm.trans he')] at hdirty
        rw [hdirty] at hj
        cases hj
      rw [run_flushEntry_clean he' hj, Option.bind_some]
      exact ih (fun i hi => hkeys i (List.mem_cons_of_mem j hi)) ((List.mem_cons.mp hb).resolve_left hne)

theorem run_flush_clean {d : AHCIDevice π} (h : AllFlushed d) : flush d = some ((), d) := by
  rw [flush, run_bind, run_get, Option.bind_some]
  exact run_flushLoop_clean h fun b hb => List.mem_mergeSort.mp hb

theorem flush_returns {d d' : AHCIDevice π} (hport : ∀ b bytes, (Port.write d.port b bytes).1 = .Success)
    (h : flush d = some ((), d')) : AllFlushed d := by
  intro b e he
  by_contra hdirty
  have hmem : b ∈ d.cache.list := (d.cache.keys b).mpr (he ▸ rfl)
  rw [flush, run_bind, run_get, Option.bind_some] at h
  rw [run_flushLoop_dirty (fun j hj => List.mem_mergeSort.mp hj) hport (List.mem_mergeSort.mpr hmem) he
    (Bool.eq_false_iff.mpr hdirty)] at h
  cases h

end Flush

def AHCIDevice.withStatus (d : AHCIDevice Disk) (status : ℕ → AccessStatus) : AHCIDevice Disk :=
  { d with port := { d.port with status := status } }

/-- A flush takes everything to the disk, which becomes `F`; one more writes
nothing; and an entry whose transfer fails is not marked flushed. -/
structure FlushPersists (d : AHCIDevice Disk) (F : Store) : Prop where
  returns : ∃ d', flush d = some ((), d') ∧ AllFlushed d' ∧ d'.port.bytes = F ∧
    ∃ d'', flush d' = some ((), d'') ∧ d''.port.written = d'.port.written
  failed : ∀ status d', flush (d.withStatus status) = some ((), d') → ∀ b e, d.cache.map b = some e →
    e.flushed = false → status b ≠ .Success → ∃ e', d'.cache.map b = some e' ∧ e'.flushed = false

/-- A flush after a run does its work just when there is none to do: the cache is
clean, and the writes of the run left the flat array as it was. -/
theorem flush_persists_iff (D : Store) (calls : List Call) (d : AHCIDevice Disk)
    (h : runCalls calls (fresh D) = some ((), d)) :
    FlushPersists d (calls.foldl Call.after D) ↔ AllFlushed d ∧ calls.foldl Call.after D = D := by
  have hport : d.port = (fresh D).port := keepsPort_calls calls _ _ _ h
  constructor
  · rintro ⟨⟨d', hrun, -, hbytes, -⟩, -⟩
    have hclean : AllFlushed d := flush_returns (fun b bytes => by rw [hport]; rfl) hrun
    rw [run_flush_clean hclean] at hrun
    obtain rfl : d = d' := congrArg Prod.snd (Option.some.inj hrun)
    exact ⟨hclean, by rw [← hbytes, hport]; rfl⟩
  · rintro ⟨hclean, hsame⟩
    refine ⟨⟨d, run_flush_clean hclean, hclean, by rw [hport, hsame]; rfl, d, run_flush_clean hclean, rfl⟩, ?_⟩
    intro status d' hrun b e he hdirty
    rw [hclean b e he] at hdirty
    cases hdirty

/-- An unaligned read leaves nothing to flush. -/
theorem flush_persists_read : ∃ d, runCalls [.read 100 200] (fresh fun _ => 0) = some ((), d) ∧
    (FlushPersists d (fun _ => 0) ↔ AllFlushed d ∧
      ([.read 100 200] : List Call).foldl Call.after (fun _ => 0) = fun _ => 0) :=
  ⟨_, rfl, flush_persists_iff (fun _ => 0) [.read 100 200] _ rfl⟩

/-- One byte is written and flushed. -/
theorem flush_halts : ∃ d, runCalls [.write [1] 0] (fresh fun _ => 0) = some ((), d) ∧
    ¬ FlushPersists d (([.write [1] 0] : List Call).foldl Call.after fun _ => 0) := by
  refine ⟨_, rfl, fun h => ?_⟩
  obtain ⟨d', hrun, -⟩ := h.returns
  have hclean := flush_returns (fun _ _ => rfl) hrun
  cases hclean 0 _ rfl

end Thorn.AHCI
