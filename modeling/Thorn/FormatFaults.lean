import Thorn.FatFormat

set_option autoImplicit false

namespace Thorn.FatOperations
open ByteStore Paths FatTypes FatDriver

structure Logged (σ : Type) where
  device : σ
  statuses : List ℤ

section Logged
variable {σ α β : Type} [StorageDevice σ]

instance : StorageDevice (Logged σ) where
  read x size offset :=
    let r := StorageDevice.read x.device size offset
    (r.1, { x with device := r.2 })
  write x buffer offset :=
    let r := StorageDevice.write x.device buffer offset
    (r.1, ⟨r.2, x.statuses ++ [r.1]⟩)
  clear x offset size :=
    let r := StorageDevice.clear x.device offset size
    (r.1, { x with device := r.2 })

def AllWritten (offset : ℕ) : List (List UInt8 × ℕ) → σ → Prop
  | [], _ => True
  | (buffer, position) :: ws, x =>
    (StorageDevice.write x buffer ((offset + position) % 2 ^ 64)).1 = 0 ∧
      AllWritten offset ws (StorageDevice.write x buffer ((offset + position) % 2 ^ 64)).2

def stored (offset : ℕ) : List (List UInt8 × ℕ) → σ → σ
  | [], x => x
  | (buffer, position) :: ws, x => stored offset ws (StorageDevice.write x buffer ((offset + position) % 2 ^ 64)).2

theorem allWritten_append (offset : ℕ) (ws vs : List (List UInt8 × ℕ)) (x : σ) :
    AllWritten offset (ws ++ vs) x ↔ AllWritten offset ws x ∧ AllWritten offset vs (stored offset ws x) := by
  induction ws generalizing x with
  | nil => exact (iff_of_eq (true_and _)).symm
  | cons w ws ih =>
    rw [List.cons_append, AllWritten, AllWritten, ih, and_assoc, stored]

theorem stored_append (offset : ℕ) (ws vs : List (List UInt8 × ℕ)) (x : σ) :
    stored offset (ws ++ vs) x = stored offset vs (stored offset ws x) := by
  induction ws generalizing x with
  | nil => rfl
  | cons w ws ih => exact ih _

/-- The action ends. It makes the writes of the list, starting with one write offset and ending with another,
unless one of them fails; and then it has noted that. -/
def Lays (x : Action (Logged σ) α) (o o' : ℕ) (ws : List (List UInt8 × ℕ)) : Prop :=
  ∀ d, ∃ a d' ss, x d = some (a, d') ∧ d'.partition.offset = d.partition.offset ∧
    d'.partition.parent.statuses = d.partition.parent.statuses ++ ss ∧
    (d.writeOffset = o → ((∀ status ∈ ss, status = 0) ↔ AllWritten d.partition.offset ws d.partition.parent.device) ∧
      (AllWritten d.partition.offset ws d.partition.parent.device →
        d'.partition.parent.device = stored d.partition.offset ws d.partition.parent.device ∧ d'.writeOffset = o'))

namespace Lays
variable {o o₁ o₂ : ℕ} {ws vs : List (List UInt8 × ℕ)}

theorem pure (a : α) (o : ℕ) : Lays (pure a : Action (Logged σ) α) o o [] := fun d =>
  ⟨a, d, [], rfl, rfl, (List.append_nil _).symm, fun h => ⟨by simp [AllWritten], fun _ => ⟨rfl, h⟩⟩⟩

theorem bind {x : Action (Logged σ) α} {f : α → Action (Logged σ) β} (hx : Lays x o o₁ ws)
    (hf : ∀ a, Lays (f a) o₁ o₂ vs) : Lays (x >>= f) o o₂ (ws ++ vs) := by
  intro d
  obtain ⟨a, d₁, ss, hrun, hoff, hlog, hws⟩ := hx d
  obtain ⟨b, d₂, ss', hrun', hoff', hlog', hvs⟩ := hf a d₁
  refine ⟨b, d₂, ss ++ ss', ?_, hoff'.trans hoff, ?_, fun ho => ?_⟩
  · rw [run_bind, hrun, Option.bind_some, hrun']
  · rw [hlog', hlog, List.append_assoc]
  · obtain ⟨hiff, hthen⟩ := hws ho
    rw [List.forall_mem_append, hiff, allWritten_append, stored_append]
    constructor
    · apply and_congr_right
      intro hall
      obtain ⟨hdev, ho₁⟩ := hthen hall
      have hiff' := (hvs ho₁).1
      rwa [hdev, hoff] at hiff'
    · rintro ⟨hall, hrest⟩
      obtain ⟨hdev, ho₁⟩ := hthen hall
      have hthen' := (hvs ho₁).2
      rw [hdev, hoff] at hthen'
      exact hthen' hrest

theorem update {f : Driver (Logged σ) → Driver (Logged σ)} (g : ℕ → ℕ) (hp : ∀ d, (f d).partition = d.partition)
    (ho : ∀ d, (f d).writeOffset = g d.writeOffset) (o : ℕ) :
    Lays (modify f : Action (Logged σ) PUnit) o (g o) [] := by
  intro d
  refine ⟨⟨⟩, f d, [], rfl, ?_, ?_, fun h => ⟨by simp [AllWritten], fun _ => ⟨?_, ?_⟩⟩⟩
  · rw [hp]
  · rw [hp, List.append_nil]
  · rw [hp]
    rfl
  · rw [ho, h]

theorem advance (n o : ℕ) :
    Lays (modify fun d => { d with writeOffset := (d.writeOffset + n) % 2 ^ 64 } : Action (Logged σ) PUnit) o
    ((o + n) % 2 ^ 64) [] :=
  update (fun o => (o + n) % 2 ^ 64) (by intro; rfl) (by intro; rfl) o

theorem write (buffer : List UInt8) (position o : ℕ) :
    Lays (partitionWrite buffer position : Action (Logged σ) ℤ) o o [(buffer, position)] := fun d =>
  ⟨_, _, [_], rfl, rfl, rfl, fun h => ⟨by simp [AllWritten], fun _ => ⟨rfl, h⟩⟩⟩

theorem record {buffer : List UInt8} {e : ℤ → α} {y : Action (Logged σ) α} (hy : Lays y o o₁ ws) :
    Lays (get >>= fun d => partitionWrite buffer d.writeOffset >>= fun status =>
      if status ≠ 0 then Pure.pure (e status) else y) o o₁ ((buffer, o) :: ws) := by
  intro d
  let status :=
    (StorageDevice.write d.partition.parent.device buffer ((d.partition.offset + d.writeOffset) % 2 ^ 64)).1
  obtain ⟨d₁, hwrite, hoff, hlog, hdev, ho⟩ : ∃ d₁ : Driver (Logged σ),
      partitionWrite buffer d.writeOffset d = some (status, d₁) ∧ d₁.partition.offset = d.partition.offset ∧
      d₁.partition.parent.statuses = d.partition.parent.statuses ++ [status] ∧ d₁.partition.parent.device =
        (StorageDevice.write d.partition.parent.device buffer ((d.partition.offset + d.writeOffset) % 2 ^ 64)).2 ∧
      d₁.writeOffset = d.writeOffset := ⟨_, rfl, rfl, rfl, rfl, rfl⟩
  rw [run_bind, run_get, Option.bind_some, run_bind, hwrite, Option.bind_some, run_ite]
  by_cases hs : status = 0
  · obtain ⟨a, d₂, ss, hrun, hoff', hlog', hws⟩ := hy d₁
    rw [if_neg (not_not.mpr hs)]
    refine ⟨a, d₂, status :: ss, hrun, hoff'.trans hoff, ?_, fun h => ?_⟩
    · rw [hlog', hlog, List.append_assoc, List.singleton_append]
    · obtain ⟨hiff, hthen⟩ := hws (ho.trans h)
      rw [hoff, hdev, h] at hiff hthen
      rw [List.forall_mem_cons, AllWritten, hiff]
      have hs' : (StorageDevice.write d.partition.parent.device buffer ((d.partition.offset + o) % 2 ^ 64)).1 =
          0 := h ▸ hs
      exact ⟨and_congr (iff_of_true hs hs') Iff.rfl, fun hall => hthen hall.2⟩
  · rw [if_pos hs]
    refine ⟨_, d₁, [status], rfl, hoff, hlog, fun h => ?_⟩
    have hs' : ¬ (StorageDevice.write d.partition.parent.device buffer ((d.partition.offset + o) % 2 ^ 64)).1 =
        0 := h ▸ hs
    refine ⟨iff_of_false (fun hall => hs (hall _ (List.mem_singleton_self _))) fun hall => hs' hall.1,
      fun hall => ?_⟩
    exact absurd hall.1 hs'

end Lays

def tableZeros : ℕ → ℕ → ℕ → List (List UInt8 × ℕ)
  | 0, _, _ => []
  | fuel + 1, position, remaining =>
    if 512 ≤ remaining then (List.replicate 512 0, position) :: tableZeros fuel (position + 512) (remaining - 512)
    else [(List.replicate remaining 0, position)]

def tableCells (n : ℤ) : ℕ → ℕ → List (List UInt8 × ℕ)
  | 0, _ => []
  | count + 1, o => (blockBytes n, o) :: tableCells n count ((o + 4) % 2 ^ 64)

def behindCells : ℕ → ℕ → ℕ
  | 0, o => o
  | count + 1, o => behindCells count ((o + 4) % 2 ^ 64)

def newRoot (table_size : ℕ) : DirEntry :=
  { DirEntry.empty with
    name := .ofBytes dotName, length := BitVec.ofNat 64 (2 * sizeofDirEntry),
    startBlock := BitVec.ofNat 32 (table_size + 1), type := FileType.Directory.code }

/-- The writes that make up a new file system: the superblock, the table and the root directory's entries. -/
def layout (b : Superblock) : List (List UInt8 × ℕ) :=
  let root := behindCells 1 (behindCells (b.fatBlocks + 1) b.blockSize)
  (b.encode, 0) :: tableZeros (b.fatBlocks * b.blockSize + 1) b.blockSize (b.fatBlocks * b.blockSize) ++
    tableCells UNUSABLE (b.fatBlocks + 1) b.blockSize ++
      tableCells FINAL 1 (behindCells (b.fatBlocks + 1) b.blockSize) ++
    [((newRoot b.fatBlocks).encode, root),
      (((newRoot b.fatBlocks).setName dotDotName).encode, (root + sizeofDirEntry) % 2 ^ 64)]

theorem lays_writeRecord (bytes : List UInt8) (o : ℕ) :
    Lays (writeRecord bytes : Action (Logged σ) ℤ) o ((o + bytes.length) % 2 ^ 64) [(bytes, o)] :=
  .record (.bind (.advance bytes.length o) fun _ => .pure 0 _)

theorem lays_writeMany (n : ℤ) (count o : ℕ) :
    Lays (writeMany n count : Action (Logged σ) ℤ) o (behindCells count o) (tableCells n count o) := by
  induction count generalizing o with
  | zero => exact .pure 0 o
  | succ count ih =>
    exact .record (.bind (.advance 4 o) fun _ => ih _)

theorem lays_initFATLoop (fuel position remaining o : ℕ) (hfuel : remaining < fuel) :
    Lays (initFATLoop fuel position remaining : Action (Logged σ) Unit) o o (tableZeros fuel position remaining) := by
  induction fuel generalizing position remaining with
  | zero => omega
  | succ fuel ih =>
    rw [initFATLoop, tableZeros]
    split_ifs with hlarge
    · exact .bind (.write _ _ o) fun _ => ih _ _ (by omega)
    · exact .bind (.write _ _ o) fun _ => .pure () o

theorem lays_initFAT (table_size block_size o : ℕ) :
    Lays (initFAT table_size block_size : Action (Logged σ) Unit) o
    (behindCells 1 (behindCells (table_size + 1) block_size))
    (tableZeros (table_size * block_size + 1) block_size (table_size * block_size) ++
      (tableCells UNUSABLE (table_size + 1) block_size ++
        tableCells FINAL 1 (behindCells (table_size + 1) block_size))) := by
  have hcells := Lays.bind (lays_writeMany (σ := σ) UNUSABLE (table_size + 1) block_size) fun _ =>
    .bind (lays_writeMany FINAL 1 (behindCells (table_size + 1) block_size)) fun _ => .pure () _
  rw [List.append_nil] at hcells
  have hset := Lays.bind (.update (f := fun d => { d with writeOffset := block_size }) (fun _ => block_size)
    (fun _ => rfl) (fun _ => rfl) o) fun _ => hcells
  exact .bind (lays_initFATLoop _ _ _ o (Nat.lt_succ_self _)) fun _ => hset

theorem lays_initData (table_size o : ℕ) : ∃ o', Lays (initData table_size : Action (Logged σ) Unit) o o'
    [((newRoot table_size).encode, o),
      (((newRoot table_size).setName dotDotName).encode, (o + sizeofDirEntry) % 2 ^ 64)] := by
  have hrecords := Lays.bind (lays_writeRecord (σ := σ) (newRoot table_size).encode o) fun _ =>
    .bind (lays_writeRecord ((newRoot table_size).setName dotDotName).encode _) fun _ => .pure () _
  rw [DirEntry.encode_length] at hrecords
  exact ⟨_, .bind (.update id (by intro; rfl) (by intro; rfl) o) fun _ => hrecords⟩

theorem lays_format (b : Superblock) (o : ℕ) :
    ∃ o', Lays (format b : Action (Logged σ) Bool) o o' (layout b) := by
  obtain ⟨o', hdata⟩ :=
    lays_initData (σ := σ) b.fatBlocks (behindCells 1 (behindCells (b.fatBlocks + 1) b.blockSize))
  have hrest := Lays.bind (lays_initFAT (σ := σ) b.fatBlocks b.blockSize ((0 + b.encode.length) % 2 ^ 64)) fun _ =>
    .bind hdata fun _ => .pure true o'
  have hall := Lays.bind (.update (f := fun d => { d with superblock := b, writeOffset := 0 }) (fun _ => 0)
    (fun _ => rfl) (fun _ => rfl) o) fun _ => .bind (lays_writeRecord b.encode 0) fun _ => hrest
  simp only [List.nil_append, List.append_nil, List.singleton_append, List.append_assoc] at hall
  refine ⟨o', ?_⟩
  simp only [layout, List.cons_append, List.append_assoc]
  exact hall

end Logged

section Make
variable {σ : Type} [StorageDevice σ]

/-- What is asked of a call of `make`, where `bytes` tells the bytes of the device: it divides by no zero, a request
that the geometry refuses leaves everything as it was, and a request that it grants has met no error. -/
structure MakeHarmless (bytes : σ → Store) (d : Driver (Logged σ)) (block_size : ℕ) : Prop where
  total : make block_size d ≠ none
  refused : ∀ d', (clearing d).1 = 0 → make block_size d = some (false, d') →
    (∀ i < d.partition.length, bytes d'.partition.parent.device (d.partition.offset + i) =
      bytes d.partition.parent.device (d.partition.offset + i)) ∧
    d'.superblock = d.superblock ∧ d'.root = d.root ∧ d'.blocksFree = d.blocksFree
  granted : ∀ d', make block_size d = some (true, d') →
    ∃ ss, d'.partition.parent.statuses = d.partition.parent.statuses ++ ss ∧ ∀ status ∈ ss, status = 0

/-- The device refuses to be cleared; or the block size is positive and either refused for a partition whose bytes
the clearing does not change, or accepted on a device that takes every write of the new layout. -/
def MakesCleanly (bytes : σ → Store) (d : Driver (Logged σ)) (block_size : ℕ) : Prop :=
  let cleared := StorageDevice.clear d.partition.parent.device d.partition.offset d.partition.length
  cleared.1 ≠ 0 ∨ block_size ≠ 0 ∧
    (¬ Accepted d.partition.length block_size → ∀ i < d.partition.length,
      bytes cleared.2 (d.partition.offset + i) = bytes d.partition.parent.device (d.partition.offset + i)) ∧
    (Accepted d.partition.length block_size →
      AllWritten d.partition.offset (layout (geometry d.partition.length block_size)) cleared.2)

/-- Exactly when `make` is harmless. -/
theorem make_harmless_iff (bytes : σ → Store) (d : Driver (Logged σ)) (block_size : ℕ) :
    MakeHarmless bytes d block_size ↔ MakesCleanly bytes d block_size := by
  by_cases hclear : (clearing d).1 = 0
  · by_cases hpos : block_size = 0
    · subst hpos
      refine iff_of_false (fun h => h.total (make_zero hclear)) ?_
      rintro (h | ⟨h, -⟩)
      · exact h hclear
      · exact h rfl
    · by_cases hacc : Accepted d.partition.length block_size
      · have hmake := make_granted hclear hacc
        obtain ⟨o', hlays⟩ := lays_format (σ := σ) (geometry d.partition.length block_size) d.writeOffset
        obtain ⟨a, d₁, ss, hrun, -, hlog, hws⟩ := hlays (clearing d).2
        obtain ⟨d₂, htrue, -⟩ := run_format (geometry d.partition.length block_size) (clearing d).2
        obtain ⟨rfl, rfl⟩ := Prod.mk.inj (Option.some.inj (hrun.symm.trans htrue))
        have hiff := (hws rfl).1
        have hok := hmake.trans hrun
        constructor
        · intro h
          obtain ⟨ss', hlog', hall⟩ := h.granted _ hok
          obtain rfl := List.append_cancel_left (hlog'.symm.trans hlog)
          exact .inr ⟨hpos, fun hno => absurd hacc hno, fun _ => hiff.mp hall⟩
        · rintro (h | ⟨-, -, h⟩)
          · exact absurd hclear h
          · refine ⟨?_, fun d' _ hd' => ?_, fun d' hd' => ?_⟩
            · rw [hok]
              exact Option.some_ne_none _
            · cases hok.symm.trans hd'
            · obtain rfl := congrArg Prod.snd (Option.some.inj (hok.symm.trans hd'))
              exact ⟨ss, hlog, hiff.mpr (h hacc)⟩
      · have hmake := make_refused hclear hpos hacc
        constructor
        · exact fun h => .inr ⟨hpos, fun _ => (h.refused _ hclear hmake).1, fun hyes => absurd hyes hacc⟩
        · rintro (h | ⟨-, h, -⟩)
          · exact absurd hclear h
          · refine ⟨?_, fun d' _ hd' => ?_, fun d' hd' => ?_⟩
            · rw [hmake]
              exact Option.some_ne_none _
            · obtain rfl := congrArg Prod.snd (Option.some.inj (hmake.symm.trans hd'))
              exact ⟨h hacc, rfl, rfl, rfl⟩
            · cases hmake.symm.trans hd'
  · have hmake : make block_size d = some (false, (clearing d).2) := make_uncleared hclear
    refine iff_of_true ⟨?_, fun d' h _ => absurd h hclear, fun d' hd' => ?_⟩ (.inl hclear)
    · rw [hmake]
      exact Option.some_ne_none _
    · cases hmake.symm.trans hd'

def ones : Driver (Logged FlatDevice) where
  partition := ⟨[], ⟨⟨fun _ => 1⟩, []⟩, 0, 7680⟩
  superblock := ⟨0, 0, 0, 0, 0⟩
  blocksFree := -1
  root := .empty
  writeOffset := 0

/-- A block size of 0 is divided by, and one of 641 is refused when everything is erased. -/
theorem ones_harmed :
    ¬ MakeHarmless (fun x => x.bytes) ones 0 ∧ ¬ MakeHarmless (fun x => x.bytes) ones 641 := by
  have hclear : (clearing ones).1 = 0 := rfl
  refine ⟨fun h => h.total (make_zero hclear), fun h => ?_⟩
  have hno : ¬ Accepted ones.partition.length 641 := fun h => absurd h.entries (by decide)
  have hsame := (h.refused _ hclear (make_refused hclear (by decide) hno)).1 0 (by decide)
  exact absurd hsame (by decide)

end Make

end Thorn.FatOperations
