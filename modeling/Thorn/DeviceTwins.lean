import Thorn.FatCalls
import Thorn.Library.Twins

set_option autoImplicit false

namespace Thorn.FatDriver
open ByteStore Paths FatTypes FatOperations Twins

variable {σ τ : Type} [StorageDevice σ] [StorageDevice τ]

/-- As long as what the device `τ` has been asked for is good, the device `σ` answers alike. -/
structure DeviceTwins (σ τ : Type) [StorageDevice σ] [StorageDevice τ] where
  rel : σ → τ → Prop
  good : τ → Prop
  reads : ∀ p q size offset, (good q → rel p q) → good (StorageDevice.read q size offset).2 → good q ∧
    (StorageDevice.read p size offset).1 = (StorageDevice.read q size offset).1 ∧
    rel (StorageDevice.read p size offset).2 (StorageDevice.read q size offset).2
  writes : ∀ p q buffer offset, (good q → rel p q) → good (StorageDevice.write q buffer offset).2 → good q ∧
    (StorageDevice.write p buffer offset).1 = (StorageDevice.write q buffer offset).1 ∧
    rel (StorageDevice.write p buffer offset).2 (StorageDevice.write q buffer offset).2

def Driver.mount (e : Driver τ) (p : σ) : Driver σ :=
  ⟨⟨e.partition.writeRecords, p, e.partition.offset, e.partition.length⟩, e.superblock,
    e.blocksFree, e.root, e.writeOffset⟩

def DeviceTwins.pairing (T : DeviceTwins σ τ) : Pairing (Driver σ) (Driver τ) where
  rel d e := d = e.mount d.partition.parent ∧ (T.good e.partition.parent → T.rel d.partition.parent e.partition.parent)
  good e := T.good e.partition.parent
  lost d _ e' _ hbad := ⟨e'.mount d.partition.parent, rfl, fun h => absurd h hbad⟩

/-- An action is followed through by the driver on the other device. -/
abbrev DeviceTwins.Same (T : DeviceTwins σ τ) {α : Type} (x : Action σ α) (y : Action τ α) : Prop :=
  Follows T.pairing x y

namespace DeviceTwins
variable {T : DeviceTwins σ τ} {α β : Type}

theorem pure (a : α) : T.Same (Pure.pure a) (Pure.pure a) := Follows.pure a

theorem hang : T.Same (hang : Action σ α) hang := Follows.none _ fun _ => rfl

theorem get {f : Driver σ → Action σ α} {g : Driver τ → Action τ α}
    (h : ∀ e : Driver τ, ∀ p : σ, T.Same (f (e.mount p)) (g e)) :
    T.Same (MonadState.get >>= f) (MonadState.get >>= g) :=
  Follows.get fun d e hd => hd.1 ▸ h e d.partition.parent d e hd

theorem partitionRead (size byte_offset : ℕ) :
    T.Same (FatDriver.partitionRead size byte_offset) (FatDriver.partitionRead size byte_offset) := by
  rintro d e ⟨hd, hrel⟩ a e' hy hgood
  generalize d.partition.parent = p at hd hrel
  subst hd
  obtain ⟨rfl, rfl⟩ := Prod.mk.inj (Option.some.inj hy)
  obtain ⟨hgood₀, hbytes, hrel'⟩ := T.reads p _ size _ hrel hgood
  exact ⟨hgood₀, _, congrArg some (Prod.ext hbytes rfl), rfl, fun _ => hrel'⟩

theorem partitionWrite (buffer : List UInt8) (byte_offset : ℕ) :
    T.Same (FatDriver.partitionWrite buffer byte_offset) (FatDriver.partitionWrite buffer byte_offset) := by
  rintro d e ⟨hd, hrel⟩ a e' hy hgood
  generalize d.partition.parent = p at hd hrel
  subst hd
  obtain ⟨rfl, rfl⟩ := Prod.mk.inj (Option.some.inj hy)
  obtain ⟨hgood₀, hstatus, hrel'⟩ := T.writes p _ buffer _ hrel hgood
  exact ⟨hgood₀, _, congrArg some (Prod.ext hstatus rfl), rfl, fun _ => hrel'⟩

section Driver

theorem readFAT (b : ℤ) : T.Same (FatDriver.readFAT b) (FatDriver.readFAT b) := by
  unfold FatDriver.readFAT
  refine get fun e p => Follows.bind (partitionRead _ _) fun r => Follows.ite (fun _ => pure _) fun _ => pure _

theorem writeFAT (v b : ℤ) : T.Same (FatDriver.writeFAT v b) (FatDriver.writeFAT v b) := by
  unfold FatDriver.writeFAT
  refine get fun e p => Follows.bind (partitionWrite _ _) fun r => Follows.ite (fun _ => pure _) fun _ => pure _

theorem addBlocksFree (n : ℤ) : T.Same (FatDriver.addBlocksFree n) (FatDriver.addBlocksFree n) := by
  unfold FatDriver.addBlocksFree
  refine Follows.modify (fun d e hd => ⟨?_, hd.2⟩) fun e h => h
  rw [hd.1]
  rfl

theorem setBlocksFree (n : ℤ) : T.Same (modify fun d : Driver σ => { d with blocksFree := n })
    (modify fun d : Driver τ => { d with blocksFree := n }) := by
  refine Follows.modify (fun d e hd => ⟨?_, hd.2⟩) fun e h => h
  rw [hd.1]
  rfl

theorem findFreeLoop (n i : ℕ) : T.Same (FatDriver.findFreeLoop n i) (FatDriver.findFreeLoop n i) := by
  induction n generalizing i with
  | zero => exact pure _
  | succ n ih =>
    unfold FatDriver.findFreeLoop
    exact Follows.bind (readFAT _) fun v => Follows.ite (fun _ => pure _) fun _ => ih _

theorem findFreeBlock : T.Same FatDriver.findFreeBlock FatDriver.findFreeBlock := by
  unfold FatDriver.findFreeBlock
  exact get fun e p => findFreeLoop _ _

theorem hasFreeLoop (count n i scanned : ℕ) :
    T.Same (FatDriver.hasFreeLoop count n i scanned) (FatDriver.hasFreeLoop count n i scanned) := by
  induction n generalizing i scanned with
  | zero => exact pure _
  | succ n ih =>
    unfold FatDriver.hasFreeLoop
    exact Follows.bind (readFAT _) fun v => Follows.ite (fun _ => Follows.ite (fun _ => pure _) fun _ => ih _ _)
      fun _ => ih _ _

theorem hasFree (count : ℕ) : T.Same (FatDriver.hasFree count) (FatDriver.hasFree count) := by
  unfold FatDriver.hasFree
  exact get fun e p => hasFreeLoop _ _ _ _

theorem countFreeLoop (n : ℕ) : T.Same (FatDriver.countFreeLoop n) (FatDriver.countFreeLoop n) := by
  induction n with
  | zero => exact pure _
  | succ n ih =>
    unfold FatDriver.countFreeLoop
    exact Follows.bind (readFAT _) fun v => Follows.ite (fun _ => Follows.bind (addBlocksFree _) fun _ => ih)
      fun _ => ih

theorem countFree : T.Same FatDriver.countFree FatDriver.countFree := by
  unfold FatDriver.countFree
  refine Follows.get fun d e hd => ?_
  obtain ⟨hmount, hrel⟩ := id hd
  rw [hmount]
  refine FollowsFrom.ite (fun _ => pure _ _ _ ?_) fun _ => FollowsFrom.set ⟨rfl, hrel⟩ id ?_
  · exact ⟨rfl, hrel⟩
  · exact Follows.bind (countFreeLoop _) fun _ => get fun _ _ => pure _

theorem forgetLoop (fuel : ℕ) (block : ℤ) (removed : ℕ) :
    T.Same (FatDriver.forgetLoop fuel block removed) (FatDriver.forgetLoop fuel block removed) := by
  induction fuel generalizing block removed with
  | zero => exact hang
  | succ fuel ih =>
    unfold FatDriver.forgetLoop
    exact Follows.bind (readFAT _) fun next =>
      Follows.ite (fun _ => Follows.bind (writeFAT _ _) fun _ => pure _) fun _ =>
        Follows.ite (fun _ => Follows.bind (writeFAT _ _) fun _ => ih _ _) fun _ => pure _

theorem forget (start : ℤ) : T.Same (FatDriver.forget start) (FatDriver.forget start) := by
  unfold FatDriver.forget
  exact get fun e p => Follows.bind (forgetLoop _ _ _) fun _ => Follows.bind (addBlocksFree _) fun _ => pure _

theorem chainLengthLoop (fuel : ℕ) (block : ℤ) (length : ℕ) :
    T.Same (FatDriver.chainLengthLoop fuel block length) (FatDriver.chainLengthLoop fuel block length) := by
  induction fuel generalizing block length with
  | zero => exact hang
  | succ fuel ih =>
    unfold FatDriver.chainLengthLoop
    exact Follows.bind (readFAT _) fun next =>
      Follows.ite (fun _ => pure _) fun _ => Follows.ite (fun _ => hang) fun _ => ih _ _

theorem chainLength (start : ℤ) : T.Same (FatDriver.chainLength start) (FatDriver.chainLength start) := by
  unfold FatDriver.chainLength
  exact get fun e p => Follows.bind (readFAT _) fun _ =>
    Follows.ite (fun _ => pure _) fun _ => chainLengthLoop _ _ _

theorem refreshRoot (dir : DirEntry) : T.Same (FatDriver.refreshRoot dir) (FatDriver.refreshRoot dir) := by
  unfold FatDriver.refreshRoot
  refine Follows.get fun d e hd => ?_
  obtain ⟨hmount, hrel⟩ := id hd
  rw [hmount]
  exact FollowsFrom.ite (fun _ => FollowsFrom.set ⟨rfl, hrel⟩ id (pure _)) fun _ => pure _ _ _ ⟨rfl, hrel⟩

theorem writeEntry (dir : DirEntry) (offset : ℕ) :
    T.Same (FatDriver.writeEntry dir offset) (FatDriver.writeEntry dir offset) := by
  unfold FatDriver.writeEntry
  exact Follows.bind (partitionWrite _ _) fun _ => Follows.ite (fun _ => pure _) fun _ => get fun e p =>
    Follows.ite (fun _ => Follows.bind (partitionWrite _ _) fun _ => Follows.ite (fun _ => pure _)
      fun _ => refreshRoot _)
      fun _ => refreshRoot _

theorem getRoot : T.Same FatDriver.getRoot FatDriver.getRoot := by
  unfold FatDriver.getRoot
  refine get fun e p => Follows.ite (fun _ => pure _) fun _ => Follows.bind (partitionRead _ _) fun r =>
    Follows.bind (Follows.modify (fun d e hd => ⟨?_, hd.2⟩) fun _ h => h) fun _ => pure _
  rw [hd.1]
  rfl

theorem checkBlock (block : ℤ) : T.Same (FatDriver.checkBlock block) (FatDriver.checkBlock block) := by
  unfold FatDriver.checkBlock
  exact Follows.ite (fun _ => hang) fun _ => pure _

theorem shrinkLoop (fuel : ℕ) (block : ℤ) :
    T.Same (FatDriver.shrinkLoop fuel block) (FatDriver.shrinkLoop fuel block) := by
  induction fuel generalizing block with
  | zero => exact hang
  | succ fuel ih =>
    unfold FatDriver.shrinkLoop
    exact Follows.bind (readFAT _) fun _ => get fun e p => Follows.ite (fun _ => pure _) fun _ =>
      Follows.bind (writeFAT _ _) fun _ => Follows.bind (addBlocksFree _) fun _ => ih _

theorem readFileLoop (file : DirEntry) (bs fuel remaining : ℕ) (block : ℤ) (out : List UInt8) :
    T.Same (FatDriver.readFileLoop file bs fuel remaining block out)
      (FatDriver.readFileLoop file bs fuel remaining block out) := by
  induction fuel generalizing remaining block out with
  | zero => exact hang
  | succ fuel ih =>
    unfold FatDriver.readFileLoop
    refine Follows.ite (fun _ => pure _) fun _ => Follows.ite (fun _ => ?_) fun _ => ?_
    · exact Follows.bind (checkBlock _) fun _ => Follows.bind (partitionRead _ _) fun _ =>
        Follows.ite (fun _ => pure _) fun _ => Follows.bind (readFAT _) fun _ =>
          Follows.ite (fun _ => get fun e p => Follows.bind (writeFAT _ _) fun _ =>
            Follows.bind (shrinkLoop _ _) fun _ => pure _) fun _ => pure _
    · exact Follows.bind (readFAT _) fun _ => Follows.ite (fun _ => pure _) fun _ =>
        Follows.bind (checkBlock _) fun _ => Follows.bind (partitionRead _ _) fun _ =>
          Follows.ite (fun _ => pure _) fun _ => Follows.bind (readFAT _) fun _ => ih _ _ _

theorem readFile (file : DirEntry) : T.Same (FatDriver.readFile file) (FatDriver.readFile file) := by
  unfold FatDriver.readFile
  exact get fun e p => Follows.ite (fun _ => pure _) fun _ => readFileLoop _ _ _ _ _ _

theorem readDirLoop (raw : List UInt8) (bs entries_per_block n i : ℕ) (block : ℤ) :
    T.Same (FatDriver.readDirLoop raw bs entries_per_block n i block)
      (FatDriver.readDirLoop raw bs entries_per_block n i block) := by
  induction n generalizing i block with
  | zero => exact pure _
  | succ n ih =>
    unfold FatDriver.readDirLoop
    exact Follows.ite_bind (fun _ => readFAT _) (fun _ => pure _) fun _ => Follows.bind (ih _ _) fun _ => pure _

theorem readDir (dir : DirEntry) : T.Same (FatDriver.readDir dir) (FatDriver.readDir dir) := by
  unfold FatDriver.readDir
  exact get fun e p => Follows.ite (fun _ => pure _) fun _ => Follows.bind (readFile _) fun _ =>
    Follows.ite (fun _ => pure _) fun _ => Follows.ite (fun _ => hang) fun _ =>
      Follows.bind (readDirLoop _ _ _ _ _ _) fun _ => pure _

theorem isFree (entry : DirEntry) : T.Same (FatDriver.isFree entry) (FatDriver.isFree entry) := by
  unfold FatDriver.isFree
  exact Follows.ite (fun _ => pure _) fun _ => Follows.bind (readFAT _) fun _ => pure _

theorem hasStuff (entry : DirEntry) : T.Same (FatDriver.hasStuff entry) (FatDriver.hasStuff entry) := by
  unfold FatDriver.hasStuff
  exact Follows.ite (fun _ => Follows.bind (isFree _) fun _ => pure _) fun _ =>
    Follows.ite (fun _ => pure _) fun _ => pure _

theorem findEntry (search : Str) (entries : List (DirEntry × ℕ)) :
    T.Same (FatDriver.findEntry search entries) (FatDriver.findEntry search entries) := by
  induction entries with
  | nil => exact pure _
  | cons entry entries ih =>
    obtain ⟨entry, offset⟩ := entry
    unfold FatDriver.findEntry
    exact Follows.ite (fun _ => Follows.bind (isFree _) fun _ => Follows.ite (fun _ => ih) fun _ => pure _)
      fun _ => ih

theorem findLoop (get_parent : Bool) (fuel : ℕ) (remaining : Str) (dir : DirEntry) (dir_offset : ℕ) :
    T.Same (FatDriver.findLoop get_parent fuel remaining dir dir_offset)
      (FatDriver.findLoop get_parent fuel remaining dir dir_offset) := by
  induction fuel generalizing remaining dir dir_offset with
  | zero => exact hang
  | succ fuel ih =>
    unfold FatDriver.findLoop
    rcases pathFirst remaining with ⟨_ | search, newpath⟩
    · exact Follows.ite (fun _ => pure _) fun _ => pure _
    · refine Follows.ite (fun _ => pure _) fun _ => Follows.bind (readDir _) fun listing =>
        Follows.ite (fun _ => pure _) fun _ => Follows.bind (findEntry _ _) fun found => ?_
      rcases found with _ | ⟨entry, offset⟩
      · exact pure _
      · exact Follows.ite (fun _ => pure _) fun _ => Follows.ite (fun _ => pure _) fun _ => ih _ _ _

theorem find (path : Str) (get_parent : Bool) :
    T.Same (FatDriver.find path get_parent) (FatDriver.find path get_parent) := by
  unfold FatDriver.find
  exact Follows.bind getRoot fun _ => Follows.ite (fun _ => pure _) fun _ => findLoop _ _ _ _ _

end Driver

section Operations

theorem extendLoop (bs : ℕ) (old_free_block : ℤ) (fuel size_left : ℕ) (block : ℤ) :
    T.Same (FatOperations.extendLoop bs old_free_block fuel size_left block)
      (FatOperations.extendLoop bs old_free_block fuel size_left block) := by
  induction fuel generalizing size_left block with
  | zero => exact hang
  | succ fuel ih =>
    unfold FatOperations.extendLoop
    refine Follows.ite (fun _ => Follows.bind findFreeBlock fun _ => Follows.ite (fun _ => ?_) fun _ =>
      ?_) fun _ => ?_
    · exact Follows.bind (writeFAT _ _) fun _ => Follows.bind (setBlocksFree _) fun _ =>
        Follows.bind (writeFAT _ _) fun _ => Follows.bind countFree fun _ => pure _
    · exact Follows.bind (addBlocksFree _) fun _ => Follows.bind (writeFAT _ _) fun _ => ih _ _
    · exact Follows.bind (writeFAT _ _) fun _ => pure _

theorem newFileFinish (parent : FindResult) (newfile : DirEntry) (offset length : ℕ) (old_free_block : ℤ)
    (noalloc increase_parent_length : Bool) :
    T.Same (FatOperations.newFileFinish parent newfile offset length old_free_block noalloc increase_parent_length)
      (FatOperations.newFileFinish parent newfile offset length old_free_block noalloc increase_parent_length) := by
  unfold FatOperations.newFileFinish
  exact get fun e p => Follows.ite_bind (fun _ => writeEntry _ _) (fun _ => pure _) fun _ =>
    Follows.ite (fun _ => pure _) fun _ => Follows.ite_bind (fun _ => pure _) (fun _ => extendLoop _ _ _ _ _) fun _ =>
      Follows.ite (fun _ => pure _) fun _ => pure _

theorem findFreed (entries : List (DirEntry × ℕ)) (i : ℕ) :
    T.Same (FatOperations.findFreed entries i) (FatOperations.findFreed entries i) := by
  induction entries generalizing i with
  | nil => exact pure _
  | cons entry entries ih =>
    obtain ⟨entry, offset⟩ := entry
    unfold FatOperations.findFreed
    exact Follows.bind (isFree _) fun _ => Follows.ite (fun _ => pure _) fun _ => ih _

theorem lastBlockLoop (bs fuel remaining : ℕ) (block : ℤ) :
    T.Same (FatOperations.lastBlockLoop bs fuel remaining block)
      (FatOperations.lastBlockLoop bs fuel remaining block) := by
  induction fuel generalizing remaining block with
  | zero => exact hang
  | succ fuel ih =>
    unfold FatOperations.lastBlockLoop
    exact Follows.ite (fun _ => Follows.bind (readFAT _) fun _ => ih _ _) fun _ => pure _

theorem newFileExpand (parent : FindResult) (newfile : DirEntry) (length : ℕ) (block old_free_block : ℤ)
    (noalloc : Bool) :
    T.Same (FatOperations.newFileExpand parent newfile length block old_free_block noalloc)
      (FatOperations.newFileExpand parent newfile length block old_free_block noalloc) := by
  unfold FatOperations.newFileExpand
  refine get fun e p => Follows.bind (hasFree _) fun _ => Follows.ite (fun _ => ?_) fun _ => ?_
  · exact Follows.ite (fun _ => Follows.bind (writeFAT _ _) fun _ => pure _) fun _ => pure _
  · refine Follows.bind (writeFAT _ _) fun _ => Follows.ite_bind (fun _ => pure _)
      (fun _ => findFreeBlock) fun _ =>
      Follows.ite (fun _ => Follows.bind (writeFAT _ _) fun _ => pure _) fun _ => ?_
    have hplaced : ∀ (newfile : DirEntry) (offset : ℕ),
        T.Same (do
          let status ← FatDriver.writeEntry newfile offset
          if status < 0 then Pure.pure (.fail status)
          else FatOperations.newFileFinish parent newfile offset length old_free_block noalloc true)
        (do
          let status ← FatDriver.writeEntry newfile offset
          if status < 0 then Pure.pure (.fail status)
          else FatOperations.newFileFinish parent newfile offset length old_free_block noalloc true) := fun _ _ =>
      Follows.bind (writeEntry _ _) fun _ => Follows.ite (fun _ => pure _) fun _ => newFileFinish _ _ _ _ _ _ _
    exact Follows.ite (fun _ => Follows.bind (addBlocksFree _) fun _ => hplaced _ _) fun _ => hplaced _ _

theorem newFilePlace (parent : FindResult) (newfile : DirEntry) (length : ℕ) (old_free_block : ℤ)
    (noalloc : Bool) :
    T.Same (FatOperations.newFilePlace parent newfile length old_free_block noalloc)
      (FatOperations.newFilePlace parent newfile length old_free_block noalloc) := by
  unfold FatOperations.newFilePlace
  refine get fun e p => Follows.bind (readDir _) fun listing => Follows.ite (fun _ => pure _) fun _ => ?_
  rcases listing.first_index with _ | first_index
  · exact hang
  · refine Follows.bind (findFreed _ _) fun slot => ?_
    rcases slot with _ | ⟨offset, offset_index⟩
    · refine Follows.ite (fun _ => ?_) fun _ => ?_
      · exact Follows.ite_bind (fun _ => pure _) (fun _ => hasFree _) fun _ =>
          Follows.ite (fun _ => Follows.bind (writeFAT _ _) fun _ => pure _) fun _ =>
            Follows.bind (writeEntry _ _) fun _ => Follows.ite (fun _ => pure _) fun _ => newFileFinish _ _ _ _ _ _ _
      · exact Follows.bind (lastBlockLoop _ _ _ _) fun _ => Follows.ite
          (fun _ => newFileExpand _ _ _ _ _ _) fun _ =>
          Follows.bind (writeEntry _ _) fun _ => Follows.ite (fun _ => pure _) fun _ => newFileFinish _ _ _ _ _ _ _
    · exact Follows.bind (writeEntry _ _) fun _ => Follows.ite (fun _ => pure _) fun _ =>
        newFileFinish _ _ _ _ _ _ _

theorem newFile (path : Str) (length : ℕ) (type : FileType) (times : Option Times) (noalloc : Bool) :
    T.Same (FatOperations.newFile path length type times noalloc)
      (FatOperations.newFile path length type times noalloc) := by
  unfold FatOperations.newFile
  exact Follows.bind (find _ _) fun _ => Follows.ite (fun _ => pure _) fun _ => Follows.ite
    (fun _ => pure _) fun _ =>
    Follows.bind findFreeBlock fun _ => Follows.ite (fun _ => newFilePlace _ _ _ _ _) fun _ =>
      Follows.ite (fun _ => pure _) fun _ => Follows.bind (writeFAT _ _) fun _ =>
        Follows.bind (addBlocksFree _) fun _ => newFilePlace _ _ _ _ _

theorem remove (path : Str) : T.Same (FatOperations.remove path) (FatOperations.remove path) := by
  unfold FatOperations.remove
  exact Follows.bind (find _ _) fun _ => Follows.ite (fun _ => pure _) fun _ => Follows.ite
    (fun _ => pure _) fun _ =>
    Follows.bind (forget _) fun _ => Follows.bind (writeEntry _ _) fun _ => pure _

theorem zeroSeekLoop (bs fuel remaining : ℕ) (block : ℤ) :
    T.Same (FatOperations.zeroSeekLoop bs fuel remaining block)
      (FatOperations.zeroSeekLoop bs fuel remaining block) := by
  induction fuel generalizing remaining block with
  | zero => exact hang
  | succ fuel ih =>
    unfold FatOperations.zeroSeekLoop
    exact Follows.ite (fun _ => Follows.bind (readFAT _) fun _ => Follows.bind (checkBlock _) fun _ => ih _ _)
      fun _ => pure _

theorem zeroWriteLoop (fuel diff position : ℕ) :
    T.Same (FatOperations.zeroWriteLoop fuel diff position) (FatOperations.zeroWriteLoop fuel diff position) := by
  induction fuel generalizing diff position with
  | zero => exact hang
  | succ fuel ih =>
    unfold FatOperations.zeroWriteLoop
    refine Follows.ite (fun _ => ?_) fun _ => Follows.ite (fun _ => ?_) fun _ => pure _
    · exact Follows.bind (partitionWrite _ _) fun _ => Follows.ite (fun _ => pure _) fun _ => ih _ _
    · exact Follows.bind (partitionWrite _ _) fun _ => Follows.ite (fun _ => pure _) fun _ => pure _

theorem zeroOutFree (file : DirEntry) (new_size : ℕ) :
    T.Same (FatOperations.zeroOutFree file new_size) (FatOperations.zeroOutFree file new_size) := by
  unfold FatOperations.zeroOutFree
  exact get fun e p => Follows.ite (fun _ => pure _) fun _ => Follows.ite (fun _ => pure _) fun _ =>
    Follows.bind (checkBlock _) fun _ => Follows.bind (zeroSeekLoop _ _ _ _) fun _ => zeroWriteLoop _ _ _

theorem noteBlocks (n : ℕ) (block : ℤ) :
    T.Same (FatOperations.noteBlocks n block) (FatOperations.noteBlocks n block) := by
  induction n generalizing block with
  | zero => exact pure _
  | succ n ih =>
    unfold FatOperations.noteBlocks
    exact Follows.bind (readFAT _) fun _ => Follows.bind (ih _) fun _ => pure _

theorem freeBlocks (blocks : List ℤ) :
    T.Same (FatOperations.freeBlocks blocks) (FatOperations.freeBlocks blocks) := by
  induction blocks with
  | nil => exact pure _
  | cons block blocks ih =>
    unfold FatOperations.freeBlocks
    exact Follows.bind (writeFAT _ _) fun _ => Follows.bind (addBlocksFree _) fun _ => ih

theorem tailLoop (fuel : ℕ) (block : ℤ) :
    T.Same (FatOperations.tailLoop fuel block) (FatOperations.tailLoop fuel block) := by
  induction fuel generalizing block with
  | zero => exact hang
  | succ fuel ih =>
    unfold FatOperations.tailLoop
    exact Follows.bind (readFAT _) fun _ => Follows.ite (fun _ => pure _) fun _ => ih _

theorem addBlocks (n : ℕ) (block : ℤ) :
    T.Same (FatOperations.addBlocks n block) (FatOperations.addBlocks n block) := by
  induction n generalizing block with
  | zero => exact pure _
  | succ n ih =>
    unfold FatOperations.addBlocks
    exact Follows.bind findFreeBlock fun _ => Follows.ite (fun _ => pure _) fun _ =>
      Follows.bind (writeFAT _ _) fun _ => Follows.bind (writeFAT _ _) fun _ => ih _

theorem resize (file : DirEntry) (file_offset new_size : ℕ) :
    T.Same (FatOperations.resize file file_offset new_size) (FatOperations.resize file file_offset new_size) := by
  have hstored : ∀ resized : DirEntry,
      T.Same (do
        let status ← FatDriver.writeEntry resized file_offset
        if status < 0 then Pure.pure (status, resized) else Pure.pure (0, resized))
      (do
        let status ← FatDriver.writeEntry resized file_offset
        if status < 0 then Pure.pure (status, resized) else Pure.pure (0, resized)) := fun _ =>
    Follows.bind (writeEntry _ _) fun _ => Follows.ite (fun _ => pure _) fun _ => pure _
  unfold FatOperations.resize
  refine get fun e p => Follows.ite (fun _ => pure _) fun _ =>
    Follows.ite_bind (fun _ => pure _) (fun _ => chainLength _) fun old_c => Follows.ite (fun _ => ?_) fun _ =>
      Follows.ite (fun _ => ?_) fun _ => Follows.ite (fun _ => ?_) fun _ => ?_
  · exact Follows.bind (forget _) fun _ => Follows.bind (writeFAT _ _) fun _ => Follows.bind
      (writeEntry _ _) fun _ =>
      pure _
  · exact Follows.ite_bind (fun _ => zeroOutFree _ _) (fun _ => pure _) fun _ => Follows.ite
      (fun _ => pure _) fun _ =>
      hstored _
  · exact Follows.bind (noteBlocks _ _) fun _ => Follows.bind (zeroOutFree _ _) fun _ =>
      Follows.ite (fun _ => pure _) fun _ => Follows.bind (freeBlocks _) fun _ =>
        Follows.ite (fun _ => Follows.bind (writeFAT _ _) fun _ => hstored _) fun _ => hstored _
  · exact Follows.bind (hasFree _) fun _ => Follows.ite (fun _ => pure _) fun _ => Follows.bind
      (tailLoop _ _) fun _ =>
      Follows.bind (addBlocks _ _) fun _ => Follows.ite (fun _ => pure _) fun _ =>
        Follows.bind (addBlocksFree _) fun _ => Follows.bind (writeEntry _ _) fun _ => pure _

theorem anyStuff (entries : List DirEntry) :
    T.Same (FatOperations.anyStuff entries) (FatOperations.anyStuff entries) := by
  induction entries with
  | nil => exact pure _
  | cons entry entries ih =>
    unfold FatOperations.anyStuff
    exact Follows.bind (hasStuff _) fun _ => Follows.ite (fun _ => pure _) fun _ => ih

theorem directoryEmpty (dir : DirEntry) :
    T.Same (FatOperations.directoryEmpty dir) (FatOperations.directoryEmpty dir) := by
  unfold FatOperations.directoryEmpty
  exact Follows.ite (fun _ => pure _) fun _ => Follows.ite (fun _ => pure _) fun _ =>
    Follows.bind (readDir _) fun _ => Follows.ite (fun _ => pure _) fun _ => Follows.ite (fun _ => pure _) fun _ =>
      Follows.bind (anyStuff _) fun _ => Follows.ite (fun _ => pure _) fun _ => pure _

theorem rename (srcpath destpath : Str) :
    T.Same (FatOperations.rename srcpath destpath) (FatOperations.rename srcpath destpath) := by
  unfold FatOperations.rename
  refine Follows.bind (find _ _) fun _ => Follows.ite (fun _ => pure _) fun _ => Follows.bind
    (find _ _) fun _ =>
    Follows.ite (fun _ => pure _) fun _ => ?_
  refine Follows.ite_bind_pure (fun _ => remove _) (fun _ => newFile _ _ _ _ _) fun _ =>
    Follows.ite (fun _ => pure _) fun _ => ?_
  rcases pathLast destpath with _ | destbase
  · exact pure _
  · exact Follows.bind (partitionWrite _ _) fun _ => Follows.ite (fun _ => pure _) fun _ =>
      Follows.bind (partitionWrite _ _) fun _ => Follows.ite (fun _ => pure _) fun _ => pure _

theorem utimens (path : Str) (time_now : BitVec 64) :
    T.Same (FatOperations.utimens path time_now) (FatOperations.utimens path time_now) := by
  unfold FatOperations.utimens
  exact Follows.bind (find _ _) fun _ => Follows.ite (fun _ => pure _) fun _ => Follows.bind
    (writeEntry _ _) fun _ =>
    Follows.ite (fun _ => pure _) fun _ => pure _

theorem create (path : Str) (modes : BitVec 32) :
    T.Same (FatOperations.create path modes) (FatOperations.create path modes) := by
  unfold FatOperations.create
  exact Follows.bind (find _ _) fun _ => Follows.ite (fun _ => pure _) fun _ => Follows.bind
    (newFile _ _ _ _ _) fun _ =>
    Follows.ite (fun _ => pure _) fun _ => Follows.bind (writeEntry _ _) fun _ => pure _

theorem writeSkipLoop (bs fuel : ℕ) (offset_left block : ℤ) :
    T.Same (FatOperations.writeSkipLoop bs fuel offset_left block)
      (FatOperations.writeSkipLoop bs fuel offset_left block) := by
  induction fuel generalizing offset_left block with
  | zero => exact hang
  | succ fuel ih =>
    unfold FatOperations.writeSkipLoop
    exact Follows.ite (fun _ => Follows.bind (readFAT _) fun _ => ih _ _) fun _ => pure _

theorem writeBlockLoop (bs : ℕ) (buffer : List UInt8) (fuel size_left bytes_written position : ℕ) (block : ℤ) :
    T.Same (FatOperations.writeBlockLoop bs buffer fuel size_left bytes_written position block)
      (FatOperations.writeBlockLoop bs buffer fuel size_left bytes_written position block) := by
  induction fuel generalizing size_left bytes_written position block with
  | zero => exact hang
  | succ fuel ih =>
    unfold FatOperations.writeBlockLoop
    exact Follows.ite (fun _ => pure _) fun _ => Follows.bind (partitionWrite _ _) fun _ =>
      Follows.ite (fun _ => pure _) fun _ => Follows.bind (readFAT _) fun _ => Follows.ite (fun _ => pure _) fun _ =>
        Follows.ite (fun _ => Follows.bind (checkBlock _) fun _ => ih _ _ _ _) fun _ => ih _ _ _ _

theorem writeData (bs : ℕ) (buffer : List UInt8) (block offset_left : ℤ) :
    T.Same (FatOperations.writeData bs buffer block offset_left)
      (FatOperations.writeData bs buffer block offset_left) := by
  unfold FatOperations.writeData
  refine get fun e p => Follows.ite (fun _ => ?_) fun _ => Follows.ite (fun _ => ?_) fun _ =>
    writeBlockLoop _ _ _ _ _ _ _
  · exact Follows.bind (partitionWrite _ _) fun _ => Follows.ite (fun _ => pure _) fun _ => pure _
  · exact Follows.bind (partitionWrite _ _) fun _ => Follows.ite (fun _ => hang) fun _ =>
      Follows.bind (readFAT _) fun _ => Follows.bind (checkBlock _) fun _ => writeBlockLoop _ _ _ _ _ _ _

theorem write (path : Str) (buffer : List UInt8) (offset : ℤ) :
    T.Same (FatOperations.write path buffer offset) (FatOperations.write path buffer offset) := by
  unfold FatOperations.write
  exact get fun e p => Follows.bind (find _ _) fun _ => Follows.ite (fun _ => pure _) fun _ =>
    Follows.bind (resize _ _ _) fun _ => Follows.ite (fun _ => pure _) fun _ =>
      Follows.bind (writeSkipLoop _ _ _ _) fun _ => Follows.bind (checkBlock _) fun _ =>
        Follows.bind (writeData _ _ _ _) fun _ => Follows.ite (fun _ => pure _) fun _ =>
          Follows.bind (writeEntry _ _) fun _ => pure _

theorem mkdir (path : Str) : T.Same (FatOperations.mkdir path) (FatOperations.mkdir path) := by
  unfold FatOperations.mkdir
  exact Follows.bind (newFile _ _ _ _ _) fun _ => Follows.ite (fun _ => pure _) fun _ => get fun e p =>
    Follows.bind (writeEntry _ _) fun _ => Follows.ite (fun _ => pure _) fun _ => pure _

theorem truncate (path : Str) (size : ℤ) :
    T.Same (FatOperations.truncate path size) (FatOperations.truncate path size) := by
  unfold FatOperations.truncate
  exact Follows.bind (find _ _) fun _ => Follows.ite (fun _ => pure _) fun _ =>
    Follows.bind (resize _ _ _) fun _ => pure _

theorem rmdir (path : Str) : T.Same (FatOperations.rmdir path) (FatOperations.rmdir path) := by
  unfold FatOperations.rmdir
  refine Follows.ite (fun _ => pure _) fun _ => Follows.bind (find _ _) fun _ => Follows.ite
    (fun _ => pure _) fun _ =>
    Follows.ite (fun _ => pure _) fun _ => Follows.bind (directoryEmpty _)
      fun _ => Follows.ite (fun _ => ?_) fun _ => ?_
  · exact Follows.bind (readDir _) fun _ => Follows.ite (fun _ => pure _) fun _ => pure _
  · exact Follows.bind (forget _) fun _ => Follows.bind (writeEntry _ _) fun _ => pure _

theorem unlink (path : Str) : T.Same (FatOperations.unlink path) (FatOperations.unlink path) := by
  unfold FatOperations.unlink
  exact Follows.bind (remove _) fun _ => Follows.ite (fun _ => pure _) fun _ => pure _

theorem readSkipLoop (bs fuel : ℕ) (offset_left block : ℤ) :
    T.Same (FatOperations.readSkipLoop bs fuel offset_left block)
      (FatOperations.readSkipLoop bs fuel offset_left block) := by
  induction fuel generalizing offset_left block with
  | zero => exact hang
  | succ fuel ih =>
    unfold FatOperations.readSkipLoop
    exact Follows.ite (fun _ => Follows.bind (readFAT _) fun _ => Follows.ite (fun _ => pure _) fun _ => ih _ _)
      fun _ => pure _

theorem readBlockLoop (bs fuel size_left position : ℕ) (block : ℤ) (buffer : List UInt8) :
    T.Same (FatOperations.readBlockLoop bs fuel size_left position block buffer)
      (FatOperations.readBlockLoop bs fuel size_left position block buffer) := by
  induction fuel generalizing size_left position block buffer with
  | zero => exact hang
  | succ fuel ih =>
    unfold FatOperations.readBlockLoop
    exact Follows.ite (fun _ => pure _) fun _ => Follows.bind (partitionRead _ _) fun _ =>
      Follows.ite (fun _ => pure _) fun _ => Follows.ite (fun _ => pure _) fun _ => Follows.bind (readFAT _) fun _ =>
        Follows.ite (fun _ => pure _) fun _ => ih _ _ _ _

theorem readData (bs size : ℕ) (block offset_left : ℤ) :
    T.Same (FatOperations.readData bs size block offset_left) (FatOperations.readData bs size block offset_left) := by
  unfold FatOperations.readData
  refine get fun e p => Follows.ite (fun _ => ?_) fun _ => Follows.ite (fun _ => ?_) fun _ =>
    readBlockLoop _ _ _ _ _ _
  · exact Follows.bind (partitionRead _ _) fun _ => Follows.ite (fun _ => pure _) fun _ => pure _
  · exact Follows.bind (partitionRead _ _) fun _ => Follows.ite (fun _ => pure _) fun _ =>
      readBlockLoop _ _ _ _ _ _

theorem read (path : Str) (size : ℕ) (offset : ℤ) :
    T.Same (FatOperations.read path size offset) (FatOperations.read path size offset) := by
  unfold FatOperations.read
  refine get fun e p => Follows.bind (find _ _) fun _ => Follows.ite (fun _ => pure _) fun _ =>
    Follows.ite (fun _ => pure _) fun _ => Follows.ite (fun _ => pure _) fun _ =>
      Follows.bind (readSkipLoop _ _ _ _) fun place => ?_
  rcases place with _ | ⟨block, offset_left⟩
  · exact pure _
  · exact Follows.bind (checkBlock _) fun _ => Follows.bind (readData _ _ _ _) fun _ =>
      Follows.ite (fun _ => pure _) fun _ => Follows.bind (writeEntry _ _) fun _ =>
        Follows.ite (fun _ => pure _) fun _ => pure _

theorem listEntries (entries : List (DirEntry × ℕ)) :
    T.Same (FatOperations.listEntries entries) (FatOperations.listEntries entries) := by
  induction entries with
  | nil => exact pure _
  | cons entry entries ih =>
    obtain ⟨entry, offset⟩ := entry
    unfold FatOperations.listEntries
    exact Follows.bind (isFree _) fun _ => Follows.bind ih fun _ => pure _

theorem readdir (path : Str) : T.Same (FatOperations.readdir path) (FatOperations.readdir path) := by
  unfold FatOperations.readdir
  exact Follows.bind (find _ _) fun _ => Follows.ite (fun _ => pure _) fun _ => Follows.ite
    (fun _ => pure _) fun _ =>
    get fun e p => Follows.bind (readDir _) fun _ => Follows.ite (fun _ => pure _) fun _ =>
      Follows.bind (listEntries _) fun _ => pure _

theorem call (c : Call) : T.Same c.run c.run := by
  cases c with
  | create path modes => exact create path modes
  | mkdir path => exact mkdir path
  | write path buffer offset => exact write path buffer offset
  | truncate path size => exact truncate path size
  | unlink path => exact unlink path
  | rmdir path => exact rmdir path
  | rename srcpath destpath => exact rename srcpath destpath
  | utimens path now => exact utimens path now
  | read path size offset => exact Follows.bind (read path size offset) fun _ => pure _
  | readdir path => exact Follows.bind (readdir path) fun _ => pure _
  | countFree => exact countFree

end Operations

end DeviceTwins

end Thorn.FatDriver
