import Thorn.AHCIDevice

set_option autoImplicit false

/-!
# The cached device against a flat byte array

Nothing is ever read from the port: a new entry holds zeros. The cache follows a
flat array as long as every block that a request reads, or writes in part, is
still cached or holds only zeros.
-/
namespace Thorn.AHCI
open ByteStore

section Run
variable {π : Type} {α β : Type}

@[simp] theorem run_bind (x : Action π α) (f : α → Action π β) (d : AHCIDevice π) :
    (x >>= f) d = (x d).bind fun p => f p.1 p.2 := rfl

@[simp] theorem run_pure (a : α) (d : AHCIDevice π) : (pure a : Action π α) d = some (a, d) := rfl

@[simp] theorem run_get (d : AHCIDevice π) : (get : Action π (AHCIDevice π)) d = some (d, d) := rfl

@[simp] theorem run_halt (d : AHCIDevice π) : (halt : Action π α) d = none := rfl

@[simp] theorem run_ite (c : Prop) [Decidable c] (x y : Action π α) (d : AHCIDevice π) :
    (if c then x else y) d = if c then x d else y d := by
  split_ifs <;> rfl

end Run

def ZeroBlock (F : Store) (b : ℕ) : Prop := ∀ i < 512, F (512 * b + i) = 0

def SameData (F : Store) (b : ℕ) (e : StorageCacheEntry) : Prop := ∀ i < 512, e.data i = F (512 * b + i)

/-- The cache has the keys given, and its entries agree with the flat array. -/
structure Tracks {π : Type} (d : AHCIDevice π) (F : Store) (cap : ℕ) (keys : List ℕ) : Prop where
  cap : d.cache.maxSize = cap
  keys : d.cache.list = keys
  agrees : ∀ b e, d.cache.map b = some e → SameData F b e

def Ready (F : Store) (keys : List ℕ) (b : ℕ) : Prop := b ∈ keys ∨ ZeroBlock F b

def touchAll (cap : ℕ) (keys : List ℕ) (b : ℕ) : ℕ → List ℕ
  | 0 => keys
  | n + 1 => touchAll cap (Cache.touch cap keys b) (b + 1) n

/-- Each of the blocks that need it is ready when its turn comes. -/
def Held (cap : ℕ) (F : Store) (need : ℕ → Prop) (keys : List ℕ) (b : ℕ) : ℕ → Prop
  | 0 => True
  | n + 1 => (need b → Ready F keys b) ∧ Held cap F need (Cache.touch cap keys b) (b + 1) n

section Steps
variable {π : Type} {d : AHCIDevice π} {F : Store} {cap : ℕ} {keys : List ℕ} {b : ℕ}

theorem slice_data {e : StorageCacheEntry} (h : SameData F b e) (r n : ℕ) (hr : r + n ≤ 512) :
    slice e.data r n = slice F (512 * b + r) n := by
  unfold slice
  refine List.map_congr_left fun i hi => ?_
  have := List.mem_range.mp hi
  rw [h (r + i) (by omega), Nat.add_assoc]

theorem patch_data {e : StorageCacheEntry} (h : SameData F b e) (r : ℕ) (bytes : List UInt8) (flushed : Bool) :
    SameData (patch F (512 * b + r) bytes) b ⟨patch e.data r bytes, flushed⟩ := by
  intro i hi
  change patch e.data r bytes i = _
  unfold patch
  by_cases hin : r ≤ i ∧ i < r + bytes.length
  · rw [if_pos hin, if_pos (by omega)]
    congr 1
    omega
  · rw [if_neg hin, if_neg (by omega), h i hi]

def AHCIDevice.looked (d : AHCIDevice π) (b : ℕ) : AHCIDevice π :=
  { d with cache := (d.cache.lookup .fresh b).1 }

def AHCIDevice.updated (d : AHCIDevice π) (b : ℕ) (f : StorageCacheEntry → StorageCacheEntry) : AHCIDevice π :=
  { d with cache := d.cache.update b f }

@[simp] theorem run_lookup (b : ℕ) (d : AHCIDevice π) :
    lookup b d = some (decide (b ∉ d.cache.list), d.looked b) := by
  have hc := d.cache.lookup_created .fresh b
  rw [lookup, AHCIDevice.looked]
  congr 2
  rw [Bool.eq_iff_iff, hc, decide_eq_true_iff]

@[simp] theorem run_update (b : ℕ) (f : StorageCacheEntry → StorageCacheEntry) (d : AHCIDevice π) :
    update b f d = some ((), d.updated b f) := rfl

@[simp] theorem run_entry (b : ℕ) (d : AHCIDevice π) : entry b d = some ((d.cache.map b).getD .fresh, d) := rfl

theorem Tracks.present (h : Tracks d F cap keys) (hb : b ∈ keys) :
    ∃ e, d.cache.map b = some e ∧ SameData F b e := by
  rw [← h.keys, d.cache.keys b] at hb
  obtain ⟨e, he⟩ := Option.isSome_iff_exists.mp hb
  exact ⟨e, he, h.agrees b e he⟩

theorem Tracks.looked (h : Tracks d F cap keys) (hr : Ready F keys b) :
    Tracks (d.looked b) F cap (Cache.touch cap keys b) where
  cap := (d.cache.lookup_maxSize .fresh b).trans h.cap
  keys := by
    rw [← h.keys, ← h.cap]
    exact d.cache.lookup_list .fresh b
  agrees j e he := by
    by_cases hj : j = b
    · subst hj
      have hself := (d.cache.lookup_self .fresh j).symm.trans he
      split_ifs at hself with hk
      · exact h.agrees j e hself
      · cases hself
        rw [h.keys] at hk
        have hz := hr.resolve_left hk
        exact fun i hi => (hz i hi).symm
    · exact h.agrees j e (d.cache.lookup_other .fresh b j hj e he)

theorem Tracks.updated (h : Tracks d F cap keys) {f : StorageCacheEntry → StorageCacheEntry} {F' : Store}
    (hf : ∀ e, d.cache.map b = some e → SameData F' b (f e))
    (hother : ∀ j ≠ b, ∀ i < 512, F' (512 * j + i) = F (512 * j + i)) : Tracks (d.updated b f) F' cap keys where
  cap := h.cap
  keys := h.keys
  agrees j e he := by
    by_cases hj : j = b
    · subst hj
      have hself : (d.cache.map j).map f = some e := (d.cache.update_self j f).symm.trans he
      obtain ⟨e₀, he₀, rfl⟩ := Option.map_eq_some_iff.mp hself
      exact hf e₀ he₀
    · have hsame : d.cache.map j = some e := (d.cache.update_other b j f hj).symm.trans he
      intro i hi
      rw [hother j hj i hi]
      exact h.agrees j e hsame i hi

theorem Tracks.marked (h : Tracks d F cap keys) (b : ℕ) {f : StorageCacheEntry → StorageCacheEntry}
    (hf : ∀ e, (f e).data = e.data) : Tracks (d.updated b f) F cap keys :=
  h.updated (fun e he i hi => by rw [hf e]; exact h.agrees b e he i hi) fun _ _ _ _ => rfl

theorem Tracks.patched (h : Tracks d F cap keys) (r : ℕ) (bytes : List UInt8) (hr : r + bytes.length ≤ 512)
    {f : StorageCacheEntry → StorageCacheEntry} (hf : ∀ e, (f e).data = patch e.data r bytes) :
    Tracks (d.updated b f) (patch F (512 * b + r) bytes) cap keys := by
  refine h.updated (fun e he i hi => ?_) fun j hj i hi => patch_outside _ _ _ _ (by omega)
  rw [hf e]
  exact patch_data (h.agrees b e he) r bytes e.flushed i hi

theorem Tracks.filled (h : Tracks d F cap keys) (b n : ℕ) (hn : n ≤ 512) (flag : StorageCacheEntry → Bool) :
    Tracks (d.updated b fun e => ⟨patch e.data 0 (slice F (512 * b) n), flag e⟩) F cap keys := by
  have hp := h.patched (b := b) 0 (slice F (512 * b) n) (by rw [slice_length]; omega)
    (f := fun e => ⟨patch e.data 0 (slice F (512 * b) n), flag e⟩) fun _ => rfl
  rwa [Nat.add_zero, patch_slice _ _ _ _ fun _ _ => rfl] at hp

theorem Tracks.replaced (h : Tracks d F cap keys) (bytes : List UInt8) (hlen : bytes.length = 512)
    {f : StorageCacheEntry → StorageCacheEntry} (hf : ∀ e, (f e).data = patch e.data 0 bytes) :
    Tracks ((d.looked b).updated b f) (patch F (512 * b) bytes) cap (Cache.touch cap keys b) where
  cap := (d.cache.lookup_maxSize .fresh b).trans h.cap
  keys := by
    rw [← h.keys, ← h.cap]
    exact d.cache.lookup_list .fresh b
  agrees j e he := by
    by_cases hj : j = b
    · subst hj
      have hself : ((d.looked j).cache.map j).map f = some e :=
        ((d.looked j).cache.update_self j f).symm.trans he
      obtain ⟨e₀, -, rfl⟩ := Option.map_eq_some_iff.mp hself
      intro i hi
      have h₁ := patch_inside e₀.data 0 bytes i (by omega)
      have h₂ := patch_inside F (512 * j) bytes i (by omega)
      rw [Nat.zero_add] at h₁
      rw [hf e₀, h₁, h₂]
    · have hlook : (d.looked b).cache.map j = some e :=
        ((d.looked b).cache.update_other b j f hj).symm.trans he
      intro i hi
      rw [patch_outside _ _ _ _ (by omega)]
      exact h.agrees j e (d.cache.lookup_other .fresh b j hj e hlook) i hi

theorem touch_idem (cap : ℕ) (keys : List ℕ) (b : ℕ) :
    Cache.touch cap (Cache.touch cap keys b) b = Cache.touch cap keys b := Cache.touch_touch cap keys b

/-- The inner call that fills a new entry reads back the entry itself. -/
theorem run_fill (depth : ℕ) (h : Tracks d F cap (Cache.touch cap keys b)) (n : ℕ) (h0 : 0 < n) (hn : n ≤ 512) :
    ∃ d', readCache (depth + 1) n (512 * b) d = some ((0, slice F (512 * b) n), d') ∧
      Tracks d' F cap (Cache.touch cap keys b) := by
  have hmem := Cache.touch_mem cap keys b
  have hlook := h.looked (.inl hmem)
  rw [touch_idem] at hlook
  have hin : b ∈ d.cache.list := h.keys ▸ hmem
  have hdiv : 512 * b / BlockSize = b := Nat.mul_div_cancel_left b (by omega)
  have hmod : ¬ 512 * b % BlockSize ≠ 0 := not_not.mpr (Nat.mul_mod_right _ _)
  by_cases hfull : n = 512
  · subst hfull
    have hmark := hlook.marked b (f := fun e => ⟨e.data, false⟩) fun _ => rfl
    obtain ⟨e, he, hdata⟩ := hmark.present hmem
    refine ⟨_, ?_, hmark⟩
    rw [readCache, run_ite, if_neg hmod, readAligned, run_ite, if_pos le_rfl]
    simp only [run_bind, hdiv, run_lookup, Option.bind_some, run_update, run_entry, he, Option.getD_some,
      Nat.sub_self, ite_true, run_pure]
    rw [slice_data hdata 0 512 (by omega), Nat.add_zero]
  · obtain ⟨e, he, hdata⟩ := hlook.present hmem
    refine ⟨_, ?_, hlook⟩
    rw [readCache, run_ite, if_neg hmod, readAligned, run_ite, if_neg (by change ¬ 512 ≤ n; omega), run_ite,
      if_neg (by omega), readTail]
    simp only [run_bind, hdiv, run_lookup, Option.bind_some, hin, not_true_eq_false, decide_false, run_ite,
      Bool.false_eq_true, ite_false, run_pure, ne_eq, run_entry, he, Option.getD_some]
    rw [slice_data hdata 0 n (by omega), Nat.add_zero]

theorem run_readHead (h : Tracks d F cap keys) {offset : ℕ} (hr : Ready F keys (offset / 512)) (size : ℕ) :
    ∃ d', readHead (readCache 1) size offset d =
        some ((0, slice F offset (min size (512 - offset % 512))), d') ∧
      Tracks d' F cap (Cache.touch cap keys (offset / 512)) := by
  have hlook := h.looked hr
  have hd := Nat.div_add_mod offset 512
  have hmod := Nat.mod_lt offset (show 0 < 512 by omega)
  have hslice : ∀ {e : StorageCacheEntry}, SameData F (offset / 512) e →
      slice e.data (offset % 512) (min size (512 - offset % 512)) =
        slice F offset (min size (512 - offset % 512)) := fun he => by
    rw [slice_data he _ _ (by omega), hd]
  by_cases hin : offset / 512 ∈ d.cache.list
  · obtain ⟨e, he, hdata⟩ := hlook.present (Cache.touch_mem cap keys _)
    refine ⟨_, ?_, hlook⟩
    simp only [readHead, run_bind, run_lookup, Option.bind_some, hin, not_true_eq_false, decide_false, run_ite,
      Bool.false_eq_true, ite_false, run_pure, ne_eq, run_entry, he, Option.getD_some, hslice hdata]
  · obtain ⟨d₁, hfill, h₁⟩ := run_fill 0 hlook 512 (by omega) le_rfl
    have h₂ := h₁.filled (offset / 512) 512 le_rfl fun _ => true
    obtain ⟨e, he, hdata⟩ := h₂.present (Cache.touch_mem cap keys _)
    have hstart : offset - offset % 512 = 512 * (offset / 512) := by omega
    refine ⟨_, ?_, h₂⟩
    simp only [readHead, run_bind, run_lookup, Option.bind_some, hin, not_false_eq_true, decide_true, run_ite,
      ite_true, hstart, hfill, ne_eq, not_true_eq_false, ite_false, run_update, run_pure, run_entry, he,
      Option.getD_some, hslice hdata]

theorem run_readTail (h : Tracks d F cap keys) (hr : Ready F keys b) {size : ℕ} (h0 : 0 < size)
    (hsize : size < 512) :
    ∃ d', readTail (readCache 1) size (512 * b) d = some ((0, slice F (512 * b) size), d') ∧
      Tracks d' F cap (Cache.touch cap keys b) := by
  have hlook := h.looked hr
  have hdiv : 512 * b / BlockSize = b := Nat.mul_div_cancel_left b (by omega)
  have hslice : ∀ {e : StorageCacheEntry},
      SameData F b e → slice e.data 0 size = slice F (512 * b) size := fun he => by
    rw [slice_data he _ _ (by omega), Nat.add_zero]
  by_cases hin : b ∈ d.cache.list
  · obtain ⟨e, he, hdata⟩ := hlook.present (Cache.touch_mem cap keys b)
    refine ⟨_, ?_, hlook⟩
    simp only [readTail, hdiv, run_bind, run_lookup, Option.bind_some, hin, not_true_eq_false, decide_false,
      run_ite, Bool.false_eq_true, ite_false, run_pure, ne_eq, run_entry, he, Option.getD_some, hslice hdata]
  · obtain ⟨d₁, hfill, h₁⟩ := run_fill 0 hlook size h0 hsize.le
    have h₂ := h₁.filled b size hsize.le fun _ => true
    obtain ⟨e, he, hdata⟩ := h₂.present (Cache.touch_mem cap keys b)
    refine ⟨_, ?_, h₂⟩
    simp only [readTail, hdiv, run_bind, run_lookup, Option.bind_some, hin, not_false_eq_true, decide_true,
      run_ite, ite_true, hfill, ne_eq, not_true_eq_false, ite_false, run_update, run_pure, run_entry, he,
      Option.getD_some, hslice hdata]

/-- How many blocks a request touches from its first byte's block on. -/
def blocks (size : ℕ) : ℕ := (size + 511) / 512

theorem blocks_step {n : ℕ} (h : 512 < n) : blocks n = blocks (n - 512) + 1 := by
  unfold blocks
  omega

theorem blocks_one {size : ℕ} (h0 : 0 < size) (h : size ≤ 512) : blocks size = 1 := by
  unfold blocks
  omega

theorem run_readAligned (fuel size : ℕ) (h : Tracks d F cap keys) (h0 : 0 < size) (hfuel : size ≤ fuel)
    (hheld : Held cap F (fun _ => True) keys b (blocks size)) :
    ∃ d', readAligned (readCache 1) fuel size (512 * b) d = some ((0, slice F (512 * b) size), d') ∧
      Tracks d' F cap (touchAll cap keys b (blocks size)) := by
  induction fuel generalizing d keys b size with
  | zero => omega
  | succ fuel ih =>
    have hdiv : 512 * b / BlockSize = b := Nat.mul_div_cancel_left b (by omega)
    rw [readAligned, run_ite]
    by_cases hfull : BlockSize ≤ size
    · have hfull' : 512 ≤ size := hfull
      obtain ⟨n, hn⟩ : ∃ n, blocks size = n + 1 := ⟨blocks size - 1, by unfold blocks; omega⟩
      rw [hn] at hheld ⊢
      have hlook := h.looked (hheld.1 trivial)
      have hmark := hlook.marked b (f := fun e => ⟨e.data, false⟩) fun _ => rfl
      obtain ⟨e, he, hdata⟩ := hmark.present (Cache.touch_mem cap keys b)
      have hslice : slice e.data 0 512 = slice F (512 * b) 512 := by
        rw [slice_data hdata _ _ (by omega), Nat.add_zero]
      rw [if_pos hfull]
      simp only [run_bind, hdiv, run_lookup, Option.bind_some, run_update, run_entry, he, Option.getD_some,
        run_ite, hslice]
      by_cases hend : size - BlockSize = 0
      · have hsize : size = 512 := by
          change size - 512 = 0 at hend
          omega
        have hn0 : n = 0 := by
          rw [hsize] at hn
          unfold blocks at hn
          omega
        subst hsize hn0
        exact ⟨_, by rw [if_pos hend, run_pure], hmark⟩
      · have hlt : 512 < size := by
          change ¬ size - 512 = 0 at hend
          omega
        have hn' : blocks (size - 512) = n := by
          have := blocks_step hlt
          omega
        obtain ⟨d', hrest, h'⟩ :=
          ih (b := b + 1) (size - 512) hmark (by omega) (by omega) (by rw [hn']; exact hheld.2)
        rw [hn'] at h'
        refine ⟨d', ?_, h'⟩
        have hnext : 512 * b + BlockSize = 512 * (b + 1) := by
          change 512 * b + 512 = _
          omega
        have hjoin : slice F (512 * b) size =
            slice F (512 * b) 512 ++ slice F (512 * (b + 1)) (size - 512) := by
          rw [slice_eq_take_drop F (512 * b) size 512 hfull', Nat.mul_add, Nat.mul_one]
        rw [if_neg hend, hnext, hrest, Option.bind_some, run_pure, hjoin]
    · have hlt : size < 512 := Nat.lt_of_not_le hfull
      rw [blocks_one h0 hlt.le] at hheld ⊢
      obtain ⟨d', hrun, h'⟩ := run_readTail h (hheld.1 trivial) h0 hlt
      refine ⟨d', ?_, h'⟩
      rw [if_neg hfull, run_ite, if_neg (by omega), hrun]

theorem run_read (h : Tracks d F cap keys) (size offset : ℕ) (h0 : size ≠ 0 ∨ offset % 512 ≠ 0)
    (hheld : Held cap F (fun _ => True) keys (offset / 512) (blocks (offset % 512 + size))) :
    ∃ d', read size offset d = some ((0, slice F offset size), d') ∧
      Tracks d' F cap (touchAll cap keys (offset / 512) (blocks (offset % 512 + size))) := by
  have hd := Nat.div_add_mod offset 512
  have hmod := Nat.mod_lt offset (show 0 < 512 by omega)
  rw [read, readCache, run_ite]
  by_cases hrem : offset % BlockSize ≠ 0
  · have hrem' : offset % 512 ≠ 0 := hrem
    obtain ⟨n, hn⟩ : ∃ n, blocks (offset % 512 + size) = n + 1 :=
      ⟨blocks (offset % 512 + size) - 1, by unfold blocks; omega⟩
    rw [hn] at hheld ⊢
    obtain ⟨d₁, hhead, h₁⟩ := run_readHead h (hheld.1 trivial) size
    rw [if_pos hrem]
    simp only [run_bind, hhead, Option.bind_some, ne_eq, not_true_eq_false, ite_false, run_ite, run_pure]
    by_cases hend : size - min size (BlockSize - offset % BlockSize) = 0
    · have hsize : min size (512 - offset % 512) = size := by
        change size - min size (512 - offset % 512) = 0 at hend
        omega
      have hn0 : n = 0 := by
        unfold blocks at hn
        omega
      subst hn0
      exact ⟨d₁, by rw [if_pos hend, hsize], h₁⟩
    · have hmin : min size (BlockSize - offset % BlockSize) = 512 - offset % 512 := by
        change ¬ size - min size (512 - offset % 512) = 0 at hend
        change min size (512 - offset % 512) = _
        omega
      have hlt : 512 - offset % 512 < size := by
        rw [hmin] at hend
        omega
      have hn' : blocks (size - (512 - offset % 512)) = n := by
        have := blocks_step (n := offset % 512 + size) (by omega)
        rw [show offset % 512 + size - 512 = size - (512 - offset % 512) by omega] at this
        omega
      obtain ⟨d₂, hrest, h₂⟩ :=
        run_readAligned (b := offset / 512 + 1) size (size - (512 - offset % 512)) h₁ (by omega)
        (by omega) (by rw [hn']; exact hheld.2)
      rw [hn'] at h₂
      refine ⟨d₂, ?_, h₂⟩
      have hnext : offset + (512 - offset % 512) = 512 * (offset / 512 + 1) := by omega
      have hjoin : slice F offset size = slice F offset (512 - offset % 512) ++
          slice F (512 * (offset / 512 + 1)) (size - (512 - offset % 512)) := by
        rw [slice_eq_take_drop F offset size _ hlt.le, hnext]
      rw [if_neg hend, hmin, hnext, hrest, Option.bind_some, hjoin]
  · have hrem' : offset % 512 = 0 := not_not.mp hrem
    have hoff : offset = 512 * (offset / 512) := by omega
    rw [hrem', Nat.zero_add] at hheld ⊢
    obtain ⟨d', hrun, h'⟩ := run_readAligned (size + 1) size h (by omega) (by omega) hheld
    refine ⟨d', ?_, h'⟩
    rw [← hoff] at hrun
    rw [if_neg (not_not.mpr rfl), hrun]

theorem run_writePart (h : Tracks d F cap keys) (hr : Ready F keys b) (rem fill_size : ℕ) (buffer : List UInt8)
    (hfit : rem + buffer.length ≤ 512) (h0 : 0 < fill_size) (hfill : fill_size ≤ 512) :
    ∃ d', writePart b rem fill_size (512 * b) buffer d = some (0, d') ∧
      Tracks d' (patch F (512 * b + rem) buffer) cap (Cache.touch cap keys b) := by
  have hlook := h.looked hr
  by_cases hin : b ∈ d.cache.list
  · have hmark := hlook.marked b (f := fun e => ⟨e.data, false⟩) fun _ => rfl
    have hpatch := hmark.patched (b := b) rem buffer hfit (f := fun e => ⟨patch e.data rem buffer, e.flushed⟩)
      fun _ => rfl
    refine ⟨_, ?_, hpatch⟩
    simp only [writePart, run_bind, run_lookup, Option.bind_some, hin, not_true_eq_false, decide_false, run_ite,
      Bool.false_eq_true, ite_false, run_update, run_pure, ne_eq]
  · obtain ⟨d₁, hrun, h₁⟩ := run_fill 1 hlook fill_size h0 hfill
    have hfilled := h₁.filled b fill_size hfill fun e => e.flushed
    have hpatch := hfilled.patched (b := b) rem buffer hfit (f := fun e => ⟨patch e.data rem buffer, e.flushed⟩)
      fun _ => rfl
    refine ⟨_, ?_, hpatch⟩
    simp only [writePart, read, run_bind, run_lookup, Option.bind_some, hin, not_false_eq_true, decide_true,
      run_ite, ite_true, hrun, ne_eq, not_true_eq_false, ite_false, run_update, run_pure]

theorem Held.congr {F' : Store} {need : ℕ → Prop} {n : ℕ} (h : Held cap F need keys b n)
    (hz : ∀ j, b ≤ j → ZeroBlock F j → ZeroBlock F' j) : Held cap F' need keys b n := by
  induction n generalizing keys b with
  | zero => trivial
  | succ n ih =>
    exact ⟨fun hn => (h.1 hn).imp_right (hz b le_rfl), ih h.2 fun j hj => hz j (by omega)⟩

theorem zeroBlock_patch {o : ℕ} {bytes : List UInt8} {j : ℕ} (ho : o + bytes.length ≤ 512 * j)
    (h : ZeroBlock F j) : ZeroBlock (patch F o bytes) j := fun i hi => by
  rw [patch_outside _ _ _ _ (by omega), h i hi]

/-- Whole blocks are replaced; only the tail must be ready. -/
theorem run_writeAligned (fuel : ℕ) (buffer : List UInt8) (h : Tracks d F cap keys) (h0 : 0 < buffer.length)
    (hfuel : buffer.length ≤ fuel) {P : ℕ → Prop} (hneed : ∀ j, 512 * b + buffer.length < 512 * j + 512 → P j)
    (hheld : Held cap F P keys b (blocks buffer.length)) :
    ∃ d', writeAligned fuel buffer (512 * b) d = some (0, d') ∧
      Tracks d' (patch F (512 * b) buffer) cap (touchAll cap keys b (blocks buffer.length)) := by
  induction fuel generalizing d F keys b buffer with
  | zero => omega
  | succ fuel ih =>
    have hdiv : 512 * b / BlockSize = b := Nat.mul_div_cancel_left b (by omega)
    rw [writeAligned, run_ite]
    by_cases hfull : BlockSize ≤ buffer.length
    · have hfull' : 512 ≤ buffer.length := hfull
      have hcut : (buffer.take 512).length = 512 := by
        rw [List.length_take]
        omega
      obtain ⟨n, hn⟩ : ∃ n, blocks buffer.length = n + 1 := ⟨blocks buffer.length - 1, by unfold blocks; omega⟩
      rw [hn] at hheld ⊢
      have hrepl := h.replaced (b := b) (buffer.take 512) hcut
        (f := fun e => ⟨patch e.data 0 (buffer.take 512), false⟩) fun _ => rfl
      have htwice : ((d.looked b).updated b fun e => ⟨e.data, false⟩).updated b
          (fun e => ⟨patch e.data 0 (buffer.take 512), e.flushed⟩) =
          (d.looked b).updated b fun e => ⟨patch e.data 0 (buffer.take 512), false⟩ := by
        unfold AHCIDevice.updated Cache.update
        congr 2
        funext j
        by_cases hj : j = b
        · simp only [hj, ite_true, Option.map_map]
          rfl
        · simp only [hj, ite_false]
      rw [if_pos hfull]
      simp only [run_bind, hdiv, run_lookup, Option.bind_some, run_update, run_ite]
      by_cases hend : buffer.length - BlockSize = 0
      · have hlen : buffer.length = 512 := by
          change buffer.length - 512 = 0 at hend
          omega
        have hn0 : n = 0 := by
          rw [hlen] at hn
          unfold blocks at hn
          omega
        have hall : buffer.take 512 = buffer := List.take_of_length_le hlen.le
        subst hn0
        refine ⟨(d.looked b).updated b fun e => ⟨patch e.data 0 (buffer.take 512), false⟩, ?_, ?_⟩
        · rw [if_pos hend, run_pure]
          exact congrArg (fun t => some ((0 : ℤ), t)) htwice
        · rw [hall] at hrepl ⊢
          exact hrepl
      · have hlt : 512 < buffer.length := by
          change ¬ buffer.length - 512 = 0 at hend
          omega
        have hdrop : (buffer.drop 512).length = buffer.length - 512 := List.length_drop
        have hn' : blocks (buffer.drop 512).length = n := by
          have := blocks_step hlt
          rw [hdrop]
          omega
        obtain ⟨d', hrest, h'⟩ := ih (b := b + 1) (buffer.drop 512) hrepl (by omega) (by omega)
          (fun j hj => hneed j (by rw [hdrop] at hj; omega))
          (by
            rw [hn']
            exact hheld.2.congr fun j hj hz => zeroBlock_patch (by rw [hcut]; omega) hz)
        rw [hn'] at h'
        have hnext : 512 * b + BlockSize = 512 * (b + 1) := by
          change 512 * b + 512 = _
          omega
        have hjoin := patch_append F (512 * b) (buffer.take 512) (buffer.drop 512)
        rw [hcut, List.take_append_drop] at hjoin
        refine ⟨d', ?_, ?_⟩
        · rw [if_neg hend, hnext]
          exact (congrArg (writeAligned fuel (buffer.drop 512) (512 * (b + 1))) htwice).trans hrest
        · rw [← hjoin]
          exact h'
    · have hlt : buffer.length < 512 := Nat.lt_of_not_le hfull
      rw [blocks_one h0 hlt.le] at hheld ⊢
      obtain ⟨d', hrun, h'⟩ :=
        run_writePart h (hheld.1 (hneed b (by omega))) 0 buffer.length buffer (by omega) h0
        hlt.le
      refine ⟨d', ?_, h'⟩
      rw [if_neg hfull, run_ite, if_neg (by omega), hdiv, hrun]

/-- The block is not covered by the request as a whole. -/
def Partial (offset size j : ℕ) : Prop := 512 * j < offset ∨ offset + size < 512 * j + 512

theorem run_write (h : Tracks d F cap keys) (buffer : List UInt8) (offset : ℕ)
    (h0 : buffer.length ≠ 0 ∨ offset % 512 ≠ 0)
    (hheld : Held cap F (Partial offset buffer.length) keys (offset / 512) (blocks (offset % 512 + buffer.length))) :
    ∃ d', write buffer offset d = some (0, d') ∧ Tracks d' (patch F offset buffer) cap
      (touchAll cap keys (offset / 512) (blocks (offset % 512 + buffer.length))) := by
  have hd := Nat.div_add_mod offset 512
  have hmod := Nat.mod_lt offset (show 0 < 512 by omega)
  rw [write, writeCache, run_ite]
  by_cases hrem : offset % BlockSize ≠ 0
  · have hrem' : offset % 512 ≠ 0 := hrem
    obtain ⟨n, hn⟩ : ∃ n, blocks (offset % 512 + buffer.length) = n + 1 :=
      ⟨blocks (offset % 512 + buffer.length) - 1, by unfold blocks; omega⟩
    rw [hn] at hheld ⊢
    have hstart : offset - offset % BlockSize = 512 * (offset / 512) := by
      change offset - offset % 512 = _
      omega
    have hcut : (buffer.take (min buffer.length (512 - offset % 512))).length =
        min buffer.length (512 - offset % 512) := by
      rw [List.length_take]
      omega
    obtain ⟨d₁, hhead, h₁⟩ := run_writePart h (hheld.1 (.inl (by omega))) (offset % 512) 512
      (buffer.take (min buffer.length (512 - offset % 512))) (by omega) (by omega) le_rfl
    rw [hd] at h₁
    rw [if_pos hrem, hstart]
    change ∃ d', ((writePart (offset / 512) (offset % 512) 512 (512 * (offset / 512))
      (buffer.take (min buffer.length (512 - offset % 512))) d).bind _) = _ ∧ _
    rw [hhead]
    simp only [Option.bind_some, ne_eq, not_true_eq_false, ite_false, run_ite, run_pure]
    by_cases hend : buffer.length - min buffer.length (BlockSize - offset % BlockSize) = 0
    · have hsize : min buffer.length (512 - offset % 512) = buffer.length := by
        change buffer.length - min buffer.length (512 - offset % 512) = 0 at hend
        omega
      have hn0 : n = 0 := by
        unfold blocks at hn
        omega
      subst hn0
      rw [hsize, List.take_length] at h₁
      exact ⟨d₁, by rw [if_pos hend], h₁⟩
    · have hmin : min buffer.length (BlockSize - offset % BlockSize) = 512 - offset % 512 := by
        change ¬ buffer.length - min buffer.length (512 - offset % 512) = 0 at hend
        change min buffer.length (512 - offset % 512) = _
        omega
      have hmin' : min buffer.length (512 - offset % 512) = 512 - offset % 512 := hmin
      have hlt : 512 - offset % 512 < buffer.length := by
        rw [hmin] at hend
        omega
      have hdrop : (buffer.drop (512 - offset % 512)).length = buffer.length - (512 - offset % 512) :=
        List.length_drop
      have hn' : blocks (buffer.drop (512 - offset % 512)).length = n := by
        have := blocks_step (n := offset % 512 + buffer.length) (by omega)
        rw [show offset % 512 + buffer.length - 512 = buffer.length - (512 - offset % 512) by omega] at this
        rw [hdrop]
        omega
      rw [hmin'] at h₁ hcut
      obtain ⟨d₂, hrest, h₂⟩ := run_writeAligned (b := offset / 512 + 1) buffer.length
        (buffer.drop (512 - offset % 512)) h₁ (by omega) (by omega)
        (P := Partial offset buffer.length) (fun j hj => .inr (by rw [hdrop] at hj; omega))
        (by
          rw [hn']
          exact hheld.2.congr fun j hj hz => zeroBlock_patch (by rw [hcut]; omega) hz)
      rw [hn'] at h₂
      have hnext : offset + (512 - offset % 512) = 512 * (offset / 512 + 1) := by omega
      have hjoin := patch_append F offset (buffer.take (512 - offset % 512)) (buffer.drop (512 - offset % 512))
      rw [hcut, List.take_append_drop, hnext] at hjoin
      refine ⟨d₂, ?_, hjoin ▸ h₂⟩
      rw [if_neg hend, hmin, hnext, hrest]
  · have hrem' : offset % 512 = 0 := not_not.mp hrem
    have hoff : offset = 512 * (offset / 512) := by omega
    rw [hrem', Nat.zero_add] at hheld ⊢
    obtain ⟨d', hrun, h'⟩ := run_writeAligned (buffer.length + 1) buffer h (by omega) (by omega)
      (P := Partial offset buffer.length) (fun j hj => .inr (by omega)) hheld
    rw [← hoff] at hrun h'
    refine ⟨d', ?_, h'⟩
    rw [if_neg (not_not.mpr rfl), hrun]

end Steps

end Thorn.AHCI
