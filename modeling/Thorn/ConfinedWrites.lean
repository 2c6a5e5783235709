import Thorn.CountedCalls

set_option autoImplicit false

namespace Thorn.FatDriver
open ByteStore Paths FatTypes FatOperations FatImage LinkedChain

/-- The range ends with the partition at the latest, and lies in the used part of the table or in one data block. -/
structure Driver.Inside (s : Fs) (r : Record) : Prop where
  below : r.offset + r.size ≤ s.partition.length
  area : s.bs ≤ r.offset ∧ r.offset + r.size ≤ s.bs + 4 * s.blockCount ∨
    ∃ b, s.image.IsData b ∧ b * s.bs ≤ r.offset ∧ r.offset + r.size ≤ b * s.bs + s.bs

structure Confined (s t : Fs) : Prop where
  frame : SameFrame s t
  records : ∃ more, t.partition.writeRecords = s.partition.writeRecords ++ more ∧ ∀ r ∈ more, s.Inside r

theorem SameFrame.inside {s t : Fs} (h : SameFrame s t) {r : Record} : t.Inside r ↔ s.Inside r := by
  constructor
  · rintro ⟨hbelow, harea⟩
    rw [h.length] at hbelow
    simp only [h.bs, h.blockCount, h.isData] at harea
    exact ⟨hbelow, harea⟩
  · rintro ⟨hbelow, harea⟩
    rw [← h.length] at hbelow
    simp only [← h.bs, ← h.blockCount, ← h.isData] at harea
    exact ⟨hbelow, harea⟩

section Ranges
variable {s : Fs}

theorem inside_block (hg : Geometry s) {b o n : ℕ} (hb : s.image.IsData b) (h₁ : b * s.bs ≤ o)
    (h₂ : o + n ≤ b * s.bs + s.bs) : s.Inside ⟨n, o⟩ :=
  ⟨h₂.trans (data_range hg hb).2, .inr ⟨b, hb, h₁, h₂⟩⟩

theorem inside_cell (hg : Geometry s) {b : ℕ} (hb : b < s.blockCount) : s.Inside ⟨4, s.bs + 4 * b⟩ := by
  have hend := hg.fat_end hb
  have hdata := hg.data_start
  refine ⟨?_, .inl ⟨?_, ?_⟩⟩ <;> dsimp only <;> omega

theorem inside_slot (hg : Geometry s) {k : ℕ} (hk : s.IsSlot k) : s.Inside ⟨320, 320 * k⟩ :=
  inside_block hg hk (slot_range hg k).1 (slot_range hg k).2

theorem byteInside_iff (hg : Geometry s) {b x n : ℕ} (hb : s.fatBlocks < b) (hn : 0 < n) :
    s.Inside ⟨n, b * s.bs + x⟩ ↔ x % s.bs + n ≤ s.bs ∧ b + x / s.bs < s.blockCount := by
  have hbs := hg.bs_pos
  have hsplit : b * s.bs + x = (b + x / s.bs) * s.bs + x % s.bs := by
    rw [Nat.add_mul, Nat.add_assoc, Nat.mul_comm (x / s.bs), Nat.div_add_mod]
  have hmod := Nat.mod_lt x hbs
  rw [hsplit]
  generalize x % s.bs = r at hmod ⊢
  have hge : s.fatBlocks < b + x / s.bs := hb.trans_le (Nat.le_add_right _ _)
  generalize b + x / s.bs = c at hge ⊢
  constructor
  · rintro ⟨-, ⟨-, hend⟩ | ⟨d, hd, h₁, h₂⟩⟩
    · have htable := hg.table
      have hle : (s.fatBlocks + 1) * s.bs ≤ c * s.bs := Nat.mul_le_mul_right _ hge
      rw [Nat.add_mul, Nat.one_mul] at hle
      dsimp only at hend
      omega
    · dsimp only at h₁ h₂
      have hcd : c < d + 1 := by
        apply Nat.lt_of_mul_lt_mul_right (a := s.bs)
        rw [Nat.add_mul, Nat.one_mul]
        omega
      have hdc : d < c + 1 := by
        apply Nat.lt_of_mul_lt_mul_right (a := s.bs)
        rw [Nat.add_mul, Nat.one_mul]
        omega
      obtain rfl : c = d := by omega
      exact ⟨by omega, hd.2⟩
  · rintro ⟨hend, hc⟩
    exact inside_block hg ⟨hge, hc⟩ (Nat.le_add_right _ _) (by omega)

end Ranges

namespace Confined
variable {s t u : Fs}

theorem refl (s : Fs) : Confined s s :=
  ⟨.refl s, [], (List.append_nil _).symm, fun _ h => absurd h List.not_mem_nil⟩

theorem trans (h : Confined s t) (h' : Confined t u) : Confined s u := by
  obtain ⟨more, hmore, hin⟩ := h.records
  obtain ⟨rest, hrest, hin'⟩ := h'.records
  refine ⟨h.frame.trans h'.frame, more ++ rest, by rw [hrest, hmore, List.append_assoc], fun r hr => ?_⟩
  rcases List.mem_append.mp hr with hr | hr
  · exact hin r hr
  · exact h.frame.inside.mp (hin' r hr)

theorem still (hf : SameFrame s t) (h : t.partition.writeRecords = s.partition.writeRecords) : Confined s t :=
  ⟨hf, [], by rw [h, List.append_nil], fun _ h => absurd h List.not_mem_nil⟩

theorem addFree (s : Fs) (n : ℤ) : Confined s (s.addFree n) := .still (.addFree s n) rfl

theorem refresh (s : Fs) (e : DirEntry) : Confined s (s.refresh e) :=
  .still (.refresh s e) (by rw [refresh_partition])

theorem load (s : Fs) : Confined s s.load := .still (.load s) rfl

theorem poke {p : ℕ} {l : List UInt8} (h : s.Inside ⟨l.length, p⟩) : Confined s (s.poke p l) :=
  ⟨.poke s p l, [⟨l.length, p⟩], rfl, fun r hr => by rwa [List.mem_singleton.mp hr]⟩

theorem pokes {ps : List (ℕ × List UInt8)} (h : ∀ p ∈ ps, s.Inside ⟨p.2.length, p.1⟩) :
    Confined s (s.pokes ps) := by
  refine ⟨.pokes s ps, _, pokes_records s ps, fun r hr => ?_⟩
  obtain ⟨p, hp, rfl⟩ := List.mem_map.mp hr
  exact h p hp

theorem putFAT (hg : Geometry s) (v : ℤ) {b : ℕ} (hb : b < s.blockCount) : Confined s (s.putFAT v b) := by
  rw [Driver.putFAT, hg.fatOffset_eq hb]
  apply poke
  rw [blockBytes_length]
  exact inside_cell hg hb

theorem putEntry (hg : Geometry s) {k : ℕ} (hk : s.IsSlot k) (e : DirEntry) : Confined s (s.putEntry k e) := by
  apply poke
  rw [DirEntry.encode_length]
  exact inside_slot hg hk

theorem storeEntry (hg : Geometry s) {k : ℕ} (hk : s.IsSlot k) (e : DirEntry) :
    Confined s (s.storeEntry e (320 * k)) := by
  rw [storeEntry_eq hg]
  refine trans ?_ (.refresh _ e)
  have hput := putEntry hg hk e
  rcases putEntries_cases hg k e with h | ⟨-, hk1, h⟩
  · rw [h]
    exact hput
  · rw [h]
    exact hput.trans (putEntry (hput.frame.geometry hg) (hput.frame.isSlot.mpr hk1) _)

/-- When all but the first writes are known to lie inside, the first ones decide. -/
theorem iff_first {zs : List Record} (hf : SameFrame s u)
    (hz : u.partition.writeRecords = s.partition.writeRecords ++ zs)
    (h : Confined u t) : Confined s t ↔ ∀ r ∈ zs, s.Inside r := by
  obtain ⟨rest, hrest, hin⟩ := h.records
  rw [hz, List.append_assoc] at hrest
  constructor
  · rintro ⟨-, more, hmore, hall⟩ r hr
    rw [hrest] at hmore
    apply hall
    rw [← List.append_cancel_left hmore]
    exact List.mem_append_left _ hr
  · intro hall
    refine ⟨hf.trans h.frame, zs ++ rest, hrest, fun r hr => ?_⟩
    rcases List.mem_append.mp hr with hr | hr
    · exact hall r hr
    · exact hf.inside.mp (hin r hr)

theorem moved (hg : Geometry s) {p k : ℕ} (hp : s.IsSlot p) (hk : s.IsSlot k) (e : DirEntry) :
    Confined s (s.moved e (320 * p) k) := by
  have hput := putEntry hg hp e
  refine hput.trans (poke ?_)
  rw [zero_bytes_length]
  exact inside_slot (hput.frame.geometry hg) (hput.frame.isSlot.mpr hk)

theorem entryRule : EntryRule Confined Geometry (fun s b _ => b < s.blockCount) Driver.IsSlot where
  refl := refl
  trans := trans
  keeps h := h.frame.geometry
  cell h hb := h.frame.blockCount ▸ hb
  addFree := addFree
  putFAT hg hb := putFAT hg _ hb
  slot h := h.frame.isSlot.mpr
  storeEntry e hg hk := storeEntry hg hk e
  moved e hg hp hk := moved hg hp hk e

end Confined

theorem zeroRun_pieces (P : ℕ → ℕ → Prop) (fuel diff position : ℕ) (hfuel : diff < fuel) :
    (∀ p ∈ zeroRun position fuel diff, P p.1 p.2.length) ↔
      ∀ i, zeroChunk * i < diff → P (position + zeroChunk * i) (min zeroChunk (diff - zeroChunk * i)) := by
  induction fuel generalizing diff position with
  | zero => omega
  | succ fuel ih =>
    have hchunk : 0 < zeroChunk := by decide
    rw [zeroRun]
    split_ifs with hc h0
    · rw [List.forall_mem_cons, List.length_replicate, ih _ _ (by omega)]
      constructor
      · rintro ⟨hfirst, hrest⟩ i hi
        cases i with
        | zero => rwa [Nat.mul_zero, Nat.add_zero, Nat.sub_zero, min_eq_left hc]
        | succ i =>
          rw [Nat.mul_succ] at hi ⊢
          have hi' := hrest i (by omega)
          rwa [Nat.add_assoc, Nat.add_comm zeroChunk, Nat.sub_sub, Nat.add_comm zeroChunk] at hi'
      · intro h
        have h0 := h 0 (by omega)
        rw [Nat.mul_zero, Nat.add_zero, Nat.sub_zero, min_eq_left hc] at h0
        refine ⟨h0, fun i hi => ?_⟩
        have hi' := h (i + 1) (by rw [Nat.mul_succ]; omega)
        rw [Nat.mul_succ] at hi'
        rwa [Nat.add_assoc, Nat.add_comm zeroChunk, Nat.sub_sub, Nat.add_comm zeroChunk]
    · rw [List.forall_mem_singleton, List.length_replicate]
      constructor
      · intro h i hi
        obtain rfl : i = 0 := by
          by_contra hne
          have := Nat.le_mul_of_pos_right zeroChunk (Nat.pos_of_ne_zero hne)
          omega
        rwa [Nat.mul_zero, Nat.add_zero, Nat.sub_zero, min_eq_right (by omega)]
      · intro h
        have h0' := h 0 (by omega)
        rwa [Nat.mul_zero, Nat.add_zero, Nat.sub_zero, min_eq_right (by omega)] at h0'
    · refine iff_of_true (fun _ h => absurd h List.not_mem_nil) fun i hi => ?_
      omega

/-- A shrinking file's run of zeros has a piece that does not end in the data block it starts in. -/
def Driver.Overruns (s : Fs) (e : DirEntry) (size : ℕ) : Prop := size < e.len ∧ size % s.bs ≠ 0 ∧
  ∃ i, zeroChunk * i < e.len - size ∧
    ¬ ((size % s.bs + zeroChunk * i) % s.bs + min zeroChunk (e.len - size - zeroChunk * i) ≤ s.bs ∧
      (s.image.chainOf e).getD (size / s.bs) 0 + (size % s.bs + zeroChunk * i) / s.bs < s.blockCount)

section Resized
variable {s : Fs} {e : DirEntry} {size : ℕ}

theorem zeroTail_inside_iff (hg : Geometry s) (hr : s.image.Readable e) (hlt : size < e.len)
    (hmod : size % s.bs ≠ 0) :
    (∀ p ∈ zeroWrites (s.zeroStart (s.image.chainOf e) size) (e.len - size), s.Inside ⟨p.2.length, p.1⟩) ↔
      ¬ s.Overruns e size := by
  have hj : size / s.bs < (s.image.chainOf e).length := by
    rw [Nat.div_lt_iff_lt_mul hg.bs_pos]
    exact hlt.trans_le (len_le_chain hg hr)
  have hb := hr.owns.data _ (List.getElem_mem hj)
  have hget := List.getD_eq_getElem _ 0 hj
  have hpieces := zeroRun_pieces (fun o n => s.Inside ⟨n, o⟩) (e.len - size + 1) (e.len - size)
    (s.zeroStart (s.image.chainOf e) size) (Nat.lt_succ_self _)
  rw [zeroWrites, hpieces, Driver.Overruns, and_iff_right hlt, and_iff_right hmod, not_exists]
  refine forall_congr' fun i => ?_
  rw [not_and, not_not]
  refine imp_congr_right fun hi => ?_
  have hmin : 0 < min zeroChunk (e.len - size - zeroChunk * i) := lt_min (by decide) (by omega)
  rw [Driver.zeroStart, Nat.add_assoc, hget, byteInside_iff hg hb.1 hmin]

end Resized

namespace Confined
variable {s : Fs}

theorem resized_iff (hg : Geometry s) {k : ℕ} (hk : s.IsSlot k) (hr : s.image.Readable (s.entry k)) (size : ℕ) :
    Confined s (s.resized (s.entry k) (320 * k) size) ↔ ¬ s.Overruns (s.entry k) size := by
  have hchain : ∀ b ∈ s.image.chain k, b < s.blockCount := fun b hb => (hr.owns.data b hb).2
  rcases Nat.lt_or_ge size (s.entry k).len with hlt | hge
  · have hzero := SameFrame.zeroTail s (s.entry k) size
    have hrest := entryRule.cut hg hr hlt (hzero.geometry hg) (hzero.isSlot.mpr hk)
      fun b hb _ => hzero.blockCount ▸ hchain b hb
    by_cases hmod : size % s.bs = 0
    · have hself : s.zeroTail (s.entry k) size = s := if_pos hmod
      rw [hself] at hrest
      exact iff_of_true hrest fun h => h.2.1 hmod
    · have hpokes : s.zeroTail (s.entry k) size =
          s.pokes (zeroWrites (s.zeroStart (s.image.chainOf (s.entry k)) size) ((s.entry k).len - size)) :=
        if_neg hmod
      rw [iff_first hzero (by rw [hpokes, pokes_records]) hrest, List.forall_mem_map]
      exact zeroTail_inside_iff hg hr hlt hmod
  · refine iff_of_true ?_ fun h => absurd h.1 (not_lt.mpr hge)
    exact entryRule.lengthened hg hg hr hk hge (fun b hb _ => hchain b hb) fun b hb _ => (mem_freeList.mp hb).1

theorem written (hw : WellFormed s) {k : ℕ} (hslot : s.IsSlot k) (hr : s.image.Readable (s.entry k))
    (buffer : List UInt8) (offset : ℕ)
    (hin : offset / s.bs < (s.newChain (s.entry k) (max (s.entry k).len (offset + buffer.length))).length) :
    Confined s (s.written (s.entry k) (320 * k) buffer offset) := by
  have hg := hw.geometry
  have hdata := newChain_data (fun f hf => hw.free_data hf) hr (max (s.entry k).len (offset + buffer.length))
  have hres : Confined s (s.resized (s.entry k) (320 * k) (max (s.entry k).len (offset + buffer.length))) :=
    (resized_iff hg hslot hr _).mpr fun h => absurd h.1 (not_lt.mpr (le_max_left _ _))
  have hgu := hres.frame.geometry hg
  rw [Driver.written]
  generalize s.newChain (s.entry k) (max (s.entry k).len (offset + buffer.length)) = l at hin hdata ⊢
  generalize s.resized (s.entry k) (320 * k) (max (s.entry k).len (offset + buffer.length)) = u at hres hgu ⊢
  have hpokes : Confined u (u.pokes (spans s.bs (l.drop (offset / s.bs)) (offset % s.bs) buffer)) := by
    apply pokes
    intro p hp
    have hne : l.drop (offset / s.bs) ≠ [] := by
      rw [ne_eq, List.drop_eq_nil_iff]
      omega
    obtain ⟨b, hb, h₁, h₂⟩ := spans_within s.bs _ _ buffer hne (Nat.mod_lt offset hg.bs_pos).le p hp
    rw [← hres.frame.bs] at h₁ h₂
    exact inside_block hgu (hres.frame.isData.mpr (hdata b (List.mem_of_mem_drop hb))) h₁ h₂
  have hall := hres.trans hpokes
  exact hall.trans (storeEntry (hall.frame.geometry hg) (hall.frame.isSlot.mpr hslot) _)

end Confined

def Call.Overruns : Call → Fs → Prop
  | .truncate path size, s => ∃ k, s.lookup path = .ok k ∧ s.Overruns (s.entry k) (toSize size)
  | _, _ => False

section Sample
open FatSample

end Sample

end Thorn.FatDriver
