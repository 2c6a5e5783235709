import Thorn.AHCIPort

set_option autoImplicit false

namespace Thorn.AHCIPort
open ByteStore AHCI

def Reliable (σ : Type) [Hardware σ] : Prop :=
  ∀ (h : σ) (lba count : ℕ) (buffer : Store) (write : Bool), (Hardware.access h lba count buffer write).1.1 = .Success

/-- A call ends: with the disk as given when it succeeds, and with success when every transfer does. -/
structure Ends {σ : Type} [Hardware σ] (content : σ → Store) (F : Store) (status : AccessStatus)
    (p : Port σ) : Prop where
  content : status = .Success → content p.hardware = F
  reliable : Reliable σ → status = .Success

section Writes
variable {σ : Type} [Hardware σ] {content : σ → Store} {p : Port σ} {F : Store}

theorem Ends.failed {status : AccessStatus} (hs : status ≠ .Success) (hno : ¬ Reliable σ) :
    Ends content F status p :=
  ⟨fun h => absurd h hs, fun h => absurd h hno⟩

theorem Requests.reliable {q : Port σ} {rs : List Request} (h : Requests p rs q) (hr : Reliable σ) :
    ∀ r ∈ rs, r.status = .Success := by
  induction h with
  | nil => simp
  | snoc h hrun ih =>
    intro r hr'
    rcases List.mem_append.mp hr' with hr' | hr'
    · exact ih r hr'
    · simp only [access, Option.some.injEq, Prod.mk.injEq] at hrun
      rw [List.mem_singleton.mp hr', ← hrun.1]
      exact hr _ _ _ _ _

theorem run_readSector (ht : Transfers content) (p : Port σ) {lba : ℕ} (hl : lba < 2 ^ 64) : ∃ status out p',
    read lba BLOCKSIZE p = some ((status, out), p') ∧
      (status = .Success ∧ out = slice (content p.hardware) (512 * lba) 512 ∧
      content p'.hardware = content p.hardware ∨ status ≠ .Success ∧ ¬ Reliable σ) := by
  obtain ⟨status, out, p', hrun, hend⟩ := run_read ht p hl BLOCKSIZE
  refine ⟨status, out, p', hrun, ?_⟩
  rcases hend with ⟨hs, hout, hsame, -⟩ | ⟨hs, -, rs, n, -, hran, -, r, hr, hfail⟩
  · have hone : blocks BLOCKSIZE = 1 := rfl
    refine .inl ⟨hs, ?_, hsame⟩
    rw [hout, hone, sectorBytes_one hl, slice_take _ _ _ _ le_rfl]
  · exact .inr ⟨hs, fun hrel => hfail (hran.reliable hrel r hr)⟩

theorem run_writeLoop (ht : Transfers content) (p : Port σ) (n lba : ℕ) (cbuffer : List UInt8) {count : ℕ}
    (hc : 512 ≤ count) (hlen : 512 * n ≤ cbuffer.length) (hl : lba + n ≤ 2 ^ 64) : ∃ status p',
    writeLoop count n lba cbuffer p = some (status, p') ∧
      Ends content (patch (content p.hardware) (512 * lba) (cbuffer.take (512 * n))) status p' := by
  induction n generalizing p lba cbuffer with
  | zero => exact ⟨.Success, p, rfl, fun _ => (patch_nil _ _).symm, fun _ => rfl⟩
  | succ n ih =>
    have hsize : (if count < BLOCKSIZE then count else BLOCKSIZE) = 512 := if_neg (not_lt.mpr hc)
    have hcopy : copyIn cbuffer 512 p =
        some ((), { p with physicalBuffer := patch p.physicalBuffer 0 (cbuffer.take 512) }) :=
      if_pos (by omega)
    have hcut : (cbuffer.take 512).length = 512 := by
      rw [List.length_take]
      omega
    have haccess : ∃ status q,
        access lba 1 true { p with physicalBuffer := patch p.physicalBuffer 0 (cbuffer.take 512) } =
        some (status, q) ∧ Ends content (patch (content p.hardware) (512 * lba) (cbuffer.take 512)) status q := by
      refine ⟨_, _, rfl, fun hs => ?_, fun hrel => hrel _ _ _ _ _⟩
      have hself := slice_patch_self p.physicalBuffer 0 (cbuffer.take 512)
      rw [hcut] at hself
      have hwrite := ht.write p.hardware lba 1 (patch p.physicalBuffer 0 (cbuffer.take 512)) _ _
        (Prod.ext (Prod.ext hs rfl) rfl)
      rw [Nat.mul_one, hself] at hwrite
      exact hwrite
    obtain ⟨status, q, hrun, hend⟩ := haccess
    rw [writeLoop, run_ite, if_neg (by omega), hsize, run_bind, hcopy, Option.bind_some, run_bind, hrun,
      Option.bind_some, run_ite]
    by_cases hs : status = .Success
    · obtain ⟨status', p', hrest, hend'⟩ := ih q ((lba + 1) % 2 ^ 64) (cbuffer.drop 512)
        (by rw [List.length_drop]; omega) (by omega)
      rw [if_neg (not_not.mpr hs)]
      refine ⟨status', p', hrest, fun hs' => ?_, hend'.reliable⟩
      rw [hend'.content hs', hend.content hs]
      have hjoin :=
        patch_append (content p.hardware) (512 * lba) (cbuffer.take 512) ((cbuffer.drop 512).take (512 * n))
      rw [hcut, ← List.take_add] at hjoin
      rw [show 512 * (n + 1) = 512 + 512 * n by omega, ← hjoin]
      by_cases hn : n = 0
      · rw [hn, Nat.mul_zero, List.take_zero, patch_nil, patch_nil]
      · rw [Nat.mod_eq_of_lt (by omega), Nat.mul_add, Nat.mul_one]
    · rw [if_pos hs, run_pure]
      exact ⟨status, q, rfl, .failed hs fun hrel => hs (hend.reliable hrel)⟩

theorem run_write (ht : Transfers content) (p : Port σ) {lba : ℕ} (n : ℕ) (buffer : List UInt8)
    (hlen : 512 * n ≤ buffer.length)
    (hl : lba + n ≤ 2 ^ 64) : ∃ status p', write lba (512 * n) buffer p = some (status, p') ∧
      Ends content (patch (content p.hardware) (512 * lba) (buffer.take (512 * n))) status p' := by
  have hn : (512 * n + BLOCKSIZE - 1) / BLOCKSIZE = n := by
    change (512 * n + 512 - 1) / 512 = n
    omega
  rw [write, hn]
  cases n with
  | zero => exact ⟨.Success, p, rfl, fun _ => (patch_nil _ _).symm, fun _ => rfl⟩
  | succ n => exact run_writeLoop ht p (n + 1) lba buffer (by omega) hlen hl

theorem run_writeSector (ht : Transfers content) (p : Port σ) {lba : ℕ} (buffer : List UInt8)
    (hlen : buffer.length = 512)
    (hl : lba < 2 ^ 64) : ∃ status p', write lba BLOCKSIZE buffer p = some (status, p') ∧
      Ends content (patch (content p.hardware) (512 * lba) buffer) status p' := by
  obtain ⟨status, p', hrun, hend⟩ := run_write ht p 1 buffer hlen.ge hl
  rw [Nat.mul_one, List.take_of_length_le hlen.le] at hend
  exact ⟨status, p', hrun, hend⟩

/-- What the loop of `writeBytes` writes: the bounce buffer for each whole sector, and the tail. -/
def loopBytes (cbuffer write_buffer : List UInt8) : List UInt8 :=
  (List.replicate (cbuffer.length / 512) write_buffer).flatten ++ cbuffer.drop (512 * (cbuffer.length / 512))

theorem loopBytes_short {cbuffer : List UInt8} (write_buffer : List UInt8) (h : cbuffer.length < 512) :
    loopBytes cbuffer write_buffer = cbuffer := by
  rw [loopBytes, Nat.div_eq_of_lt h, Nat.mul_zero, List.drop_zero, List.replicate_zero, List.flatten_nil,
    List.nil_append]

theorem loopBytes_step {cbuffer : List UInt8} (write_buffer : List UInt8) (h : 512 ≤ cbuffer.length) :
    loopBytes cbuffer write_buffer = write_buffer ++ loopBytes (cbuffer.drop 512) write_buffer := by
  have hdiv : cbuffer.length / 512 = (cbuffer.drop 512).length / 512 + 1 := by
    rw [List.length_drop]
    omega
  rw [loopBytes, loopBytes, hdiv, List.replicate_succ, List.flatten_cons, List.append_assoc, List.drop_drop,
    Nat.mul_succ, Nat.add_comm]

theorem run_writeBytesLoop (ht : Transfers content) (fuel : ℕ) (p : Port σ) (lba : ℕ)
    (cbuffer write_buffer : List UInt8)
    (hfuel : cbuffer.length ≤ fuel) (hw : write_buffer.length = 512) (hl : lba + cbuffer.length / 512 < 2 ^ 64) :
    ∃ status p',
    writeBytesLoop fuel lba cbuffer write_buffer p = some (status, p') ∧
      Ends content (patch (content p.hardware) (512 * lba) (loopBytes cbuffer write_buffer)) status p' := by
  induction fuel generalizing p lba cbuffer with
  | zero =>
    rw [loopBytes_short _ (by omega), List.eq_nil_of_length_eq_zero (Nat.le_zero.mp hfuel), patch_nil]
    exact ⟨.Success, p, rfl, fun _ => rfl, fun _ => rfl⟩
  | succ fuel ih =>
    rw [writeBytesLoop, run_ite]
    by_cases h0 : cbuffer.length = 0
    · rw [if_pos h0, loopBytes_short _ (by omega), List.eq_nil_of_length_eq_zero h0, patch_nil]
      exact ⟨.Success, p, rfl, fun _ => rfl, fun _ => rfl⟩
    · rw [if_neg h0, run_ite]
      by_cases hlt : cbuffer.length < BLOCKSIZE
      · have hlt' : cbuffer.length < 512 := hlt
        obtain ⟨status, sector, p₁, hrun, hread⟩ := run_readSector ht p (show lba < 2 ^ 64 by omega)
        rw [if_pos hlt, run_bind, hrun, Option.bind_some, loopBytes_short _ hlt']
        dsimp only
        rw [run_ite]
        rcases hread with ⟨hs, hout, hsame⟩ | ⟨hs, hno⟩
        · have hfull : overlay write_buffer 0 (slice (content p.hardware) (512 * lba) 512) =
              slice (content p.hardware) (512 * lba) 512 := overlay_full _ _ (by rw [slice_length, hw])
          have hlen : (overlay (slice (content p.hardware) (512 * lba) 512) 0 cbuffer).length = 512 := by
            rw [overlay_length _ _ _ (by rw [slice_length]; omega), slice_length]
          obtain ⟨status, p₂, hrun', hend⟩ := run_writeSector ht p₁ _ hlen (show lba < 2 ^ 64 by omega)
          rw [if_neg (not_not.mpr hs), hout, hfull]
          rw [hsame, patch_overlay _ _ _ _ _ (by omega), Nat.add_zero] at hend
          exact ⟨status, p₂, hrun', hend⟩
        · rw [if_pos hs, run_pure]
          exact ⟨status, p₁, rfl, .failed hs hno⟩
      · have hge : 512 ≤ cbuffer.length := not_lt.mp hlt
        obtain ⟨status, p₁, hrun, hend⟩ := run_writeSector ht p _ hw (show lba < 2 ^ 64 by omega)
        rw [if_neg hlt, run_bind, hrun, Option.bind_some, run_ite]
        by_cases hs : status = .Success
        · have hdrop : (cbuffer.drop 512).length = cbuffer.length - 512 := List.length_drop
          obtain ⟨status', p₂, hrest, hend'⟩ := ih p₁ (lba + 1) (cbuffer.drop 512) (by omega) (by omega)
          rw [if_neg (not_not.mpr hs), Nat.mod_eq_of_lt (by omega)]
          refine ⟨status', p₂, hrest, fun hs' => ?_, hend'.reliable⟩
          have hjoin :=
            patch_append (content p.hardware) (512 * lba) write_buffer
            (loopBytes (cbuffer.drop 512) write_buffer)
          rw [hw, ← loopBytes_step _ hge] at hjoin
          rw [hend'.content hs', hend.content hs, ← hjoin, Nat.mul_add, Nat.mul_one]
        · rw [if_pos hs, run_pure]
          exact ⟨status, p₁, rfl, .failed hs fun hrel => hs (hend.reliable hrel)⟩

def headLength (offset : ℕ) : ℕ := (512 - offset % 512) % 512

/-- What the bounce buffer holds when the whole sectors are written. -/
def bounce (F : Store) (offset : ℕ) (buffer : List UInt8) : List UInt8 :=
  if offset % 512 = 0 then List.replicate 512 0
  else slice (patch F offset (buffer.take (headLength offset))) (512 * (offset / 512)) 512

def written (F : Store) (offset : ℕ) (buffer : List UInt8) : List UInt8 :=
  if offset % 512 = 0 ∧ buffer.length % 512 = 0 then buffer.take (buffer.length % 2 ^ 32)
  else buffer.take (headLength offset) ++ loopBytes (buffer.drop (headLength offset)) (bounce F offset buffer)

theorem run_writeBytes (ht : Transfers content) (p : Port σ) {offset : ℕ} {buffer : List UInt8}
    (ho : offset < 2 ^ 64)
    (hb : buffer.length < 2 ^ 64) : ∃ status p', writeBytes offset buffer p = some (status, p') ∧
      Ends content (patch (content p.hardware) offset (written (content p.hardware) offset buffer)) status p' := by
  have hd := Nat.div_add_mod offset 512
  rw [writeBytes, run_ite]
  by_cases ha : offset % 512 = 0 ∧ buffer.length % 512 = 0
  · have hn : buffer.length % 2 ^ 32 = 512 * (buffer.length % 2 ^ 32 / 512) := by omega
    rw [if_pos ⟨ha.2, ha.1⟩, written, if_pos ha]
    obtain ⟨status, p', hrun, hend⟩ := run_write ht p (buffer.length % 2 ^ 32 / 512) buffer (by omega)
      (show offset / 512 + _ ≤ 2 ^ 64 by omega)
    rw [← hn, show 512 * (offset / 512) = offset by omega] at hend
    rw [← hn] at hrun
    exact ⟨status, p', hrun, hend⟩
  · rw [if_neg fun h => ha ⟨h.2, h.1⟩, run_ite, written, if_neg ha]
    by_cases hrem : offset % 512 = 0
    · have hhead : headLength offset = 0 := by
        rw [headLength, hrem]
      rw [if_neg (not_not.mpr hrem), hhead, List.take_zero, List.nil_append, List.drop_zero, bounce,
        if_pos hrem]
      obtain ⟨status, p', hrun, hend⟩ := run_writeBytesLoop ht buffer.length p (offset / 512) buffer
        (List.replicate BLOCKSIZE 0) le_rfl List.length_replicate (by omega)
      rw [show 512 * (offset / 512) = offset by omega] at hend
      exact ⟨status, p', hrun, hend⟩
    · have hhead : headLength offset = 512 - offset % 512 := Nat.mod_eq_of_lt (by omega)
      obtain ⟨status, sector, p₁, hrun, hread⟩ := run_readSector ht p (show offset / 512 < 2 ^ 64 by omega)
      rw [if_pos hrem, run_bind, hrun, Option.bind_some, bounce, if_neg hrem]
      dsimp only
      rw [run_ite]
      rcases hread with ⟨hs, hout, hsame⟩ | ⟨hs, hno⟩
      · generalize hn : (if BLOCKSIZE - offset % BLOCKSIZE < buffer.length then BLOCKSIZE - offset % BLOCKSIZE
          else buffer.length) = n
        have hmin : n = min (512 - offset % 512) buffer.length := by
          rw [← hn]
          change (if 512 - offset % 512 < buffer.length then 512 - offset % 512 else buffer.length) = _
          split_ifs <;> omega
        have htake : buffer.take n = buffer.take (headLength offset) := by
          rw [hmin, ← List.take_take, List.take_length, hhead]
        have hdrop : buffer.drop n = buffer.drop (headLength offset) := by
          by_cases hlt : 512 - offset % 512 < buffer.length
          · rw [hmin, hhead, Nat.min_eq_left hlt.le]
          · rw [List.drop_of_length_le (by omega), List.drop_of_length_le (by omega)]
        have hcut : (buffer.take (headLength offset)).length = n := by
          rw [List.length_take, hhead, hmin]
        have hfull :
            overlay (List.replicate BLOCKSIZE 0) 0 (slice (content p.hardware) (512 * (offset / 512)) 512) =
            slice (content p.hardware) (512 * (offset / 512)) 512 := overlay_full _ _ (by simp)
        have hplace : overlay (slice (content p.hardware) (512 * (offset / 512)) 512) (offset % BLOCKSIZE)
            (buffer.take (headLength offset)) =
            slice (patch (content p.hardware) offset (buffer.take (headLength offset))) (512 * (offset / 512)) 512 := by
          rw [show offset % BLOCKSIZE = offset % 512 from rfl, overlay_slice _ _ _ _ _ (by omega), hd]
        obtain ⟨status₂, p₂, hwrite, hend⟩ := run_writeSector ht p₁ (slice (patch (content p.hardware) offset
          (buffer.take (headLength offset))) (512 * (offset / 512)) 512) (slice_length _ _ _)
          (show offset / 512 < 2 ^ 64 by omega)
        have hpatch :
            patch (content p₁.hardware) (512 * (offset / 512)) (slice (patch (content p.hardware) offset
            (buffer.take (headLength offset))) (512 * (offset / 512)) 512) =
              patch (content p.hardware) offset (buffer.take (headLength offset)) := by
          rw [hsame]
          exact patch_slice _ _ _ _ fun i hi => patch_outside _ _ _ _ (by omega)
        rw [hpatch] at hend
        rw [if_neg (not_not.mpr hs), hout, hfull, htake, hplace, run_bind, hwrite, Option.bind_some, run_ite,
          hdrop]
        by_cases hs₂ : status₂ = .Success
        · have hrest : (buffer.drop (headLength offset)).length = buffer.length - (512 - offset % 512) := by
            rw [List.length_drop, hhead]
          obtain ⟨status₃, p₃, hloop, hend₃⟩ := run_writeBytesLoop ht buffer.length p₂ (offset / 512 + 1)
            (buffer.drop (headLength offset)) (slice (patch (content p.hardware) offset
              (buffer.take (headLength offset))) (512 * (offset / 512)) 512) (by omega) (slice_length _ _ _) (by omega)
          rw [if_neg (not_not.mpr hs₂), show offset / BLOCKSIZE = offset / 512 from rfl,
            Nat.mod_eq_of_lt (by omega)]
          refine ⟨status₃, p₃, hloop, fun hs₃ => ?_, hend₃.reliable⟩
          rw [hend₃.content hs₃, hend.content hs₂]
          by_cases hmore : 512 - offset % 512 < buffer.length
          · rw [← patch_append, hcut, show 512 * (offset / 512 + 1) = offset + n by omega]
          · have hnil : buffer.drop (headLength offset) = [] := List.drop_of_length_le (by omega)
            rw [hnil, loopBytes_short _ (by decide), patch_nil, List.append_nil]
        · rw [if_pos hs₂, run_pure]
          exact ⟨status₂, p₂, rfl, .failed hs₂ fun hrel => hs₂ (hend.reliable hrel)⟩
      · rw [if_pos hs, run_pure]
        exact ⟨status, p₁, rfl, .failed hs hno⟩

theorem run_readBytesLoop (ht : Transfers content) (fuel : ℕ) (p : Port σ) (count offset lba : ℕ)
    (out : List UInt8)
    (hfuel : count ≤ fuel) (ho : offset < 512)
    (hl : lba + (offset + count) / 512 < 2 ^ 64) {out' : List UInt8} {p' : Port σ}
    (hrun : readBytesLoop fuel count offset lba out p = some ((.Success, out'), p')) :
    out' = out ++ slice (content p.hardware) (512 * lba + offset) count := by
  induction fuel generalizing p count offset lba out with
  | zero =>
    obtain rfl : count = 0 := Nat.le_zero.mp hfuel
    rw [readBytesLoop, run_pure] at hrun
    obtain ⟨hr, -⟩ := Prod.mk.inj (Option.some.inj hrun)
    rw [slice_zero, List.append_nil, (Prod.mk.inj hr).2]
  | succ fuel ih =>
    rw [readBytesLoop, run_ite] at hrun
    by_cases h0 : count = 0
    · subst h0
      rw [if_pos rfl, run_pure] at hrun
      obtain ⟨hr, -⟩ := Prod.mk.inj (Option.some.inj hrun)
      rw [slice_zero, List.append_nil, (Prod.mk.inj hr).2]
    · obtain ⟨status, sector, p₁, hread, hend⟩ := run_readSector ht p (show lba < 2 ^ 64 by omega)
      rw [if_neg h0, run_bind, hread, Option.bind_some] at hrun
      dsimp only at hrun
      rw [run_ite] at hrun
      rcases hend with ⟨hs, hsector, hsame⟩ | ⟨hs, -⟩
      · generalize hn : (if BLOCKSIZE - offset < count then BLOCKSIZE - offset else count) = n at hrun
        have hmin : n = min (512 - offset) count := by
          rw [← hn]
          change (if 512 - offset < count then 512 - offset else count) = _
          split_ifs <;> omega
        have hpiece : slice (content p.hardware) (512 * lba + offset) count =
            (sector.drop offset).take n ++ slice (content p.hardware) (512 * lba + offset + n) (count - n) := by
          rw [hsector, slice_drop_take _ _ _ _ _ (by omega), ← slice_eq_take_drop _ _ _ _ (by omega)]
        rw [if_neg (not_not.mpr hs)] at hrun
        by_cases hmore : 512 - offset < count
        · rw [Nat.mod_eq_of_lt (by omega)] at hrun
          have hrest := ih p₁ (count - n) 0 (lba + 1) _ (by omega) (by omega) (by omega) hrun
          rw [hrest, hsame, hpiece, ← List.append_assoc,
            show 512 * (lba + 1) + 0 = 512 * lba + offset + n by omega]
        · have hlast : count - n = 0 := by omega
          have hstop : readBytesLoop fuel 0 0 ((lba + 1) % 2 ^ 64) (out ++ (sector.drop offset).take n) p₁ =
              some ((.Success, out ++ (sector.drop offset).take n), p₁) := by
            cases fuel <;> rfl
          rw [hlast, hstop] at hrun
          obtain ⟨hr, -⟩ := Prod.mk.inj (Option.some.inj hrun)
          rw [hpiece, hlast, slice_zero, List.append_nil, (Prod.mk.inj hr).2]
      · rw [if_pos hs, run_pure] at hrun
        obtain ⟨hr, -⟩ := Prod.mk.inj (Option.some.inj hrun)
        exact absurd (Prod.mk.inj hr).1 hs

end Writes

/-- A write of the port is one of the flat array, and so is a read of the same range that follows. -/
structure WritesFlat {σ : Type} [Hardware σ] (content : σ → Store) (p : Port σ) (offset : ℕ)
    (buffer : List UInt8) : Prop where
  inside : writeBytes offset buffer p ≠ none
  writes : ∀ p', writeBytes offset buffer p = some (.Success, p') →
    content p'.hardware = patch (content p.hardware) offset buffer
  returns : ∀ p' out p'', writeBytes offset buffer p = some (.Success, p') →
    readBytes buffer.length offset p' = some ((.Success, out), p'') → out = buffer

/-- Whatever the hardware makes of the calls, as long as those that succeed move the sectors. -/
def FlatBytes (F : Store) (offset : ℕ) (buffer : List UInt8) : Prop :=
  ∀ (σ : Type) [Hardware σ] (content : σ → Store), Transfers content → ∀ p : Port σ, content p.hardware = F →
    WritesFlat content p offset buffer

/-- An aligned write is shorter than 4 GiB, and any other one writes no whole sector after its head; or the bytes
that go wrong are as they should be by chance. -/
def WholeSectors (F : Store) (offset : ℕ) (buffer : List UInt8) : Prop :=
  if offset % 512 = 0 ∧ buffer.length % 512 = 0 then
    buffer.drop (buffer.length % 2 ^ 32) = (slice F offset buffer.length).drop (buffer.length % 2 ^ 32)
  else ((buffer.drop (headLength offset)).take (512 * ((buffer.length - headLength offset) / 512))) =
    (List.replicate ((buffer.length - headLength offset) / 512) (bounce F offset buffer)).flatten

section Flat
variable {F : Store} {offset : ℕ} {buffer : List UInt8}

theorem wholeSectors_iff (hlen : (bounce F offset buffer).length = 512) :
    patch F offset (written F offset buffer) = patch F offset buffer ↔ WholeSectors F offset buffer := by
  rw [written, WholeSectors]
  by_cases ha : offset % 512 = 0 ∧ buffer.length % 512 = 0
  · rw [if_pos ha, if_pos ha]
    exact patch_take_iff F offset _ buffer (Nat.mod_le _ _)
  · rw [if_neg ha, if_neg ha]
    have hrest : (buffer.drop (headLength offset)).length = buffer.length - headLength offset :=
      List.length_drop
    have hflat :
        ((List.replicate ((buffer.length - headLength offset) / 512) (bounce F offset buffer)).flatten).length =
        512 * ((buffer.length - headLength offset) / 512) := by
      rw [List.length_flatten, List.map_replicate, hlen, List.sum_replicate, smul_eq_mul, Nat.mul_comm]
    have hb := List.take_append_drop (headLength offset) buffer
    have hsame :
        (buffer.take (headLength offset) ++ loopBytes (buffer.drop (headLength offset))
        (bounce F offset buffer)).length =
        buffer.length := by
      rw [List.length_append, loopBytes, List.length_append, hrest, hflat, List.length_drop, hrest,
        List.length_take]
      omega
    rw [patch_inj F offset hsame]
    constructor
    · intro h
      have hloop := List.append_cancel_left (h.trans hb.symm)
      rw [loopBytes, hrest] at hloop
      have hcut := congrArg (List.take (512 * ((buffer.length - headLength offset) / 512))) hloop
      rw [List.take_left' hflat] at hcut
      exact hcut.symm
    · intro h
      have hloop : loopBytes (buffer.drop (headLength offset)) (bounce F offset buffer) =
          buffer.drop (headLength offset) := by
        rw [loopBytes, hrest, ← h, List.take_append_drop]
      rw [hloop, hb]

theorem bounce_length (F : Store) (offset : ℕ) (buffer : List UInt8) :
    (bounce F offset buffer).length = 512 := by
  rw [bounce]
  split_ifs
  · exact List.length_replicate
  · exact slice_length _ _ _

theorem flatBytes_of_wholeSectors (ho : offset < 2 ^ 64) (hb : buffer.length < 2 ^ 64)
    (h : WholeSectors F offset buffer) : FlatBytes F offset buffer := by
  rintro σ _ content ht p rfl
  obtain ⟨status, p₁, hrun, hend⟩ := run_writeBytes ht p ho hb
  have hcontent : ∀ p', writeBytes offset buffer p = some (.Success, p') →
      content p'.hardware = patch (content p.hardware) offset buffer := by
    intro p' hrun'
    rw [hrun] at hrun'
    obtain ⟨hs, rfl⟩ := Prod.mk.inj (Option.some.inj hrun')
    rw [hend.content hs]
    exact (wholeSectors_iff (bounce_length _ _ _)).mpr h
  refine ⟨fun hnone => ?_, hcontent, fun p' out p'' hrun' hread => ?_⟩
  · rw [hrun] at hnone
    cases hnone
  · have hd := Nat.div_add_mod offset 512
    have hout := run_readBytesLoop ht buffer.length p' buffer.length (offset % 512) (offset / 512) [] le_rfl
      (Nat.mod_lt _ (by omega)) (by omega) hread
    rw [hout, hcontent p' hrun', hd, List.nil_append, slice_patch_self]

theorem flatDisk_reliable : Reliable FlatDisk := by
  intro h lba count buffer write
  cases write <;> rfl

theorem wholeSectors_of_flatBytes (ho : offset < 2 ^ 64) (hb : buffer.length < 2 ^ 64)
    (h : FlatBytes F offset buffer) : WholeSectors F offset buffer := by
  obtain ⟨status, p', hrun, hend⟩ := run_writeBytes flatDisk_transfers ⟨fun _ => 0, ⟨F⟩⟩ ho hb
  have hs := hend.reliable flatDisk_reliable
  rw [hs] at hrun
  have hflat := (h FlatDisk FlatDisk.bytes flatDisk_transfers ⟨fun _ => 0, ⟨F⟩⟩ rfl).writes p' hrun
  exact (wholeSectors_iff (bounce_length _ _ _)).mp ((hend.content hs).symm.trans hflat)

end Flat

/-- `writeBytes` and `readBytes` serve the disk as a flat array exactly when no whole sector goes through the
bounce buffer. -/
theorem flat_bytes_iff (F : Store) (offset : ℕ) (buffer : List UInt8) (ho : offset < 2 ^ 64)
    (hb : buffer.length < 2 ^ 64) : FlatBytes F offset buffer ↔ WholeSectors F offset buffer :=
  ⟨wholeSectors_of_flatBytes ho hb, flatBytes_of_wholeSectors ho hb⟩

/-- A part of a sector. -/
theorem flat_bytes_part : FlatBytes (fun _ => 0) 100 [1, 2, 3] ↔ WholeSectors (fun _ => 0) 100 [1, 2, 3] :=
  flat_bytes_iff (fun _ => 0) 100 [1, 2, 3] (by omega) (by decide)

/-- The first sector of 513 bytes is written with zeros. -/
theorem bounce_written : ¬ FlatBytes (fun _ => 0) 0 (List.replicate 513 7) := by
  intro h
  have hlen : (List.replicate 513 (7 : UInt8)).length = 513 := List.length_replicate
  have hhead : (List.replicate 513 (7 : UInt8))[0]? = some 7 := by
    rw [List.getElem?_replicate, if_pos (by omega)]
  generalize List.replicate 513 (7 : UInt8) = buffer at h hlen hhead
  have hw := wholeSectors_of_flatBytes (by omega) (by omega) h
  rw [WholeSectors, hlen, if_neg (by omega)] at hw
  have hfirst := congrArg (fun l : List UInt8 => l[0]?) hw
  have hright : (List.replicate ((513 - headLength 0) / 512) (bounce (fun _ => 0) 0 buffer)).flatten =
      bounce (fun _ => 0) 0 buffer :=
    List.append_nil _
  have hzero : (bounce (fun _ => 0) 0 buffer)[0]? = some 0 := by
    rw [bounce, if_pos (Nat.zero_mod 512), List.getElem?_replicate, if_pos (by omega)]
  rw [hright, hzero, List.getElem?_take_of_lt (by decide), List.getElem?_drop] at hfirst
  cases hhead.symm.trans hfirst

end Thorn.AHCIPort
