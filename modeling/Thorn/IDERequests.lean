import Thorn.IDEDevice

set_option autoImplicit false

namespace Thorn.IDE
open ByteStore

/-- The hardware with a record of the calls of `accessATA`: a sector number and a count each. -/
structure Recorded (σ : Type) where
  hardware : σ
  accesses : List (ℕ × ℕ)

instance {σ : Type} [Controller σ] : Controller (Recorded σ) where
  accessRead h drive lba numsects :=
    let r := Controller.accessRead h.hardware drive lba numsects
    (r.1, ⟨r.2, h.accesses ++ [(lba, numsects)]⟩)
  accessWrite h drive lba numsects buffer :=
    let r := Controller.accessWrite h.hardware drive lba numsects buffer
    (r.1, ⟨r.2, h.accesses ++ [(lba, numsects)]⟩)
  readATAPI h drive lba :=
    let r := Controller.readATAPI h.hardware drive lba
    (r.1, ⟨r.2, h.accesses⟩)
  errorRegister h drive :=
    let r := Controller.errorRegister h.hardware drive
    (r.1, ⟨r.2, h.accesses⟩)

/-- The sectors of one call; the controller takes a count of zero for 256. -/
def Passes (a : ℕ × ℕ) (l : ℕ) : Prop := a.1 ≤ l ∧ l < a.1 + if a.2 = 0 then 256 else a.2

structure Logs {σ : Type} (m m' : Machine (Recorded σ)) (as : List (ℕ × ℕ)) : Prop where
  devices : m'.devices = m.devices
  accesses : m'.hardware.accesses = m.hardware.accesses ++ as

namespace Logs
variable {σ : Type} {m m₁ m₂ : Machine (Recorded σ)} {as bs : List (ℕ × ℕ)}

theorem refl (m : Machine (Recorded σ)) : Logs m m [] := ⟨rfl, (List.append_nil _).symm⟩

theorem trans (h₁ : Logs m m₁ as) (h₂ : Logs m₁ m₂ bs) : Logs m m₂ (as ++ bs) where
  devices := h₂.devices.trans h₁.devices
  accesses := by rw [h₂.accesses, h₁.accesses, List.append_assoc]

theorem present {drive S : ℕ} (h : Logs m m₁ as) (hp : Present (m.devices drive) drive S) :
    Present (m₁.devices drive) drive S := by
  rw [h.devices]
  exact hp

end Logs

section Record
variable {σ : Type} {m : Machine (Recorded σ)} {drive S : ℕ}

theorem beyond_eq (hp : Present (m.devices drive) drive S) (l k : ℕ) :
    beyond (m.devices drive) l k = decide (S < (l + k) % 2 ^ 32) := by
  rw [beyond, hp.size, hp.type]
  simp only [decide_true, Bool.and_true]

variable [Controller σ]

theorem printError_logs (m : Machine (Recorded σ)) (drive err : ℕ) :
    ∃ status m', printError drive err m = (status, m') ∧ Logs m m' [] := by
  rw [printError]
  simp only [run_ite]
  split_ifs
  · exact ⟨_, m, rfl, .refl m⟩
  · exact ⟨_, m, rfl, .refl m⟩
  · exact ⟨_, _, rfl, ⟨rfl, (List.append_nil _).symm⟩⟩
  · exact ⟨_, m, rfl, .refl m⟩
  · exact ⟨_, m, rfl, .refl m⟩
  · exact ⟨_, m, rfl, .refl m⟩

theorem readSectors_refused (hp : Present (m.devices drive) drive S) {k l : ℕ} (h : S < (l + k) % 2 ^ 32) :
    readSectors drive k l m = ((-(EINVAL : ℤ), []), m) := by
  simp only [readSectors, run_bind, run_get, run_ite, missing_false hp, beyond_eq hp, decide_eq_true h,
    run_pure, Bool.false_eq_true, ite_false, ite_true]

theorem writeSectors_refused (hp : Present (m.devices drive) drive S) {k l : ℕ} (buffer : List UInt8)
    (h : S < (l + k) % 2 ^ 32) : writeSectors drive k l buffer m = (-2, m) := by
  simp only [writeSectors, run_bind, run_get, run_ite, missing_false hp, beyond_eq hp, decide_eq_true h,
    run_pure, Bool.false_eq_true, ite_false, ite_true]

theorem readSectors_logs (hp : Present (m.devices drive) drive S) {k l : ℕ} (h : (l + k) % 2 ^ 32 ≤ S) :
    ∃ r m', readSectors drive k l m = (r, m') ∧ Logs m m' [(l, k)] := by
  have hread : ∃ r m₁, accessRead drive l k m = (r, m₁) ∧ Logs m m₁ [(l, k)] := ⟨_, _, rfl, rfl, rfl⟩
  obtain ⟨⟨err, bytes⟩, m₁, hread, h₁⟩ := hread
  obtain ⟨status, m₂, hprint, h₂⟩ := printError_logs m₁ drive err
  refine ⟨(-status, bytes), m₂, ?_, h₁.trans h₂⟩
  simp only [readSectors, run_bind, run_get, run_ite, missing_false hp, beyond_eq hp,
    decide_eq_false (not_lt.mpr h), hp.type, Bool.false_eq_true, ite_false, hread, hprint, run_pure]

theorem writeSectors_logs (hp : Present (m.devices drive) drive S) {k l : ℕ} (buffer : List UInt8)
    (h : (l + k) % 2 ^ 32 ≤ S) :
    ∃ status m', writeSectors drive k l buffer m = (status, m') ∧ Logs m m' [(l, k)] := by
  have hwrite : ∃ err m₁, accessWrite drive l k buffer m = (err, m₁) ∧ Logs m m₁ [(l, k)] :=
    ⟨_, _, rfl, rfl, rfl⟩
  obtain ⟨err, m₁, hwrite, h₁⟩ := hwrite
  obtain ⟨status, m₂, hprint, h₂⟩ := printError_logs m₁ drive err
  refine ⟨-status, m₂, ?_, h₁.trans h₂⟩
  simp only [writeSectors, run_bind, run_get, run_ite, missing_false hp, beyond_eq hp,
    decide_eq_false (not_lt.mpr h), hp.type, Bool.false_eq_true, ite_false, hwrite, hprint, run_pure]

end Record

/-- A call keeps to the sectors from `first` on that begin before the byte `stop`, and fails when
that byte is past the drive. -/
structure KeepsTo {σ : Type} (S first stop : ℕ) (m m' : Machine (Recorded σ)) (status : ℤ) : Prop where
  logs : ∃ as, Logs m m' as ∧ ∀ a ∈ as, ∀ l, Passes a l → first ≤ l ∧ 512 * l < stop
  fails : 512 * S < stop → status ≠ 0

namespace KeepsTo
variable {σ : Type} {m m₁ m₂ : Machine (Recorded σ)} {S first stop : ℕ} {status : ℤ}

theorem refused (m : Machine (Recorded σ)) (hs : status ≠ 0) : KeepsTo S first stop m m status :=
  ⟨⟨[], .refl m, by simp⟩, fun _ => hs⟩

theorem idle (m : Machine (Recorded σ)) (h : stop ≤ 512 * S) : KeepsTo S first stop m m status :=
  ⟨⟨[], .refl m, by simp⟩, fun hlt => by omega⟩

theorem one_passes {l k : ℕ} (h : Passes (l, 1) k) : k = l := by
  have h₁ : l ≤ k := h.1
  have h₂ : k < l + 1 := h.2
  omega

theorem cons (hlog : Logs m m₁ [(first, 1)]) (hstop : 512 * first < stop) {next : ℕ} (hnext : first ≤ next)
    (h : KeepsTo S next stop m₁ m₂ status) : KeepsTo S first stop m m₂ status := by
  obtain ⟨as, hlogs, has⟩ := h.logs
  refine ⟨⟨_, hlog.trans hlogs, ?_⟩, h.fails⟩
  intro a ha l hl
  rcases List.mem_append.mp ha with ha | ha
  · obtain rfl := List.mem_singleton.mp ha
    obtain rfl := one_passes hl
    exact ⟨le_rfl, hstop⟩
  · exact ⟨hnext.trans (has a ha l hl).1, (has a ha l hl).2⟩

end KeepsTo

section Loops
variable {σ : Type} [Controller σ] {m : Machine (Recorded σ)} {drive S : ℕ}

theorem readBytesLoop_keeps (hp : Present (m.devices drive) drive S) (fuel bytes offset lba : ℕ)
    (out : List UInt8) (hfuel : bytes ≤ fuel) (ho : offset < 512) (h0 : 0 < bytes ∨ offset = 0) (hl : lba ≤ S)
    (hfit : S + 1 < 2 ^ 32 ∨ 512 * lba + offset + bytes ≤ 512 * S) :
    ∃ r m', readBytesLoop drive fuel bytes offset lba out m = (r, m') ∧
      KeepsTo S lba (512 * lba + offset + bytes) m m' r.1 := by
  induction fuel generalizing m bytes offset lba out with
  | zero =>
    exact ⟨_, m, rfl, .idle m (by omega)⟩
  | succ fuel ih =>
    have hS := hp.small
    rw [readBytesLoop, run_ite]
    by_cases hz : bytes = 0
    · exact ⟨_, m, by rw [if_pos hz, run_pure], .idle m (by omega)⟩
    · rw [if_neg hz, run_bind]
      by_cases hend : lba = S
      · rw [readSectors_refused hp (by omega)]
        exact ⟨_, m, rfl, .refused m (show -(EINVAL : ℤ) ≠ 0 by decide)⟩
      · obtain ⟨⟨status, bytes'⟩, m₁, hread, hlog⟩ := readSectors_logs hp (k := 1) (l := lba) (by omega)
        rw [hread]
        dsimp only
        rw [run_ite]
        by_cases hs : status ≠ 0
        · rw [if_pos hs, run_pure]
          exact ⟨_, m₁, rfl, .cons hlog (by omega) le_rfl (.refused m₁ hs)⟩
        · rw [if_neg hs, Nat.mod_eq_of_lt (show lba + 1 < 2 ^ 32 by omega)]
          by_cases hlast : 512 - offset < bytes
          · have hcopy : (if SECTOR_SIZE - offset < bytes then SECTOR_SIZE - offset else bytes) =
                512 - offset := if_pos hlast
            rw [hcopy]
            obtain ⟨r, m₂, hrun, hrest⟩ := ih (hlog.present hp) (bytes - (512 - offset)) 0 (lba + 1)
              (out ++ (bytes'.drop offset).take (512 - offset)) (by omega) (by omega) (.inr rfl) (by omega) (by omega)
            refine ⟨r, m₂, hrun, .cons hlog (by omega) (Nat.le_succ lba) ?_⟩
            rwa [show 512 * (lba + 1) + 0 + (bytes - (512 - offset)) = 512 * lba + offset + bytes by omega] at hrest
          · have hcopy : (if SECTOR_SIZE - offset < bytes then SECTOR_SIZE - offset else bytes) = bytes :=
              if_neg hlast
            rw [hcopy, Nat.sub_self]
            refine ⟨(0, out ++ (bytes'.drop offset).take bytes), m₁, ?_,
              .cons hlog (by omega) le_rfl (.idle m₁ (by omega))⟩
            cases fuel <;> rfl

theorem writeBytesLoop_keeps (hp : Present (m.devices drive) drive S) (fuel lba : ℕ)
    (cbuffer write_buffer : List UInt8)
    (hfuel : cbuffer.length ≤ fuel) (hl : lba ≤ S)
    (hfit : S + 1 < 2 ^ 32 ∨ 512 * lba + cbuffer.length ≤ 512 * S) :
    ∃ status m', writeBytesLoop drive fuel lba cbuffer write_buffer m = (status, m') ∧
      KeepsTo S lba (512 * lba + cbuffer.length) m m' status := by
  induction fuel generalizing m lba cbuffer with
  | zero =>
    exact ⟨_, m, rfl, .idle m (by omega)⟩
  | succ fuel ih =>
    have hS := hp.small
    rw [writeBytesLoop, run_ite]
    by_cases hz : cbuffer.length = 0
    · exact ⟨_, m, by rw [if_pos hz, run_pure], .idle m (by omega)⟩
    · rw [if_neg hz, run_ite]
      by_cases hlt : cbuffer.length < SECTOR_SIZE
      · have hlt' : cbuffer.length < 512 := hlt
        rw [if_pos hlt, run_bind]
        by_cases hend : lba = S
        · rw [readSectors_refused hp (by omega)]
          exact ⟨_, m, rfl, .refused m (by decide)⟩
        · obtain ⟨⟨status, sector⟩, m₁, hread, hlog⟩ := readSectors_logs hp (k := 1) (l := lba) (by omega)
          rw [hread]
          dsimp only
          rw [run_ite]
          by_cases hs : status ≠ 0
          · rw [if_pos hs, run_pure]
            exact ⟨_, m₁, rfl, .cons hlog (by omega) le_rfl (.refused m₁ hs)⟩
          · obtain ⟨status', m₂, hwrite, hlog'⟩ := writeSectors_logs (hlog.present hp) (k := 1) (l := lba)
              (overlay (overlay write_buffer 0 sector) 0 cbuffer) (by omega)
            rw [if_neg hs, run_bind, hwrite]
            dsimp only
            rw [run_ite]
            refine ⟨status', m₂, ?_, .cons hlog (by omega) le_rfl
              (.cons hlog' (by omega) le_rfl (.idle m₂ (by omega)))⟩
            by_cases hs' : status' ≠ 0
            · rw [if_pos hs', run_pure]
            · rw [if_neg hs', run_pure, not_not.mp hs']
      · have hge : ¬ cbuffer.length < 512 := hlt
        rw [if_neg hlt, run_bind]
        by_cases hend : lba = S
        · rw [writeSectors_refused hp cbuffer (by omega)]
          exact ⟨_, m, rfl, .refused m (show (-2 : ℤ) ≠ 0 by decide)⟩
        · obtain ⟨status, m₁, hwrite, hlog⟩ := writeSectors_logs hp (k := 1) (l := lba) cbuffer (by omega)
          rw [hwrite]
          dsimp only
          rw [run_ite]
          by_cases hs : status ≠ 0
          · rw [if_pos hs, run_pure]
            exact ⟨_, m₁, rfl, .cons hlog (by omega) le_rfl (.refused m₁ hs)⟩
          · have hdrop : (cbuffer.drop SECTOR_SIZE).length = cbuffer.length - 512 := List.length_drop
            rw [if_neg hs, Nat.mod_eq_of_lt (show lba + 1 < 2 ^ 32 by omega)]
            obtain ⟨r, m₂, hrun, hrest⟩ :=
              ih (hlog.present hp) (lba + 1) (cbuffer.drop SECTOR_SIZE) (by omega) (by omega)
              (by omega)
            refine ⟨r, m₂, hrun, .cons hlog (by omega) (Nat.le_succ lba) ?_⟩
            rwa [hdrop, show 512 * (lba + 1) + (cbuffer.length - 512) = 512 * lba + cbuffer.length by omega] at hrest

theorem readBytesLoop_refused (hp : Present (m.devices drive) drive S) (fuel : ℕ) {bytes lba : ℕ} (offset : ℕ)
    (out : List UInt8) (h0 : 0 < bytes) (h : S < (lba + 1) % 2 ^ 32) :
    readBytesLoop drive (fuel + 1) bytes offset lba out m = ((-(EINVAL : ℤ), out), m) := by
  rw [readBytesLoop, run_ite, if_neg h0.ne', run_bind, readSectors_refused hp h]
  rfl

theorem writeBytesLoop_refused (hp : Present (m.devices drive) drive S) (fuel lba : ℕ)
    (cbuffer write_buffer : List UInt8) (h0 : 0 < cbuffer.length) (h : S < (lba + 1) % 2 ^ 32) :
    ∃ status, writeBytesLoop drive (fuel + 1) lba cbuffer write_buffer m = (status, m) ∧ status ≠ 0 := by
  rw [writeBytesLoop, run_ite, if_neg h0.ne', run_ite]
  by_cases hlt : cbuffer.length < SECTOR_SIZE
  · rw [if_pos hlt, run_bind, readSectors_refused hp h]
    exact ⟨_, rfl, show -(EINVAL : ℤ) ≠ 0 by decide⟩
  · rw [if_neg hlt, run_bind, writeSectors_refused hp cbuffer h]
    exact ⟨_, rfl, show (-2 : ℤ) ≠ 0 by decide⟩

theorem readBytes_keeps (hp : Present (m.devices drive) drive S) {bytes offset : ℕ} (h0 : 0 < bytes)
    (hl : offset / 512 ≤ S) (hfit : S + 1 < 2 ^ 32 ∨ offset + bytes ≤ 512 * S) :
    ∃ r m', readBytes drive bytes offset m = (r, m') ∧ KeepsTo S (offset / 512) (offset + bytes) m m' r.1 := by
  have hS := hp.small
  have hd := Nat.div_add_mod offset 512
  have hlba : offset / SECTOR_SIZE % 2 ^ 32 = offset / 512 := Nat.mod_eq_of_lt (by
    change offset / 512 < _
    omega)
  have h := readBytesLoop_keeps hp bytes bytes (offset % 512) (offset / 512) [] le_rfl (Nat.mod_lt _ (by omega))
    (.inl h0) hl (by rwa [hd])
  rw [hd] at h
  rw [readBytes, hlba]
  exact h

theorem writeBytes_keeps (hp : Present (m.devices drive) drive S) {offset : ℕ} {buffer : List UInt8}
    (h0 : 0 < buffer.length) (ha : ¬ (offset % 512 = 0 ∧ buffer.length % 512 = 0)) (hl : offset / 512 ≤ S)
    (hfit : S + 1 < 2 ^ 32 ∨ offset + buffer.length ≤ 512 * S) :
    ∃ status m', writeBytes drive offset buffer m = (status, m') ∧
      KeepsTo S (offset / 512) (offset + buffer.length) m m' status := by
  have hS := hp.small
  have hd := Nat.div_add_mod offset 512
  have hlba : offset / SECTOR_SIZE % 2 ^ 32 = offset / 512 := Nat.mod_eq_of_lt (by
    change offset / 512 < _
    omega)
  have hno : ¬ (buffer.length % SECTOR_SIZE = 0 ∧ offset % SECTOR_SIZE = 0) := fun h => ha ⟨h.2, h.1⟩
  rw [writeBytes, hlba, run_ite, if_neg hno]
  by_cases hrem : offset % SECTOR_SIZE = 0
  · have hrem' : offset % 512 = 0 := hrem
    have h :=
      writeBytesLoop_keeps hp buffer.length (offset / 512) buffer (List.replicate SECTOR_SIZE 0) le_rfl hl
      (by omega)
    rw [show 512 * (offset / 512) = offset by omega] at h
    rw [run_ite, if_neg (not_not.mpr hrem)]
    exact h
  · have hrem' : offset % 512 ≠ 0 := hrem
    rw [run_ite, if_pos hrem, run_bind]
    by_cases hend : offset / 512 = S
    · rw [readSectors_refused hp (by omega)]
      exact ⟨_, m, rfl, .refused m (show -(EINVAL : ℤ) ≠ 0 by decide)⟩
    · obtain ⟨⟨status, sector⟩, m₁, hread, hlog⟩ := readSectors_logs hp (k := 1) (l := offset / 512) (by omega)
      rw [hread]
      dsimp only
      rw [run_ite]
      by_cases hs : status ≠ 0
      · rw [if_pos hs, run_pure]
        exact ⟨_, m₁, rfl, .cons hlog (by omega) le_rfl (.refused m₁ hs)⟩
      · generalize hn : (if SECTOR_SIZE - offset % SECTOR_SIZE < buffer.length then SECTOR_SIZE - offset % SECTOR_SIZE
          else buffer.length) = n
        have hn' : n = min (512 - offset % 512) buffer.length := by
          rw [← hn]
          change (if 512 - offset % 512 < buffer.length then 512 - offset % 512 else buffer.length) = _
          split_ifs <;> omega
        obtain ⟨status', m₂, hwrite, hlog'⟩ := writeSectors_logs (hlog.present hp) (k := 1) (l := offset / 512)
          (overlay (overlay (List.replicate SECTOR_SIZE 0) 0 sector) (offset % SECTOR_SIZE) (buffer.take n)) (by omega)
        rw [if_neg hs, run_bind, hwrite]
        dsimp only
        rw [run_ite]
        by_cases hs' : status' ≠ 0
        · rw [if_pos hs', run_pure]
          exact ⟨_, m₂, rfl, .cons hlog (by omega) le_rfl (.cons hlog' (by omega) le_rfl (.refused m₂ hs'))⟩
        · rw [if_neg hs', Nat.mod_eq_of_lt (show offset / 512 + 1 < 2 ^ 32 by omega)]
          have hdrop : (buffer.drop n).length = buffer.length - n := List.length_drop
          obtain ⟨r, m₃, hrun, hrest⟩ :=
            writeBytesLoop_keeps ((hlog.trans hlog').present hp) buffer.length (offset / 512 + 1)
            (buffer.drop n) (overlay (overlay (List.replicate SECTOR_SIZE 0) 0 sector) (offset % SECTOR_SIZE)
              (buffer.take n))
            (by omega) (by omega) (by omega)
          refine ⟨r, m₃, hrun, .cons hlog (by omega) le_rfl (.cons hlog' (by omega) (Nat.le_succ _) ?_)⟩
          by_cases hmore : 512 - offset % 512 < buffer.length
          · rwa [hdrop, show 512 * (offset / 512 + 1) + (buffer.length - n) = offset + buffer.length by omega] at hrest
          · obtain ⟨as, hlogs, has⟩ := hrest.logs
            have hzero : (buffer.drop n).length = 0 := by omega
            rw [hzero] at has hrest
            refine ⟨⟨as, hlogs, fun a ha l hl => ?_⟩, fun hlt => by omega⟩
            have hin := has a ha l hl
            omega

end Loops

end Thorn.IDE

namespace Thorn.IDEDevice
open ByteStore IDE

/-- A request of `size` bytes passes only sectors of its own to `accessATA`, and fails when it leaves the drive. -/
structure StaysInside {σ : Type} (S offset size : ℕ) (status : ℤ) (m : Machine (Recorded σ)) : Prop where
  fails : 512 * S < offset + size → status ≠ 0
  sectors : ∀ a ∈ m.hardware.accesses, ∀ l, Passes a l → offset / 512 ≤ l ∧ l ≤ (offset + size - 1) / 512

def RefusesBeyond (drive S offset size : ℕ) : Prop :=
  ∀ (σ : Type) [Controller σ] (m : Machine (Recorded σ)), Present (m.devices drive) drive S → m.hardware.accesses = [] →
    StaysInside S offset size (read drive size offset m).1.1 (read drive size offset m).2 ∧
    ∀ buffer : List UInt8, buffer.length = size →
      StaysInside S offset size (write drive offset buffer m).1 (write drive offset buffer m).2

/-- The check catches the request: once for all its sectors when it is aligned, else at the first sector or
at the first one past the end, before a sector number is narrowed. -/
def Caught (S offset size : ℕ) : Prop :=
  if offset % 512 = 0 ∧ size % 512 = 0 then S < (offset / 512 % 2 ^ 32 + size / 512 % 2 ^ 8) % 2 ^ 32
  else S ≤ offset / 512 % 2 ^ 32 ∧ offset / 512 % 2 ^ 32 + 1 < 2 ^ 32 ∨ offset / 512 < S ∧ S + 1 < 2 ^ 32 ∨
    S = 0 ∧ offset / 512 + 1 = 2 ^ 32 ∧ 512 * 2 ^ 32 < offset + size

section Requests
variable {σ : Type} {m : Machine (Recorded σ)} {drive S offset size : ℕ} {status : ℤ}

theorem staysInside_of_keeps {m' : Machine (Recorded σ)} (hm : m.hardware.accesses = [])
    (h : KeepsTo S (offset / 512) (offset + size) m m' status) : StaysInside S offset size status m' := by
  obtain ⟨as, hlogs, has⟩ := h.logs
  refine ⟨h.fails, fun a ha l hl => ?_⟩
  rw [hlogs.accesses, hm, List.nil_append] at ha
  have hin := has a ha l hl
  exact ⟨hin.1, by omega⟩

theorem staysInside_refused (hm : m.hardware.accesses = []) (hs : status ≠ 0) :
    StaysInside S offset size status m :=
  staysInside_of_keeps hm (.refused m hs)

theorem staysInside_aligned {m' : Machine (Recorded σ)} (hm : m.hardware.accesses = []) (h0 : 0 < size)
    (ha : offset % 512 = 0 ∧ size % 512 = 0) (hlog : Logs m m' [(offset / 512, size / 512 % 2 ^ 8)])
    (hfit : offset + size ≤ 512 * S) : StaysInside S offset size status m' := by
  refine ⟨fun h => by omega, fun a h l hl => ?_⟩
  rw [hlog.accesses, hm, List.nil_append] at h
  obtain rfl := List.mem_singleton.mp h
  obtain ⟨h₁, h₂⟩ := hl
  dsimp only at h₁ h₂
  split_ifs at h₂ <;> omega

variable [Controller σ]

theorem readBytes_wrapped (hp : Present (m.devices drive) drive 0) (hl : offset / 512 + 1 = 2 ^ 32)
    (hsize : 512 * 2 ^ 32 < offset + size) : ∃ r m', readBytes drive size offset m = (r, m') ∧
      KeepsTo 0 (offset / 512) (offset + size) m m' r.1 := by
  have hlba : offset / SECTOR_SIZE % 2 ^ 32 = offset / 512 := Nat.mod_eq_of_lt (by
    change offset / 512 < _
    omega)
  obtain ⟨fuel, rfl⟩ : ∃ fuel, size = fuel + 2 := ⟨size - 2, by omega⟩
  obtain ⟨⟨status, bytes⟩, m₁, hread, hlog⟩ := readSectors_logs hp (k := 1) (l := offset / 512) (by omega)
  rw [readBytes, hlba, readBytesLoop, run_ite, if_neg (by omega), run_bind, hread]
  dsimp only
  rw [run_ite]
  by_cases hs : status ≠ 0
  · rw [if_pos hs, run_pure]
    exact ⟨_, m₁, rfl, .cons hlog (by omega) le_rfl (.refused m₁ hs)⟩
  · have hcopy : (if SECTOR_SIZE - offset % SECTOR_SIZE < fuel + 2
        then SECTOR_SIZE - offset % SECTOR_SIZE else fuel + 2) = 512 - offset % 512 := if_pos (by
      change 512 - offset % 512 < _
      omega)
    rw [if_neg hs, hcopy, hl, Nat.mod_self,
      readBytesLoop_refused (hlog.present hp) fuel _ _ (by omega) (by omega)]
    exact ⟨_, m₁, rfl, .cons hlog (by omega) le_rfl (.refused m₁ (show -(EINVAL : ℤ) ≠ 0 by decide))⟩

theorem writeBytes_wrapped (hp : Present (m.devices drive) drive 0) {buffer : List UInt8}
    (hl : offset / 512 + 1 = 2 ^ 32)
    (hsize : 512 * 2 ^ 32 < offset + buffer.length) (ha : ¬ (offset % 512 = 0 ∧ buffer.length % 512 = 0)) :
    ∃ status m', writeBytes drive offset buffer m = (status, m') ∧
      KeepsTo 0 (offset / 512) (offset + buffer.length) m m' status := by
  have hlba : offset / SECTOR_SIZE % 2 ^ 32 = offset / 512 := Nat.mod_eq_of_lt (by
    change offset / 512 < _
    omega)
  have hno : ¬ (buffer.length % SECTOR_SIZE = 0 ∧ offset % SECTOR_SIZE = 0) := fun h => ha ⟨h.2, h.1⟩
  obtain ⟨fuel, hfuel⟩ : ∃ fuel, buffer.length = fuel + 2 := ⟨buffer.length - 2, by omega⟩
  rw [writeBytes, hlba, run_ite, if_neg hno]
  by_cases hrem : offset % SECTOR_SIZE = 0
  · have hrem' : offset % 512 = 0 := hrem
    have hlen : 512 < buffer.length := by omega
    obtain ⟨status, m₁, hwrite, hlog⟩ := writeSectors_logs hp (k := 1) (l := offset / 512) buffer (by omega)
    rw [run_ite, if_neg (not_not.mpr hrem), hfuel, writeBytesLoop, run_ite, if_neg (by omega), run_ite,
      if_neg (show ¬ buffer.length < 512 by omega), run_bind, hwrite]
    dsimp only
    rw [run_ite]
    by_cases hs : status ≠ 0
    · rw [if_pos hs, run_pure]
      exact ⟨_, m₁, rfl, .cons hlog (by omega) le_rfl (.refused m₁ hs)⟩
    · obtain ⟨status', hrun, hs'⟩ := writeBytesLoop_refused (hlog.present hp) fuel 0
        (buffer.drop SECTOR_SIZE) (List.replicate SECTOR_SIZE 0)
        (by rw [List.length_drop]; change 0 < buffer.length - 512; omega) (by omega)
      rw [if_neg hs, hl, Nat.mod_self]
      exact ⟨_, m₁, hrun, .cons hlog (by omega) le_rfl (.refused m₁ hs')⟩
  · rw [run_ite, if_pos hrem, run_bind]
    obtain ⟨⟨status, sector⟩, m₁, hread, hlog⟩ := readSectors_logs hp (k := 1) (l := offset / 512) (by omega)
    rw [hread]
    dsimp only
    rw [run_ite]
    by_cases hs : status ≠ 0
    · rw [if_pos hs, run_pure]
      exact ⟨_, m₁, rfl, .cons hlog (by omega) le_rfl (.refused m₁ hs)⟩
    · have hcopy :
          (if SECTOR_SIZE - offset % SECTOR_SIZE < buffer.length then SECTOR_SIZE - offset % SECTOR_SIZE
          else buffer.length) = 512 - offset % 512 := if_pos (by
        change 512 - offset % 512 < _
        omega)
      obtain ⟨status', m₂, hwrite, hlog'⟩ := writeSectors_logs (hlog.present hp) (k := 1) (l := offset / 512)
        (overlay (overlay (List.replicate SECTOR_SIZE 0) 0 sector) (offset % SECTOR_SIZE)
          (buffer.take (512 - offset % 512))) (by omega)
      rw [if_neg hs, hcopy, run_bind, hwrite]
      dsimp only
      rw [run_ite]
      by_cases hs' : status' ≠ 0
      · rw [if_pos hs', run_pure]
        exact ⟨_, m₂, rfl, .cons hlog (by omega) le_rfl (.cons hlog' (by omega) le_rfl (.refused m₂ hs'))⟩
      · obtain ⟨status'', hrun, hs''⟩ := writeBytesLoop_refused ((hlog.trans hlog').present hp) (fuel + 1) 0
          (buffer.drop (512 - offset % 512))
          (overlay (overlay (List.replicate SECTOR_SIZE 0) 0 sector) (offset % SECTOR_SIZE)
            (buffer.take (512 - offset % 512))) (by rw [List.length_drop]; omega) (by omega)
        rw [if_neg hs', hl, Nat.mod_self, hfuel]
        exact ⟨_, m₂, hrun, .cons hlog (by omega) le_rfl (.cons hlog' (by omega) le_rfl (.refused m₂ hs''))⟩

theorem writeBytes_refused (hp : Present (m.devices drive) drive S) {buffer : List UInt8}
    (h0 : 0 < buffer.length)
    (ha : ¬ (offset % 512 = 0 ∧ buffer.length % 512 = 0)) (h : S < (offset / 512 % 2 ^ 32 + 1) % 2 ^ 32) :
    ∃ status, writeBytes drive offset buffer m = (status, m) ∧ status ≠ 0 := by
  have hno : ¬ (buffer.length % SECTOR_SIZE = 0 ∧ offset % SECTOR_SIZE = 0) := fun h => ha ⟨h.2, h.1⟩
  obtain ⟨fuel, hfuel⟩ : ∃ fuel, buffer.length = fuel + 1 := ⟨buffer.length - 1, by omega⟩
  rw [writeBytes, run_ite, if_neg hno]
  by_cases hrem : offset % SECTOR_SIZE = 0
  · rw [run_ite, if_neg (not_not.mpr hrem), hfuel]
    exact writeBytesLoop_refused hp fuel _ _ _ h0 h
  · rw [run_ite, if_pos hrem, run_bind, readSectors_refused hp h]
    exact ⟨_, rfl, show -(EINVAL : ℤ) ≠ 0 by decide⟩

theorem refusesBeyond (h0 : 0 < size) (h : offset + size ≤ 512 * S ∨ Caught S offset size) :
    RefusesBeyond drive S offset size := by
  intro σ _ m hp hm
  have hS := hp.small
  rw [Caught] at h
  by_cases ha : offset % 512 = 0 ∧ size % 512 = 0
  · rw [if_pos ha] at h
    have hread : read drive size offset m =
        readSectors drive (size / 512 % 2 ^ 8) (offset / 512 % 2 ^ 32) m := by
      rw [read, if_pos ha]
    have hwrite : ∀ buffer : List UInt8, buffer.length = size → write drive offset buffer m =
        writeSectors drive (size / 512 % 2 ^ 8) (offset / 512 % 2 ^ 32) buffer m := by
      rintro buffer rfl
      rw [write, if_pos ha]
    rw [hread]
    by_cases hc : S < (offset / 512 % 2 ^ 32 + size / 512 % 2 ^ 8) % 2 ^ 32
    · rw [readSectors_refused hp hc]
      refine ⟨staysInside_refused hm (show -(EINVAL : ℤ) ≠ 0 by decide), fun buffer hb => ?_⟩
      rw [hwrite buffer hb, writeSectors_refused hp buffer hc]
      exact staysInside_refused hm (show (-2 : ℤ) ≠ 0 by decide)
    · have hfit := h.resolve_right hc
      have hlba : offset / 512 % 2 ^ 32 = offset / 512 := Nat.mod_eq_of_lt (by omega)
      rw [hlba] at hc ⊢
      obtain ⟨r, m₁, hr, hlog⟩ := readSectors_logs hp (not_lt.mp hc)
      rw [hr]
      refine ⟨staysInside_aligned hm h0 ha hlog hfit, fun buffer hb => ?_⟩
      obtain ⟨status, m₂, hw, hlog⟩ := writeSectors_logs hp buffer (not_lt.mp hc)
      rw [hwrite buffer hb, hlba, hw]
      exact staysInside_aligned hm h0 ha hlog hfit
  · rw [if_neg ha] at h
    have hread : read drive size offset m = readBytes drive size offset m := by
      rw [read, if_neg ha]
    have hwrite : ∀ buffer : List UInt8, buffer.length = size → write drive offset buffer m =
        writeBytes drive offset buffer m := by
      rintro buffer rfl
      rw [write, if_neg ha]
    rw [hread]
    by_cases hfirst : S ≤ offset / 512 % 2 ^ 32 ∧ offset / 512 % 2 ^ 32 + 1 < 2 ^ 32
    · have hc : S < (offset / 512 % 2 ^ 32 + 1) % 2 ^ 32 := by omega
      obtain ⟨fuel, rfl⟩ : ∃ fuel, size = fuel + 1 := ⟨size - 1, by omega⟩
      rw [readBytes, readBytesLoop_refused hp fuel _ _ h0 hc]
      refine ⟨staysInside_refused hm (show -(EINVAL : ℤ) ≠ 0 by decide), fun buffer hb => ?_⟩
      obtain ⟨status, hrun, hs⟩ := writeBytes_refused hp (hb ▸ h0) (hb ▸ ha) hc
      rw [hwrite buffer hb, hrun]
      exact staysInside_refused hm hs
    · by_cases hwrap : S = 0 ∧ offset / 512 + 1 = 2 ^ 32 ∧ 512 * 2 ^ 32 < offset + size
      · obtain ⟨rfl, hl, hsize⟩ := hwrap
        obtain ⟨r, m₁, hrun, hkeeps⟩ := readBytes_wrapped hp hl hsize
        rw [hrun]
        refine ⟨staysInside_of_keeps hm hkeeps, fun buffer hb => ?_⟩
        obtain ⟨status, m₂, hrun, hkeeps⟩ := writeBytes_wrapped hp hl (hb ▸ hsize) (hb ▸ ha)
        rw [hwrite buffer hb, hrun]
        exact staysInside_of_keeps hm (hb ▸ hkeeps)
      · have hl : offset / 512 ≤ S := by omega
        have hfit : S + 1 < 2 ^ 32 ∨ offset + size ≤ 512 * S := by omega
        obtain ⟨r, m₁, hrun, hkeeps⟩ := readBytes_keeps hp h0 hl hfit
        rw [hrun]
        refine ⟨staysInside_of_keeps hm hkeeps, fun buffer hb => ?_⟩
        obtain ⟨status, m₂, hrun, hkeeps⟩ := writeBytes_keeps hp (hb ▸ h0) (hb ▸ ha) hl (hb ▸ hfit)
        rw [hwrite buffer hb, hrun]
        exact staysInside_of_keeps hm (hb ▸ hkeeps)

end Requests

def working (drive S : ℕ) (as : List (ℕ × ℕ)) : Machine (Recorded FlatDrive) :=
  ⟨fun d => ⟨decide (d = drive), .IDE_ATA, S⟩, ⟨⟨fun _ => 0⟩, as⟩⟩

section Working
variable {drive S offset size : ℕ}

theorem working_present (hd : drive ≤ 3) (hS : S < 2 ^ 32) (as : List (ℕ × ℕ)) :
    Present ((working drive S as).devices drive) drive S := ⟨hd, decide_eq_true rfl, rfl, rfl, hS⟩

theorem working_readSectors (hd : drive ≤ 3) (hS : S < 2 ^ 32) (as : List (ℕ × ℕ)) {k l : ℕ}
    (h : (l + k) % 2 ^ 32 ≤ S) :
    ∃ bytes, readSectors drive k l (working drive S as) = ((0, bytes), working drive S (as ++ [(l, k)])) := by
  have hp := working_present hd hS as
  refine ⟨slice (fun _ => 0) (512 * l) (512 * k), ?_⟩
  simp only [readSectors, run_bind, run_get, run_ite, missing_false hp, beyond_eq hp,
    decide_eq_false (not_lt.mpr h), hp.type, Bool.false_eq_true, ite_false, printError, accessRead]
  rfl

theorem working_readBytesLoop (hd : drive ≤ 3) (hS : S < 2 ^ 32) (as : List (ℕ × ℕ)) (fuel : ℕ) {bytes lba : ℕ}
    (offset : ℕ) (out : List UInt8) (h0 : 0 < bytes) (h : (lba + 1) % 2 ^ 32 ≤ S) :
    ∃ out', readBytesLoop drive (fuel + 1) bytes offset lba out (working drive S as) =
      readBytesLoop drive fuel (bytes - min (512 - offset) bytes) 0 ((lba + 1) % 2 ^ 32) out'
        (working drive S (as ++ [(lba, 1)])) := by
  obtain ⟨bytes', hread⟩ := working_readSectors hd hS as h
  have hcopy : (if SECTOR_SIZE - offset < bytes then SECTOR_SIZE - offset else bytes) =
      min (512 - offset) bytes := by
    change (if 512 - offset < bytes then 512 - offset else bytes) = _
    split_ifs <;> omega
  refine ⟨out ++ (bytes'.drop offset).take (min (512 - offset) bytes), ?_⟩
  rw [readBytesLoop, run_ite, if_neg h0.ne', run_bind, hread]
  dsimp only
  rw [run_ite, if_neg (not_not.mpr rfl), hcopy]

theorem working_logs (hd : drive ≤ 3) (hS : S < 2 ^ 32) (as : List (ℕ × ℕ)) (fuel bytes offset lba : ℕ)
    (out : List UInt8) :
    as ⊆ (readBytesLoop drive fuel bytes offset lba out (working drive S as)).2.hardware.accesses := by
  induction fuel generalizing as bytes offset lba out with
  | zero => exact List.Subset.refl as
  | succ fuel ih =>
    rcases Nat.eq_zero_or_pos bytes with rfl | h0
    · exact List.Subset.refl as
    · by_cases h : S < (lba + 1) % 2 ^ 32
      · rw [readBytesLoop_refused (working_present hd hS as) fuel offset out h0 h]
        exact List.Subset.refl as
      · obtain ⟨out', hrun⟩ := working_readBytesLoop hd hS as fuel offset out h0 (not_lt.mp h)
        rw [hrun]
        exact fun a ha => ih (as ++ [(lba, 1)]) _ _ _ _ (List.mem_append_left _ ha)

theorem working_unchecked (hd : drive ≤ 3) (as : List (ℕ × ℕ)) (fuel bytes offset lba : ℕ) (out : List UInt8) :
    (readBytesLoop drive fuel bytes offset lba out (working drive (2 ^ 32 - 1) as)).1.1 = 0 := by
  induction fuel generalizing as bytes offset lba out with
  | zero => rfl
  | succ fuel ih =>
    rcases Nat.eq_zero_or_pos bytes with rfl | h0
    · rfl
    · obtain ⟨out', hrun⟩ := working_readBytesLoop hd (by omega) as fuel offset out h0
        (show (lba + 1) % 2 ^ 32 ≤ 2 ^ 32 - 1 by omega)
      rw [hrun]
      exact ih _ _ _ _ _

theorem caught_of_refusesBeyond (hd : drive ≤ 3) (hS : S < 2 ^ 32) (h0 : 0 < size)
    (h : RefusesBeyond drive S offset size) : offset + size ≤ 512 * S ∨ Caught S offset size := by
  by_contra hno
  rw [not_or, not_le] at hno
  obtain ⟨hbeyond, hno⟩ := hno
  have hread := (h FlatDrive (working drive S []) (working_present hd hS []) rfl).1
  rw [Caught] at hno
  by_cases ha : offset % 512 = 0 ∧ size % 512 = 0
  · rw [if_pos ha, not_lt] at hno
    have hrun : read drive size offset (working drive S []) =
        readSectors drive (size / 512 % 2 ^ 8) (offset / 512 % 2 ^ 32) (working drive S []) := by
      rw [read, if_pos ha]
    obtain ⟨bytes, hr⟩ := working_readSectors hd hS [] hno
    rw [hrun, hr] at hread
    exact hread.fails hbeyond rfl
  · rw [if_neg ha, not_or, not_or] at hno
    obtain ⟨hfirst, hlast, hnone⟩ := hno
    have hrun : read drive size offset (working drive S []) = readBytesLoop drive size size (offset % 512)
        (offset / 512 % 2 ^ 32) [] (working drive S []) := by
      rw [read, if_neg ha]
      rfl
    rw [hrun] at hread
    obtain ⟨fuel, hfuel⟩ : ∃ fuel, size = fuel + 1 := ⟨size - 1, by omega⟩
    have hpass : (offset / 512 % 2 ^ 32 + 1) % 2 ^ 32 ≤ S := by omega
    obtain ⟨out, hstep⟩ := working_readBytesLoop hd hS [] fuel (offset % 512) [] h0 hpass
    have hstep' := hstep
    rw [← hfuel] at hstep'
    by_cases hbig : 2 ^ 32 ≤ offset / 512
    · -- the first sector is another one of the drive
      have hin :=
        working_logs hd hS ([] ++ [(offset / 512 % 2 ^ 32, 1)]) fuel (size - min (512 - offset % 512) size) 0
        ((offset / 512 % 2 ^ 32 + 1) % 2 ^ 32) out (List.mem_singleton.mpr rfl)
      rw [← hstep'] at hin
      have hl := (hread.sectors _ hin (offset / 512 % 2 ^ 32) ⟨le_rfl, Nat.lt_succ_self _⟩).1
      omega
    · rw [Nat.mod_eq_of_lt (not_le.mp hbig)] at hpass hfirst hread hstep'
      by_cases hmax : S + 1 = 2 ^ 32
      · -- no sector is refused
        obtain rfl : S = 2 ^ 32 - 1 := by omega
        exact hread.fails hbeyond (working_unchecked hd _ _ _ _ _ _)
      · have hl : offset / 512 + 1 = 2 ^ 32 := by omega
        rw [hstep', hl, Nat.mod_self] at hread
        by_cases hone : offset + size ≤ 512 * 2 ^ 32
        · -- the only sector is the one whose successor is narrowed to zero
          rw [show size - min (512 - offset % 512) size = 0 by omega] at hread
          cases fuel with
          | zero => exact hread.fails hbeyond rfl
          | succ fuel => exact hread.fails hbeyond rfl
        · -- the second sector is narrowed to zero
          obtain ⟨fuel, rfl⟩ : ∃ fuel', fuel = fuel' + 1 := ⟨fuel - 1, by omega⟩
          obtain ⟨out', hnext⟩ := working_readBytesLoop hd hS ([] ++ [(offset / 512, 1)]) fuel 0 out
            (show 0 < size - min (512 - offset % 512) size by omega) (show (0 + 1) % 2 ^ 32 ≤ S by omega)
          rw [hnext] at hread
          have hin := working_logs hd hS ([] ++ [(offset / 512, 1)] ++ [(0, 1)]) fuel
            (size - min (512 - offset % 512) size - min (512 - 0) (size - min (512 - offset % 512) size)) 0
            ((0 + 1) % 2 ^ 32) out' (List.mem_append_right _ (List.mem_singleton.mpr rfl))
          have hzero := (hread.sectors _ hin 0 ⟨le_rfl, by decide⟩).1
          omega

end Working

/-- Requests past the end are refused, and only sectors of the request are touched, exactly when the request lies
inside the drive or the narrowed check catches it. -/
theorem refuses_beyond_iff (drive S offset size : ℕ) (hd : drive ≤ 3) (hS : S < 2 ^ 32) (h0 : 0 < size) :
    RefusesBeyond drive S offset size ↔ offset + size ≤ 512 * S ∨ Caught S offset size :=
  ⟨caught_of_refusesBeyond hd hS h0, refusesBeyond h0⟩

/-- One sector past the end of a drive of 256 sectors. -/
theorem refuses_beyond_end : RefusesBeyond 0 256 (512 * 256) 512 ↔
    512 * 256 + 512 ≤ 512 * 256 ∨ Caught 256 (512 * 256) 512 :=
  refuses_beyond_iff 0 256 (512 * 256) 512 (by omega) (by omega) (by omega)

/-- The sector of number `2 ^ 32` is taken for the first one. -/
theorem far_sector_served : ¬ RefusesBeyond 0 256 (512 * 2 ^ 32) 512 := by
  intro h
  have hcaught := caught_of_refusesBeyond (by omega) (by omega) (by omega) h
  rw [Caught] at hcaught
  revert hcaught
  decide

end Thorn.IDEDevice
