import Thorn.HeapLimits

set_option autoImplicit false

namespace Thorn
open ByteStore

namespace Memory

def EINVAL : ℕ := 22

/-- The byte in all eight places of an `op_t`. -/
def opWord (c : UInt8) : ℕ :=
  let cccc := c.toNat
  let cccc := cccc ||| cccc <<< 8
  let cccc := cccc ||| cccc <<< 16
  cccc ||| cccc <<< 16 <<< 16

/-- The bytes in front of the first multiple of 8; there are seven at most. -/
def alignLoop (c : UInt8) : ℕ → Store × ℕ × ℕ → Store × ℕ × ℕ
  | 0, s => s
  | fuel + 1, (ram, dstp, len) =>
    if dstp % 8 ≠ 0 then alignLoop c fuel (patch ram dstp [c], dstp + 1, len - 1) else (ram, dstp, len)

def wordLoop (cccc : ℕ) : ℕ → Store × ℕ → Store × ℕ
  | 0, s => s
  | xlen + 1, (ram, dstp) => wordLoop cccc xlen (patch ram dstp (leBytes 8 cccc), dstp + 8)

def groupLoop (cccc : ℕ) : ℕ → Store × ℕ → Store × ℕ
  | 0, s => s
  | xlen + 1, s => groupLoop cccc xlen (wordLoop cccc 8 s)

def byteLoop (c : UInt8) : ℕ → Store × ℕ → Store
  | 0, s => s.1
  | len + 1, (ram, dstp) => byteLoop c len (patch ram dstp [c], dstp + 1)

def memset (ram : Store) (dstpp : ℕ) (c : UInt8) (len : ℕ) : Store :=
  if 8 ≤ len then
    let (ram, dstp, len) := alignLoop c 8 (ram, dstpp, len)
    let (ram, dstp) := groupLoop (opWord c) (len / 64) (ram, dstp)
    let len := len % 64
    let (ram, dstp) := wordLoop (opWord c) (len / 8) (ram, dstp)
    byteLoop c (len % 8) (ram, dstp)
  else byteLoop c len (ram, dstpp)

def malloc (global_memory : Option Memory) (size : ℕ) : Option (ℕ × Option Memory) :=
  match global_memory with
  | none => some (0, none)
  | some m => (m.allocate size).map fun r => (r.2, some r.1)

def calloc (global_memory : Option Memory) (count size : ℕ) : Option (ℕ × Option Memory) := do
  let (chunk, memory) ← malloc global_memory (uintptr (count * size))
  if chunk ≠ 0 then some (chunk, memory.map fun m => { m with ram := memset m.ram chunk 0 (uintptr (count * size)) })
  else some (chunk, memory)

def Accepts (alignment : ℕ) : Prop := ¬(alignment &&& uintptr (alignment + (2 ^ 64 - 1)) ≠ 0 ∨ alignment < 8)

instance (alignment : ℕ) : Decidable (Accepts alignment) := inferInstanceAs (Decidable (¬_))

/-- Returns the status and what `*memptr` is then; `allocate` ignores the alignment. -/
def posix_memalign (global_memory : Option Memory) (memptr alignment size : ℕ) :
    Option (ℕ × ℕ × Option Memory) :=
  match global_memory with
  | none => some (EINVAL, memptr, none)
  | some m =>
    if ¬Accepts alignment then some (EINVAL, memptr, some m)
    else (m.allocate size).map fun r => (0, r.2, some r.1)

section Memset
variable (ram : Store) (c : UInt8)

theorem fill_append (o a b : ℕ) : patch (patch ram o (List.replicate a c)) (o + a) (List.replicate b c) =
    patch ram o (List.replicate (a + b) c) := by
  have happend := patch_append ram o (List.replicate a c) (List.replicate b c)
  rw [List.length_replicate, List.replicate_append_replicate] at happend
  exact happend

theorem leBytes_opWord : leBytes 8 (opWord c) = List.replicate 8 c := by
  have hall : ∀ n : Fin 256,
      leBytes 8 (opWord (UInt8.ofNat n)) = List.replicate 8 (UInt8.ofNat n) := by decide +kernel
  have hc := hall ⟨c.toNat, c.toNat_lt⟩
  rwa [UInt8.ofNat_toNat] at hc

theorem byteLoop_eq (len dstp : ℕ) : byteLoop c len (ram, dstp) = patch ram dstp (List.replicate len c) := by
  induction len generalizing ram dstp with
  | zero => exact (patch_nil ram dstp).symm
  | succ len ih =>
    rw [byteLoop, ih, Nat.add_comm len]
    exact fill_append ram c dstp 1 len

theorem wordLoop_eq (xlen dstp : ℕ) : wordLoop (opWord c) xlen (ram, dstp) =
    (patch ram dstp (List.replicate (8 * xlen) c), dstp + 8 * xlen) := by
  induction xlen generalizing ram dstp with
  | zero => rw [wordLoop, Nat.mul_zero, List.replicate_zero, patch_nil, Nat.add_zero]
  | succ xlen ih =>
    rw [wordLoop, ih, leBytes_opWord, fill_append, Nat.mul_succ, Nat.add_comm (8 * xlen), Nat.add_assoc]

theorem groupLoop_eq (xlen dstp : ℕ) : groupLoop (opWord c) xlen (ram, dstp) =
    (patch ram dstp (List.replicate (64 * xlen) c), dstp + 64 * xlen) := by
  induction xlen generalizing ram dstp with
  | zero => rw [groupLoop, Nat.mul_zero, List.replicate_zero, patch_nil, Nat.add_zero]
  | succ xlen ih =>
    rw [groupLoop, wordLoop_eq, ih, fill_append, Nat.add_assoc,
      show 8 * 8 + 64 * xlen = 64 * (xlen + 1) by omega]

theorem alignLoop_eq (fuel dstp len : ℕ) : ∃ k ≤ fuel,
    alignLoop c fuel (ram, dstp, len) = (patch ram dstp (List.replicate k c), dstp + k, len - k) := by
  induction fuel generalizing ram dstp len with
  | zero => exact ⟨0, le_rfl, by rw [alignLoop, List.replicate_zero, patch_nil, Nat.add_zero, Nat.sub_zero]⟩
  | succ fuel ih =>
    rw [alignLoop]
    split_ifs
    · obtain ⟨k, hk, hrun⟩ := ih (patch ram dstp [c]) (dstp + 1) (len - 1)
      have hfill := fill_append ram c dstp 1 k
      rw [List.replicate_one] at hfill
      refine ⟨1 + k, by omega, ?_⟩
      rw [hrun, hfill, Nat.add_assoc, Nat.sub_sub]
    · exact ⟨0, Nat.zero_le _, by rw [List.replicate_zero, patch_nil, Nat.add_zero, Nat.sub_zero]⟩

theorem memset_eq (dstpp len : ℕ) : memset ram dstpp c len = patch ram dstpp (List.replicate len c) := by
  rw [memset]
  split_ifs with hlong
  · obtain ⟨k, hk, halign⟩ := alignLoop_eq ram c 8 dstpp len
    rw [halign]
    dsimp only
    rw [groupLoop_eq]
    dsimp only
    rw [wordLoop_eq]
    dsimp only
    rw [byteLoop_eq, fill_append, Nat.add_assoc dstpp, fill_append, fill_append]
    congr 2
    omega
  · exact byteLoop_eq ram c len dstpp

end Memset

end Memory

end Thorn

namespace Thorn.Heap
open ByteStore Runs Memory

/-- The block at `p` takes `n` bytes without a wrap, and no block lies past the
heap's end. -/
def Whole (m : Memory) (p n : ℕ) : Prop :=
  ∃ l b, Listed m.ram m.base l ∧ b ∈ l ∧ b.addr + sizeofBlockMeta = p ∧ n ≤ b.size ∧ b.stop < 2 ^ 64 ∧
    ∀ c ∈ l, c.stop ≤ m.end_

def Cleared (m : Memory) (p count size : ℕ) : Prop :=
  (∃ l b, Listed m.ram m.base l ∧ b ∈ l ∧ b.addr + sizeofBlockMeta = p ∧ count * size ≤ b.size) ∧
    ∀ i < count * size, m.ram (p + i) = 0

/-- An answer of `posix_memalign`: success with aligned bytes in one block, or
`EINVAL` with everything as it was. -/
def Honoured (m : Memory) (memptr alignment size status ptr : ℕ) (m' : Memory) : Prop :=
  (status = 0 → alignment ∣ ptr ∧ ∃ l b, Listed m'.ram m'.base l ∧ b ∈ l ∧ b.addr + sizeofBlockMeta ≤ ptr ∧
    ptr + size ≤ b.stop) ∧
  (status ≠ 0 → status = EINVAL ∧ ptr = memptr ∧ m' = m)

/-- The payload of the block found for the request, or of the place for a new one,
is at a multiple of `alignment`. -/
def PlaceAligned (m : Memory) (alignment size : ℕ) : Prop :=
  (∃ pre b post, Listed m.ram m.base (pre ++ b :: post) ∧ (∀ c ∈ pre, ¬c.Fits size) ∧ b.Fits size ∧
      alignment ∣ b.addr + sizeofBlockMeta) ∨
    ¬Fitting m size ∧ alignment ∣ aligned m.end_ + sizeofBlockMeta

theorem first_fit_unique {size : ℕ} {b c : Block} {pre post pre' post' : List Block}
    (he : pre ++ b :: post = pre' ++ c :: post') (hno : ∀ x ∈ pre, ¬x.Fits size) (hb : b.Fits size)
    (hno' : ∀ x ∈ pre', ¬x.Fits size) (hc : c.Fits size) : pre = pre' ∧ b = c ∧ post = post' := by
  induction pre generalizing pre' with
  | nil =>
    cases pre' with
    | nil =>
      obtain ⟨rfl, rfl⟩ := List.cons.inj he
      exact ⟨rfl, rfl, rfl⟩
    | cons d pre' =>
      obtain ⟨rfl, -⟩ := List.cons.inj he
      exact absurd hb (hno' b List.mem_cons_self)
  | cons d pre ih =>
    cases pre' with
    | nil =>
      obtain ⟨rfl, -⟩ := List.cons.inj he
      exact absurd hc (hno d List.mem_cons_self)
    | cons d' pre' =>
      obtain ⟨rfl, hrest⟩ := List.cons.inj he
      obtain ⟨rfl, hsame⟩ := ih hrest (List.forall_mem_cons.mp hno).2 (List.forall_mem_cons.mp hno').2
      exact ⟨rfl, hsame⟩

theorem Placed.of_nil {size e e' : ℕ} {b : Block} {l' : List Block} (h : Placed size [] e b l' e') :
    b = ⟨aligned e, size, false⟩ ∧ l' = [b] ∧ e' = aligned e + sizeofBlockMeta + size + 1 := by
  generalize hl : ([] : List Block) = l at h
  cases h with
  | grow =>
    rw [← hl]
    exact ⟨rfl, rfl, rfl⟩
  | take => exact absurd hl (by simp)
  | cut => exact absurd hl (by simp)

section Steps
variable {s : Heap} {m m' : Memory} {l : List Block} {live : List (ℕ × ℕ)} {x : ℕ × ℕ} {n p addr count size : ℕ}

theorem kept_patch (hk : Kept m l live) (hx : x ∈ live) (bytes : List UInt8) (h₁ : x.1 ≤ addr)
    (h₂ : addr + bytes.length ≤ x.1 + x.2) : Kept { m with ram := patch m.ram addr bytes } l live where
  listed := by
    apply hk.listed.congr
    intro b hb i hi₁ hi₂
    have hapart := (hk.sound.held x hx).apart hk.sound.within hb
    exact patch_outside _ _ _ _ (by omega)
  sound := hk.sound
  start_lt := hk.start_lt
  end_lt := hk.end_lt

theorem allocate_pos (hcall : m.allocate n = some (m', p)) (hp : p ≠ 0) : n ≠ 0 := by
  rintro rfl
  cases hcall
  exact hp rfl

theorem allocate_whole (hk : Kept m l live) (hroom : Roomy m n) (hcall : m.allocate n = some (m', p))
    (hp : p ≠ 0) : Whole m' p n := by
  obtain ⟨b, l', hdone⟩ := allocate_spec hk (allocate_pos hcall hp) hroom hcall
  have hk' := hdone.kept hk
  obtain ⟨hmem, -, hsize⟩ := hdone.placed.holds
  exact ⟨l', b, hk'.listed, hmem, hdone.result.symm, hsize, (hk'.stop_lt hmem).trans hdone.end_lt,
    fun c hc => (hk'.stop_lt hc).le⟩

theorem requestSpace_end {last block : ℕ} {m₁ : Memory} (hreq : m.requestSpace last n = some (m₁, block)) :
    block = realign m.end_ ∧ m₁.end_ = uintptr (realign m.end_ + n + sizeofBlockMeta + 1) := by
  obtain ⟨hblock, hm₁, -⟩ := requestSpace_paged hreq
  exact ⟨hblock, congrArg Memory.end_ hm₁⟩

theorem handOut_snd (m : Memory) (block : ℕ) : (handOut m block).2 = uintptr (block + sizeofBlockMeta) := rfl

theorem handOut_end (m : Memory) (block : ℕ) : (handOut m block).1.end_ = m.end_ := by
  rw [handOut]

theorem allocate_grows (hk : Kept m l live) (h0 : n ≠ 0) (hno : ¬Fitting m n)
    (hcall : m.allocate n = some (m', p)) (hp : p ≠ 0) : p = uintptr (realign m.end_ + sizeofBlockMeta) ∧
      m'.end_ = uintptr (realign m.end_ + n + sizeofBlockMeta + 1) := by
  have hfits : ∀ b ∈ l, ¬b.Fits n := fun b hb hf => hno ⟨l, hk.listed, b, hb, hf⟩
  -- both branches hand out what `requestSpace` gives
  have hgiven : ∀ (base : ℕ) {last block : ℕ} {m₁ : Memory}, m.requestSpace last n = some (m₁, block) →
      (if block = 0 then some (m₁, 0) else some (handOut { m₁ with base := base } block)) = some (m', p) →
      p = uintptr (realign m.end_ + sizeofBlockMeta) ∧
        m'.end_ = uintptr (realign m.end_ + n + sizeofBlockMeta + 1) := by
    intro base last block m₁ hreq hres
    obtain ⟨hblock, hend⟩ := requestSpace_end hreq
    split_ifs at hres with hnull
    · exact absurd (congrArg Prod.snd (Option.some.inj hres)).symm hp
    · have hsnd := congrArg Prod.snd (Option.some.inj hres)
      have hfst := congrArg (fun r => r.1.end_) (Option.some.inj hres)
      rw [handOut_snd, hblock] at hsnd
      rw [handOut_end, hend] at hfst
      exact ⟨hsnd.symm, hfst.symm⟩
  unfold allocate at hcall
  rw [if_neg h0] at hcall
  split at hcall
  · split at hcall
    · cases hcall
    · rename_i m₁ block hreq
      exact hgiven block hreq hcall
  · rw [findFreeBlock_none hk.listed hk.length_lt hfits] at hcall
    dsimp only at hcall
    rw [if_pos rfl] at hcall
    split at hcall
    · cases hcall
    · rename_i m₁ block hreq
      exact hgiven m₁.base hreq hcall

theorem roomy_of_whole (hk : Kept m l live) (hend : m.end_ + sizeofBlockMeta ≤ 2 ^ 64)
    (hcall : m.allocate n = some (m', p)) (hp : p ≠ 0) (hw : Whole m' p n) : Roomy m n := by
  by_contra hnot
  have h0 := allocate_pos hcall hp
  have hno : ¬Fitting m n := fun hf => hnot (.inr (.inl hf))
  have hfull : ¬aligned m.end_ + sizeofBlockMeta + n + 1 < 2 ^ 64 := fun hr => hnot (.inr (.inr hr))
  have hmod := aligned_mod m.end_
  have hlt := aligned_lt m.end_
  unfold sizeofBlockMeta at hend
  have hat : realign m.end_ = aligned m.end_ := realign_eq (by omega)
  obtain ⟨hplace, hnew⟩ := allocate_grows hk h0 hno hcall hp
  obtain ⟨l', b, -, hmem, haddr, hsize, hstop, hends⟩ := hw
  have hlast := hends b hmem
  rw [hat] at hplace hnew
  unfold uintptr sizeofBlockMeta at hplace hnew
  unfold Block.stop sizeofBlockMeta at hstop hlast
  unfold sizeofBlockMeta at haddr hfull
  omega

theorem calloc_some (hcall : calloc (some m) count size = some (p, some m')) (hp : p ≠ 0) :
    ∃ m₁, m.allocate (uintptr (count * size)) = some (m₁, p) ∧
      m' = { m₁ with ram := patch m₁.ram p (List.replicate (uintptr (count * size)) 0) } := by
  rw [calloc, Option.bind_eq_bind, Option.bind_eq_some_iff] at hcall
  obtain ⟨⟨chunk, memory⟩, hmalloc, hcall⟩ := hcall
  obtain ⟨⟨m₁, chunk'⟩, hrun, hpair⟩ := Option.map_eq_some_iff.mp hmalloc
  obtain ⟨rfl, rfl⟩ := Prod.mk.inj hpair
  dsimp only at hcall
  split_ifs at hcall with hnull
  · obtain ⟨rfl, hm⟩ := Prod.mk.inj (Option.some.inj hcall)
    rw [Option.map_some, memset_eq] at hm
    exact ⟨m₁, hrun, (Option.some.inj hm).symm⟩
  · obtain ⟨rfl, -⟩ := Prod.mk.inj (Option.some.inj hcall)
    exact absurd hp hnull

/-- What `calloc` hands out is as large as was asked for exactly if the product does
not wrap. -/
theorem cleared_iff (hk : Kept m l live) (hroom : Roomy m (uintptr (count * size)))
    (hcall : calloc (some m) count size = some (p, some m')) (hp : p ≠ 0) :
    Cleared m' p count size ↔ count * size < 2 ^ 64 := by
  obtain ⟨m₁, hrun, rfl⟩ := calloc_some hcall hp
  obtain ⟨b, l', hdone⟩ := allocate_spec hk (allocate_pos hrun hp) hroom hrun
  have hk₁ := hdone.kept hk
  obtain ⟨hmem, -, hsize⟩ := hdone.placed.holds
  have hk' := kept_patch hk₁ List.mem_cons_self (List.replicate (uintptr (count * size)) 0) (le_refl p)
    (by rw [List.length_replicate])
  constructor
  · rintro ⟨⟨l₂, c, hl₂, hc, -, hle⟩, -⟩
    rw [hl₂.unique hk'.listed] at hc
    have hstop := (hk₁.stop_lt hc).trans hdone.end_lt
    unfold Block.stop at hstop
    omega
  · intro hlt
    have hexact : uintptr (count * size) = count * size := Nat.mod_eq_of_lt hlt
    rw [hexact] at hsize hk' ⊢
    refine ⟨⟨l', b, hk'.listed, hmem, hdone.result.symm, hsize⟩, fun i hi => ?_⟩
    have hinside :=
      patch_inside m₁.ram p (List.replicate (count * size) 0) i (by rw [List.length_replicate]; exact hi)
    rw [List.getElem_replicate] at hinside
    exact hinside

theorem placeAligned_iff (hk : Kept m l live) (h0 : n ≠ 0) (hroom : Roomy m n)
    (hcall : m.allocate n = some (m', p)) (alignment : ℕ) : PlaceAligned m alignment n ↔ alignment ∣ p := by
  rcases first_fit n l with hno | ⟨pre, b, post, rfl, hno, hb⟩
  · have hnot := hk.not_fitting hno
    obtain ⟨b, l', hdone⟩ := allocate_spec hk h0 hroom hcall
    have haddr : b.addr = aligned m.end_ := by
      rcases hdone.pages with ⟨hfit, -⟩ | ⟨-, hend, -⟩
      · exact absurd hfit hnot
      · have hge := aligned_ge m.end_
        exact hdone.placed.addr_of_grown (by omega)
    rw [hdone.result, haddr]
    constructor
    · rintro (⟨pre, c, post, hl, -, hc, -⟩ | ⟨-, hdvd⟩)
      · exact absurd ⟨_, hl, c, by simp, hc⟩ hnot
      · exact hdvd
    · exact fun hdvd => .inr ⟨hnot, hdvd⟩
  · obtain ⟨b', haddr, hdone⟩ := reused hk hno hb
    have hfound := allocate_found hk h0 hno hb
    rw [Option.some.inj (hfound.symm.trans hcall)] at hdone
    have hresult := hdone.result
    rw [haddr] at hresult
    dsimp only at hresult
    rw [hresult]
    constructor
    · rintro (⟨pre', c, post', hl, hno', hc, hdvd⟩ | ⟨hnot, -⟩)
      · obtain ⟨-, rfl, -⟩ := first_fit_unique (hk.listed.unique hl) hno hb hno' hc
        exact hdvd
      · exact absurd ⟨_, hk.listed, b, by simp, hb⟩ hnot
    · exact fun hdvd => .inl ⟨pre, b, post, hk.listed, hno, hb, hdvd⟩

theorem honoured_iff (hk : Kept m l live) (h0 : n ≠ 0) {memptr alignment status ptr : ℕ}
    (hroom : Accepts alignment → Roomy m n)
    (hcall : posix_memalign (some m) memptr alignment n = some (status, ptr, some m')) :
    Honoured m memptr alignment n status ptr m' ↔ (Accepts alignment → PlaceAligned m alignment n) := by
  rw [posix_memalign] at hcall
  by_cases haccepts : Accepts alignment
  · rw [if_neg (not_not.mpr haccepts)] at hcall
    obtain ⟨⟨m₁, p⟩, hrun, hpair⟩ := Option.map_eq_some_iff.mp hcall
    cases hpair
    rw [placeAligned_iff hk h0 (hroom haccepts) hrun, imp_iff_right haccepts]
    constructor
    · exact fun h => (h.1 rfl).1
    · obtain ⟨b, l', hdone⟩ := allocate_spec hk h0 (hroom haccepts) hrun
      obtain ⟨hmem, -, hsize⟩ := hdone.placed.holds
      have hresult := hdone.result
      refine fun hdvd => ⟨fun _ => ⟨hdvd, l', b, hdone.listed, hmem, hresult.symm.le, ?_⟩,
        fun hne => absurd rfl hne⟩
      unfold Block.stop
      omega
  · rw [if_pos haccepts] at hcall
    cases hcall
    exact iff_of_true ⟨fun h => absurd h (by decide), fun _ => ⟨rfl, rfl, rfl⟩⟩ fun h => absurd h haccepts

theorem placeAligned_small (hk : Kept m l live) {alignment : ℕ} (hdvd : alignment ∣ 32) (n : ℕ) :
    PlaceAligned m alignment n := by
  have hmultiple : ∀ a, a % 32 = 8 → alignment ∣ a + sizeofBlockMeta := fun a ha =>
    hdvd.trans (Nat.dvd_of_mod_eq_zero (by unfold sizeofBlockMeta; omega))
  rcases first_fit n l with hno | ⟨pre, b, post, rfl, hno, hb⟩
  · exact .inr ⟨hk.not_fitting hno, hmultiple _ (aligned_mod _)⟩
  · exact .inl ⟨pre, b, post, hk.listed, hno, hb, hmultiple _ (hk.sound.within.of_mem (b := b) (by simp)).2.1⟩

theorem memalign_next {memptr alignment ptr : ℕ}
    (hcall : posix_memalign (some s.memory) memptr alignment size = some (0, ptr, some m')) (hp : ptr ≠ 0) :
    s.next (.allocate size) = ⟨m', (ptr, size) :: s.live⟩ := by
  rw [posix_memalign] at hcall
  by_cases haccepts : Accepts alignment
  · rw [if_neg (not_not.mpr haccepts)] at hcall
    obtain ⟨⟨m₁, p⟩, hrun, hpair⟩ := Option.map_eq_some_iff.mp hcall
    cases hpair
    exact next_allocate hrun hp
  · rw [if_pos haccepts] at hcall
    cases hcall

theorem stores_zero (s : Heap) (p n : ℕ) : after next s ((List.range n).map fun i => .store (p + i) 0) =
    ⟨{ s.memory with ram := patch s.memory.ram p (List.replicate n 0) }, s.live⟩ := by
  induction n with
  | zero => rw [List.range_zero, List.map_nil, after_nil, List.replicate_zero, patch_nil]
  | succ n ih =>
    rw [List.range_succ, List.map_append, after_append, ih, ← fill_append]
    rfl

theorem calloc_after (hcall : calloc (some s.memory) count size = some (p, some m')) (hp : p ≠ 0) :
    after next s (.allocate (uintptr (count * size)) ::
        (List.range (uintptr (count * size))).map fun i => .store (p + i) 0) =
      ⟨m', (p, uintptr (count * size)) :: s.live⟩ := by
  obtain ⟨m₁, hrun, rfl⟩ := calloc_some hcall hp
  rw [after_cons, next_allocate hrun hp, stores_zero]

end Steps

section Runs
variable {new_start : ℕ} (hstart : new_start < 2 ^ 64) (new_high : ℕ) (ram : Store) {calls : List Call}
  (hcalls : Throughout next (fun s c => Proper s c ∧ c.Roomy s) (fresh new_start new_high ram) calls) {s : Heap}
  (hs : s = after next (fresh new_start new_high ram) calls)

include hstart hcalls hs

theorem reached_kept : ∃ l, Kept s.memory l s.live := by
  rw [hs]
  exact (always_kept hstart new_high ram hcalls).after

/-- After any calls: a `posix_memalign` that returns does what it should exactly if the
place of the allocation happens to be aligned. -/
theorem memalign_honoured_iff {memptr alignment size status ptr : ℕ} {m' : Memory} (h0 : 0 < size)
    (hroom : Accepts alignment → Heap.Roomy s.memory size)
    (hcall : posix_memalign (some s.memory) memptr alignment size = some (status, ptr, some m')) :
    Honoured s.memory memptr alignment size status ptr m' ↔
      (Accepts alignment → PlaceAligned s.memory alignment size) := by
  obtain ⟨l, hk⟩ := reached_kept hstart new_high ram hcalls hs
  exact honoured_iff hk (Nat.ne_of_gt h0) hroom hcall

/-- After any calls: requests that leave the heap's end below the last address hand out
whole blocks, `calloc` clears all of them if its product does not wrap, and no other
request does. -/
theorem sizes_whole :
    (∀ n m' p, s.memory.allocate n = some (m', p) → p ≠ 0 →
      (Heap.Roomy s.memory n → Whole m' p n) ∧
        (s.memory.end_ + sizeofBlockMeta ≤ 2 ^ 64 → Whole m' p n → Heap.Roomy s.memory n)) ∧
    ∀ count size m' p, calloc (some s.memory) count size = some (p, some m') → p ≠ 0 →
      Heap.Roomy s.memory (uintptr (count * size)) → (Cleared m' p count size ↔ count * size < 2 ^ 64) := by
  obtain ⟨l, hk⟩ := reached_kept hstart new_high ram hcalls hs
  refine ⟨fun n m' p hcall hp => ⟨fun hroom => allocate_whole hk hroom hcall hp, fun hend hw => ?_⟩,
    fun count size m' p hcall hp hroom => cleared_iff hk hroom hcall hp⟩
  exact roomy_of_whole hk hend hcall hp hw

end Runs

section Sample

theorem fresh_allocate {size : ℕ} (h0 : size ≠ 0) (hsize : size < 2 ^ 32) : ∃ m,
    (fresh 4096 8192 fun _ => 0).memory.allocate size = some (m, 4128) ∧ Kept m [⟨4104, size, false⟩] [(4128, size)] ∧
      m.start = 4104 ∧ m.end_ = 4129 + size := by
  have hk := kept_fresh (show 4096 < 2 ^ 64 by decide) 8192 fun _ => 0
  have hplace : aligned (fresh 4096 8192 fun _ => 0).memory.end_ = 4104 := by decide
  have hstart : (fresh 4096 8192 fun _ => 0).memory.start = 4104 := by decide
  have hat : realign (fresh 4096 8192 fun _ => 0).memory.end_ = 4104 := by decide
  have hroom : Heap.Roomy (fresh 4096 8192 fun _ => 0).memory size := by
    refine .inr (.inr ?_)
    rw [hplace]
    unfold sizeofBlockMeta
    omega
  obtain ⟨⟨m, p⟩, hcall⟩ := allocate_returns size hk (.inr fun y hy _ => by
    rw [hat] at hy
    unfold uintptr sizeofBlockMeta at hy
    unfold PAGE_LENGTH
    omega)
  obtain ⟨b, l', hdone⟩ := allocate_spec hk h0 hroom hcall
  have hk' := hdone.kept hk
  obtain ⟨rfl, rfl, hend⟩ := hdone.placed.of_nil
  have hp : p = 4128 := hdone.result.trans (by rw [hplace]; rfl)
  subst hp
  rw [hplace] at hend hk'
  refine ⟨m, hcall, hk', hdone.start_eq.trans hstart, ?_⟩
  unfold sizeofBlockMeta at hend
  omega

theorem memalign_fresh {alignment size : ℕ} (haccepts : Accepts alignment) (h0 : size ≠ 0)
    (hsize : size < 2 ^ 32) : ∃ m,
    posix_memalign (some (fresh 4096 8192 fun _ => 0).memory) 0 alignment size = some (0, 4128, some m) := by
  obtain ⟨m, hrun, -⟩ := fresh_allocate h0 hsize
  refine ⟨m, ?_⟩
  rw [posix_memalign, if_neg (not_not.mpr haccepts), hrun]
  rfl

theorem sampleRun_listed :
    Listed (after next (fresh 4096 8192 fun _ => 0) sampleRun).memory.ram
      (after next (fresh 4096 8192 fun _ => 0) sampleRun).memory.base [⟨4104, 1000, true⟩, ⟨5160, 100, false⟩] :=
  ⟨by decide +kernel, by decide +kernel, 5160, ⟨by decide +kernel, by decide +kernel, by decide +kernel⟩,
    rfl, by decide, 0, ⟨by decide +kernel, by decide +kernel, by decide +kernel⟩, rfl⟩

/-- The freed block of the run is taken again for 100 bytes at a multiple of 32. -/
theorem memalign_honoured_run : ∃ m,
    posix_memalign (some (after next (fresh 4096 8192 fun _ => 0) sampleRun).memory) 0 32 100 =
        some (0, 4128, some m) ∧
      Honoured (after next (fresh 4096 8192 fun _ => 0) sampleRun).memory 0 32 100 0 4128 m := by
  have hplace : ((after next (fresh 4096 8192 fun _ => 0) sampleRun).memory.allocate 100).map Prod.snd = some 4128 := by
    decide +kernel
  obtain ⟨⟨m, p⟩, hrun, rfl⟩ := Option.map_eq_some_iff.mp hplace
  have hcall : posix_memalign (some (after next (fresh 4096 8192 fun _ => 0) sampleRun).memory) 0 32 100 =
      some (0, 4128, some m) := by
    rw [posix_memalign, if_neg (not_not.mpr (show Accepts 32 by decide)), hrun]
    rfl
  refine ⟨m, hcall, (memalign_honoured_iff (by decide) 8192 _ sampleRun_calls rfl (by decide)
    (fun _ => .inr (.inr (by decide +kernel))) hcall).mpr fun _ => .inl ?_⟩
  exact ⟨[], ⟨4104, 1000, true⟩, [⟨5160, 100, false⟩], sampleRun_listed, fun c hc => (by cases hc),
    ⟨rfl, by decide⟩, by decide⟩

/-- A first request at a multiple of 64: 4128 is none. -/
theorem memalign_misaligned : ∃ m,
    posix_memalign (some (fresh 4096 8192 fun _ => 0).memory) 0 64 100 = some (0, 4128, some m) ∧
      ¬Honoured (fresh 4096 8192 fun _ => 0).memory 0 64 100 0 4128 m := by
  obtain ⟨m, hcall⟩ := @memalign_fresh 64 100 (by decide) (by decide) (by decide)
  exact ⟨m, hcall, fun h => absurd (h.1 rfl).1 (by decide)⟩

/-- Requests of 500 bytes, and of 25 times 8 cleared ones, after the run. -/
theorem sizes_whole_run :
    (∃ m, (after next (fresh 4096 8192 fun _ => 0) sampleRun).memory.allocate 500 = some (m, 4128) ∧
      Whole m 4128 500) ∧
    ∃ m, calloc (some (after next (fresh 4096 8192 fun _ => 0) sampleRun).memory) 25 8 = some (4128, some m) ∧
      Cleared m 4128 25 8 := by
  obtain ⟨hwhole, hcleared⟩ := sizes_whole (by decide) 8192 _ sampleRun_calls rfl
  have hplace : ((after next (fresh 4096 8192 fun _ => 0) sampleRun).memory.allocate 500).map Prod.snd = some 4128 := by
    decide +kernel
  have hplace' : (calloc (some (after next (fresh 4096 8192 fun _ => 0) sampleRun).memory) 25 8).map
      (fun r => (r.1, r.2.isSome)) = some (4128, true) := by
    decide +kernel
  obtain ⟨⟨m, p⟩, hrun, rfl⟩ := Option.map_eq_some_iff.mp hplace
  obtain ⟨⟨p, g⟩, hcalloc, hp⟩ := Option.map_eq_some_iff.mp hplace'
  obtain ⟨rfl, hg⟩ := Prod.mk.inj hp
  obtain ⟨m', rfl⟩ := Option.isSome_iff_exists.mp hg
  refine ⟨⟨m, hrun, (hwhole 500 m _ hrun (by decide)).1 (.inr (.inr (by decide +kernel)))⟩, m', hcalloc, ?_⟩
  exact (hcleared 25 8 m' _ hcalloc (by decide) (.inr (.inr (by decide +kernel)))).mpr (by decide)

/-- `calloc(2^61 + 1, 8)` hands out eight bytes. -/
theorem calloc_short :
    ∃ m, calloc (some (fresh 4096 8192 fun _ => 0).memory) (2 ^ 61 + 1) 8 = some (4128, some m) ∧
    Listed m.ram m.base [⟨4104, 8, false⟩] ∧ ¬Cleared m 4128 (2 ^ 61 + 1) 8 := by
  obtain ⟨m, hrun, hk, -⟩ := @fresh_allocate 8 (by decide) (by decide)
  have hwrap : uintptr ((2 ^ 61 + 1) * 8) = 8 := by decide
  have hcall : calloc (some (fresh 4096 8192 fun _ => 0).memory) (2 ^ 61 + 1) 8 =
      some (4128, some { m with ram := patch m.ram 4128 (List.replicate 8 0) }) := by
    rw [calloc, malloc, hwrap, hrun]
    change some (4128, some { m with ram := memset m.ram 4128 0 8 }) = _
    rw [memset_eq]
  have hfresh := kept_fresh (show 4096 < 2 ^ 64 by decide) 8192 fun _ => 0
  have hroom : Heap.Roomy (fresh 4096 8192 fun _ => 0).memory (uintptr ((2 ^ 61 + 1) * 8)) :=
    .inr (.inr (by decide))
  refine ⟨_, hcall, (kept_patch hk List.mem_cons_self _ (le_refl 4128) (by rw [List.length_replicate])).listed,
    fun h => ?_⟩
  exact absurd ((cleared_iff hfresh hroom hcall (by decide)).mp h) (by decide)

end Sample

end Thorn.Heap
