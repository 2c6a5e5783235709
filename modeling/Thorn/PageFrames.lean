import Thorn.Library.Bits

set_option autoImplicit false

/-!
# Physical page frames

Two allocators over one bitmap: `Boot` of `32/paging.cpp`, compiled for 32 bits,
and `PageMeta4K` of the kernel, which takes over the same memory.
-/
namespace Thorn.Paging
open ByteStore

def pageSize : ℕ := 4096

def pageOf (address : ℕ) : ℕ := address / 4096 * 4096

/-- The symbols of `kernel.ld`: the image starts at 4 MiB and its end, behind the
bitmap, is aligned to a page; 32-bit code takes both addresses. -/
structure Layout where
  kernelEnd : ℕ
  bitmapBytes : ℕ
  aligned : kernelEnd % 4096 = 0
  above : 2 ^ 22 ≤ kernelEnd
  low : kernelEnd < 2 ^ 31
  whole : bitmapBytes % 8 = 0
  small : bitmapBytes < 2 ^ 28

namespace Boot

def getPages (L : Layout) : ℕ := 8 * (L.bitmapBytes / 4)

def findFree (L : Layout) (m : Store) (start : ℕ) : ℤ :=
  match scanWords 4 m (getPages L / (8 * 4) - start) start with
  | some index => index
  | none => -1

def markUsed (m : Store) (index : ℕ) : Store := setBit 4 m index

/-- For one frame; the search starts at the second word. -/
def allocateFreePhysicalAddress (L : Layout) (m : Store) : ℕ × Store :=
  let free_start := pageOf (L.kernelEnd + 0xfff)
  let free_index := findFree L m 1
  if free_index = -1 then (0, m)
  else ((free_start + free_index.toNat * pageSize) % 2 ^ 64, markUsed m free_index.toNat)

end Boot

/-- The kernel's allocator; its bitmap is the memory given to each function. -/
structure PageMeta4K where
  physicalStart : ℕ
  pages : ℤ

namespace PageMeta4K
variable (p : PageMeta4K)

def pageCount : ℕ := (p.pages % (2 ^ 64 : ℕ)).toNat

def bitmapSize : ℕ :=
  if p.pages = -1 then 0 else (p.pageCount / (8 * 8) + if p.pageCount % (8 * 8) ≠ 0 then 1 else 0) * 8

def findFree (m : Store) (start : ℕ) : ℤ :=
  if p.pages = -1 then -1 else
  match scanWords 8 m (p.pageCount / (8 * 8) - start) start with
  | some index => index
  | none => -1

def mark (m : Store) (index : ℕ) (used : Bool) : Store :=
  if p.pages = -1 then m else if used then setBit 8 m index else clearBit 8 m index

def allocateFreePhysicalAddress (m : Store) : ℕ × Store :=
  let free_index := p.findFree m 0
  if free_index = -1 then (0, m)
  else ((p.physicalStart + free_index.toNat * pageSize) % 2 ^ 64, p.mark m free_index.toNat true)

def pagesUsed (m : Store) : ℕ :=
  ((List.range (p.bitmapSize / 8)).map fun i => popCount (word 8 m i) (8 * 8)).sum

end PageMeta4K

def allocations (allocate : Store → ℕ × Store) : ℕ → Store → List ℕ × Store
  | 0, m => ([], m)
  | n + 1, m =>
    let first := allocate m
    let rest := allocations allocate n first.2
    (first.1 :: rest.1, rest.2)

/-- One call fails and leaves the bitmap alone, or hands out the frame of a clear
bit between the bounds and sets that bit. -/
def Allocates (base low high : ℕ) (allocate : Store → ℕ × Store) : Prop :=
  ∀ m, allocate m = (0, m) ∧ (∀ k, low ≤ k → k < high → bitAt m k = true) ∨
    ∃ k, low ≤ k ∧ k < high ∧ bitAt m k = false ∧ (allocate m).1 = base + 4096 * k ∧
      ∀ j, bitAt (allocate m).2 j = (decide (j = k) || bitAt m j)

theorem boot_allocates (L : Layout) :
    Allocates L.kernelEnd 32 (32 * (Boot.getPages L / 32)) (Boot.allocateFreePhysicalAddress L) := by
  intro m
  have haligned := L.aligned
  have hlow := L.low
  have hsmall := L.small
  have hstart : pageOf (L.kernelEnd + 0xfff) = L.kernelEnd := by
    unfold pageOf
    omega
  unfold Boot.allocateFreePhysicalAddress Boot.findFree
  cases hscan : scanWords 4 m (Boot.getPages L / (8 * 4) - 1) 1 with
  | none =>
    refine .inl ⟨rfl, fun k h₁ h₂ => scanWords_eq_none hscan h₁ ?_⟩
    omega
  | some k =>
    obtain ⟨h₁, h₂, hclear⟩ := scanWords_eq_some hscan
    have hbound : k < 32 * (Boot.getPages L / 32) := by omega
    have hpages : Boot.getPages L < 2 ^ 31 := by
      unfold Boot.getPages
      omega
    have hne : ((k : ℕ) : ℤ) ≠ -1 := by omega
    refine .inr ⟨k, by omega, hbound, hclear, ?_, fun j => ?_⟩
    · dsimp only
      rw [if_neg hne, hstart, Int.toNat_natCast, pageSize, Nat.mul_comm, Nat.mod_eq_of_lt (by omega)]
    · dsimp only
      rw [if_neg hne, Int.toNat_natCast]
      exact bitAt_setBit m k j (by omega)

theorem kernel_allocates (start pages : ℕ) (hfit : start + 4096 * pages ≤ 2 ^ 64) (hpages : pages < 2 ^ 31) :
    Allocates start 0 (64 * (pages / 64)) (PageMeta4K.allocateFreePhysicalAddress ⟨start, pages⟩) := by
  intro m
  have hset : ((pages : ℕ) : ℤ) ≠ -1 := by omega
  have hcount : PageMeta4K.pageCount ⟨start, pages⟩ = pages := by
    change (((pages : ℕ) : ℤ) % (2 ^ 64 : ℕ)).toNat = pages
    omega
  unfold PageMeta4K.allocateFreePhysicalAddress PageMeta4K.findFree PageMeta4K.mark
  rw [hcount]
  dsimp only
  rw [if_neg hset]
  cases hscan : scanWords 8 m (pages / (8 * 8) - 0) 0 with
  | none =>
    refine .inl ⟨rfl, fun k h₁ h₂ => scanWords_eq_none hscan h₁ ?_⟩
    omega
  | some k =>
    obtain ⟨-, h₂, hclear⟩ := scanWords_eq_some hscan
    have hne : ((k : ℕ) : ℤ) ≠ -1 := by omega
    refine .inr ⟨k, by omega, by omega, hclear, ?_, fun j => ?_⟩
    · dsimp only
      rw [if_neg hne, Int.toNat_natCast, pageSize, Nat.mul_comm, Nat.mod_eq_of_lt (by omega)]
    · dsimp only
      rw [if_neg hne, if_neg hset, if_pos rfl, Int.toNat_natCast]
      exact bitAt_setBit m k j (by omega)

theorem allocations_marks {base low high : ℕ} {allocate : Store → ℕ × Store}
    (h : Allocates base low high allocate)
    (hbase : 0 < base) (n : ℕ) {m : Store} {l : List ℕ} (hm : Marks m l) :
    ∃ new, Marks (allocations allocate n m).2 (new ++ l) ∧
      (allocations allocate n m).1.filter (· ≠ 0) = new.map (base + 4096 * ·) ∧
      (∀ k ∈ new, low ≤ k ∧ k < high) := by
  induction n generalizing m l with
  | zero => exact ⟨[], hm, rfl, fun k hk => by cases hk⟩
  | succ n ih =>
    rw [allocations]
    dsimp only
    obtain ⟨hfail, -⟩ | ⟨k, hlow, hhigh, hclear, haddress, hbits⟩ := h m
    · obtain ⟨new, hmarks, hresults, hbounds⟩ := ih hm
      rw [hfail]
      refine ⟨new, hmarks, ?_, hbounds⟩
      rw [List.filter_cons_of_neg (by simp), hresults]
    · obtain ⟨new, hmarks, hresults, hbounds⟩ := ih (hm.cons hclear hbits)
      refine ⟨k :: new, hmarks.perm List.perm_middle, ?_, ?_⟩
      · have hne : (allocate m).1 ≠ 0 := by omega
        rw [List.filter_cons_of_pos (by simpa using hne), hresults, haddress, List.map_cons]
      · intro j hj
        rcases List.mem_cons.mp hj with rfl | hj
        · exact ⟨hlow, hhigh⟩
        · exact hbounds j hj

theorem pagesUsed_eq {start pages : ℕ} (hpages : pages < 2 ^ 31) {m : Store} {l : List ℕ} (h : Marks m l)
    (hlt : ∀ k ∈ l, k < pages) : PageMeta4K.pagesUsed ⟨start, pages⟩ m = l.length := by
  have hset : ((pages : ℕ) : ℤ) ≠ -1 := by omega
  have hcount : PageMeta4K.pageCount ⟨start, pages⟩ = pages := by
    change (((pages : ℕ) : ℤ) % (2 ^ 64 : ℕ)).toNat = pages
    omega
  unfold PageMeta4K.pagesUsed PageMeta4K.bitmapSize
  rw [hcount]
  dsimp only
  rw [if_neg hset, Nat.mul_div_cancel _ (by omega), sum_popCount]
  refine h.count fun k hk => ?_
  have := hlt k hk
  split_ifs <;> omega

structure HandedOutOnce (p : PageMeta4K) (boot kernel : List ℕ) (m : Store) : Prop where
  distinct : ((boot ++ kernel).filter (· ≠ 0)).Nodup
  aligned : ∀ a ∈ boot ++ kernel, a % 4096 = 0
  inside : ∀ a ∈ kernel, a ≠ 0 → p.physicalStart ≤ a ∧ a < p.physicalStart + 4096 * p.pages
  used : p.pagesUsed m = ((boot ++ kernel).filter (· ≠ 0)).length

def Layout.pager (L : Layout) (pages : ℕ) : PageMeta4K := ⟨L.kernelEnd, pages⟩

/-- No frame is handed out twice, by boot or by the kernel after it. -/
theorem frames_disjoint (L : Layout) (pages boots calls : ℕ) (hcap : pages ≤ 8 * L.bitmapBytes)
    (hused : ∀ a ∈ (allocations (Boot.allocateFreePhysicalAddress L) boots fun _ => 0).1,
      a < L.kernelEnd + 4096 * pages) :
    let boot := allocations (Boot.allocateFreePhysicalAddress L) boots fun _ => 0
    let kernel := allocations (L.pager pages).allocateFreePhysicalAddress calls boot.2
    HandedOutOnce (L.pager pages) boot.1 kernel.1 kernel.2 ∧
      (∀ m, (Boot.allocateFreePhysicalAddress L m).1 = 0 → (Boot.allocateFreePhysicalAddress L m).2 = m) ∧
      ∀ m, ((L.pager pages).allocateFreePhysicalAddress m).1 = 0 →
        ((L.pager pages).allocateFreePhysicalAddress m).2 = m := by
  have habove := L.above
  have hlow := L.low
  have hsmall := L.small
  have haligned := L.aligned
  have hboot := boot_allocates L
  have hkernel := kernel_allocates L.kernelEnd pages (by omega) (by omega)
  have hfail : ∀ {low high : ℕ} {allocate : Store → ℕ × Store}, Allocates L.kernelEnd low high allocate →
      ∀ m, (allocate m).1 = 0 → (allocate m).2 = m := by
    intro low high allocate h m h0
    obtain ⟨h, -⟩ | ⟨k, -, -, -, haddress, -⟩ := h m
    · rw [h]
    · omega
  refine ⟨?_, hfail hboot, hfail hkernel⟩
  obtain ⟨first, hmarks₁, hresults₁, hbounds₁⟩ := allocations_marks hboot (by omega) boots marks_zero
  obtain ⟨second, hmarks₂, hresults₂, hbounds₂⟩ := allocations_marks hkernel (by omega) calls hmarks₁
  rw [List.append_nil] at hmarks₂
  have hresults : ((allocations (Boot.allocateFreePhysicalAddress L) boots fun _ => 0).1 ++
      (allocations (L.pager pages).allocateFreePhysicalAddress calls
        (allocations (Boot.allocateFreePhysicalAddress L) boots fun _ => 0).2).1).filter (· ≠ 0) =
      (first ++ second).map (L.kernelEnd + 4096 * ·) := by
    rw [List.filter_append, hresults₁, List.map_append, ← hresults₂]
    rfl
  have hmember : ∀ {results : List ℕ} {indices : List ℕ} {a : ℕ},
      results.filter (· ≠ 0) = indices.map (L.kernelEnd + 4096 * ·) → a ∈ results → a ≠ 0 →
      ∃ k ∈ indices, a = L.kernelEnd + 4096 * k := by
    intro results indices a h ha h0
    have hin : a ∈ results.filter (· ≠ 0) := List.mem_filter.mpr ⟨ha, by simpa using h0⟩
    rw [h] at hin
    obtain ⟨k, hk, rfl⟩ := List.mem_map.mp hin
    exact ⟨k, hk, rfl⟩
  have hpages : ∀ k ∈ second ++ first, k < pages := by
    intro k hk
    rcases List.mem_append.mp hk with hk | hk
    · have := (hbounds₂ k hk).2
      omega
    · have hin : L.kernelEnd + 4096 * k ∈
          ((allocations (Boot.allocateFreePhysicalAddress L) boots fun _ => 0).1).filter (· ≠ 0) := by
        rw [hresults₁]
        exact List.mem_map.mpr ⟨k, hk, rfl⟩
      have := hused _ (List.mem_filter.mp hin).1
      omega
  constructor
  · rw [hresults]
    refine List.Nodup.map (fun a b hab => ?_) (List.perm_append_comm.nodup_iff.mp hmarks₂.nodup)
    omega
  · intro a ha
    by_cases h0 : a = 0
    · rw [h0]
    · obtain ⟨k, -, rfl⟩ := hmember hresults ha h0
      omega
  · intro a ha h0
    obtain ⟨k, hk, rfl⟩ := hmember hresults₂ ha h0
    have := (hbounds₂ k hk).2
    change L.kernelEnd ≤ _ ∧ ((_ : ℕ) : ℤ) < (L.kernelEnd : ℤ) + 4096 * (pages : ℤ)
    omega
  · rw [hresults, List.length_map]
    refine (pagesUsed_eq (by omega) hmarks₂ hpages).trans ?_
    rw [List.length_append, List.length_append, Nat.add_comm]

def Layout.sample : Layout where
  kernelEnd := 2 ^ 24
  bitmapBytes := 8388608
  aligned := by decide
  above := by decide
  low := by decide
  whole := by decide
  small := by decide

/-- Two frames for boot and three for the kernel, with 64 MiB of memory behind the image. -/
theorem frames_disjoint_sample : let boot := allocations (Boot.allocateFreePhysicalAddress .sample) 2 fun _ => 0
    let kernel := allocations (Layout.sample.pager (2 ^ 14)).allocateFreePhysicalAddress 3 boot.2
    HandedOutOnce (Layout.sample.pager (2 ^ 14)) boot.1 kernel.1 kernel.2 :=
  (frames_disjoint .sample (2 ^ 14) 2 3 (by decide) (by decide +kernel)).1

end Thorn.Paging
