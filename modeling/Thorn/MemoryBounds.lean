import Thorn.Library.Bytes

set_option autoImplicit false

/-!
# The bounds of memory

`Boot::detectMemory` of `32/paging.cpp`, which takes the bounds from the boot
loader's tags in 32-bit code, and `Kernel::arrangeMemory`, which carves what lies
between them into page descriptors and pages.
-/
namespace Thorn.Paging.Boot
open ByteStore

def MULTIBOOT2_BOOTLOADER_MAGIC : ℕ := 0x36d76289
def MULTIBOOT_TAG_TYPE_END : ℕ := 0
def MULTIBOOT_TAG_TYPE_BASIC_MEMINFO : ℕ := 4

structure Bounds where
  memory_low : ℕ
  memory_high : ℕ
deriving DecidableEq

def tagField (mem : Store) (tag offset : ℕ) : ℕ := leNat (slice mem ((tag + offset) % 2 ^ 32) 4)

def tagType (mem : Store) (tag : ℕ) : ℕ := tagField mem tag 0
def tagSize (mem : Store) (tag : ℕ) : ℕ := tagField mem tag 4
def mem_lower (mem : Store) (tag : ℕ) : ℕ := tagField mem tag 8
def mem_upper (mem : Store) (tag : ℕ) : ℕ := tagField mem tag 12

def tagStep (mem : Store) (tag : ℕ) : ℕ := (tagSize mem tag + 7) % 2 ^ 32 / 8 * 8

def nextTag (mem : Store) (tag : ℕ) : ℕ := (tag + tagStep mem tag) % 2 ^ 32

def readTag (mem : Store) (tag : ℕ) (b : Bounds) : Bounds :=
  if tagType mem tag = MULTIBOOT_TAG_TYPE_BASIC_MEMINFO then
    { memory_low := mem_lower mem tag * 1024 % 2 ^ 32, memory_high := mem_upper mem tag * 1024 % 2 ^ 32 }
  else b

/-- The loop, with the tags that its body has been through; the first argument bounds its rounds. -/
def detectLoop (mem : Store) : ℕ → ℕ → Bounds → List ℕ → Option (Bounds × List ℕ)
  | 0, _, _, _ => none
  | fuel + 1, tag, b, visited =>
    if tagType mem tag = MULTIBOOT_TAG_TYPE_END then some (b, visited)
    else detectLoop mem fuel (nextTag mem tag) (readTag mem tag b) (visited ++ [tag])

def detectMemory (mem : Store) (multiboot_magic multiboot_data fuel : ℕ) (b : Bounds) :
    Option (Bounds × List ℕ) :=
  if multiboot_magic ≠ MULTIBOOT2_BOOTLOADER_MAGIC then none
  else if multiboot_data % 8 ≠ 0 then none
  else detectLoop mem fuel ((multiboot_data + 8) % 2 ^ 32) b []

inductive TagList (mem : Store) : ℕ → List ℕ → Prop
  | last {tag : ℕ} (haligned : tag % 8 = 0) (hsize : 8 ≤ tagSize mem tag)
      (htype : tagType mem tag = MULTIBOOT_TAG_TYPE_END) : TagList mem tag []
  | more {tag next : ℕ} {tags : List ℕ} (haligned : tag % 8 = 0) (hsize : 8 ≤ tagSize mem tag)
      (htype : tagType mem tag ≠ MULTIBOOT_TAG_TYPE_END) (hnext : next = tag + (tagSize mem tag + 7) / 8 * 8)
      (hinside : next < 2 ^ 32) (hrest : TagList mem next tags) : TagList mem tag (tag :: tags)

def lastMeminfo (mem : Store) (tags : List ℕ) : Option ℕ :=
  tags.reverse.find? fun tag => tagType mem tag = MULTIBOOT_TAG_TYPE_BASIC_MEMINFO

def DetectsExactly (mem : Store) (multiboot_magic multiboot_data : ℕ) (b : Bounds) (tags : List ℕ) : Prop :=
  ∃ found : Bounds, (∀ fuel, tags.length < fuel →
      detectMemory mem multiboot_magic multiboot_data fuel b = some (found, tags)) ∧
    ∀ tag, lastMeminfo mem tags = some tag →
      found.memory_low = 1024 * mem_lower mem tag ∧ found.memory_high = 1024 * mem_upper mem tag

section Walk
variable {mem : Store} {tag : ℕ} {tags : List ℕ}

theorem tagField_lt (mem : Store) (tag offset : ℕ) : tagField mem tag offset < 2 ^ 32 := by
  have h := leNat_lt (slice mem ((tag + offset) % 2 ^ 32) 4)
  rw [slice_length] at h
  exact h

theorem nextTag_eq {next : ℕ} (hnext : next = tag + (tagSize mem tag + 7) / 8 * 8) (hinside : next < 2 ^ 32) :
    nextTag mem tag = next := by
  have hsmall : tagSize mem tag + 7 < 2 ^ 32 := by omega
  rw [nextTag, tagStep, Nat.mod_eq_of_lt hsmall, ← hnext, Nat.mod_eq_of_lt hinside]

theorem detectLoop_tags (h : TagList mem tag tags) (fuel : ℕ) (hfuel : tags.length < fuel) (b : Bounds)
    (visited : List ℕ) :
    detectLoop mem fuel tag b visited = some (tags.foldl (fun b tag => readTag mem tag b) b, visited ++ tags) := by
  induction h generalizing fuel b visited with
  | last _ _ htype =>
    obtain ⟨fuel, rfl⟩ : ∃ n, fuel = n + 1 := ⟨fuel - 1, (Nat.succ_pred_eq_of_pos hfuel).symm⟩
    rw [detectLoop, if_pos htype, List.append_nil, List.foldl_nil]
  | @more tag next tags _ _ htype hnext hinside _ ih =>
    obtain ⟨fuel, rfl⟩ : ∃ n, fuel = n + 1 := ⟨fuel - 1, by omega⟩
    rw [List.length_cons] at hfuel
    rw [detectLoop, if_neg htype, nextTag_eq hnext hinside, ih fuel (by omega), List.append_assoc,
      List.foldl_cons, List.singleton_append]

theorem foldl_readTag (mem : Store) (tags : List ℕ) (b : Bounds) :
    tags.foldl (fun b tag => readTag mem tag b) b =
    match lastMeminfo mem tags with
    | none => b
    | some tag => readTag mem tag b := by
  induction tags using List.reverseRecOn with
  | nil => rfl
  | append_singleton tags tag ih =>
    rw [List.foldl_append, List.foldl_cons, List.foldl_nil, lastMeminfo, List.reverse_append,
      List.reverse_singleton, List.singleton_append, List.find?_cons]
    by_cases htype : tagType mem tag = MULTIBOOT_TAG_TYPE_BASIC_MEMINFO
    · simp only [htype, decide_true]
      rw [readTag, readTag, if_pos htype, if_pos htype]
    · simp only [htype, decide_false]
      rw [readTag, if_neg htype]
      exact ih

theorem lastMeminfo_type (h : lastMeminfo mem tags = some tag) :
    tagType mem tag = MULTIBOOT_TAG_TYPE_BASIC_MEMINFO :=
  of_decide_eq_true (List.find?_some (p := fun tag => decide (tagType mem tag = MULTIBOOT_TAG_TYPE_BASIC_MEMINFO)) h)

end Walk

/-- The bounds are exact just when they are below 4 GiB. -/
theorem detects_iff (mem : Store) (multiboot_magic multiboot_data : ℕ) (b : Bounds) (tags : List ℕ)
    (hmagic : multiboot_magic = MULTIBOOT2_BOOTLOADER_MAGIC) (haligned : multiboot_data % 8 = 0)
    (h : TagList mem ((multiboot_data + 8) % 2 ^ 32) tags) :
    DetectsExactly mem multiboot_magic multiboot_data b tags ↔
      ∀ tag, lastMeminfo mem tags = some tag → mem_lower mem tag < 2 ^ 22 ∧ mem_upper mem tag < 2 ^ 22 := by
  have hrun : ∀ fuel, tags.length < fuel → detectMemory mem multiboot_magic multiboot_data fuel b =
      some (tags.foldl (fun b tag => readTag mem tag b) b, tags) := fun fuel hfuel => by
    rw [detectMemory, if_neg (not_not.mpr hmagic), if_neg (not_not.mpr haligned), detectLoop_tags h fuel hfuel,
      List.nil_append]
  have hwrap : ∀ {n}, n < 2 ^ 32 → (n * 1024 % 2 ^ 32 = 1024 * n ↔ n < 2 ^ 22) := by
    intro n hn
    omega
  have hfold := foldl_readTag mem tags b
  constructor
  · rintro ⟨found, hall, hfound⟩ tag htag
    obtain rfl : tags.foldl (fun b tag => readTag mem tag b) b = found :=
      congrArg Prod.fst (Option.some.inj ((hrun _ (Nat.lt_succ_self _)).symm.trans (hall _ (Nat.lt_succ_self _))))
    obtain ⟨hlow, hhigh⟩ := hfound tag htag
    rw [hfold, htag] at hlow hhigh
    dsimp only at hlow hhigh
    rw [readTag, if_pos (lastMeminfo_type htag)] at hlow hhigh
    exact ⟨(hwrap (tagField_lt mem tag 8)).mp hlow, (hwrap (tagField_lt mem tag 12)).mp hhigh⟩
  · intro hsmall
    refine ⟨_, hrun, fun tag htag => ?_⟩
    rw [hfold, htag]
    dsimp only
    rw [readTag, if_pos (lastMeminfo_type htag)]
    obtain ⟨hlow, hhigh⟩ := hsmall tag htag
    exact ⟨(hwrap (tagField_lt mem tag 8)).mpr hlow, (hwrap (tagField_lt mem tag 12)).mpr hhigh⟩

section Sample

def infoMemory (upper : ℕ) : Store :=
  patch (fun _ => 0) 4104 ([4, 16, 640, upper, 0, 8].flatMap fun word => leBytes 4 word)

theorem infoMemory_tags {upper : ℕ} (h : upper = 130048 ∨ upper = 2 ^ 22) :
    TagList (infoMemory upper) 4104 [4104] := by
  rcases h with rfl | rfl <;>
    exact .more (by decide) (by decide) (by decide) rfl (by decide) (.last (by decide) (by decide) (by decide))

theorem detects_small : DetectsExactly (infoMemory 130048) MULTIBOOT2_BOOTLOADER_MAGIC 4096 ⟨0, 0⟩ [4104] :=
  (detects_iff (infoMemory 130048) MULTIBOOT2_BOOTLOADER_MAGIC 4096 ⟨0, 0⟩ [4104] rfl rfl
    (infoMemory_tags (.inl rfl))).mpr
    fun tag htag => by
      obtain rfl : 4104 = tag := Option.some.inj htag
      decide

/-- With 4 GiB above the first mebibyte the end of memory is found to be 0. -/
theorem detects_wrapped : TagList (infoMemory (2 ^ 22)) 4104 [4104] ∧
    ¬ DetectsExactly (infoMemory (2 ^ 22)) MULTIBOOT2_BOOTLOADER_MAGIC 4096 ⟨0, 0⟩ [4104] := by
  refine ⟨infoMemory_tags (.inr rfl), ?_⟩
  rintro ⟨found, hall, hfound⟩
  have hrun : detectMemory (infoMemory (2 ^ 22)) MULTIBOOT2_BOOTLOADER_MAGIC 4096 2 ⟨0, 0⟩ =
      some (⟨655360, 0⟩, [4104]) := by
    decide
  obtain rfl := congrArg Prod.fst (Option.some.inj (hrun.symm.trans (hall 2 (by decide))))
  exact absurd (hfound 4104 (by decide)).2 (by decide)

end Sample

end Thorn.Paging.Boot

namespace Thorn.Kernel

def sub64 (a b : ℕ) : ℕ := (a + (2 ^ 64 - b)) % 2 ^ 64

def downalign (number alignment : ℕ) : ℕ := number - number % alignment

structure Arrangement where
  pageDescriptors : ℕ
  pagesLength : ℕ
  pagesStart : ℕ
  pageDescriptorsLength : ℕ

def arrangeMemory (memory_low memory_high : ℕ) : Arrangement :=
  let pagesLength := downalign (sub64 memory_high memory_low * 4096 % 2 ^ 64 / 4097) 4096
  let pagesStart := downalign (sub64 memory_high pagesLength) 4096
  { pageDescriptors := memory_low
    pagesLength := pagesLength
    pagesStart := pagesStart
    pageDescriptorsLength := sub64 pagesStart memory_low }

/-- The descriptors and the pages lie between the bounds, one behind the other, with a descriptor for each page. -/
structure Carved (memory_low memory_high : ℕ) (a : Arrangement) : Prop where
  aligned : a.pagesStart % 4096 = 0
  above : memory_low ≤ a.pagesStart
  below : a.pagesStart + a.pagesLength ≤ memory_high
  adjoins : a.pageDescriptors + a.pageDescriptorsLength = a.pagesStart
  whole : a.pagesLength % 4096 = 0
  enough : a.pagesLength / 4096 ≤ a.pageDescriptorsLength

section Carve
variable {memory_low memory_high : ℕ}

theorem sub64_le {a b : ℕ} (h : b ≤ a) (ha : a < 2 ^ 64) : sub64 a b = a - b := by
  unfold sub64
  omega

theorem downalign_mod (n : ℕ) : downalign n 4096 % 4096 = 0 := by
  unfold downalign
  omega

theorem pagesLength_eq (h : memory_low ≤ memory_high) (hsmall : memory_high < 2 ^ 52) :
    (arrangeMemory memory_low memory_high).pagesLength = 4096 * ((memory_high - memory_low) / 4097) := by
  have hsub := sub64_le h (by omega)
  have hwhole : (memory_high - memory_low) * 4096 < 2 ^ 64 := by omega
  change downalign (sub64 memory_high memory_low * 4096 % 2 ^ 64 / 4097) 4096 = _
  rw [hsub, Nat.mod_eq_of_lt hwhole, downalign]
  omega

theorem pagesStart_eq (h : memory_low ≤ memory_high) (hsmall : memory_high < 2 ^ 52) :
    (arrangeMemory memory_low memory_high).pagesStart =
      memory_high - 4096 * ((memory_high - memory_low) / 4097) - memory_high % 4096 := by
  have hlength := pagesLength_eq h hsmall
  change downalign (sub64 memory_high (arrangeMemory memory_low memory_high).pagesLength) 4096 = _
  rw [hlength, sub64_le (by omega) (by omega), downalign]
  omega

end Carve

/-- Memory is carved right just when the end's offset in its page is covered by what the pages leave over. -/
theorem carved_iff (memory_low memory_high : ℕ) (h : memory_low ≤ memory_high) (hsmall : memory_high < 2 ^ 52)
    (hroom : 2 ^ 21 ≤ memory_high - memory_low) :
    Carved memory_low memory_high (arrangeMemory memory_low memory_high) ↔
      memory_high % 4096 ≤ (memory_high - memory_low) % 4097 := by
  have hlength := pagesLength_eq h hsmall
  have hstart := pagesStart_eq h hsmall
  have hdescriptors : (arrangeMemory memory_low memory_high).pageDescriptorsLength =
      sub64 (arrangeMemory memory_low memory_high).pagesStart memory_low := rfl
  have hfirst : (arrangeMemory memory_low memory_high).pageDescriptors = memory_low := rfl
  have haligned : (arrangeMemory memory_low memory_high).pagesStart % 4096 = 0 := downalign_mod _
  generalize arrangeMemory memory_low memory_high = a at *
  obtain ⟨d, hd⟩ := Nat.exists_eq_add_of_le h
  have hdiff : memory_high - memory_low = d := by omega
  rw [hdiff] at hlength hstart hroom ⊢
  have hsplit := Nat.div_add_mod d 4097
  constructor
  · rintro ⟨-, habove, -, hadjoins, -, henough⟩
    rw [hdescriptors, sub64_le habove (by omega), hlength] at henough
    omega
  · intro hcover
    have habove : memory_low ≤ a.pagesStart := by omega
    rw [sub64_le habove (by omega)] at hdescriptors
    exact ⟨haligned, habove, by omega, by omega, by omega, by omega⟩

/-- 512 pages of memory and 512 bytes for their descriptors: the pages start at the very bottom. -/
theorem carve_no_descriptors : 0 ≤ 2097664 ∧ 2097664 < 2 ^ 52 ∧ 2 ^ 21 ≤ 2097664 - 0 ∧
    ¬ Carved 0 2097664 (arrangeMemory 0 2097664) := by
  refine ⟨by decide, by decide, by decide, fun h => ?_⟩
  exact absurd h.enough (by decide)

theorem carve_two_mebibytes : Carved 0 (2 ^ 21) (arrangeMemory 0 (2 ^ 21)) :=
  (carved_iff 0 (2 ^ 21) (by decide) (by decide) (by decide)).mpr (by decide)

end Thorn.Kernel
