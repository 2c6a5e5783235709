import Thorn.AssignPages

set_option autoImplicit false

namespace Thorn.Paging
open ByteStore Radix

namespace PageTableWrapper

theorem index_lt (addr shift : ℕ) : addr / 2 ^ shift % 512 < 512 := Nat.mod_lt _ (by omega)

def getIndex (addr shift : ℕ) : Fin 512 := ⟨addr / 2 ^ shift % 512, index_lt addr shift⟩

def getPML4Index (addr : ℕ) : Fin 512 := getIndex addr 39
def getPDPTIndex (addr : ℕ) : Fin 512 := getIndex addr 30
def getPDTIndex (addr : ℕ) : Fin 512 := getIndex addr 21
def getPTIndex (addr : ℕ) : Fin 512 := getIndex addr 12

/-- The four indices of a virtual address. -/
def page (virtual_address : ℕ) : Page :=
  ⟨getPML4Index virtual_address, getPDPTIndex virtual_address, getPDTIndex virtual_address, getPTIndex virtual_address⟩

end PageTableWrapper

/-- `access` of `assignBeforePMM`: low pointers are mapped to themselves. -/
def accessBeforePMM (physicalMemoryMap ptr : ℕ) : ℕ := if ptr < 0x2000000 then ptr else physicalMemoryMap + ptr

/-- One level of `assignBeforePMM`: presence is looked up in `checked`, and the new
table is cleared unless `disableMemset`. -/
def descendBeforePMM (disableMemset : Bool) (allocate : Store → ℕ × Store) (checked table : Table)
    (index : Fin 512) (s : State) : Option (ℕ × State) :=
  if isPresent (s.tables checked index) then some (pageOf (s.tables table index), s)
  else
    let (free_addr, bitmap) := allocate s.bitmap
    if free_addr = 0 then none
    else
      let tables := store s.tables table index (addressToEntry free_addr)
      let tables := if disableMemset then tables else clear 0 tables (.frame free_addr)
      some (pageOf (tables table index), ⟨tables, bitmap⟩)

namespace PageMeta4K
variable (p : PageMeta4K)

def assignLastBeforePMM (disableMemset : Bool) (pt : Table) (pt_index : Fin 512)
    (physical_address extra_meta : ℕ) (s : State) : Option (ℕ × State) :=
  if isPresent (s.tables pt pt_index) then some (0, s)
  else if physical_address ≠ 0 then
    -- the flags are not entered here
    let tables := store s.tables pt pt_index (addressToEntry physical_address)
    some (tables pt pt_index, ⟨tables, s.bitmap⟩)
  else
    let (free_addr, bitmap) := p.allocateFreePhysicalAddress s.bitmap
    if free_addr = 0 then none
    else
      let tables := store s.tables pt pt_index (addressToEntry free_addr ||| extra_meta)
      let tables := if disableMemset then tables else clear 0 tables (.frame free_addr)
      some (tables pt pt_index, ⟨tables, bitmap⟩)

def assignBeforePMM (physicalMemoryMap : ℕ) (disableMemset : Bool) (wrapper : PageTableWrapper)
    (pml4_index pdpt_index pdt_index pt_index : Fin 512) (physical_address extra_meta : ℕ) (s : State) :
    Option (ℕ × State) :=
  let access := accessBeforePMM physicalMemoryMap
  let allocate := p.allocateFreePhysicalAddress
  if p.pages = -1 then some (0, s)
  else if ¬ isCanonical wrapper.address then none
  else do
    let (pdpt, s) ← descendBeforePMM disableMemset allocate wrapper.entries wrapper.entries pml4_index s
    if ¬ isCanonical pdpt then none else do
      let pdpt := access pdpt
      let (pdt, s) ← descendBeforePMM disableMemset allocate (.frame (access pdpt)) (.frame pdpt) pdpt_index s
      if ¬ isCanonical pdt then none else do
        let pdt := access pdt
        let (pt, s) ← descendBeforePMM disableMemset allocate (.frame pdt) (.frame pdt) pdt_index s
        if ¬ isCanonical pt then none
        else p.assignLastBeforePMM disableMemset (.frame (access pt)) pt_index physical_address extra_meta s

/-- The value returned is turned into a `bool`. -/
def assignAddress (physicalMemoryMap : ℕ) (disableMemset physicalMemoryMapReady : Bool)
    (wrapper : PageTableWrapper)
    (virtual_address physical_address extra_meta : ℕ) (s : State) : Option (Bool × State) :=
  let v := PageTableWrapper.page virtual_address
  let out :=
    if physicalMemoryMapReady then p.assign wrapper v.pml4 v.pdpt v.pdt v.pt physical_address extra_meta s
    else p.assignBeforePMM physicalMemoryMap disableMemset wrapper v.pml4 v.pdpt v.pdt v.pt
      physical_address extra_meta s
  out.map fun result => (result.1 != 0, result.2)

def wayDown (wrapper : PageTableWrapper) (v : Page) (s : State) : Option (ℕ × State) := do
  let (pdpt, s) ← descend p.allocateFreePhysicalAddress wrapper.entries v.pml4 s
  if ¬ isCanonical pdpt then none else do
    let (pdt, s) ← descend p.allocateFreePhysicalAddress (.frame pdpt) v.pdpt s
    if ¬ isCanonical pdt then none else do
      let (pt, s) ← descend p.allocateFreePhysicalAddress (.frame pdt) v.pdt s
      if ¬ isCanonical pt then none else some (pt, s)

def ReachesAbsent (wrapper : PageTableWrapper) (v : Page) (s : State) : Prop :=
  p.pages ≠ -1 ∧ ∃ pt s', p.wayDown wrapper v s = some (pt, s') ∧ isPresent (s'.tables (.frame pt) v.pt) = false

end PageMeta4K

theorem accessBeforePMM_zero (ptr : ℕ) : accessBeforePMM 0 ptr = ptr := by
  rw [accessBeforePMM, Nat.zero_add, ite_self]

theorem descendBeforePMM_clearing (allocate : Store → ℕ × Store) (table : Table) (index : Fin 512) (s : State) :
    descendBeforePMM false allocate table table index s = descend allocate table index s := rfl

section Early
variable {p : PageMeta4K} {wrapper : PageTableWrapper} {v : Page} {physical_address extra_meta : ℕ} {s : State}

/-- The last levels differ only where an address is given and a flag is lost. -/
theorem assignLastBeforePMM_eq_iff (pt : Table) (index : Fin 512) :
    p.assignLastBeforePMM false pt index physical_address extra_meta s =
        p.assignLast pt index physical_address extra_meta s ↔
      ¬ (isPresent (s.tables pt index) = false ∧ physical_address ≠ 0 ∧
        addressToEntry physical_address ||| extra_meta ≠ addressToEntry physical_address) := by
  rw [PageMeta4K.assignLastBeforePMM, PageMeta4K.assignLast]
  cases hpresent : isPresent (s.tables pt index) with
  | true => exact iff_of_true rfl fun h => Bool.noConfusion h.1
  | false =>
    rw [if_neg Bool.false_ne_true, if_neg Bool.false_ne_true]
    by_cases hgiven : physical_address ≠ 0
    · rw [if_pos hgiven, if_pos hgiven]
      constructor
      · rintro heq ⟨-, -, hne⟩
        have hvalue := congrArg Prod.fst (Option.some.inj heq)
        dsimp only at hvalue
        rw [store_self, store_self] at hvalue
        exact hne hvalue.symm
      · intro h
        have hsame : addressToEntry physical_address ||| extra_meta = addressToEntry physical_address :=
          not_not.mp fun hne => h ⟨rfl, hgiven, hne⟩
        rw [hsame]
    · rw [if_neg hgiven, if_neg hgiven]
      exact iff_of_true rfl fun h => hgiven h.2.1

theorem bind_halt {α β : Type} (c : Prop) [Decidable c] (x : Option α) (f : α → Option β) :
    (if c then none else x).bind f = if c then none else x.bind f := by
  split_ifs <;> rfl

theorem assign_wayDown (hpages : p.pages ≠ -1) :
    p.assign wrapper v.pml4 v.pdpt v.pdt v.pt physical_address extra_meta s =
      (p.wayDown wrapper v s).bind fun r => p.assignLast (.frame r.1) v.pt physical_address extra_meta r.2 := by
  have hcanonical : ¬ ¬ isCanonical wrapper.address = true := not_not.mpr wrapper.canonical
  rw [PageMeta4K.assign, if_neg hpages, if_neg hcanonical, PageMeta4K.wayDown, Option.bind_eq_bind,
    Option.bind_assoc]
  congr 1
  funext r
  obtain ⟨pdpt, s₁⟩ := r
  dsimp only
  rw [bind_halt, Option.bind_assoc]
  congr 2
  funext r
  obtain ⟨pdt, s₂⟩ := r
  dsimp only
  rw [bind_halt, Option.bind_assoc]
  congr 2
  funext r
  obtain ⟨pt, s₃⟩ := r
  dsimp only
  rw [bind_halt]
  rfl

theorem assignBeforePMM_wayDown (hpages : p.pages ≠ -1) :
    p.assignBeforePMM 0 false wrapper v.pml4 v.pdpt v.pdt v.pt physical_address extra_meta s =
      (p.wayDown wrapper v s).bind fun r =>
        p.assignLastBeforePMM false (.frame r.1) v.pt physical_address extra_meta r.2 := by
  have hcanonical : ¬ ¬ isCanonical wrapper.address = true := not_not.mpr wrapper.canonical
  rw [PageMeta4K.assignBeforePMM]
  dsimp only
  rw [if_neg hpages, if_neg hcanonical, descendBeforePMM_clearing, PageMeta4K.wayDown, Option.bind_eq_bind,
    Option.bind_assoc]
  congr 1
  funext r
  obtain ⟨pdpt, s₁⟩ := r
  dsimp only
  rw [accessBeforePMM_zero, accessBeforePMM_zero, descendBeforePMM_clearing, bind_halt, Option.bind_assoc]
  congr 2
  funext r
  obtain ⟨pdt, s₂⟩ := r
  dsimp only
  rw [accessBeforePMM_zero, descendBeforePMM_clearing, bind_halt, Option.bind_assoc]
  congr 2
  funext r
  obtain ⟨pt, s₃⟩ := r
  dsimp only
  rw [accessBeforePMM_zero, bind_halt]
  rfl

/-- The two functions differ only where an absent entry is set to a given address. -/
theorem assignBeforePMM_eq_iff (p : PageMeta4K) (wrapper : PageTableWrapper) (v : Page)
    (physical_address extra_meta : ℕ) (s : State) :
    p.assignBeforePMM 0 false wrapper v.pml4 v.pdpt v.pdt v.pt physical_address extra_meta s =
        p.assign wrapper v.pml4 v.pdpt v.pdt v.pt physical_address extra_meta s ↔
      ¬ (p.ReachesAbsent wrapper v s ∧ physical_address ≠ 0 ∧
        addressToEntry physical_address ||| extra_meta ≠ addressToEntry physical_address) := by
  by_cases hpages : p.pages = -1
  · rw [PageMeta4K.assignBeforePMM, PageMeta4K.assign, if_pos hpages, if_pos hpages]
    exact iff_of_true rfl fun h => h.1.1 hpages
  · rw [assignBeforePMM_wayDown hpages, assign_wayDown hpages]
    cases hway : p.wayDown wrapper v s with
    | none =>
      refine iff_of_true rfl ?_
      rintro ⟨⟨-, pt, s', hsome, -⟩, -⟩
      rw [hway] at hsome
      cases hsome
    | some r =>
      have hreach : p.ReachesAbsent wrapper v s ↔ isPresent (r.2.tables (.frame r.1) v.pt) = false := by
        constructor
        · rintro ⟨-, pt, s', hsome, habsent⟩
          obtain rfl := Option.some.inj (hway.symm.trans hsome)
          exact habsent
        · exact fun habsent => ⟨hpages, r.1, r.2, hway, habsent⟩
      rw [Option.bind_some, Option.bind_some, assignLastBeforePMM_eq_iff, hreach]

end Early

theorem reachesAbsent_iff (L : Layout) (pages : ℕ) (hcap : pages ≤ 8 * L.bitmapBytes)
    (wrapper : PageTableWrapper) (v : Page) (s : State) (h : Sound L.kernelEnd wrapper.entries s)
    (hfree : bitCount s.bitmap (64 * (pages / 64)) + 4 ≤ 64 * (pages / 64)) :
    (L.pager pages).ReachesAbsent wrapper v s ↔ s.translate wrapper.entries v = none := by
  have habove := L.above
  have hlow := L.low
  have hsmall := L.small
  have hbase := L.aligned
  have hfit : L.kernelEnd + 4096 * (64 * (pages / 64)) ≤ 2 ^ 47 := by omega
  have ha : Allocates L.kernelEnd 0 (64 * (pages / 64)) (L.pager pages).allocateFreePhysicalAddress :=
    kernel_allocates L.kernelEnd pages (by omega) (by omega)
  have hset : (L.pager pages).pages ≠ -1 := by
    change (pages : ℤ) ≠ -1
    omega
  obtain ⟨pdpt, pdt, pt, s₁, s₂, s₃, hl⟩ := levels_exist (v := v) ha hbase (by omega) hfit h (by omega)
  obtain ⟨-, he, hw, ⟨hc₁, hc₂, hc₃⟩, -⟩ := hl.spec ha hbase hfit h
  have hway : (L.pager pages).wayDown wrapper v s = some (pt, s₃) := by
    simp only [PageMeta4K.wayDown, hl.first, hl.second, hl.third, isCanonical_of_lt hc₁, isCanonical_of_lt hc₂,
      isCanonical_of_lt hc₃, not_true, if_false, Option.bind_eq_bind, Option.bind_some]
  have htranslate := translate_of_walk hw
  rw [he.translate v] at htranslate
  rw [htranslate]
  constructor
  · rintro ⟨-, pt', s', hsome, habsent⟩
    obtain ⟨rfl, rfl⟩ := Prod.mk.inj (Option.some.inj (hway.symm.trans hsome))
    rw [habsent]
    rfl
  · intro hnone
    refine ⟨hset, pt, s₃, hway, ?_⟩
    by_contra hpresent
    rw [if_pos (by simpa using hpresent)] at hnone
    cases hnone

/-- A first page for user memory, at the address of a device: the flag is lost. -/
theorem assignBeforePMM_loses_flag :
    (Layout.sample.pager (2 ^ 14)).assignBeforePMM 0 false kernelPML4 511 0 1 2 0xfee00000 4 .blank ≠
      (Layout.sample.pager (2 ^ 14)).assign kernelPML4 511 0 1 2 0xfee00000 4 .blank := by
  have hearly :
      ((Layout.sample.pager (2 ^ 14)).assignBeforePMM 0 false kernelPML4 511 0 1 2 0xfee00000 4 .blank).map
      Prod.fst = some 0xfee00003 := by decide +kernel
  have hready : ((Layout.sample.pager (2 ^ 14)).assign kernelPML4 511 0 1 2 0xfee00000 4 .blank).map
      Prod.fst = some 0xfee00007 := by decide +kernel
  intro heq
  rw [heq, hready] at hearly
  exact absurd hearly (by decide)

end Thorn.Paging
