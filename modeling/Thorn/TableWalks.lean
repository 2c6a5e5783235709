import Thorn.EarlyPages

set_option autoImplicit false

namespace Thorn.Paging
open ByteStore Radix

/-- The 64-bit word at a physical address, which need not be aligned. -/
def State.readWord (s : State) (address : ℕ) : ℕ :=
  let entry (a : ℕ) : ℕ := s.tables (.frame (pageOf a)) ⟨a % 4096 / 8, by omega⟩
  let shift := 8 * (address % 8)
  if shift = 0 then entry address
  else (entry address >>> shift ||| entry (address + 8) <<< (64 - shift)) % 2 ^ 64

namespace PageTableWrapper
variable (wrapper : PageTableWrapper) (s : State)

def getPML4E (pml4_index : Fin 512) : ℕ := s.tables wrapper.entries pml4_index

/-- The pointer is `pml4e >> 12`, the number of the frame. -/
def getPDPE (pml4_index pdpt_index : Fin 512) : ℕ :=
  let pml4e := s.tables wrapper.entries pml4_index
  s.readWord (pml4e / 4096 + 8 * pdpt_index)

def getPDE (pml4_index pdpt_index pdt_index : Fin 512) : ℕ :=
  let pdpe := getPDPE wrapper s pml4_index pdpt_index
  s.readWord (pdpe / 4096 + 8 * pdt_index)

def getPTE (pml4_index pdpt_index pdt_index pt_index : Fin 512) : ℕ :=
  let pde := getPDE wrapper s pml4_index pdpt_index pdt_index
  s.readWord (pde / 4096 + 8 * pt_index)

end PageTableWrapper

/-- `none` when there is no kernel instance and the machine halts. -/
def modifyEntry (kernel : Bool) (wrapper : PageTableWrapper) (virtual_address : ℕ) (modifier : ℕ → ℕ)
    (s : State) : Option (Bool × State) :=
  if ¬ kernel then none else
  let v := PageTableWrapper.page virtual_address
  let pml4e := s.tables wrapper.entries v.pml4
  if ¬ isPresent pml4e then some (false, s) else
  let pdpt := Table.frame (pageOf pml4e)
  if ¬ isPresent (s.tables pdpt v.pdpt) then some (false, s) else
  let pdt := Table.frame (pageOf (s.tables pdpt v.pdpt))
  if ¬ isPresent (s.tables pdt v.pdt) then some (false, s) else
  let pt := Table.frame (pageOf (s.tables pdt v.pdt))
  if ¬ isPresent (s.tables pt v.pt) then some (false, s) else
  some (true, s.setEntry pt v.pt (modifier (s.tables pt v.pt)))

def freeEntry (kernel : Bool) (wrapper : PageTableWrapper) (virtual_address : ℕ) (s : State) :
    Option (Bool × State) :=
  modifyEntry kernel wrapper virtual_address (fun _ => 0) s

structure AssignCall where
  page : Page
  physical_address : ℕ
  extra_meta : ℕ

/-- The calls one after the other, until the kernel halts. -/
def PageMeta4K.assignAll (p : PageMeta4K) (wrapper : PageTableWrapper) : List AssignCall → State → Option State
  | [], s => some s
  | c :: calls, s => do
    let (_, s) ← p.assign wrapper c.page.pml4 c.page.pdpt c.page.pdt c.page.pt c.physical_address c.extra_meta s
    assignAll p wrapper calls s

section Agreement
variable (wrapper : PageTableWrapper) (s : State) (virtual_address : ℕ)

/-- What the walkers should do at an address: the getters find the entries that
`assign` visits, `modifyEntry` changes the last of them if all are present, and
`freeEntry` unmaps one page. -/
structure WalkersAgree (v : Page) : Prop where
  pml4e : wrapper.getPML4E s v.pml4 = s.tables wrapper.entries v.pml4
  pdpe : ∀ t, walk nextTable s.tables wrapper.entries [v.pml4] = some t →
    wrapper.getPDPE s v.pml4 v.pdpt = s.tables t v.pdpt
  pde : ∀ t, walk nextTable s.tables wrapper.entries [v.pml4, v.pdpt] = some t →
    wrapper.getPDE s v.pml4 v.pdpt v.pdt = s.tables t v.pdt
  pte : ∀ t, walk nextTable s.tables wrapper.entries [v.pml4, v.pdpt, v.pdt] = some t →
    wrapper.getPTE s v.pml4 v.pdpt v.pdt v.pt = s.tables t v.pt
  modified : ∀ modifier, s.translate wrapper.entries v = none ∧
      modifyEntry true wrapper virtual_address modifier s = some (false, s) ∨
    ∃ t, walk nextTable s.tables wrapper.entries v.path = some t ∧ isPresent (s.tables t v.pt) = true ∧
      modifyEntry true wrapper virtual_address modifier s = some (true, s.setEntry t v.pt (modifier (s.tables t v.pt)))
  freed : ∃ ok s', freeEntry true wrapper virtual_address s = some (ok, s') ∧ s'.translate wrapper.entries v = none ∧
    ∀ v' ≠ v, s'.translate wrapper.entries v' = s.translate wrapper.entries v'

/-- The word at the number of an entry's frame is the one in the frame. -/
def SameWord (entry : ℕ) (index : Fin 512) : Prop :=
  isPresent entry = true → s.readWord (entry / 4096 + 8 * index) = s.readWord (pageOf entry + 8 * index)

structure SameWords (v : Page) : Prop where
  first : SameWord s (s.tables wrapper.entries v.pml4) v.pdpt
  second : ∀ t, walk nextTable s.tables wrapper.entries [v.pml4] = some t → SameWord s (s.tables t v.pdpt) v.pdt
  third : ∀ t, walk nextTable s.tables wrapper.entries [v.pml4, v.pdpt] = some t → SameWord s (s.tables t v.pdt) v.pt

end Agreement

section Entries
variable {root t t' : Table} {s : State} {v : Page} {i : Fin 512}

theorem readWord_frame {a : ℕ} (haligned : a % 4096 = 0) (s : State) (i : Fin 512) :
    s.readWord (a + 8 * i) = s.tables (.frame a) i := by
  have hi := i.isLt
  have hshift : 8 * ((a + 8 * i) % 8) = 0 := by omega
  have hpage : pageOf (a + 8 * i) = a := by
    unfold pageOf
    omega
  have hindex : (⟨(a + 8 * i) % 4096 / 8, by omega⟩ : Fin 512) = i := Fin.ext (by dsimp only; omega)
  rw [State.readWord]
  dsimp only
  rw [if_pos hshift, hpage, hindex]

theorem readWord_page (s : State) (entry : ℕ) (i : Fin 512) :
    s.readWord (pageOf entry + 8 * i) = s.tables (.frame (pageOf entry)) i := by
  apply readWord_frame
  unfold pageOf
  omega

theorem walk_concat_some {q : List (Fin 512)} : walk nextTable s.tables root (q ++ [i]) = some t' ↔
    ∃ t, walk nextTable s.tables root q = some t ∧ nextTable (s.tables t i) = some t' := by
  rw [walk_concat, Option.bind_eq_some_iff]

theorem sameWord_iff {entry : ℕ} : SameWord s entry i ↔
    ∀ t, nextTable entry = some t → s.readWord (entry / 4096 + 8 * i) = s.tables t i := by
  rw [SameWord, readWord_page]
  constructor
  · intro h t ht
    have hpresent : isPresent entry = true := by
      by_contra hne
      rw [nextTable_eq_none.mpr (by simpa using hne)] at ht
      cases ht
    rw [nextTable_of_present hpresent] at ht
    rw [← Option.some.inj ht]
    exact h hpresent
  · exact fun h hpresent => h _ (nextTable_of_present hpresent)

end Entries

section Getters
variable {wrapper : PageTableWrapper} {s : State} {virtual_address : ℕ} {v : Page}

theorem WalkersAgree.sameWords (h : WalkersAgree wrapper s virtual_address v) : SameWords wrapper s v where
  first := sameWord_iff.mpr fun t ht =>
    h.pdpe t ((walk_concat_some (q := [])).mpr ⟨wrapper.entries, rfl, ht⟩)
  second t hw := sameWord_iff.mpr fun t' ht => by
    have hpde := h.pde t' ((walk_concat_some (q := [v.pml4])).mpr ⟨t, hw, ht⟩)
    rwa [PageTableWrapper.getPDE, h.pdpe t hw] at hpde
  third t hw := sameWord_iff.mpr fun t' ht => by
    have hpte := h.pte t' ((walk_concat_some (q := [v.pml4, v.pdpt])).mpr ⟨t, hw, ht⟩)
    rwa [PageTableWrapper.getPTE, h.pde t hw] at hpte

theorem SameWords.getPDPE (h : SameWords wrapper s v) {t : Table}
    (hw : walk nextTable s.tables wrapper.entries [v.pml4] = some t) :
    wrapper.getPDPE s v.pml4 v.pdpt = s.tables t v.pdpt := by
  obtain ⟨t', ht', hnext⟩ := (walk_concat_some (q := [])).mp hw
  obtain rfl := Option.some.inj ht'
  exact sameWord_iff.mp h.first t hnext

theorem SameWords.getPDE (h : SameWords wrapper s v) {t : Table}
    (hw : walk nextTable s.tables wrapper.entries [v.pml4, v.pdpt] = some t) :
    wrapper.getPDE s v.pml4 v.pdpt v.pdt = s.tables t v.pdt := by
  obtain ⟨t', ht', hnext⟩ := (walk_concat_some (q := [v.pml4])).mp hw
  rw [PageTableWrapper.getPDE, h.getPDPE ht']
  exact sameWord_iff.mp (h.second t' ht') t hnext

theorem SameWords.getPTE (h : SameWords wrapper s v) {t : Table}
    (hw : walk nextTable s.tables wrapper.entries [v.pml4, v.pdpt, v.pdt] = some t) :
    wrapper.getPTE s v.pml4 v.pdpt v.pdt v.pt = s.tables t v.pt := by
  obtain ⟨t', ht', hnext⟩ := (walk_concat_some (q := [v.pml4, v.pdpt])).mp hw
  rw [PageTableWrapper.getPTE, h.getPDE ht']
  exact sameWord_iff.mp (h.third t' ht') t hnext

end Getters

section Modify
variable {base : ℕ} {root t : Table} {s : State} {v : Page}

theorem walk_cons (i : Fin 512) (q : List (Fin 512)) : walk nextTable s.tables root (i :: q) =
    if isPresent (s.tables root i) then walk nextTable s.tables (.frame (pageOf (s.tables root i))) q else none := by
  rw [walk, nextTable]
  split_ifs <;> rfl

theorem modifyEntry_walk (wrapper : PageTableWrapper) (virtual_address : ℕ) (modifier : ℕ → ℕ) (s : State)
    (hv : PageTableWrapper.page virtual_address = v) : s.translate wrapper.entries v = none ∧
      modifyEntry true wrapper virtual_address modifier s = some (false, s) ∨
    ∃ t, walk nextTable s.tables wrapper.entries v.path = some t ∧ isPresent (s.tables t v.pt) = true ∧
      modifyEntry true wrapper virtual_address modifier s =
        some (true, s.setEntry t v.pt (modifier (s.tables t v.pt))) := by
  have hkernel : ¬ ¬ true = true := not_not.mpr rfl
  rw [State.translate, lookup, Page.path, walk_cons, modifyEntry, hv]
  dsimp only
  rw [if_neg hkernel]
  by_cases h₁ : isPresent (s.tables wrapper.entries v.pml4) = true
  · rw [if_pos h₁, if_neg (not_not.mpr h₁), walk_cons]
    by_cases h₂ : isPresent (s.tables (.frame (pageOf (s.tables wrapper.entries v.pml4))) v.pdpt) = true
    · rw [if_pos h₂, if_neg (not_not.mpr h₂), walk_cons]
      generalize Table.frame (pageOf (s.tables (.frame (pageOf (s.tables wrapper.entries v.pml4))) v.pdpt)) = pdt
      by_cases h₃ : isPresent (s.tables pdt v.pdt) = true
      · rw [if_pos h₃, if_neg (not_not.mpr h₃), walk, Option.bind_some]
        generalize Table.frame (pageOf (s.tables pdt v.pdt)) = pt
        by_cases h₄ : isPresent (s.tables pt v.pt) = true
        · right
          exact ⟨pt, rfl, h₄, if_neg (not_not.mpr h₄)⟩
        · left
          rw [nextTable_eq_none.mpr (by simpa using h₄)]
          exact ⟨rfl, if_pos h₄⟩
      · left
        rw [if_neg h₃]
        exact ⟨rfl, if_pos h₃⟩
    · left
      rw [if_neg h₂]
      exact ⟨rfl, if_pos h₂⟩
  · left
    rw [if_neg h₁]
    exact ⟨rfl, if_pos h₁⟩

theorem translate_unset (h : Sound base root s) (hp : walk nextTable s.tables root v.path = some t)
    (v' : Page) : (s.setEntry t v.pt 0).translate root v' = if v' = v then none else s.translate root v' := by
  rw [State.translate, State.setEntry, lookup_store_last h.tree hp rfl v'.path (le_refl 3)]
  by_cases hv : v' = v
  · rw [hv, if_pos ⟨rfl, rfl⟩, if_pos rfl, nextTable_zero, Option.map_none]
  · have hother : ¬ (v'.path = v.path ∧ v'.pt = v.pt) := fun hsame => hv (path_inj hsame.1 hsame.2)
    rw [if_neg hother, if_neg hv]
    rfl

theorem freeEntry_unmaps {wrapper : PageTableWrapper} (h : Sound base wrapper.entries s) (virtual_address : ℕ)
    (hv : PageTableWrapper.page virtual_address = v) : ∃ ok s',
      freeEntry true wrapper virtual_address s = some (ok, s') ∧ s'.translate wrapper.entries v = none ∧
      ∀ v' ≠ v, s'.translate wrapper.entries v' = s.translate wrapper.entries v' := by
  rw [freeEntry]
  rcases modifyEntry_walk wrapper virtual_address (fun _ => 0) s hv with ⟨hnone, hrun⟩ | ⟨t, hp, -, hrun⟩
  · exact ⟨false, s, hrun, hnone, fun _ _ => rfl⟩
  · refine ⟨true, _, hrun, ?_, fun v' hne => ?_⟩
    · exact (translate_unset h hp v).trans (if_pos rfl)
    · exact (translate_unset h hp v').trans (if_neg hne)

end Modify

theorem Sound.walkersAgree_iff {base : ℕ} {wrapper : PageTableWrapper} {s : State}
    (h : Sound base wrapper.entries s) (virtual_address : ℕ) :
    WalkersAgree wrapper s virtual_address (PageTableWrapper.page virtual_address) ↔
      SameWords wrapper s (PageTableWrapper.page virtual_address) := by
  refine ⟨WalkersAgree.sameWords, fun hwords => ?_⟩
  exact ⟨rfl, fun _ => hwords.getPDPE, fun _ => hwords.getPDE, fun _ => hwords.getPTE,
    fun modifier => modifyEntry_walk wrapper virtual_address modifier s rfl, freeEntry_unmaps h virtual_address rfl⟩

section Runs
variable {base low high : ℕ} {p : PageMeta4K} {wrapper : PageTableWrapper} {v : Page} {s s' : State}

theorem wayDown_levels {pt : ℕ} (h : p.wayDown wrapper v s = some (pt, s')) : ∃ pdpt pdt s₁ s₂,
    Levels p.allocateFreePhysicalAddress wrapper.entries v s pdpt pdt pt s₁ s₂ s' := by
  rw [PageMeta4K.wayDown, Option.bind_eq_bind, Option.bind_eq_some_iff] at h
  obtain ⟨⟨pdpt, s₁⟩, hfirst, h⟩ := h
  dsimp only at h
  split_ifs at h
  rw [Option.bind_eq_some_iff] at h
  obtain ⟨⟨pdt, s₂⟩, hsecond, h⟩ := h
  dsimp only at h
  split_ifs at h
  rw [Option.bind_eq_some_iff] at h
  obtain ⟨⟨pt', s₃⟩, hthird, h⟩ := h
  dsimp only at h
  split_ifs at h
  cases h
  exact ⟨pdpt, pdt, s₁, s₂, hfirst, hsecond, hthird⟩

theorem assignLast_sound (ha : Allocates base low high p.allocateFreePhysicalAddress) {t : Table}
    (h : Sound base wrapper.entries s) (hp : walk nextTable s.tables wrapper.entries v.path = some t)
    {physical_address extra_meta r : ℕ}
    (hrun : p.assignLast t v.pt physical_address extra_meta s = some (r, s')) :
    Sound base wrapper.entries s' := by
  rw [PageMeta4K.assignLast] at hrun
  split_ifs at hrun with hpresent hgiven
  · cases hrun
    exact h
  · cases hrun
    exact h.setEntry hp
  · dsimp only at hrun
    split_ifs at hrun with hfull
    cases hrun
    obtain ⟨hfail, -⟩ | ⟨k, -, -, hclear, haddress, hbits⟩ := ha s.bitmap
    · rw [hfail] at hfull
      exact absurd rfl hfull
    · rw [haddress]
      refine ((h.setEntry hp).cleared hclear fun j hj => ?_).1
      change bitAt s.bitmap j = true at hj
      rw [hbits, hj, Bool.or_true]

theorem assign_sound (ha : Allocates base low high p.allocateFreePhysicalAddress) (hbase : base % 4096 = 0)
    (hfit : base + 4096 * high ≤ 2 ^ 47) (h : Sound base wrapper.entries s) {physical_address extra_meta r : ℕ}
    (hrun : p.assign wrapper v.pml4 v.pdpt v.pdt v.pt physical_address extra_meta s = some (r, s')) :
    Sound base wrapper.entries s' := by
  by_cases hpages : p.pages = -1
  · rw [PageMeta4K.assign, if_pos hpages] at hrun
    cases hrun
    exact h
  · rw [assign_wayDown hpages, Option.bind_eq_some_iff] at hrun
    obtain ⟨⟨pt, s₃⟩, hway, hlast⟩ := hrun
    obtain ⟨pdpt, pdt, s₁, s₂, hl⟩ := wayDown_levels hway
    obtain ⟨h₃, -, hw, -, -⟩ := hl.spec ha hbase hfit h
    exact assignLast_sound ha h₃ hw hlast

theorem assignAll_sound (ha : Allocates base low high p.allocateFreePhysicalAddress) (hbase : base % 4096 = 0)
    (hfit : base + 4096 * high ≤ 2 ^ 47) (calls : List AssignCall) (h : Sound base wrapper.entries s)
    (hrun : p.assignAll wrapper calls s = some s') : Sound base wrapper.entries s' := by
  induction calls generalizing s with
  | nil =>
    cases hrun
    exact h
  | cons c calls ih =>
    rw [PageMeta4K.assignAll, Option.bind_eq_bind, Option.bind_eq_some_iff] at hrun
    obtain ⟨⟨r, s₁⟩, hfirst, hrest⟩ := hrun
    exact ih (assign_sound ha hbase hfit h hfirst) hrest

theorem descend_next (allocate : Store → ℕ × Store) {t t' : Table} {i : Fin 512}
    (hnext : nextTable (s.tables t i) = some t') :
    ∃ a, t' = .frame a ∧ descend allocate t i s = some (a, s) := by
  by_cases hpresent : isPresent (s.tables t i) = true
  · rw [nextTable_of_present hpresent] at hnext
    exact ⟨_, (Option.some.inj hnext).symm, descend_present hpresent⟩
  · rw [nextTable_eq_none.mpr (by simpa using hpresent)] at hnext
    cases hnext

theorem assign_visits (hpages : p.pages ≠ -1) (h : Sound base wrapper.entries s) {t : Table}
    (hp : walk nextTable s.tables wrapper.entries v.path = some t) (physical_address extra_meta : ℕ) :
    p.assign wrapper v.pml4 v.pdpt v.pdt v.pt physical_address extra_meta s =
      p.assignLast t v.pt physical_address extra_meta s := by
  obtain ⟨t₂, hw₂, hnext₃⟩ := (walk_concat_some (q := [v.pml4, v.pdpt])).mp hp
  obtain ⟨t₁, hw₁, hnext₂⟩ := (walk_concat_some (q := [v.pml4])).mp hw₂
  obtain ⟨t₀, hw₀, hnext₁⟩ := (walk_concat_some (q := [])).mp hw₁
  obtain rfl := Option.some.inj hw₀
  obtain ⟨pdpt, rfl, hfirst⟩ := descend_next p.allocateFreePhysicalAddress hnext₁
  obtain ⟨pdt, rfl, hsecond⟩ := descend_next p.allocateFreePhysicalAddress hnext₂
  obtain ⟨pt, rfl, hthird⟩ := descend_next p.allocateFreePhysicalAddress hnext₃
  have hc₁ := isCanonical_of_lt (h.below (q := [v.pml4]) (by simp) hw₁)
  have hc₂ := isCanonical_of_lt (h.below (q := [v.pml4, v.pdpt]) (by simp) hw₂)
  have hc₃ := isCanonical_of_lt (h.below (le_refl 3) hp)
  have hway : p.wayDown wrapper v s = some (pt, s) := by
    simp only [PageMeta4K.wayDown, hfirst, hsecond, hthird, hc₁, hc₂, hc₃, not_true, if_false,
      Option.bind_eq_bind, Option.bind_some]
  rw [assign_wayDown hpages, hway, Option.bind_some]

/-- The tables of a wrapper: the kernel's own, or a frame that is in use. -/
def RootInUse (base : ℕ) (root : Table) (bitmap : Store) : Prop :=
  root = .pml4 ∨ ∃ k, root = .frame (base + 4096 * k) ∧ bitAt bitmap k = true ∧ base + 4096 * k < 2 ^ 47

theorem sound_root {root : Table} (hroot : RootInUse base root s.bitmap)
    (h : ∀ i, isPresent (s.tables root i) = false) : Sound base root s := by
  have hwalk : ∀ q t, walk nextTable s.tables root q = some t → q = [] ∧ t = root := by
    intro q t hw
    cases q with
    | nil => exact ⟨rfl, (Option.some.inj hw).symm⟩
    | cons i q =>
      rw [walk_cons, h i] at hw
      cases hw
  refine ⟨fun _ _ h₁ h₂ => (hwalk _ _ h₁).1.trans (hwalk _ _ h₂).1.symm, fun q t _ hw => ?_,
    fun q t i _ hw hp => ?_⟩
  · rw [(hwalk q t hw).2]
    exact hroot
  · rw [(hwalk q t hw).2, h i] at hp
    cases hp

end Runs

/-- After any calls of `assign` on an empty table, and for any address: the walkers
agree exactly where the words at the frames' numbers are those in the frames. -/
theorem walkers_agree_iff (L : Layout) (pages : ℕ) (hcap : pages ≤ 8 * L.bitmapBytes)
    (wrapper : PageTableWrapper) (s₀ s : State) (hroot : RootInUse L.kernelEnd wrapper.entries s₀.bitmap)
    (hempty : ∀ i, s₀.tables wrapper.entries i = 0) (calls : List AssignCall)
    (hrun : (L.pager pages).assignAll wrapper calls s₀ = some s) (virtual_address : ℕ) :
    WalkersAgree wrapper s virtual_address (PageTableWrapper.page virtual_address) ↔
      SameWords wrapper s (PageTableWrapper.page virtual_address) := by
  have habove := L.above
  have hlow := L.low
  have hsmall := L.small
  have hfit : L.kernelEnd + 4096 * (64 * (pages / 64)) ≤ 2 ^ 47 := by omega
  have ha : Allocates L.kernelEnd 0 (64 * (pages / 64)) (L.pager pages).allocateFreePhysicalAddress :=
    kernel_allocates L.kernelEnd pages (by omega) (by omega)
  have hstart : Sound L.kernelEnd wrapper.entries s₀ := sound_root hroot fun i => by
    rw [hempty i]
    exact isPresent_zero
  exact (assignAll_sound ha L.aligned hfit calls hstart hrun).walkersAgree_iff virtual_address

def sampleAddress : ℕ := 0xffffff8000202000

def sampleBehind : ℕ := sampleAddress + 5 * 2 ^ 30

/-- One page is mapped, and at the address behind it both the frame and the word at its number hold 0. -/
theorem walkers_agree_behind : ∃ s,
    (Layout.sample.pager (2 ^ 14)).assignAll kernelPML4 [⟨PageTableWrapper.page sampleAddress, 0, 4⟩] .blank = some s ∧
      walk nextTable s.tables kernelPML4.entries [511] = some (.frame (2 ^ 24)) ∧
      WalkersAgree kernelPML4 s sampleBehind (PageTableWrapper.page sampleBehind) := by
  have hvalues :
      ((Layout.sample.pager (2 ^ 14)).assignAll kernelPML4 [⟨PageTableWrapper.page sampleAddress, 0, 4⟩]
      .blank).map (fun s => (walk nextTable s.tables kernelPML4.entries [511], s.tables (.frame (2 ^ 24)) 5,
        s.readWord (s.tables kernelPML4.entries 511 / 4096 + 40),
        s.readWord (pageOf (s.tables kernelPML4.entries 511) + 40))) = some (some (.frame (2 ^ 24)), 0, 0, 0) := by
    decide +kernel
  obtain ⟨s, hrun, hs⟩ := Option.map_eq_some_iff.mp hvalues
  obtain ⟨hwalk, hrest⟩ := Prod.mk.inj hs
  obtain ⟨hentry, hrest⟩ := Prod.mk.inj hrest
  obtain ⟨hlow, hframe⟩ := Prod.mk.inj hrest
  have hpage : PageTableWrapper.page sampleBehind = ⟨511, 5, 1, 2⟩ := by decide +kernel
  have habsent : isPresent (s.tables (.frame (2 ^ 24)) 5) = false := by
    rw [hentry]
    exact isPresent_zero
  refine ⟨s, hrun, hwalk, (walkers_agree_iff .sample (2 ^ 14) (by decide) kernelPML4 .blank s (.inl rfl)
    (fun _ => rfl) _ hrun sampleBehind).mpr ?_⟩
  rw [hpage]
  refine ⟨fun _ => hlow.trans hframe.symm, fun t ht hp => ?_, fun t ht => ?_⟩
  · obtain rfl := Option.some.inj (hwalk.symm.trans ht)
    rw [habsent] at hp
    cases hp
  · obtain ⟨t', ht', hnext⟩ := (walk_concat_some (q := [511])).mp ht
    obtain rfl := Option.some.inj (hwalk.symm.trans ht')
    rw [nextTable, habsent] at hnext
    cases hnext

/-- One page is mapped, and `getPDPE` reads 0 where the entry names a table. -/
theorem getPDPE_misses : ∃ s,
    (Layout.sample.pager (2 ^ 14)).assignAll kernelPML4 [⟨PageTableWrapper.page sampleAddress, 0, 4⟩] .blank = some s ∧
      kernelPML4.getPDPE s 511 0 = 0 ∧ s.tables (.frame (2 ^ 24)) 0 = 2 ^ 24 + 4096 + 3 ∧
      ¬ WalkersAgree kernelPML4 s sampleAddress (PageTableWrapper.page sampleAddress) := by
  have hvalues :
      ((Layout.sample.pager (2 ^ 14)).assignAll kernelPML4 [⟨PageTableWrapper.page sampleAddress, 0, 4⟩]
      .blank).map (fun s => (kernelPML4.getPDPE s 511 0, s.tables (.frame (2 ^ 24)) 0,
        walk nextTable s.tables kernelPML4.entries [511])) = some (0, 2 ^ 24 + 4096 + 3, some (.frame (2 ^ 24))) := by
    decide +kernel
  obtain ⟨s, hrun, hs⟩ := Option.map_eq_some_iff.mp hvalues
  obtain ⟨hget, hrest⟩ := Prod.mk.inj hs
  obtain ⟨hentry, hwalk⟩ := Prod.mk.inj hrest
  refine ⟨s, hrun, hget, hentry, fun h => ?_⟩
  have hpdpe := h.pdpe (.frame (2 ^ 24)) hwalk
  change kernelPML4.getPDPE s 511 0 = s.tables (.frame (2 ^ 24)) 0 at hpdpe
  rw [hget, hentry] at hpdpe
  exact absurd hpdpe (by decide)

end Thorn.Paging
