import Thorn.PageTables

set_option autoImplicit false

namespace Thorn.Paging
open ByteStore Radix

def isCanonical (address : ℕ) : Bool := address < 0x0000800000000000 || 0xffff800000000000 ≤ address

/-- `entries` is dereferenced, so it is canonical. -/
structure PageTableWrapper where
  entries : Table
  address : ℕ
  canonical : isCanonical address = true

/-- The last level of `assign`: `pt[pt_index]` is set when it is not present. -/
def PageMeta4K.assignLast (p : PageMeta4K) (pt : Table) (pt_index : Fin 512) (physical_address extra_meta : ℕ)
    (s : State) : Option (ℕ × State) :=
  if isPresent (s.tables pt pt_index) then some (0, s)
  else if physical_address ≠ 0 then
    let tables := store s.tables pt pt_index (addressToEntry physical_address ||| extra_meta)
    some (tables pt pt_index, ⟨tables, s.bitmap⟩)
  else
    let (free_addr, bitmap) := p.allocateFreePhysicalAddress s.bitmap
    if free_addr = 0 then none
    else
      let tables :=
        clear 0 (store s.tables pt pt_index (addressToEntry free_addr ||| extra_meta)) (.frame free_addr)
      some (tables pt pt_index, ⟨tables, bitmap⟩)

/-- Returns the new entry, or 0; `none` when the kernel halts. -/
def PageMeta4K.assign (p : PageMeta4K) (wrapper : PageTableWrapper)
    (pml4_index pdpt_index pdt_index pt_index : Fin 512) (physical_address extra_meta : ℕ) (s : State) :
    Option (ℕ × State) :=
  if p.pages = -1 then some (0, s)
  else if ¬ isCanonical wrapper.address then none
  else do
    let (pdpt, s) ← descend p.allocateFreePhysicalAddress wrapper.entries pml4_index s
    if ¬ isCanonical pdpt then none else do
      let (pdt, s) ← descend p.allocateFreePhysicalAddress (.frame pdpt) pdpt_index s
      if ¬ isCanonical pdt then none else do
        let (pt, s) ← descend p.allocateFreePhysicalAddress (.frame pdt) pdt_index s
        if ¬ isCanonical pt then none else p.assignLast (.frame pt) pt_index physical_address extra_meta s

/-- What `assign` makes of a state: other pages are left alone; a page that was not
mapped is mapped to the address asked for, or to a cleared frame that was free; a
mapped page stays as it is. -/
structure Assigned (base : ℕ) (root : Table) (v : Page) (physical_address extra_meta : ℕ) (s : State) (r : ℕ)
    (s' : State) : Prop where
  sound : Sound base root s'
  others : ∀ v' ≠ v, s'.translate root v' = s.translate root v'
  mapped : s.translate root v = none → s'.translate root v = some r
  given : s.translate root v = none → physical_address ≠ 0 →
    r = physical_address ||| MMU_PRESENT ||| MMU_WRITABLE ||| extra_meta
  chosen : s.translate root v = none → physical_address = 0 → ∃ k, bitAt s.bitmap k = false ∧
    bitAt s'.bitmap k = true ∧ (∀ i, s'.tables (.frame (base + 4096 * k)) i = 0) ∧
    r = (base + 4096 * k) ||| MMU_PRESENT ||| MMU_WRITABLE ||| extra_meta
  kept : s.translate root v ≠ none → s' = s ∧ r = 0

theorem isPresent_entry {address extra_meta : ℕ} (haligned : address % 4096 = 0) (hmeta : extra_meta < 4096) :
    isPresent (addressToEntry address ||| extra_meta) = true := by
  have hor : 3 ||| extra_meta < 4096 := Nat.or_lt_two_pow (n := 12) (by omega) hmeta
  have hodd : (3 ||| extra_meta) % 2 = 1 := by
    rw [Nat.or_mod_two_eq_one]
    exact .inl rfl
  have hentry : addressToEntry address ||| extra_meta = address + (3 ||| extra_meta) := by
    rw [addressToEntry_aligned haligned, ← page_or haligned (show 3 < 4096 by omega), Nat.or_assoc,
      page_or haligned hor]
  rw [isPresent_iff, hentry]
  omega

theorem isCanonical_of_lt {a : ℕ} (h : a < 2 ^ 47) : isCanonical a = true := by
  have hbound : a < 0x0000800000000000 := h
  rw [isCanonical, decide_eq_true hbound, Bool.true_or]

theorem assignLast_spec {base high : ℕ} {p : PageMeta4K}
    (ha : Allocates base 0 high p.allocateFreePhysicalAddress)
    (hbase : base % 4096 = 0) (hpos : 0 < base) {root t : Table} {s : State} {v : Page} (h : Sound base root s)
    (hp : walk nextTable s.tables root v.path = some t) (hfree : bitCount s.bitmap high < high)
    {physical_address extra_meta : ℕ} (haligned : physical_address % 4096 = 0) (hmeta : extra_meta < 4096) :
    ∃ r s', p.assignLast t v.pt physical_address extra_meta s = some (r, s') ∧
      Assigned base root v physical_address extra_meta s r s' := by
  have htranslate := translate_of_walk hp
  unfold PageMeta4K.assignLast
  by_cases hpresent : isPresent (s.tables t v.pt) = true
  · rw [if_pos hpresent] at htranslate
    have hmapped : s.translate root v ≠ none := by
      rw [htranslate]
      exact Option.some_ne_none _
    exact ⟨0, s, if_pos hpresent, h, fun _ _ => rfl, fun hn => absurd hn hmapped, fun hn => absurd hn hmapped,
      fun hn => absurd hn hmapped, fun _ => ⟨rfl, rfl⟩⟩
  · rw [if_neg hpresent] at htranslate
    rw [if_neg hpresent]
    by_cases hgiven : physical_address ≠ 0
    · have he := isPresent_entry haligned hmeta
      refine ⟨_, _, if_pos hgiven, h.setEntry hp, fun v' hv => ?_, fun _ => ?_, fun _ _ => ?_,
        fun _ h0 => absurd h0 hgiven, fun hn => absurd htranslate hn⟩
      · exact (translate_setEntry h hp he v').trans (if_neg hv)
      · rw [store_self]
        exact (translate_setEntry h hp he v).trans (if_pos rfl)
      · rw [store_self, addressToEntry, pageOf_aligned haligned]
    · have hne := ha.succeeds hpos hfree
      rw [if_neg hgiven]
      dsimp only
      rw [if_neg hne]
      obtain ⟨hfail, -⟩ | ⟨k, -, -, hclear, haddress, hbits⟩ := ha s.bitmap
      · rw [hfail] at hne
        exact absurd rfl hne
      · have hframe : (base + 4096 * k) % 4096 = 0 := by omega
        have he := isPresent_entry hframe hmeta
        have hlast := h.setEntry (e := addressToEntry (base + 4096 * k) ||| extra_meta) hp
        have hmarks : ∀ j, bitAt s.bitmap j = true →
            bitAt (p.allocateFreePhysicalAddress s.bitmap).2 j = true := by
          intro j hj
          rw [hbits, hj, Bool.or_true]
        obtain ⟨hsound, hsame⟩ := hlast.cleared hclear hmarks
        have htable : t ≠ .frame (base + 4096 * k) := fun heq => h.fresh hclear v.path (le_refl 3) (heq ▸ hp)
        rw [haddress]
        refine ⟨_, _, rfl, hsound, fun v' hv => ?_, fun _ => ?_, fun _ hn => absurd hn hgiven, fun _ _ => ?_,
          fun hn => absurd htranslate hn⟩
        · exact (hsame v').trans ((translate_setEntry h hp he v').trans (if_neg hv))
        · rw [clear_other htable, store_self]
          exact (hsame v).trans ((translate_setEntry h hp he v).trans (if_pos rfl))
        · refine ⟨k, hclear, ?_, fun i => clear_self _ _ _ i, ?_⟩
          · rw [hbits, decide_eq_true rfl, Bool.true_or]
          · rw [clear_other htable, store_self, addressToEntry, pageOf_aligned hframe]

/-- `assign` maps one page of a sound state and disturbs no other. -/
theorem assign_extends (L : Layout) (pages : ℕ) (hcap : pages ≤ 8 * L.bitmapBytes) (wrapper : PageTableWrapper)
    (v : Page) (s : State) (h : Sound L.kernelEnd wrapper.entries s)
    (hfree : bitCount s.bitmap (64 * (pages / 64)) + 4 ≤ 64 * (pages / 64)) (physical_address extra_meta : ℕ)
    (haligned : physical_address % 4096 = 0) (hmeta : extra_meta < 4096) :
    ∃ r s', (L.pager pages).assign wrapper v.pml4 v.pdpt v.pdt v.pt physical_address extra_meta s = some (r, s') ∧
      Assigned L.kernelEnd wrapper.entries v physical_address extra_meta s r s' := by
  have habove := L.above
  have hlow := L.low
  have hsmall := L.small
  have hbase := L.aligned
  have hfit : L.kernelEnd + 4096 * (64 * (pages / 64)) ≤ 2 ^ 47 := by omega
  have ha : Allocates L.kernelEnd 0 (64 * (pages / 64)) (L.pager pages).allocateFreePhysicalAddress :=
    kernel_allocates L.kernelEnd pages (by omega) (by omega)
  have hset : ¬ (L.pager pages).pages = -1 := by
    change ¬ (pages : ℤ) = -1
    omega
  obtain ⟨pdpt, pdt, pt, s₁, s₂, s₃, hl⟩ := levels_exist (v := v) ha hbase (by omega) hfit h (by omega)
  obtain ⟨h₃, he₃, hw₃, ⟨hc₁, hc₂, hc₃⟩, hsame⟩ := hl.spec ha hbase hfit h
  have hcount := he₃.count (64 * (pages / 64))
  obtain ⟨r, s', hrun, hassigned⟩ := assignLast_spec ha hbase (by omega) h₃ hw₃ (by omega) haligned hmeta
  refine ⟨r, s', ?_, hassigned.sound, fun v' hv => ?_, fun hn => ?_, fun hn => ?_, fun hn h0 => ?_,
    fun hn => ?_⟩
  · simp only [PageMeta4K.assign, if_neg hset, wrapper.canonical, hl.first, hl.second, hl.third,
      isCanonical_of_lt hc₁, isCanonical_of_lt hc₂, isCanonical_of_lt hc₃,
      not_true, if_false, Option.bind_eq_bind, Option.bind_some]
    exact hrun
  · exact (hassigned.others v' hv).trans (he₃.translate v')
  · exact hassigned.mapped ((he₃.translate v).trans hn)
  · exact hassigned.given ((he₃.translate v).trans hn)
  · obtain ⟨k, hclear, hmarked, hzero, hr⟩ := hassigned.chosen ((he₃.translate v).trans hn) h0
    have hwas : bitAt s.bitmap k = false := by
      by_contra hset'
      rw [he₃.marks k (by simpa using hset')] at hclear
      cases hclear
    exact ⟨k, hwas, hmarked, hzero, hr⟩
  · obtain ⟨rfl, rfl⟩ := hassigned.kept (fun h0 => hn ((he₃.translate v).symm.trans h0))
    exact ⟨hsame hn, rfl⟩

def kernelPML4 : PageTableWrapper := ⟨.pml4, 2 ^ 23, by decide⟩

def Page.sample : Page := ⟨511, 0, 1, 2⟩

/-- A first page is mapped, with a frame of its own. -/
theorem assign_extends_first : ∃ r s', (Layout.sample.pager (2 ^ 14)).assign kernelPML4 Page.sample.pml4
      Page.sample.pdpt Page.sample.pdt Page.sample.pt 0 4 .blank = some (r, s') ∧
    Assigned Layout.sample.kernelEnd kernelPML4.entries .sample 0 4 .blank r s' := by
  have hcap : 2 ^ 14 ≤ 8 * Layout.sample.bitmapBytes := by decide
  have hsound : Sound Layout.sample.kernelEnd kernelPML4.entries .blank := sound_empty fun _ => isPresent_zero
  have hcount : bitCount State.blank.bitmap (64 * (2 ^ 14 / 64)) = 0 := marks_zero.count fun k hk => by cases hk
  have hfree : bitCount State.blank.bitmap (64 * (2 ^ 14 / 64)) + 4 ≤ 64 * (2 ^ 14 / 64) := by
    rw [hcount]
    omega
  exact assign_extends .sample (2 ^ 14) hcap kernelPML4 .sample .blank hsound hfree 0 4 (by omega) (by omega)

end Thorn.Paging
