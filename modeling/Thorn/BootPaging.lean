import Thorn.PageTables

set_option autoImplicit false

namespace Thorn.Paging
open ByteStore Radix

namespace Boot

def getIndex (address shift : ℕ) : Fin 512 := ⟨address / 2 ^ shift % 512, Nat.mod_lt _ (by omega)⟩

def getPML4Index (address : ℕ) : Fin 512 := getIndex address 39
def getPDPTIndex (address : ℕ) : Fin 512 := getIndex address 30
def getPDTIndex (address : ℕ) : Fin 512 := getIndex address 21
def getPTIndex (address : ℕ) : Fin 512 := getIndex address 12

/-- Maps one page, whether it was mapped or not; `none` when the machine halts. -/
def allocate4KiB (L : Layout) (virt phys : ℕ) (s : State) : Option State := do
  let (pdpt, s) ← descend (allocateFreePhysicalAddress L) .pml4 (getPML4Index virt) s
  let (pdt, s) ← descend (allocateFreePhysicalAddress L) (.frame pdpt) (getPDPTIndex virt) s
  let (pt, s) ← descend (allocateFreePhysicalAddress L) (.frame pdt) (getPDTIndex virt) s
  some (s.setEntry (.frame pt) (getPTIndex virt) (addressToEntry phys))

def allocateAll (L : Layout) : List (ℕ × ℕ) → State → Option State
  | [], s => some s
  | (virt, phys) :: rest, s => do
    let s ← allocate4KiB L virt phys s
    allocateAll L rest s

def stack_pages : ℕ := 512

/-- The stack's pages from the top down, and the frames given to them. -/
def allocateStack (L : Layout) : List ℕ → State → Option (List ℕ × State)
  | [], s => some ([], s)
  | virt :: rest, s => do
    let (phys, bitmap) := allocateFreePhysicalAddress L s.bitmap
    let s ← allocate4KiB L virt phys { s with bitmap := bitmap }
    let (frames, s) ← allocateStack L rest s
    some (phys :: frames, s)

def physicalMemoryMap (memory_high : ℕ) : ℕ :=
  pageOf ((0xfffffffffffff000 - stack_pages * pageSize + (2 ^ 64 - memory_high)) % 2 ^ 64)

def identityPages : List (ℕ × ℕ) := (List.range (512 * 512)).map fun page => (page * pageSize, page * pageSize)

def physicalPages (memory_high : ℕ) : List (ℕ × ℕ) :=
  (List.range (memory_high / 4096 + 1)).map fun n =>
    ((physicalMemoryMap memory_high + n * 4096) % 2 ^ 64, n * 4096)

def stackPages : List ℕ := (List.range stack_pages).map fun page => 0xfffffffffffff000 - page * pageSize

/-- With the `memory_high` that `detectMemory` finds; the result lists the stack's frames. -/
def setup_paging (L : Layout) (memory_high : ℕ) (s : State) : Option (List ℕ × State) := do
  let s ← allocateAll L identityPages s
  let s ← allocateAll L (physicalPages memory_high) s
  allocateStack L stackPages s

end Boot

def pageAt (virt : ℕ) : Page :=
  ⟨Boot.getPML4Index virt, Boot.getPDPTIndex virt, Boot.getPDTIndex virt, Boot.getPTIndex virt⟩

theorem pageAt_inj {a b : ℕ} (h : pageAt a = pageAt b) : a / 4096 % 2 ^ 36 = b / 4096 % 2 ^ 36 := by
  simp only [pageAt, Page.mk.injEq, Boot.getPML4Index, Boot.getPDPTIndex, Boot.getPDTIndex, Boot.getPTIndex,
    Boot.getIndex, Fin.mk.injEq] at h
  omega

theorem isPresent_addressToEntry_any (address : ℕ) : isPresent (addressToEntry address) = true := by
  have haligned : pageOf address % 4096 = 0 := by
    unfold pageOf
    omega
  have hpage : pageOf (pageOf address) = pageOf address := pageOf_aligned haligned
  have hentry : addressToEntry address = addressToEntry (pageOf address) := by
    unfold addressToEntry
    rw [hpage]
  rw [hentry]
  exact isPresent_addressToEntry haligned

section Step
variable {L : Layout} {s s' : State}

theorem boot_fits (L : Layout) : L.kernelEnd + 4096 * (32 * (Boot.getPages L / 32)) ≤ 2 ^ 47 := by
  have hlow := L.low
  have hsmall := L.small
  unfold Boot.getPages
  omega

structure Keeps (base n : ℕ) (s s' : State) : Prop where
  marks : ∀ k, bitAt s.bitmap k = true → bitAt s'.bitmap k = true
  spared : ∀ k, bitAt s.bitmap k = true → Fresh nextTable s.tables .pml4 3 (.frame (base + 4096 * k)) →
    Fresh nextTable s'.tables .pml4 3 (.frame (base + 4096 * k))
  count : ∀ bound, bitCount s'.bitmap bound ≤ bitCount s.bitmap bound + n

theorem Keeps.refl (base : ℕ) (s : State) : Keeps base 0 s s := ⟨fun _ h => h, fun _ _ h => h, fun _ => le_rfl⟩

theorem Keeps.trans {base n n' : ℕ} {s s' s'' : State} (h : Keeps base n s s') (h' : Keeps base n' s' s'') :
    Keeps base (n + n') s s'' :=
  ⟨fun k hk => h'.marks k (h.marks k hk), fun k hk hf => h'.spared k (h.marks k hk) (h.spared k hk hf), fun bound => by
    have := h.count bound
    have := h'.count bound
    omega⟩

theorem allocate4KiB_spec (h : Sound L.kernelEnd .pml4 s) {virt phys : ℕ}
    (hrun : Boot.allocate4KiB L virt phys s = some s') :
    Sound L.kernelEnd .pml4 s' ∧ Keeps L.kernelEnd 3 s s' ∧ ∀ v, s'.translate .pml4 v =
      if v = pageAt virt then some (addressToEntry phys) else s.translate .pml4 v := by
  obtain ⟨⟨pdpt, s₁⟩, h₁, hrun⟩ := Option.bind_eq_some_iff.mp hrun
  obtain ⟨⟨pdt, s₂⟩, h₂, hrun⟩ := Option.bind_eq_some_iff.mp hrun
  obtain ⟨⟨pt, s₃⟩, h₃, hrun⟩ := Option.bind_eq_some_iff.mp hrun
  obtain rfl := Option.some.inj hrun
  have hl : Levels (Boot.allocateFreePhysicalAddress L) .pml4 (pageAt virt) s pdpt pdt pt s₁ s₂ s₃ :=
    ⟨h₁, h₂, h₃⟩
  obtain ⟨hsound, hext, hwalk, -, -⟩ := hl.spec (boot_allocates L) L.aligned (boot_fits L) h
  have he := isPresent_addressToEntry_any phys
  refine ⟨hsound.setEntry hwalk, ⟨hext.marks, fun k hk hf q hq hw => ?_, hext.count⟩, fun v => ?_⟩
  · exact hext.spared k hk hf q hq ((walk_store_last hsound.tree hwalk rfl q hq).symm.trans hw)
  · rw [← hext.translate v]
    exact translate_setEntry hsound hwalk he v

theorem allocate4KiB_succeeds (h : Sound L.kernelEnd .pml4 s) (virt phys : ℕ)
    (hfree : bitCount s.bitmap (32 * (Boot.getPages L / 32)) + 32 + 3 ≤ 32 * (Boot.getPages L / 32)) :
    ∃ s', Boot.allocate4KiB L virt phys s = some s' := by
  have habove := L.above
  obtain ⟨pdpt, pdt, pt, s₁, s₂, s₃, hl⟩ :=
    levels_exist (v := pageAt virt) (boot_allocates L) L.aligned (by omega) (boot_fits L) h hfree
  refine ⟨s₃.setEntry (.frame pt) (Boot.getPTIndex virt) (addressToEntry phys), ?_⟩
  rw [Boot.allocate4KiB, Option.bind_eq_bind, show descend _ .pml4 (Boot.getPML4Index virt) s = _ from hl.first,
    Option.bind_some]
  dsimp only
  rw [show descend _ _ (Boot.getPDPTIndex virt) s₁ = _ from hl.second, Option.bind_some]
  dsimp only
  rw [show descend _ _ (Boot.getPDTIndex virt) s₂ = _ from hl.third, Option.bind_some]

end Step

section Runs
variable {L : Layout} {s s' : State}

theorem allocateAll_spec (l : List (ℕ × ℕ)) (h : Sound L.kernelEnd .pml4 s)
    (hrun : Boot.allocateAll L l s = some s') :
    Sound L.kernelEnd .pml4 s' ∧ Keeps L.kernelEnd (3 * l.length) s s' ∧
      (∀ v, (∀ x ∈ l, pageAt x.1 ≠ v) → s'.translate .pml4 v = s.translate .pml4 v) ∧
      ((l.map fun x => pageAt x.1).Nodup → ∀ x ∈ l, s'.translate .pml4 (pageAt x.1) = some (addressToEntry x.2)) := by
  induction l generalizing s with
  | nil =>
    obtain rfl := Option.some.inj hrun
    exact ⟨h, Keeps.refl _ _, fun _ _ => rfl, fun _ x hx => by cases hx⟩
  | cons y l ih =>
    obtain ⟨s₁, hfirst, hrest⟩ := Option.bind_eq_some_iff.mp hrun
    obtain ⟨h₁, hk₁, htranslate⟩ := allocate4KiB_spec h hfirst
    obtain ⟨h', hk', hothers, hmapped⟩ := ih h₁ hrest
    have hkeeps : Keeps L.kernelEnd (3 * (y :: l).length) s s' := by
      rw [List.length_cons, Nat.mul_succ, Nat.add_comm]
      exact hk₁.trans hk'
    refine ⟨h', hkeeps, fun v hv => ?_, fun hnodup x hx => ?_⟩
    · rw [hothers v fun x hx => hv x (List.mem_cons_of_mem y hx), htranslate v,
        if_neg (hv y List.mem_cons_self).symm]
    · obtain ⟨hnew, hnodup⟩ := List.nodup_cons.mp hnodup
      rcases List.mem_cons.mp hx with rfl | hx
      · have hlast : ∀ z ∈ l, pageAt z.1 ≠ pageAt x.1 := fun z hz heq =>
          hnew (List.mem_map.mpr ⟨z, hz, heq⟩)
        rw [hothers _ hlast, htranslate, if_pos rfl]
      · exact hmapped hnodup x hx

theorem allocateAll_succeeds (l : List (ℕ × ℕ)) (h : Sound L.kernelEnd .pml4 s)
    (hfree : bitCount s.bitmap (32 * (Boot.getPages L / 32)) + 32 + 3 * l.length ≤ 32 * (Boot.getPages L / 32)) :
    ∃ s', Boot.allocateAll L l s = some s' := by
  induction l generalizing s with
  | nil => exact ⟨s, rfl⟩
  | cons y l ih =>
    rw [List.length_cons, Nat.mul_succ] at hfree
    obtain ⟨s₁, hfirst⟩ := allocate4KiB_succeeds h y.1 y.2 (by omega)
    obtain ⟨h₁, hk₁, -⟩ := allocate4KiB_spec h hfirst
    have hcount := hk₁.count (32 * (Boot.getPages L / 32))
    obtain ⟨s', hrest⟩ := ih h₁ (by omega)
    exact ⟨s', by rw [Boot.allocateAll, Option.bind_eq_bind, hfirst, Option.bind_some, hrest]⟩

theorem Sound.mark {base : ℕ} {root : Table} (h : Sound base root s) {bitmap : Store}
    (hmarks : ∀ k, bitAt s.bitmap k = true → bitAt bitmap k = true) : Sound base root ⟨s.tables, bitmap⟩ :=
  ⟨h.tree, fun q t hq hw => (h.used q t hq hw).imp_right fun ⟨k, hframe, hset, hsmall⟩ =>
    ⟨k, hframe, hmarks k hset, hsmall⟩, h.small⟩

/-- The frames given to the stack: marked, none of them a table. -/
def Reserved (base : ℕ) (s : State) (frames : List ℕ) : Prop := ∀ a ∈ frames, ∃ k, a = base + 4096 * k ∧
  bitAt s.bitmap k = true ∧ Fresh nextTable s.tables .pml4 3 (.frame a)

theorem Reserved.keeps {base n : ℕ} {frames : List ℕ} (h : Reserved base s frames) (hk : Keeps base n s s') :
    Reserved base s' frames := by
  intro a ha
  obtain ⟨k, rfl, hset, hfresh⟩ := h a ha
  exact ⟨k, rfl, hk.marks k hset, hk.spared k hset hfresh⟩

theorem allocateStack_cons (L : Layout) (virt : ℕ) (rest : List ℕ) (s : State) :
    Boot.allocateStack L (virt :: rest) s = (Boot.allocate4KiB L virt (Boot.allocateFreePhysicalAddress L s.bitmap).1
      ⟨s.tables, (Boot.allocateFreePhysicalAddress L s.bitmap).2⟩).bind fun s₁ =>
        (Boot.allocateStack L rest s₁).bind fun p =>
          some ((Boot.allocateFreePhysicalAddress L s.bitmap).1 :: p.1, p.2) := rfl

theorem allocateStack_spec (l : List ℕ) (h : Sound L.kernelEnd .pml4 s) {frames : List ℕ}
    (hrun : Boot.allocateStack L l s = some (frames, s')) (hsucceed : 0 ∉ frames) (taken : List ℕ)
    (htaken : Reserved L.kernelEnd s taken) :
    Sound L.kernelEnd .pml4 s' ∧ Reserved L.kernelEnd s' (frames ++ taken) ∧ frames.Nodup ∧
      (∀ a ∈ frames, a ∉ taken) ∧ frames.length = l.length ∧
      (∀ v, (∀ x ∈ l, pageAt x ≠ v) → s'.translate .pml4 v = s.translate .pml4 v) ∧
      ((l.map pageAt).Nodup → ∀ x ∈ l.zip frames, s'.translate .pml4 (pageAt x.1) = some (addressToEntry x.2)) := by
  induction l generalizing s frames taken with
  | nil =>
    obtain ⟨rfl, rfl⟩ := Prod.mk.inj (Option.some.inj hrun)
    exact ⟨h, htaken, List.nodup_nil, fun a ha => (by cases ha), rfl, fun _ _ => rfl,
      fun _ x hx => (by cases hx)⟩
  | cons y l ih =>
    rw [allocateStack_cons] at hrun
    generalize hgiven : Boot.allocateFreePhysicalAddress L s.bitmap = given at hrun
    obtain ⟨s₂, hfirst, hrun⟩ := Option.bind_eq_some_iff.mp hrun
    obtain ⟨⟨rest, s₃⟩, hrest, hrun⟩ := Option.bind_eq_some_iff.mp hrun
    obtain ⟨rfl, rfl⟩ := Prod.mk.inj (Option.some.inj hrun)
    subst hgiven
    rw [List.mem_cons, not_or] at hsucceed
    obtain ⟨hfail, -⟩ | ⟨k, -, -, hclear, haddress, hbits⟩ := boot_allocates L s.bitmap
    · rw [hfail] at hsucceed
      exact absurd rfl hsucceed.1
    · have hmarks : ∀ j, bitAt s.bitmap j = true →
          bitAt (Boot.allocateFreePhysicalAddress L s.bitmap).2 j = true := fun j hj => by
        rw [hbits, hj, Bool.or_true]
      obtain ⟨h₂, hk₂, htranslate⟩ := allocate4KiB_spec (h.mark hmarks) hfirst
      have hnew : (Boot.allocateFreePhysicalAddress L s.bitmap).1 ∉ taken := fun hin => by
        obtain ⟨k', hk', hset, -⟩ := htaken _ hin
        have hsame : k' = k := by omega
        rw [hsame, hclear] at hset
        cases hset
      have hmarked : Reserved L.kernelEnd ⟨s.tables, (Boot.allocateFreePhysicalAddress L s.bitmap).2⟩
          ((Boot.allocateFreePhysicalAddress L s.bitmap).1 :: taken) := by
        intro a ha
        rcases List.mem_cons.mp ha with rfl | ha
        · refine ⟨k, haddress, ?_, ?_⟩
          · rw [hbits, decide_eq_true rfl, Bool.true_or]
          · rw [haddress]
            exact h.fresh hclear
        · obtain ⟨k', hk', hset, hfresh⟩ := htaken a ha
          exact ⟨k', hk', hmarks k' hset, hfresh⟩
      obtain ⟨h', hreserved, hnodup, hapart, hlength, hothers, hmapped⟩ :=
        ih h₂ hrest hsucceed.2 _ (hmarked.keeps hk₂)
      refine ⟨h', fun a ha => hreserved a ?_, ?_, ?_, by rw [List.length_cons, List.length_cons, hlength], ?_,
        ?_⟩
      · simp only [List.cons_append, List.mem_cons, List.mem_append] at ha ⊢
        tauto
      · exact List.nodup_cons.mpr ⟨fun hin => hapart _ hin List.mem_cons_self, hnodup⟩
      · intro a ha
        rcases List.mem_cons.mp ha with rfl | ha
        · exact hnew
        · exact fun hin => hapart a ha (List.mem_cons_of_mem _ hin)
      · intro v hv
        rw [hothers v fun x hx => hv x (List.mem_cons_of_mem y hx), htranslate v,
          if_neg (hv y List.mem_cons_self).symm]
        rfl
      · intro hdistinct x hx
        obtain ⟨hfresh, hdistinct⟩ := List.nodup_cons.mp hdistinct
        rcases List.mem_cons.mp hx with rfl | hx
        · have hlast : ∀ z ∈ l, pageAt z ≠ pageAt y := fun z hz heq => hfresh (List.mem_map.mpr ⟨z, hz, heq⟩)
          rw [hothers _ hlast, htranslate, if_pos rfl]
        · exact hmapped hdistinct x hx

theorem allocateStack_succeeds (l : List ℕ) (h : Sound L.kernelEnd .pml4 s)
    (hfree : bitCount s.bitmap (32 * (Boot.getPages L / 32)) + 32 + 4 * l.length ≤ 32 * (Boot.getPages L / 32)) :
    ∃ frames s', Boot.allocateStack L l s = some (frames, s') ∧ 0 ∉ frames := by
  have habove := L.above
  induction l generalizing s with
  | nil => exact ⟨[], s, rfl, List.not_mem_nil⟩
  | cons y l ih =>
    rw [List.length_cons, Nat.mul_succ] at hfree
    have hne := (boot_allocates L).succeeds (by omega) (m := s.bitmap) (by omega)
    obtain ⟨hfail, -⟩ | ⟨k, -, -, hclear, haddress, hbits⟩ := boot_allocates L s.bitmap
    · rw [hfail] at hne
      exact absurd rfl hne
    · have hcount₁ := bitCount_le hbits (32 * (Boot.getPages L / 32))
      have hcount₁' : bitCount (Boot.allocateFreePhysicalAddress L s.bitmap).2 (32 * (Boot.getPages L / 32)) ≤
          bitCount s.bitmap (32 * (Boot.getPages L / 32)) + 1 := hcount₁.trans (by split_ifs <;> omega)
      have h₁ : Sound L.kernelEnd .pml4 ⟨s.tables, (Boot.allocateFreePhysicalAddress L s.bitmap).2⟩ :=
        h.mark fun j hj => by rw [hbits, hj, Bool.or_true]
      obtain ⟨s₂, hfirst⟩ := allocate4KiB_succeeds h₁ y (Boot.allocateFreePhysicalAddress L s.bitmap).1
        (by dsimp only; omega)
      obtain ⟨h₂, hk₂, -⟩ := allocate4KiB_spec h₁ hfirst
      have hcount₂ := hk₂.count (32 * (Boot.getPages L / 32))
      dsimp only at hcount₂
      obtain ⟨frames, s', hrest, h0⟩ := ih h₂ (by omega)
      refine ⟨(Boot.allocateFreePhysicalAddress L s.bitmap).1 :: frames, s', ?_, ?_⟩
      · rw [allocateStack_cons, hfirst, Option.bind_some, hrest, Option.bind_some]
      · rw [List.mem_cons, not_or]
        exact ⟨hne.symm, h0⟩

end Runs

section Regions
variable {memory_high : ℕ}

theorem physicalMemoryMap_bounds (h : memory_high < 2 ^ 32) :
    2 ^ 30 ≤ Boot.physicalMemoryMap memory_high ∧ Boot.physicalMemoryMap memory_high % 4096 = 0 ∧
      Boot.physicalMemoryMap memory_high + memory_high + 4096 ≤ 0xfffffffffffff000 - 511 * 4096 ∧
      0xffff800000000000 ≤ Boot.physicalMemoryMap memory_high := by
  unfold Boot.physicalMemoryMap Boot.stack_pages pageSize pageOf
  omega

theorem mem_identityPages {x : ℕ × ℕ} (hx : x ∈ Boot.identityPages) :
    ∃ n < 2 ^ 18, x = (n * 4096, n * 4096) := by
  obtain ⟨n, hn, rfl⟩ := List.mem_map.mp hx
  exact ⟨n, List.mem_range.mp hn, rfl⟩

theorem mem_physicalPages (h : memory_high < 2 ^ 32) {x : ℕ × ℕ} (hx : x ∈ Boot.physicalPages memory_high) :
    ∃ n ≤ memory_high / 4096, x = (Boot.physicalMemoryMap memory_high + n * 4096, n * 4096) := by
  obtain ⟨-, -, hend, -⟩ := physicalMemoryMap_bounds h
  obtain ⟨n, hn, rfl⟩ := List.mem_map.mp hx
  have hle := Nat.lt_succ_iff.mp (List.mem_range.mp hn)
  exact ⟨n, hle, by rw [Nat.mod_eq_of_lt (by omega)]⟩

theorem mem_stackPages {x : ℕ} (hx : x ∈ Boot.stackPages) : ∃ n < 512, x = 0xfffffffffffff000 - n * 4096 := by
  obtain ⟨n, hn, rfl⟩ := List.mem_map.mp hx
  exact ⟨n, List.mem_range.mp hn, rfl⟩

theorem stackPages_length : Boot.stackPages.length = 512 := by
  rw [Boot.stackPages, List.length_map, List.length_range, Boot.stack_pages]

theorem stackPages_getElem? {n : ℕ} (hn : n < 512) :
    Boot.stackPages[n]? = some (0xfffffffffffff000 - n * 4096) := by
  rw [Boot.stackPages, List.getElem?_map, List.getElem?_range (show n < Boot.stack_pages from hn)]
  rfl

theorem nodup_identityPages : (Boot.identityPages.map fun x => pageAt x.1).Nodup := by
  unfold Boot.identityPages
  rw [List.map_map]
  refine List.Nodup.map_on (fun a ha b hb hab => ?_) List.nodup_range
  have ha' := List.mem_range.mp ha
  have hb' := List.mem_range.mp hb
  have hpage := pageAt_inj hab
  simp only [pageSize] at hpage
  omega

theorem nodup_physicalPages (h : memory_high < 2 ^ 32) :
    ((Boot.physicalPages memory_high).map fun x => pageAt x.1).Nodup := by
  obtain ⟨-, -, hend, -⟩ := physicalMemoryMap_bounds h
  unfold Boot.physicalPages
  rw [List.map_map]
  refine List.Nodup.map_on (fun a ha b hb hab => ?_) List.nodup_range
  have ha' := List.mem_range.mp ha
  have hb' := List.mem_range.mp hb
  have hpage := pageAt_inj hab
  dsimp only at hpage
  omega

theorem nodup_stackPages : (Boot.stackPages.map pageAt).Nodup := by
  unfold Boot.stackPages
  rw [List.map_map]
  refine List.Nodup.map_on (fun a ha b hb hab => ?_) List.nodup_range
  have ha' := List.mem_range.mp ha
  have hb' := List.mem_range.mp hb
  have hpage := pageAt_inj hab
  simp only [pageSize, Boot.stack_pages] at hpage ha' hb'
  omega

theorem regions_apart (h : memory_high < 2 ^ 32) :
    (∀ x ∈ Boot.identityPages, ∀ y ∈ Boot.physicalPages memory_high, pageAt y.1 ≠ pageAt x.1) ∧
      (∀ x ∈ Boot.identityPages, ∀ y ∈ Boot.stackPages, pageAt y ≠ pageAt x.1) ∧
      ∀ x ∈ Boot.physicalPages memory_high, ∀ y ∈ Boot.stackPages, pageAt y ≠ pageAt x.1 := by
  obtain ⟨-, -, hend, hhalf⟩ := physicalMemoryMap_bounds h
  refine ⟨fun x hx y hy heq => ?_, fun x hx y hy heq => ?_, fun x hx y hy heq => ?_⟩
  · obtain ⟨n, hn, rfl⟩ := mem_identityPages hx
    obtain ⟨k, hk, rfl⟩ := mem_physicalPages h hy
    have hpage := pageAt_inj heq
    dsimp only at hpage
    omega
  · obtain ⟨n, hn, rfl⟩ := mem_identityPages hx
    obtain ⟨k, hk, rfl⟩ := mem_stackPages hy
    have hpage := pageAt_inj heq
    dsimp only at hpage
    omega
  · obtain ⟨n, hn, rfl⟩ := mem_physicalPages h hx
    obtain ⟨k, hk, rfl⟩ := mem_stackPages hy
    have hpage := pageAt_inj heq
    dsimp only at hpage
    omega

end Regions

structure KernelMapped (memory_high : ℕ) (frames : List ℕ) (s : State) : Prop where
  identity : ∀ a < 2 ^ 30, a % 4096 = 0 → s.translate .pml4 (pageAt a) = some (addressToEntry a)
  physical : ∀ i ≤ memory_high, i % 4096 = 0 →
    s.translate .pml4 (pageAt (Boot.physicalMemoryMap memory_high + i)) = some (addressToEntry i)
  stack : frames.length = 512 ∧ ∀ n < 512, ∃ a, frames[n]? = some a ∧
    s.translate .pml4 (pageAt (0xfffffffffffff000 - n * 4096)) = some (addressToEntry a)
  distinct : frames.Nodup
  frame : ∀ a ∈ frames, a % 4096 = 0
  apart : ∀ a ∈ frames, Fresh nextTable s.tables .pml4 3 (.frame a)
  regions : 2 ^ 30 ≤ Boot.physicalMemoryMap memory_high ∧
    Boot.physicalMemoryMap memory_high + memory_high + 4096 ≤ 0xfffffffffffff000 - 511 * 4096
  once : ((Boot.identityPages ++ Boot.physicalPages memory_high).map (fun x => pageAt x.1) ++
    Boot.stackPages.map pageAt).Nodup

/-- With every allocation succeeding, `setup_paging` maps what the kernel relies on. -/
theorem setup_paging_maps (L : Layout) {memory_high : ℕ} (h : memory_high < 2 ^ 32) {s s' : State}
    (hpml4 : ∀ i, s.tables .pml4 i = 0) {frames : List ℕ}
    (hrun : Boot.setup_paging L memory_high s = some (frames, s')) (hsucceed : 0 ∉ frames) :
    KernelMapped memory_high frames s' := by
  have hempty : Sound L.kernelEnd .pml4 s := sound_empty fun i => by rw [hpml4 i]; exact isPresent_zero
  rw [Boot.setup_paging, Option.bind_eq_bind] at hrun
  obtain ⟨s₁, hrun₁, hrun⟩ := Option.bind_eq_some_iff.mp hrun
  obtain ⟨s₂, hrun₂, hrun₃⟩ := Option.bind_eq_some_iff.mp hrun
  obtain ⟨h₁, -, -, hmapped₁⟩ := allocateAll_spec _ hempty hrun₁
  obtain ⟨h₂, -, hothers₂, hmapped₂⟩ := allocateAll_spec _ h₁ hrun₂
  obtain ⟨h₃, hreserved, hnodup, -, hlength, hothers₃, hmapped₃⟩ :=
    allocateStack_spec _ h₂ hrun₃ hsucceed [] fun a ha => by cases ha
  obtain ⟨hlow, halign, hend, hhalf⟩ := physicalMemoryMap_bounds h
  obtain ⟨hidphys, hidstack, hphysstack⟩ := regions_apart h
  have haligned := L.aligned
  rw [List.append_nil] at hreserved
  refine ⟨fun a ha hpage => ?_, fun i hi hpage => ?_, ⟨?_, fun n hn => ?_⟩, hnodup, fun a ha => ?_,
    fun a ha => ?_, ⟨hlow, hend⟩, ?_⟩
  · have hmem : (a, a) ∈ Boot.identityPages := by
      refine List.mem_map.mpr ⟨a / 4096, List.mem_range.mpr (by omega), ?_⟩
      rw [pageSize, Nat.div_mul_cancel (Nat.dvd_of_mod_eq_zero hpage)]
    rw [hothers₃ _ fun y hy => hidstack _ hmem y hy, hothers₂ _ fun y hy => hidphys _ hmem y hy]
    exact hmapped₁ nodup_identityPages _ hmem
  · have hmem : (Boot.physicalMemoryMap memory_high + i, i) ∈ Boot.physicalPages memory_high := by
      refine List.mem_map.mpr ⟨i / 4096, List.mem_range.mpr (by omega), ?_⟩
      rw [Nat.div_mul_cancel (Nat.dvd_of_mod_eq_zero hpage), Nat.mod_eq_of_lt (by omega)]
    rw [hothers₃ _ fun y hy => hphysstack _ hmem y hy]
    exact hmapped₂ (nodup_physicalPages h) _ hmem
  · exact hlength.trans stackPages_length
  · have hlt : n < frames.length := by rw [hlength, stackPages_length]; exact hn
    have hmem : (0xfffffffffffff000 - n * 4096, frames[n]) ∈ Boot.stackPages.zip frames := by
      refine List.mem_iff_getElem?.mpr ⟨n, ?_⟩
      rw [List.getElem?_zip_eq_some]
      exact ⟨stackPages_getElem? hn, List.getElem?_eq_getElem hlt⟩
    exact ⟨frames[n], List.getElem?_eq_getElem hlt, hmapped₃ nodup_stackPages _ hmem⟩
  · obtain ⟨k, rfl, -, -⟩ := hreserved a ha
    omega
  · obtain ⟨k, -, -, hfresh⟩ := hreserved a ha
    exact hfresh
  · rw [List.map_append]
    refine List.nodup_append.mpr ⟨List.nodup_append.mpr ⟨nodup_identityPages, nodup_physicalPages h, ?_⟩,
      nodup_stackPages, ?_⟩
    · intro v hv w hw
      obtain ⟨x, hx, rfl⟩ := List.mem_map.mp hv
      obtain ⟨y, hy, rfl⟩ := List.mem_map.mp hw
      exact (hidphys x hx y hy).symm
    · intro v hv w hw
      obtain ⟨y, hy, rfl⟩ := List.mem_map.mp hw
      rcases List.mem_append.mp hv with hv | hv
      · obtain ⟨x, hx, rfl⟩ := List.mem_map.mp hv
        exact (hidstack x hx y hy).symm
      · obtain ⟨x, hx, rfl⟩ := List.mem_map.mp hv
        exact (hphysstack x hx y hy).symm

theorem setup_paging_succeeds (L : Layout) {memory_high : ℕ} (h : memory_high < 2 ^ 32) {s : State}
    (hpml4 : ∀ i, s.tables .pml4 i = 0)
    (hfree : bitCount s.bitmap (32 * (Boot.getPages L / 32)) + 2 ^ 22 ≤ 32 * (Boot.getPages L / 32)) :
    ∃ frames s', Boot.setup_paging L memory_high s = some (frames, s') ∧ 0 ∉ frames := by
  have hempty : Sound L.kernelEnd .pml4 s := sound_empty fun i => by rw [hpml4 i]; exact isPresent_zero
  have hidentity : Boot.identityPages.length = 2 ^ 18 := by
    rw [Boot.identityPages, List.length_map, List.length_range]
    norm_num
  have hphysical : (Boot.physicalPages memory_high).length ≤ 2 ^ 20 := by
    rw [Boot.physicalPages, List.length_map, List.length_range]
    omega
  obtain ⟨s₁, hrun₁⟩ := allocateAll_succeeds Boot.identityPages hempty (by omega)
  obtain ⟨h₁, hk₁, -⟩ := allocateAll_spec _ hempty hrun₁
  have hcount₁ := hk₁.count (32 * (Boot.getPages L / 32))
  obtain ⟨s₂, hrun₂⟩ := allocateAll_succeeds (Boot.physicalPages memory_high) h₁ (by omega)
  obtain ⟨h₂, hk₂, -⟩ := allocateAll_spec _ h₁ hrun₂
  have hcount₂ := hk₂.count (32 * (Boot.getPages L / 32))
  have hstack := stackPages_length
  obtain ⟨frames, s', hrun₃, h0⟩ := allocateStack_succeeds Boot.stackPages h₂ (by omega)
  refine ⟨frames, s', ?_, h0⟩
  rw [Boot.setup_paging, Option.bind_eq_bind, hrun₁, Option.bind_some, hrun₂, Option.bind_some, hrun₃]

theorem blank_room : bitCount State.blank.bitmap (32 * (Boot.getPages .sample / 32)) + 2 ^ 22 ≤
    32 * (Boot.getPages .sample / 32) := by
  have hframes : 32 * (Boot.getPages .sample / 32) = 2 ^ 24 := by
    norm_num [Boot.getPages, Layout.sample]
  have hcount : bitCount State.blank.bitmap (2 ^ 24) = 0 := marks_zero.count fun k hk => by cases hk
  rw [hframes, hcount]
  omega

/-- One gibibyte of memory, a blank state and the bitmap of `kernel.ld`. -/
theorem setup_paging_maps_gibibyte : ∃ frames s',
    Boot.setup_paging .sample (2 ^ 30) .blank = some (frames, s') ∧ KernelMapped (2 ^ 30) frames s' := by
  have hhigh : 2 ^ 30 < 2 ^ 32 := by omega
  have hpml4 : ∀ i, State.blank.tables .pml4 i = 0 := fun _ => rfl
  obtain ⟨frames, s', hrun, h0⟩ := setup_paging_succeeds .sample hhigh hpml4 blank_room
  exact ⟨frames, s', hrun, setup_paging_maps .sample hhigh hpml4 hrun h0⟩

end Thorn.Paging
