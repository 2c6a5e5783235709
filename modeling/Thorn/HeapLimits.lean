import Thorn.HeapRuns

set_option autoImplicit false

/-!
# Pages and bounds of the heap

`requestSpace` assigns pages up to the heap's end, from an address that is not
at the start of a page, and never compares the end with `high`.
-/
namespace Thorn.Heap
open ByteStore Runs Memory

def InPage (m : Memory) (i : ℕ) : Prop := ∃ y ∈ m.assigned, y / PAGE_LENGTH = i / PAGE_LENGTH

/-- After an allocation all headers and the bytes handed out lie in assigned pages. -/
def AllMapped (s : Heap) : Call → Prop
  | .allocate size => ∀ m p, s.memory.allocate size = some (m, p) → p ≠ 0 →
      (∃ l, Listed m.ram m.base l ∧ ∀ b ∈ l, ∀ i, b.addr ≤ i → i < b.addr + sizeofBlockMeta → InPage m i) ∧
        ∀ i, p ≤ i → i < p + size → InPage m i
  | _ => True

/-- New space ends past the eighth byte of a page, or before the third. -/
def EndsClear (s : Heap) : Call → Prop
  | .allocate size => size = 0 ∨ Fitting s.memory size ∨
      aligned s.memory.end_ + sizeofBlockMeta + size + 1 < 2 ^ 64 ∧
        ((aligned s.memory.end_ + sizeofBlockMeta + size + 1) % PAGE_LENGTH < 2 ∨
          8 ≤ (aligned s.memory.end_ + sizeofBlockMeta + size + 1) % PAGE_LENGTH)
  | _ => True

structure PagesKept (m : Memory) : Prop where
  next_mod : m.highestAllocated % PAGE_LENGTH = 8
  next_gt : m.end_ < m.highestAllocated
  covered : ∀ i, m.start ≤ i + 8 → i + 8 < m.highestAllocated → InPage m i
  bounded : ∀ y ∈ m.assigned, y % PAGE_LENGTH = 8 ∧ y ≤ m.end_
  clear : m.end_ % PAGE_LENGTH < 2 ∨ 8 ≤ m.end_ % PAGE_LENGTH

section Paging
variable {e x x' lo : ℕ} {as as' : List ℕ}

theorem Paged.gt (h : Paged e x as x' as') : e < x' := by
  induction h with
  | done h => exact h
  | more _ _ ih => exact ih

theorem Paged.mod (h : Paged e x as x' as') (hx : x % PAGE_LENGTH = 8) : x' % PAGE_LENGTH = 8 := by
  induction h with
  | done h => exact hx
  | more _ _ ih =>
    apply ih
    unfold PAGE_LENGTH at hx ⊢
    unfold uintptr
    omega

theorem Paged.covers (h : Paged e x as x' as') (hx : x % PAGE_LENGTH = 8)
    (hcov : ∀ i, lo ≤ i + 8 → i + 8 < x → ∃ y ∈ as, y / PAGE_LENGTH = i / PAGE_LENGTH) (i : ℕ)
    (hlo : lo ≤ i + 8)
    (hi : i + 8 < x') : ∃ y ∈ as', y / PAGE_LENGTH = i / PAGE_LENGTH := by
  induction h with
  | done h => exact hcov i hlo hi
  | @more x _ as _ _ _ ih =>
    have hmod : uintptr (x + PAGE_LENGTH) % PAGE_LENGTH = 8 := by
      unfold PAGE_LENGTH at hx ⊢
      unfold uintptr
      omega
    refine ih hmod (fun j hj hjx => ?_) hi
    by_cases hold : j + 8 < x
    · obtain ⟨y, hy, he⟩ := hcov j hj hold
      exact ⟨y, List.mem_cons_of_mem _ hy, he⟩
    · refine ⟨x, List.mem_cons_self, ?_⟩
      have hle := Nat.mod_le (x + PAGE_LENGTH) (2 ^ 64)
      unfold uintptr at hjx
      unfold PAGE_LENGTH at hx hjx hle ⊢
      omega

theorem Paged.bounded (h : Paged e x as x' as') (hx : x % PAGE_LENGTH = 8)
    (has : ∀ y ∈ as, y % PAGE_LENGTH = 8 ∧ y ≤ e) : ∀ y ∈ as', y % PAGE_LENGTH = 8 ∧ y ≤ e := by
  induction h with
  | done h => exact has
  | more hle _ ih =>
    refine ih ?_ (List.forall_mem_cons.mpr ⟨⟨hx, hle⟩, has⟩)
    unfold PAGE_LENGTH at hx ⊢
    unfold uintptr
    omega

theorem assignPages_returns (fuel : ℕ) {m : Memory} (hfuel : m.end_ < m.highestAllocated + PAGE_LENGTH * fuel)
    (hlast : ∀ y, y ≤ m.end_ → y % PAGE_LENGTH = m.highestAllocated % PAGE_LENGTH → y + PAGE_LENGTH < 2 ^ 64) :
    ∃ m', assignPages (fuel + 1) m = some m' := by
  induction fuel generalizing m with
  | zero =>
    refine ⟨m, ?_⟩
    unfold assignPages
    rw [if_neg (by omega)]
  | succ fuel ih =>
    unfold assignPages
    split
    · rename_i hle
      have hwide : uintptr (m.highestAllocated + PAGE_LENGTH) = m.highestAllocated + PAGE_LENGTH :=
        Nat.mod_eq_of_lt (hlast _ hle rfl)
      apply ih
      · dsimp only
        rw [hwide]
        unfold PAGE_LENGTH at hfuel ⊢
        omega
      · dsimp only
        rw [hwide, Nat.add_mod_right]
        exact hlast
    · exact ⟨m, rfl⟩

theorem requestSpace_returns {m : Memory} {last size : ℕ}
    (hlast : ∀ y, y ≤ uintptr (realign m.end_ + size + sizeofBlockMeta + 1) →
      y % PAGE_LENGTH = m.highestAllocated % PAGE_LENGTH → y + PAGE_LENGTH < 2 ^ 64) :
    ∃ m' block, m.requestSpace last size = some (m', block) := by
  have hlt : uintptr (realign m.end_ + size + sizeofBlockMeta + 1) < 2 ^ 64 := Nat.mod_lt _ (by decide)
  have hfuel : uintptr (realign m.end_ + size + sizeofBlockMeta + 1) <
      m.highestAllocated + PAGE_LENGTH * 2 ^ 52 := by
    unfold PAGE_LENGTH
    omega
  obtain ⟨m', hm'⟩ := assignPages_returns (2 ^ 52)
    (m := { m with
      ram := if last ≠ 0 then setNext m.ram last (realign m.end_) else m.ram
      end_ := uintptr (realign m.end_ + size + sizeofBlockMeta + 1) }) hfuel hlast
  unfold requestSpace
  dsimp only
  rw [hm']
  exact ⟨_, _, rfl⟩

end Paging

section Returns
variable {m : Memory} {l : List Block} {live : List (ℕ × ℕ)}

theorem allocate_returns (size : ℕ) (hk : Kept m l live)
    (hroom : Fitting m size ∨ ∀ y, y ≤ uintptr (realign m.end_ + size + sizeofBlockMeta + 1) →
      y % PAGE_LENGTH = m.highestAllocated % PAGE_LENGTH → y + PAGE_LENGTH < 2 ^ 64) :
    ∃ r, m.allocate size = some r := by
  have hlen := hk.length_lt
  have hgrow : ∀ last, (∀ b ∈ l, ¬b.Fits size) → ∃ m' block, m.requestSpace last size = some (m', block) := by
    intro last hno
    rcases hroom with hfit | hroom
    · exact absurd hfit (hk.not_fitting hno)
    · exact requestSpace_returns hroom
  unfold allocate
  split
  · exact ⟨_, rfl⟩
  · split
    · rename_i hbase
      obtain rfl : l = [] := by
        cases l with
        | nil => rfl
        | cons b l => exact absurd hbase hk.listed.2.1
      obtain ⟨m', block, hreq⟩ := hgrow 0 fun b hb => by cases hb
      rw [hreq]
      dsimp only
      split <;> exact ⟨_, rfl⟩
    · rcases first_fit size l with hno | ⟨pre, b, post, rfl, hno, hb⟩
      · rw [findFreeBlock_none hk.listed hlen hno]
        dsimp only
        rw [if_pos rfl]
        obtain ⟨m', block, hreq⟩ := hgrow ((l.getLast?.map Block.addr).getD m.base) hno
        rw [hreq]
        dsimp only
        split <;> exact ⟨_, rfl⟩
      · rw [List.length_append] at hlen
        obtain ⟨z, hz⟩ := findFreeBlock_some m.base hk.listed (show pre.length < 2 ^ 64 by omega) hno hb
        rw [hz]
        dsimp only
        rw [if_neg (hk.listed.header_of_mem (b := b) (by simp)).1]
        exact ⟨_, rfl⟩

end Returns

section Pages
variable {s : Heap} {m m' : Memory} {l l' : List Block} {live : List (ℕ × ℕ)} {size p : ℕ} {b : Block} {c : Call}

theorem pages_fresh {new_start : ℕ} (hstart : new_start < 2 ^ 64) (hpage : new_start % PAGE_LENGTH = 0)
    (new_high : ℕ) (ram : Store) : PagesKept (fresh new_start new_high ram).memory := by
  have hat : realign new_start = new_start + 8 := by
    unfold PAGE_LENGTH at hpage
    unfold realign uintptr sizeofBlockMeta MEMORY_ALIGN
    dsimp only
    split <;> omega
  unfold PAGE_LENGTH at hpage
  constructor
  · change realign new_start % PAGE_LENGTH = 8
    rw [hat]
    unfold PAGE_LENGTH
    omega
  · change new_start < realign new_start
    omega
  · intro i h₁ h₂
    change realign new_start ≤ i + 8 at h₁
    change i + 8 < realign new_start at h₂
    omega
  · intro y hy
    cases hy
  · change new_start % PAGE_LENGTH < 2 ∨ 8 ≤ new_start % PAGE_LENGTH
    unfold PAGE_LENGTH
    omega

theorem PagesKept.inPage (hp : PagesKept m) (hk : Kept m l live) (hb : b ∈ l) {i : ℕ} (h₁ : b.addr ≤ i)
    (h₂ : i < b.stop) : InPage m i := by
  obtain ⟨hlo, -, hstop⟩ := hk.sound.within.of_mem hb
  have hmod := hp.next_mod
  have hgt := hp.next_gt
  have hclear := hp.clear
  apply hp.covered i (by omega)
  unfold reach at hstop
  unfold Block.stop sizeofBlockMeta at hstop h₂
  unfold PAGE_LENGTH at hmod hclear
  omega

theorem Allocated.pagesKept (hp : PagesKept m) (h : Allocated m l size m' p b l')
    (hclear : m'.end_ % PAGE_LENGTH < 2 ∨ 8 ≤ m'.end_ % PAGE_LENGTH) : PagesKept m' := by
  rcases h.pages with ⟨-, hend, hnext, has⟩ | ⟨-, hend, hpaged⟩
  · constructor
    · rw [hnext]
      exact hp.next_mod
    · rw [hnext, hend]
      exact hp.next_gt
    · unfold InPage
      rw [hnext, h.start_eq, has]
      exact hp.covered
    · rw [has, hend]
      exact hp.bounded
    · exact hclear
  · have hge := aligned_ge m.end_
    refine ⟨hpaged.mod hp.next_mod, hpaged.gt, ?_, ?_, hclear⟩
    · rw [h.start_eq]
      exact hpaged.covers hp.next_mod hp.covered
    · exact hpaged.bounded hp.next_mod fun y hy =>
        ⟨(hp.bounded y hy).1, by have hle := (hp.bounded y hy).2; omega⟩

theorem pages_next (hs : ∃ l, Kept s.memory l s.live ∧ PagesKept s.memory) (hc : Proper s c ∧ c.Roomy s)
    (hclear : EndsClear s c) : ∃ l, Kept (s.next c).memory l (s.next c).live ∧ PagesKept (s.next c).memory := by
  obtain ⟨l, hk, hp⟩ := hs
  obtain ⟨l', hk'⟩ := next_kept ⟨l, hk⟩ hc.1 hc.2
  refine ⟨l', hk', ?_⟩
  cases c with
  | allocate size =>
    rcases allocate_cases hk hc.2 with ⟨he, -⟩ | ⟨h0, m', p, b, l', -, -, he, hdone⟩
    · rw [he]
      exact hp
    · rw [he]
      apply hdone.pagesKept hp
      rcases hdone.pages with ⟨-, hend, -, -⟩ | ⟨hno, hend, -⟩
      · rw [hend]
        exact hp.clear
      · rw [hend]
        rcases hclear with hz | hfit | ⟨-, hclear⟩
        · exact absurd hz h0
        · exact absurd hfit hno
        · exact hclear
  | free ptr =>
    obtain ⟨n, hn⟩ := hc.1
    obtain ⟨b, m', l', -, -, -, hcall, hdone⟩ := free_spec hk hn
    rw [next_free hcall, hdone.same]
    exact ⟨hp.next_mod, hp.next_gt, hp.covered, hp.bounded, hp.clear⟩
  | store addr value => exact ⟨hp.next_mod, hp.next_gt, hp.covered, hp.bounded, hp.clear⟩

/-- New space that ends within the first bytes of a page leaves that page out. -/
theorem last_byte_unmapped (hp : PagesKept m) (h : Allocated m l size m' p b l') (h0 : size ≠ 0)
    (hno : ¬Fitting m size) (hlow : 2 ≤ (aligned m.end_ + sizeofBlockMeta + size + 1) % PAGE_LENGTH)
    (hhigh : (aligned m.end_ + sizeofBlockMeta + size + 1) % PAGE_LENGTH < 8) :
    ¬∀ i, p ≤ i → i < p + size → InPage m' i := by
  intro hall
  rcases h.pages with ⟨hfit, -⟩ | ⟨-, hend, hpaged⟩
  · exact hno hfit
  · have hge := aligned_ge m.end_
    have haddr := h.placed.addr_of_grown (by omega)
    have hres := h.result
    obtain ⟨y, hy, he⟩ := hall (aligned m.end_ + sizeofBlockMeta + size - 1) (by omega) (by omega)
    obtain ⟨hmod, hle⟩ := hpaged.bounded hp.next_mod (fun z hz => ⟨(hp.bounded z hz).1, by
      have hz := (hp.bounded z hz).2
      omega⟩) y hy
    rw [hend] at hle
    unfold PAGE_LENGTH at hlow hhigh he hmod
    omega

theorem mapped_of_clear (hs : ∃ l, Kept s.memory l s.live ∧ PagesKept s.memory) (hc : Proper s c ∧ c.Roomy s) :
    AllMapped s c ↔ EndsClear s c := by
  constructor
  · intro hall
    obtain ⟨l, hk, hp⟩ := hs
    cases c with
    | allocate size =>
      by_contra hnot
      have h0 : size ≠ 0 := fun h => hnot (.inl h)
      have hno : ¬Fitting s.memory size := fun h => hnot (.inr (.inl h))
      have hroom : aligned s.memory.end_ + sizeofBlockMeta + size + 1 < 2 ^ 64 := by
        rcases hc.2 with hz | hfit | hroom
        · exact absurd hz h0
        · exact absurd hfit hno
        · exact hroom
      obtain ⟨hlow, hhigh⟩ := not_or.mp fun h => hnot (.inr (.inr ⟨hroom, h⟩))
      have hend := (request_end hroom).2
      obtain ⟨⟨m', p⟩, hcall⟩ := allocate_returns size hk (.inr fun y hy hmod => by
        rw [hend] at hy
        rw [hp.next_mod] at hmod
        unfold PAGE_LENGTH at hmod hlow hhigh ⊢
        omega)
      obtain ⟨b, l', hdone⟩ := allocate_spec hk h0 hc.2 hcall
      refine last_byte_unmapped hp hdone h0 hno (Nat.le_of_not_lt hlow) (Nat.lt_of_not_le hhigh)
        (hall m' p hcall ?_).2
      rw [hdone.result]
      unfold sizeofBlockMeta
      omega
    | free ptr => trivial
    | store addr value => trivial
  · intro hclear
    have hs' := pages_next hs hc hclear
    obtain ⟨l, hk, -⟩ := hs
    cases c with
    | allocate size =>
      intro m' p hcall hp0
      rcases allocate_cases hk hc.2 with ⟨-, hz | hnone⟩ | ⟨-, m₁, p₁, b, l', hcall', -, he, hdone⟩
      · subst hz
        cases hcall
        exact absurd rfl hp0
      · rw [hcall] at hnone
        cases hnone
      · obtain ⟨rfl, rfl⟩ : m' = m₁ ∧ p = p₁ := by
          rw [hcall] at hcall'
          cases hcall'
          exact ⟨rfl, rfl⟩
        obtain ⟨-, -, hp'⟩ := hs'
        rw [he] at hp'
        have hk' := hdone.kept hk
        obtain ⟨hmem, -, hsize⟩ := hdone.placed.holds
        refine ⟨⟨l', hk'.listed, fun c hc i h₁ h₂ => hp'.inPage hk' hc h₁ ?_⟩,
          fun i h₁ h₂ => hp'.inPage hk' hmem ?_ ?_⟩
        · unfold Block.stop
          omega
        · rw [hdone.result] at h₁
          omega
        · rw [hdone.result] at h₂
          unfold Block.stop
          omega
    | free ptr => trivial
    | store addr value => trivial

theorem EndsClear.roomy (h : EndsClear s c) : c.Roomy s := by
  cases c with
  | allocate size => exact h.imp_right fun h => h.imp_right And.left
  | free ptr => trivial
  | store addr value => trivial

end Pages

/-- All bytes in use are mapped after every allocation when no new space ends
within the third to eighth byte of a page, and only then. -/
theorem mapped_iff {new_start : ℕ} (hstart : new_start < 2 ^ 64) (hpage : new_start % PAGE_LENGTH = 0)
    (new_high : ℕ)
    (ram : Store) {calls : List Call} (hproper : Throughout next Proper (fresh new_start new_high ram) calls) :
    (Throughout next EndsClear (fresh new_start new_high ram) calls →
        Throughout next AllMapped (fresh new_start new_high ram) calls) ∧
      (Throughout next (fun s c => c.Roomy s) (fresh new_start new_high ram) calls →
        Throughout next AllMapped (fresh new_start new_high ram) calls →
        Throughout next EndsClear (fresh new_start new_high ram) calls) := by
  have hiff := fun hroom => throughout_iff (P := AllMapped) (C := EndsClear)
    ⟨[], kept_fresh hstart new_high ram, pages_fresh hstart hpage new_high ram⟩
    (fun _ _ hs hc hclear => pages_next hs hc hclear) (fun _ _ hs hc => mapped_of_clear hs hc)
    (throughout_and.mpr ⟨hproper, hroom⟩)
  constructor
  · intro hclear
    exact (hiff (hclear.imp fun _ _ h => h.roomy)).mpr hclear
  · exact fun hroom hall => (hiff hroom).mp hall

theorem proper_one (s : Heap) (size : ℕ) : Throughout next Proper s [.allocate size] :=
  throughout_cons.mpr ⟨trivial, throughout_nil⟩

def mappedRun : List Call := [.allocate 1000, .allocate 100, .free 0xfffff00000000020, .allocate 900, .allocate 4000]

theorem mappedRun_proper :
    Throughout next Proper (fresh 0xfffff00000000000 0xfffff00100000000 fun _ => 0) mappedRun :=
  throughout_cons.mpr ⟨trivial, throughout_cons.mpr ⟨trivial, throughout_cons.mpr ⟨⟨1000, by decide +kernel⟩,
    throughout_cons.mpr ⟨trivial, throughout_cons.mpr ⟨trivial, throughout_nil⟩⟩⟩⟩⟩

theorem mapped_run :
    Throughout next AllMapped (fresh 0xfffff00000000000 0xfffff00100000000 fun _ => 0) mappedRun :=
  (mapped_iff (by decide) (by decide) _ _ mappedRun_proper).1
    (throughout_cons.mpr ⟨.inr (.inr (by decide)), throughout_cons.mpr ⟨.inr (.inr (by decide +kernel)),
      throughout_cons.mpr ⟨trivial, throughout_cons.mpr ⟨.inr (.inr (by decide +kernel)),
      throughout_cons.mpr ⟨.inr (.inr (by decide +kernel)), throughout_nil⟩⟩⟩⟩⟩)

/-- A first request of 4065 bytes has its last byte in a page never assigned. -/
theorem last_byte_lost :
    Throughout next Proper (fresh 0xfffff00000000000 0xfffff00100000000 fun _ => 0) [.allocate 4065] ∧
      ¬Throughout next AllMapped (fresh 0xfffff00000000000 0xfffff00100000000 fun _ => 0) [.allocate 4065] := by
  refine ⟨proper_one _ _, fun hall => ?_⟩
  have hkept := kept_fresh (show 0xfffff00000000000 < 2 ^ 64 by decide) 0xfffff00100000000 fun _ => 0
  have hpages :=
    pages_fresh (show 0xfffff00000000000 < 2 ^ 64 by decide) (by decide) 0xfffff00100000000 fun _ => 0
  have hroom : Call.Roomy (fresh 0xfffff00000000000 0xfffff00100000000 fun _ => 0) (.allocate 4065) :=
    .inr (.inr (by decide))
  have hclear :=
    (mapped_of_clear (c := .allocate 4065) ⟨[], hkept, hpages⟩ ⟨trivial, hroom⟩).mp (throughout_cons.mp hall).1
  rcases hclear with hz | hfit | ⟨-, hend⟩
  · cases hz
  · exact hkept.not_fitting (fun b hb => by cases hb) hfit
  · revert hend
    decide

section Bounds
variable {s : Heap} {m m' : Memory} {l l' : List Block} {live : List (ℕ × ℕ)} {size p new_start new_high : ℕ}
  {b : Block}
  {c : Call}

def Space (new_high : ℕ) (m : Memory) (size : ℕ) : Prop := aligned m.end_ + sizeofBlockMeta + size ≤ new_high

/-- What is handed out lies within the bounds, and a request there is no room for
is refused with everything unchanged. -/
def Bounded (new_start new_high : ℕ) (s : Heap) : Call → Prop
  | .allocate size =>
    (∀ m p, s.memory.allocate size = some (m, p) → p ≠ 0 → new_start ≤ p ∧ p + size ≤ new_high) ∧
      (¬Fitting s.memory size ∧ ¬Space new_high s.memory size →
        ∃ m, s.memory.allocate size = some (m, 0) ∧ (∀ l, Listed m.ram m.base l ↔ Listed s.memory.ram s.memory.base l) ∧
          m.end_ = s.memory.end_ ∧ m.allocated = s.memory.allocated)
  | _ => True

/-- There is room for the request on the list or below `new_high`. -/
def Spacious (new_high : ℕ) (s : Heap) : Call → Prop
  | .allocate size => size = 0 ∨ Fitting s.memory size ∨
      Space new_high s.memory size ∧ aligned s.memory.end_ + sizeofBlockMeta + size + 1 < 2 ^ 64
  | _ => True

structure EndKept (new_start new_high : ℕ) (m : Memory) : Prop where
  empty : m.base = 0 → m.end_ = new_start ∧ m.start = realign new_start
  filled : m.base ≠ 0 → new_start ≤ m.start ∧ m.end_ ≤ new_high + 1

theorem Allocated.base_ne (h : Allocated m l size m' p b l') : m'.base ≠ 0 := by
  have hlisted := h.listed
  have hmem := h.placed.holds.1
  cases l' with
  | nil => cases hmem
  | cons c l' => exact hlisted.2.1

theorem Fitting.base_ne (h : Fitting m size) : m.base ≠ 0 := by
  obtain ⟨l, hl, b, hb, -⟩ := h
  cases l with
  | nil => cases hb
  | cons c l => exact hl.2.1

theorem Allocated.endKept (he : EndKept new_start new_high m) (h : Allocated m l size m' p b l') (h0 : size ≠ 0)
    (hc : size = 0 ∨ Fitting m size ∨ Space new_high m size ∧ aligned m.end_ + sizeofBlockMeta + size + 1 < 2 ^ 64) :
    EndKept new_start new_high m' := by
  refine ⟨fun hb => absurd hb h.base_ne, fun _ => ?_⟩
  rw [h.start_eq]
  rcases h.pages with ⟨hfit, hend, -⟩ | ⟨hno, hend, -⟩
  · rw [hend]
    exact he.filled hfit.base_ne
  · have hspace : Space new_high m size ∧ aligned m.end_ + sizeofBlockMeta + size + 1 < 2 ^ 64 := by
      rcases hc with hz | hfit | hspace
      · exact absurd hz h0
      · exact absurd hfit hno
      · exact hspace
    refine ⟨?_, by rw [hend]; exact Nat.add_le_add_right hspace.1 1⟩
    by_cases hb : m.base = 0
    · obtain ⟨hnew, hstart⟩ := he.empty hb
      rw [hstart, ← hnew, (request_end hspace.2).1]
      exact aligned_ge _
    · exact (he.filled hb).1

theorem endKept_next (hs : ∃ l, Kept s.memory l s.live ∧ EndKept new_start new_high s.memory)
    (hc : Proper s c ∧ c.Roomy s) (hspace : Spacious new_high s c) :
    ∃ l, Kept (s.next c).memory l (s.next c).live ∧ EndKept new_start new_high (s.next c).memory := by
  obtain ⟨l, hk, he⟩ := hs
  obtain ⟨l', hk'⟩ := next_kept ⟨l, hk⟩ hc.1 hc.2
  refine ⟨l', hk', ?_⟩
  cases c with
  | allocate size =>
    rcases allocate_cases hk hc.2 with ⟨hn, -⟩ | ⟨h0, m', p, b, l', -, -, hn, hdone⟩
    · rw [hn]
      exact he
    · rw [hn]
      exact hdone.endKept he h0 hspace
  | free ptr =>
    obtain ⟨n, hn⟩ := hc.1
    obtain ⟨b, m', l', -, -, -, hcall, hdone⟩ := free_spec hk hn
    rw [next_free hcall, hdone.same]
    exact ⟨he.empty, he.filled⟩
  | store addr value => exact ⟨he.empty, he.filled⟩

theorem bounded_of_spacious (hs : ∃ l, Kept s.memory l s.live ∧ EndKept new_start new_high s.memory)
    (hc : Proper s c ∧ c.Roomy s) : Bounded new_start new_high s c ↔ Spacious new_high s c := by
  obtain ⟨l, hk, he⟩ := hs
  cases c with
  | free ptr => exact iff_of_true trivial trivial
  | store addr value => exact iff_of_true trivial trivial
  | allocate size =>
    constructor
    · rintro ⟨-, hrefused⟩
      by_contra hnot
      have h0 : size ≠ 0 := fun h => hnot (.inl h)
      have hno : ¬Fitting s.memory size := fun h => hnot (.inr (.inl h))
      have hroom : aligned s.memory.end_ + sizeofBlockMeta + size + 1 < 2 ^ 64 := by
        rcases hc.2 with hz | hfit | hroom
        · exact absurd hz h0
        · exact absurd hfit hno
        · exact hroom
      obtain ⟨m', hcall, -⟩ := hrefused ⟨hno, fun h => hnot (.inr (.inr ⟨h, hroom⟩))⟩
      obtain ⟨b, l', hdone⟩ := allocate_spec hk h0 hc.2 hcall
      have hres := hdone.result
      unfold sizeofBlockMeta at hres
      omega
    · intro hspace
      refine ⟨fun m₁ p₁ hcall hp => ?_, fun ⟨hno, hfull⟩ => ?_⟩
      · rcases allocate_cases hk hc.2 with ⟨-, hz | hnone⟩ | ⟨h0, m', p, b, l', hcall', -, -, hdone⟩
        · subst hz
          cases hcall
          exact absurd rfl hp
        · rw [hcall] at hnone
          cases hnone
        · rw [hcall] at hcall'
          cases hcall'
          have hk' := hdone.kept hk
          obtain ⟨hmem, -, hsize⟩ := hdone.placed.holds
          obtain ⟨hstart, hend⟩ := (hdone.endKept he h0 hspace).filled hdone.base_ne
          have hlo := (hk'.sound.within.of_mem hmem).1
          have hstop := hk'.stop_lt hmem
          rw [hdone.result]
          unfold Block.stop at hstop
          omega
      · rcases hspace with rfl | hfit | ⟨hspace, -⟩
        · exact ⟨s.memory, rfl, fun _ => Iff.rfl, rfl, rfl⟩
        · exact absurd hfit hno
        · exact absurd hspace hfull

theorem Spacious.roomy (h : Spacious new_high s c) : c.Roomy s := by
  cases c with
  | allocate size => exact h.imp_right fun h => h.imp_right And.right
  | free ptr => trivial
  | store addr value => trivial

end Bounds

/-- The bounds are respected by every call of a run when there is room for every
request, and only then. -/
theorem bounded_iff {new_start : ℕ} (hstart : new_start < 2 ^ 64) (new_high : ℕ)
    (ram : Store) {calls : List Call} (hproper : Throughout next Proper (fresh new_start new_high ram) calls) :
    (Throughout next (Spacious new_high) (fresh new_start new_high ram) calls →
        Throughout next (Bounded new_start new_high) (fresh new_start new_high ram) calls) ∧
      (Throughout next (fun s c => c.Roomy s) (fresh new_start new_high ram) calls →
        Throughout next (Bounded new_start new_high) (fresh new_start new_high ram) calls →
        Throughout next (Spacious new_high) (fresh new_start new_high ram) calls) := by
  have hiff := fun hroom => throughout_iff (P := Bounded new_start new_high) (C := Spacious new_high)
    ⟨[], kept_fresh hstart new_high ram, ⟨fun _ => ⟨rfl, rfl⟩, fun hb => absurd rfl hb⟩⟩
    (fun _ _ hs hc hspace => endKept_next hs hc hspace) (fun _ _ hs hc => bounded_of_spacious hs hc)
    (throughout_and.mpr ⟨hproper, hroom⟩)
  constructor
  · intro hspace
    exact (hiff (hspace.imp fun _ _ h => h.roomy)).mpr hspace
  · exact fun hroom hall => (hiff hroom).mp hall

theorem bounded_run :
    Throughout next (Bounded 4096 8192) (fresh 4096 8192 fun _ => 0) (sampleRun ++ [.allocate 100]) :=
  (bounded_iff (by decide) _ _ (sampleRun_split.imp fun _ _ h => h.1)).1
    (throughout_cons.mpr ⟨.inr (.inr ⟨by unfold Space; decide, by decide⟩),
      throughout_cons.mpr ⟨.inr (.inr ⟨by unfold Space; decide +kernel, by decide +kernel⟩),
      throughout_cons.mpr ⟨trivial, throughout_cons.mpr ⟨trivial,
      throughout_cons.mpr ⟨.inr (.inr ⟨by unfold Space; decide +kernel, by decide +kernel⟩), throughout_nil⟩⟩⟩⟩⟩)

/-- A heap of one page hands out two. -/
theorem high_passed :
    Throughout next Proper (fresh 4096 8192 fun _ => 0) [.allocate 8192] ∧
      ¬Throughout next (Bounded 4096 8192) (fresh 4096 8192 fun _ => 0) [.allocate 8192] := by
  refine ⟨proper_one _ _, fun hall => ?_⟩
  have hkept := kept_fresh (show 4096 < 2 ^ 64 by decide) 8192 fun _ => 0
  have hends : EndKept 4096 8192 (fresh 4096 8192 fun _ => 0).memory :=
    ⟨fun _ => ⟨rfl, rfl⟩, fun hb => absurd rfl hb⟩
  have hroom : Call.Roomy (fresh 4096 8192 fun _ => 0) (.allocate 8192) := .inr (.inr (by decide))
  have hspace :=
    (bounded_of_spacious (c := .allocate 8192) ⟨[], hkept, hends⟩ ⟨trivial, hroom⟩).mp
    (throughout_cons.mp hall).1
  rcases hspace with hz | hfit | ⟨hspace, -⟩
  · cases hz
  · exact hkept.not_fitting (fun b hb => by cases hb) hfit
  · unfold Space at hspace
    revert hspace
    decide

end Thorn.Heap
