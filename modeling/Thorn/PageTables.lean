import Thorn.PageFrames
import Thorn.Library.Radix

set_option autoImplicit false

namespace Thorn.Paging
open ByteStore Radix

def MMU_PRESENT : ℕ := 1
def MMU_WRITABLE : ℕ := 2
def MMU_PDE_TWO_MB : ℕ := 128

def isPresent (entry : ℕ) : Bool := entry &&& MMU_PRESENT ≠ 0

def addressToEntry (address : ℕ) : ℕ := pageOf address ||| MMU_PRESENT ||| MMU_WRITABLE

/-- The kernel's own `pml4`, or the page at a physical address. -/
inductive Table
  | pml4
  | frame (address : ℕ)
deriving DecidableEq

structure State where
  tables : Table → Fin 512 → ℕ
  bitmap : Store

def nextTable (entry : ℕ) : Option Table := if isPresent entry then some (.frame (pageOf entry)) else none

structure Page where
  pml4 : Fin 512
  pdpt : Fin 512
  pdt : Fin 512
  pt : Fin 512
deriving DecidableEq

def Page.path (v : Page) : List (Fin 512) := [v.pml4, v.pdpt, v.pdt]

/-- The entry that translates a page; the 2 MiB flag is left to `Sound`. -/
def State.translate (s : State) (root : Table) (v : Page) : Option ℕ :=
  lookup nextTable s.tables root v.path v.pt

/-- `if (!isPresent(table[index]))` a page is allocated for a new table, entered and
cleared; the kernel halts when there is none. Returns `table[index] & ~0xfff`. -/
def descend (allocate : Store → ℕ × Store) (table : Table) (index : Fin 512) (s : State) : Option (ℕ × State) :=
  if isPresent (s.tables table index) then some (pageOf (s.tables table index), s)
  else
    let (free_addr, bitmap) := allocate s.bitmap
    if free_addr = 0 then none
    else
      let tables := clear 0 (store s.tables table index (addressToEntry free_addr)) (.frame free_addr)
      some (pageOf (tables table index), ⟨tables, bitmap⟩)

/-- Every table in the tree is a used frame, none is named twice, and no entry of
the upper levels maps a large page. -/
structure Sound (base : ℕ) (root : Table) (s : State) : Prop where
  tree : Tree nextTable s.tables root 3
  used : ∀ q t, q.length ≤ 3 → walk nextTable s.tables root q = some t →
    t = .pml4 ∨ ∃ k, t = .frame (base + 4096 * k) ∧ bitAt s.bitmap k = true ∧ base + 4096 * k < 2 ^ 47
  small : ∀ q t i, q.length ≤ 2 → walk nextTable s.tables root q = some t → isPresent (s.tables t i) = true →
    s.tables t i &&& MMU_PDE_TWO_MB = 0

def State.blank : State := ⟨fun _ _ => 0, fun _ => 0⟩

theorem sound_empty {base : ℕ} {s : State} (h : ∀ i, isPresent (s.tables .pml4 i) = false) :
    Sound base .pml4 s := by
  have hwalk : ∀ q t, walk nextTable s.tables .pml4 q = some t → q = [] ∧ t = .pml4 := by
    intro q t hw
    cases q with
    | nil => exact ⟨rfl, (Option.some.inj hw).symm⟩
    | cons i q =>
      have hnone : nextTable (s.tables .pml4 i) = none := by rw [nextTable, h i]; rfl
      rw [walk, hnone] at hw
      cases hw
  refine ⟨fun _ _ h₁ h₂ => (hwalk _ _ h₁).1.trans (hwalk _ _ h₂).1.symm, fun q t _ hw => .inl (hwalk q t hw).2,
    fun q t i _ hw hp => ?_⟩
  rw [(hwalk q t hw).2, h i] at hp
  cases hp

section Entries

theorem isPresent_iff (entry : ℕ) : isPresent entry = true ↔ entry % 2 = 1 := by
  rw [isPresent, decide_eq_true_iff, MMU_PRESENT, Nat.and_one_is_mod]
  omega

theorem isPresent_zero : isPresent 0 = false := rfl

theorem nextTable_zero : nextTable 0 = none := rfl

theorem nextTable_eq_none {entry : ℕ} : nextTable entry = none ↔ isPresent entry = false := by
  unfold nextTable
  split_ifs with h <;> simp [h]

theorem nextTable_of_present {entry : ℕ} (h : isPresent entry = true) :
    nextTable entry = some (.frame (pageOf entry)) :=
  if_pos h

theorem page_or {address flags : ℕ} (haligned : address % 4096 = 0) (hflags : flags < 4096) :
    address ||| flags = address + flags := by
  have hdiv : address = 2 ^ 12 * (address / 4096) := by omega
  rw [hdiv]
  exact (Nat.two_pow_add_eq_or_of_lt (show flags < 2 ^ 12 from hflags) _).symm

theorem pageOf_aligned {address : ℕ} (haligned : address % 4096 = 0) : pageOf address = address := by
  unfold pageOf
  omega

theorem addressToEntry_aligned {address : ℕ} (haligned : address % 4096 = 0) :
    addressToEntry address = address + 3 := by
  rw [addressToEntry, pageOf_aligned haligned, Nat.or_assoc, show MMU_PRESENT ||| MMU_WRITABLE = 3 from rfl]
  exact page_or haligned (by omega)

theorem isPresent_addressToEntry {address : ℕ} (haligned : address % 4096 = 0) :
    isPresent (addressToEntry address) = true := by
  rw [isPresent_iff, addressToEntry_aligned haligned]
  omega

theorem pageOf_addressToEntry {address : ℕ} (haligned : address % 4096 = 0) :
    pageOf (addressToEntry address) = address := by
  rw [addressToEntry_aligned haligned, pageOf]
  omega

theorem nextTable_addressToEntry {address : ℕ} (haligned : address % 4096 = 0) :
    nextTable (addressToEntry address) = some (.frame address) := by
  rw [nextTable_of_present (isPresent_addressToEntry haligned), pageOf_addressToEntry haligned]

theorem addressToEntry_small {address : ℕ} (haligned : address % 4096 = 0) :
    addressToEntry address &&& MMU_PDE_TWO_MB = 0 := by
  have hand : (address + 3) &&& 2 ^ 7 = 0 := by
    rw [Nat.and_two_pow, Nat.testBit, Nat.shiftRight_eq_div_pow]
    have hbit : 1 &&& (address + 3) / 2 ^ 7 = 0 := by
      rw [Nat.and_comm, Nat.and_one_is_mod]
      omega
    rw [hbit]
    rfl
  rw [addressToEntry_aligned haligned]
  exact hand

end Entries

/-- What an allocation for the tables may do: walks and translations stay, marks
stay, a marked page does not become a table, and at most `n` bits are set. -/
structure Extends (base : ℕ) (root : Table) (n : ℕ) (s s' : State) : Prop where
  walks : ∀ q t, q.length ≤ 3 → walk nextTable s.tables root q = some t → walk nextTable s'.tables root q = some t
  translate : ∀ v, s'.translate root v = s.translate root v
  marks : ∀ k, bitAt s.bitmap k = true → bitAt s'.bitmap k = true
  spared : ∀ k, bitAt s.bitmap k = true → Fresh nextTable s.tables root 3 (.frame (base + 4096 * k)) →
    Fresh nextTable s'.tables root 3 (.frame (base + 4096 * k))
  count : ∀ bound, bitCount s'.bitmap bound ≤ bitCount s.bitmap bound + n

section Extends
variable {base n n' : ℕ} {root : Table} {s s' s'' : State}

theorem Extends.refl (base : ℕ) (root : Table) (s : State) : Extends base root 0 s s :=
  ⟨fun _ _ _ h => h, fun _ => rfl, fun _ h => h, fun _ _ h => h, fun _ => le_rfl⟩

theorem Extends.trans (h : Extends base root n s s') (h' : Extends base root n' s' s'') :
    Extends base root (n + n') s s'' :=
  ⟨fun q t hq hw => h'.walks q t hq (h.walks q t hq hw), fun v => (h'.translate v).trans (h.translate v),
    fun k hk => h'.marks k (h.marks k hk), fun k hk hf => h'.spared k (h.marks k hk) (h.spared k hk hf), fun bound => by
      have := h.count bound
      have := h'.count bound
      omega⟩

theorem Extends.mono (h : Extends base root n s s') (hn : n ≤ n') : Extends base root n' s s' :=
  ⟨h.walks, h.translate, h.marks, h.spared, fun bound => (h.count bound).trans (by omega)⟩

end Extends

section Descend
variable {base low high : ℕ} {allocate : Store → ℕ × Store} {root t : Table} {s s' : State} {p : List (Fin 512)}
  {i : Fin 512} {a : ℕ}

theorem Sound.fresh (h : Sound base root s) {k : ℕ} (hclear : bitAt s.bitmap k = false) :
    Fresh nextTable s.tables root 3 (.frame (base + 4096 * k)) := by
  intro q hq hwalk
  obtain hkernel | ⟨k', hframe, hset, -⟩ := h.used q _ hq hwalk
  · cases hkernel
  · have hsame : k' = k := by
      have := Table.frame.inj hframe
      omega
    rw [hsame, hclear] at hset
    cases hset

theorem bitCount_le {m m' : Store} {k : ℕ} (hset : ∀ j, bitAt m' j = (decide (j = k) || bitAt m j))
    (bound : ℕ) : bitCount m' bound ≤ bitCount m bound + if k < bound then 1 else 0 := by
  induction bound with
  | zero => exact Nat.zero_le _
  | succ bound ih =>
    rw [bitCount, bitCount, List.range_succ, List.countP_append, List.countP_append, List.countP_singleton,
      List.countP_singleton, hset]
    change bitCount m' bound + _ ≤ bitCount m bound + _ + _
    by_cases hk : bound = k
    · have hlt : ¬ k < bound := by omega
      rw [if_neg hlt] at ih
      rw [if_pos (show k < bound + 1 by omega)]
      split_ifs <;> omega
    · have hle : (if k < bound then 1 else 0) ≤ if k < bound + 1 then 1 else 0 := by split_ifs <;> omega
      rw [decide_eq_false hk, Bool.false_or]
      omega

/-- Going down one level: the tree grows by the table asked for, if it was missing. -/
theorem descend_spec (ha : Allocates base low high allocate) (hbase : base % 4096 = 0)
    (hfit : base + 4096 * high ≤ 2 ^ 47) (h : Sound base root s) (hp : walk nextTable s.tables root p = some t)
    (hlen : p.length < 3) (hrun : descend allocate t i s = some (a, s')) :
    Sound base root s' ∧ Extends base root 1 s s' ∧ walk nextTable s'.tables root (p ++ [i]) = some (.frame a) := by
  rw [descend] at hrun
  by_cases hpresent : isPresent (s.tables t i) = true
  · rw [if_pos hpresent] at hrun
    obtain ⟨rfl, rfl⟩ := Prod.mk.inj (Option.some.inj hrun)
    refine ⟨h, (Extends.refl base root s).mono (by omega), ?_⟩
    rw [walk_concat, hp, Option.bind_some, nextTable_of_present hpresent]
  · rw [if_neg hpresent] at hrun
    have habsent : nextTable (s.tables t i) = none := nextTable_eq_none.mpr (by simpa using hpresent)
    obtain ⟨hfail, -⟩ | ⟨k, -, hhigh, hclear, haddress, hbits⟩ := ha s.bitmap
    · rw [hfail] at hrun
      cases hrun
    · have haligned : (base + 4096 * k) % 4096 = 0 := by omega
      have hfresh := h.fresh hclear
      have hne : (allocate s.bitmap).1 ≠ 0 := fun h0 => by
        dsimp only at hrun
        rw [if_pos h0] at hrun
        cases hrun
      have htable : t ≠ .frame (base + 4096 * k) := fun he => hfresh p (by omega) (he ▸ hp)
      have hentry : clear 0 (store s.tables t i (addressToEntry (base + 4096 * k))) (.frame (base + 4096 * k))
          t i = addressToEntry (base + 4096 * k) := by
        rw [clear_other htable, store_self]
      dsimp only at hrun
      rw [if_neg hne, haddress, hentry, pageOf_addressToEntry haligned] at hrun
      obtain ⟨rfl, rfl⟩ := Prod.mk.inj (Option.some.inj hrun)
      have hnext := nextTable_addressToEntry haligned
      have hwalk := walk_link h.tree hp hlen habsent hfresh hnext nextTable_zero
      have hself : walk nextTable (link 0 s.tables t i (addressToEntry (base + 4096 * k))
          (.frame (base + 4096 * k))) root (p ++ [i]) = some (.frame (base + 4096 * k)) := by
        rw [hwalk _ (by rw [List.length_append, List.length_singleton]; omega), if_pos rfl]
      have hmarks : ∀ j, bitAt s.bitmap j = true → bitAt (allocate s.bitmap).2 j = true := fun j hj => by
        rw [hbits, hj, Bool.or_true]
      refine ⟨⟨?_, ?_, ?_⟩, ⟨?_, ?_, hmarks, ?_, ?_⟩, hself⟩
      · exact Tree.link h.tree hp hlen habsent hfresh hnext nextTable_zero
      · intro q t' hq hw
        have hw' := (hwalk q hq).symm.trans hw
        split_ifs at hw' with hnew
        · exact .inr ⟨k, (Option.some.inj hw').symm, by rw [hbits, decide_eq_true rfl, Bool.true_or], by omega⟩
        · obtain hkernel | ⟨k', hframe, hset, hsmall⟩ := h.used q t' hq hw'
          · exact .inl hkernel
          · exact .inr ⟨k', hframe, hmarks k' hset, hsmall⟩
      · intro q t' j hq hw hp'
        dsimp only at hp' ⊢
        have hw' := (hwalk q (by omega)).symm.trans hw
        split_ifs at hw' with hnew
        · rw [← Option.some.inj hw', clear_self, isPresent_zero] at hp'
          cases hp'
        · have hother : t' ≠ .frame (base + 4096 * k) := fun he => hfresh q (by omega) (he ▸ hw')
          rw [clear_other hother] at hp' ⊢
          by_cases hhere : t' = t ∧ j = i
          · obtain ⟨rfl, rfl⟩ := hhere
            rw [store_self]
            exact addressToEntry_small haligned
          · rw [store_other hhere] at hp' ⊢
            exact h.small q t' j hq hw' hp'
      · intro q t' hq hw
        have hother : ¬ q = p ++ [i] := fun heq => by
          rw [heq, walk_concat, hp, Option.bind_some, habsent] at hw
          cases hw
        exact (hwalk q hq).trans ((if_neg hother).trans hw)
      · exact fun v => lookup_link h.tree hp hlen habsent hfresh hnext nextTable_zero v.path rfl v.pt
      · intro k' hset hspared q hq hw
        have hw' := (hwalk q hq).symm.trans hw
        split_ifs at hw' with hnew
        · have hsame : k' = k := by
            have := Table.frame.inj (Option.some.inj hw')
            omega
          rw [hsame, hclear] at hset
          cases hset
        · exact hspared q hq hw'
      · exact fun bound => (bitCount_le hbits bound).trans (by split_ifs <;> omega)

theorem exists_clear {m : Store} (h : bitCount m high + low < high) :
    ∃ k, low ≤ k ∧ k < high ∧ bitAt m k = false := by
  by_contra hall
  push Not at hall
  obtain ⟨n, rfl⟩ : ∃ n, high = low + n := ⟨high - low, by omega⟩
  have hfull : (List.map (low + ·) (List.range n)).countP (bitAt m) = n := by
    refine (List.countP_eq_length.mpr fun k hk => ?_).trans (by rw [List.length_map, List.length_range])
    obtain ⟨j, hj, rfl⟩ := List.mem_map.mp hk
    have := hall (low + j) (by omega) (by have := List.mem_range.mp hj; omega)
    simpa using this
  rw [bitCount, List.range_add, List.countP_append, hfull] at h
  omega

theorem Allocates.succeeds (ha : Allocates base low high allocate) (hbase : 0 < base) {m : Store}
    (hfree : bitCount m high + low < high) : (allocate m).1 ≠ 0 := by
  obtain ⟨k, hlow, hk, hclear⟩ := exists_clear hfree
  obtain ⟨-, hfull⟩ | ⟨j, -, -, -, haddress, -⟩ := ha m
  · rw [hfull k hlow hk] at hclear
    cases hclear
  · omega

theorem descend_succeeds (ha : Allocates base low high allocate) (hbase : 0 < base)
    (hfree : bitCount s.bitmap high + low < high) : ∃ a s', descend allocate t i s = some (a, s') := by
  rw [descend]
  by_cases hpresent : isPresent (s.tables t i) = true
  · exact ⟨_, _, if_pos hpresent⟩
  · rw [if_neg hpresent]
    exact ⟨_, _, if_neg (ha.succeeds hbase hfree)⟩

theorem descend_present (hpresent : isPresent (s.tables t i) = true) :
    descend allocate t i s = some (pageOf (s.tables t i), s) := if_pos hpresent

theorem descend_same (hp : walk nextTable s.tables root p = some t)
    (hthere : walk nextTable s.tables root (p ++ [i]) ≠ none) (hrun : descend allocate t i s = some (a, s')) :
    s' = s := by
  have hpresent : isPresent (s.tables t i) = true := by
    rw [walk_concat, hp, Option.bind_some] at hthere
    by_contra hne
    exact hthere (nextTable_eq_none.mpr (by simpa using hne))
  rw [descend_present hpresent] at hrun
  exact (congrArg Prod.snd (Option.some.inj hrun)).symm

end Descend

theorem Sound.below {base a : ℕ} {root : Table} {s : State} (h : Sound base root s) {q : List (Fin 512)}
    (hq : q.length ≤ 3) (hwalk : walk nextTable s.tables root q = some (.frame a)) : a < 2 ^ 47 := by
  obtain hkernel | ⟨k, hframe, -, hsmall⟩ := h.used q _ hq hwalk
  · cases hkernel
  · rw [Table.frame.inj hframe]
    exact hsmall

section Levels
variable {base low high : ℕ} {allocate : Store → ℕ × Store} {root : Table} {s : State} {v : Page}

structure Levels (allocate : Store → ℕ × Store) (root : Table) (v : Page) (s : State) (pdpt pdt pt : ℕ)
    (s₁ s₂ s₃ : State) : Prop where
  first : descend allocate root v.pml4 s = some (pdpt, s₁)
  second : descend allocate (.frame pdpt) v.pdpt s₁ = some (pdt, s₂)
  third : descend allocate (.frame pdt) v.pdt s₂ = some (pt, s₃)

theorem Levels.spec (ha : Allocates base low high allocate) (hbase : base % 4096 = 0)
    (hfit : base + 4096 * high ≤ 2 ^ 47) (h : Sound base root s) {pdpt pdt pt : ℕ} {s₁ s₂ s₃ : State}
    (hl : Levels allocate root v s pdpt pdt pt s₁ s₂ s₃) :
    Sound base root s₃ ∧ Extends base root 3 s s₃ ∧ walk nextTable s₃.tables root v.path = some (.frame pt) ∧
      (pdpt < 2 ^ 47 ∧ pdt < 2 ^ 47 ∧ pt < 2 ^ 47) ∧
      (s.translate root v ≠ none → s₃ = s) := by
  have hroot : walk nextTable s.tables root [] = some root := rfl
  obtain ⟨h₁, he₁, hw₁⟩ := descend_spec ha hbase hfit h hroot (by simp) hl.first
  obtain ⟨h₂, he₂, hw₂⟩ := descend_spec ha hbase hfit h₁ hw₁ (by simp) hl.second
  obtain ⟨h₃, he₃, hw₃⟩ := descend_spec ha hbase hfit h₂ hw₂ (by simp) hl.third
  refine ⟨h₃, (he₁.trans he₂).trans he₃, hw₃, ⟨h₁.below (by simp) hw₁, h₂.below (by simp) hw₂,
    h₃.below (le_refl 3) hw₃⟩, fun hmapped => ?_⟩
  have hpath : walk nextTable s.tables root v.path ≠ none := fun hnone => by
    rw [State.translate, lookup, hnone] at hmapped
    exact hmapped rfl
  have hstem : ∀ p q : List (Fin 512), v.path = p ++ q → walk nextTable s.tables root p ≠ none := by
    intro p q hsplit hnone
    rw [hsplit, walk_append, hnone] at hpath
    exact hpath rfl
  obtain rfl : s₁ = s := descend_same hroot (hstem [v.pml4] [v.pdpt, v.pdt] rfl) hl.first
  obtain rfl : s₂ = s₁ := descend_same hw₁ (hstem [v.pml4, v.pdpt] [v.pdt] rfl) hl.second
  exact descend_same hw₂ (hstem [v.pml4, v.pdpt, v.pdt] [] rfl) hl.third

theorem levels_exist (ha : Allocates base low high allocate) (hbase : base % 4096 = 0) (hpos : 0 < base)
    (hfit : base + 4096 * high ≤ 2 ^ 47) (h : Sound base root s)
    (hfree : bitCount s.bitmap high + low + 3 ≤ high) :
    ∃ pdpt pdt pt s₁ s₂ s₃, Levels allocate root v s pdpt pdt pt s₁ s₂ s₃ := by
  have hroot : walk nextTable s.tables root [] = some root := rfl
  obtain ⟨pdpt, s₁, hrun₁⟩ := descend_succeeds (t := root) (i := v.pml4) ha hpos (s := s) (by omega)
  obtain ⟨h₁, he₁, hw₁⟩ := descend_spec ha hbase hfit h hroot (by simp) hrun₁
  have hcount₁ := he₁.count high
  obtain ⟨pdt, s₂, hrun₂⟩ := descend_succeeds (t := .frame pdpt) (i := v.pdpt) ha hpos (s := s₁) (by omega)
  obtain ⟨h₂, he₂, hw₂⟩ := descend_spec ha hbase hfit h₁ hw₁ (by simp) hrun₂
  have hcount₂ := he₂.count high
  obtain ⟨pt, s₃, hrun₃⟩ := descend_succeeds (t := .frame pdt) (i := v.pdt) ha hpos (s := s₂) (by omega)
  exact ⟨pdpt, pdt, pt, s₁, s₂, s₃, hrun₁, hrun₂, hrun₃⟩

end Levels

section Last
variable {base : ℕ} {root t : Table} {s : State} {v : Page} {e : ℕ}

def State.setEntry (s : State) (t : Table) (i : Fin 512) (e : ℕ) : State := ⟨store s.tables t i e, s.bitmap⟩

theorem Sound.setEntry (h : Sound base root s) (hp : walk nextTable s.tables root v.path = some t) :
    Sound base root (s.setEntry t v.pt e) := by
  have hwalk := walk_store_last (e := e) (i := v.pt) h.tree hp rfl
  refine ⟨Tree.store_last h.tree hp rfl, fun q t' hq hw => ?_, fun q t' j hq hw hpresent => ?_⟩
  · exact h.used q t' hq ((hwalk q hq).symm.trans hw)
  · have hw' := (hwalk q (by omega)).symm.trans hw
    have hother : ¬ (t' = t ∧ j = v.pt) := by
      rintro ⟨rfl, -⟩
      have := congrArg List.length (h.tree (by omega) (le_refl 3) hw' hp)
      rw [show v.path.length = 3 from rfl] at this
      omega
    change isPresent (store s.tables t v.pt e t' j) = true at hpresent
    change store s.tables t v.pt e t' j &&& MMU_PDE_TWO_MB = 0
    rw [store_other hother] at hpresent ⊢
    exact h.small q t' j hq hw' hpresent

theorem path_inj {v v' : Page} (hpath : v'.path = v.path) (hpt : v'.pt = v.pt) : v' = v := by
  cases v
  cases v'
  simp only [Page.path, List.cons.injEq] at hpath
  simp only [Page.mk.injEq]
  exact ⟨hpath.1, hpath.2.1, hpath.2.2.1, hpt⟩

theorem translate_setEntry (h : Sound base root s) (hp : walk nextTable s.tables root v.path = some t)
    (hpresent : isPresent e = true) (v' : Page) :
    (s.setEntry t v.pt e).translate root v' = if v' = v then some e else s.translate root v' := by
  rw [State.translate, State.setEntry, lookup_store_last h.tree hp rfl v'.path (le_refl 3)]
  by_cases hv : v' = v
  · rw [hv, if_pos ⟨rfl, rfl⟩, if_pos rfl, nextTable_of_present hpresent, Option.map_some]
  · have hother : ¬ (v'.path = v.path ∧ v'.pt = v.pt) := fun hsame => hv (path_inj hsame.1 hsame.2)
    rw [if_neg hother, if_neg hv]
    rfl

theorem translate_of_walk (hp : walk nextTable s.tables root v.path = some t) :
    s.translate root v = if isPresent (s.tables t v.pt) then some (s.tables t v.pt) else none := by
  rw [State.translate, lookup, hp, Option.bind_some, nextTable]
  split_ifs <;> rfl

theorem Sound.cleared (h : Sound base root s) {k : ℕ} (hclear : bitAt s.bitmap k = false) {bitmap : Store}
    (hmarks : ∀ j, bitAt s.bitmap j = true → bitAt bitmap j = true) :
    Sound base root ⟨Radix.clear 0 s.tables (.frame (base + 4096 * k)), bitmap⟩ ∧
      ∀ v, State.translate ⟨Radix.clear 0 s.tables (.frame (base + 4096 * k)), bitmap⟩ root v = s.translate root v := by
  have hfresh := h.fresh hclear
  have hwalk : ∀ q : List (Fin 512), q.length ≤ 3 →
      walk nextTable (Radix.clear 0 s.tables (.frame (base + 4096 * k))) root q = walk nextTable s.tables root q :=
    walk_clear hfresh
  refine ⟨⟨Tree.clear h.tree hfresh, fun q t' hq hw => ?_, fun q t' j hq hw hpresent => ?_⟩,
    fun v => lookup_clear hfresh v.path (le_refl 3) v.pt⟩
  · obtain hkernel | ⟨k', hframe, hset, hsmall⟩ := h.used q t' hq ((hwalk q hq).symm.trans hw)
    · exact .inl hkernel
    · exact .inr ⟨k', hframe, hmarks k' hset, hsmall⟩
  · have hw' := (hwalk q (by omega)).symm.trans hw
    have hother : t' ≠ .frame (base + 4096 * k) := fun he => hfresh q (by omega) (he ▸ hw')
    change isPresent (Radix.clear 0 s.tables _ t' j) = true at hpresent
    change Radix.clear 0 s.tables _ t' j &&& MMU_PDE_TWO_MB = 0
    rw [clear_other hother] at hpresent ⊢
    exact h.small q t' j hq hw' hpresent

end Last

end Thorn.Paging
