import Thorn.Library.Bytes
import Thorn.Library.LinkedChain

set_option autoImplicit false

namespace Thorn.PCI
open ByteStore LinkedChain

def STATUS : ℕ := 0x06
def CAPABILITIES_PTR : ℕ := 0x34
def STATUS_CAPABILITIES : ℕ := 0x0010
def CAP_ID_MSI : ℕ := 0x05
def MSI_CONTROL_64 : ℕ := 2 ^ 7

structure MSICapability where
  register0 : ℕ
  register1 : ℕ
  register2 : ℕ
  data64 : ℕ

def MSICapability.msiControl (m : MSICapability) : ℕ := m.register0 / 2 ^ 16

structure Device where
  msiPointer : ℕ
  msiCapable : Bool
  msiCapability : MSICapability
  capabilities : List ℕ

/-- A new device, with whatever its registers held before. -/
def Device.new (m : MSICapability) : Device := ⟨0, false, m, []⟩

/-- The configuration space is the first 256 bytes of the store: both functions mask the offset. -/
def readWord (config : Store) (offset : ℕ) : ℕ := leNat (slice config ((offset &&& 0xfc) + (offset &&& 0x02)) 2)

def readInt (config : Store) (offset : ℕ) : ℕ := leNat (slice config (offset &&& 0xfc) 4)

def takeMSI (config : Store) (ptr cap : ℕ) (d : Device) : Device :=
  if cap % 2 ^ 8 = CAP_ID_MSI then
    let register0 := readInt config ptr
    { d with
      msiPointer := ptr
      msiCapable := true
      msiCapability :=
        { register0 := register0
          register1 := readInt config (ptr + 4)
          register2 := readInt config (ptr + 8)
          data64 := if register0 / 2 ^ 16 &&& MSI_CONTROL_64 ≠ 0 then readInt config (ptr + 12)
            else d.msiCapability.data64 } }
  else d

def initLoop (config : Store) : ℕ → (ptr cap : ℕ) → Device → Option Device
  | 0, _, _, _ => none
  | fuel + 1, ptr, cap, d =>
    let d := takeMSI config ptr cap d
    let ptr := cap / 2 ^ 8
    let cap := readWord config ptr
    let d := { d with capabilities := d.capabilities ++ [cap % 2 ^ 8] }
    if cap / 2 ^ 8 ≠ 0 then initLoop config fuel ptr cap d else some d

def firstPointer (config : Store) : ℕ := readWord config CAPABILITIES_PTR &&& 0xfc

def init (config : Store) (fuel : ℕ) (d : Device) : Option Device :=
  if readWord config STATUS &&& STATUS_CAPABILITIES ≠ 0 then
    initLoop config fuel (firstPointer config) (readInt config (firstPointer config) % 2 ^ 16) d
  else some d

section Walk
variable {config : Store} {fuel ptr cap : ℕ} {l : List ℕ} {d d' : Device}

def capID (config : Store) (ptr : ℕ) : ℕ := readWord config ptr % 2 ^ 8

def nextPointer (config : Store) (ptr : ℕ) : ℕ := readWord config ptr / 2 ^ 8

def link (config : Store) (ptr : ℕ) : Option ℕ :=
  if nextPointer config ptr = 0 then none else some (nextPointer config ptr)

def Last (config : Store) (ptr : ℕ) : Prop := nextPointer config ptr = 0

instance (config : Store) (ptr : ℕ) : Decidable (Last config ptr) := inferInstanceAs (Decidable (_ = _))

abbrev Nodes (config : Store) : ℕ → List ℕ → Prop := Chain (link config) (Last config)

theorem last_link (x : ℕ) (h : Last config x) : link config x = none := if_pos h

theorem readWord_lt (config : Store) (offset : ℕ) : readWord config offset < 2 ^ 16 := by
  have h := leNat_lt (slice config ((offset &&& 0xfc) + (offset &&& 0x02)) 2)
  rw [slice_length] at h
  exact h

theorem nextPointer_lt (config : Store) (ptr : ℕ) : nextPointer config ptr < 256 :=
  Nat.div_lt_of_lt_mul (readWord_lt config ptr)

theorem first_word (config : Store) :
    readInt config (firstPointer config) % 2 ^ 16 = readWord config (firstPointer config) := by
  have hword : firstPointer config &&& 0xfc = firstPointer config := by
    rw [firstPointer, Nat.and_assoc]
    rfl
  have hlow : firstPointer config &&& 0x02 = 0 := by
    rw [firstPointer, Nat.and_assoc]
    exact Nat.and_zero _
  rw [readInt, readWord, hword, hlow, Nat.add_zero]
  generalize firstPointer config = p
  have h₀ := (config p).toNat_lt
  have h₁ := (config (p + 1)).toNat_lt
  change ((config p).toNat + 256 * ((config (p + 1)).toNat + 256 * ((config (p + 2)).toNat +
    256 * ((config (p + 3)).toNat + 256 * 0)))) % 2 ^ 16 = (config p).toNat + 256 * ((config (p + 1)).toNat + 256 * 0)
  omega

theorem takeMSI_capabilities (config : Store) (ptr cap : ℕ) (d : Device) :
    (takeMSI config ptr cap d).capabilities = d.capabilities := by
  rw [takeMSI]
  split_ifs <;> rfl

theorem initLoop_found (h : initLoop config fuel ptr cap d = some d') :
    ∃ l, Nodes config (cap / 2 ^ 8) l ∧ d'.capabilities = d.capabilities ++ l.map (capID config) := by
  induction fuel generalizing ptr cap d with
  | zero => cases h
  | succ fuel ih =>
    rw [initLoop] at h
    split_ifs at h with hmore
    · obtain ⟨l, hl, hfound⟩ := ih h
      refine ⟨cap / 2 ^ 8 :: l, .link (if_neg hmore) hl, ?_⟩
      rw [hfound, takeMSI_capabilities, List.append_assoc]
      rfl
    · obtain rfl := Option.some.inj h
      refine ⟨[cap / 2 ^ 8], .last (not_not.mp hmore), ?_⟩
      dsimp only
      rw [takeMSI_capabilities]
      rfl

theorem initLoop_ends (h : Nodes config (cap / 2 ^ 8) l) (ptr : ℕ) (d : Device) (hfuel : l.length ≤ fuel) :
    ∃ d', initLoop config fuel ptr cap d = some d' := by
  induction l generalizing ptr cap fuel d with
  | nil => exact absurd rfl h.ne_nil
  | cons p l ih =>
    obtain ⟨fuel, rfl⟩ : ∃ n, fuel = n + 1 := ⟨fuel - 1, by rw [List.length_cons] at hfuel; omega⟩
    rw [initLoop]
    split_ifs with hmore
    · cases h with
      | last hlast => exact absurd hlast hmore
      | link hnext t =>
        have hlinked : link config (cap / 2 ^ 8) = some (nextPointer config (cap / 2 ^ 8)) := if_neg hmore
        rw [hlinked] at hnext
        obtain rfl := Option.some.inj hnext
        exact ih t _ _ (Nat.le_of_succ_le_succ hfuel)
    · exact ⟨_, rfl⟩

theorem nodes_length_le (h : Nodes config ptr l) (hptr : ptr < 256) : l.length ≤ 256 := by
  have hnext : ∀ x y, link config x = some y → y ∈ Finset.range 256 := by
    intro x y hxy
    rw [link] at hxy
    split_ifs at hxy
    obtain rfl := Option.some.inj hxy
    exact Finset.mem_range.mpr (nextPointer_lt config x)
  have hlen := h.length_le last_link (Finset.range 256) (Finset.mem_range.mpr hptr) hnext
  rw [Finset.card_range] at hlen
  exact hlen

theorem init_capable (hstatus : readWord config STATUS &&& STATUS_CAPABILITIES ≠ 0) (fuel : ℕ) (d : Device) :
    init config fuel d = initLoop config fuel (firstPointer config) (readWord config (firstPointer config)) d := by
  rw [init, if_pos hstatus, first_word]

theorem init_found (hstatus : readWord config STATUS &&& STATUS_CAPABILITIES ≠ 0)
    (h : init config fuel d = some d') :
    ∃ l, Nodes config (nextPointer config (firstPointer config)) l ∧
      d'.capabilities = d.capabilities ++ l.map (capID config) := by
  rw [init_capable hstatus] at h
  exact initLoop_found h

end Walk

def Ends (config : Store) (d : Device) : Prop :=
  ∃ fuel d', init config fuel d = some d' ∧ d'.capabilities.length ≤ d.capabilities.length + 256

/-- It does just when the pointers behind the first node lead to a null pointer. -/
theorem init_ends_iff (config : Store) (d : Device) : Ends config d ↔
    readWord config STATUS &&& STATUS_CAPABILITIES = 0 ∨
      ∃ l, Nodes config (nextPointer config (firstPointer config)) l := by
  by_cases hstatus : readWord config STATUS &&& STATUS_CAPABILITIES = 0
  · refine iff_of_true ⟨0, d, ?_, Nat.le_add_right _ _⟩ (.inl hstatus)
    rw [init, if_neg (not_not.mpr hstatus)]
  · rw [or_iff_right hstatus]
    constructor
    · rintro ⟨fuel, d', hrun, -⟩
      obtain ⟨l, hl, -⟩ := init_found hstatus hrun
      exact ⟨l, hl⟩
    · rintro ⟨l, hl⟩
      obtain ⟨d', hrun⟩ := initLoop_ends hl (firstPointer config) d (Nat.le_refl l.length)
      rw [← init_capable hstatus] at hrun
      obtain ⟨k, hk, hfound⟩ := init_found hstatus hrun
      refine ⟨l.length, d', hrun, ?_⟩
      rw [hfound, List.length_append, List.length_map]
      exact Nat.add_le_add_left (nodes_length_le hk (nextPointer_lt config _)) _

/-- A list in order: it ends, so that it has no cycle, and the nodes lie behind the header, on words of four bytes. -/
structure CapabilityList (config : Store) (ptrs : List ℕ) : Prop where
  capable : readWord config STATUS &&& STATUS_CAPABILITIES ≠ 0
  nodes : Nodes config (firstPointer config) ptrs
  placed : ∀ p ∈ ptrs, 0x40 ≤ p ∧ p % 4 = 0

structure TakenFrom (config : Store) (ptr : ℕ) (d : Device) : Prop where
  pointer : d.msiPointer = ptr
  register0 : d.msiCapability.register0 = readInt config ptr
  register1 : d.msiCapability.register1 = readInt config (ptr + 4)
  register2 : d.msiCapability.register2 = readInt config (ptr + 8)
  data64 : d.msiCapability.msiControl &&& MSI_CONTROL_64 ≠ 0 → d.msiCapability.data64 = readInt config (ptr + 12)

def ReadCompletely (config : Store) (ptrs : List ℕ) (m : MSICapability) : Prop :=
  ∃ fuel d', init config fuel (.new m) = some d' ∧ d'.capabilities = ptrs.map (capID config) ∧
    (d'.msiCapable = true ↔ ∃ p ∈ ptrs, capID config p = CAP_ID_MSI) ∧
    ∀ p, ptrs.filter (fun q => capID config q = CAP_ID_MSI) = [p] → TakenFrom config p d'

theorem takeMSI_taken (config : Store) (ptr : ℕ) {cap : ℕ} (h : cap % 2 ^ 8 = CAP_ID_MSI) (d : Device) :
    TakenFrom config ptr (takeMSI config ptr cap d) := by
  rw [takeMSI, if_pos h]
  exact ⟨rfl, rfl, rfl, rfl, fun hwide => if_pos hwide⟩

theorem takeMSI_capable (config : Store) (ptr cap : ℕ) (m : MSICapability) :
    (takeMSI config ptr cap (.new m)).msiCapable = true ↔ cap % 2 ^ 8 = CAP_ID_MSI := by
  rw [takeMSI]
  split_ifs with h
  · exact iff_of_true rfl h
  · exact iff_of_false Bool.false_ne_true h

theorem init_single {config : Store} (hstatus : readWord config STATUS &&& STATUS_CAPABILITIES ≠ 0)
    (hlast : readWord config (firstPointer config) / 2 ^ 8 = 0) (hvendor : readWord config 0 / 2 ^ 8 = 0)
    (d : Device) :
    init config 1 d = some { takeMSI config (firstPointer config) (readWord config (firstPointer config)) d with
      capabilities := d.capabilities ++ [readWord config 0 % 2 ^ 8] } := by
  rw [init_capable hstatus, initLoop, hlast, if_neg (not_not.mpr hvendor), takeMSI_capabilities]

/-- The first node is not counted, and the word at 0, where the last one points, is: the list is read completely
only if it is a single node with the same identifier as the vendor. -/
theorem list_read_iff (config : Store) (ptrs : List ℕ) (m : MSICapability) (h : CapabilityList config ptrs) :
    ReadCompletely config ptrs m ↔ ptrs.length = 1 ∧ readWord config 0 = capID config (firstPointer config) := by
  have hnodes := h.nodes
  cases hnodes with
  | last hlast =>
    have hvendor : readWord config (firstPointer config) / 2 ^ 8 = 0 := hlast
    constructor
    · rintro ⟨fuel, d', hrun, hids, -⟩
      obtain ⟨l, hl, hfound⟩ := init_found h.capable hrun
      rw [nextPointer, hvendor] at hl
      have hmap : l.map (capID config) = [capID config (firstPointer config)] := hfound.symm.trans hids
      refine ⟨rfl, ?_⟩
      cases hl with
      | last hzero =>
        have hid : capID config 0 = capID config (firstPointer config) := List.head_eq_of_cons_eq hmap
        have hhigh : readWord config 0 / 2 ^ 8 = 0 := hzero
        rw [← hid, capID]
        omega
      | link _ t => exact absurd (List.map_eq_nil_iff.mp (List.tail_eq_of_cons_eq hmap)) t.ne_nil
    · rintro ⟨-, hid⟩
      have hsmall : capID config (firstPointer config) < 2 ^ 8 := Nat.mod_lt _ (by decide)
      have hlow : readWord config 0 % 2 ^ 8 = capID config (firstPointer config) := by omega
      refine ⟨1, _, init_single h.capable hvendor (by omega) (.new m), ?_, ?_, ?_⟩
      · rw [hlow]
        rfl
      · refine (takeMSI_capable config _ _ m).trans ?_
        simp only [List.mem_singleton, exists_eq_left]
        rfl
      · intro p hp
        obtain ⟨hfirst, hmsi⟩ := List.mem_filter.mp (hp ▸ List.mem_singleton_self p)
        obtain rfl := List.mem_singleton.mp hfirst
        have htaken := takeMSI_taken config (firstPointer config) (of_decide_eq_true hmsi) (.new m)
        exact ⟨htaken.pointer, htaken.register0, htaken.register1, htaken.register2, htaken.data64⟩
  | @link _ b l hnext t =>
    have hmore : nextPointer config (firstPointer config) = b := by
      rw [link] at hnext
      split_ifs at hnext
      exact Option.some.inj hnext
    refine iff_of_false ?_ fun hone => t.ne_nil (List.length_eq_zero_iff.mp (Nat.succ_inj.mp hone.1))
    rintro ⟨fuel, d', hrun, hids, -⟩
    obtain ⟨k, hk, hfound⟩ := init_found h.capable hrun
    rw [hmore] at hk
    rw [t.unique last_link hk] at hids
    have hlen := congrArg List.length (hfound.symm.trans hids)
    simp [Device.new] at hlen

section Sample

def space (words : List (ℕ × ℕ)) : Store :=
  ([(STATUS, STATUS_CAPABILITIES), (CAPABILITIES_PTR, 0x40)] ++ words).foldl
    (fun config w => patch config w.1 (leBytes 2 w.2))
    fun _ => 0

/-- A single node for MSI, of a vendor with the same number. -/
theorem single_read : ReadCompletely (space [(0, 0x0005), (0x40, 0x0005)]) [0x40] ⟨0, 0, 0, 0⟩ :=
  (list_read_iff (space [(0, 0x0005), (0x40, 0x0005)]) [0x40] ⟨0, 0, 0, 0⟩
    ⟨by decide, .last (by decide), by decide⟩).mpr ⟨rfl, by decide⟩

/-- Two nodes, for MSI and PCI Express: the first one is left out. -/
theorem pair_not_read : CapabilityList (space [(0, 0x8086), (0x40, 0x5005), (0x50, 0x0010)]) [0x40, 0x50] ∧
    ¬ ReadCompletely (space [(0, 0x8086), (0x40, 0x5005), (0x50, 0x0010)]) [0x40, 0x50] ⟨0, 0, 0, 0⟩ := by
  refine ⟨⟨by decide, .link (by decide) (.last (by decide)), by decide⟩, ?_⟩
  rintro ⟨fuel, d', hrun, hids, -⟩
  obtain ⟨l, hl, hfound⟩ := init_found (by decide) hrun
  have hnext : nextPointer (space [(0, 0x8086), (0x40, 0x5005), (0x50, 0x0010)])
      (firstPointer (space [(0, 0x8086), (0x40, 0x5005), (0x50, 0x0010)])) = 0x50 := by decide
  have hsecond : Nodes (space [(0, 0x8086), (0x40, 0x5005), (0x50, 0x0010)]) 0x50 [0x50] := .last (by decide)
  rw [hnext] at hl
  rw [hids, ← hsecond.unique last_link hl] at hfound
  exact absurd (congrArg List.length hfound) (by decide)

/-- A node that points to itself. -/
theorem cycle_never_ends : ¬ Ends (space [(0x40, 0x4001)]) (.new ⟨0, 0, 0, 0⟩) := by
  rintro ⟨fuel, d', hrun, -⟩
  obtain ⟨l, hl, -⟩ := init_found (by decide) hrun
  have hnext : nextPointer (space [(0x40, 0x4001)]) (firstPointer (space [(0x40, 0x4001)])) = 0x40 := by decide
  have hself : link (space [(0x40, 0x4001)]) 0x40 = some 0x40 := by decide
  rw [hnext] at hl
  exact hl.not_self last_link hself

end Sample

end Thorn.PCI
