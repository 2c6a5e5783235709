import Thorn.HeapRefines

set_option autoImplicit false

namespace Thorn.Heap
open ByteStore Runs Memory

/-- Space is taken only while the addresses last. -/
def Call.Roomy (s : Heap) : Call → Prop
  | .allocate size => Heap.Roomy s.memory size
  | _ => True

section Steps
variable {s : Heap} {m : Memory} {l : List Block} {live : List (ℕ × ℕ)} {x : ℕ × ℕ} {size p addr : ℕ} {b : Block}

theorem Holds.apart {lo hi : ℕ} (hx : Holds l x) (hw : Within lo l hi) (hb : b ∈ l) :
    x.1 + x.2 ≤ b.addr ∨ b.addr + sizeofBlockMeta ≤ x.1 := by
  obtain ⟨c, hc, -, haddr, hsize⟩ := hx
  by_cases he : c.addr = b.addr
  · exact .inr (by omega)
  · have hapart := hw.apart hc hb he
    unfold Block.stop at hapart
    omega

theorem Holds.outside {lo hi i : ℕ} (hx : Holds l x) (hw : Within lo l hi) (h₁ : x.1 ≤ i) (h₂ : i < x.1 + x.2) :
    ∀ b ∈ l, i < b.addr ∨ b.addr + sizeofBlockMeta ≤ i := by
  intro b hb
  have hapart := hx.apart hw hb
  omega

theorem kept_fresh {new_start : ℕ} (hstart : new_start < 2 ^ 64) (new_high : ℕ) (ram : Store) :
    Kept (fresh new_start new_high ram).memory [] (fresh new_start new_high ram).live where
  listed := rfl
  sound := {
    within := Nat.le_max_left _ _
    start_le := by
      change realign new_start ≤ aligned new_start
      unfold aligned realign uintptr sizeofBlockMeta MEMORY_ALIGN
      dsimp only
      split <;> omega
    coalesced := List.isChain_nil
    counted := rfl
    held := fun x hx => by cases hx
    distinct := List.nodup_nil }
  start_lt := by
    change realign new_start < 2 ^ 64
    unfold realign uintptr
    dsimp only
    split <;> omega
  end_lt := hstart

theorem Allocated.kept {m' : Memory} {l' : List Block} (hk : Kept m l live) (h : Allocated m l size m' p b l') :
    Kept m' l' ((p, size) :: live) where
  listed := h.listed
  sound := by
    rw [h.start_eq, h.counted, h.result]
    exact hk.sound.placed h.placed
  start_lt := by
    rw [h.start_eq]
    exact hk.start_lt
  end_lt := h.end_lt

theorem Freed.kept {m' : Memory} {l' : List Block} (hk : Kept m l live) (hb : b ∈ l) (hfree : b.free = false)
    (h : Freed m l b m' l') : Kept m' l' (live.filter fun x => x.1 ≠ b.addr + sizeofBlockMeta) where
  listed := h.listed
  sound := by
    rw [h.same]
    exact hk.sound.released h.released hb rfl hfree
  start_lt := by
    rw [h.same]
    exact hk.start_lt
  end_lt := by
    rw [h.same]
    exact hk.end_lt

theorem kept_store (hk : Kept m l live) (hx : x ∈ live) (h₁ : x.1 ≤ addr) (h₂ : addr < x.1 + x.2)
    (value : UInt8) : Kept { m with ram := patch m.ram addr [value] } l live where
  listed := by
    apply hk.listed.congr
    intro b hb i hi₁ hi₂
    have hout := (hk.sound.held x hx).outside hk.sound.within h₁ h₂ b hb
    exact patch_outside _ _ _ _ (by simp only [List.length_singleton]; omega)
  sound := hk.sound
  start_lt := hk.start_lt
  end_lt := hk.end_lt

theorem next_allocate_zero : s.next (.allocate 0) = s := rfl

theorem next_allocate {m' : Memory} (h : s.memory.allocate size = some (m', p)) (hp : p ≠ 0) :
    s.next (.allocate size) = ⟨m', (p, size) :: s.live⟩ := by
  unfold next call
  dsimp only
  rw [h, Option.map_some, if_neg hp]
  rfl

theorem next_allocate_none (h : s.memory.allocate size = none) : s.next (.allocate size) = s := by
  unfold next call
  dsimp only
  rw [h]
  rfl

theorem next_free {m' : Memory} (h : s.memory.free p = some m') :
    s.next (.free p) = ⟨m', s.live.filter fun x => x.1 ≠ p⟩ := by
  unfold next call
  dsimp only
  rw [h]
  rfl

theorem allocate_cases (hk : Kept s.memory l s.live) (hroom : Heap.Roomy s.memory size) :
    s.next (.allocate size) = s ∧ (size = 0 ∨ s.memory.allocate size = none) ∨
      size ≠ 0 ∧ ∃ m' p b l', s.memory.allocate size = some (m', p) ∧ p ≠ 0 ∧
        s.next (.allocate size) = ⟨m', (p, size) :: s.live⟩ ∧ Allocated s.memory l size m' p b l' := by
  by_cases h0 : size = 0
  · subst h0
    exact .inl ⟨next_allocate_zero, .inl rfl⟩
  · cases hcall : s.memory.allocate size with
    | none => exact .inl ⟨next_allocate_none hcall, .inr rfl⟩
    | some r =>
      obtain ⟨m', p⟩ := r
      obtain ⟨b, l', hdone⟩ := allocate_spec hk h0 hroom hcall
      have hp : p ≠ 0 := by
        rw [hdone.result]
        unfold sizeofBlockMeta
        omega
      exact .inr ⟨h0, m', p, b, l', rfl, hp, next_allocate hcall hp, hdone⟩

theorem next_kept {c : Call} (hs : ∃ l, Kept s.memory l s.live) (hc : Proper s c) (hroom : c.Roomy s) :
    ∃ l, Kept (s.next c).memory l (s.next c).live := by
  obtain ⟨l, hk⟩ := hs
  cases c with
  | allocate size =>
    rcases allocate_cases hk hroom with ⟨he, -⟩ | ⟨-, m', p, b, l', -, -, he, hdone⟩
    · exact ⟨l, by rw [he]; exact hk⟩
    · exact ⟨l', by rw [he]; exact hdone.kept hk⟩
  | free ptr =>
    obtain ⟨n, hn⟩ := hc
    obtain ⟨b, m', l', hb, hfree, rfl, hcall, hdone⟩ := free_spec hk hn
    exact ⟨l', by rw [next_free hcall]; exact hdone.kept hk hb hfree⟩
  | store addr value =>
    obtain ⟨p, n, hx, h₁, h₂⟩ := hc
    exact ⟨l, kept_store hk hx h₁ h₂ value⟩

end Steps

/-- The blocks from `base`: in order, apart, within the heap's end, coalesced,
holding every allocation and counted. -/
structure InOrder (m : Memory) (l : List Block) (live : List (ℕ × ℕ)) : Prop where
  increasing : l.Pairwise fun b c => b.addr < c.addr
  apart : l.IsChain fun b c => b.stop ≤ c.addr
  last : ∀ b ∈ l.getLast?, b.stop ≤ m.end_
  coalesced : Coalesced l
  held : ∀ x ∈ live, Holds l x
  counted : m.getAllocated = inUse l

/-- What is handed out is aligned and lies apart from all other allocations and
from the headers of `l`. -/
structure Disjoint (l : List Block) (live : List (ℕ × ℕ)) : Prop where
  multiple : ∀ x ∈ live, x.1 % MEMORY_ALIGN = 0
  apart : live.Pairwise fun x y => x.1 + x.2 ≤ y.1 ∨ y.1 + y.2 ≤ x.1
  headers : ∀ x ∈ live, ∀ b ∈ l, x.1 + x.2 ≤ b.addr ∨ b.addr + sizeofBlockMeta ≤ x.1

/-- A call of the heap changes no byte of what is handed out before or after it. -/
def Undamaged (s : Heap) : Call → Prop
  | .store _ _ => True
  | c => ∀ x, x ∈ s.live ∨ x ∈ (s.next c).live → slice (s.next c).memory.ram x.1 x.2 = slice s.memory.ram x.1 x.2

section Kept
variable {s : Heap} {m : Memory} {l : List Block} {live : List (ℕ × ℕ)}

theorem Kept.stop_lt (hk : Kept m l live) {b : Block} (hb : b ∈ l) : b.stop < m.end_ := by
  obtain ⟨hlo, -, hstop⟩ := hk.sound.within.of_mem hb
  unfold reach Block.stop sizeofBlockMeta at hstop
  unfold Block.stop sizeofBlockMeta
  omega

theorem Kept.inOrder (hk : Kept m l live) : InOrder m l live where
  increasing := hk.sound.within.pairwise.imp fun {b c} h => by
    unfold Block.stop sizeofBlockMeta at h
    omega
  apart := hk.sound.within.pairwise.isChain
  last := fun b hb => Nat.le_of_lt (hk.stop_lt (List.mem_of_mem_getLast? hb))
  coalesced := hk.sound.coalesced
  held := hk.sound.held
  counted := hk.sound.counted

theorem Kept.disjoint (hk : Kept m l live) : Disjoint l live where
  multiple := by
    intro x hx
    obtain ⟨b, hb, -, haddr, -⟩ := hk.sound.held x hx
    have hmod := (hk.sound.within.of_mem hb).2.1
    unfold MEMORY_ALIGN
    unfold sizeofBlockMeta at haddr
    omega
  apart := by
    have hne := List.pairwise_map.mp hk.sound.distinct
    refine hne.imp_of_mem fun {x y} hx hy hxy => ?_
    obtain ⟨b, hb, -, hxb, hxs⟩ := hk.sound.held x hx
    obtain ⟨c, hc, -, hyc, hys⟩ := hk.sound.held y hy
    have hapart := hk.sound.within.apart hb hc (by omega)
    unfold Block.stop at hapart
    omega
  headers := fun x hx b hb => (hk.sound.held x hx).apart hk.sound.within hb

theorem undamaged {c : Call} (hs : ∃ l, Kept s.memory l s.live) (hc : Proper s c) (hroom : c.Roomy s) :
    Undamaged s c := by
  obtain ⟨l, hk⟩ := hs
  cases c with
  | allocate size =>
    rcases allocate_cases hk hroom with ⟨he, -⟩ | ⟨-, m', p, b, l', -, -, he, hdone⟩
    · intro x _
      rw [he]
    · intro x hx
      have hk' := hdone.kept hk
      rw [he] at hx ⊢
      have hmem : x ∈ (p, size) :: s.live := hx.elim (List.mem_cons_of_mem _) id
      exact slice_congr _ _ _ _ fun i h₁ h₂ => hdone.frame i
        ((hk'.sound.held x hmem).outside hk'.sound.within h₁ h₂)
  | free ptr =>
    obtain ⟨n, hn⟩ := hc
    obtain ⟨b, m', l', hb, hfree, rfl, hcall, hdone⟩ := free_spec hk hn
    intro x hx
    rw [next_free hcall] at hx ⊢
    have hmem : x ∈ s.live := hx.elim id fun h => (List.mem_filter.mp h).1
    exact slice_congr _ _ _ _ fun i h₁ h₂ => hdone.frame i
      ((hk.sound.held x hmem).outside hk.sound.within h₁ h₂)
  | store addr value => trivial

end Kept

section Runs
variable {new_start : ℕ} (hstart : new_start < 2 ^ 64) (new_high : ℕ) (ram : Store) {calls : List Call}
  (hcalls : Throughout next (fun s c => Proper s c ∧ c.Roomy s) (fresh new_start new_high ram) calls)

include hstart hcalls

theorem always_kept : Always next (fun s => ∃ l, Kept s.memory l s.live) (fresh new_start new_high ram) calls :=
  always_of_throughout (C := fun _ _ => True) ⟨[], kept_fresh hstart new_high ram⟩
    (fun _ _ hs hc _ => next_kept hs hc.1 hc.2) hcalls throughout_true

/-- After every call the list from `base` is in order, coalesced and counted. -/
theorem blocks_in_order :
    Always next (fun s => ∃ l, Listed s.memory.ram s.memory.base l ∧ InOrder s.memory l s.live)
      (fresh new_start new_high ram) calls :=
  (always_kept hstart new_high ram hcalls).imp fun _ ⟨l, hk⟩ => ⟨l, hk.listed, hk.inOrder⟩

/-- What is handed out never overlaps anything else and is never damaged. -/
theorem never_damaged :
    Always next (fun s => ∃ l, Listed s.memory.ram s.memory.base l ∧ Disjoint l s.live)
        (fresh new_start new_high ram) calls ∧
      Throughout next Undamaged (fresh new_start new_high ram) calls := by
  have hkept := always_kept hstart new_high ram hcalls
  refine ⟨hkept.imp fun _ ⟨l, hk⟩ => ⟨l, hk.listed, hk.disjoint⟩, hkept.throughout hcalls ?_⟩
  exact fun _ _ hs hc => undamaged hs hc.1 hc.2

end Runs

section Sample

def sampleRun : List Call := [.allocate 1000, .allocate 100, .store 5190 7, .free 4128]

theorem sampleRun_calls :
    Throughout next (fun s c => Proper s c ∧ c.Roomy s) (fresh 4096 8192 fun _ => 0) sampleRun :=
  throughout_cons.mpr ⟨⟨trivial, .inr (.inr (by decide))⟩,
    throughout_cons.mpr ⟨⟨trivial, .inr (.inr (by decide +kernel))⟩,
    throughout_cons.mpr ⟨⟨⟨5184, 100, by decide +kernel, by decide, by decide⟩, trivial⟩,
    throughout_cons.mpr ⟨⟨⟨1000, by decide +kernel⟩, trivial⟩, throughout_nil⟩⟩⟩⟩

theorem sampleRun_split :
    Throughout next (fun s c => Proper s c ∧ c.Roomy s) (fresh 4096 8192 fun _ => 0) (sampleRun ++ [.allocate 100]) :=
  throughout_append.mpr ⟨sampleRun_calls,
    throughout_cons.mpr ⟨⟨trivial, .inr (.inr (by decide +kernel))⟩, throughout_nil⟩⟩

theorem blocks_in_order_split :
    Always next (fun s => ∃ l, Listed s.memory.ram s.memory.base l ∧ InOrder s.memory l s.live)
      (fresh 4096 8192 fun _ => 0) (sampleRun ++ [.allocate 100]) :=
  blocks_in_order (by decide) 8192 _ sampleRun_split

theorem never_damaged_split :
    Always next (fun s => ∃ l, Listed s.memory.ram s.memory.base l ∧ Disjoint l s.live)
        (fresh 4096 8192 fun _ => 0) (sampleRun ++ [.allocate 100]) ∧
      Throughout next Undamaged (fresh 4096 8192 fun _ => 0) (sampleRun ++ [.allocate 100]) :=
  never_damaged (by decide) 8192 _ sampleRun_split

end Sample

end Thorn.Heap
