import Thorn.FatTypes
import Thorn.Library.LinkedChain

set_option autoImplicit false

/-!
# Well-formed ThornFAT images

What a formatted partition means: the allocation table as a partial successor
function, the directory entries by slot (the `k`-th run of 320 bytes), the tree
of live entries below the root, and the chain of blocks each of them owns.
-/
namespace Thorn.FatImage
open Paths FatTypes LinkedChain

structure Image where
  /-- Directory entries per block. -/
  epb : ℕ
  blockCount : ℕ
  fatBlocks : ℕ
  fat : ℤ → ℤ
  entry : ℕ → DirEntry

namespace Image
variable (I : Image)

def bs : ℕ := sizeofDirEntry * I.epb
def startBlock : ℕ := I.fatBlocks + 1
def rootSlot : ℕ := I.startBlock * I.epb
def IsData (b : ℕ) : Prop := I.fatBlocks < b ∧ b < I.blockCount

def next (b : ℕ) : Option ℕ := if 0 < I.fat b then some (I.fat b).toNat else none
def Final (b : ℕ) : Prop := I.fat b = FINAL

/-- `isFree`: a slot is also free when its start block is. -/
def free (e : DirEntry) : Bool := e.start = 0 || I.fat e.start = 0

def chainFrom : ℕ → ℕ → List ℕ
  | 0, _ => []
  | n + 1, b => b :: match I.next b with
    | none => []
    | some c => chainFrom n c

def chainOf (e : DirEntry) : List ℕ := I.chainFrom I.blockCount e.start.toNat

def chain (k : ℕ) : List ℕ := I.chainOf (I.entry k)

/-- The entry starts a chain of data blocks that ends in `FINAL`. -/
structure Owns (e : DirEntry) (c : List ℕ) : Prop where
  start : ∃ b : ℕ, e.start = b ∧ Chain I.next I.Final b c
  data : ∀ b ∈ c, I.IsData b

def blocksFor (len : ℕ) : ℕ := max 1 (updiv len I.bs)

/-- The chain has exactly the blocks that the entry's length asks for. -/
structure Readable (e : DirEntry) : Prop where
  owns : I.Owns e (I.chainOf e)
  size : (I.chainOf e).length = I.blocksFor e.len

def slotAt (c : List ℕ) (i : ℕ) : ℕ := c.getD (i / I.epb) 0 * I.epb + i % I.epb

def slotsIn (c : List ℕ) (n : ℕ) : List ℕ := (List.range n).map (I.slotAt c)

def count (k : ℕ) : ℕ := (I.entry k).len / sizeofDirEntry

def slots (k : ℕ) : List ℕ := I.slotsIn (I.chain k) (I.count k)

/-- How many slots of a directory hold `.` and `..`. -/
def copies (k : ℕ) : ℕ := if k = I.rootSlot then 2 else 1

def Child (p k : ℕ) : Prop :=
  (I.entry p).isDirectory ∧ k ∈ (I.slots p).drop (I.copies p) ∧ I.free (I.entry k) = false

/-- The live entries, by slot: the root and what its directories list. -/
inductive Live : ℕ → Prop
  | root : Live I.rootSlot
  | child {p k : ℕ} (hp : Live p) (hk : I.Child p k) : Live k

structure WellFormed : Prop where
  epb : 2 ≤ I.epb
  table : 4 * I.blockCount ≤ I.fatBlocks * I.bs
  inside : I.startBlock < I.blockCount
  small : I.blockCount * I.bs < 2 ^ 32
  reserved : ∀ b : ℕ, b ≤ I.fatBlocks → I.fat b = UNUSABLE
  owns : ∀ k, I.Live k → I.Owns (I.entry k) (I.chain k)
  size : ∀ k, I.Live k → (I.chain k).length = I.blocksFor (I.entry k).len
  disjoint : ∀ k l, I.Live k → I.Live l → k ≠ l → List.Disjoint (I.chain k) (I.chain l)
  unowned : ∀ b, I.IsData b → (∀ k, I.Live k → b ∉ I.chain k) → I.fat b = 0
  directory : ∀ k, I.Live k → (I.entry k).isDirectory →
    0 < (I.entry k).len ∧ sizeofDirEntry ∣ (I.entry k).len
  root_directory : (I.entry I.rootSlot).isDirectory
  root_start : (I.entry I.rootSlot).start = I.startBlock
  root_len : 2 * sizeofDirEntry ≤ (I.entry I.rootSlot).len
  dot : (I.entry I.rootSlot).name.toStr = dotName
  root_dotdot : (I.entry (I.rootSlot + 1)).name.toStr = dotDotName
  dotdot : ∀ k, I.Live k → k ≠ I.rootSlot → (I.entry k).isDirectory →
    (I.entry (I.slotAt (I.chain k) 0)).name.toStr = dotDotName

/-- No freed slot keeps a start block: `0 if free` as the field says. -/
def Tidy : Prop := ∀ p, I.Live p → (I.entry p).isDirectory →
  ∀ k ∈ (I.slots p).drop (I.copies p), I.free (I.entry k) = true → (I.entry k).start = 0

def findSlot (p : ℕ) (name : Str) : Option ℕ :=
  (I.slots p).find? fun k => (I.entry k).name.toStr = name && !I.free (I.entry k)

def Walkable (p : ℕ) : Bool := (I.entry p).len ≠ 0 && (I.entry p).isDirectory

def walkDirs : ℕ → List Str → Except ℤ ℕ
  | p, [] => .ok p
  | p, name :: rest =>
    if I.Walkable p then
      match I.findSlot p name with
      | none => .error (-ENOENT)
      | some k => if (I.entry k).isFile then .error (-ENOTDIR) else walkDirs k rest
    else .error (-ENOTDIR)

def resolve : ℕ → List Str → Except ℤ ℕ
  | p, [] => .ok p
  | p, name :: rest =>
    if I.Walkable p then
      match I.findSlot p name with
      | none => .error (-ENOENT)
      | some k => if rest = [] then .ok k
        else if (I.entry k).isFile then .error (-ENOTDIR) else resolve k rest
    else .error (-ENOTDIR)

def WalkReadable : ℕ → List Str → Prop
  | _, [] => True
  | p, name :: rest => I.Walkable p → I.Readable (I.entry p) ∧
      ∀ k, I.findSlot p name = some k → WalkReadable k rest

/-- No component of the walk is matched by a `.` or `..` copy. -/
def AvoidsCopies : ℕ → List Str → Prop
  | _, [] => True
  | p, name :: rest => I.Walkable p → ∀ k, I.findSlot p name = some k →
      k ∈ (I.slots p).drop (I.copies p) ∧ AvoidsCopies k rest

end Image

def pathNames (path : Str) : List Str := if path = [slash] ∨ path = [] then [] else components path

def NoDots (path : Str) : Prop := dotName ∉ pathNames path ∧ dotDotName ∉ pathNames path

namespace Image
variable {I : Image}

theorem walkable_iff {p : ℕ} : I.Walkable p ↔ (I.entry p).len ≠ 0 ∧ (I.entry p).isDirectory := by
  simp [Walkable]

theorem next_excl (b : ℕ) (h : I.Final b) : I.next b = none := by
  unfold Final at h
  simp [next, h, FINAL]

theorem next_congr {J : Image} {b : ℕ} (h : J.fat b = I.fat b) : J.next b = I.next b := by
  rw [next, next, h]

theorem chainFrom_eq {b : ℕ} {c : List ℕ} (h : Chain I.next I.Final b c) (n : ℕ)
    (hn : c.length ≤ n) : I.chainFrom n b = c := by
  induction h generalizing n with
  | last hf =>
    obtain ⟨n, rfl⟩ : ∃ m, n = m + 1 := ⟨n - 1, by simp at hn; omega⟩
    simp [chainFrom, next_excl _ hf]
  | link hl _ ih =>
    obtain ⟨n, rfl⟩ : ∃ m, n = m + 1 := ⟨n - 1, by simp at hn; omega⟩
    simp [chainFrom, hl, ih n (by simpa using hn)]

namespace Owns
variable {e : DirEntry} {l m : List ℕ}

theorem ne_nil (h : I.Owns e l) : l ≠ [] := by
  obtain ⟨b, -, hc⟩ := h.start
  exact hc.ne_nil

theorem length_pos (h : I.Owns e l) : 0 < l.length := List.length_pos_of_ne_nil h.ne_nil

theorem nodup (h : I.Owns e l) : l.Nodup := by
  obtain ⟨b, -, hc⟩ := h.start
  exact hc.nodup next_excl

theorem head (h : I.Owns e l) (hl : 0 < l.length) : e.start = l[0] := by
  obtain ⟨b, hb, hc⟩ := h.start
  rw [hb, hc.getElem_zero hl]

theorem start_mem (h : I.Owns e l) : e.start.toNat ∈ l := by
  obtain ⟨b, hb, hc⟩ := h.start
  simpa [hb] using hc.head_mem

theorem length_le (h : I.Owns e l) : l.length ≤ I.blockCount := by
  have hsub : l ⊆ List.range I.blockCount := fun b hb => List.mem_range.mpr (h.data b hb).2
  simpa using (h.nodup.subperm hsub).length_le

theorem chainOf_eq (h : I.Owns e l) : I.chainOf e = l := by
  obtain ⟨b, hb, hc⟩ := h.start
  have hn : e.start.toNat = b := by simp [hb]
  rw [chainOf, hn]
  exact chainFrom_eq hc _ h.length_le

theorem unique (h : I.Owns e l) (h' : I.Owns e m) : l = m := h.chainOf_eq.symm.trans h'.chainOf_eq

theorem fat_last (h : I.Owns e l) : I.fat (l.getLast h.ne_nil) = FINAL := by
  obtain ⟨b, -, hc⟩ := h.start
  exact hc.final_getLast

theorem fat_link (h : I.Owns e l) (i : ℕ) (hi : i + 1 < l.length) : I.fat l[i] = l[i + 1] := by
  obtain ⟨b, -, hc⟩ := h.start
  have hn := hc.next_getElem i hi
  unfold next at hn
  split_ifs at hn with hp
  simp only [Option.some.injEq] at hn
  omega

theorem fat_ne_zero (h : I.Owns e l) (b : ℕ) (hb : b ∈ l) : I.fat b ≠ 0 := by
  obtain ⟨i, hi, rfl⟩ := List.mem_iff_getElem.mp hb
  by_cases hl : i + 1 < l.length
  · have hd := h.data l[i + 1] (List.getElem_mem hl)
    rw [h.fat_link i hl]
    have := hd.1
    omega
  · have hlast := h.fat_last
    rw [List.getLast_eq_getElem] at hlast
    have hi' : l[i] = l[l.length - 1] := by
      congr 1
      omega
    rw [hi', hlast]
    decide

theorem not_free (h : I.Owns e l) : I.free e = false := by
  have hs := h.head h.length_pos
  have hd := h.data _ (List.getElem_mem h.length_pos)
  have hz := h.fat_ne_zero _ (List.getElem_mem h.length_pos)
  have h0 : e.start ≠ 0 := by
    have := hd.1
    omega
  rw [← hs] at hz
  simp [free, h0, hz]

theorem congr {J : Image} {e' : DirEntry} (h : I.Owns e l) (hs : e'.start = e.start)
    (hf : ∀ b ∈ l, J.fat b = I.fat b) (hd : ∀ b ∈ l, J.IsData b) : J.Owns e' l := by
  obtain ⟨b, hb, hc⟩ := h.start
  refine ⟨⟨b, hs.trans hb, hc.congr (fun x hx => ?_) (fun x hx hF => ?_)⟩, hd⟩
  · simp only [next, hf x hx]
  · exact (hf x hx).trans hF

theorem concat {J : Image} {f : ℕ} (h : I.Owns e l) (hf : 0 < f) (hlast : J.fat (l.getLast h.ne_nil) = f)
    (hfinal : J.fat f = FINAL) (hsame : ∀ b ∈ l.dropLast, J.fat b = I.fat b)
    (hd : ∀ b ∈ l ++ [f], J.IsData b) : J.Owns e (l ++ [f]) := by
  obtain ⟨b, hb, hc⟩ := h.start
  refine ⟨⟨b, hb, hc.append (fun x hx => next_congr (hsame x hx)) ?_ (.last hfinal)⟩, hd⟩
  rw [next, hlast, if_pos (by exact_mod_cast hf), Int.toNat_natCast]

theorem take {J : Image} (h : I.Owns e l) (n : ℕ) (hn : n < l.length) (hfinal : J.fat l[n] = FINAL)
    (hsame : ∀ b ∈ l.take n, J.fat b = I.fat b) (hd : ∀ b ∈ l.take (n + 1), J.IsData b) :
    J.Owns e (l.take (n + 1)) := by
  obtain ⟨b, hb, hc⟩ := h.start
  exact ⟨⟨b, hb, hc.take n hn (fun x hx => next_congr (hsame x hx)) hfinal⟩, hd⟩

end Owns

theorem mem_slotsIn_drop {c : List ℕ} {n m k : ℕ} :
    k ∈ (I.slotsIn c n).drop m ↔ ∃ i, m ≤ i ∧ i < n ∧ I.slotAt c i = k := by
  rw [slotsIn, ← List.map_drop, List.mem_map]
  constructor
  · rintro ⟨i, hi, rfl⟩
    obtain ⟨j, hj, rfl⟩ := List.mem_iff_getElem.mp hi
    simp only [List.length_drop, List.length_range] at hj
    exact ⟨m + j, by omega, by omega, by simp⟩
  · rintro ⟨i, h₁, h₂, rfl⟩
    refine ⟨i, List.mem_iff_getElem.mpr ⟨i - m, by simp; omega, ?_⟩, rfl⟩
    simp
    omega

theorem mem_slotsIn {c : List ℕ} {n k : ℕ} : k ∈ I.slotsIn c n ↔ ∃ i, i < n ∧ I.slotAt c i = k := by
  have h := mem_slotsIn_drop (I := I) (c := c) (n := n) (m := 0) (k := k)
  simpa using h

theorem slotAt_block (l : List ℕ) (i : ℕ) (hi : i / I.epb < l.length) (hepb : 0 < I.epb) :
    I.slotAt l i / I.epb = l[i / I.epb] := by
  rw [slotAt, Nat.add_comm, Nat.add_mul_div_right _ _ hepb, Nat.div_eq_of_lt (Nat.mod_lt _ hepb),
    Nat.zero_add, List.getD_eq_getElem _ _ hi]

theorem slotAt_rem (l : List ℕ) (i : ℕ) : I.slotAt l i % I.epb = i % I.epb := by
  rw [slotAt, Nat.add_comm, Nat.add_mul_mod_self_right, Nat.mod_mod]

theorem slotAt_mem (hepb : 0 < I.epb) (l : List ℕ) (i : ℕ) (hi : i / I.epb < l.length) :
    I.slotAt l i / I.epb ∈ l := by
  rw [slotAt_block l i hi hepb]
  exact List.getElem_mem _

theorem slotAt_inj (hepb : 0 < I.epb) {l : List ℕ} (hl : l.Nodup) {i j : ℕ}
    (hi : i / I.epb < l.length) (hj : j / I.epb < l.length) (h : I.slotAt l i = I.slotAt l j) : i = j := by
  have hb := congrArg (· / I.epb) h
  have hr := congrArg (· % I.epb) h
  simp only [slotAt_rem] at hr
  simp only [slotAt_block l _ hi hepb, slotAt_block l _ hj hepb] at hb
  have hd := (List.Nodup.getElem_inj_iff hl).mp hb
  rw [← Nat.div_add_mod i I.epb, ← Nat.div_add_mod j I.epb, hd, hr]

end Image

end Thorn.FatImage
