import Thorn.Library.Bytes

set_option autoImplicit false

namespace ByteStack

section Memory
variable {w : ℕ}

abbrev Memory (w : ℕ) := BitVec w → UInt8

def load (m : Memory w) (a : BitVec w) (n : ℕ) : List UInt8 :=
  (List.range n).map fun i => m (a + BitVec.ofNat w i)

def store (m : Memory w) (a : BitVec w) (bs : List UInt8) : Memory w :=
  fun x => bs.getD (x - a).toNat (m x)

def Stands (m : Memory w) (a : BitVec w) (bs : List UInt8) : Prop := load m a bs.length = bs

variable {m m' : Memory w} {a : BitVec w} {xs ys : List UInt8} {n : ℕ}

@[simp] theorem load_length : (load m a n).length = n := by
  rw [load, List.length_map, List.length_range]

theorem load_congr (h : ∀ i < n, m' (a + BitVec.ofNat w i) = m (a + BitVec.ofNat w i)) :
    load m' a n = load m a n := by
  apply List.map_congr_left
  intro i hi
  exact h i (List.mem_range.mp hi)

theorem load_add (k : ℕ) : load m a (n + k) = load m a n ++ load m (a + BitVec.ofNat w n) k := by
  rw [load, List.range_add, List.map_append, List.map_map]
  congr 1
  apply List.map_congr_left
  intro i _
  rw [Function.comp_apply, BitVec.ofNat_add, BitVec.add_assoc]

theorem stands_load : Stands m a (load m a n) := by
  rw [Stands, load_length]

theorem stands_append : Stands m a (xs ++ ys) ↔ Stands m a xs ∧ Stands m (a + BitVec.ofNat w xs.length) ys := by
  rw [Stands, List.length_append, load_add]
  constructor
  · intro h
    exact List.append_inj h load_length
  · rintro ⟨hx, hy⟩
    rw [hx, hy]

theorem Stands.congr (h : Stands m a xs)
    (same : ∀ i < xs.length, m' (a + BitVec.ofNat w i) = m (a + BitVec.ofNat w i)) : Stands m' a xs :=
  (load_congr same).trans h

theorem offset_toNat {i : ℕ} (hi : i < 2 ^ w) : (a + BitVec.ofNat w i - a).toNat = i := by
  rw [BitVec.add_comm, BitVec.add_sub_cancel, BitVec.toNat_ofNat, Nat.mod_eq_of_lt hi]

theorem stands_store (hx : xs.length ≤ 2 ^ w) : Stands (store m a xs) a xs := by
  apply List.ext_getElem load_length
  intro i h₁ h₂
  have hoff := offset_toNat (a := a) (lt_of_lt_of_le h₂ hx)
  simp only [load, List.getElem_map, List.getElem_range, store]
  rw [hoff, List.getD_eq_getElem _ _ h₂]

theorem Stands.store_below (h : Stands m (a + BitVec.ofNat w xs.length) ys)
    (hlen : xs.length + ys.length ≤ 2 ^ w) : Stands (store m a xs) (a + BitVec.ofNat w xs.length) ys := by
  refine h.congr fun i hi => ?_
  have hoff : (a + BitVec.ofNat w xs.length + BitVec.ofNat w i - a).toNat = xs.length + i := by
    rw [BitVec.add_assoc, ← BitVec.ofNat_add]
    exact offset_toNat (by omega)
  rw [store, hoff, List.getD_eq_default _ _ (Nat.le_add_right _ _)]

theorem Stands.push (h : Stands m a ys) (hlen : xs.length + ys.length ≤ 2 ^ w) :
    Stands (store m (a - BitVec.ofNat w xs.length) xs) (a - BitVec.ofNat w xs.length) (xs ++ ys) := by
  have hback : a - BitVec.ofNat w xs.length + BitVec.ofNat w xs.length = a := BitVec.sub_add_cancel _ _
  rw [← hback] at h
  exact stands_append.mpr ⟨stands_store (by omega), h.store_below hlen⟩

end Memory

end ByteStack
