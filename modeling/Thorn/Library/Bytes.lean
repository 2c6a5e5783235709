import Mathlib

set_option autoImplicit false

/-!
# Byte strings and byte stores

Little-endian words, and a store of bytes indexed by natural addresses with
reads (`slice`) and in-place writes (`patch`) of whole byte strings.
-/
namespace ByteStore

def leBytes : ℕ → ℕ → List UInt8
  | 0, _ => []
  | n + 1, v => UInt8.ofNat v :: leBytes n (v / 256)

def leNat : List UInt8 → ℕ
  | [] => 0
  | b :: bs => b.toNat + 256 * leNat bs

@[simp] theorem leBytes_length (n v : ℕ) : (leBytes n v).length = n := by
  induction n generalizing v with
  | zero => rfl
  | succ n ih => simp [leBytes, ih]

theorem leNat_leBytes (n v : ℕ) : leNat (leBytes n v) = v % 256 ^ n := by
  induction n generalizing v with
  | zero => simp [leBytes, leNat, Nat.mod_one]
  | succ n ih =>
    have hb : (UInt8.ofNat v).toNat = v % 256 := by simp
    rw [leBytes, leNat, ih, hb, pow_succ, Nat.mul_comm (256 ^ n) 256, Nat.mod_mul]

theorem leNat_lt (bs : List UInt8) : leNat bs < 256 ^ bs.length := by
  induction bs with
  | nil => simp [leNat]
  | cons b bs ih =>
    have hb := b.toNat_lt
    simp only [leNat, List.length_cons, pow_succ]
    omega

theorem leBytes_leNat (bs : List UInt8) : leBytes bs.length (leNat bs) = bs := by
  induction bs with
  | nil => rfl
  | cons b bs ih =>
    have hb := b.toNat_lt
    have hq : (b.toNat + 256 * leNat bs) / 256 = leNat bs := by omega
    have hr : UInt8.ofNat (b.toNat + 256 * leNat bs) = b := by
      apply UInt8.toNat.inj
      simp only [UInt8.toNat_ofNat']
      omega
    simp only [leNat, List.length_cons, leBytes, hq, hr, ih]

theorem leNat_inj (as bs : List UInt8) (hl : as.length = bs.length)
    (h : leNat as = leNat bs) : as = bs := by
  rw [← leBytes_leNat as, ← leBytes_leNat bs, hl, h]

abbrev Store := ℕ → UInt8

def slice (m : Store) (o n : ℕ) : List UInt8 := (List.range n).map fun i => m (o + i)

def patch (m : Store) (o : ℕ) (bs : List UInt8) : Store :=
  fun i => if o ≤ i ∧ i < o + bs.length then bs.getD (i - o) 0 else m i

@[simp] theorem slice_length (m : Store) (o n : ℕ) : (slice m o n).length = n := by
  simp [slice]

@[simp] theorem slice_zero (m : Store) (o : ℕ) : slice m o 0 = [] := rfl

theorem slice_getElem? (m : Store) (o n i : ℕ) (hi : i < n) : (slice m o n)[i]? = some (m (o + i)) := by
  simp [slice, hi]

theorem slice_congr (m m' : Store) (o n : ℕ) (h : ∀ i, o ≤ i → i < o + n → m' i = m i) :
    slice m' o n = slice m o n := by
  apply List.map_congr_left
  intro i hi
  have hi' := List.mem_range.mp hi
  exact h (o + i) (by omega) (by omega)

theorem slice_eq_iff (m m' : Store) (o n : ℕ) :
    slice m' o n = slice m o n ↔ ∀ i, o ≤ i → i < o + n → m' i = m i := by
  refine ⟨fun h i h₁ h₂ => ?_, slice_congr m m' o n⟩
  have hi : i - o < n := by omega
  have hg := congrArg (fun l => l[i - o]?) h
  simp only [slice_getElem? _ _ _ _ hi, Option.some.injEq] at hg
  rwa [show o + (i - o) = i by omega] at hg

theorem slice_add (m : Store) (o a b : ℕ) : slice m o (a + b) = slice m o a ++ slice m (o + a) b := by
  simp only [slice, List.range_add, List.map_append, List.map_map]
  congr 1
  apply List.map_congr_left
  intro i _
  simp [Nat.add_assoc]

theorem slice_drop_take (m : Store) (o n k l : ℕ) (h : k + l ≤ n) :
    ((slice m o n).drop k).take l = slice m (o + k) l := by
  obtain ⟨r, rfl⟩ : ∃ r, n = k + (l + r) := ⟨n - (k + l), by omega⟩
  rw [slice_add, List.drop_left' (slice_length m o k), slice_add,
    List.take_left' (slice_length m (o + k) l)]

theorem slice_take (m : Store) (o n l : ℕ) (h : l ≤ n) : (slice m o n).take l = slice m o l := by
  simpa using slice_drop_take m o n 0 l (by omega)

theorem patch_outside (m : Store) (o : ℕ) (bs : List UInt8) (i : ℕ)
    (h : i < o ∨ o + bs.length ≤ i) : patch m o bs i = m i := by
  simp only [patch, ite_eq_right_iff]
  omega

theorem patch_inside (m : Store) (o : ℕ) (bs : List UInt8) (i : ℕ) (hi : i < bs.length) :
    patch m o bs (o + i) = bs[i] := by
  simp [patch, hi]

theorem slice_patch_self (m : Store) (o : ℕ) (bs : List UInt8) : slice (patch m o bs) o bs.length = bs := by
  apply List.ext_getElem (by simp)
  intro i h₁ h₂
  simp [slice, patch_inside m o bs i h₂]

theorem slice_patch_disjoint (m : Store) (o : ℕ) (bs : List UInt8) (p n : ℕ)
    (h : p + n ≤ o ∨ o + bs.length ≤ p) : slice (patch m o bs) p n = slice m p n := by
  apply slice_congr
  intro i h₁ h₂
  exact patch_outside m o bs i (by omega)

theorem slice_patch_within (m : Store) (o : ℕ) (bs : List UInt8) (k r : ℕ) :
    slice (patch m (o + k) bs) o (k + bs.length + r) =
      slice m o k ++ bs ++ slice m (o + k + bs.length) r := by
  rw [slice_add, slice_add, slice_patch_disjoint _ _ _ _ _ (by omega),
    slice_patch_self, slice_patch_disjoint _ _ _ _ _ (by omega)]
  simp [Nat.add_assoc]

@[simp] theorem patch_nil (m : Store) (o : ℕ) : patch m o [] = m := by
  funext i
  exact patch_outside m o [] i (by simp; omega)

theorem patch_append (m : Store) (o : ℕ) (as bs : List UInt8) :
    patch (patch m o as) (o + as.length) bs = patch m o (as ++ bs) := by
  funext i
  by_cases h : o ≤ i ∧ i < o + (as ++ bs).length
  · obtain ⟨j, rfl⟩ : ∃ j, i = o + j := ⟨i - o, by omega⟩
    have hj : j < (as ++ bs).length := by omega
    rw [patch_inside m o (as ++ bs) j hj]
    by_cases ha : j < as.length
    · rw [patch_outside _ _ _ _ (by omega), patch_inside m o as j ha, List.getElem_append_left ha]
    · obtain ⟨l, rfl⟩ : ∃ l, j = as.length + l := ⟨j - as.length, by omega⟩
      have hl : l < bs.length := by simp only [List.length_append] at hj; omega
      rw [← Nat.add_assoc, patch_inside _ _ bs l hl, List.getElem_append_right (by omega)]
      simp
  · simp only [List.length_append] at h
    rw [patch_outside _ _ _ _ (by omega), patch_outside _ _ _ _ (by omega),
      patch_outside _ _ _ _ (by simp only [List.length_append]; omega)]

def overlay (buffer : List UInt8) (o : ℕ) (bytes : List UInt8) : List UInt8 :=
  buffer.take o ++ bytes ++ buffer.drop (o + bytes.length)

theorem overlay_length (buffer : List UInt8) (o : ℕ) (bytes : List UInt8)
    (h : o + bytes.length ≤ buffer.length) : (overlay buffer o bytes).length = buffer.length := by
  simp only [overlay, List.length_append, List.length_take, List.length_drop]
  omega

theorem overlay_full (buffer bytes : List UInt8) (h : buffer.length ≤ bytes.length) :
    overlay buffer 0 bytes = bytes := by
  simp [overlay, List.drop_of_length_le h]

theorem overlay_slice (m : Store) (o n r : ℕ) (bytes : List UInt8) (h : r + bytes.length ≤ n) :
    overlay (slice m o n) r bytes = slice (patch m (o + r) bytes) o n := by
  obtain ⟨l, rfl⟩ : ∃ l, n = r + bytes.length + l := ⟨n - (r + bytes.length), by omega⟩
  have hd := slice_drop_take m o (r + bytes.length + l) (r + bytes.length) l le_rfl
  rw [List.take_of_length_le (by simp)] at hd
  rw [slice_patch_within, overlay, slice_take _ _ _ _ (by omega), hd, Nat.add_assoc o]

theorem patch_slice (m m' : Store) (o n : ℕ) (h : ∀ i, i < o ∨ o + n ≤ i → m' i = m i) :
    patch m o (slice m' o n) = m' := by
  funext i
  by_cases hi : o ≤ i ∧ i < o + n
  · obtain ⟨j, rfl⟩ : ∃ j, i = o + j := ⟨i - o, by omega⟩
    have hj : j < n := by omega
    rw [patch_inside _ _ _ j (by rw [slice_length]; exact hj)]
    simp [slice]
  · rw [patch_outside _ _ _ _ (by rw [slice_length]; omega), h i (by omega)]

theorem patch_overlay (m : Store) (o n r : ℕ) (bytes : List UInt8) (h : r + bytes.length ≤ n) :
    patch m o (overlay (slice m o n) r bytes) = patch m (o + r) bytes := by
  rw [overlay_slice m o n r bytes h]
  exact patch_slice m _ o n fun i hi => patch_outside _ _ _ _ (by omega)

theorem slice_eq_take_drop (m : Store) (o n k : ℕ) (h : k ≤ n) :
    slice m o n = slice m o k ++ slice m (o + k) (n - k) := by
  rw [← slice_add, Nat.add_sub_cancel' h]

theorem patch_take_iff (m : Store) (o k : ℕ) (bs : List UInt8) (hk : k ≤ bs.length) :
    patch m o (bs.take k) = patch m o bs ↔
      bs.drop k = (slice m o bs.length).drop k := by
  have hcut : (bs.take k).length = k := by
    rw [List.length_take]
    omega
  have hjoin := patch_append m o (bs.take k) (bs.drop k)
  rw [hcut, List.take_append_drop] at hjoin
  have hslice : (slice m o bs.length).drop k = slice m (o + k) (bs.drop k).length := by
    rw [slice_eq_take_drop _ _ _ _ hk, List.drop_left' (slice_length _ _ _), List.length_drop]
  rw [hslice, ← hjoin]
  constructor
  · intro h
    have hs := congrArg (fun f => slice f (o + k) (bs.drop k).length) h
    simp only [slice_patch_self] at hs
    rw [slice_patch_disjoint _ _ _ _ _ (.inr (by omega))] at hs
    exact hs.symm
  · intro h
    have hsame := slice_patch_disjoint m o (bs.take k) (o + k) (bs.drop k).length
      (.inr (by omega))
    conv_rhs => rw [h, ← hsame]
    exact (patch_slice _ _ _ _ fun _ _ => rfl).symm

theorem patch_inj (m : Store) (o : ℕ) {as bs : List UInt8} (h : as.length = bs.length) :
    patch m o as = patch m o bs ↔ as = bs := by
  refine ⟨fun hp => ?_, fun hp => hp ▸ rfl⟩
  have hs := congrArg (fun f => slice f o as.length) hp
  simp only [slice_patch_self] at hs
  rw [h, slice_patch_self] at hs
  exact hs

end ByteStore
