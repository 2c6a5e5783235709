import Thorn.Library.Bytes
import Mathlib.Data.Nat.Bitwise
import Mathlib.Data.List.Perm.Basic
import Mathlib.Data.List.Nodup

set_option autoImplicit false

/-!
# Bits of a little-endian store

A store of bytes read as an array of bits, through words of any width: the bits a
word shows, setting one of them, and the search for a clear one.
-/
namespace ByteStore

def bitAt (m : Store) (k : ℕ) : Bool := (m (k / 8)).toNat.testBit (k % 8)

def word (w : ℕ) (m : Store) (i : ℕ) : ℕ := leNat (slice m (w * i) w)

def setWord (w : ℕ) (m : Store) (i v : ℕ) : Store := patch m (w * i) (leBytes w v)

def setBit (w : ℕ) (m : Store) (k : ℕ) : Store :=
  setWord w m (k / (8 * w)) (word w m (k / (8 * w)) ||| 1 <<< (k % (8 * w)))

def clearBit (w : ℕ) (m : Store) (k : ℕ) : Store :=
  setWord w m (k / (8 * w)) (word w m (k / (8 * w)) &&& (2 ^ (8 * w) - 1 - 1 <<< (k % (8 * w))))

theorem testBit_leNat (bs : List UInt8) (j : ℕ) (hj : j < 8 * bs.length) :
    (leNat bs).testBit j = (bs.getD (j / 8) 0).toNat.testBit (j % 8) := by
  induction bs generalizing j with
  | nil =>
    rw [List.length_nil] at hj
    omega
  | cons b bs ih =>
    have hlen : (b :: bs).length = bs.length + 1 := rfl
    have hb : b.toNat < 2 ^ 8 := b.toNat_lt
    rw [leNat, Nat.add_comm, show 256 = 2 ^ 8 from rfl, Nat.testBit_two_pow_mul_add _ hb]
    split_ifs with hlow
    · rw [Nat.div_eq_of_lt hlow, Nat.mod_eq_of_lt hlow]
      rfl
    · have hdiv : j / 8 = (j - 8) / 8 + 1 := by omega
      have hmod : j % 8 = (j - 8) % 8 := by omega
      rw [ih (j - 8) (by omega), hdiv, hmod]
      rfl

theorem leBytes_getD (n v i : ℕ) (hi : i < n) : (leBytes n v).getD i 0 = UInt8.ofNat (v / 256 ^ i) := by
  induction n generalizing v i with
  | zero => omega
  | succ n ih =>
    cases i with
    | zero => simp [leBytes]
    | succ i =>
      change (leBytes n (v / 256)).getD i 0 = _
      rw [ih _ _ (by omega), Nat.div_div_eq_div_mul, Nat.pow_succ']

theorem testBit_word {w : ℕ} {m : Store} {i j : ℕ} (hj : j < 8 * w) :
    (word w m i).testBit j = bitAt m (8 * w * i + j) := by
  have hbit : 8 * w * i + j = 8 * (w * i) + j := by ring
  have hdiv : (8 * (w * i) + j) / 8 = w * i + j / 8 := by omega
  have hmod : (8 * (w * i) + j) % 8 = j % 8 := by omega
  rw [word, testBit_leNat _ _ (by rw [slice_length]; exact hj), bitAt, hbit, hdiv, hmod,
    List.getD_eq_getElem?_getD, slice_getElem? _ _ _ _ (by omega)]
  rfl

theorem testBit_leBytes (n v j : ℕ) (hj : j < 8 * n) :
    ((leBytes n v).getD (j / 8) 0).toNat.testBit (j % 8) = v.testBit j := by
  have hr : j % 8 < 8 := Nat.mod_lt _ (by omega)
  rw [leBytes_getD _ _ _ (by omega), UInt8.toNat_ofNat', Nat.testBit_mod_two_pow, decide_eq_true hr,
    Bool.true_and,
    show 256 = 2 ^ 8 from rfl, ← Nat.pow_mul, Nat.testBit_div_two_pow, Nat.add_comm, Nat.div_add_mod]

theorem bitAt_setWord {w : ℕ} (m : Store) (i v k : ℕ) (h0 : 0 < w) : bitAt (setWord w m i v) k =
    if k / (8 * w) = i then v.testBit (k % (8 * w)) else bitAt m k := by
  have hk := Nat.div_add_mod k (8 * w)
  have hr := Nat.mod_lt k (show 0 < 8 * w by omega)
  generalize k / (8 * w) = q at *
  generalize k % (8 * w) = r at *
  rw [Nat.mul_assoc] at hk
  unfold bitAt setWord patch
  rw [leBytes_length]
  by_cases hq : q = i
  · subst hq
    have hmod : k % 8 = r % 8 := by omega
    have hdiv : k / 8 - w * q = r / 8 := by omega
    rw [if_pos ⟨by omega, by omega⟩, if_pos rfl, hmod, hdiv]
    exact testBit_leBytes w v r hr
  · have hout : ¬ (w * i ≤ k / 8 ∧ k / 8 < w * i + w) := by
      rintro ⟨hlow, hhigh⟩
      have h₁ : i < q + 1 := Nat.lt_of_mul_lt_mul_left (a := w) (by rw [Nat.mul_succ]; omega)
      have h₂ : q < i + 1 := Nat.lt_of_mul_lt_mul_left (a := w) (by rw [Nat.mul_succ]; omega)
      omega
    rw [if_neg hout, if_neg hq]

theorem bitAt_setBit {w : ℕ} (m : Store) (k j : ℕ) (h0 : 0 < w) :
    bitAt (setBit w m k) j = (decide (j = k) || bitAt m j) := by
  have hj := Nat.div_add_mod j (8 * w)
  have hk := Nat.div_add_mod k (8 * w)
  have hr := Nat.mod_lt j (show 0 < 8 * w by omega)
  rw [setBit, bitAt_setWord m _ _ _ h0]
  by_cases hword : j / (8 * w) = k / (8 * w)
  · have hsame : (j % (8 * w) = k % (8 * w)) ↔ j = k := by
      constructor
      · intro h
        rw [← hj, ← hk, hword, h]
      · rintro rfl
        rfl
    rw [if_pos hword, Nat.testBit_or, Nat.one_shiftLeft, Nat.testBit_two_pow, ← hword, testBit_word hr, hj,
      Bool.or_comm, decide_eq_decide.mpr (eq_comm.trans hsame)]
  · have hne : j ≠ k := fun h => hword (by rw [h])
    rw [if_neg hword, decide_eq_false hne, Bool.false_or]

def firstClear (v n : ℕ) : Option ℕ := (List.range n).find? fun j => !v.testBit j

/-- The first clear bit of words `i`, …, `i + n - 1`; full words are passed over. -/
def scanWords (w : ℕ) (m : Store) : ℕ → ℕ → Option ℕ
  | 0, _ => none
  | n + 1, i =>
    if word w m i ≠ 2 ^ (8 * w) - 1 then
      match firstClear (word w m i) (8 * w) with
      | some j => some (i * (8 * w) + j)
      | none => scanWords w m n (i + 1)
    else scanWords w m n (i + 1)

theorem firstClear_eq_some {v n j : ℕ} (h : firstClear v n = some j) : j < n ∧ v.testBit j = false := by
  have hmem := List.mem_of_find?_eq_some h
  have hclear := List.find?_some h
  exact ⟨List.mem_range.mp hmem, by simpa using hclear⟩

theorem firstClear_eq_none {v n j : ℕ} (h : firstClear v n = none) (hj : j < n) : v.testBit j = true := by
  have hall := List.find?_eq_none.mp h j (List.mem_range.mpr hj)
  simpa using hall

theorem firstClear_full {n j : ℕ} (hj : j < n) : (2 ^ n - 1).testBit j = true := by
  rw [Nat.testBit_two_pow_sub_one, decide_eq_true hj]

theorem scanWords_eq_some {w n i k : ℕ} {m : Store} (h : scanWords w m n i = some k) :
    8 * w * i ≤ k ∧ k < 8 * w * (i + n) ∧ bitAt m k = false := by
  induction n generalizing i with
  | zero => cases h
  | succ n ih =>
    have hnext : scanWords w m n (i + 1) = some k →
        8 * w * i ≤ k ∧ k < 8 * w * (i + (n + 1)) ∧ bitAt m k = false := by
      intro h
      obtain ⟨hlow, hhigh, hclear⟩ := ih h
      rw [Nat.mul_add, Nat.mul_one] at hlow
      rw [Nat.add_assoc, Nat.add_comm 1] at hhigh
      exact ⟨by omega, hhigh, hclear⟩
    rw [scanWords] at h
    split_ifs at h with hfull
    · cases hfirst : firstClear (word w m i) (8 * w) with
      | none =>
        rw [hfirst] at h
        exact hnext h
      | some j =>
        rw [hfirst] at h
        obtain ⟨hj, hclear⟩ := firstClear_eq_some hfirst
        obtain rfl := Option.some.inj h
        rw [testBit_word hj] at hclear
        rw [Nat.mul_comm i, Nat.mul_add, Nat.mul_add, Nat.mul_one]
        exact ⟨by omega, by omega, hclear⟩
    · exact hnext h

theorem scanWords_eq_none {w n i k : ℕ} {m : Store} (h : scanWords w m n i = none) (hlow : 8 * w * i ≤ k)
    (hhigh : k < 8 * w * (i + n)) : bitAt m k = true := by
  induction n generalizing i with
  | zero =>
    rw [Nat.add_zero] at hhigh
    omega
  | succ n ih =>
    have hword : (∀ j < 8 * w, (word w m i).testBit j = true) → scanWords w m n (i + 1) = none →
        bitAt m k = true := by
      intro hset h
      by_cases hhere : k < 8 * w * i + 8 * w
      · have hbit := hset (k - 8 * w * i) (by omega)
        rw [testBit_word (by omega)] at hbit
        rwa [show 8 * w * i + (k - 8 * w * i) = k by omega] at hbit
      · refine ih h ?_ ?_
        · rw [Nat.mul_succ]
          omega
        · rwa [Nat.add_assoc, Nat.add_comm 1]
    rw [scanWords] at h
    split_ifs at h with hfull
    · cases hfirst : firstClear (word w m i) (8 * w) with
      | none =>
        rw [hfirst] at h
        exact hword (fun j hj => firstClear_eq_none hfirst hj) h
      | some j =>
        rw [hfirst] at h
        cases h
    · rw [not_not] at hfull
      exact hword (fun j hj => by rw [hfull]; exact firstClear_full hj) h

def popCount (v n : ℕ) : ℕ := (List.range n).countP v.testBit

def bitCount (m : Store) (n : ℕ) : ℕ := (List.range n).countP (bitAt m)

theorem sum_popCount (w : ℕ) (m : Store) (n : ℕ) :
    ((List.range n).map fun i => popCount (word w m i) (8 * w)).sum = bitCount m (8 * w * n) := by
  induction n with
  | zero => rfl
  | succ n ih =>
    rw [List.range_succ, List.map_append, List.sum_append, ih, bitCount, bitCount, Nat.mul_succ, List.range_add,
      List.countP_append, List.countP_map]
    simp only [List.map_cons, List.map_nil, List.sum_cons, List.sum_nil, Nat.add_zero]
    congr 1
    refine List.countP_congr fun j hj => ?_
    rw [testBit_word (List.mem_range.mp hj)]
    rfl

theorem bitCount_eq_length {m : Store} {n : ℕ} {l : List ℕ} (hnodup : l.Nodup)
    (h : ∀ k, bitAt m k = true ↔ k ∈ l) (hlt : ∀ k ∈ l, k < n) : bitCount m n = l.length := by
  rw [bitCount, List.countP_eq_length_filter]
  refine List.Perm.length_eq ((List.perm_ext_iff_of_nodup (List.nodup_range.filter _) hnodup).mpr fun k => ?_)
  rw [List.mem_filter, List.mem_range, h]
  exact ⟨fun hk => hk.2, fun hk => ⟨hlt k hk, hk⟩⟩

structure Marks (m : Store) (l : List ℕ) : Prop where
  nodup : l.Nodup
  bits : ∀ k, bitAt m k = true ↔ k ∈ l

theorem marks_zero : Marks (fun _ => 0) [] := ⟨List.nodup_nil, fun k => by simp [bitAt]⟩

theorem Marks.perm {m : Store} {l l' : List ℕ} (h : Marks m l) (hl : l.Perm l') : Marks m l' :=
  ⟨hl.nodup_iff.mp h.nodup, fun k => (h.bits k).trans hl.mem_iff⟩

theorem Marks.cons {m m' : Store} {l : List ℕ} {k : ℕ} (h : Marks m l) (hclear : bitAt m k = false)
    (hset : ∀ j, bitAt m' j = (decide (j = k) || bitAt m j)) : Marks m' (k :: l) := by
  have hnew : k ∉ l := fun hk => by
    rw [(h.bits k).mpr hk] at hclear
    cases hclear
  refine ⟨List.nodup_cons.mpr ⟨hnew, h.nodup⟩, fun j => ?_⟩
  rw [hset, Bool.or_eq_true, decide_eq_true_iff, h.bits, List.mem_cons]

theorem Marks.count {m : Store} {l : List ℕ} {n : ℕ} (h : Marks m l) (hlt : ∀ k ∈ l, k < n) :
    bitCount m n = l.length := bitCount_eq_length h.nodup h.bits hlt

end ByteStore
