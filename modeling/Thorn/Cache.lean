import Mathlib

set_option autoImplicit false

namespace Thorn

structure Cache (V : Type) where
  maxSize : ℕ
  map : ℕ → Option V
  list : List ℕ
  pos : 0 < maxSize
  nodup : list.Nodup
  keys : ∀ k, k ∈ list ↔ (map k).isSome
  bound : list.length ≤ maxSize

namespace Cache
variable {V : Type}

def empty (maxSize : ℕ) (pos : 0 < maxSize) : Cache V where
  maxSize := maxSize
  map _ := none
  list := []
  pos := pos
  nodup := List.nodup_nil
  keys := by simp
  bound := Nat.zero_le _

/-- `map.erase(list.back()); list.pop_back()`. -/
def eraseBack (c : Cache V) : Cache V where
  maxSize := c.maxSize
  map k := if k ∈ c.list.dropLast then c.map k else none
  list := c.list.dropLast
  pos := c.pos
  nodup := c.nodup.sublist (List.dropLast_sublist _)
  keys k := by
    by_cases h : k ∈ c.list.dropLast
    · rw [if_pos h]
      exact iff_of_true h ((c.keys k).mp (List.mem_of_mem_dropLast h))
    · rw [if_neg h]
      exact iff_of_false h (by simp)
  bound := by
    rw [List.length_dropLast]
    exact (Nat.sub_le _ _).trans c.bound

def ensureSpaceLoop (count : ℕ) : ℕ → Cache V → Cache V
  | 0, c => c
  | n + 1, c => if c.maxSize < c.list.length + count then ensureSpaceLoop count n c.eraseBack else c

def ensureSpace (c : Cache V) (count : ℕ) : Cache V := ensureSpaceLoop count c.list.length c

def moveFront (c : Cache V) (k : ℕ) (h : k ∈ c.list) : Cache V where
  maxSize := c.maxSize
  map := c.map
  list := k :: c.list.erase k
  pos := c.pos
  nodup := List.nodup_cons.mpr ⟨fun hk => ((c.nodup.mem_erase_iff).mp hk).1 rfl, c.nodup.erase k⟩
  keys j := by
    rw [← c.keys j, List.mem_cons, c.nodup.mem_erase_iff]
    by_cases hj : j = k
    · simp [hj, h]
    · simp [hj]
  bound := by
    rw [List.length_cons, List.length_erase_of_mem h]
    have := List.length_pos_of_mem h
    have := c.bound
    omega

/-- `map.try_emplace` and `list.push_front` of a key that is not there. -/
def pushFront (c : Cache V) (k : ℕ) (v : V) (h : k ∉ c.list) (room : c.list.length + 1 ≤ c.maxSize) :
    Cache V where
  maxSize := c.maxSize
  map j := if j = k then some v else c.map j
  list := k :: c.list
  pos := c.pos
  nodup := List.nodup_cons.mpr ⟨h, c.nodup⟩
  keys j := by
    rw [List.mem_cons]
    by_cases hj : j = k
    · simp [hj]
    · rw [if_neg hj, or_iff_right hj]
      exact c.keys j
  bound := room

theorem ensureSpaceLoop_list (n : ℕ) (c : Cache V) (h : c.list.length ≤ n) :
    (ensureSpaceLoop 1 n c).list = c.list.take (c.maxSize - 1) ∧ (ensureSpaceLoop 1 n c).maxSize = c.maxSize ∧
      ∀ k, (ensureSpaceLoop 1 n c).map k = if k ∈ c.list.take (c.maxSize - 1) then c.map k else none := by
  have hpos := c.pos
  have hbound := c.bound
  have hkeep : c.list.length + 1 ≤ c.maxSize → c.list.take (c.maxSize - 1) = c.list := fun hle =>
    List.take_of_length_le (by omega)
  have hmap : ∀ k, c.map k = if k ∈ c.list then c.map k else none := fun k => by
    split_ifs with hk
    · rfl
    · rw [c.keys k] at hk
      simpa using hk
  induction n generalizing c with
  | zero =>
    rw [ensureSpaceLoop, hkeep (by omega)]
    exact ⟨rfl, rfl, hmap⟩
  | succ n ih =>
    rw [ensureSpaceLoop]
    split_ifs with hc
    · have hdrop : c.list.dropLast.take (c.maxSize - 1) = c.list.take (c.maxSize - 1) := by
        rw [List.dropLast_eq_take, List.take_take, Nat.min_eq_left (by omega)]
      have hlen : c.eraseBack.list.length = c.list.length - 1 := List.length_dropLast
      have hfits : c.eraseBack.list.length + 1 ≤ c.maxSize → c.eraseBack.list.take (c.maxSize - 1) = c.eraseBack.list :=
        fun hle => List.take_of_length_le (by omega)
      obtain ⟨h₁, h₂, h₃⟩ := ih c.eraseBack (by omega) c.pos c.eraseBack.bound hfits
        fun k => by
          change (if k ∈ c.list.dropLast then c.map k else none) =
            if k ∈ c.list.dropLast then (if k ∈ c.list.dropLast then c.map k else none) else none
          split_ifs <;> rfl
      refine ⟨h₁.trans hdrop, h₂, fun k => (h₃ k).trans ?_⟩
      change (if k ∈ c.list.dropLast.take (c.maxSize - 1) then (if k ∈ c.list.dropLast then c.map k else none)
        else none) = _
      rw [hdrop]
      by_cases hk : k ∈ c.list.take (c.maxSize - 1)
      · rw [if_pos hk, if_pos hk, if_pos (List.mem_of_mem_take (hdrop ▸ hk))]
      · rw [if_neg hk, if_neg hk]
    · rw [hkeep (by omega)]
      exact ⟨rfl, rfl, hmap⟩

theorem ensureSpace_list (c : Cache V) : (c.ensureSpace 1).list = c.list.take (c.maxSize - 1) :=
  (ensureSpaceLoop_list _ c le_rfl).1

theorem ensureSpace_maxSize (c : Cache V) : (c.ensureSpace 1).maxSize = c.maxSize :=
  (ensureSpaceLoop_list _ c le_rfl).2.1

theorem ensureSpace_map (c : Cache V) (k : ℕ) :
    (c.ensureSpace 1).map k = if k ∈ c.list.take (c.maxSize - 1) then c.map k else none :=
  (ensureSpaceLoop_list _ c le_rfl).2.2 k

/-- `operator[]`: the key is made the most recently used one, with a fresh value
when it is new; and whether it is. -/
def lookup (c : Cache V) (fresh : V) (k : ℕ) : Cache V × Bool :=
  if h : k ∈ c.list then (c.moveFront k h, false)
  else ((c.ensureSpace 1).pushFront k fresh
    (fun hk => h (List.mem_of_mem_take (c.ensureSpace_list ▸ hk)))
    (by
      have := c.pos
      rw [c.ensureSpace_list, c.ensureSpace_maxSize, List.length_take]
      omega), true)

def touch (maxSize : ℕ) (keys : List ℕ) (k : ℕ) : List ℕ :=
  if k ∈ keys then k :: keys.erase k else k :: keys.take (maxSize - 1)

theorem touch_mem (maxSize : ℕ) (keys : List ℕ) (k : ℕ) : k ∈ touch maxSize keys k := by
  unfold touch
  split_ifs <;> exact List.mem_cons_self

theorem touch_touch (maxSize : ℕ) (keys : List ℕ) (k : ℕ) :
    touch maxSize (touch maxSize keys k) k = touch maxSize keys k := by
  have hcons : ∀ l : List ℕ, touch maxSize (k :: l) k = k :: l := fun l => by
    rw [touch, if_pos List.mem_cons_self, List.erase_cons_head]
  by_cases h : k ∈ keys
  · have ht : touch maxSize keys k = k :: keys.erase k := if_pos h
    rw [ht, hcons]
  · have ht : touch maxSize keys k = k :: keys.take (maxSize - 1) := if_neg h
    rw [ht, hcons]

theorem lookup_list (c : Cache V) (fresh : V) (k : ℕ) :
    (c.lookup fresh k).1.list = touch c.maxSize c.list k := by
  unfold lookup touch
  split_ifs with h
  · rfl
  · rw [← c.ensureSpace_list]
    rfl

theorem lookup_maxSize (c : Cache V) (fresh : V) (k : ℕ) : (c.lookup fresh k).1.maxSize = c.maxSize := by
  unfold lookup
  split_ifs with h
  · rfl
  · exact c.ensureSpace_maxSize

theorem lookup_created (c : Cache V) (fresh : V) (k : ℕ) : (c.lookup fresh k).2 = true ↔ k ∉ c.list := by
  unfold lookup
  split_ifs with h <;> simp [h]

theorem lookup_self (c : Cache V) (fresh : V) (k : ℕ) :
    (c.lookup fresh k).1.map k = if k ∈ c.list then c.map k else some fresh := by
  unfold lookup
  split_ifs with h
  · rfl
  · exact if_pos rfl

theorem lookup_other (c : Cache V) (fresh : V) (k j : ℕ) (hj : j ≠ k) (v : V)
    (h : (c.lookup fresh k).1.map j = some v) : c.map j = some v := by
  unfold lookup at h
  split_ifs at h with hk
  · exact h
  · have hm : (if j = k then some fresh else (c.ensureSpace 1).map j) = some v := h
    rw [if_neg hj, c.ensureSpace_map] at hm
    split_ifs at hm with hj'
    exact hm

def update (c : Cache V) (k : ℕ) (f : V → V) : Cache V where
  maxSize := c.maxSize
  map j := if j = k then (c.map j).map f else c.map j
  list := c.list
  pos := c.pos
  nodup := c.nodup
  keys j := by
    rw [c.keys j]
    split_ifs <;> simp
  bound := c.bound

theorem update_self (c : Cache V) (k : ℕ) (f : V → V) : (c.update k f).map k = (c.map k).map f := if_pos rfl

theorem update_other (c : Cache V) (k j : ℕ) (f : V → V) (hj : j ≠ k) :
    (c.update k f).map j = c.map j := if_neg hj

@[simp] theorem update_list (c : Cache V) (k : ℕ) (f : V → V) : (c.update k f).list = c.list := rfl

@[simp] theorem update_maxSize (c : Cache V) (k : ℕ) (f : V → V) : (c.update k f).maxSize = c.maxSize := rfl

end Cache

end Thorn
