import Thorn.Library.Runs
import Thorn.Cache
import Mathlib.Data.Finmap

set_option autoImplicit false

/-!
# The cache's two structures

`Cache.h` as it stands: a map whose entries hold the position of their node in the
list, and the list, whose nodes hold map iterators. A map iterator is a key, a
list iterator the address of a node. What would be undefined, or fails an
assertion, is `none`.
-/
namespace Thorn
open Runs

structure Node (K : Type) where
  addr : ℕ
  key : K

structure NodeCache (K V : Type) where
  maxSize : ℕ
  map : Finmap fun _ : K => ℕ × V
  list : List (Node K)
  /-- How many nodes have been made. -/
  made : ℕ

namespace NodeCache
variable {K V : Type} [DecidableEq K]

def empty (maxSize : ℕ) : NodeCache K V := { maxSize := maxSize, map := ∅, list := [], made := 0 }

def addrs (c : NodeCache K V) : List ℕ := c.list.map Node.addr

def keys (c : NodeCache K V) : List K := c.list.map Node.key

def size (c : NodeCache K V) : ℕ := c.map.keys.card

/-- `map.erase(list.back()); list.pop_back()`. -/
def eraseBack (c : NodeCache K V) : Option (NodeCache K V) :=
  match c.list.getLast? with
  | some node =>
    if node.key ∈ c.map then some { c with map := c.map.erase node.key, list := c.list.dropLast } else none
  | none => none

def ensureSpaceLoop (count : ℕ) : ℕ → NodeCache K V → Option (NodeCache K V)
  | 0, c => if c.maxSize < c.size + count then none else some c
  | n + 1, c => if c.maxSize < c.size + count then c.eraseBack >>= ensureSpaceLoop count n else some c

def ensureSpace (c : NodeCache K V) (count : ℕ) :
    Option (NodeCache K V) := ensureSpaceLoop count c.list.length c

section Alloc
variable (alloc : ℕ → List ℕ → ℕ)

/-- `list.push_front`. The n-th node to be made is given an address by `alloc`, which is
told those in use. -/
def pushFront (c : NodeCache K V) (k : K) : NodeCache K V :=
  { c with list := ⟨alloc c.made c.addrs, k⟩ :: c.list, made := c.made + 1 }

/-- The entry of `k` is given `list.begin()`. -/
def setPosition (c : NodeCache K V) (k : K) : Option (NodeCache K V) :=
  match c.map.lookup k, c.list.head? with
  | some (_, v), some node => some { c with map := c.map.insert k (node.addr, v) }
  | _, _ => none

def eraseNode (c : NodeCache K V) (addr : ℕ) : Option (NodeCache K V) :=
  if addr ∈ c.addrs then some { c with list := c.list.filter fun node => node.addr ≠ addr } else none

def moveFront (c : NodeCache K V) (k : K) : Option (NodeCache K V) :=
  match c.map.lookup k with
  | some (addr, _) => c.eraseNode addr >>= fun c => (c.pushFront alloc k).setPosition k
  | none => none

def store (c : NodeCache K V) (k : K) (v : V) : Option (NodeCache K V) :=
  match c.map.lookup k with
  | some (addr, _) => some { c with map := c.map.insert k (addr, v) }
  | none => none

/-- `emplace`, and whether the key was inserted. -/
def emplace (c : NodeCache K V) (k : K) (v : V) : Option (NodeCache K V × Bool) :=
  if k ∈ c.map then do
    let c ← c.moveFront alloc k
    let c ← c.store k v
    return (c, false)
  else do
    let c ← c.ensureSpace 1
    guard (k ∉ c.map)
    let c := { c with map := c.map.insert k (0, v) }
    let c ← (c.pushFront alloc k).setPosition k
    return (c, true)

def lookupValue (c : NodeCache K V) (k : K) : Option V := (c.map.lookup k).map Prod.snd

/-- `at`, and the value. -/
def at' (c : NodeCache K V) (k : K) : Option (NodeCache K V × V) :=
  if k ∈ c.map then do
    let c ← c.moveFront alloc k
    return (c, ← c.lookupValue k)
  else none

/-- `operator[]`: the value, and whether the entry is a new one. -/
def index [Inhabited V] (c : NodeCache K V) (k : K) : Option (NodeCache K V × V × Bool) :=
  if k ∈ c.map then do
    let c ← c.moveFront alloc k
    return (c, ← c.lookupValue k, false)
  else do
    let (c, _) ← c.emplace alloc k default
    return (c, ← c.lookupValue k, true)

end Alloc

def touch (maxSize : ℕ) (keys : List K) (k : K) : List K :=
  if k ∈ keys then k :: keys.erase k else k :: keys.take (maxSize - 1)

/-- The map and the list belong together. -/
structure Linked (c : NodeCache K V) : Prop where
  pos : 0 < c.maxSize
  keys_nodup : c.keys.Nodup
  addrs_nodup : c.addrs.Nodup
  mem_iff : ∀ k, k ∈ c.keys ↔ k ∈ c.map
  position : ∀ k addr v, c.map.lookup k = some (addr, v) → ⟨addr, k⟩ ∈ c.list
  bound : c.size ≤ c.maxSize

/-- `c'` is `c` after an access to `k`, which has the value `v` now. -/
structure Touched (c : NodeCache K V) (k : K) (v : V) (c' : NodeCache K V) : Prop where
  linked : Linked c'
  maxSize_eq : c'.maxSize = c.maxSize
  keys_eq : c'.keys = touch c.maxSize c.keys k
  value_self : c'.lookupValue k = some v
  value_other : ∀ j, j ≠ k → c'.lookupValue j = if j ∈ c'.keys then c.lookupValue j else none

variable {c : NodeCache K V}

theorem empty_linked {maxSize : ℕ} (pos : 0 < maxSize) : Linked (empty maxSize : NodeCache K V) where
  pos := pos
  keys_nodup := List.nodup_nil
  addrs_nodup := List.nodup_nil
  mem_iff := by
    intro k
    exact iff_of_false List.not_mem_nil Finmap.notMem_empty
  position := by
    intro k addr v h
    rw [show (empty maxSize : NodeCache K V).map = ∅ from rfl, Finmap.lookup_empty] at h
    cases h
  bound := Nat.zero_le _

theorem size_eq_length (hnodup : c.keys.Nodup) (hmem : ∀ k, k ∈ c.keys ↔ k ∈ c.map) :
    c.size = c.list.length := by
  have hkeys : c.map.keys = c.keys.toFinset := by
    ext k
    rw [Finmap.mem_keys, List.mem_toFinset, hmem]
  unfold size
  rw [hkeys, List.toFinset_card_of_nodup hnodup]
  exact List.length_map _

theorem Linked.size_eq (h : Linked c) : c.size = c.list.length := size_eq_length h.keys_nodup h.mem_iff

theorem Linked.length_le (h : Linked c) : c.list.length ≤ c.maxSize := by
  rw [← h.size_eq]
  exact h.bound

theorem Linked.node_ext (h : Linked c) {x y : Node K} (hx : x ∈ c.list) (hy : y ∈ c.list) :
    x.addr = y.addr ↔ x.key = y.key := by
  constructor
  · intro he
    rw [List.inj_on_of_nodup_map h.addrs_nodup hx hy he]
  · intro he
    rw [List.inj_on_of_nodup_map h.keys_nodup hx hy he]

theorem Linked.lookup_some (h : Linked c) {k : K} (hk : k ∈ c.map) :
    ∃ addr v, c.map.lookup k = some (addr, v) ∧ ⟨addr, k⟩ ∈ c.list := by
  obtain ⟨⟨addr, v⟩, hl⟩ := Finmap.mem_iff.mp hk
  exact ⟨addr, v, hl, h.position k addr v hl⟩

theorem Linked.front (h : Linked c) {rest : List (Node K)} {k : K} {addr made : ℕ} {v : V}
    {map : Finmap fun _ : K => ℕ × V} (hrest : rest.Sublist c.list) (hkey : k ∉ rest.map Node.key)
    (haddr : addr ∉ rest.map Node.addr) (hroom : rest.length < c.maxSize)
    (hself : map.lookup k = some (addr, v))
    (hother : ∀ j, j ≠ k → map.lookup j = if j ∈ rest.map Node.key then c.map.lookup j else none) :
    Linked { maxSize := c.maxSize, map := map, list := ⟨addr, k⟩ :: rest, made := made } := by
  have hnodup : (k :: rest.map Node.key).Nodup :=
    List.nodup_cons.mpr ⟨hkey, h.keys_nodup.sublist (hrest.map _)⟩
  have hmem : ∀ j, j ∈ k :: rest.map Node.key ↔ j ∈ map := by
    intro j
    rw [← Finmap.lookup_isSome, List.mem_cons]
    by_cases hj : j = k
    · rw [hj, hself]
      exact iff_of_true (.inl rfl) rfl
    · rw [hother j hj, or_iff_right hj]
      split_ifs with hr
      · refine iff_of_true hr ?_
        rw [Finmap.lookup_isSome, ← h.mem_iff]
        exact (hrest.map Node.key).subset hr
      · exact iff_of_false hr Bool.false_ne_true
  refine ⟨h.pos, hnodup, List.nodup_cons.mpr ⟨haddr, h.addrs_nodup.sublist (hrest.map _)⟩, hmem, ?_, ?_⟩
  · intro j a w hj
    by_cases hjk : j = k
    · subst hjk
      rw [hself] at hj
      cases hj
      exact List.mem_cons_self
    · rw [hother j hjk] at hj
      split_ifs at hj with hr
      obtain ⟨node, hnode, hkeyeq⟩ := List.mem_map.mp hr
      have hold := h.position j a w hj
      have heq : node = ⟨a, j⟩ := List.inj_on_of_nodup_map h.keys_nodup (hrest.subset hnode) hold hkeyeq
      exact List.mem_cons_of_mem _ (heq ▸ hnode)
  · have hsize :
        size { maxSize := c.maxSize, map := map, list := ⟨addr, k⟩ :: rest, made := made } = rest.length + 1 :=
      size_eq_length hnodup hmem
    rw [hsize]
    exact hroom

theorem Linked.touched (h : Linked c) {rest : List (Node K)} {k : K} {addr made : ℕ} {v : V}
    {map : Finmap fun _ : K => ℕ × V} (hrest : rest.Sublist c.list) (hkey : k ∉ rest.map Node.key)
    (haddr : addr ∉ rest.map Node.addr) (hroom : rest.length < c.maxSize)
    (hself : map.lookup k = some (addr, v))
    (hother : ∀ j, j ≠ k → map.lookup j = if j ∈ rest.map Node.key then c.map.lookup j else none)
    (hkeys : k :: rest.map Node.key = touch c.maxSize c.keys k) :
    Touched c k v { maxSize := c.maxSize, map := map, list := ⟨addr, k⟩ :: rest, made := made } where
  linked := h.front hrest hkey haddr hroom hself hother
  maxSize_eq := rfl
  keys_eq := hkeys
  value_self := by
    unfold lookupValue
    rw [hself]
    rfl
  value_other := by
    intro j hj
    unfold lookupValue
    rw [hother j hj]
    have hmem : j ∈ k :: rest.map Node.key ↔ j ∈ rest.map Node.key := by rw [List.mem_cons, or_iff_right hj]
    change Option.map _ (if _ then _ else _) = if j ∈ k :: rest.map Node.key then _ else _
    by_cases hr : j ∈ rest.map Node.key
    · rw [if_pos hr, if_pos (hmem.mpr hr)]
    · rw [if_neg hr, if_neg (mt hmem.mp hr)]
      rfl

theorem keys_filter (h : c.keys.Nodup) (k : K) :
    (c.list.filter fun node => node.key ≠ k).map Node.key = c.keys.erase k := by
  rw [h.erase_eq_filter]
  unfold keys
  rw [List.filter_map]
  congr 1
  apply List.filter_congr
  intro node _
  by_cases hk : node.key = k <;> simp [hk]

section Alloc
variable {alloc : ℕ → List ℕ → ℕ} (fresh : ∀ n live, alloc n live ∉ live)
include fresh

omit fresh in
theorem setPosition_pushFront (alloc : ℕ → List ℕ → ℕ) {k : K} {addr : ℕ} {v : V}
    (hl : c.map.lookup k = some (addr, v)) :
    (c.pushFront alloc k).setPosition k =
      some { maxSize := c.maxSize, map := c.map.insert k (alloc c.made c.addrs, v),
             list := ⟨alloc c.made c.addrs, k⟩ :: c.list, made := c.made + 1 } := by
  unfold setPosition
  rw [show (c.pushFront alloc k).map.lookup k = some (addr, v) from hl]
  rfl

omit fresh in
theorem moveFront_eq {k : K} {addr : ℕ} {v : V} (hl : c.map.lookup k = some (addr, v)) (hmem : addr ∈ c.addrs) :
    c.moveFront alloc k =
      ({ c with list := c.list.filter fun node => node.addr ≠ addr }.pushFront alloc k).setPosition k := by
  unfold NodeCache.moveFront eraseNode
  rw [hl]
  dsimp only
  rw [if_pos hmem]
  rfl

theorem Linked.moveFront (h : Linked c) {k : K} (hk : k ∈ c.map) :
    ∃ v c', c.lookupValue k = some v ∧ c.moveFront alloc k = some c' ∧ Touched c k v c' := by
  obtain ⟨addr, v, hl, hnode⟩ := h.lookup_some hk
  have hrest : (c.list.filter fun node => node.addr ≠ addr) = c.list.filter fun node => node.key ≠ k := by
    apply List.filter_congr
    intro node hn
    rw [decide_eq_decide]
    exact not_congr (h.node_ext hn hnode)
  have hmem : addr ∈ c.addrs := List.mem_map.mpr ⟨_, hnode, rfl⟩
  have hkeys : (c.list.filter fun node => node.key ≠ k).map Node.key = c.keys.erase k :=
    keys_filter h.keys_nodup k
  have hin : k ∈ c.keys := (h.mem_iff k).mpr hk
  have hvalue : c.lookupValue k = some v := by rw [lookupValue, hl, Option.map_some]
  refine ⟨v, _, hvalue, (moveFront_eq hl hmem).trans (setPosition_pushFront alloc hl), ?_⟩
  rw [hrest]
  refine h.touched List.filter_sublist ?_ (fresh _ _) ?_ (Finmap.lookup_insert _) ?_ ?_
  · rw [hkeys]
    exact h.keys_nodup.not_mem_erase
  · have hlength : ((c.list.filter fun node => node.key ≠ k).map Node.key).length = c.keys.length - 1 := by
      rw [hkeys, List.length_erase_of_mem hin]
    rw [List.length_map, keys, List.length_map] at hlength
    have := h.length_le
    have := h.pos
    change (c.list.filter fun node => node.key ≠ k).length < c.maxSize
    omega
  · intro j hj
    have hmem : j ∈ (c.list.filter fun node => node.key ≠ k).map Node.key ↔ j ∈ c.keys := by
      rw [hkeys, h.keys_nodup.mem_erase_iff, and_iff_right hj]
    rw [Finmap.lookup_insert_of_ne _ hj]
    by_cases hjk : j ∈ c.keys
    · exact (if_pos (hmem.mpr hjk)).symm
    · refine Eq.trans ?_ (if_neg (mt hmem.mp hjk)).symm
      exact Finmap.lookup_eq_none.mpr (mt (h.mem_iff j).mpr hjk)
  · rw [hkeys, touch, if_pos hin]

omit fresh in
theorem ensureSpaceLoop_stop {count n : ℕ} (h : ¬ c.maxSize < c.size + count) :
    ensureSpaceLoop count n c = some c := by
  cases n <;> exact if_neg h

omit fresh in
theorem Linked.ensureSpace (h : Linked c) : ∃ c', c.ensureSpace 1 = some c' ∧ c'.maxSize = c.maxSize ∧
    c'.list = c.list.take (c.maxSize - 1) ∧
    ∀ j, c'.map.lookup j = if j ∈ c'.keys then c.map.lookup j else none := by
  have hpos := h.pos
  have hlen := h.length_le
  have hsize := h.size_eq
  unfold NodeCache.ensureSpace
  by_cases hfull : c.maxSize < c.size + 1
  · rcases List.eq_nil_or_concat c.list with hnil | ⟨front, last, hlist⟩
    · rw [hsize, hnil, List.length_nil] at hfull
      omega
    · have hlength : c.list.length = front.length + 1 := by rw [hlist, List.length_concat]
      have hlast : last.key ∈ c.map := (h.mem_iff _).mp (List.mem_map.mpr ⟨last, by simp [hlist], rfl⟩)
      have hback : c.eraseBack = some { c with map := c.map.erase last.key, list := front } := by
        unfold eraseBack
        rw [hlist, List.concat_eq_append, List.getLast?_concat]
        dsimp only
        rw [if_pos hlast, List.dropLast_concat]
      have hkeys : c.keys = front.map Node.key ++ [last.key] := by
        unfold keys
        rw [hlist, List.concat_eq_append, List.map_append]
        rfl
      have hnodup := h.keys_nodup
      rw [hkeys, List.nodup_append] at hnodup
      have hmem : ∀ j, j ∈ front.map Node.key ↔ j ∈ c.map.erase last.key := by
        intro j
        rw [Finmap.mem_erase, ← h.mem_iff, hkeys, List.mem_append, List.mem_singleton]
        constructor
        · intro hj
          exact ⟨hnodup.2.2 j hj last.key List.mem_cons_self, .inl hj⟩
        · rintro ⟨hne, hj | hj⟩
          · exact hj
          · exact absurd hj hne
      have hsize' : size { c with map := c.map.erase last.key, list := front } = front.length :=
        size_eq_length hnodup.1 hmem
      refine ⟨{ c with map := c.map.erase last.key, list := front }, ?_, rfl, ?_, ?_⟩
      · rw [hlength, ensureSpaceLoop, if_pos hfull, hback]
        apply ensureSpaceLoop_stop
        rw [hsize']
        change ¬ c.maxSize < front.length + 1
        omega
      · rw [hlist, List.concat_eq_append, List.take_append_of_le_length (by omega),
          List.take_of_length_le (by omega)]
      · intro j
        change (c.map.erase last.key).lookup j = if j ∈ front.map Node.key then _ else _
        split_ifs with hj
        · exact Finmap.lookup_erase_ne ((Finmap.mem_erase.mp ((hmem j).mp hj)).1)
        · exact Finmap.lookup_eq_none.mpr (mt (hmem j).mpr hj)
  · refine ⟨c, ensureSpaceLoop_stop hfull, rfl, (List.take_of_length_le (by omega)).symm, fun j => ?_⟩
    split_ifs with hj
    · rfl
    · exact Finmap.lookup_eq_none.mpr (mt (h.mem_iff j).mpr hj)

theorem Linked.emplace_absent (h : Linked c) {k : K} (hk : k ∉ c.map) (v : V) :
    ∃ c', c.emplace alloc k v = some (c', true) ∧ Touched c k v c' := by
  obtain ⟨c₁, hspace, hmax, hlist, hlookup⟩ := h.ensureSpace
  have hkeys : c₁.keys = c.keys.take (c.maxSize - 1) := by
    unfold keys
    rw [hlist, List.map_take]
  have hk₁ : k ∉ c₁.keys := by
    rw [hkeys]
    exact fun hc => hk ((h.mem_iff k).mp (List.mem_of_mem_take hc))
  have habsent : k ∉ c₁.map := by
    rw [← Finmap.lookup_eq_none, hlookup, if_neg hk₁]
  have hrun : c.emplace alloc k v =
      some ({ maxSize := c.maxSize
              map := (c₁.map.insert k (0, v)).insert k (alloc c₁.made c₁.addrs, v)
              list := ⟨alloc c₁.made c₁.addrs, k⟩ :: c₁.list
              made := c₁.made + 1 }, true) := by
    unfold emplace
    rw [if_neg hk, hspace]
    have hput := setPosition_pushFront alloc (c := { c₁ with map := c₁.map.insert k (0, v) })
      (Finmap.lookup_insert c₁.map (a := k) (b := (0, v)))
    rw [← hmax]
    simp only [Option.bind_eq_bind, Option.bind_some, guard, if_pos habsent, hput]
    rfl
  refine ⟨_, hrun, h.touched ?_ hk₁ (fresh _ _) ?_ (Finmap.lookup_insert _) ?_ ?_⟩
  · rw [hlist]
    exact List.take_sublist _ _
  · rw [hlist, List.length_take]
    have := h.pos
    omega
  · intro j hj
    rw [Finmap.lookup_insert_of_ne _ hj, Finmap.lookup_insert_of_ne _ hj, hlookup]
    rfl
  · rw [touch, if_neg (mt (h.mem_iff k).mp hk), ← hkeys]
    rfl

omit fresh in
theorem Linked.store (h : Linked c) {k : K} (hk : k ∈ c.map) (v : V) :
    ∃ c', c.store k v = some c' ∧ Linked c' ∧ c'.maxSize = c.maxSize ∧ c'.keys = c.keys ∧
      c'.lookupValue k = some v ∧ ∀ j, j ≠ k → c'.lookupValue j = c.lookupValue j := by
  obtain ⟨addr, w, hl, hnode⟩ := h.lookup_some hk
  have hmem : ∀ j, j ∈ c.keys ↔ j ∈ c.map.insert k (addr, v) := by
    intro j
    rw [h.mem_iff, Finmap.mem_insert]
    constructor
    · exact .inr
    · rintro (rfl | hj)
      · exact hk
      · exact hj
  refine ⟨{ c with map := c.map.insert k (addr, v) }, by rw [NodeCache.store, hl],
    ⟨h.pos, h.keys_nodup, h.addrs_nodup, hmem, ?_, ?_⟩, rfl, rfl, ?_, ?_⟩
  · intro j a u hj
    by_cases hjk : j = k
    · subst hjk
      rw [Finmap.lookup_insert] at hj
      cases hj
      exact hnode
    · rw [Finmap.lookup_insert_of_ne _ hjk] at hj
      exact h.position j a u hj
  · have hsize : size { c with map := c.map.insert k (addr, v) } = c.list.length :=
      size_eq_length h.keys_nodup hmem
    rw [hsize]
    exact h.length_le
  · rw [lookupValue, Finmap.lookup_insert, Option.map_some]
  · intro j hj
    rw [lookupValue, Finmap.lookup_insert_of_ne _ hj]
    rfl

omit fresh in
theorem mem_touch (maxSize : ℕ) (keys : List K) (k : K) : k ∈ touch maxSize keys k := by
  unfold touch
  split_ifs <;> exact List.mem_cons_self

omit fresh in
theorem Touched.mem {k : K} {v : V} {c' : NodeCache K V} (h : Touched c k v c') : k ∈ c'.map := by
  rw [← h.linked.mem_iff, h.keys_eq]
  exact mem_touch _ _ k

theorem Linked.emplace (h : Linked c) (k : K) (v : V) :
    ∃ c', c.emplace alloc k v = some (c', decide (k ∉ c.map)) ∧ Touched c k v c' := by
  by_cases hk : k ∈ c.map
  · obtain ⟨w, c₁, -, hmove, ht⟩ := h.moveFront fresh hk
    obtain ⟨c₂, hstore, hlinked, hmax, hkeys, hself, hother⟩ := ht.linked.store ht.mem v
    refine ⟨c₂, ?_, hlinked, hmax.trans ht.maxSize_eq, hkeys.trans ht.keys_eq, hself, fun j hj => ?_⟩
    · rw [NodeCache.emplace, if_pos hk, hmove, decide_eq_false (not_not.mpr hk)]
      simp only [Option.bind_eq_bind, Option.bind_some, hstore]
      rfl
    · rw [hother j hj, ht.value_other j hj, hkeys]
  · obtain ⟨c', hrun, ht⟩ := h.emplace_absent fresh hk v
    rw [decide_eq_true hk]
    exact ⟨c', hrun, ht⟩

theorem Linked.at' (h : Linked c) {k : K} (hk : k ∈ c.map) :
    ∃ v c', c.lookupValue k = some v ∧ c.at' alloc k = some (c', v) ∧ Touched c k v c' := by
  obtain ⟨v, c', hv, hmove, ht⟩ := h.moveFront fresh hk
  refine ⟨v, c', hv, ?_, ht⟩
  rw [NodeCache.at', if_pos hk, hmove]
  simp only [Option.bind_eq_bind, Option.bind_some, ht.value_self]
  rfl

theorem Linked.index [Inhabited V] (h : Linked c) (k : K) :
    ∃ c', c.index alloc k = some (c', (c.lookupValue k).getD default, decide (k ∉ c.map)) ∧
      Touched c k ((c.lookupValue k).getD default) c' := by
  by_cases hk : k ∈ c.map
  · obtain ⟨v, c', hv, hmove, ht⟩ := h.moveFront fresh hk
    rw [hv, decide_eq_false (not_not.mpr hk)]
    refine ⟨c', ?_, ht⟩
    rw [NodeCache.index, if_pos hk, hmove]
    simp only [Option.bind_eq_bind, Option.bind_some, ht.value_self]
    rfl
  · obtain ⟨c', hrun, ht⟩ := h.emplace_absent fresh hk default
    have hv : c.lookupValue k = none := by rw [lookupValue, Finmap.lookup_eq_none.mpr hk, Option.map_none]
    rw [hv, decide_eq_true hk]
    refine ⟨c', ?_, ht⟩
    rw [NodeCache.index, if_neg hk, hrun]
    simp only [Option.bind_eq_bind, Option.bind_some, ht.value_self]
    rfl

end Alloc

def Linked.toCache {c : NodeCache ℕ V} (h : Linked c) : Cache V where
  maxSize := c.maxSize
  map := c.lookupValue
  list := c.keys
  pos := h.pos
  nodup := h.keys_nodup
  keys := by
    intro k
    rw [h.mem_iff, lookupValue, Option.isSome_map, Finmap.lookup_isSome]
  bound := by
    rw [keys, List.length_map]
    exact h.length_le

theorem Linked.index_toCache [Inhabited V] {c : NodeCache ℕ V} (h : Linked c) {alloc : ℕ → List ℕ → ℕ}
    (fresh : ∀ n live, alloc n live ∉ live) (k : ℕ) :
    ∃ c' v created, ∃ h' : Linked c', c.index alloc k = some (c', v, created) ∧
      (h'.toCache, created) = h.toCache.lookup default k := by
  obtain ⟨c', hrun, ht⟩ := h.index fresh k
  have hin : k ∈ h.toCache.list ↔ k ∈ c.map := h.mem_iff k
  have hlist : ht.linked.toCache.list = (h.toCache.lookup default k).1.list :=
    ht.keys_eq.trans (h.toCache.lookup_list default k).symm
  have hmap : ht.linked.toCache.map = (h.toCache.lookup default k).1.map := by
    funext j
    have hkeys := (h.toCache.lookup default k).1.keys j
    rw [← hlist] at hkeys
    change c'.lookupValue j = _
    by_cases hj : j = k
    · subst hj
      rw [ht.value_self, h.toCache.lookup_self]
      change _ = if j ∈ c.keys then c.lookupValue j else some default
      split_ifs with hk
      · obtain ⟨addr, w, hl, -⟩ := h.lookup_some ((h.mem_iff j).mp hk)
        rw [lookupValue, hl]
        rfl
      · rw [lookupValue, Finmap.lookup_eq_none.mpr (mt (h.mem_iff j).mpr hk)]
        rfl
    · rw [ht.value_other j hj]
      split_ifs with hk
      · obtain ⟨w, hw⟩ := Option.isSome_iff_exists.mp (hkeys.mp hk)
        rw [hw]
        exact h.toCache.lookup_other default k j hj w hw
      · exact (Option.not_isSome_iff_eq_none.mp (mt hkeys.mpr hk)).symm
  have hcreated : decide (k ∉ c.map) = (h.toCache.lookup default k).2 := by
    rw [Bool.eq_iff_iff, decide_eq_true_iff, h.toCache.lookup_created, hin]
  refine ⟨c', _, _, ht.linked, hrun, Prod.ext ?_ hcreated⟩
  have hmax : ht.linked.toCache.maxSize = (h.toCache.lookup default k).1.maxSize :=
    ht.maxSize_eq.trans (h.toCache.lookup_maxSize default k).symm
  dsimp only
  generalize (h.toCache.lookup default k).1 = d at hlist hmap hmax
  generalize ht.linked.toCache = e at hlist hmap hmax
  obtain ⟨_, _, _, _, _, _, _⟩ := d
  obtain ⟨_, _, _, _, _, _, _⟩ := e
  cases hlist
  cases hmap
  cases hmax
  rfl

/-! ### The cache against its history -/

inductive Op (K V : Type)
  | emplace (k : K) (v : V)
  | index (k : K)
  | at' (k : K)
  /-- A value stored through a reference to an entry. -/
  | assign (k : K) (v : V)

/-- All keys ever accessed, most recently accessed first, and what was last stored for each. -/
structure History (K V : Type) where
  recent : List K
  stored : K → Option V

namespace History

def access (h : History K V) (k : K) : History K V := { h with recent := k :: h.recent.erase k }

def put (h : History K V) (k : K) (v : V) :
    History K V := { h with stored := Function.update h.stored k (some v) }

/-- `operator[]` stores a new value for a key that is not among the `maxSize` most recent ones. -/
def next [Inhabited V] (maxSize : ℕ) (h : History K V) : Op K V → History K V
  | .emplace k v => (h.put k v).access k
  | .index k => if k ∈ h.recent.take maxSize then h.access k else (h.put k default).access k
  | .at' k => h.access k
  | .assign k v => h.put k v

end History

structure Traced (K V : Type) where
  cache : NodeCache K V
  history : History K V

namespace Traced
variable (alloc : ℕ → List ℕ → ℕ)

def perform [Inhabited V] (c : NodeCache K V) : Op K V → Option (NodeCache K V)
  | .emplace k v => (c.emplace alloc k v).map Prod.fst
  | .index k => (c.index alloc k).map Prod.fst
  | .at' k => (c.at' alloc k).map Prod.fst
  | .assign k v => c.store k v

def start (maxSize : ℕ) :
    Traced K V := { cache := empty maxSize, history := { recent := [], stored := fun _ => none } }

def step [Inhabited V] (s : Traced K V) (op : Op K V) : Traced K V :=
  { cache := (perform alloc s.cache op).getD s.cache, history := s.history.next s.cache.maxSize op }

/-- `at`, and a store through a reference, are for keys that are there. -/
def Present (s : Traced K V) : Op K V → Prop
  | .at' k | .assign k _ => k ∈ s.cache.map
  | _ => True

structure Exact (maxSize : ℕ) (s : Traced K V) : Prop where
  size_le : s.cache.size ≤ maxSize
  once : s.cache.keys.Nodup
  present : ∀ k, k ∈ s.cache.keys ↔ k ∈ s.cache.map
  apart : s.cache.addrs.Nodup
  position : ∀ k addr v, s.cache.map.lookup k = some (addr, v) → ⟨addr, k⟩ ∈ s.cache.list
  recent : s.cache.keys = s.history.recent.take maxSize
  value : ∀ k addr v, s.cache.map.lookup k = some (addr, v) → s.history.stored k = some v

structure Returns [Inhabited V] (s : Traced K V) (op : Op K V) : Prop where
  returns : (perform alloc s.cache op).isSome
  created : ∀ k, op = .index k → ∃ c' v created, s.cache.index alloc k = some (c', v, created) ∧
    (created = true ↔ k ∉ s.cache.map)

theorem take_erase_of_mem {n : ℕ} {l : List K} {k : K} (h : k ∈ l.take (n + 1)) :
    (l.erase k).take n = (l.take (n + 1)).erase k := by
  induction l generalizing n with
  | nil => cases h
  | cons a l ih =>
    rw [List.take_succ_cons] at h ⊢
    by_cases ha : a = k
    · rw [ha, List.erase_cons_head, List.erase_cons_head]
    · have hmem : k ∈ l.take n := (List.mem_cons.mp h).resolve_left (Ne.symm ha)
      rw [List.erase_cons_tail (by simpa using ha), List.erase_cons_tail (by simpa using ha)]
      cases n with
      | zero => cases hmem
      | succ n => rw [List.take_succ_cons, ih hmem]

theorem take_erase_of_notMem {n : ℕ} {l : List K} {k : K} (h : k ∉ l.take n) :
    (l.erase k).take n = l.take n := by
  induction l generalizing n with
  | nil => rfl
  | cons a l ih =>
    cases n with
    | zero => rfl
    | succ n =>
      rw [List.take_succ_cons, List.mem_cons, not_or] at h
      rw [List.erase_cons_tail (by simpa using Ne.symm h.1), List.take_succ_cons, List.take_succ_cons, ih h.2]

theorem touch_take {n : ℕ} (pos : 0 < n) (l : List K) (k : K) :
    touch n (l.take n) k = (k :: l.erase k).take n := by
  obtain ⟨n, rfl⟩ := Nat.exists_eq_succ_of_ne_zero pos.ne'
  unfold touch
  rw [List.take_succ_cons]
  split_ifs with h
  · rw [take_erase_of_mem h]
  · have hn : k ∉ l.take n := fun hc => h (List.take_subset_take_left l (Nat.le_succ n) hc)
    rw [take_erase_of_notMem hn, List.take_take, Nat.succ_sub_one, Nat.min_eq_left (Nat.le_succ n)]

structure Kept (maxSize : ℕ) (s : Traced K V) : Prop where
  linked : Linked s.cache
  maxSize_eq : s.cache.maxSize = maxSize
  recent : s.cache.keys = s.history.recent.take maxSize
  value : ∀ k v, s.cache.lookupValue k = some v → s.history.stored k = some v

variable {maxSize : ℕ} {s : Traced K V}

theorem Kept.exact (h : Kept maxSize s) : Exact maxSize s where
  size_le := h.maxSize_eq ▸ h.linked.bound
  once := h.linked.keys_nodup
  present := h.linked.mem_iff
  apart := h.linked.addrs_nodup
  position := h.linked.position
  recent := h.recent
  value := by
    intro k addr v hl
    exact h.value k v (by rw [lookupValue, hl, Option.map_some])

theorem start_kept (pos : 0 < maxSize) : Kept maxSize (start maxSize : Traced K V) where
  linked := empty_linked pos
  maxSize_eq := rfl
  recent := List.take_nil.symm
  value := by
    intro k v h
    have hno : (empty maxSize : NodeCache K V).lookupValue k = none := rfl
    change (empty maxSize : NodeCache K V).lookupValue k = some v at h
    rw [hno] at h
    cases h

theorem Kept.touched (h : Kept maxSize s) {k : K} {v : V} {c' : NodeCache K V} (ht : Touched s.cache k v c')
    {h' : History K V} (hrecent : h'.recent = k :: s.history.recent.erase k) (hself : h'.stored k = some v)
    (hother : ∀ j, j ≠ k → h'.stored j = s.history.stored j) : Kept maxSize ⟨c', h'⟩ where
  linked := ht.linked
  maxSize_eq := ht.maxSize_eq.trans h.maxSize_eq
  recent := by
    have hpos := h.linked.pos
    rw [h.maxSize_eq] at hpos
    change c'.keys = h'.recent.take maxSize
    rw [ht.keys_eq, h.maxSize_eq, h.recent, hrecent, touch_take hpos]
  value := by
    intro j w hj
    change c'.lookupValue j = some w at hj
    change h'.stored j = some w
    by_cases hjk : j = k
    · rw [hjk, hself]
      rwa [hjk, ht.value_self] at hj
    · rw [ht.value_other j hjk] at hj
      split_ifs at hj with hin
      rw [hother j hjk]
      exact h.value j w hj

theorem Kept.mem_take_iff (h : Kept maxSize s) (k : K) :
    k ∈ s.history.recent.take s.cache.maxSize ↔ k ∈ s.cache.map := by
  rw [h.maxSize_eq, ← h.recent]
  exact h.linked.mem_iff k

variable [Inhabited V] {alloc : ℕ → List ℕ → ℕ} (fresh : ∀ n live, alloc n live ∉ live)
include fresh

theorem Kept.step (h : Kept maxSize s) (op : Op K V) (hpresent : Present s op) :
    Kept maxSize (step alloc s op) ∧ Returns alloc s op := by
  unfold Traced.step
  cases op with
  | emplace k v =>
    obtain ⟨c', hrun, ht⟩ := h.linked.emplace fresh k v
    have hperform : perform alloc s.cache (.emplace k v) = some c' := by rw [perform, hrun, Option.map_some]
    rw [hperform]
    refine ⟨h.touched ht rfl (Function.update_self ..) fun j hj => Function.update_of_ne hj .., ?_, ?_⟩
    · rw [hperform, Option.isSome_some]
    · rintro _ ⟨⟩
  | index k =>
    obtain ⟨c', hrun, ht⟩ := h.linked.index fresh k
    have hperform : perform alloc s.cache (.index k) = some c' := by rw [perform, hrun, Option.map_some]
    rw [hperform]
    refine ⟨?_, by rw [hperform, Option.isSome_some], ?_⟩
    · by_cases hk : k ∈ s.cache.map
      · obtain ⟨addr, v, hl, -⟩ := h.linked.lookup_some hk
        have hv : s.cache.lookupValue k = some v := by rw [lookupValue, hl, Option.map_some]
        rw [hv, Option.getD_some] at ht
        rw [History.next, if_pos ((h.mem_take_iff k).mpr hk)]
        exact h.touched ht rfl (h.value k v hv) fun _ _ => rfl
      · have hv : s.cache.lookupValue k = none := by
          rw [lookupValue, Finmap.lookup_eq_none.mpr hk, Option.map_none]
        rw [hv, Option.getD_none] at ht
        rw [History.next, if_neg (mt (h.mem_take_iff k).mp hk)]
        exact h.touched ht rfl (Function.update_self ..) fun j hj => Function.update_of_ne hj ..
    · rintro _ ⟨⟩
      exact ⟨_, _, _, hrun, decide_eq_true_iff⟩
  | at' k =>
    obtain ⟨v, c', hv, hrun, ht⟩ := h.linked.at' fresh hpresent
    have hperform : perform alloc s.cache (.at' k) = some c' := by rw [perform, hrun, Option.map_some]
    rw [hperform]
    refine ⟨h.touched ht rfl (h.value k v hv) fun _ _ => rfl, by rw [hperform, Option.isSome_some], ?_⟩
    rintro _ ⟨⟩
  | assign k v =>
    obtain ⟨c', hrun, hlinked, hmax, hkeys, hself, hother⟩ := h.linked.store hpresent v
    have hperform : perform alloc s.cache (.assign k v) = some c' := hrun
    rw [hperform]
    refine ⟨⟨hlinked, hmax.trans h.maxSize_eq, hkeys.trans h.recent, fun j w hj => ?_⟩,
      by rw [hperform, Option.isSome_some], ?_⟩
    · change c'.lookupValue j = some w at hj
      change Function.update s.history.stored k (some v) j = some w
      by_cases hjk : j = k
      · rw [hjk, Function.update_self]
        rwa [hjk, hself] at hj
      · rw [Function.update_of_ne hjk]
        rw [hother j hjk] at hj
        exact h.value j w hj
    · rintro _ ⟨⟩

/-- Through any run the cache is the map of its most recently used keys. -/
theorem exact_lru (pos : 0 < maxSize) (ops : List (Op K V))
    (present : Throughout (step alloc) Present (start maxSize) ops) :
    Always (step alloc) (Exact maxSize) (start maxSize) ops ∧
      Throughout (step alloc) (Returns alloc) (start maxSize) ops := by
  have hkept : Always (Traced.step alloc) (Kept maxSize) (start maxSize) ops :=
    always_of_throughout (C := fun _ _ => True) (start_kept pos) (fun s op h hp _ => (h.step fresh op hp).1) present
      throughout_true
  exact ⟨hkept.imp fun s h => h.exact, hkept.throughout present fun s op h hp => (h.step fresh op hp).2⟩

omit fresh in
/-- Three keys in a cache of two: key 2 is pushed out and comes back empty. -/
theorem exact_lru_three :
    Always (step fun _ live => live.sum + 1) (Exact 2) (start 2 : Traced ℕ ℕ)
        [.emplace 1 10, .index 2, .at' 1, .emplace 3 30, .index 2] ∧
      Throughout (step fun _ live => live.sum + 1) (Returns fun _ live => live.sum + 1) (start 2 : Traced ℕ ℕ)
        [.emplace 1 10, .index 2, .at' 1, .emplace 3 30, .index 2] := by
  refine exact_lru (fun _ live hmem => ?_) (by decide) _ ?_
  · have hle := List.le_sum_of_mem hmem
    omega
  · simp only [throughout_cons, throughout_nil, Present, true_and, and_true]
    decide

end Traced

end NodeCache
end Thorn
