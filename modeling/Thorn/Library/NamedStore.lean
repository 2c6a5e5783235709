import Mathlib.Logic.Function.Basic
import Thorn.Library.Bytes

set_option autoImplicit false

/-!
# A store of named byte strings

Names that stand for directories and for files, and the changes made to such a
store, one name at a time. The bytes that a file gains are left open where
nothing is stored in them.
-/
namespace NamedStore
open ByteStore Function

inductive Node
  | directory
  | file (bytes : List UInt8)

abbrev Store (κ : Type) := κ → Option Node

inductive Change (κ : Type)
  | make (name : κ) (node : Node)
  | store (name : κ) (bytes : List UInt8) (offset : ℕ)
  | size (name : κ) (length : ℕ)
  | remove (name : κ)
  | look

namespace Change
variable {κ : Type}

def name? : Change κ → Option κ
  | make x _ | store x _ _ | size x _ | remove x => some x
  | look => none

end Change

section Fill
variable {old new bytes : List UInt8} {n o i : ℕ}

theorem overlay_getElem? (buffer : List UInt8) (ho : o ≤ buffer.length) : (overlay buffer o bytes)[i]? =
    if o ≤ i ∧ i < o + bytes.length then bytes[i - o]? else buffer[i]? := by
  have hhead : (buffer.take o).length = o := List.length_take_of_le ho
  rw [overlay, List.append_assoc]
  split_ifs with hin
  · rw [List.getElem?_append_right (by omega), hhead, List.getElem?_append_left (by omega)]
  · rcases Nat.lt_or_ge i o with hlt | hge
    · rw [List.getElem?_append_left (by omega), List.getElem?_take_of_lt hlt]
    · rw [List.getElem?_append_right (by omega), hhead, List.getElem?_append_right (by omega), List.getElem?_drop]
      congr 1
      omega

theorem take_fill (hlen : new.length = n) (h : ∀ i < min old.length n, new[i]? = old[i]?) :
    ∃ fill : List UInt8, fill.length = n - old.length ∧ new = (old ++ fill).take n := by
  refine ⟨new.drop old.length, by rw [List.length_drop, hlen], List.ext_getElem? fun i => ?_⟩
  rcases Nat.lt_or_ge i n with hi | hi
  · rw [List.getElem?_take_of_lt hi]
    rcases Nat.lt_or_ge i old.length with hold | hnew
    · rw [List.getElem?_append_left hold, h i (lt_min hold hi)]
    · rw [List.getElem?_append_right hnew, List.getElem?_drop]
      congr 1
      omega
  · rw [List.getElem?_eq_none (by omega), List.getElem?_eq_none (by rw [List.length_take]; omega)]

theorem overlay_fill (hlen : new.length = max old.length (o + bytes.length))
    (hin : ∀ i < bytes.length, new[o + i]? = bytes[i]?)
    (hout : ∀ i < old.length, ¬ (o ≤ i ∧ i < o + bytes.length) → new[i]? = old[i]?) :
    ∃ fill : List UInt8, fill.length = o - old.length ∧ new = overlay (old ++ fill) o bytes := by
  have hfill : ((new.take o).drop old.length).length = o - old.length := by
    rw [List.length_drop, List.length_take]
    omega
  refine ⟨(new.take o).drop old.length, hfill, List.ext_getElem? fun i => ?_⟩
  rw [overlay_getElem? _ (by rw [List.length_append, hfill]; omega)]
  split_ifs with h
  · rw [← hin (i - o) (by omega)]
    congr 1
    omega
  · rcases Nat.lt_or_ge i old.length with hold | hnew
    · rw [List.getElem?_append_left hold, hout i hold h]
    · rw [List.getElem?_append_right hnew, List.getElem?_drop, Nat.add_sub_cancel' hnew]
      rcases Nat.lt_or_ge i o with hlt | hge
      · rw [List.getElem?_take_of_lt hlt]
      · rw [List.getElem?_eq_none (by omega), List.getElem?_eq_none (by rw [List.length_take]; omega)]

theorem overlay_window (buffer : List UInt8) (ho : o ≤ buffer.length) :
    ((overlay buffer o bytes).drop o).take bytes.length = bytes := by
  have hhead : (buffer.take o).length = o := List.length_take_of_le ho
  rw [overlay, List.append_assoc, List.drop_append_of_le_length hhead.ge, List.drop_of_length_le hhead.le,
    List.nil_append, List.take_append_of_le_length le_rfl, List.take_length]

end Fill

section Changes
variable {κ : Type} [DecidableEq κ]

/-- What a change may make of a store. -/
inductive Changes (m : Store κ) : Change κ → Store κ → Prop
  | make {x : κ} {node : Node} (h : m x = none) : Changes m (.make x node) (update m x (some node))
  | store {x : κ} {old fill bytes : List UInt8} {offset : ℕ} (h : m x = some (.file old))
      (hfill : fill.length = offset - old.length) :
      Changes m (.store x bytes offset) (update m x (some (.file (overlay (old ++ fill) offset bytes))))
  | size {x : κ} {old fill : List UInt8} {length : ℕ} (h : m x = some (.file old))
      (hfill : fill.length = length - old.length) :
      Changes m (.size x length) (update m x (some (.file ((old ++ fill).take length))))
  | remove {x : κ} {old : List UInt8} (h : m x = some (.file old)) : Changes m (.remove x) (update m x none)
  | look : Changes m .look m

inductive Run : Store κ → List (Change κ) → Store κ → Prop
  | nil {m : Store κ} : Run m [] m
  | snoc {m v w : Store κ} {cs : List (Change κ)} {c : Change κ} (h : Run m cs v) (hc : Changes v c w) :
      Run m (cs ++ [c]) w

variable {m v w : Store κ} {c : Change κ} {cs ds : List (Change κ)} {x : κ}

theorem Run.append (h : Run m cs v) (h' : Run v ds w) : Run m (cs ++ ds) w := by
  induction h' with
  | nil => rwa [List.append_nil]
  | snoc _ hc ih =>
    rw [← List.append_assoc]
    exact .snoc ih hc

theorem Run.single (hc : Changes m c v) : Run m [c] v := .snoc .nil hc

theorem Changes.elsewhere (h : Changes m c v) (hx : c.name? ≠ some x) : v x = m x := by
  cases h with
  | look => rfl
  | make | store | size | remove => exact update_of_ne (fun he : x = _ => hx (congrArg some he.symm)) _ _

theorem Run.elsewhere (h : Run m cs v) (hx : ∀ c ∈ cs, c.name? ≠ some x) : v x = m x := by
  induction h with
  | nil => rfl
  | snoc _ hc ih =>
    rw [hc.elsewhere (hx _ (by simp)), ih fun c hmem => hx c (List.mem_append_left _ hmem)]

theorem Run.stored {bytes : List UInt8} {offset : ℕ} (hc : Changes m (.store x bytes offset) v) (h : Run v cs w)
    (hx : ∀ c ∈ cs, c.name? ≠ some x) :
    ∃ content, w x = some (.file content) ∧ (content.drop offset).take bytes.length = bytes := by
  cases hc with
  | @store _ old fill _ _ _ hfill =>
    refine ⟨_, (h.elsewhere hx).trans (update_self _ _ _), overlay_window _ ?_⟩
    rw [List.length_append, hfill]
    omega

end Changes

end NamedStore
