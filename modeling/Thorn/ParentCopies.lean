import Thorn.AddedEntries

set_option autoImplicit false

namespace Thorn.FatImage.Image
open Paths FatTypes LinkedChain
variable {I J : Image}

def dotdotSlot (I : Image) (k : ℕ) : ℕ := I.slotAt (I.chain k) (I.copies k - 1)

structure LeadsTo (e d : DirEntry) : Prop where
  start : e.start = d.start
  type : e.type = d.type

structure Alike (e d : DirEntry) : Prop extends LeadsTo e d where
  len : e.len = d.len

/-- Each `..` leads to the directory above; that of the root to the root, with its length. -/
structure Copied (I : Image) : Prop where
  root : Alike (I.entry (I.rootSlot + 1)) (I.entry I.rootSlot)
  above : ∀ p d, I.Live p → I.Child p d → (I.entry d).isDirectory →
    LeadsTo (I.entry (I.dotdotSlot d)) (I.entry p)

theorem LeadsTo.trans {e d c : DirEntry} (h : LeadsTo e d) (h' : LeadsTo d c) : LeadsTo e c :=
  ⟨h.start.trans h'.start, h.type.trans h'.type⟩

theorem LeadsTo.symm {e d : DirEntry} (h : LeadsTo e d) : LeadsTo d e := ⟨h.start.symm, h.type.symm⟩

theorem LeadsTo.isDirectory {e d : DirEntry} (h : LeadsTo e d) : e.isDirectory = d.isDirectory := by
  rw [DirEntry.isDirectory, h.type]
  rfl

theorem Alike.refl (e : DirEntry) : Alike e e := ⟨⟨rfl, rfl⟩, rfl⟩

section Slot
variable {k : ℕ}

theorem copies_pred (k : ℕ) : I.copies k - 1 < I.copies k := by
  have := I.copies_pos k
  omega

theorem WellFormed.dotdotSlot_root (h : I.WellFormed) : I.dotdotSlot I.rootSlot = I.rootSlot + 1 := by
  rw [dotdotSlot, root_copies]
  exact h.root_succ

theorem dotdotSlot_below (hk : k ≠ I.rootSlot) : I.dotdotSlot k = I.slotAt (I.chain k) 0 := by
  rw [dotdotSlot, copies, if_neg hk]

theorem WellFormed.dotdotSlot_name (h : I.WellFormed) (hk : I.Live k) (hd : (I.entry k).isDirectory) :
    (I.entry (I.dotdotSlot k)).name.toStr = dotDotName := by
  by_cases hr : k = I.rootSlot
  · rw [hr, h.dotdotSlot_root]
    exact h.root_dotdot
  · rw [dotdotSlot_below hr]
    exact h.dotdot k hk hr hd

end Slot

theorem dotdotSlot_congr (hs : I.SameShape J) {k : ℕ} (hc : J.chain k = I.chain k) :
    J.dotdotSlot k = I.dotdotSlot k := by
  rw [dotdotSlot, dotdotSlot, hs.slotAt, hs.copies, hc]

section Edits
variable {p q d j f : ℕ}

theorem Grown.copied (hw : I.WellFormed) (h : Grown I J p j) (hp : I.Live p) (hd : (I.entry p).isDirectory)
    (hc : I.Copied) (hroot : p = I.rootSlot → Alike (J.entry (I.rootSlot + 1)) (J.entry I.rootSlot)) :
    J.Copied where
  root := by
    rw [h.shape.rootSlot]
    by_cases hpr : p = I.rootSlot
    · exact hroot hpr
    · have hsucc := h.entry_copy hw hp hd .root hw.root_directory (i := 1) (by rw [root_copies]; decide)
        fun _ => hpr
      rw [hw.root_succ] at hsucc
      rw [hsucc, h.entry_live hw hp hd .root (Ne.symm hpr)]
      exact hc.root
  above o k ho hk hdir := by
    have ho' : I.Live o := ((h.rearranged hw hp hd).live_iff hw o).mp ho
    have hk' := (h.child_iff hw hp hd ho').mp hk
    have hlive : I.Live k := .child ho' hk'
    have hdir' : (I.entry k).isDirectory := (h.alike hw hp hd hlive).2.2.1 ▸ hdir
    have hcopy := h.entry_copy hw hp hd hlive hdir' (copies_pred k) (absurd · (hw.child_ne_root ho' hk'))
    have hleads : LeadsTo (J.entry o) (I.entry o) := by
      by_cases hop : o = p
      · rw [hop, h.parent]
        exact ⟨rfl, rfl⟩
      · rw [h.entry_live hw hp hd ho' hop]
        exact ⟨rfl, rfl⟩
    rw [dotdotSlot_congr h.shape ((h.rearranged hw hp hd).chain hw hlive), dotdotSlot, hcopy]
    exact (hc.above o k ho' hk' hdir').trans hleads.symm

theorem Added.copied (hw : I.WellFormed) (h : Added I J q j f) (hc : I.Copied)
    (hnew : (J.entry j).isDirectory → LeadsTo (J.entry (f * I.epb)) (J.entry q)) : J.Copied where
  root := by
    have hsucc := h.entry_copy hw .root hw.root_directory (i := 1) (by rw [root_copies]; decide)
    rw [hw.root_succ] at hsucc
    rw [h.shape.rootSlot, hsucc, h.entry_live hw .root]
    exact hc.root
  above o k ho hk hdir := by
    rcases (h.live_iff hw o).mp ho with ho | rfl
    · rcases (h.child_iff hw ho).mp hk with hk | ⟨rfl, rfl⟩
      · have hlive : I.Live k := .child ho hk
        have hdir' : (I.entry k).isDirectory := h.entry_live hw hlive ▸ hdir
        have hchain : J.chain k = I.chain k := (h.owns_live hw hlive).chainOf_eq
        rw [dotdotSlot_congr h.shape hchain, dotdotSlot, h.entry_copy hw hlive hdir' (copies_pred k),
          h.entry_live hw ho]
        exact hc.above o k ho hk hdir'
      · have hchain : J.chain k = [f] := h.owns_new.chainOf_eq
        have hslot : J.dotdotSlot k = f * I.epb := by
          rw [dotdotSlot_below (by rw [h.shape.rootSlot]; exact h.ne_rootSlot hw), hchain, h.shape.slotAt,
            slotAt, Nat.zero_div, Nat.zero_mod, Nat.add_zero]
          rfl
        rw [hslot]
        exact hnew hdir
    · exact absurd hk (h.new_leaf hw k)

theorem Freed.copied (hw : I.WellFormed) (h : Freed I J d) (hd : I.Live d) (hr : d ≠ I.rootSlot)
    (hleaf : ∀ k, ¬ I.Child d k) (hc : I.Copied) : J.Copied where
  root := by
    have hsucc := h.entry_copy hw hd hr .root hw.root_directory (i := 1) (by rw [root_copies]; decide)
    rw [hw.root_succ] at hsucc
    rw [h.shape.rootSlot, hsucc, h.entry_live hw .root hr.symm]
    exact hc.root
  above o k ho hk hdir := by
    have hR := h.rearranged hw hd hr hleaf
    obtain ⟨ho', hod⟩ := (hR.live_iff hw o).mp ho
    obtain ⟨hk', hkd⟩ := (h.child_iff hw hd hr hleaf ho' hod).mp hk
    have hlive : I.Live k := .child ho' hk'
    have hdir' : (I.entry k).isDirectory := h.entry_live hw hlive hkd ▸ hdir
    rw [dotdotSlot_congr h.shape (hR.chain hw ⟨hlive, hkd⟩), dotdotSlot,
      h.entry_copy hw hd hr hlive hdir' (copies_pred k), h.entry_live hw ho' hod]
    exact hc.above o k ho' hk' hdir'

end Edits

end Thorn.FatImage.Image
