import Thorn.Keyboard
import Thorn.Library.Runs

set_option autoImplicit false

namespace Thorn

def Modifier.leftKey : Modifier → InputKey
  | .Ctrl => .KeyLeftCtrl
  | .Shift => .KeyLeftShift
  | .Alt => .KeyLeftAlt
  | .Meta => .KeyLeftMeta

def Modifier.rightKey : Modifier → InputKey
  | .Ctrl => .KeyRightCtrl
  | .Shift => .KeyRightShift
  | .Alt => .KeyRightAlt
  | .Meta => .KeyRightMeta

def Modifier.index : Modifier → ℕ
  | .Ctrl => 0
  | .Shift => 1
  | .Alt => 2
  | .Meta => 3

namespace Keyboard

theorem bits_toBitVec (modifier : Modifier) : modifier.bits.toBitVec = BitVec.twoPow 8 modifier.index := by
  cases modifier <;> rfl

theorem leftKey_ne_rightKey (modifier : Modifier) : modifier.leftKey ≠ modifier.rightKey := by
  cases modifier <;> decide

theorem hasModifier_eq (kb : Keyboard) (modifier : Modifier) :
    kb.hasModifier modifier = kb.modifiers.toBitVec.getLsbD modifier.index := by
  have hne : BitVec.twoPow 8 modifier.index ≠ 0 := by cases modifier <;> decide
  rw [hasModifier, Bool.eq_iff_iff, decide_eq_true_iff, ne_eq, ← UInt8.toBitVec_inj, UInt8.toBitVec_and,
    bits_toBitVec, BitVec.and_twoPow]
  split_ifs with h
  · exact iff_of_true hne h
  · exact iff_of_false (not_not.mpr rfl) h

theorem getModifier_bit (key : InputKey) (modifier : Modifier) :
    (getModifier key).toBitVec.getLsbD modifier.index =
      decide (key = modifier.leftKey ∨ key = modifier.rightKey) := by
  unfold getModifier
  split
  · cases modifier <;> rfl
  · cases modifier <;> rfl
  · cases modifier <;> rfl
  · cases modifier <;> rfl
  · cases modifier <;> rfl
  · cases modifier <;> rfl
  · cases modifier <;> rfl
  · cases modifier <;> rfl
  · rename_i h₁ h₂ h₃ h₄ h₅ h₆ h₇ h₈
    have hnot : ¬ (key = modifier.leftKey ∨ key = modifier.rightKey) := by
      rintro (rfl | rfl) <;> cases modifier <;> simp_all [Modifier.leftKey, Modifier.rightKey]
    rw [decide_eq_false hnot]
    exact BitVec.getLsbD_zero

theorem invalid_not_modifier (modifier : Modifier) :
    ¬ (InputKey.Invalid = modifier.leftKey ∨ InputKey.Invalid = modifier.rightKey) := by
  cases modifier <;> decide

theorem onKey_hasModifier (kb : Keyboard) (key : InputKey) (down : Bool) (modifier : Modifier) :
    (kb.onKey key down).hasModifier modifier =
      if key = modifier.leftKey ∨ key = modifier.rightKey then down else kb.hasModifier modifier := by
  have hlt : modifier.index < 8 := by cases modifier <;> decide
  by_cases hinvalid : key = .Invalid
  · rw [hinvalid, if_neg (invalid_not_modifier modifier), onKey, if_pos rfl]
  · rw [hasModifier_eq, hasModifier_eq, onKey, if_neg hinvalid]
    cases down with
    | true =>
      rw [if_pos rfl, UInt8.toBitVec_or, BitVec.getLsbD_or, getModifier_bit]
      split_ifs with h
      · rw [decide_eq_true h, Bool.or_true]
      · rw [decide_eq_false h, Bool.or_false]
    | false =>
      rw [if_neg Bool.false_ne_true, UInt8.toBitVec_and, UInt8.toBitVec_not, BitVec.getLsbD_and,
        BitVec.getLsbD_not, decide_eq_true hlt, Bool.true_and, getModifier_bit]
      split_ifs with h
      · rw [decide_eq_true h, Bool.not_true, Bool.and_false]
      · rw [decide_eq_false h, Bool.not_false, Bool.and_true]

end Keyboard

structure KeyEvent where
  key : InputKey
  down : Bool

structure HeldKeys where
  keyboard : Keyboard
  held : Finset InputKey

namespace HeldKeys

def start : HeldKeys := ⟨Keyboard.start, ∅⟩

def press (s : HeldKeys) (e : KeyEvent) : HeldKeys where
  keyboard := s.keyboard.onKey e.key e.down
  held := if e.down then insert e.key s.held else s.held.erase e.key

/-- A key comes up only after it has gone down. -/
def Legal (s : HeldKeys) (e : KeyEvent) : Prop := e.down = false → e.key ∈ s.held

def InStep (s : HeldKeys) : Prop :=
  ∀ modifier : Modifier, s.keyboard.hasModifier modifier = true ↔
    modifier.leftKey ∈ s.held ∨ modifier.rightKey ∈ s.held

/-- No key of a modifier comes up while the other one is down. -/
def Alone (s : HeldKeys) (e : KeyEvent) : Prop :=
  e.down = false → ∀ modifier : Modifier,
    (e.key = modifier.leftKey → modifier.rightKey ∉ s.held) ∧
    (e.key = modifier.rightKey → modifier.leftKey ∉ s.held)

variable {s : HeldKeys} {key : InputKey}

theorem start_inStep : start.InStep := by
  intro modifier
  cases modifier <;> decide

theorem down_inStep (h : s.InStep) : (s.press ⟨key, true⟩).InStep := by
  intro modifier
  change (s.keyboard.onKey key true).hasModifier modifier = true ↔
    modifier.leftKey ∈ insert key s.held ∨ modifier.rightKey ∈ insert key s.held
  rw [Keyboard.onKey_hasModifier, Finset.mem_insert, Finset.mem_insert]
  split_ifs with hkey
  · refine iff_of_true rfl ?_
    rcases hkey with hkey | hkey
    · exact .inl (.inl hkey.symm)
    · exact .inr (.inl hkey.symm)
  · rw [not_or] at hkey
    rw [h modifier, or_iff_right (Ne.symm hkey.1), or_iff_right (Ne.symm hkey.2)]

/-- A release clears the bit, whatever the other key of the modifier does. -/
theorem up_inStep_iff (h : s.InStep) : (s.press ⟨key, false⟩).InStep ↔ s.Alone ⟨key, false⟩ := by
  have hone : ∀ modifier : Modifier,
      ((s.press ⟨key, false⟩).keyboard.hasModifier modifier = true ↔
        modifier.leftKey ∈ (s.press ⟨key, false⟩).held ∨ modifier.rightKey ∈ (s.press ⟨key, false⟩).held) ↔
      (key = modifier.leftKey → modifier.rightKey ∉ s.held) ∧
        (key = modifier.rightKey → modifier.leftKey ∉ s.held) := by
    intro modifier
    have hne := Keyboard.leftKey_ne_rightKey modifier
    change ((s.keyboard.onKey key false).hasModifier modifier = true ↔
      modifier.leftKey ∈ s.held.erase key ∨ modifier.rightKey ∈ s.held.erase key) ↔ _
    rw [Keyboard.onKey_hasModifier, Finset.mem_erase, Finset.mem_erase]
    by_cases hleft : key = modifier.leftKey
    · subst hleft
      simp [hne, hne.symm]
    · by_cases hright : key = modifier.rightKey
      · subst hright
        simp [hne, hleft]
      · rw [if_neg (by simp [hleft, hright]), h modifier]
        simp [hleft, hright, Ne.symm hleft, Ne.symm hright]
  constructor
  · exact fun hin _ modifier => (hone modifier).mp (hin modifier)
  · exact fun halone modifier => (hone modifier).mpr (halone rfl modifier)

theorem press_inStep_iff (e : KeyEvent) (h : s.InStep) : (s.press e).InStep ↔ s.Alone e := by
  obtain ⟨key, down⟩ := e
  cases down with
  | true => exact iff_of_true (down_inStep h) fun hup => absurd hup.symm Bool.false_ne_true
  | false => exact up_inStep_iff h

theorem modifiers_in_step_iff (events : List KeyEvent) (legal : Runs.Throughout press Legal start events) :
    Runs.Always press InStep start events ↔ Runs.Throughout press Alone start events := by
  have hgood : ∀ (s : HeldKeys) (e : KeyEvent), s.InStep → s.Legal e → ((s.press e).InStep ↔ s.Alone e) :=
    fun s e h _ => press_inStep_iff e h
  exact Runs.always_iff start_inStep hgood legal

def leftDown : KeyEvent := ⟨.KeyLeftShift, true⟩
def rightDown : KeyEvent := ⟨.KeyRightShift, true⟩
def rightUp : KeyEvent := ⟨.KeyRightShift, false⟩

theorem right_legal : Runs.Throughout press Legal start [rightDown, rightUp] := by
  refine Runs.throughout_cons.mpr ⟨fun h => absurd h (by decide), ?_⟩
  exact Runs.throughout_cons.mpr ⟨fun _ => by decide, Runs.throughout_nil⟩

theorem modifiers_in_step_single : Runs.Always press InStep start [rightDown, rightUp] ↔
    Runs.Throughout press Alone start [rightDown, rightUp] :=
  modifiers_in_step_iff [rightDown, rightUp] right_legal

/-- With both shift keys down, the first one to come up clears the bit. -/
theorem shift_lost : ¬ ∀ events : List KeyEvent, Runs.Throughout press Legal start events →
    Runs.Always press InStep start events := by
  intro h
  have hlegal : Runs.Throughout press Legal start [leftDown, rightDown, rightUp] := by
    refine Runs.throughout_cons.mpr ⟨fun h => absurd h (by decide), ?_⟩
    refine Runs.throughout_cons.mpr ⟨fun h => absurd h (by decide), ?_⟩
    exact Runs.throughout_cons.mpr ⟨fun _ => by decide, Runs.throughout_nil⟩
  have hshift := (h _ hlegal).after .Shift
  have hheld : Modifier.Shift.leftKey ∈
      (Runs.after press start [leftDown, rightDown, rightUp]).held := by decide
  exact absurd (hshift.mpr (.inl hheld)) (by decide)

end HeldKeys

end Thorn
