import Thorn.Keyboard
import Thorn.Terminal

set_option autoImplicit false

/-!
# The line editor of the console

`testPS2Keyboard`: every scancode taken from the queue moves the cursor, edits
the text, or hands it over. Next to it stands an editor over the characters
behind and ahead of a cursor.
-/
namespace Thorn
open Runs Paths

structure Line (α : Type*) where
  /-- The characters before the cursor, the nearest first. -/
  behind : List α
  ahead : List α

namespace Line
variable {α : Type*}

def text (l : Line α) : List α := l.behind.reverse ++ l.ahead

def cursor (l : Line α) : ℕ := l.behind.length

def left (l : Line α) : Line α :=
  match l.behind with
  | [] => l
  | c :: behind => ⟨behind, c :: l.ahead⟩

def right (l : Line α) : Line α :=
  match l.ahead with
  | [] => l
  | c :: ahead => ⟨c :: l.behind, ahead⟩

def backspace (l : Line α) : Line α := ⟨l.behind.tail, l.ahead⟩

def insert (l : Line α) (c : α) : Line α := ⟨c :: l.behind, l.ahead⟩

variable (l : Line α)

theorem length_text : l.text.length = l.cursor + l.ahead.length := by
  rw [text, List.length_append, List.length_reverse]
  rfl

theorem cursor_le : l.cursor ≤ l.text.length := by
  rw [length_text]
  exact Nat.le_add_right _ _

theorem take_cursor : l.text.take l.cursor = l.behind.reverse :=
  List.take_left' List.length_reverse

theorem drop_cursor : l.text.drop l.cursor = l.ahead :=
  List.drop_left' List.length_reverse

theorem text_left : l.left.text = l.text := by
  rcases l with ⟨_ | ⟨c, behind⟩, ahead⟩
  · rfl
  · change behind.reverse ++ c :: ahead = (c :: behind).reverse ++ ahead
    rw [List.reverse_cons, List.append_assoc]
    rfl

theorem cursor_left : l.left.cursor = l.cursor - 1 := by
  rcases l with ⟨_ | ⟨c, behind⟩, ahead⟩
  · rfl
  · rfl

theorem text_right : l.right.text = l.text := by
  rcases l with ⟨behind, _ | ⟨c, ahead⟩⟩
  · rfl
  · change (c :: behind).reverse ++ ahead = behind.reverse ++ c :: ahead
    rw [List.reverse_cons, List.append_assoc]
    rfl

theorem cursor_right : l.right.cursor = min (l.cursor + 1) l.text.length := by
  rw [length_text]
  rcases l with ⟨behind, _ | ⟨c, ahead⟩⟩
  · change behind.length = min (behind.length + 1) (behind.length + 0)
    omega
  · change behind.length + 1 = min (behind.length + 1) (behind.length + (ahead.length + 1))
    omega

theorem text_insert (c : α) : (l.insert c).text = l.text.take l.cursor ++ [c] ++ l.text.drop l.cursor := by
  rw [take_cursor, drop_cursor]
  change (c :: l.behind).reverse ++ l.ahead = _
  rw [List.reverse_cons]

theorem cursor_insert (c : α) : (l.insert c).cursor = l.cursor + 1 := rfl

theorem text_backspace : l.backspace.text = l.text.take (l.cursor - 1) ++ l.text.drop l.cursor := by
  rw [drop_cursor]
  rcases l with ⟨_ | ⟨c, behind⟩, ahead⟩
  · rfl
  · have htake : ((c :: behind).reverse ++ ahead).take behind.length = behind.reverse := by
      rw [List.reverse_cons, List.append_assoc]
      exact List.take_left' List.length_reverse
    change behind.reverse ++ ahead = ((c :: behind).reverse ++ ahead).take behind.length ++ ahead
    rw [htake]

theorem cursor_backspace : l.backspace.cursor = l.cursor - 1 := List.length_tail

end Line

inductive Edit (α : Type*)
  | left
  | right
  | backspace
  | enter
  | insert (c : α)
  | nothing

/-- A line that is edited, and the lines that were entered. -/
structure Editor (α : Type*) where
  line : Line α
  entered : List (List α)

def Editor.edit {α : Type*} (e : Editor α) : Edit α → Editor α
  | .left => { e with line := e.line.left }
  | .right => { e with line := e.line.right }
  | .backspace => { e with line := e.line.backspace }
  | .enter => { line := ⟨[], []⟩, entered := e.entered ++ [e.line.text] }
  | .insert c => { e with line := e.line.insert c }
  | .nothing => e

/-- The variables of `testPS2Keyboard`, the globals it works on, and the texts
that `handleInput` was given. -/
structure Console where
  keyboard : Keyboard
  terminal : Terminal
  text : Str
  index : ℕ
  handled : List Str

namespace Console

def scanned (scancode : UInt8) : InputKey :=
  Keyboard.scanmapNormal.getD (scancode &&& ~~~0x80).toNat .Invalid

def down (scancode : UInt8) : Bool := scancode &&& 0x80 = 0

def prompt (t : Terminal) : Terminal :=
  ((t.setColor (Terminal.vgaEntryColor 2 0)).write (Keyboard.ascii "> ")).setColor (Terminal.vgaEntryColor 7 0)

def start (kb : Keyboard) (t : Terminal) : Console :=
  { keyboard := kb, terminal := prompt t, text := [], index := 0, handled := [] }

/-- `text.erase(pos)`: with no length given, everything from `pos` on. -/
def erase (text : Str) (pos : ℕ) : Str := text.take pos

def insert (text : Str) (pos : ℕ) (str : Str) : Str := text.take pos ++ str ++ text.drop pos

section Machine
variable (handleInput : Str → Terminal → Terminal)

def press (c : Console) (key : InputKey) : Console :=
  match key with
  | .KeyLeftArrow =>
    if 0 < c.index then { c with terminal := c.terminal.left 1 true, index := c.index - 1 } else c
  | .KeyRightArrow =>
    if c.index < c.text.length then { c with terminal := c.terminal.right 1 true, index := c.index + 1 } else c
  | .KeyBackspace =>
    if 0 < c.index then
      { c with
        terminal := ((c.terminal.left 1 true).write (Keyboard.ascii " ")).left 1 true
        text := erase c.text (c.index - 1)
        index := c.index - 1 }
    else c
  | .KeyEnter =>
    { c with
      terminal := prompt (handleInput c.text c.terminal)
      handled := c.handled ++ [c.text]
      index := 0
      text := [] }
  | .KeyLeftShift | .KeyRightShift | .KeyLeftAlt | .KeyRightAlt | .KeyLeftCtrl | .KeyRightCtrl
  | .KeyLeftMeta | .KeyRightMeta | .KeyCapsLock | .Invalid => c
  | key =>
    { c with
      text := insert c.text c.index ((c.keyboard.toString key).take 1)
      index := c.index + 1
      terminal := c.terminal.putChar ((c.keyboard.toString key).headD 0) }

def consume (c : Console) (scancode : UInt8) : Console :=
  if scancode = 0 then c
  else
    let key := scanned scancode
    let byte := if key = .Invalid then scancode &&& 0x80 else scancode
    let keyboard := c.keyboard.onKey key (byte &&& 0x80 = 0)
    if down scancode then press handleInput { c with keyboard := keyboard } (keyboard.transform key)
    else { c with keyboard := keyboard }

end Machine

def heard (kb : Keyboard) (scancode : UInt8) : Keyboard :=
  if scancode = 0 then kb else kb.onKey (scanned scancode) (down scancode)

def pressed (kb : Keyboard) (scancode : UInt8) : Option InputKey :=
  if scancode ≠ 0 ∧ down scancode = true then some ((heard kb scancode).transform (scanned scancode)) else none

def modifierKeys : List InputKey := [
  .KeyLeftShift, .KeyRightShift, .KeyLeftAlt, .KeyRightAlt, .KeyLeftCtrl, .KeyRightCtrl, .KeyLeftMeta, .KeyRightMeta]

def lockKeys : List InputKey := [.KeyCapsLock, .KeyNumLock, .KeyScrollLock]

/-- What pressing a key asks of an editor, when `locks` are the lock keys. -/
def meaning (locks : List InputKey) (kb : Keyboard) (key : InputKey) : Edit UInt8 :=
  if key = .KeyLeftArrow then .left
  else if key = .KeyRightArrow then .right
  else if key = .KeyBackspace then .backspace
  else if key = .KeyEnter then .enter
  else if key ∈ modifierKeys ∨ key ∈ locks ∨ key = .Invalid then .nothing
  else .insert ((kb.toString key).headD 0)

structure Reference where
  keyboard : Keyboard
  editor : Editor UInt8

def Reference.start (kb : Keyboard) : Reference := { keyboard := kb, editor := ⟨⟨[], []⟩, []⟩ }

def follow (locks : List InputKey) (r : Reference) (scancode : UInt8) : Reference :=
  { keyboard := heard r.keyboard scancode
    editor := (pressed r.keyboard scancode).elim r.editor fun key =>
      r.editor.edit (meaning locks (heard r.keyboard scancode) key) }

structure Shows (c : Console) (e : Editor UInt8) : Prop where
  index_le : c.index ≤ c.text.length
  text_eq : c.text = e.line.text
  index_eq : c.index = e.line.cursor
  handled_eq : c.handled = e.entered

structure Faithful (c : Console) (r : Reference) : Prop where
  keyboard_eq : c.keyboard = r.keyboard
  shows : Shows c r.editor

def ErasesInside (c : Console) (scancode : UInt8) : Prop :=
  pressed c.keyboard scancode = some .KeyBackspace ∧ 0 < c.index ∧ c.index < c.text.length

/-- A lock key that the `switch` does not name. -/
def TypesLock (c : Console) (scancode : UInt8) : Prop :=
  pressed c.keyboard scancode = some .KeyNumLock ∨ pressed c.keyboard scancode = some .KeyScrollLock

section Steps
variable {handleInput : Str → Terminal → Terminal} {locks : List InputKey} {c : Console} {e : Editor UInt8}
  {key : InputKey}

theorem shows_of_eq {line : Line UInt8} (htext : c.text = line.text) (hindex : c.index = line.cursor)
    (hhandled : c.handled = e.entered) : Shows c { e with line := line } where
  index_le := by
    rw [htext, hindex]
    exact line.cursor_le
  text_eq := htext
  index_eq := hindex
  handled_eq := hhandled

theorem press_left (h : Shows c e) : Shows (c.press handleInput .KeyLeftArrow) (e.edit .left) := by
  change Shows (if 0 < c.index then _ else c) { e with line := e.line.left }
  split_ifs with hpos
  · apply shows_of_eq
    · exact h.text_eq.trans e.line.text_left.symm
    · rw [e.line.cursor_left, ← h.index_eq]
    · exact h.handled_eq
  · apply shows_of_eq
    · exact h.text_eq.trans e.line.text_left.symm
    · rw [e.line.cursor_left, ← h.index_eq]
      omega
    · exact h.handled_eq

theorem press_right (h : Shows c e) : Shows (c.press handleInput .KeyRightArrow) (e.edit .right) := by
  have hle := h.index_le
  have hcursor : e.line.right.cursor = min (c.index + 1) c.text.length := by
    rw [e.line.cursor_right, ← h.index_eq, ← h.text_eq]
  change Shows (if c.index < c.text.length then _ else c) { e with line := e.line.right }
  split_ifs with hlt
  · apply shows_of_eq
    · exact h.text_eq.trans e.line.text_right.symm
    · rw [hcursor]
      exact (min_eq_left hlt).symm
    · exact h.handled_eq
  · apply shows_of_eq
    · exact h.text_eq.trans e.line.text_right.symm
    · rw [hcursor]
      omega
    · exact h.handled_eq

/-- What is erased from the cursor on is only the one character when nothing
stands ahead. -/
theorem press_backspace_iff (h : Shows c e) :
    Shows (c.press handleInput .KeyBackspace) (e.edit .backspace) ↔ ¬ (0 < c.index ∧ c.index < c.text.length) := by
  have hle := h.index_le
  have htext : e.line.backspace.text = c.text.take (c.index - 1) ++ c.text.drop c.index := by
    rw [e.line.text_backspace, ← h.index_eq, ← h.text_eq]
  have hcursor : e.line.backspace.cursor = c.index - 1 := by
    rw [e.line.cursor_backspace, ← h.index_eq]
  change Shows (if 0 < c.index then _ else c) { e with line := e.line.backspace } ↔ _
  split_ifs with hpos
  · constructor
    · rintro hshows ⟨-, hlt⟩
      have heq : c.text.take (c.index - 1) = c.text.take (c.index - 1) ++ c.text.drop c.index :=
        hshows.text_eq.trans htext
      have hnil : c.text.drop c.index = [] := List.self_eq_append_right.mp heq
      have hlength := List.drop_eq_nil_iff.mp hnil
      omega
    · intro hinside
      have hdrop : c.text.drop c.index = [] := List.drop_eq_nil_of_le (by omega)
      apply shows_of_eq
      · rw [htext, hdrop, List.append_nil]
        rfl
      · exact hcursor.symm
      · exact h.handled_eq
  · have hzero : c.index = 0 := by omega
    refine iff_of_true ?_ fun hinside => hpos hinside.1
    apply shows_of_eq
    · rw [htext, hzero]
      rfl
    · rw [hcursor, hzero]
    · exact h.handled_eq

theorem press_enter (h : Shows c e) : Shows (c.press handleInput .KeyEnter) (e.edit .enter) where
  index_le := Nat.zero_le _
  text_eq := rfl
  index_eq := rfl
  handled_eq := by
    change c.handled ++ [c.text] = e.entered ++ [e.line.text]
    rw [h.handled_eq, h.text_eq]

theorem press_quiet (h : key ∈ modifierKeys ∨ key = .KeyCapsLock ∨ key = .Invalid) :
    c.press handleInput key = c := by
  rcases h with h | rfl | rfl
  · simp only [modifierKeys, List.mem_cons, List.not_mem_nil, or_false] at h
    rcases h with rfl | rfl | rfl | rfl | rfl | rfl | rfl | rfl <;> rfl
  · rfl
  · rfl

structure Typed (key : InputKey) : Prop where
  not_left : key ≠ .KeyLeftArrow
  not_right : key ≠ .KeyRightArrow
  not_backspace : key ≠ .KeyBackspace
  not_enter : key ≠ .KeyEnter
  not_quiet : ¬ (key ∈ modifierKeys ∨ key = .KeyCapsLock ∨ key = .Invalid)

theorem press_typed (handleInput : Str → Terminal → Terminal) (c : Console) (h : Typed key) :
    c.press handleInput key =
      { c with
        text := insert c.text c.index [(c.keyboard.toString key).headD 0]
        index := c.index + 1
        terminal := c.terminal.putChar ((c.keyboard.toString key).headD 0) } := by
  have hquiet := h.not_quiet
  rw [← Keyboard.toString_take_one]
  unfold press
  split
  · exact absurd rfl h.not_left
  · exact absurd rfl h.not_right
  · exact absurd rfl h.not_backspace
  · exact absurd rfl h.not_enter
  all_goals first | rfl | exact absurd (by decide) hquiet

theorem press_insert (h : Shows c e) (hkey : Typed key) :
    Shows (c.press handleInput key) (e.edit (.insert ((c.keyboard.toString key).headD 0))) := by
  rw [press_typed handleInput c hkey]
  apply shows_of_eq
  · rw [e.line.text_insert, ← h.index_eq, ← h.text_eq]
    rfl
  · rw [e.line.cursor_insert, ← h.index_eq]
  · exact h.handled_eq

theorem length_insert (text : Str) (pos : ℕ) (ch : UInt8) :
    (insert text pos [ch]).length = text.length + 1 := by
  have hsplit : (text.take pos).length + (text.drop pos).length = text.length := by
    rw [← List.length_append, List.take_append_drop]
  unfold insert
  rw [List.length_append, List.length_append, List.length_singleton]
  omega

theorem typed_not_shows (h : Shows c e) (hkey : Typed key) : ¬ Shows (c.press handleInput key) e := by
  intro hshows
  have htext := hshows.text_eq.trans h.text_eq.symm
  rw [press_typed handleInput c hkey] at htext
  have hlength := congrArg List.length htext
  rw [length_insert] at hlength
  omega

theorem meaning_quiet (hcaps : .KeyCapsLock ∈ locks) (kb : Keyboard)
    (h : key ∈ modifierKeys ∨ key = .KeyCapsLock ∨ key = .Invalid) : meaning locks kb key = .nothing := by
  rcases h with h | rfl | rfl
  · simp only [modifierKeys, List.mem_cons, List.not_mem_nil, or_false] at h
    rcases h with rfl | rfl | rfl | rfl | rfl | rfl | rfl | rfl <;> rfl
  · unfold meaning
    simp only [hcaps, reduceCtorEq, if_false, or_true, true_or, if_true]
  · unfold meaning
    simp only [reduceCtorEq, if_false, or_true, if_true]

theorem meaning_typed (kb : Keyboard) (h : Typed key) :
    meaning locks kb key = if key ∈ locks then .nothing else .insert ((kb.toString key).headD 0) := by
  have hmodifier : key ∉ modifierKeys := fun hm => h.not_quiet (.inl hm)
  have hinvalid : key ≠ .Invalid := fun hi => h.not_quiet (.inr (.inr hi))
  unfold meaning
  rw [if_neg h.not_left, if_neg h.not_right, if_neg h.not_backspace, if_neg h.not_enter]
  simp only [hmodifier, hinvalid, false_or, or_false]

theorem press_iff (handleInput : Str → Terminal → Terminal) (hcaps : .KeyCapsLock ∈ locks) (h : Shows c e)
    (key : InputKey) :
    Shows (c.press handleInput key) (e.edit (meaning locks c.keyboard key)) ↔
      ¬ (key = .KeyBackspace ∧ 0 < c.index ∧ c.index < c.text.length) ∧ ¬ (Typed key ∧ key ∈ locks) := by
  by_cases hkey : Typed key
  · have hbackspace : ¬ (key = .KeyBackspace ∧ 0 < c.index ∧ c.index < c.text.length) :=
      fun hb => hkey.not_backspace hb.1
    rw [meaning_typed _ hkey, and_iff_right hbackspace]
    split_ifs with hlock
    · exact iff_of_false (typed_not_shows h hkey) fun hn => hn ⟨hkey, hlock⟩
    · exact iff_of_true (press_insert h hkey) fun ht => hlock ht.2
  · rw [and_iff_left fun ht => hkey ht.1]
    by_cases hleft : key = .KeyLeftArrow
    · subst hleft
      exact iff_of_true (press_left h) fun hb => absurd hb.1 (by decide)
    by_cases hright : key = .KeyRightArrow
    · subst hright
      exact iff_of_true (press_right h) fun hb => absurd hb.1 (by decide)
    by_cases hback : key = .KeyBackspace
    · subst hback
      rw [eq_self_iff_true, true_and]
      exact press_backspace_iff h
    by_cases henter : key = .KeyEnter
    · subst henter
      exact iff_of_true (press_enter h) fun hb => absurd hb.1 (by decide)
    have hquiet : key ∈ modifierKeys ∨ key = .KeyCapsLock ∨ key = .Invalid := by
      by_contra hquiet
      exact hkey ⟨hleft, hright, hback, henter, hquiet⟩
    rw [press_quiet hquiet, meaning_quiet hcaps _ hquiet]
    exact iff_of_true h fun hb => hback hb.1

theorem press_keyboard (handleInput : Str → Terminal → Terminal) (c : Console) (key : InputKey) :
    (c.press handleInput key).keyboard = c.keyboard := by
  unfold press
  split
  all_goals first | rfl | (split_ifs <;> rfl)

theorem press_index_le (handleInput : Str → Terminal → Terminal) (h : c.index ≤ c.text.length)
    (key : InputKey) : (c.press handleInput key).index ≤ (c.press handleInput key).text.length := by
  unfold press
  split
  · split_ifs
    · exact (Nat.sub_le _ _).trans h
    · exact h
  · split_ifs with hlt
    · exact hlt
    · exact h
  · split_ifs
    · change c.index - 1 ≤ (c.text.take (c.index - 1)).length
      rw [List.length_take]
      omega
    · exact h
  · exact Nat.zero_le _
  case h_15 =>
    dsimp only
    rw [Keyboard.toString_take_one, length_insert]
    omega
  all_goals exact h

theorem typed_locks : Typed .KeyNumLock ∧ Typed .KeyScrollLock := by
  constructor <;> constructor <;> decide

end Steps

theorem scanned_byte (scancode : UInt8) :
    ((if scanned scancode = .Invalid then scancode &&& 0x80 else scancode) &&& 0x80 = 0) ↔ scancode &&& 0x80 = 0 := by
  split_ifs
  · rw [UInt8.and_assoc, UInt8.and_self]
  · rfl

theorem consume_eq (handleInput : Str → Terminal → Terminal) (c : Console) (scancode : UInt8) :
    c.consume handleInput scancode =
      (pressed c.keyboard scancode).elim { c with keyboard := heard c.keyboard scancode }
        (press handleInput { c with keyboard := heard c.keyboard scancode }) := by
  unfold consume pressed heard
  by_cases hzero : scancode = 0
  · subst hzero
    rfl
  · simp only [hzero, if_false, ne_eq, not_false_eq_true, true_and, scanned_byte]
    split_ifs
    · rfl
    · rfl

theorem index_le_text (handleInput : Str → Terminal → Terminal) (kb : Keyboard) (t : Terminal)
    (scancodes : List UInt8) :
    Always (consume handleInput) (fun c => c.index ≤ c.text.length) (start kb t) scancodes := by
  have hstart : (start kb t).index ≤ (start kb t).text.length := le_rfl
  refine always_of_keeps hstart fun c scancode h => ?_
  rw [consume_eq]
  cases pressed c.keyboard scancode with
  | none => exact h
  | some key =>
    have hheard : ({ c with keyboard := heard c.keyboard scancode } : Console).index ≤ c.text.length := h
    exact press_index_le handleInput hheard key

theorem start_faithful (kb : Keyboard) (t : Terminal) : Faithful (start kb t) (.start kb) where
  keyboard_eq := rfl
  shows := ⟨le_rfl, rfl, rfl, rfl⟩

theorem consume_iff {handleInput : Str → Terminal → Terminal} {locks : List InputKey} {c : Console} {r : Reference}
    (hcaps : .KeyCapsLock ∈ locks) (h : Faithful c r) (scancode : UInt8) :
    Faithful (c.consume handleInput scancode) (follow locks r scancode) ↔
      ¬ ErasesInside c scancode ∧ ¬ ∃ key ∈ locks, Typed key ∧ pressed c.keyboard scancode = some key := by
  have hshows : Shows { c with keyboard := heard c.keyboard scancode } r.editor :=
    ⟨h.shows.index_le, h.shows.text_eq, h.shows.index_eq, h.shows.handled_eq⟩
  have hfollow : follow locks r scancode =
      { keyboard := heard c.keyboard scancode
        editor := (pressed c.keyboard scancode).elim r.editor fun key =>
          r.editor.edit (meaning locks (heard c.keyboard scancode) key) } := by
    rw [h.keyboard_eq]
    rfl
  rw [hfollow, consume_eq]
  unfold ErasesInside
  cases hpressed : pressed c.keyboard scancode with
  | none =>
    refine iff_of_true ⟨rfl, hshows⟩ ⟨?_, ?_⟩
    · rintro ⟨hnone, -⟩
      cases hnone
    · rintro ⟨key, -, -, hnone⟩
      cases hnone
  | some key =>
    have hkeyboard := press_keyboard handleInput { c with keyboard := heard c.keyboard scancode } key
    have hfaithful : ∀ e,
        Faithful (press handleInput { c with keyboard := heard c.keyboard scancode } key)
            ⟨heard c.keyboard scancode, e⟩ ↔
          Shows (press handleInput { c with keyboard := heard c.keyboard scancode } key) e :=
      fun e => ⟨Faithful.shows, fun hs => ⟨hkeyboard, hs⟩⟩
    have hlock : (∃ k ∈ locks, Typed k ∧ some key = some k) ↔ Typed key ∧ key ∈ locks := by
      constructor
      · rintro ⟨k, hmem, htyped, hk⟩
        rw [Option.some.inj hk]
        exact ⟨htyped, hmem⟩
      · rintro ⟨htyped, hmem⟩
        exact ⟨key, hmem, htyped, rfl⟩
    rw [hlock, Option.some_inj]
    exact (hfaithful _).trans (press_iff handleInput hcaps hshows key)

theorem typesLock_iff {c : Console} {scancode : UInt8} :
    (∃ key ∈ lockKeys, Typed key ∧ pressed c.keyboard scancode = some key) ↔ TypesLock c scancode := by
  constructor
  · rintro ⟨key, hmem, htyped, hpressed⟩
    simp only [lockKeys, List.mem_cons, List.not_mem_nil, or_false] at hmem
    rcases hmem with rfl | rfl | rfl
    · exact absurd (.inr (.inl rfl)) htyped.not_quiet
    · exact .inl hpressed
    · exact .inr hpressed
  · rintro (hpressed | hpressed)
    · exact ⟨_, by decide, typed_locks.1, hpressed⟩
    · exact ⟨_, by decide, typed_locks.2, hpressed⟩

theorem not_types_capsLock {c : Console} {scancode : UInt8} :
    ¬ ∃ key ∈ [InputKey.KeyCapsLock], Typed key ∧ pressed c.keyboard scancode = some key := by
  rintro ⟨key, hmem, htyped, -⟩
  exact htyped.not_quiet (.inr (.inl (List.mem_singleton.mp hmem)))

/-- The console is a faithful editor just in the runs in which no Backspace is
pressed between two characters, and no number lock or scroll lock; if only the
caps lock is to change nothing, just in those without such a Backspace. -/
theorem faithful_iff (handleInput : Str → Terminal → Terminal) (kb : Keyboard) (t : Terminal)
    (scancodes : List UInt8) :
    ((∀ pre, pre <+: scancodes →
        Faithful (after (consume handleInput) (start kb t) pre) (after (follow lockKeys) (.start kb) pre)) ↔
      Throughout (consume handleInput) (fun c scancode => ¬ ErasesInside c scancode ∧ ¬ TypesLock c scancode)
        (start kb t) scancodes) ∧
    ((∀ pre, pre <+: scancodes →
        Faithful (after (consume handleInput) (start kb t) pre) (after (follow [.KeyCapsLock]) (.start kb) pre)) ↔
      Throughout (consume handleInput) (fun c scancode => ¬ ErasesInside c scancode) (start kb t) scancodes) := by
  constructor
  · apply related_iff (start_faithful kb t)
    intro c r scancode h
    rw [← typesLock_iff]
    exact consume_iff (by decide) h scancode
  · apply related_iff (start_faithful kb t)
    intro c r scancode h
    rw [consume_iff (by decide) h scancode]
    exact and_iff_left not_types_capsLock

/-- `a`, `b`, the cursor back between them, Backspace: the whole text is gone. -/
theorem erases_rest :
    (after (consume fun _ t => t) (start .start (.start fun _ => 0)) [0x1e, 0x30, 0x4b, 0x0e]).text = [] ∧
    (after (follow lockKeys) (.start .start) [0x1e, 0x30, 0x4b, 0x0e]).editor.line.text = Keyboard.ascii "b" ∧
    ¬ ∀ pre, pre <+: [0x1e, 0x30, 0x4b, 0x0e] →
      Faithful (after (consume fun _ t => t) (start .start (.start fun _ => 0)) pre)
        (after (follow lockKeys) (.start .start) pre) := by
  have htext : (after (consume fun _ t => t) (start .start (.start fun _ => 0)) [0x1e, 0x30, 0x4b, 0x0e]).text =
      [] := by decide
  have hline : (after (follow lockKeys) (.start .start) [0x1e, 0x30, 0x4b, 0x0e]).editor.line.text =
      Keyboard.ascii "b" := by decide
  refine ⟨htext, hline, fun h => ?_⟩
  have hshows := (h _ List.prefix_rfl).shows.text_eq
  rw [htext, hline] at hshows
  revert hshows
  decide

end Console

end Thorn
