import Thorn.Paths

set_option autoImplicit false

namespace Thorn
open Paths

inductive InputKey
  | Invalid | KeyA | KeyB | KeyC | KeyD | KeyE | KeyF | KeyG | KeyH | KeyI | KeyJ | KeyK | KeyL | KeyM | KeyN | KeyO
  | KeyP | KeyQ | KeyR | KeyS | KeyT | KeyU | KeyV | KeyW | KeyX | KeyY | KeyZ | Key1 | Key2 | Key3 | Key4 | Key5
  | Key6 | Key7 | Key8 | Key9 | Key0 | KeyEnter | KeyEscape | KeyBackspace | KeyTab | KeySpacebar | KeyDash
  | KeyEqual | KeyOpenBracket | KeyCloseBracket | KeyBackslash | KeyEurope1 | KeySemicolon | KeyApostrophe
  | KeyGraveAccent | KeyComma | KeyPeriod | KeySlash | KeyCapsLock | KeyF1 | KeyF2 | KeyF3 | KeyF4 | KeyF5 | KeyF6
  | KeyF7 | KeyF8 | KeyF9 | KeyF10 | KeyF11 | KeyF12 | KeyPrintScreen | KeyScrollLock | KeyPause | KeyInsert
  | KeyHome | KeyPageUp | KeyDelete | KeyEnd | KeyPageDown | KeyRightArrow | KeyLeftArrow | KeyDownArrow | KeyUpArrow
  | KeyNumLock | KeyKpSlash | KeyKpStar | KeyKpDash | KeyKpPlus | KeyKpEnter | KeyKp1 | KeyKp2 | KeyKp3 | KeyKp4
  | KeyKp5 | KeyKp6 | KeyKp7 | KeyKp8 | KeyKp9 | KeyKp0 | KeyKpPeriod | KeyEurope2 | KeyApplication | KeyPower
  | KeyKpEqual | KeyF13 | KeyF14 | KeyF15 | KeyF16 | KeyF17 | KeyF18 | KeyF19 | KeyF20 | KeyF21 | KeyF22 | KeyF23
  | KeyF24 | KeyExecute | KeyHelp | KeyMenu | KeySelect | KeyStop | KeyAgain | KeyUndo | KeyCut | KeyCopy | KeyPaste
  | KeyFind | KeyMute | KeyVolumeUp | KeyVolumeDown | KeyLockingCapsLock | KeyLockingNumLock | KeyLockingScrollLock
  | KeyKpComma | KeyEqualSign | KeyI10L1 | KeyI10L2 | KeyI10L3 | KeyI10L4 | KeyI10L5 | KeyI10L6 | KeyI10L7 | KeyI10L8
  | KeyI10L9 | KeyLang1 | KeyLang2 | KeyLang3 | KeyLang4 | KeyLang5 | KeyLang6 | KeyLang7 | KeyLang8 | KeyLang9
  | KeyAltErase | KeySysReq | KeyCancel | KeyClear | KeyPrior | KeyReturn | KeySeparator | KeyOut | KeyOper
  | KeyClearAgain | KeyCrSel | KeyExSel | KeyTilde | KeyUnderscore | KeyDoubleQuote | KeyQuestionMark | KeyKp00
  | KeyKp000 | KeyThousandsSep | KeyDecimalSep | KeyCurrencyUnit | KeyCurrencySubunit | KeyKpOpenParenthesis
  | KeyKpCloseParenthesis | KeyKpOpenBrace | KeyKpCloseBrace | KeyKpTab | KeyKpBackspace | KeyKpA | KeyKpB | KeyKpC
  | KeyKpD | KeyKpE | KeyKpF | KeyKpXor | KeyKpCaret | KeyKpPercent | KeyKpSmallerThan | KeyKpGreaterThan | KeyKpAmp
  | KeyKpDoubleAmp | KeyKpPipe | KeyKpDoublePipe | KeyKpColon | KeyKpNumber | KeyKpSpace | KeyKpAt
  | KeyKpExclamationMark | KeyKpMemStore | KeyKpMemRecall | KeyKpMemClear | KeyKpMemAdd | KeyKpMemSubtract
  | KeyKpMemMultiply | KeyKpMemDivide | KeyKpPlusMinus | KeyKpClear | KeyKpClearEntry | KeyKpBin | KeyKpOct
  | KeyKpDec | KeyKpHex | KeyLeftCtrl | KeyLeftShift | KeyLeftAlt | KeyLeftMeta | KeyRightCtrl | KeyRightShift
  | KeyRightAlt | KeyRightMeta
  deriving DecidableEq

/-- The value in the enumeration: one more at each name, but for the reserved ranges. -/
def InputKey.code (key : InputKey) : ℕ :=
  if key = .Invalid then 0
  else if key.ctorIdx < InputKey.KeyKp00.ctorIdx then 0x04 + (key.ctorIdx - InputKey.KeyA.ctorIdx)
  else if key.ctorIdx < InputKey.KeyLeftCtrl.ctorIdx then 0xb0 + (key.ctorIdx - InputKey.KeyKp00.ctorIdx)
  else 0xe0 + (key.ctorIdx - InputKey.KeyLeftCtrl.ctorIdx)

example :
    [InputKey.KeyQuestionMark, .KeyKpHex, .KeyRightMeta].map InputKey.code = [0xa8, 0xdd, 0xe7] := by decide

inductive Modifier
  | Ctrl | Shift | Alt | Meta

def Modifier.bits : Modifier → UInt8
  | .Ctrl => 1
  | .Shift => 2
  | .Alt => 4
  | .Meta => 8

structure Keyboard where
  modifiers : UInt8
  capslock : Bool
  numlock : Bool

namespace Keyboard

def start : Keyboard := { modifiers := 0, capslock := false, numlock := true }

def keyNames : List String := [
  "Invalid", "Invalid", "Invalid", "Invalid", "a", "b", "c", "d", "e", "f", "g", "h", "i", "j", "k", "l", "m", "n",
  "o", "p", "q", "r", "s", "t", "u", "v", "w", "x", "y", "z", "1", "2", "3", "4", "5", "6", "7", "8", "9", "0",
  "Enter", "Escape", "Backspace", "\t", " ", "-", "=", "[", "]", "\\", "Europe1", ";", "\x27", "\x60", ",", ".", "/",
  "CapsLock", "F1", "F2", "F3", "F4", "F5", "F6", "F7", "F8", "F9", "F10", "F11", "F12", "PrintScreen", "ScrollLock",
  "Pause", "Insert", "Home", "PageUp", "Delete", "End", "PageDown", "RightArrow", "LeftArrow", "DownArrow",
  "UpArrow", "NumLock", "/", "*", "-", "+", "KpEnter", "1", "2", "3", "4", "5", "6", "7", "8", "9", "0", ".",
  "Europe2", "Application", "Power", "=", "F13", "F14", "F15", "F16", "F17", "F18", "F19", "F20", "F21", "F22",
  "F23", "F24", "Execute", "Help", "Menu", "Select", "Stop", "Again", "Undo", "Cut", "Copy", "Paste", "Find", "Mute",
  "VolumeUp", "VolumeDown", "LockingCapsLock", "LockingNumLock", "LockingScrollLock", ",", "=", "I10L1", "I10L2",
  "I10L3", "I10L4", "I10L5", "I10L6", "I10L7", "I10L8", "I10L9", "Lang1", "Lang2", "Lang3", "Lang4", "Lang5",
  "Lang6", "Lang7", "Lang8", "Lang9", "AltErase", "SysReq", "Cancel", "Clear", "Prior", "Return", "Separator", "Out",
  "Oper", "ClearAgain", "CrSel", "ExSel", "~", "_", "\x22", "?", "Invalid", "Invalid", "Invalid", "Invalid",
  "Invalid", "Invalid", "Invalid", "Kp00", "Kp000", "ThousandsSep", "DecimalSep", "$", "CurrencySubunit", "(", ")",
  "\x7b", "\x7d", "\t", "KpBackspace", "KpA", "KpB", "KpC", "KpD", "KpE", "KpF", "^", "^", "%", "<", ">", "&", "&&",
  "|", "||", ":", "#", " ", "@", "!", "KpMemStore", "KpMemRecall", "KpMemClear", "KpMemAdd", "KpMemSubtract",
  "KpMemMultiply", "KpMemDivide", "KpPlusMinus", "KpClear", "KpClearEntry", "KpBin", "KpOct", "KpDec", "KpHex",
  "Invalid", "Invalid", "LeftCtrl", "LeftShift", "LeftAlt", "LeftMeta", "RightCtrl", "RightShift", "RightAlt",
  "RightMeta"]

def scanmapNormal : List InputKey := [
  .Invalid, .KeyEscape, .Key1, .Key2, .Key3, .Key4, .Key5, .Key6, .Key7, .Key8, .Key9, .Key0, .KeyDash, .KeyEqual,
  .KeyBackspace, .KeyTab, .KeyQ, .KeyW, .KeyE, .KeyR, .KeyT, .KeyY, .KeyU, .KeyI, .KeyO, .KeyP, .KeyOpenBracket,
  .KeyCloseBracket, .KeyEnter, .KeyLeftCtrl, .KeyA, .KeyS, .KeyD, .KeyF, .KeyG, .KeyH, .KeyJ, .KeyK, .KeyL,
  .KeySemicolon, .KeyApostrophe, .KeyGraveAccent, .KeyLeftShift, .KeyBackslash, .KeyZ, .KeyX, .KeyC, .KeyV, .KeyB,
  .KeyN, .KeyM, .KeyComma, .KeyPeriod, .KeySlash, .KeyRightShift, .KeyKpStar, .KeyLeftAlt, .KeySpacebar,
  .KeyCapsLock, .KeyF1, .KeyF2, .KeyF3, .KeyF4, .KeyF5, .KeyF6, .KeyF7, .KeyF8, .KeyF9, .KeyF10, .KeyNumLock,
  .KeyScrollLock, .KeyKp7, .KeyKp8, .KeyKp9, .KeyKpDash, .KeyKp4, .KeyKp5, .KeyKp6, .KeyKpPlus, .KeyKp1, .KeyKp2,
  .KeyKp3, .KeyKp0, .KeyKpPeriod, .KeySysReq, .Invalid, .KeyEurope2, .KeyF11, .KeyF12, .KeyKpEqual, .Invalid,
  .KeyLeftMeta, .KeyI10L2, .Invalid, .Invalid, .Invalid, .Invalid, .Invalid, .Invalid, .Invalid, .KeyF13, .KeyF14,
  .KeyF15, .KeyF16, .KeyF17, .KeyF18, .KeyF19, .KeyF20, .KeyF21, .KeyF22, .KeyF23, .Invalid, .KeyI10L2, .KeyLang1,
  .KeyLang1, .KeyI10L1, .Invalid, .Invalid, .KeyF24, .KeyLang4, .KeyLang3, .KeyI10L4, .Invalid, .KeyI10L5, .Invalid,
  .KeyI10L3, .KeyEqualSign, .Invalid]

def getModifier : InputKey → UInt8
  | .KeyLeftShift | .KeyRightShift => Modifier.Shift.bits
  | .KeyLeftAlt | .KeyRightAlt => Modifier.Alt.bits
  | .KeyLeftCtrl | .KeyRightCtrl => Modifier.Ctrl.bits
  | .KeyLeftMeta | .KeyRightMeta => Modifier.Meta.bits
  | _ => 0

def hasModifier (kb : Keyboard) (modifier : Modifier) : Bool := kb.modifiers &&& modifier.bits ≠ 0

/-- A key goes down or comes up. The two switches over the modifiers have the
table of `getModifier`; `Kernel::onKey`, called at the end, does nothing. -/
def onKey (kb : Keyboard) (key : InputKey) (down : Bool) : Keyboard :=
  if key = .Invalid then kb
  else
    { capslock := if key = .KeyCapsLock ∧ down then !kb.capslock else kb.capslock
      numlock := if key = .KeyNumLock ∧ down then !kb.numlock else kb.numlock
      modifiers := if down then kb.modifiers ||| getModifier key else kb.modifiers &&& ~~~getModifier key }

def keypad : InputKey → InputKey
  | .KeyKp0 => .KeyInsert
  | .KeyKp1 => .KeyEnd
  | .KeyKp2 => .KeyDownArrow
  | .KeyKp3 => .KeyPageDown
  | .KeyKp4 => .KeyLeftArrow
  | .KeyKp6 => .KeyRightArrow
  | .KeyKp7 => .KeyHome
  | .KeyKp8 => .KeyUpArrow
  | .KeyKp9 => .KeyPageUp
  | key => key

def shifted : InputKey → InputKey
  | .KeyGraveAccent => .KeyTilde
  | .Key1 => .KeyKpExclamationMark
  | .Key2 => .KeyKpAt
  | .Key3 => .KeyKpNumber
  | .Key4 => .KeyCurrencyUnit
  | .Key5 => .KeyKpPercent
  | .Key6 => .KeyKpCaret
  | .Key7 => .KeyKpAmp
  | .Key8 => .KeyKpStar
  | .Key9 => .KeyKpOpenParenthesis
  | .Key0 => .KeyKpCloseParenthesis
  | .KeyDash | .KeyKpDash => .KeyUnderscore
  | .KeyEqual | .KeyKpEqual | .KeyEqualSign => .KeyKpPlus
  | .KeyOpenBracket => .KeyKpOpenBrace
  | .KeyCloseBracket => .KeyKpCloseBrace
  | .KeySemicolon => .KeyKpColon
  | .KeyApostrophe => .KeyDoubleQuote
  | .KeyComma => .KeyKpSmallerThan
  | .KeyPeriod => .KeyKpGreaterThan
  | .KeySlash => .KeyQuestionMark
  | .KeyBackslash => .KeyKpPipe
  | key => key

def transform (kb : Keyboard) (key : InputKey) : InputKey :=
  let key := if kb.numlock then keypad key else key
  if kb.hasModifier .Shift then shifted key else key

def ascii (name : String) : Str := name.toList.map fun c => UInt8.ofNat c.toNat

def keyName (key : InputKey) : Str := ascii (keyNames.getD key.code "")

def toString (kb : Keyboard) (key : InputKey) : Str :=
  if key.code < InputKey.KeyA.code ∨ InputKey.KeyZ.code < key.code then keyName key
  else
    let ch := (keyName key).headD 0
    if kb.hasModifier .Shift ^^ kb.capslock then [ch + 65 - 97] else [ch]

set_option maxRecDepth 2000 in
theorem keyNames_length : keyNames.length = 232 := rfl

set_option maxRecDepth 2000 in
theorem keyNames_ne_empty : ∀ name ∈ keyNames, name ≠ "" := by decide

theorem code_lt (key : InputKey) : key.code < keyNames.length := by
  rw [keyNames_length]
  cases key <;> decide

theorem ascii_ne_nil {name : String} (h : name ≠ "") : ascii name ≠ [] := by
  intro hnil
  exact h (String.toList_eq_nil_iff.mp (List.map_eq_nil_iff.mp hnil))

theorem keyName_ne_nil (key : InputKey) : keyName key ≠ [] := by
  unfold keyName
  rw [List.getD_eq_getElem _ _ (code_lt key)]
  exact ascii_ne_nil (keyNames_ne_empty _ (List.getElem_mem _))

theorem toString_ne_nil (kb : Keyboard) (key : InputKey) : kb.toString key ≠ [] := by
  unfold toString
  dsimp only
  split_ifs
  · exact keyName_ne_nil key
  · exact List.cons_ne_nil _ _
  · exact List.cons_ne_nil _ _

theorem toString_take_one (kb : Keyboard) (key : InputKey) :
    (kb.toString key).take 1 = [(kb.toString key).headD 0] := by
  have hne := toString_ne_nil kb key
  cases h : kb.toString key with
  | nil => exact absurd h hne
  | cons ch rest => rfl

end Keyboard

end Thorn
