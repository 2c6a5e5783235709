import Thorn.Library.Runs

set_option autoImplicit false

/-!
# The text terminal

`Terminal.cpp`: the cursor on the screen and the cells of the VGA buffer. Every
write through `putEntryAt` is kept in `entries`, with the cursor it was made at.
-/
namespace Thorn
open Runs

def VGA_WIDTH : ℕ := 80
def VGA_HEIGHT : ℕ := 25
def tabSize : ℕ := 4

structure Entry where
  index : ℕ
  row : ℕ
  column : ℕ

structure Terminal where
  row : ℕ
  column : ℕ
  color : UInt8
  buffer : ℕ → UInt16
  entries : List Entry

namespace Terminal

def size (n : ℕ) : ℕ := n % 2 ^ 64

def vgaEntryColor (fg bg : UInt8) : UInt8 := fg ||| bg <<< 4

def vgaEntry (uc color : UInt8) : UInt16 := uc.toUInt16 ||| color.toUInt16 <<< 8

def grayOnBlack : UInt8 := vgaEntryColor 7 0

def start (buffer : ℕ → UInt16) : Terminal :=
  { row := 0, column := 0, color := grayOnBlack, buffer := buffer, entries := [] }

def clear (t : Terminal) : Terminal :=
  { t with buffer := fun i => if i < VGA_HEIGHT * VGA_WIDTH then 0 else t.buffer i, row := 0, column := 0 }

def setColor (t : Terminal) (color : UInt8) : Terminal := { t with color := color }

def putEntryAt (t : Terminal) (c color : UInt8) (x y : ℕ) : Terminal :=
  { t with
    buffer := Function.update t.buffer (size (y * VGA_WIDTH + x)) (vgaEntry c color)
    entries := ⟨size (y * VGA_WIDTH + x), t.row, t.column⟩ :: t.entries }

def copyRow (buffer : ℕ → UInt16) (j : ℕ) : ℕ → UInt16 := fun i =>
  if j * VGA_WIDTH ≤ i ∧ i < (j + 1) * VGA_WIDTH then buffer (i + VGA_WIDTH) else buffer i

def scrollLine (buffer : ℕ → UInt16) : ℕ → UInt16 := fun i =>
  if (VGA_HEIGHT - 1) * VGA_WIDTH ≤ i ∧ i < VGA_HEIGHT * VGA_WIDTH then vgaEntry 32 grayOnBlack
  else (List.range (VGA_HEIGHT - 1)).foldl copyRow buffer i

def scrollUp (lines : ℕ) (t : Terminal) : Terminal := { t with buffer := scrollLine^[lines] t.buffer }

def nextLine (t : Terminal) : Terminal :=
  let row := size (t.row + 1)
  if VGA_HEIGHT ≤ row then { scrollUp 1 { t with row := row, column := 0 } with row := row - 1 }
  else { t with row := row, column := 0 }

def putChar (t : Terminal) (c : UInt8) : Terminal :=
  if c = 10 then t.nextLine
  else if c = 13 then { t with column := 0 }
  else if c = 9 then { t with column := size (t.column + tabSize) &&& (2 ^ 64 - 1 - (tabSize - 1)) }
  else
    let t := t.putEntryAt c t.color t.column t.row
    let t := { t with column := size (t.column + 1) }
    if t.column = VGA_WIDTH then t.nextLine else t

def left (t : Terminal) (amount : UInt8) (wrap : Bool) : Terminal :=
  let n := amount.toNat
  if wrap then
    if t.column < n % VGA_WIDTH then
      { t with
        column := size (t.column + (VGA_WIDTH - n % VGA_WIDTH))
        row := if n / VGA_WIDTH + 1 ≤ t.row then t.row - (n / VGA_WIDTH + 1) else 0 }
    else
      { t with
        column := t.column - n % VGA_WIDTH
        row := if n / VGA_WIDTH ≤ t.row then t.row - n / VGA_WIDTH else 0 }
  else { t with column := if n ≤ t.column then t.column - n else 0 }

def right (t : Terminal) (amount : UInt8) (wrap : Bool) : Terminal :=
  let n := amount.toNat
  let down (moves column : ℕ) : Terminal :=
    { t with
      column := column
      row := if VGA_HEIGHT ≤ size (t.row + moves) then VGA_HEIGHT - 1 else size (t.row + moves) }
  if wrap then
    if VGA_WIDTH ≤ size (t.column + n % VGA_WIDTH) then
      down (n / VGA_WIDTH + 1) (size (t.column + (2 ^ 64 + n % VGA_WIDTH - VGA_WIDTH)))
    else down (n / VGA_WIDTH) (size (t.column + n % VGA_WIDTH))
  else { t with column := if VGA_WIDTH ≤ size (t.column + n) then VGA_WIDTH - 1 else size (t.column + n) }

def write (t : Terminal) (data : List UInt8) : Terminal := data.foldl putChar t

def writeText (t : Terminal) (data : List UInt8) : Terminal := t.write (data.takeWhile (· ≠ 0))

inductive Op
  | putChar (c : UInt8)
  | left (amount : UInt8) (wrap : Bool)
  | right (amount : UInt8) (wrap : Bool)
  | nextLine
  | clear
  | setColor (color : UInt8)

def perform (t : Terminal) : Op → Terminal
  | .putChar c => t.putChar c
  | .left amount wrap => t.left amount wrap
  | .right amount wrap => t.right amount wrap
  | .nextLine => t.nextLine
  | .clear => t.clear
  | .setColor color => t.setColor color

inductive Call
  | op (o : Op)
  | write (data : List UInt8)
  | writeText (data : List UInt8)

def call (t : Terminal) : Call → Terminal
  | .op o => t.perform o
  | .write data => t.write data
  | .writeText data => t.writeText data

def Call.ops : Call → List Op
  | .op o => [o]
  | .write data => data.map .putChar
  | .writeText data => (data.takeWhile (· ≠ 0)).map .putChar

theorem write_eq (t : Terminal) (data : List UInt8) : t.write data = after perform t (data.map .putChar) := by
  unfold write after
  rw [List.foldl_map]
  rfl

theorem call_eq (t : Terminal) (c : Call) : t.call c = after perform t c.ops := by
  cases c with
  | op o => rfl
  | write data => exact t.write_eq data
  | writeText data => exact t.write_eq _

theorem calls_eq (t : Terminal) (calls : List Call) :
    after call t calls = after perform t (calls.flatMap Call.ops) := by
  induction calls generalizing t with
  | nil => rfl
  | cons c calls ih => rw [after_cons, ih, List.flatMap_cons, after_append, call_eq]

/-- The written cell is on the screen, and is the one the cursor was at. -/
structure Entry.InPlace (e : Entry) : Prop where
  on_screen : e.index < VGA_WIDTH * VGA_HEIGHT
  row_eq : e.index / VGA_WIDTH = e.row
  column_eq : e.index % VGA_WIDTH = e.column

structure Inside (t : Terminal) : Prop where
  row_lt : t.row < VGA_HEIGHT
  column_lt : t.column < VGA_WIDTH
  entries : ∀ e ∈ t.entries, Entry.InPlace e

def TabFits (t : Terminal) (op : Op) : Prop := op = .putChar 9 → t.column + tabSize < VGA_WIDTH

theorem size_of_lt {n : ℕ} (h : n < 2 ^ 64) : size n = n := Nat.mod_eq_of_lt h

theorem height_pos : 0 < VGA_HEIGHT := by decide

theorem width_pos : 0 < VGA_WIDTH := by decide

theorem start_inside (buffer : ℕ → UInt16) : Inside (start buffer) where
  row_lt := height_pos
  column_lt := width_pos
  entries := by
    intro e he
    cases he

theorem nextLine_inside {t : Terminal} (hrow : t.row < VGA_HEIGHT)
    (hentries : ∀ e ∈ t.entries, Entry.InPlace e) : Inside t.nextLine := by
  have hsize : size (t.row + 1) = t.row + 1 := size_of_lt (by unfold VGA_HEIGHT at hrow; omega)
  unfold nextLine
  simp only [hsize]
  split_ifs with hlast
  · exact ⟨hrow, width_pos, hentries⟩
  · exact ⟨by change t.row + 1 < VGA_HEIGHT; omega, width_pos, hentries⟩

theorem putEntryAt_inPlace {t : Terminal} (h : Inside t) (c color : UInt8) :
    ∀ e ∈ (t.putEntryAt c color t.column t.row).entries, Entry.InPlace e := by
  intro e he
  obtain ⟨hrow, hcolumn, hentries⟩ := h
  rcases List.mem_cons.mp he with rfl | he
  · unfold VGA_HEIGHT at hrow
    unfold VGA_WIDTH at hcolumn
    have hsize : size (t.row * VGA_WIDTH + t.column) = t.row * 80 + t.column :=
      size_of_lt (by unfold VGA_WIDTH; omega)
    constructor
    · change size _ < 80 * 25
      omega
    · change size _ / 80 = t.row
      omega
    · change size _ % 80 = t.column
      omega
  · exact hentries e he

theorem tabStop (column : ℕ) (h : column < VGA_WIDTH) :
    size (column + tabSize) &&& (2 ^ 64 - 1 - (tabSize - 1)) = (column + tabSize) / tabSize * tabSize := by
  revert column
  decide

/-- A character keeps the cursor on the screen, but for a tab past the last tab stop. -/
theorem putChar_inside_iff {t : Terminal} (h : Inside t) (c : UInt8) :
    Inside (t.putChar c) ↔ (c = 9 → t.column + tabSize < VGA_WIDTH) := by
  have hcolumn := h.column_lt
  unfold putChar
  by_cases hn : c = 10
  · rw [if_pos hn]
    exact iff_of_true (nextLine_inside h.row_lt h.entries) (by rintro rfl; cases hn)
  by_cases hr : c = 13
  · rw [if_neg hn, if_pos hr]
    exact iff_of_true ⟨h.row_lt, width_pos, h.entries⟩ (by rintro rfl; cases hr)
  rw [if_neg hn, if_neg hr]
  by_cases ht : c = 9
  · rw [if_pos ht, tabStop _ h.column_lt]
    unfold VGA_WIDTH tabSize at *
    constructor
    · intro hi _
      have hlt : (t.column + 4) / 4 * 4 < 80 := hi.column_lt
      omega
    · intro hlt
      have := hlt ht
      exact ⟨h.row_lt, by change (t.column + 4) / 4 * 4 < 80; omega, h.entries⟩
  · rw [if_neg ht]
    have hsize : size (t.column + 1) = t.column + 1 := size_of_lt (by unfold VGA_WIDTH at hcolumn; omega)
    have hentries := putEntryAt_inPlace h c t.color
    refine iff_of_true ?_ fun h9 => absurd h9 ht
    change Inside (if size (t.column + 1) = VGA_WIDTH then _ else _)
    rw [hsize]
    split_ifs with hedge
    · exact nextLine_inside h.row_lt hentries
    · exact ⟨h.row_lt, by change size (t.column + 1) < VGA_WIDTH; omega, hentries⟩

theorem left_inside {t : Terminal} (h : Inside t) (amount : UInt8) (wrap : Bool) :
    Inside (t.left amount wrap) := by
  obtain ⟨hrow, hcolumn, hentries⟩ := h
  have hmod : amount.toNat % VGA_WIDTH < VGA_WIDTH := Nat.mod_lt _ (by decide)
  unfold left
  dsimp only
  split_ifs
  all_goals refine ⟨?_, ?_, hentries⟩
  all_goals simp only [size, VGA_WIDTH, VGA_HEIGHT] at *
  all_goals omega

theorem right_inside {t : Terminal} (h : Inside t) (amount : UInt8) (wrap : Bool) :
    Inside (t.right amount wrap) := by
  obtain ⟨hrow, hcolumn, hentries⟩ := h
  have hamount : amount.toNat < 2 ^ 8 := amount.toNat_lt
  have hmod : amount.toNat % VGA_WIDTH < VGA_WIDTH := Nat.mod_lt _ (by decide)
  unfold right
  dsimp only
  split_ifs
  all_goals refine ⟨?_, ?_, hentries⟩
  all_goals simp only [size, VGA_WIDTH, VGA_HEIGHT] at *
  all_goals omega

theorem perform_inside_iff {t : Terminal} (h : Inside t) (op : Op) : Inside (t.perform op) ↔ TabFits t op := by
  cases op with
  | putChar c =>
    refine (putChar_inside_iff h c).trans ?_
    unfold TabFits
    rw [Op.putChar.injEq]
  | left amount wrap => exact iff_of_true (left_inside h amount wrap) (by rintro ⟨⟩)
  | right amount wrap => exact iff_of_true (right_inside h amount wrap) (by rintro ⟨⟩)
  | nextLine => exact iff_of_true (nextLine_inside h.row_lt h.entries) (by rintro ⟨⟩)
  | clear => exact iff_of_true ⟨height_pos, width_pos, h.entries⟩ (by rintro ⟨⟩)
  | setColor color => exact iff_of_true ⟨h.row_lt, h.column_lt, h.entries⟩ (by rintro ⟨⟩)

/-- The cursor stays on the screen through a run just when every tab of the run
finds a tab stop on its line. -/
theorem inside_iff (buffer : ℕ → UInt16) (calls : List Call) :
    (Always perform Inside (start buffer) (calls.flatMap Call.ops) ↔
      Throughout perform TabFits (start buffer) (calls.flatMap Call.ops)) ∧
    (Throughout perform TabFits (start buffer) (calls.flatMap Call.ops) →
      Always call Inside (start buffer) calls) := by
  have hiff : Always perform Inside (start buffer) (calls.flatMap Call.ops) ↔
      Throughout perform TabFits (start buffer) (calls.flatMap Call.ops) :=
    always_iff (L := fun _ _ => True) (start_inside buffer) (fun _ op h _ => perform_inside_iff h op) throughout_true
  refine ⟨hiff, fun h pre hpre => ?_⟩
  rw [calls_eq]
  obtain ⟨rest, rfl⟩ := hpre
  exact hiff.mpr h _ ⟨rest.flatMap Call.ops, (List.flatMap_append).symm⟩

set_option maxRecDepth 20000 in
/-- The last line, the last tab stop, and one more tab: the cursor has left the
screen, and the next character is put behind the end of the buffer. -/
theorem tab_leaves_screen :
    ¬ Always call Inside (start fun _ => 0)
      [.write (List.replicate 24 10 ++ List.replicate 19 9), .op (.putChar 9), .op (.putChar 65)] ∧
    ((after call (start fun _ => 0)
      [.write (List.replicate 24 10 ++ List.replicate 19 9), .op (.putChar 9), .op (.putChar 65)]).entries.map
        Entry.index) = [VGA_WIDTH * VGA_HEIGHT] := by
  refine ⟨fun h => ?_, by decide⟩
  have hlast := h.after.column_lt
  revert hlast
  decide

end Terminal

end Thorn
