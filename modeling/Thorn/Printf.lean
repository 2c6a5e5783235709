import Thorn.Library.Bytes
import Thorn.Paths

set_option autoImplicit false

/-!
# Formatted output

`printf.cpp` without its floating-point conversions. A call is `none` when it
meets one of these, reads an argument that is not there or not of the type, or
reads on behind the end of the format. A format and a string argument are the
characters in front of their terminators.
-/
namespace Thorn.Printf
open ByteStore Paths

/-- `out_fct_type`: the character, the buffer, its index and the limit. -/
abbrev Out (β : Type) := UInt8 → β → ℕ → ℕ → β

def outBuffer : Out Store := fun character buffer idx maxlen =>
  if idx < maxlen then Function.update buffer idx character else buffer

def outNull : Out Unit := fun _ buffer _ _ => buffer

/-- The buffer stands for what `_putchar` is given. -/
def outChar : Out Str := fun character buffer _ _ => if character ≠ 0 then buffer ++ [character] else buffer

structure Flags where
  zeropad : Bool
  left : Bool
  plus : Bool
  space : Bool
  hash : Bool
  uppercase : Bool
  char : Bool
  short : Bool
  long : Bool
  longLong : Bool
  precision : Bool
deriving DecidableEq

def Flags.none : Flags :=
  ⟨false, false, false, false, false, false, false, false, false, false, false⟩

inductive Arg
  | int (value : BitVec 32)
  | long (value : BitVec 64)
  | string (value : Str)
  | pointer (value : BitVec 64)

def PRINTF_NTOA_BUFFER_SIZE : ℕ := 32

section
variable {β : Type} (out : Out β) (maxlen : ℕ)

def put (character : UInt8) (p : β × ℕ) : β × ℕ := (out character p.1 p.2 maxlen, p.2 + 1)

def putMany (character : UInt8) : ℕ → β × ℕ → β × ℕ
  | 0, p => p
  | n + 1, p => putMany character n (put out maxlen character p)

def putAll : Str → β × ℕ → β × ℕ
  | [], p => p
  | character :: rest, p => putAll rest (put out maxlen character p)

def outRev (buf : Str) (width : ℕ) (flags : Flags) (p : β × ℕ) : β × ℕ :=
  let start_idx := p.2
  let p := if ¬ flags.left ∧ ¬ flags.zeropad then putMany out maxlen 32 (width - buf.length) p else p
  let p := putAll out maxlen buf.reverse p
  if flags.left then putMany out maxlen 32 (width - (p.2 - start_idx)) p else p

end

def push (buf : Str) (character : UInt8) : Str :=
  if buf.length < PRINTF_NTOA_BUFFER_SIZE then buf ++ [character] else buf

def padZeros (limit : ℕ) : ℕ → Str → Str
  | 0, buf => buf
  | fuel + 1, buf => if buf.length < limit ∧ buf.length < PRINTF_NTOA_BUFFER_SIZE then
      padZeros limit fuel (buf ++ [48]) else buf

def signWidth (negative : Bool) (width : ℕ) (flags : Flags) : ℕ :=
  if ¬ flags.left ∧ width ≠ 0 ∧ flags.zeropad ∧ (negative ∨ flags.plus ∨ flags.space) then width - 1 else width

def padNumber (buf : Str) (prec width : ℕ) (flags : Flags) : Str :=
  if flags.left then buf else
    let buf := padZeros prec PRINTF_NTOA_BUFFER_SIZE buf
    if flags.zeropad then padZeros width PRINTF_NTOA_BUFFER_SIZE buf else buf

/-- The prefix of the base takes the place of leading characters of a full field. -/
def handleHash (buf : Str) (base prec width : ℕ) (flags : Flags) : Str :=
  let buf := if ¬ flags.precision ∧ buf ≠ [] ∧ (buf.length = prec ∨ buf.length = width) then
      if base = 16 then buf.dropLast.dropLast else buf.dropLast
    else buf
  let buf :=
    if base = 16 ∧ ¬ flags.uppercase then push buf 120
    else if base = 16 ∧ flags.uppercase then push buf 88
    else if base = 2 then push buf 98
    else buf
  push buf 48

def pushSign (buf : Str) (negative : Bool) (flags : Flags) : Str :=
  if negative then push buf 45
  else if flags.plus then push buf 43
  else if flags.space then push buf 32
  else buf

def ntoaBuffer (buf : Str) (negative : Bool) (base prec width : ℕ) (flags : Flags) : Str :=
  let width := signWidth negative width flags
  let buf := padNumber buf prec width flags
  let buf := if flags.hash then handleHash buf base prec width flags else buf
  pushSign buf negative flags

def digitChar (uppercase : Bool) (digit : ℕ) : UInt8 :=
  if digit < 10 then UInt8.ofNat (48 + digit) else UInt8.ofNat ((if uppercase then 65 else 97) + digit - 10)

def digitsLoop (uppercase : Bool) (base : ℕ) : ℕ → ℕ → Str
  | 0, _ => []
  | fuel + 1, value =>
    digitChar uppercase (value % base) :: if value / base ≠ 0 then digitsLoop uppercase base fuel (value / base) else []

section
variable {β : Type} (out : Out β) (maxlen : ℕ)

def ntoaFormat (buf : Str) (negative : Bool) (base prec width : ℕ) (flags : Flags) (p : β × ℕ) : β × ℕ :=
  outRev out maxlen (ntoaBuffer buf negative base prec width flags) (signWidth negative width flags) flags p

def ntoaLong (value : ℕ) (negative : Bool) (base prec width : ℕ) (flags : Flags) (p : β × ℕ) : β × ℕ :=
  let flags := if value = 0 then { flags with hash := false } else flags
  let buf :=
    if ¬ flags.precision ∨ value ≠ 0 then digitsLoop flags.uppercase base PRINTF_NTOA_BUFFER_SIZE value else []
  ntoaFormat out maxlen buf negative base prec width flags p

/-- `long long` is as wide as `long`. -/
def ntoaLongLong (value : ℕ) (negative : Bool) (base prec width : ℕ) (flags : Flags) (p : β × ℕ) : β × ℕ :=
  ntoaLong out maxlen value negative base prec width flags p

end

def isDigit (ch : UInt8) : Bool := 48 ≤ ch && ch ≤ 57

def atoi : ℕ → Str → ℕ × Str
  | i, [] => (i, [])
  | i, ch :: rest => if isDigit ch then atoi ((i * 10 + (ch.toNat - 48)) % 2 ^ 32) rest else (i, ch :: rest)

structure Directive where
  flags : Flags
  width : ℕ
  precision : ℕ
  format : Str
  va : List Arg

def evalFlags : Flags → Str → Flags × Str
  | flags, [] => (flags, [])
  | flags, ch :: rest =>
    if ch = 48 then evalFlags { flags with zeropad := true } rest
    else if ch = 45 then evalFlags { flags with left := true } rest
    else if ch = 43 then evalFlags { flags with plus := true } rest
    else if ch = 32 then evalFlags { flags with space := true } rest
    else if ch = 35 then evalFlags { flags with hash := true } rest
    else (flags, ch :: rest)

def vaInt : List Arg → Option (BitVec 32 × List Arg)
  | .int value :: va => some (value, va)
  | _ => none

def vaLong : List Arg → Option (BitVec 64 × List Arg)
  | .long value :: va => some (value, va)
  | _ => none

def vaString : List Arg → Option (Str × List Arg)
  | .string value :: va => some (value, va)
  | _ => none

def vaPointer : List Arg → Option (BitVec 64 × List Arg)
  | .pointer value :: va => some (value, va)
  | _ => none

def evalWidth (d : Directive) : Option Directive :=
  match d.format with
  | [] => some d
  | ch :: rest =>
    if isDigit ch then
      let (width, rest) := atoi 0 d.format
      some { d with width := width, format := rest }
    else if ch = 42 then do
      let (w, va) ← vaInt d.va
      if w.toInt < 0 then
        some { d with flags := { d.flags with left := true }, width := (-w).toNat, format := rest, va := va }
      else some { d with width := w.toNat, format := rest, va := va }
    else some d

def evalPrecision (d : Directive) : Option Directive :=
  match d.format with
  | [] => some d
  | ch :: rest =>
    if ch = 46 then
      let d := { d with flags := { d.flags with precision := true }, format := rest }
      match rest with
      | [] => some d
      | ch :: rest' =>
        if isDigit ch then
          let (precision, rest) := atoi 0 rest
          some { d with precision := precision, format := rest }
        else if ch = 42 then do
          let (prec, va) ← vaInt d.va
          some { d with precision := if 0 < prec.toInt then prec.toNat else 0, format := rest', va := va }
        else some d
    else some d

/-- `ptrdiff_t`, `intmax_t` and `size_t` are as wide as `long`. -/
def evalLength (d : Directive) : Directive :=
  match d.format with
  | [] => d
  | ch :: rest =>
    if ch = 108 then
      match rest with
      | 108 :: rest => { d with flags := { d.flags with long := true, longLong := true }, format := rest }
      | _ => { d with flags := { d.flags with long := true }, format := rest }
    else if ch = 104 then
      match rest with
      | 104 :: rest => { d with flags := { d.flags with short := true, char := true }, format := rest }
      | _ => { d with flags := { d.flags with short := true }, format := rest }
    else if ch = 116 ∨ ch = 106 ∨ ch = 122 then { d with flags := { d.flags with long := true }, format := rest }
    else d

def evalDirective (format : Str) (va : List Arg) : Option Directive := do
  let (flags, format) := evalFlags .none format
  let d ← evalWidth ⟨flags, 0, 0, format, va⟩
  let d ← evalPrecision d
  some (evalLength d)

/-- `value > 0 ? value : 0 - value` as an unsigned number of its own width. -/
def magnitude {w : ℕ} (value : BitVec w) : ℕ := if 0 < value.toInt then value.toNat else (0 - value).toNat

def integerBase (specifier : UInt8) : ℕ :=
  if specifier = 120 ∨ specifier = 88 then 16
  else if specifier = 111 then 8
  else if specifier = 98 then 2
  else 10

def integerFlags (specifier : UInt8) (flags : Flags) : Flags :=
  let flags := if integerBase specifier = 10 then { flags with hash := false } else flags
  let flags := if specifier = 88 then { flags with uppercase := true } else flags
  let flags := if specifier ≠ 105 ∧ specifier ≠ 100 then { flags with plus := false, space := false } else flags
  if flags.precision then { flags with zeropad := false } else flags

section
variable {β : Type} (out : Out β) (maxlen : ℕ)

def convertInteger (specifier : UInt8) (d : Directive) (p : β × ℕ) : Option ((β × ℕ) × List Arg) :=
  let base := integerBase specifier
  let flags := integerFlags specifier d.flags
  if specifier = 105 ∨ specifier = 100 then
    if flags.longLong then do
      let (value, va) ← vaLong d.va
      some (ntoaLongLong out maxlen (magnitude value) (value.toInt < 0) base d.precision d.width flags p, va)
    else if flags.long then do
      let (value, va) ← vaLong d.va
      some (ntoaLong out maxlen (magnitude value) (value.toInt < 0) base d.precision d.width flags p, va)
    else do
      let (value, va) ← vaInt d.va
      let value := if flags.char then (value.setWidth 8).signExtend 32
        else if flags.short then (value.setWidth 16).signExtend 32 else value
      some (ntoaLong out maxlen (magnitude value) (value.toInt < 0) base d.precision d.width flags p, va)
  else
    if flags.longLong then do
      let (value, va) ← vaLong d.va
      some (ntoaLongLong out maxlen value.toNat false base d.precision d.width flags p, va)
    else if flags.long then do
      let (value, va) ← vaLong d.va
      some (ntoaLong out maxlen value.toNat false base d.precision d.width flags p, va)
    else do
      let (value, va) ← vaInt d.va
      let value := if flags.char then (value.setWidth 8).setWidth 32
        else if flags.short then (value.setWidth 16).setWidth 32 else value
      some (ntoaLong out maxlen value.toNat false base d.precision d.width flags p, va)

def convertChar (d : Directive) (p : β × ℕ) : Option ((β × ℕ) × List Arg) := do
  let (value, va) ← vaInt d.va
  let p := if ¬ d.flags.left then putMany out maxlen 32 (d.width - 1) p else p
  let p := put out maxlen (UInt8.ofNat value.toNat) p
  let p := if d.flags.left then putMany out maxlen 32 (d.width - 1) p else p
  some (p, va)

def convertString (d : Directive) (p : β × ℕ) : Option ((β × ℕ) × List Arg) := do
  let (value, va) ← vaString d.va
  -- a precision of zero does not bound the length that is measured
  let l := (if d.precision ≠ 0 then min value.length d.precision else value.length) % 2 ^ 32
  let l := if d.flags.precision then min l d.precision else l
  let p := if ¬ d.flags.left then putMany out maxlen 32 (d.width - l) p else p
  let p := putAll out maxlen (if d.flags.precision then value.take d.precision else value) p
  let p := if d.flags.left then putMany out maxlen 32 (d.width - l) p else p
  some (p, va)

def convertPointer (d : Directive) (p : β × ℕ) : Option ((β × ℕ) × List Arg) := do
  let (value, va) ← vaPointer d.va
  let flags := { d.flags with zeropad := true, uppercase := true }
  some (ntoaLongLong out maxlen value.toNat false 16 d.precision 16 flags p, va)

def convert (specifier : UInt8) (d : Directive) (p : β × ℕ) : Option ((β × ℕ) × List Arg) :=
  if specifier ∈ [100, 105, 117, 120, 88, 111, 98] then convertInteger out maxlen specifier d p
  else if specifier ∈ [102, 70, 101, 69, 103, 71] then none
  else if specifier = 99 then convertChar out maxlen d p
  else if specifier = 115 then convertString out maxlen d p
  else if specifier = 112 then convertPointer out maxlen d p
  else some (put out maxlen specifier p, d.va)

def vsnprintfLoop : ℕ → Str → List Arg → β × ℕ → Option (β × ℕ)
  | 0, _, _, _ => none
  | _ + 1, [], _, p => some p
  | fuel + 1, ch :: format, va, p =>
    if ch ≠ 37 then vsnprintfLoop fuel format va (put out maxlen ch p)
    else do
      let d ← evalDirective format va
      match d.format with
      -- the terminator would be put out as a character, and passed over
      | [] => none
      | specifier :: rest => do
        let (p, va) ← convert out maxlen specifier d p
        vsnprintfLoop fuel rest va p

def vsnprintf (buffer : β) (format : Str) (va : List Arg) : Option (β × ℤ) := do
  let (buffer, idx) ← vsnprintfLoop out maxlen (format.length + 1) format va (buffer, 0)
  let buffer := out 0 buffer (if idx < maxlen then idx else (maxlen + 2 ^ 64 - 1) % 2 ^ 64) maxlen
  some (buffer, (BitVec.ofNat 32 idx).toInt)

end

/-- `snprintf_` into a buffer; a null one is put out nowhere. -/
def snprintf (buffer : Option Store) (count : ℕ) (format : Str) (va : List Arg) : Option (Option Store × ℤ) :=
  match buffer with
  | none => (vsnprintf outNull count () format va).map fun r => (none, r.2)
  | some buffer => (vsnprintf outBuffer count buffer format va).map fun r => (some r.1, r.2)

def printf (format : Str) (va : List Arg) : Option (Str × ℤ) := vsnprintf outChar (2 ^ 64 - 1) [] format va

end Thorn.Printf
