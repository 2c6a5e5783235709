import Thorn.Library.Bytes

set_option autoImplicit false

/-!
# The digest of the shell

`CSHA1` for a little-endian machine with wiping, translated from `SHA1.cpp`. The
workspace is filled anew by each `Transform`, so it is no part of the object.
-/
namespace Thorn.SHA1
open ByteStore

abbrev UINT_32 := BitVec 32

def ROL32 (val : UINT_32) (nBits : ℕ) : UINT_32 := val <<< nBits ||| val >>> (32 - nBits)

structure State where
  s0 : UINT_32
  s1 : UINT_32
  s2 : UINT_32
  s3 : UINT_32
  s4 : UINT_32
deriving DecidableEq

inductive Var
  | a
  | b
  | c
  | d
  | e
deriving DecidableEq

structure Work where
  vars : Var → UINT_32
  l : ℕ → UINT_32

def SHABLK0 (i : ℕ) (l : ℕ → UINT_32) : UINT_32 :=
  (ROL32 (l i) 24 &&& 0xFF00FF00#32) ||| (ROL32 (l i) 8 &&& 0x00FF00FF#32)

def SHABLK (i : ℕ) (l : ℕ → UINT_32) : UINT_32 :=
  ROL32 (l ((i + 13) &&& 15) ^^^ l ((i + 8) &&& 15) ^^^ l ((i + 2) &&& 15) ^^^ l (i &&& 15)) 1

/-- What the rounds have in common: `word` is stored at its place and added in. -/
def Work.round (s : Work) (place : ℕ) (word mixed constant : UINT_32) (v w z : Var) : Work :=
  let vars := Function.update s.vars z (s.vars z + (mixed + word + constant + ROL32 (s.vars v) 5))
  ⟨Function.update vars w (ROL32 (vars w) 30), Function.update s.l place word⟩

def S_R0 (v w x y z : Var) (i : ℕ) (s : Work) : Work :=
  s.round i (SHABLK0 i s.l) ((s.vars w &&& (s.vars x ^^^ s.vars y)) ^^^ s.vars y) 0x5A827999#32 v w z

def S_R1 (v w x y z : Var) (i : ℕ) (s : Work) : Work :=
  s.round (i &&& 15) (SHABLK i s.l) ((s.vars w &&& (s.vars x ^^^ s.vars y)) ^^^ s.vars y) 0x5A827999#32 v w z

def S_R2 (v w x y z : Var) (i : ℕ) (s : Work) : Work :=
  s.round (i &&& 15) (SHABLK i s.l) (s.vars w ^^^ s.vars x ^^^ s.vars y) 0x6ED9EBA1#32 v w z

def S_R3 (v w x y z : Var) (i : ℕ) (s : Work) : Work :=
  s.round (i &&& 15) (SHABLK i s.l) (((s.vars w ||| s.vars x) &&& s.vars y) ||| (s.vars w &&& s.vars x))
    0x8F1BBCDC#32 v w z

def S_R4 (v w x y z : Var) (i : ℕ) (s : Work) : Work :=
  s.round (i &&& 15) (SHABLK i s.l) (s.vars w ^^^ s.vars x ^^^ s.vars y) 0xCA62C1D6#32 v w z

section
open Var

def rounds : List (Work → Work) := [
  S_R0 a b c d e 0, S_R0 e a b c d 1, S_R0 d e a b c 2, S_R0 c d e a b 3,
  S_R0 b c d e a 4, S_R0 a b c d e 5, S_R0 e a b c d 6, S_R0 d e a b c 7,
  S_R0 c d e a b 8, S_R0 b c d e a 9, S_R0 a b c d e 10, S_R0 e a b c d 11,
  S_R0 d e a b c 12, S_R0 c d e a b 13, S_R0 b c d e a 14, S_R0 a b c d e 15,
  S_R1 e a b c d 16, S_R1 d e a b c 17, S_R1 c d e a b 18, S_R1 b c d e a 19,
  S_R2 a b c d e 20, S_R2 e a b c d 21, S_R2 d e a b c 22, S_R2 c d e a b 23,
  S_R2 b c d e a 24, S_R2 a b c d e 25, S_R2 e a b c d 26, S_R2 d e a b c 27,
  S_R2 c d e a b 28, S_R2 b c d e a 29, S_R2 a b c d e 30, S_R2 e a b c d 31,
  S_R2 d e a b c 32, S_R2 c d e a b 33, S_R2 b c d e a 34, S_R2 a b c d e 35,
  S_R2 e a b c d 36, S_R2 d e a b c 37, S_R2 c d e a b 38, S_R2 b c d e a 39,
  S_R3 a b c d e 40, S_R3 e a b c d 41, S_R3 d e a b c 42, S_R3 c d e a b 43,
  S_R3 b c d e a 44, S_R3 a b c d e 45, S_R3 e a b c d 46, S_R3 d e a b c 47,
  S_R3 c d e a b 48, S_R3 b c d e a 49, S_R3 a b c d e 50, S_R3 e a b c d 51,
  S_R3 d e a b c 52, S_R3 c d e a b 53, S_R3 b c d e a 54, S_R3 a b c d e 55,
  S_R3 e a b c d 56, S_R3 d e a b c 57, S_R3 c d e a b 58, S_R3 b c d e a 59,
  S_R4 a b c d e 60, S_R4 e a b c d 61, S_R4 d e a b c 62, S_R4 c d e a b 63,
  S_R4 b c d e a 64, S_R4 a b c d e 65, S_R4 e a b c d 66, S_R4 d e a b c 67,
  S_R4 c d e a b 68, S_R4 b c d e a 69, S_R4 a b c d e 70, S_R4 e a b c d 71,
  S_R4 d e a b c 72, S_R4 c d e a b 73, S_R4 b c d e a 74, S_R4 a b c d e 75,
  S_R4 e a b c d 76, S_R4 d e a b c 77, S_R4 c d e a b 78, S_R4 b c d e a 79]

end

structure Block where
  bytes : List UInt8
  length : bytes.length = 64

def Block.zero : Block := ⟨List.replicate 64 0, List.length_replicate⟩

/-- `memcpy(&m_buffer[j], ...)`; `none` when it leaves the array. -/
def Block.memcpy (block : Block) (j : ℕ) (bytes : List UInt8) : Option Block :=
  if h : j + bytes.length ≤ 64 then
    some ⟨overlay block.bytes j bytes, (overlay_length _ _ _ (by rw [block.length]; exact h)).trans block.length⟩
  else none

def blockWord (buffer : List UInt8) (i : ℕ) : UINT_32 :=
  (buffer.getD (4 * i + 3) 0).toBitVec ++ (buffer.getD (4 * i + 2) 0).toBitVec ++
    (buffer.getD (4 * i + 1) 0).toBitVec ++ (buffer.getD (4 * i) 0).toBitVec

def State.vars (state : State) : Var → UINT_32
  | .a => state.s0
  | .b => state.s1
  | .c => state.s2
  | .d => state.s3
  | .e => state.s4

def Transform (state : State) (buffer : List UInt8) : State :=
  let work := rounds.foldl (fun s r => r s) ⟨state.vars, blockWord buffer⟩
  ⟨state.s0 + work.vars .a, state.s1 + work.vars .b, state.s2 + work.vars .c, state.s3 + work.vars .d,
    state.s4 + work.vars .e⟩

structure CSHA1 where
  state : State
  count0 : UINT_32
  count1 : UINT_32
  buffer : Block
  digest : List UInt8

def CSHA1.Reset (h : CSHA1) : CSHA1 :=
  { h with
    state := ⟨0x67452301#32, 0xEFCDAB89#32, 0x98BADCFE#32, 0x10325476#32, 0xC3D2E1F0#32⟩, count0 := 0, count1 := 0 }

/-- `n` bytes from `&pbData[i]`; `none` when they are not all there. -/
def piece (pbData : List UInt8) (i n : ℕ) : Option (List UInt8) :=
  if i + n ≤ pbData.length then some ((pbData.drop i).take n) else none

/-- Within 2²⁶ turns the loop ends or comes back to an `i` that it has had. -/
def transformLoop (pbData : List UInt8) (uLen : UINT_32) : ℕ → State → UINT_32 → Option (State × UINT_32)
  | 0, _, _ => none
  | fuel + 1, state, i =>
    if i + 63 < uLen then do
      let block ← piece pbData i.toNat 64
      transformLoop pbData uLen fuel (Transform state block) (i + 64)
    else some (state, i)

/-- `none` when the call leaves an array or does not end. -/
def CSHA1.Update (h : CSHA1) (pbData : List UInt8) (uLen : UINT_32) : Option CSHA1 := do
  let j := (h.count0 >>> 3) &&& 0x3F#32
  let count0 := h.count0 + (uLen <<< 3)
  let overflowed := if count0 < uLen <<< 3 then h.count1 + 1 else h.count1
  let count1 := overflowed + (uLen >>> 29)
  let (state, buffer, i, j) ← if 63 < j + uLen then do
      let i := 64 - j
      let bytes ← piece pbData 0 i.toNat
      let buffer ← h.buffer.memcpy j.toNat bytes
      let (state, i) ← transformLoop pbData uLen (2 ^ 26) (Transform h.state buffer.bytes) i
      some (state, buffer, i, 0#32)
    else some (h.state, h.buffer, 0#32, j)
  if uLen - i ≠ 0 then do
    let bytes ← piece pbData i.toNat (uLen - i).toNat
    let buffer ← buffer.memcpy j.toNat bytes
    some ⟨state, count0, count1, buffer, h.digest⟩
  else some ⟨state, count0, count1, buffer, h.digest⟩

def wordByte (word : UINT_32) (i : ℕ) : UInt8 := ⟨((word >>> ((3 - (i &&& 3)) * 8)) &&& 0xFF#32).setWidth 8⟩

def State.words (s : State) : List UINT_32 := [s.s0, s.s1, s.s2, s.s3, s.s4]

def State.bytes (s : State) : List UInt8 := (List.range 20).map fun i => wordByte (s.words.getD (i >>> 2) 0) i

def CSHA1.finalCount (h : CSHA1) : List UInt8 :=
  (List.range 8).map fun i => wordByte (if 4 ≤ i then h.count0 else h.count1) i

/-- The loop that fills up with zeros; it comes by its mark within 64 turns. -/
def padLoop : ℕ → CSHA1 → Option CSHA1
  | 0, _ => none
  | fuel + 1, h =>
    if h.count0 &&& 504#32 ≠ 448#32 then do
      let h ← h.Update [0] 1
      padLoop fuel h
    else some h

def CSHA1.Final (h : CSHA1) : Option CSHA1 := do
  let pbFinalCount := h.finalCount
  let h ← h.Update [0x80] 1
  let h ← padLoop 65 h
  let h ← h.Update pbFinalCount 8
  let wiped : State := ⟨0, 0, 0, 0, 0⟩
  some ⟨Transform wiped Block.zero.bytes, 0, 0, .zero, h.state.bytes⟩

end Thorn.SHA1
