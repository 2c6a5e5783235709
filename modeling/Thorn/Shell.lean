import Thorn.CanonicalPaths
import Thorn.FatOperations
import Thorn.Keyboard
import Thorn.Printf
import Thorn.SHA1

set_option autoImplicit false

/-!
# The shell

`handleInput` of `Test.cpp` and the commands that work on files. A command is
`none` where the driver is, where it waits for the serial port for ever, and
where it reads memory that nobody has written. What `printf` sends to the serial
port besides is left out.
-/
namespace Thorn.FatOperations
open ByteStore Paths FatTypes FatDriver

variable {σ : Type} [StorageDevice σ]

def getsize (path : Str) : Action σ (ℤ × ℕ) := do
  let found ← find path false
  if found.status < 0 then pure (found.status, 0) else pure (0, found.entry.len)

def isdir (path : Str) : Action σ ℤ := do
  let found ← find path false
  if found.status < 0 then pure found.status else pure (if found.entry.isDirectory then 1 else 0)

def isfile (path : Str) : Action σ ℤ := do
  let found ← find path false
  if found.status < 0 then pure found.status else pure (if found.entry.isFile then 1 else 0)

end Thorn.FatOperations

namespace Thorn.Shell
open ByteStore Paths FatTypes FatDriver Printf Keyboard

def space : UInt8 := 32

/-- What `c_str()` is to those that read it up to its terminator. -/
def cStr (str : Str) : Str := str.takeWhile (· ≠ 0)

/-- The fields of `InputContext` that the commands on files use, the bytes that are still to come over the
serial port, and what the terminal has been given. -/
structure InputContext (σ : Type) where
  driver : Option (Driver σ)
  path : Str
  serial : List UInt8
  terminal : Str

abbrev Command (σ α : Type) := StateT (InputContext σ) Option α

/-- What the commands call that is not part of the model: two functions of the C library, the memory in which an
object for hashes is built, and the commands on hardware. -/
structure Surroundings (σ : Type) where
  strerror : ℤ → Str
  /-- The number at the start of a string, and how many characters it takes. -/
  strtoul : Str → ℕ → BitVec 64 × ℕ
  object : SHA1.CSHA1
  hardware : List Str → Command σ Unit

section Output
variable {σ : Type}

def tprintf (format : String) (va : List Arg) : Command σ Unit := fun context =>
  (Printf.printf (ascii format) va).map fun r => ((), { context with terminal := context.terminal ++ r.1 })

def printEach : List UInt8 → Command σ Unit
  | [] => pure ()
  | c :: rest => do
    tprintf "%c" [.int (c.toBitVec.signExtend 32)]
    printEach rest

end Output

section Commands
variable {σ : Type} [StorageDevice σ] (around : Surroundings σ)

/-- A call of the driver; without one a null pointer is followed. -/
def drive {α : Type} (call : Action σ α) : Command σ α := fun context =>
  context.driver.bind fun d => (call d).map fun r => (r.1, { context with driver := some r.2 })

def ready (work : Command σ Unit) : Command σ Unit := do
  let context ← get
  if context.driver.isNone then tprintf "Driver isn't ready.\n" [] else do
    let verified ← drive FatOperations.verify
    if ¬ verified then tprintf "Driver couldn't verify filesystem validity.\n" [] else work

def simplified (pieces : List Str) : Command σ Str := do
  let context ← get
  pure (simplifyPathIn context.path (pieces.getD 1 []))

def statusArgs (status : ℤ) : List Arg := [.string (around.strerror (-status)), .int (BitVec.ofInt 32 status)]

def mkdir (pieces : List Str) : Command σ Unit :=
  if pieces.length ≠ 2 then tprintf "Usage:\n- mkdir <path>\n" [] else ready do
    let path ← simplified pieces
    let status ← drive (FatOperations.mkdir (cStr path))
    if status ≠ 0 then tprintf "mkdir failed: %s (%d)\n" (statusArgs around status) else pure ()

def parseUlong (str : Str) (base : ℕ) : Option (BitVec 64) :=
  let (parsed, taken) := around.strtoul (cStr str) base
  if taken = str.length then some parsed else none

def create (pieces : List Str) : Command σ Unit :=
  if pieces.length ≠ 2 ∧ pieces.length ≠ 3 then tprintf "Usage:\n- create <path> [modes]\n" [] else ready do
    let path ← simplified pieces
    match if pieces.length = 3 then parseUlong around (pieces.getD 2 []) 8 else some 0o644#64 with
    | none => tprintf "Couldn't parse modes.\n" []
    | some modes => do
      let status ← drive (FatOperations.create (cStr path) (modes.setWidth 32))
      if status ≠ 0 then tprintf "Couldn't create file: %s (%d)\n" (statusArgs around status)
      else tprintf "Created %s.\n" [.string (cStr path)]

def joined (pieces : List Str) : Str :=
  (pieces.drop 3).foldl (fun joined piece => joined ++ (space :: piece)) (pieces.getD 2 [])

def write (pieces : List Str) : Command σ Unit :=
  if pieces.length < 3 then tprintf "Usage:\n- write <path> <contents...>\n" [] else ready do
    let path ← simplified pieces
    let contents := joined pieces
    let status ← drive (FatOperations.truncate (cStr path) contents.length)
    if status < 0 then tprintf "Couldn't truncate file: %s (%d)\n" (statusArgs around status) else do
      let status ← drive (FatOperations.write (cStr path) contents 0)
      if status < 0 then tprintf "Couldn't write to file: %s (%d)\n" (statusArgs around status)
      else tprintf "Wrote %lu bytes to %s.\n" [.long (BitVec.ofNat 64 contents.length), .string (cStr path)]

/-- What `read` and `sha1` begin with: the whole of a file in a fresh buffer, to be shown. -/
def withContents (pieces : List Str) (use : Str → List UInt8 → Command σ Unit) : Command σ Unit := ready do
  let path ← simplified pieces
  let (status, size) ← drive (FatOperations.getsize (cStr path))
  if status ≠ 0 then tprintf "Couldn't read filesize: %s (%d)\n" (statusArgs around status)
  else if size = 0 then tprintf "File is empty.\n" []
  else do
    let (status, buffer) ← drive (FatOperations.read (cStr path) size 0)
    if status < 0 then tprintf "Couldn't read file: %s (%d)\n" (statusArgs around status)
    -- behind what `read` has stored the buffer is not initialised
    else if buffer.length < size then failure
    else use path buffer

def read (pieces : List Str) : Command σ Unit :=
  if pieces.length ≠ 2 then tprintf "Usage:\n- read <path>\n" [] else
    withContents around pieces fun path buffer => do
      tprintf "%s: [" [.string (cStr path)]
      printEach buffer
      tprintf "]\n" []

def remove (pieces : List Str) : Command σ Unit :=
  if pieces.length ≠ 2 then tprintf "Usage:\n- rm <path>\n" [] else ready do
    let path ← simplified pieces
    let status ← drive (FatOperations.unlink (cStr path))
    if status ≠ 0 then tprintf "Couldn't remove file: %s (%d)\n" (statusArgs around status)
    else tprintf "Removed %s.\n" [.string (cStr path)]

def rmdir (pieces : List Str) : Command σ Unit :=
  if pieces.length ≠ 2 then tprintf "Usage:\n- rmdir <path>\n" [] else ready do
    let path ← simplified pieces
    let status ← drive (FatOperations.rmdir (cStr path))
    if status ≠ 0 then tprintf "Couldn't remove directory: %s (%d)\n" (statusArgs around status)
    else tprintf "Removed %s.\n" [.string (cStr path)]

def cd (pieces : List Str) : Command σ Unit :=
  if pieces.length ≠ 2 then tprintf "Usage:\n- cd <path>\n" [] else ready do
    let path ← simplified pieces
    let status ← drive (FatOperations.isdir (cStr path))
    if status = 0 then tprintf "Can't change directory: path is a file\n" []
    else if status < 0 then tprintf "Can't change directory: %s (%d)\n" (statusArgs around status)
    else modify fun context => { context with path := path }

def printSize (pieces : List Str) : Command σ Unit :=
  if pieces.length ≠ 2 then tprintf "Usage:\n- size <file>\n" [] else ready do
    let path ← simplified pieces
    let (status, size) ← drive (FatOperations.getsize (cStr path))
    if status ≠ 0 then tprintf "Couldn't check filesize: %s (%d)\n" (statusArgs around status)
    else tprintf "Filesize of %s: %lu\n" [.string (cStr path), .long (BitVec.ofNat 64 size)]

def listItems : List (Str × ℕ) → Command σ Unit
  | [] => pure ()
  | item :: rest => do
    tprintf "%s\n" [.string (cStr item.1)]
    listItems rest

def ls (pieces : List Str) : Command σ Unit := ready do
  if pieces.length ≠ 1 ∧ pieces.length ≠ 2 then tprintf "Usage:\n- ls [path]\n" [] else do
    let context ← get
    let path := if pieces.length = 2 then simplifyPathIn context.path (pieces.getD 1 []) else context.path
    let (status, items) ← drive (FatOperations.readdir (cStr path))
    listItems items
    if status ≠ 0 then tprintf "readdir(%s) failed: %s (%d)\n" (.string (cStr path) :: statusArgs around status)
    else pure ()

/-- What `snprintf` leaves of a digest's byte in the temporary of `ReportHash`. -/
def reportByte (b : UInt8) : Option Str := do
  let (buffer, _) ← snprintf (some fun _ => 0) 15 (ascii "%02X") [.int (BitVec.ofNat 32 b.toNat)]
  let buffer ← buffer
  some (cStr (slice buffer 0 15))

/-- `ReportHashStl` with `REPORT_HEX_SHORT`. -/
def reportHash : List UInt8 → Option Str
  | [] => some []
  | b :: rest => do
    let first ← reportByte b
    let others ← reportHash rest
    some (first ++ others)

def report (pbData : List UInt8) : Option Str := do
  let h ← around.object.Reset.Update pbData (BitVec.ofNat 32 pbData.length)
  let h ← h.Final
  reportHash h.digest

def sha1 (pieces : List Str) : Command σ Unit :=
  if pieces.length = 3 then do
    let hash ← StateT.lift (report around (pieces.getD 2 []))
    tprintf "Result: %s\n" [.string hash]
  else if pieces.length ≠ 2 then tprintf "Usage:\n- sha1 <path>\n" []
  else withContents around pieces fun _ buffer => do
    let hash ← StateT.lift (report around buffer)
    tprintf "Result: %s\n" [.string hash]

/-- The loop of `readSerial`, and the bytes that it leaves; `none` while it waits. -/
def receive (input : Str) : List UInt8 → Option (Str × List UInt8)
  | [] => none
  | ch :: rest =>
    if ch = 94 then
      match rest with
      | [] => none
      | next :: rest =>
        if next = 94 then receive (input ++ [ch]) rest
        else if next = 113 then some (input, rest)
        else receive input rest
    else receive (input ++ [ch]) rest

def received : Command σ Str := fun context =>
  (receive [] context.serial).map fun r => (r.1, { context with serial := r.2 })

def readSerial (pieces : List Str) : Command σ Unit :=
  if 2 < pieces.length then tprintf "Usage:\n- readserial [file]\n" []
  else if pieces.length = 2 then ready do
    let path ← simplified pieces
    let status ← drive (FatOperations.isfile (cStr path))
    if status < 0 then tprintf "Couldn't check for file: %s (%d)\n" (statusArgs around status)
    else if status = 0 then tprintf "%s is a directory.\n" [.string (cStr path)]
    else do
      let input ← received
      let status ← drive (FatOperations.truncate (cStr path) input.length)
      if status < 0 then tprintf "Couldn't truncate file: %s (%d)\n" (statusArgs around status) else do
        let status ← drive (FatOperations.write (cStr path) input 0)
        if status < 0 then
          tprintf "Couldn't write to %s: %s (%d)\n" (.string (cStr path) :: statusArgs around status)
        else tprintf "Wrote %lu byte%s to %s.\n" [.long (BitVec.ofNat 64 input.length),
          .string (if input.length = 1 then [] else ascii "s"), .string (cStr path)]
  else do
    let input ← received
    tprintf "Serial input: [" []
    printEach input
    tprintf "]\n" []

/-- The commands on hardware, on the serial port and on the terminal itself, and the scripts that start them. -/
def hardwareNames : List Str :=
  ["list", "init", "select", "sel", "make", "find", "serial", "set", "records", "mode", "parseelf", "clear", "loader",
    "loop", "0", "0i", "printfat"].map ascii

def dispatch (pieces : List Str) : Command σ Unit :=
  let name := pieces.getD 0 []
  if name = ascii "hello" then tprintf "How are you?\n" []
  else if name = ascii "ls" then ls around pieces
  else if name = ascii "mkdir" then mkdir around pieces
  else if name = ascii "read" then read around pieces
  else if name = ascii "write" then write around pieces
  else if name = ascii "create" then create around pieces
  else if name = ascii "rm" then remove around pieces
  else if name = ascii "rmdir" then rmdir around pieces
  else if name = ascii "cd" then cd around pieces
  else if name = ascii "readserial" then readSerial around pieces
  else if name = ascii "size" then printSize around pieces
  else if name = ascii "sha1" then sha1 around pieces
  else if name ∈ hardwareNames then around.hardware pieces
  else tprintf "Unknown command.\n" []

def handleInput (str : Str) : Command σ Unit :=
  match str.findIdx? (· ≠ space) with
  | none => pure ()
  | some first_non_space => do
    let str := (str.drop first_non_space).rdropWhile (· = space)
    tprintf "\n" []
    dispatch around (split str [space] true)

def enter (line : Str) : Command σ Unit := do
  handleInput around line
  tprintf "> " []

def session : List Str → Command σ Unit
  | [] => pure ()
  | line :: lines => do
    enter around line
    session lines

end Commands

end Thorn.Shell
