import Thorn.MountedDisks
import Thorn.PrintfDirectives
import Thorn.SHA1Runs
import Thorn.SplitPieces

set_option autoImplicit false

/-!
# The desk of a user

What the shell is for: a directory one is in, a store of names, and what is still
to come over the serial port. Paths lead from the directory, the commands change
the desk and answer, and lines are typed one after the other.
-/
namespace Thorn.Shell
open ByteStore Paths FatTypes FatDriver FatOperations FatImage Printf Keyboard

structure Desk where
  cwd : List Str
  store : NamedStore.Store (List Str)
  incoming : List UInt8

def spelled (names : List Str) : Str := slash :: [slash].intercalate names

namespace Desk

def target (d : Desk) (piece : Str) : List Str :=
  (piece.splitOn slash).foldl push (if piece.head? = some slash then [] else d.cwd)

def path (d : Desk) (piece : Str) : Str := spelled (d.target piece)

def node (d : Desk) (piece : Str) : Option NamedStore.Node := d.store (d.target piece)

def put (d : Desk) (piece : Str) (node : Option NamedStore.Node) : Desk :=
  { d with store := Function.update d.store (d.target piece) node }

end Desk

def words (line : Str) : List Str := (line.splitOn space).filter (· ≠ [])

def hexBytes (bytes : List UInt8) : Str :=
  bytes.flatMap fun b => [digitChar true (b.toNat / 16), digitChar true (b.toNat % 16)]

/-- What is sent over the serial port for these bytes: the caret stands for itself when it is sent twice, and `^q`
ends them. -/
def escaped : List UInt8 → List UInt8
  | [] => [94, 113]
  | b :: rest => if b = 94 then 94 :: 94 :: escaped rest else b :: escaped rest

def fileNames : List Str :=
  ["hello", "ls", "mkdir", "read", "write", "create", "rm", "rmdir", "cd", "readserial", "size", "sha1"].map ascii

section Answers
variable (around : Surroundings FlatDevice)

def failed (message : Str) (status : ℤ) : Str :=
  message ++ ascii ": " ++ around.strerror (-status) ++ ascii " (" ++ signedDecimal status ++ ascii ")\n"

inductive Misused : Str → ℕ → Str → Prop
  | one {name synopsis : Str} {n : ℕ} (hname : (name, synopsis) ∈ [(ascii "mkdir", ascii "mkdir <path>"),
      (ascii "read", ascii "read <path>"), (ascii "rm", ascii "rm <path>"), (ascii "rmdir", ascii "rmdir <path>"),
      (ascii "cd", ascii "cd <path>"), (ascii "size", ascii "size <file>")]) (hn : n ≠ 1) : Misused name n synopsis
  | create {n : ℕ} (hn : n ≠ 1 ∧ n ≠ 2) : Misused (ascii "create") n (ascii "create <path> [modes]")
  | sha1 {n : ℕ} (hn : n ≠ 1 ∧ n ≠ 2) : Misused (ascii "sha1") n (ascii "sha1 <path>")
  | write {n : ℕ} (hn : n < 2) : Misused (ascii "write") n (ascii "write <path> <contents...>")
  | ls {n : ℕ} (hn : 1 < n) : Misused (ascii "ls") n (ascii "ls [path]")
  | readserial {n : ℕ} (hn : 1 < n) : Misused (ascii "readserial") n (ascii "readserial [file]")

def Modes : List Str → Prop
  | [] => True
  | [modes] => parseUlong around modes 8 ≠ none
  | _ => False

/-- The driver has not the blocks for so many bytes under this path. -/
def Lacks (s : Fs) (path : Str) (length : ℕ) : Prop := ∃ k, s.lookup path = .ok k ∧ s.TooLarge (s.entry k) length

/-- What the commands do to the desk, and what they answer. -/
inductive Does (s : Fs) (d : Desk) : List Str → Str → Desk → Prop
  | greets {args : List Str} : Does s d (ascii "hello" :: args) (ascii "How are you?\n") d
  | misused {name synopsis : Str} {args : List Str} (h : Misused name args.length synopsis) :
      Does s d (name :: args) (ascii "Usage:\n- " ++ synopsis ++ ascii "\n") d
  | makes {p : Str} (h : NewName d.store (d.path p)) : Does s d [ascii "mkdir", p] [] (d.put p (some .directory))
  | creates {p : Str} {modes : List Str} (hmodes : Modes around modes) (h : NewName d.store (d.path p)) :
      Does s d (ascii "create" :: p :: modes) (ascii "Created " ++ d.path p ++ ascii ".\n") (d.put p (some (.file [])))
  | exists {p : Str} {modes : List Str} (hmodes : Modes around modes) {node : NamedStore.Node}
      (h : d.node p = some node) :
      Does s d (ascii "create" :: p :: modes) (failed around (ascii "Couldn't create file") (-EEXIST)) d
  | unparsed {p modes : Str} (h : parseUlong around modes 8 = none) :
      Does s d [ascii "create", p, modes] (ascii "Couldn't parse modes.\n") d
  | writes {p : Str} {contents : List Str} (hne : contents ≠ []) {old : List UInt8} (h : d.node p = some (.file old))
      (hroom : ¬ Lacks s (d.path p) ([space].intercalate contents).length) :
      Does s d (ascii "write" :: p :: contents)
        (ascii "Wrote " ++ decimal ([space].intercalate contents).length ++ ascii " bytes to " ++
          d.path p ++ ascii ".\n")
        (d.put p (some (.file ([space].intercalate contents))))
  | overflows {p : Str} {contents : List Str} (hne : contents ≠ []) {old : List UInt8}
      (h : d.node p = some (.file old)) (hlacks : Lacks s (d.path p) ([space].intercalate contents).length) :
      Does s d (ascii "write" :: p :: contents) (failed around (ascii "Couldn't truncate file") (-ENOSPC)) d
  | misses {p : Str} {contents : List Str} (hne : contents ≠ []) {status : ℤ}
      (hstatus : Missing d.store (d.target p) status) :
      Does s d (ascii "write" :: p :: contents) (failed around (ascii "Couldn't truncate file") status) d
  | reads {p : Str} {content : List UInt8} (h : d.node p = some (.file content)) (hne : content ≠ []) :
      Does s d [ascii "read", p] (d.path p ++ ascii ": [" ++ content ++ ascii "]\n") d
  | hashes {p : Str} {content : List UInt8} (h : d.node p = some (.file content)) (hne : content ≠ []) :
      Does s d [ascii "sha1", p] (ascii "Result: " ++ hexBytes (SHA1.sha1 content) ++ ascii "\n") d
  | empty {name p : Str} (hname : name = ascii "read" ∨ name = ascii "sha1") (h : d.node p = some (.file [])) :
      Does s d [name, p] (ascii "File is empty.\n") d
  | unread {name p : Str} {status : ℤ} (hname : name = ascii "read" ∨ name = ascii "sha1")
      (hstatus : Missing d.store (d.target p) status) :
      Does s d [name, p] (failed around (ascii "Couldn't read filesize") status) d
  | hashesText {p text : Str} :
      Does s d [ascii "sha1", p, text] (ascii "Result: " ++ hexBytes (SHA1.sha1 text) ++ ascii "\n") d
  | removes {p : Str} {content : List UInt8} (h : d.node p = some (.file content)) :
      Does s d [ascii "rm", p] (ascii "Removed " ++ d.path p ++ ascii ".\n") (d.put p none)
  | keeps {p : Str} (h : d.node p = some .directory) :
      Does s d [ascii "rm", p] (failed around (ascii "Couldn't remove file") (-EISDIR)) d
  | unremoved {p : Str} {status : ℤ} (hstatus : Missing d.store (d.target p) status) :
      Does s d [ascii "rm", p] (failed around (ascii "Couldn't remove file") status) d
  | moves {p : Str} (h : d.node p = some .directory) : Does s d [ascii "cd", p] [] { d with cwd := d.target p }
  | stays {p : Str} {content : List UInt8} (h : d.node p = some (.file content)) :
      Does s d [ascii "cd", p] (ascii "Can't change directory: path is a file\n") d
  | strays {p : Str} {status : ℤ} (hstatus : Missing d.store (d.target p) status) :
      Does s d [ascii "cd", p] (failed around (ascii "Can't change directory") status) d
  | sizes {p : Str} {content : List UInt8} (h : d.node p = some (.file content)) :
      Does s d [ascii "size", p] (ascii "Filesize of " ++ d.path p ++ ascii ": " ++
        decimal content.length ++ ascii "\n") d
  | unsized {p : Str} {status : ℤ} (hstatus : Missing d.store (d.target p) status) :
      Does s d [ascii "size", p] (failed around (ascii "Couldn't check filesize") status) d
  | listsHere {items : List Str} (hitems : Mounted.Lists d.store d.cwd items) :
      Does s d [ascii "ls"] (items.flatMap (· ++ ascii "\n")) d
  | lists {p : Str} {items : List Str} (h : d.node p = some .directory)
      (hitems : Mounted.Lists d.store (d.target p) items) :
      Does s d [ascii "ls", p] (items.flatMap (· ++ ascii "\n")) d
  | unlisted {p : Str} {status : ℤ} (hstatus : (∃ content, d.node p = some (.file content)) ∧ status = -ENOTDIR ∨
        Missing d.store (d.target p) status) :
      Does s d [ascii "ls", p] (failed around (ascii "readdir(" ++ d.path p ++ ascii ") failed") status) d
  | receives {bytes rest : List UInt8} (hbytes : d.incoming = escaped bytes ++ rest) :
      Does s d [ascii "readserial"] (ascii "Serial input: [" ++ bytes ++ ascii "]\n") { d with incoming := rest }
  | stores {p : Str} {old bytes rest : List UInt8} (h : d.node p = some (.file old))
      (hbytes : d.incoming = escaped bytes ++ rest) (hroom : ¬ Lacks s (d.path p) bytes.length) :
      Does s d [ascii "readserial", p] (ascii "Wrote " ++ decimal bytes.length ++
        ascii (if bytes.length = 1 then " byte to " else " bytes to ") ++ d.path p ++ ascii ".\n")
        { d.put p (some (.file bytes)) with incoming := rest }
  | discards {p : Str} {old bytes rest : List UInt8} (h : d.node p = some (.file old))
      (hbytes : d.incoming = escaped bytes ++ rest) (hlacks : Lacks s (d.path p) bytes.length) :
      Does s d [ascii "readserial", p] (failed around (ascii "Couldn't truncate file") (-ENOSPC))
        { d with incoming := rest }
  | unstored {p : Str} (h : d.node p = some .directory) :
      Does s d [ascii "readserial", p] (d.path p ++ ascii " is a directory.\n") d
  | unchecked {p : Str} {status : ℤ} (hstatus : Missing d.store (d.target p) status) :
      Does s d [ascii "readserial", p] (failed around (ascii "Couldn't check for file") status) d
  | unknown {name : Str} {args : List Str} (hname : name ∉ hardwareNames) (hfiles : name ∉ fileNames) :
      Does s d (name :: args) (ascii "Unknown command.\n") d

end Answers

end Thorn.Shell
