import Thorn.FatCalls
import Thorn.FatSample
import Thorn.FatWrite

set_option autoImplicit false

namespace Thorn.FatDriver
open ByteStore Paths FatTypes FatOperations FatImage LinkedChain

/-- The bytes of the partition, the cached root and the count of free blocks are the same. -/
structure Undisturbed (s t : Fs) : Prop where
  bytes : ∀ i < s.partition.length, t.data i = s.data i
  root : t.root = s.root
  blocksFree : t.blocksFree = s.blocksFree

theorem Undisturbed.refl (s : Fs) : Undisturbed s s := ⟨fun _ _ => rfl, rfl, rfl⟩

section Created
variable {s t : Fs} {path : Str} {length : ℕ} {type : FileType} {r : NewFileResult}

end Created

section Ends
variable {s t : Fs} {status : ℤ}

end Ends

section Sample
open FatSample

end Sample

end Thorn.FatDriver
