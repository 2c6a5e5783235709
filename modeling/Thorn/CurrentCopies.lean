import Thorn.OtherFiles

set_option autoImplicit false

/-!
# Copies that are up to date

`mkdir` stores the parent's entry as `..` once. While every `.` and `..` says
what the entry of a directory says, every path can be walked, and each call
meets readable entries only.
-/
namespace Thorn.FatImage.Image
open Paths FatTypes LinkedChain
variable {I : Image} {d k p : ℕ}

structure Mirrors (I : Image) (k d : ℕ) : Prop where
  live : I.Live d
  listed : (I.entry d).isDirectory
  directory : (I.entry k).isDirectory
  start : (I.entry k).start = (I.entry d).start
  len : (I.entry k).len = (I.entry d).len

def Copy (I : Image) (k : ℕ) : Prop := ∃ p, I.Live p ∧ (I.entry p).isDirectory ∧
  k ∈ (I.slots p).take (I.copies p) ∧ I.free (I.entry k) = false

def Current (I : Image) : Prop := ∀ k, I.Copy k → ∃ d, I.Mirrors k d

def Known (I : Image) (k : ℕ) : Prop := I.Live k ∨ I.Copy k

namespace Mirrors

theorem chain (h : I.Mirrors k d) : I.chain k = I.chain d := by
  rw [Image.chain, Image.chain, chainOf, chainOf, h.start]

theorem count (h : I.Mirrors k d) : I.count k = I.count d := by
  rw [Image.count, Image.count, h.len]

theorem slots (h : I.Mirrors k d) : I.slots k = I.slots d := by
  rw [Image.slots, Image.slots, h.chain, h.count]

theorem findSlot (h : I.Mirrors k d) (name : Str) : I.findSlot k name = I.findSlot d name := by
  rw [Image.findSlot, Image.findSlot, h.slots]

theorem walkable (h : I.Mirrors k d) : I.Walkable k = I.Walkable d := by
  rw [Walkable, Walkable, h.len, h.directory, h.listed]

theorem readable (h : I.Mirrors k d) (hI : I.WellFormed) : I.Readable (I.entry k) := by
  have hchain : I.chainOf (I.entry k) = I.chain d := h.chain
  obtain ⟨⟨b, hb, hc⟩, hdata⟩ := hI.owns d h.live
  constructor
  · rw [hchain]
    exact ⟨⟨b, h.start.trans hb, hc⟩, hdata⟩
  · rw [hchain, h.len]
    exact hI.size d h.live

end Mirrors

namespace Current

theorem readable (h : I.Current) (hI : I.WellFormed) (hk : I.Known k) : I.Readable (I.entry k) := by
  rcases hk with hk | hk
  · exact hI.readable hk
  · obtain ⟨d, hd⟩ := h k hk
    exact hd.readable hI

theorem found (h : I.Current) {name : Str} (hp : I.Known p) (hw : I.Walkable p) (hk : I.findSlot p name = some k) :
    I.Known k := by
  have hlive : ∀ {q}, I.Live q → I.Walkable q → I.findSlot q name = some k → I.Known k := by
    intro q hq hw hk
    obtain ⟨hmem, -, hfree⟩ := findSlot_some hk
    have hd := (walkable_iff.mp hw).2
    rw [← List.take_append_drop (I.copies q) (I.slots q), List.mem_append] at hmem
    rcases hmem with hcopy | hchild
    · exact .inr ⟨q, hq, hd, hcopy, hfree⟩
    · exact .inl (.child hq ⟨hd, hchild, hfree⟩)
  rcases hp with hp | hp
  · exact hlive hp hw hk
  · obtain ⟨d, hd⟩ := h p hp
    exact hlive hd.live (hd.walkable ▸ hw) (hd.findSlot name ▸ hk)

theorem walkReadable (h : I.Current) (hI : I.WellFormed) {names : List Str} (hp : I.Known p) :
    I.WalkReadable p names := by
  induction names generalizing p with
  | nil => exact trivial
  | cons name names ih => exact fun hw => ⟨h.readable hI hp, fun k hk => ih (h.found hp hw hk)⟩

theorem resolve (h : I.Current) {names : List Str} (hp : I.Known p) (hr : I.resolve p names = .ok k) : I.Known k := by
  induction names generalizing p with
  | nil =>
    cases hr
    exact hp
  | cons name names ih =>
    by_cases hw : I.Walkable p
    · cases hk' : I.findSlot p name with
      | none => simp [Image.resolve, hw, hk'] at hr
      | some k' =>
        have hknown := h.found hp hw hk'
        simp only [Image.resolve, hw, hk', ite_true] at hr
        split_ifs at hr with hn hf
        · cases hr
          exact hknown
        · exact ih hknown hr
    · simp [Image.resolve, hw] at hr

theorem walkDirs (h : I.Current) {names : List Str} (hp : I.Known p) (hr : I.walkDirs p names = .ok k) : I.Known k := by
  induction names generalizing p with
  | nil =>
    cases hr
    exact hp
  | cons name names ih =>
    by_cases hw : I.Walkable p
    · cases hk' : I.findSlot p name with
      | none => simp [Image.walkDirs, hw, hk'] at hr
      | some k' =>
        simp only [Image.walkDirs, hw, hk', ite_true] at hr
        split_ifs at hr with hf
        exact ih (h.found hp hw hk') hr
    · simp [Image.walkDirs, hw] at hr

end Current

end Thorn.FatImage.Image

namespace Thorn.FatDriver
open ByteStore Paths FatTypes FatOperations FatImage LinkedChain
variable {s : Fs}

section Walks
variable {path : Str}

theorem clean_of_current (hw : WellFormed s) (hc : s.image.Current) (path : Str) : s.Clean path :=
  hc.walkReadable hw.image (.inl .root)

theorem opens_of_current (hw : WellFormed s) (hc : s.image.Current) (path : Str) (kind : DirEntry → Prop) :
    s.Opens path kind :=
  ⟨clean_of_current hw hc path, fun _ hk _ => hc.readable hw.image (hc.resolve (.inl .root) hk)⟩

theorem listed_of_current (hw : WellFormed s) (hc : s.image.Current) {p : ℕ} (hp : s.image.Known p)
    (hd : (s.entry p).isDirectory) : Listed s p := by
  rcases hp with hp | hp
  · exact listed_of_live hw hp hd
  · obtain ⟨d, hp⟩ := hc p hp
    have hl := listed_of_live hw hp.live hp.listed
    have hstart : (s.entry p).start = (s.entry d).start := hp.start
    have hlen : (s.entry p).len = (s.entry d).len := hp.len
    have hchain : s.image.chainOf (s.entry p) = s.image.chainOf (s.entry d) := hp.chain
    have hcontent : s.content (s.entry p) = s.content (s.entry d) := by
      rw [Driver.content, Driver.content, hchain, hlen]
    have hskips : s.skips p = s.skips d := by rw [Driver.skips, Driver.skips, hstart]
    refine ⟨hp.readable hw.image, hd, ?_, ?_, ?_⟩
    · rw [hlen]
      exact hl.pos
    · rw [hlen]
      exact hl.whole
    · rw [hcontent, hskips]
      exact hl.first

theorem houses_of_current (hw : WellFormed s) (hc : s.image.Current) (path : Str) : s.Houses path where
  clean := hc.walkReadable hw.image (.inl .root)
  listed _ hp hd := listed_of_current hw hc (hc.walkDirs (.inl .root) hp) hd

end Walks

/-- While the copies are up to date, every call can be made by every path. -/
theorem Call.clean_of_current (hw : WellFormed s) (hc : s.image.Current) (c : Call) : c.Clean s := by
  cases c with
  | create path => exact .inl (FatDriver.clean_of_current hw hc path)
  | utimens path | read path => exact FatDriver.clean_of_current hw hc path
  | write path | truncate path | unlink path | rmdir path | readdir path =>
    unfold Call.Clean
    exact opens_of_current hw hc path _
  | rename srcpath destpath =>
    exact ⟨FatDriver.clean_of_current hw hc srcpath,
      fun _ _ => ⟨opens_of_current hw hc destpath _, fun _ => houses_of_current hw hc destpath⟩⟩
  | mkdir path => exact trivial
  | countFree => exact trivial

section Elsewhere
variable {f : ℕ}

/-- A copy has a slot and blocks of directories, none of a file's. -/
theorem foreign_of_current (hw : WellFormed s) (hc : s.image.Current) (hf : s.image.Live f)
    (hfile : (s.entry f).isDirectory = false) {k : ℕ} (hk : s.image.Known k) (hne : k ≠ f) : s.Foreign f k := by
  rcases hk with hk | hk
  · exact foreign_of_live hw hf hfile hk hne
  · obtain ⟨d, hd⟩ := hc k hk
    obtain ⟨p, hp, hdir, hmem, -⟩ := hk
    have hblock : k / s.image.epb ∈ s.image.chain p := hw.image.slot_mem hp (List.mem_of_mem_take hmem)
    refine ⟨hne, hw.image.disjoint p f hp hf (directory_ne hfile hdir) hblock, fun b hb => ?_⟩
    rw [hd.chain]
    exact hw.image.disjoint f d hf hd.live (directory_ne hfile hd.listed).symm hb

theorem endSlot_ne_of_current (hw : WellFormed s) (hc : s.image.Current) (hf : s.image.Live f)
    (hfile : (s.entry f).isDirectory = false) {p : ℕ} (hp : s.image.Known p) (hd : (s.entry p).isDirectory)
    (hroom : ¬ s.FullDir p) : s.endSlot p ≠ f := by
  rcases hp with hp | hp
  · exact (apart_end hw hf hfile hp hd hroom).ne
  · obtain ⟨d, hp⟩ := hc p hp
    have hlen : (s.entry p).len = (s.entry d).len := hp.len
    have hend : s.endSlot p = s.endSlot d := by rw [Driver.endSlot, Driver.endSlot, hp.chain, hp.count]
    have hroom' : ¬ s.FullDir d := by
      rw [Driver.FullDir] at hroom ⊢
      rwa [← hlen]
    rw [hend]
    exact (apart_end hw hf hfile hp.live hp.listed hroom').ne

theorem Call.elsewhere_of_current (hw : WellFormed s) (hc : s.image.Current) (hf : s.image.Live f)
    (hfile : (s.entry f).isDirectory = false) {c : Call} (hother : ∀ path ∈ c.paths, s.lookup path ≠ .ok f) :
    c.Elsewhere s f where
  entries path hp k hk := foreign_of_current hw hc hf hfile (hc.resolve (.inl .root) hk)
    fun he => hother path hp (he ▸ hk)
  home path _ p ht := by
    have hknown : s.image.Known p := hc.walkDirs (.inl .root) ht.parent
    exact ⟨foreign_of_current hw hc hf hfile hknown (directory_ne hfile ht.directory),
      endSlot_ne_of_current hw hc hf hfile hknown ht.directory⟩

end Elsewhere

section Sample
open FatSample

theorem disk_copy {k : ℕ} (hk : disk.image.Copy k) : k ∈ [4, 5, 16] := by
  obtain ⟨p, hp, hdir, hmem, -⟩ := hk
  have hl : picture.Live p := (picture_catalogue.live_iff p).mpr ((disk_live p).mp hp)
  rw [disk_agree.slots picture_catalogue.wellFormed hl, disk_agree.copies] at hmem
  change (disk.entry p).isDirectory at hdir
  rw [disk_slot (disk_frame.isSlot.mp (disk_wellFormed.image.live_data hp))] at hdir
  have hm := (disk_live p).mp hp
  simp only [liveSlots, List.mem_cons, List.not_mem_nil, or_false] at hm
  rcases hm with rfl | rfl | rfl | rfl | rfl
  · have hlist : (picture.slots 4).take (picture.copies 4) = [4, 5] := by decide
    rw [hlist] at hmem
    simp only [List.mem_cons, List.not_mem_nil, or_false] at hmem ⊢
    omega
  · exact absurd hdir (by decide)
  · exact absurd hdir (by decide)
  · have hlist : (picture.slots 14).take (picture.copies 14) = [16] := by decide
    rw [hlist] at hmem
    rw [List.mem_singleton.mp hmem]
    decide
  · exact absurd hdir (by decide)

theorem disk_current : disk.image.Current := by
  intro k hk
  have hroot : disk.image.entry 4 = item dotName .Directory 2 1920 := (disk_slot ⟨by decide, by decide⟩).trans rfl
  have hdotdot : ∀ {j}, j ∈ [5, 16] → disk.image.entry j = item dotDotName .Directory 2 1920 := by
    intro j hj
    simp only [List.mem_cons, List.not_mem_nil, or_false] at hj
    rcases hj with rfl | rfl <;> exact (disk_slot ⟨by decide, by decide⟩).trans rfl
  have hlive : disk.image.Live 4 := (disk_live 4).mpr (by decide)
  have hdir : (disk.image.entry 4).isDirectory := by
    rw [hroot]
    decide
  rcases List.mem_cons.mp (disk_copy hk) with rfl | hj
  · exact ⟨4, hlive, hdir, hdir, rfl, rfl⟩
  · have hcopy := hdotdot hj
    refine ⟨4, hlive, hdir, ?_, ?_, ?_⟩
    · rw [hcopy]
      decide
    · rw [hcopy, hroot]
      decide
    · rw [hcopy, hroot]
      decide

/-- `unlink` of `/d/../f`. -/
example : (Call.unlink [slash, 100, slash, 46, 46, slash, 102]).Clean disk :=
  Call.clean_of_current disk_wellFormed disk_current _

end Sample

end Thorn.FatDriver
