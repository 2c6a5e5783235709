import Thorn.CallEnds

set_option autoImplicit false

namespace Thorn.FatDriver
open ByteStore Paths FatTypes FatOperations FatImage LinkedChain

/-- The ways a call ends that reads the tree as it stands and stores nothing in front of a file. -/
inductive Ended (s : Fs) : Call → ℤ → Fs → Prop
  | found {path : Str} {modes : BitVec 32} (hfound : ¬ s.Misses path) : Ended s (.create path modes) (-EEXIST) s.load
  | uncreated {path : Str} {modes : BitVec 32} {r : NewFileResult} {u : Fs} (hmiss : s.Misses path)
      (hc : Created s.load (simplifyPath path) 0 .File r u) (hneg : r.status < 0) :
      Ended s (.create path modes) r.status u
  | created {path : Str} {modes : BitVec 32} {r : NewFileResult} {u : Fs} (hmiss : s.Misses path)
      (hc : Created s.load (simplifyPath path) 0 .File r u) (hok : 0 ≤ r.status) :
      Ended s (.create path modes) 0 (u.storeEntry { r.entry with modes := modes } r.offset)
  | unmade {path : Str} {r : NewFileResult} {u : Fs}
      (hc : Created s.load (simplifyPath path) sizeofDirEntry .Directory r u)
      (hneg : r.status < 0) : Ended s (.mkdir path) r.status u
  | made {path : Str} {r : NewFileResult} {u : Fs}
      (hc : Created s.load (simplifyPath path) sizeofDirEntry .Directory r u)
      (hok : 0 ≤ r.status) :
      Ended s (.mkdir path) 0 (u.storeEntry (r.parent.setName dotDotName) (mul32 r.entry.start u.bs))
  | unwritten {path : Str} {buffer : List UInt8} {offset : ℤ} {status : ℤ}
      (h : ∀ k, s.lookup path = .ok k → s.TooLarge (s.entry k) (writtenSize (s.entry k) buffer offset)) :
      Ended s (.write path buffer offset) status s.load
  | written {path : Str} {buffer : List UInt8} {offset k : ℕ} {status : ℤ} (hk : s.lookup path = .ok k)
      (hroom : ¬ s.TooLarge (s.entry k) (max (s.entry k).len (offset + buffer.length)))
      (hin : offset / s.bs < (s.newChain (s.entry k) (max (s.entry k).len (offset + buffer.length))).length)
      (hsum : offset + buffer.length < 2 ^ 63) :
      Ended s (.write path buffer offset) status (s.load.written (s.entry k) (320 * k) buffer offset)
  | unsized {path : Str} {size status : ℤ} (hneg : status < 0)
      (h : ∀ k, s.lookup path = .ok k → s.TooLarge (s.entry k) (toSize size)) :
      Ended s (.truncate path size) status s.load
  | sized {path : Str} {size : ℤ} {k : ℕ} (hk : s.lookup path = .ok k)
      (hroom : ¬ s.TooLarge (s.entry k) (toSize size)) :
      Ended s (.truncate path size) 0 (s.load.resized (s.entry k) (320 * k) (toSize size))
  | linked {path : Str} {status : ℤ} (hneg : status < 0)
      (h : ∀ k, s.lookup path = .ok k → (s.entry k).isDirectory) : Ended s (.unlink path) status s.load
  | unlinked {path : Str} {k : ℕ} (hk : s.lookup path = .ok k) (hfile : (s.entry k).isDirectory = false) :
      Ended s (.unlink path) 0 (s.load.removed k)
  | unnamed {path : Str} (hpath : path = [slash] ∨ path = []) : Ended s (.rmdir path) (-EINVAL) s
  | kept {path : Str} {status : ℤ} (hneg : status < 0)
      (h : ∀ k, s.lookup path = .ok k → (s.entry k).isDirectory = false ∨ s.Stuffed k) :
      Ended s (.rmdir path) status s.load
  | removed {path : Str} {k : ℕ} (hpath : ¬ (path = [slash] ∨ path = [])) (hk : s.lookup path = .ok k)
      (hdir : (s.entry k).isDirectory) (hempty : ¬ s.Stuffed k) : Ended s (.rmdir path) 0 (s.load.dirRemoved k)
  | renamed {srcpath destpath : Str} {status : ℤ} {t : Fs} (hr : Renamed s.load srcpath destpath status t) :
      Ended s (.rename srcpath destpath) status t
  | unstamped {path : Str} {time_now : BitVec 64} {status : ℤ} (hl : s.lookup path = .error status) :
      Ended s (.utimens path time_now) status s.load
  | stamped {path : Str} {time_now : BitVec 64} {k : ℕ} (hk : s.lookup path = .ok k) :
      Ended s (.utimens path time_now) 0 (s.load.storeEntry (FatDriver.stamped (s.entry k) time_now) (320 * k))
  | unread {path : Str} {size : ℕ} {offset status : ℤ} : Ended s (.read path size offset) status s.load
  | read {path : Str} {size k : ℕ} {offset status : ℤ} (hk : s.lookup path = .ok k) :
      Ended s (.read path size offset) status (s.load.storeEntry (s.entry k) (320 * k))
  | listed {path : Str} {status : ℤ} : Ended s (.readdir path) status s.load
  | known (h : 0 ≤ s.blocksFree) : Ended s .countFree s.blocksFree s
  | counted (h : s.blocksFree < 0) :
      Ended s .countFree s.freeList.length { s with blocksFree := s.freeList.length }

section Calls
variable {s t : Fs} {path : Str} {status : ℤ}

theorem create_ended (hw : WellFormed s) (hc : s.Clean path ∨ s.Stuck path) {modes : BitVec 32}
    (hrun : create path modes s = some (status, t)) : Ended s (.create path modes) status t := by
  rcases run_create_misses hw hc modes with ⟨hfound, heq⟩ | ⟨r, u, hmiss, hcreated, heq⟩
  · obtain ⟨rfl, rfl⟩ := Prod.mk.inj (Option.some.inj (heq.symm.trans hrun))
    exact .found hfound
  · have hboth := Option.some.inj (heq.symm.trans hrun)
    split_ifs at hboth with hneg
    · obtain ⟨rfl, rfl⟩ := Prod.mk.inj hboth
      exact .uncreated hmiss hcreated hneg
    · obtain ⟨rfl, rfl⟩ := Prod.mk.inj hboth
      exact .created hmiss hcreated (not_lt.mp hneg)

theorem mkdir_ended (hw : WellFormed s) (hrun : mkdir path s = some (status, t)) :
    Ended s (.mkdir path) status t := by
  obtain ⟨r, u, hcreated, heq⟩ := run_mkdir hw path
  have hboth := Option.some.inj (heq.symm.trans hrun)
  split_ifs at hboth with hneg
  · obtain ⟨rfl, rfl⟩ := Prod.mk.inj hboth
    exact .unmade hcreated hneg
  · obtain ⟨rfl, rfl⟩ := Prod.mk.inj hboth
    exact .made hcreated (not_lt.mp hneg)

theorem write_ended (hw : WellFormed s) {buffer : List UInt8} {offset : ℤ} (hc : s.Opens path fun _ => True)
    (hforward : (Call.write path buffer offset).Forward s) (hrun : write path buffer offset s = some (status, t)) :
    Ended s (.write path buffer offset) status t := by
  by_cases hstop : ∀ k, s.lookup path = .ok k → s.TooLarge (s.entry k) (writtenSize (s.entry k) buffer offset)
  · obtain rfl := write_stops hw hc hstop hrun
    exact .unwritten hstop
  obtain ⟨k, hstop⟩ := not_forall.mp hstop
  obtain ⟨hk, hroom⟩ := Classical.not_imp.mp hstop
  obtain ⟨h0, hn⟩ := (hforward k hk).resolve_left hroom
  obtain ⟨offset, rfl⟩ := Int.eq_ofNat_of_zero_le h0
  have hsum : offset + buffer.length < 2 ^ 63 := by exact_mod_cast hn
  rw [writtenSize_natCast _ hsum] at hroom
  rcases write_ends hw hc hsum hrun with ⟨-, hno⟩ | ⟨k', hk', -, hin, rfl⟩
  · exact absurd (hno k hk) hroom
  · obtain rfl : k = k' := Except.ok.inj (hk.symm.trans hk')
    exact .written hk hroom hin hsum

theorem truncate_ended (hw : WellFormed s) {size : ℤ} (hc : s.Opens path fun _ => True)
    (hrun : truncate path size s = some (status, t)) : Ended s (.truncate path size) status t := by
  have hboth := Option.some.inj ((run_truncate hw hc size).symm.trans hrun)
  cases hl : s.lookup path with
  | error st =>
    rw [hl] at hboth
    obtain ⟨rfl, rfl⟩ := Prod.mk.inj hboth
    exact .unsized (lookup_neg hl) fun k hk => by cases hl.symm.trans hk
  | ok k =>
    rw [hl] at hboth
    dsimp only at hboth
    split_ifs at hboth with hroom
    · obtain ⟨rfl, rfl⟩ := Prod.mk.inj hboth
      exact .unsized (by decide) fun k' hk' => Except.ok.inj (hl.symm.trans hk') ▸ hroom
    · obtain ⟨rfl, rfl⟩ := Prod.mk.inj hboth
      exact .sized hl hroom

theorem unlink_ended (hw : WellFormed s) (hc : s.Opens path fun e => e.isDirectory = false)
    (hrun : unlink path s = some (status, t)) : Ended s (.unlink path) status t := by
  have hboth := Option.some.inj ((run_unlink hw hc).symm.trans hrun)
  cases hl : s.lookup path with
  | error st =>
    rw [hl] at hboth
    obtain ⟨rfl, rfl⟩ := Prod.mk.inj hboth
    exact .linked (lookup_neg hl) fun k hk => by cases hl.symm.trans hk
  | ok k =>
    rw [hl] at hboth
    dsimp only at hboth
    split_ifs at hboth with hdir
    · obtain ⟨rfl, rfl⟩ := Prod.mk.inj hboth
      exact .linked (by decide) fun k' hk' => Except.ok.inj (hl.symm.trans hk') ▸ hdir
    · obtain ⟨rfl, rfl⟩ := Prod.mk.inj hboth
      exact .unlinked hl (Bool.eq_false_iff.mpr hdir)

theorem rmdir_ended (hw : WellFormed s) (hc : s.Opens path fun e => e.isDirectory)
    (hrun : rmdir path s = some (status, t)) : Ended s (.rmdir path) status t := by
  have hboth := Option.some.inj ((run_rmdir hw hc).symm.trans hrun)
  by_cases hpath : path = [slash] ∨ path = []
  · rw [if_pos hpath] at hboth
    obtain ⟨rfl, rfl⟩ := Prod.mk.inj hboth
    exact .unnamed hpath
  rw [if_neg hpath] at hboth
  cases hl : s.lookup path with
  | error st =>
    rw [hl] at hboth
    obtain ⟨rfl, rfl⟩ := Prod.mk.inj hboth
    exact .kept (lookup_neg hl) fun k hk => by cases hl.symm.trans hk
  | ok k =>
    rw [hl] at hboth
    dsimp only at hboth
    split_ifs at hboth with hdir hstuff
    · obtain ⟨rfl, rfl⟩ := Prod.mk.inj hboth
      exact .kept (by decide) fun k' hk' => .inl (Except.ok.inj (hl.symm.trans hk') ▸ hdir)
    · obtain ⟨rfl, rfl⟩ := Prod.mk.inj hboth
      exact .kept (by decide) fun k' hk' => .inr (Except.ok.inj (hl.symm.trans hk') ▸ hstuff)
    · obtain ⟨rfl, rfl⟩ := Prod.mk.inj hboth
      exact .removed hpath hl (by simpa using hdir) hstuff

theorem utimens_ended (hw : WellFormed s) (hc : s.Clean path) {time_now : BitVec 64}
    (hrun : utimens path time_now s = some (status, t)) : Ended s (.utimens path time_now) status t := by
  have hboth := Option.some.inj ((run_utimens hw hc time_now).symm.trans hrun)
  cases hl : s.lookup path with
  | error st =>
    rw [hl] at hboth
    obtain ⟨rfl, rfl⟩ := Prod.mk.inj hboth
    exact .unstamped hl
  | ok k =>
    rw [hl] at hboth
    obtain ⟨rfl, rfl⟩ := Prod.mk.inj hboth
    exact .stamped hl

theorem countFree_ended (hw : WellFormed s) (hrun : countFree s = some (status, t)) : Ended s .countFree status t := by
  have hboth := Option.some.inj ((run_countFree hw.geometry).symm.trans hrun)
  split_ifs at hboth with h0
  · obtain ⟨rfl, rfl⟩ := Prod.mk.inj hboth
    exact .known h0
  · obtain ⟨rfl, rfl⟩ := Prod.mk.inj hboth
    exact .counted (not_le.mp h0)

theorem ended {c : Call} (hw : WellFormed s) (hclean : c.Clean s) (hforward : c.Forward s)
    (hrun : c.run s = some (status, t)) : Ended s c status t := by
  cases c with
  | create path modes => exact create_ended hw hclean hrun
  | mkdir path => exact mkdir_ended hw hrun
  | write path buffer offset => exact write_ended hw hclean hforward hrun
  | truncate path size => exact truncate_ended hw hclean hrun
  | unlink path => exact unlink_ended hw hclean hrun
  | rmdir path => exact rmdir_ended hw hclean hrun
  | rename srcpath destpath =>
    obtain ⟨st, u, heq, hr⟩ := run_rename hw hclean.1 hclean.2
    obtain ⟨rfl, rfl⟩ := Prod.mk.inj (Option.some.inj (heq.symm.trans hrun))
    exact .renamed hr
  | utimens path time_now => exact utimens_ended hw hclean hrun
  | read path size offset =>
    obtain ⟨⟨r, u⟩, hread, hrest⟩ := Option.bind_eq_some_iff.mp
      (show (FatOperations.read path size offset >>= fun r => pure r.1) s = some (status, t) from hrun)
    obtain rfl : u = t := congrArg Prod.snd (Option.some.inj hrest)
    rcases read_ends hw hclean hread with rfl | ⟨k, hk, rfl⟩
    · exact .unread
    · exact .read hk
  | readdir path =>
    obtain ⟨⟨r, u⟩, hread, hrest⟩ := Option.bind_eq_some_iff.mp
      (show (readdir path >>= fun r => pure r.1) s = some (status, t) from hrun)
    obtain rfl : u = t := congrArg Prod.snd (Option.some.inj hrest)
    rw [readdir_ends hw hclean hread]
    exact .listed
  | countFree => exact countFree_ended hw hrun

end Calls

end Thorn.FatDriver
