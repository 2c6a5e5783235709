import Thorn.Library.Runs
import Thorn.ShellCommands

set_option autoImplicit false

namespace Thorn.Shell
open ByteStore Paths FatTypes FatDriver FatOperations FatImage Printf Keyboard

variable (around : Surroundings FlatDevice)

def entered (c : InputContext FlatDevice) (line : Str) : InputContext FlatDevice :=
  (enter around line c).elim c Prod.snd

/-- A line without an end in it, whose command is carried out as it should. -/
def Supported (c : InputContext FlatDevice) (line : Str) : Prop :=
  (0 : UInt8) ∉ line ∧ (words line ≠ [] → ∃ s d, Standing c s d ∧ Able around s d (words line))

inductive Session : InputContext FlatDevice → Desk → List Str → Str → Desk → Prop
  | nil {c : InputContext FlatDevice} {d : Desk} : Session c d [] [] d
  | blank {c : InputContext FlatDevice} {d d' : Desk} {line text : Str} {lines : List Str} (hline : words line = [])
      (h : Session (entered around c line) d lines text d') : Session c d (line :: lines) (ascii "> " ++ text) d'
  | cons {c : InputContext FlatDevice} {s : Fs} {d d' d'' : Desk} {line answer text : Str} {lines : List Str}
      (hstanding : Standing c s d) (hline : Does around s d (words line) answer d')
      (h : Session (entered around c line) d' lines text d'') :
      Session c d (line :: lines) (ascii "\n" ++ answer ++ ascii "> " ++ text) d''

theorem dispatch_files (args : List Str) :
    dispatch around (ascii "hello" :: args) = tprintf "How are you?\n" [] ∧
    dispatch around (ascii "ls" :: args) = ls around (ascii "ls" :: args) ∧
    dispatch around (ascii "mkdir" :: args) = mkdir around (ascii "mkdir" :: args) ∧
    dispatch around (ascii "read" :: args) = read around (ascii "read" :: args) ∧
    dispatch around (ascii "write" :: args) = write around (ascii "write" :: args) ∧
    dispatch around (ascii "create" :: args) = create around (ascii "create" :: args) ∧
    dispatch around (ascii "rm" :: args) = remove around (ascii "rm" :: args) ∧
    dispatch around (ascii "rmdir" :: args) = rmdir around (ascii "rmdir" :: args) ∧
    dispatch around (ascii "cd" :: args) = cd around (ascii "cd" :: args) ∧
    dispatch around (ascii "readserial" :: args) = readSerial around (ascii "readserial" :: args) ∧
    dispatch around (ascii "size" :: args) = printSize around (ascii "size" :: args) ∧
    dispatch around (ascii "sha1" :: args) = sha1 around (ascii "sha1" :: args) := by
  simp +decide only [dispatch, List.getD_cons_zero, if_true, if_false, and_self]

namespace Standing
variable {around} {c : InputContext FlatDevice} {s : Fs} {d : Desk}

theorem misused_does (h : Standing c s d) {name synopsis : Str} {args : List Str}
    (hmisused : Misused name args.length synopsis) :
    Handled around c s d (name :: args) (dispatch around (name :: args) c) := by
  have husage : ∀ {format : String}, ascii format = ascii "Usage:\n- " ++ synopsis ++ ascii "\n" →
      (37 : UInt8) ∉ ascii format → Handled around c s d (name :: args) (tprintf format [] c) := by
    intro format hformat hplain
    rw [run_plain hplain, hformat]
    exact ⟨_, d, .misused hmisused, h.answers _ rfl⟩
  cases hmisused with
  | one hname hn =>
    have hcount : (name :: args).length ≠ 2 := fun heq => hn (Nat.succ.inj heq)
    simp only [List.mem_cons, List.not_mem_nil, or_false, Prod.mk.injEq] at hname
    rcases hname with ⟨rfl, rfl⟩ | ⟨rfl, rfl⟩ | ⟨rfl, rfl⟩ | ⟨rfl, rfl⟩ | ⟨rfl, rfl⟩ | ⟨rfl, rfl⟩
    · simp only [dispatch_files, mkdir, if_pos hcount]
      exact husage rfl (by decide)
    · simp only [dispatch_files, read, if_pos hcount]
      exact husage rfl (by decide)
    · simp only [dispatch_files, remove, if_pos hcount]
      exact husage rfl (by decide)
    · simp only [dispatch_files, rmdir, if_pos hcount]
      exact husage rfl (by decide)
    · simp only [dispatch_files, cd, if_pos hcount]
      exact husage rfl (by decide)
    · simp only [dispatch_files, printSize, if_pos hcount]
      exact husage rfl (by decide)
  | create hn =>
    have hcount : (ascii "create" :: args).length ≠ 2 ∧ (ascii "create" :: args).length ≠ 3 :=
      ⟨fun heq => hn.1 (Nat.succ.inj heq), fun heq => hn.2 (Nat.succ.inj heq)⟩
    simp only [dispatch_files, create, if_pos hcount]
    exact husage rfl (by decide)
  | sha1 hn =>
    have hthree : ¬ (ascii "sha1" :: args).length = 3 := fun heq => hn.2 (Nat.succ.inj heq)
    have htwo : (ascii "sha1" :: args).length ≠ 2 := fun heq => hn.1 (Nat.succ.inj heq)
    simp only [dispatch_files, sha1, if_neg hthree, if_pos htwo]
    exact husage rfl (by decide)
  | write hn =>
    have hcount : (ascii "write" :: args).length < 3 := Nat.succ_lt_succ hn
    simp only [dispatch_files, write, if_pos hcount]
    exact husage rfl (by decide)
  | ls hn =>
    have hcount : (ascii "ls" :: args).length ≠ 1 ∧ (ascii "ls" :: args).length ≠ 2 := by
      rw [List.length_cons]
      omega
    simp only [dispatch_files, ls, if_pos hcount, h.run_ready]
    exact husage rfl (by decide)
  | readserial hn =>
    have hcount : 2 < (ascii "readserial" :: args).length := Nat.succ_lt_succ hn
    simp only [dispatch_files, readSerial, if_pos hcount]
    exact husage rfl (by decide)

theorem unknown_does (h : Standing c s d) {name : Str} {args : List Str} (hname : name ∉ hardwareNames)
    (hfiles : name ∉ fileNames) : Handled around c s d (name :: args) (dispatch around (name :: args) c) := by
  have hrun : dispatch around (name :: args) = tprintf "Unknown command.\n" [] := by
    simp only [fileNames, List.map_cons, List.map_nil, List.mem_cons, List.not_mem_nil, or_false,
      not_or] at hfiles
    obtain ⟨h₁, h₂, h₃, h₄, h₅, h₆, h₇, h₈, h₉, h₁₀, h₁₁, h₁₂⟩ := hfiles
    simp only [dispatch, List.getD_cons_zero, if_neg h₁, if_neg h₂, if_neg h₃, if_neg h₄, if_neg h₅, if_neg h₆,
      if_neg h₇, if_neg h₈, if_neg h₉, if_neg h₁₀, if_neg h₁₁, if_neg h₁₂, if_neg hname]
  rw [hrun, run_plain (by decide)]
  exact ⟨_, d, .unknown hname hfiles, h.answers _ rfl⟩

theorem command_does (h : Standing c s d) {pieces : List Str}
    (hwords : ∀ word ∈ pieces, word ≠ [] ∧ (0 : UInt8) ∉ word)
    (hable : Able around s d pieces) : Handled around c s d pieces (dispatch around pieces c) := by
  have hsecond {name p : Str} {args : List Str} (heq : pieces = name :: p :: args) : p ≠ [] ∧ (0 : UInt8) ∉ p :=
    hwords p (heq ▸ .tail _ List.mem_cons_self)
  cases hable with
  | hello =>
    rw [(dispatch_files around _).1, run_plain (by decide)]
    exact ⟨_, d, .greets, h.answers _ rfl⟩
  | misused hmisused => exact h.misused_does hmisused
  | mkdir hname hroom =>
    simp only [dispatch_files]
    exact h.mkdir_does (hsecond rfl) hname hroom
  | create hmodes hnew =>
    simp only [dispatch_files]
    exact h.create_does (hsecond rfl) hmodes hnew
  | write hne hfile hstores =>
    simp only [dispatch_files]
    exact h.write_does (hsecond rfl) hne (fun word hword => (hwords word (.tail _ (.tail _ hword))).1) hfile hstores
  | read hname hfile hsmall =>
    rcases hname with rfl | rfl
    · simp only [dispatch_files]
      exact h.read_does (hsecond rfl) hfile hsmall
    · simp only [dispatch_files]
      exact h.sha1_does (hsecond rfl) hfile hsmall
  | sha1 hsmall =>
    simp only [dispatch_files]
    exact h.sha1_text_does hsmall
  | look hname =>
    rcases hname with rfl | rfl | rfl
    · simp only [dispatch_files]
      exact h.remove_does (hsecond rfl)
    · simp only [dispatch_files]
      exact h.cd_does (hsecond rfl)
    · simp only [dispatch_files]
      exact h.ls_does (hsecond rfl)
  | ls =>
    simp only [dispatch_files]
    exact h.ls_here_does
  | size hfile =>
    simp only [dispatch_files]
    exact h.size_does (hsecond rfl) hfile
  | receive hbytes =>
    simp only [dispatch_files]
    exact h.receive_does hbytes
  | store hstores =>
    simp only [dispatch_files]
    exact h.store_does (hsecond rfl) hstores
  | unknown hname hfiles => exact h.unknown_does hname hfiles

end Standing

section Lines
variable {around} {c : InputContext FlatDevice} {s : Fs} {d : Desk} {line : Str}

theorem run_blank (hblank : words line = []) (c : InputContext FlatDevice) :
    handleInput around line c = some ((), c) := by
  rw [handleInput]
  cases hfirst : line.findIdx? (· ≠ space) with
  | none => rfl
  | some first => exact absurd hblank (split_words hfirst).2

theorem run_line (hne : words line ≠ []) (c : InputContext FlatDevice) :
    handleInput around line c = dispatch around (words line) (c.shown (ascii "\n")) := by
  rw [handleInput]
  cases hfirst : line.findIdx? (· ≠ space) with
  | none => exact absurd (words_blank hfirst) hne
  | some first =>
    dsimp only
    rw [(split_words hfirst).1, run_bind, run_plain (by decide), Option.bind_some]

theorem Standing.enters (h : Standing c s d) (hable : Supported around c line) :
    ∃ text d' s', enter around line c = some ((), entered around c line) ∧
      (∀ lines rest d'', Session around (entered around c line) d' lines rest d'' →
        Session around c d (line :: lines) (text ++ rest) d'') ∧
      Standing (entered around c line) s' d' ∧
      (entered around c line).terminal = c.terminal ++ text.filter (· ≠ 0) := by
  obtain ⟨htext, hable⟩ := hable
  have hends {c' : InputContext FlatDevice} (hrun : handleInput around line c = some ((), c')) :
      enter around line c = some ((), entered around c line) ∧ entered around c line = c'.shown (ascii "> ") := by
    have henter : enter around line c = some ((), c'.shown (ascii "> ")) := by
      rw [enter, run_bind, hrun, Option.bind_some, run_plain (by decide)]
    rw [entered, henter]
    exact ⟨rfl, rfl⟩
  by_cases hblank : words line = []
  · obtain ⟨henter, hshown⟩ := hends (run_blank hblank c)
    refine ⟨ascii "> ", d, s, henter, fun lines rest d'' => .blank hblank, ?_, ?_⟩
    · rw [hshown]
      exact h.shown _
    · rw [hshown]
      rfl
  · obtain ⟨s', d', hstanding, hable⟩ := hable hblank
    obtain ⟨rfl, rfl⟩ := h.unique hstanding
    obtain ⟨answer, d', hdoes, c', s', hrun, hstands, hterminal⟩ :=
      (h.shown (ascii "\n")).command_does (fun word hword => words_text htext hword) hable
    obtain ⟨henter, hshown⟩ := hends ((run_line hblank c).trans hrun)
    refine ⟨ascii "\n" ++ answer ++ ascii "> ", d', s', henter, fun lines rest d'' hrest => ?_, ?_, ?_⟩
    · exact .cons h hdoes hrest
    · rw [hshown]
      exact hstands.shown _
    · rw [hshown]
      simp only [InputContext.shown, hterminal, List.filter_append, List.append_assoc]

end Lines

/-- Lines that are entered one after the other come to their end, and what they do and put out is what they do to
the desk and what is answered. -/
theorem session_on_desk (c : InputContext FlatDevice) (s : Fs) (d : Desk) (h : Standing c s d)
    (lines : List Str) (hable : Runs.Throughout (entered around) (Supported around) c lines) :
    session around lines c = some ((), Runs.after (entered around) c lines) ∧
      ∃ text d' s', Session around c d lines text d' ∧ Standing (Runs.after (entered around) c lines) s' d' ∧
        (Runs.after (entered around) c lines).terminal = c.terminal ++ text.filter (· ≠ 0) := by
  induction lines generalizing c s d with
  | nil => exact ⟨rfl, [], d, s, .nil, h, (List.append_nil _).symm⟩
  | cons line lines ih =>
    obtain ⟨hline, hlines⟩ := Runs.throughout_cons.mp hable
    obtain ⟨text, d', s', henter, hsession, hstands, hterminal⟩ := h.enters hline
    obtain ⟨hrun, rest, d'', s'', hrest, hends, hshown⟩ := ih _ s' d' hstands hlines
    refine ⟨?_, text ++ rest, d'', s'', hsession lines rest d'' hrest, hends, ?_⟩
    · rw [session, run_bind, henter, Option.bind_some]
      exact hrun
    · rw [Runs.after_cons, hshown, hterminal, List.filter_append, List.append_assoc]

section Sample
open FatSample

def stampedDisk : Fs := wideDisk.poke 0 wideDisk.superblock.encode

theorem wideDisk_geometry : Geometry wideDisk := wideDisk_frame.geometry wideBlank_geometry

theorem stampedDisk_frame : SameFrame wideDisk stampedDisk := SameFrame.poke _ _ _

theorem stampedDisk_geometry : Geometry stampedDisk := stampedDisk_frame.geometry wideDisk_geometry

theorem stampedDisk_slice {q n : ℕ} (hq : 24 ≤ q) : slice stampedDisk.data q n = slice wideDisk.data q n :=
  slice_poke wideDisk_geometry (Nat.zero_le _) (.inr hq)

theorem stampedDisk_fat {b : ℕ} (hb : b < wideDisk.blockCount) : stampedDisk.fat b = wideDisk.fat b := by
  have hbs : 24 ≤ wideDisk.bs + 4 * b := by
    rw [show wideDisk.bs = 960 from wideDisk_frame.bs]
    omega
  rw [stampedDisk_geometry.fat_eq (stampedDisk_frame.blockCount.symm ▸ hb), wideDisk_geometry.fat_eq hb,
    stampedDisk_frame.bs]
  exact congrArg blockOfBytes (stampedDisk_slice hbs)

theorem stampedDisk_entry {k : ℕ} (hk : wideDisk.IsSlot k) : stampedDisk.entry k = wideDisk.entry k := by
  have hb := (slot_bound wideDisk_geometry hk).1
  have hlow : 24 ≤ (wideDisk.fatBlocks + 1) * wideDisk.bs := by
    rw [show wideDisk.fatBlocks = 1 from wideDisk_frame.fatBlocks,
      show wideDisk.bs = 960 from wideDisk_frame.bs]
    decide
  rw [entry_eq, entry_eq, stampedDisk_slice (by omega)]

theorem stampedDisk_bare : Bare stampedDisk := by
  have hbare := wideDisk_bare
  have hepb := wideDisk_geometry.two_le_epb
  have hroot : stampedDisk.entry wideDisk.image.rootSlot = wideDisk.entry wideDisk.image.rootSlot :=
    stampedDisk_entry (root_isSlot wideDisk_geometry (i := 0) (by omega))
  have hcopy : stampedDisk.entry (wideDisk.image.rootSlot + 1) = wideDisk.entry (wideDisk.image.rootSlot + 1) :=
    stampedDisk_entry (root_isSlot wideDisk_geometry hepb)
  have hslot : stampedDisk.image.rootSlot = wideDisk.image.rootSlot := stampedDisk_frame.rootSlot
  have hstart : stampedDisk.image.startBlock = wideDisk.image.startBlock :=
    congrArg (· + 1) stampedDisk_frame.fatBlocks
  have hcount : wideDisk.blockCount = 12 := wideDisk_frame.blockCount
  have hblocks : wideDisk.fatBlocks = 1 := wideDisk_frame.fatBlocks
  refine ⟨stampedDisk_geometry, hbare.unloaded, fun b hb => ?_, ?_, fun b hlow hb => ?_, ?_, ?_, ?_, ?_, ?_⟩
  · rw [stampedDisk_frame.fatBlocks] at hb
    rw [stampedDisk_fat (by omega)]
    exact hbare.reserved b hb
  · rw [stampedDisk_frame.fatBlocks, stampedDisk_fat (by omega)]
    exact hbare.last
  · rw [stampedDisk_frame.fatBlocks] at hlow
    rw [stampedDisk_frame.blockCount] at hb
    rw [stampedDisk_fat hb]
    exact hbare.free b hlow hb
  · rw [hslot, hroot]
    exact hbare.directory
  · rw [hslot, hroot, hstart]
    exact hbare.start
  · rw [hslot, hroot]
    exact hbare.len
  · rw [hslot, hroot]
    exact hbare.dot
  · rw [hslot, hroot, hcopy]
    exact hbare.copy

theorem stampedDisk_stamped : Stamped stampedDisk where
  bytes := by
    have hself := slice_patch_self wideDisk.data 0 wideDisk.superblock.encode
    rw [superblock_length] at hself
    rw [stampedDisk, poke_data _ _ _ (wideDisk_geometry.no_wrap (Nat.zero_le _))]
    exact hself
  fits := by
    rw [stampedDisk_frame.superblock, wideDisk_frame.superblock]
    exact ⟨by decide, by decide, by decide, by decide, by decide⟩
  magic := by
    rw [stampedDisk_frame.superblock, wideDisk_frame.superblock]
    rfl

def freshContext : InputContext FlatDevice := ⟨some stampedDisk, [slash], [], []⟩

noncomputable def freshDesk : Desk := ⟨[], stampedDisk.view, []⟩

theorem fresh_standing : Standing freshContext stampedDisk freshDesk where
  driver := rfl
  path := rfl
  serial := rfl
  mounted := ⟨stampedDisk_bare.emptyTree.treelike, stampedDisk_stamped, rfl⟩
  legible _ hname := absurd hname List.not_mem_nil
  here := (view_some stampedDisk_bare.unique .root).trans (congrArg some (node_directory stampedDisk_bare.directory))

theorem stampedDisk_create : NewName freshDesk.store pathX ∧ stampedDisk.Room pathX 0 := by
  have hbare := stampedDisk_bare
  have hl : stampedDisk.lookup pathX = .error (-ENOENT) :=
    hbare.lookup_missing (by decide) pathX_noDots
  have hlen : (stampedDisk.entry stampedDisk.image.rootSlot).len = 640 := hbare.len
  have hbs : stampedDisk.bs = 960 := stampedDisk_frame.bs.trans wideDisk_frame.bs
  have hreuses : ¬ stampedDisk.load.Reuses stampedDisk.image.rootSlot := by
    rintro ⟨k, hk, -⟩
    exact hbare.not_child .root hk
  have hroomy : ¬ stampedDisk.FullDir stampedDisk.image.rootSlot := by
    rw [Driver.FullDir, hlen, hbs]
    decide
  have hfree : stampedDisk.load.freeList.length = 9 := by
    change stampedDisk.freeList.length = 9
    rw [hbare.freeList, stampedDisk_frame.blockCount, stampedDisk_frame.fatBlocks, wideDisk_frame.blockCount,
      wideDisk_frame.fatBlocks]
    decide
  have hasks : stampedDisk.load.asks stampedDisk.image.rootSlot 0 = 2 := by
    have hroomy' : ¬ stampedDisk.load.FullDir stampedDisk.image.rootSlot := hroomy
    have hlen' : (stampedDisk.load.entry stampedDisk.image.rootSlot).len = 640 := hlen
    have hbs' : stampedDisk.load.bs = 960 := hbs
    rw [Driver.asks, if_neg hreuses, if_neg hroomy', hlen', hbs']
    decide
  refine ⟨⟨FatDriver.pathX_simplified, by decide, by decide, by decide, view_none fun k hk => ?_,
    fresh_standing.here⟩, ⟨_, rfl, .inr hroomy⟩, fun p hp => ?_⟩
  · have hfound := (lookup_named hbare.wellFormed hbare.unique pathX_noDots).mpr hk
    rw [hl] at hfound
    cases hfound
  · obtain rfl : stampedDisk.image.rootSlot = p := Except.ok.inj hp
    rw [hasks, hfree]
    decide

def bareSurroundings : Surroundings FlatDevice where
  strerror _ := []
  strtoul _ _ := (0, 0)
  object := ⟨⟨0, 0, 0, 0, 0⟩, 0, 0, .zero, []⟩
  hardware _ := failure

def freshLines : List Str := [ascii " create  x", ascii "ls"]

/-- A file is made, and the directory is listed. -/
theorem session_on_desk_x :
    session bareSurroundings freshLines freshContext =
        some ((), Runs.after (entered bareSurroundings) freshContext freshLines) ∧
      ∃ text d' s', Session bareSurroundings freshContext freshDesk freshLines text d' ∧
        Standing (Runs.after (entered bareSurroundings) freshContext freshLines) s' d' ∧
        (Runs.after (entered bareSurroundings) freshContext freshLines).terminal =
          freshContext.terminal ++ text.filter (· ≠ 0) := by
  have hcreate : Supported bareSurroundings freshContext (ascii " create  x") := by
    refine ⟨by decide, fun _ => ⟨stampedDisk, freshDesk, fresh_standing, ?_⟩⟩
    rw [show words (ascii " create  x") = [ascii "create", ascii "x"] by decide]
    exact .create (Nat.zero_le _) fun _ _ => stampedDisk_create
  obtain ⟨-, d', s', -, -, hstanding, -⟩ := fresh_standing.enters hcreate
  have hls : Supported bareSurroundings (entered bareSurroundings freshContext (ascii " create  x"))
      (ascii "ls") := by
    refine ⟨by decide, fun _ => ⟨s', d', hstanding, ?_⟩⟩
    rw [show words (ascii "ls") = [ascii "ls"] by decide]
    exact .ls
  exact session_on_desk bareSurroundings freshContext stampedDisk freshDesk fresh_standing
    freshLines (Runs.throughout_cons.mpr ⟨hcreate, Runs.throughout_cons.mpr ⟨hls, Runs.throughout_nil⟩⟩)

end Sample

end Thorn.Shell
