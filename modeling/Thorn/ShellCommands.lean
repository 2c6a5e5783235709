import Thorn.ShellTexts

set_option autoImplicit false

namespace Thorn.Shell
open ByteStore Paths FatTypes FatDriver FatOperations FatImage Printf Keyboard

structure Standing (c : InputContext FlatDevice) (s : Fs) (d : Desk) : Prop where
  driver : c.driver = some s
  path : c.path = spelled d.cwd
  serial : c.serial = d.incoming
  mounted : Mounted s d.store
  legible : Legible d.cwd
  here : d.store d.cwd = some .directory

def Answered (c : InputContext FlatDevice) (r : Option (Unit × InputContext FlatDevice)) (answer : Str)
    (d' : Desk) : Prop :=
  ∃ c' s', r = some ((), c') ∧ Standing c' s' d' ∧ c'.terminal = c.terminal ++ answer.filter (· ≠ 0)

theorem run_drive {c : InputContext FlatDevice} {s t : Fs} (h : c.driver = some s) {α : Type}
    {call : Action FlatDevice α} {a : α} (hcall : call s = some (a, t)) : drive call c = some (a, c.driving t) := by
  rw [drive, h, Option.bind_some, hcall]
  rfl

theorem not_lacks {s : Fs} {path : Str} {k n : ℕ} (hk : s.lookup path = .ok k)
    (h : ¬ s.TooLarge (s.entry k) n) : ¬ Lacks s path n := by
  rintro ⟨k', hk', hlarge⟩
  obtain rfl : k = k' := Except.ok.inj (hk.symm.trans hk')
  exact h hlarge

theorem ne_directory {d : Desk} {p : Str} {content : List UInt8} (hn : d.node p = some (.file content)) :
    d.node p ≠ some .directory := fun hd => by
  rw [hn] at hd
  cases hd

namespace Standing
variable {c : InputContext FlatDevice} {s t : Fs} {d : Desk} {p name : Str} {args : List Str}

theorem unique (h : Standing c s d) {s' : Fs} {d' : Desk} (h' : Standing c s' d') : s = s' ∧ d = d' := by
  obtain ⟨cwd, store, incoming⟩ := d
  obtain ⟨cwd', store', incoming'⟩ := d'
  obtain rfl : s = s' := Option.some.inj (h.driver.symm.trans h'.driver)
  obtain rfl : store = store' := h.mounted.view.symm.trans h'.mounted.view
  obtain rfl : incoming = incoming' := h.serial.symm.trans h'.serial
  have hpath : spelled cwd = spelled cwd' := h.path.symm.trans h'.path
  obtain rfl : cwd = cwd' := h.legible.stackOf.symm.trans ((congrArg stackOf hpath).trans h'.legible.stackOf)
  exact ⟨rfl, rfl⟩

theorem shown (h : Standing c s d) (text : Str) : Standing (c.shown text) s d :=
  ⟨h.driver, h.path, h.serial, h.mounted, h.legible, h.here⟩

theorem driving (h : Standing c s d) {m : NamedStore.Store (List Str)} (ht : Mounted t m)
    (hhere : m d.cwd = some .directory) : Standing (c.driving t) t { d with store := m } :=
  ⟨rfl, h.path, h.serial, ht, h.legible, hhere⟩

theorem looked (h : Standing c s d) (ht : Mounted t d.store) : Standing (c.driving t) t d := h.driving ht h.here

theorem answers (h : Standing c s d) (answer : Str) {c₀ : InputContext FlatDevice}
    (hterminal : c.terminal = c₀.terminal) : Answered c₀ (some ((), c.shown answer)) answer d :=
  ⟨_, s, rfl, h.shown answer, congrArg (· ++ answer.filter (· ≠ 0)) hterminal⟩

theorem here_put (h : Standing c s d) {node : Option NamedStore.Node} (hne : d.node p ≠ some .directory) :
    (d.put p node).store d.cwd = some .directory := by
  have hother : d.cwd ≠ d.target p := fun heq => hne ((congrArg d.store heq.symm).trans h.here)
  exact (Function.update_of_ne hother _ _).trans h.here

section Paths
variable (h : Standing c s d) (hp : p ≠ [] ∧ (0 : UInt8) ∉ p)
include h hp

theorem target_legible : Legible (d.target p) := Desk.legible_target h.legible hp.2

theorem noDots : NoDots (d.path p) := (h.target_legible hp).noDots

theorem names : pathNames (d.path p) = d.target p := (h.target_legible hp).pathNames

theorem text : (0 : UInt8) ∉ d.path p := (h.target_legible hp).text

theorem cStr_path : cStr (d.path p) = d.path p := cStr_text (h.text hp)

theorem node_eq {node : Option NamedStore.Node} (hm : d.node p = node) :
    d.store (pathNames (d.path p)) = node := by
  rw [h.names hp]
  exact hm

theorem run_simplified (args : List Str) : simplified (name :: p :: args) c = some (d.path p, c) := by
  have hrun : simplified (σ := FlatDevice) (name :: p :: args) c = some (simplifyPathIn c.path p, c) := rfl
  rw [hrun, h.path, Desk.simplifyPathIn_path h.legible hp.1]

end Paths

theorem run_ready (h : Standing c s d) (work : Command FlatDevice Unit) : ready work c = work c := by
  have hdriven : c.driving s = c := by
    rw [InputContext.driving, ← h.driver]
  have hisSome : ¬ c.driver.isNone := by
    rw [h.driver]
    exact Bool.false_ne_true
  have hget : (get : Command FlatDevice (InputContext FlatDevice)) c = some (c, c) := rfl
  rw [ready, run_bind, hget, Option.bind_some, run_ite, if_neg hisSome, run_bind,
    run_drive h.driver h.mounted.verify, Option.bind_some, run_ite, if_neg (not_not.mpr rfl), hdriven]

theorem run_path (h : Standing c s d) (hp : p ≠ [] ∧ (0 : UInt8) ∉ p) {rest : Str → Command FlatDevice Unit} :
    ready (do
      let path ← simplified (name :: p :: args)
      rest path) c = rest (d.path p) c := by
  rw [h.run_ready, run_bind, h.run_simplified hp, Option.bind_some]

theorem run_asked (h : Standing c s d) (hp : p ≠ [] ∧ (0 : UInt8) ∉ p) {α : Type}
    (call : Str → Action FlatDevice α) {rest : Str → α → Command FlatDevice Unit} {a : α}
    (hcall : call (d.path p) s = some (a, t)) :
    ready (do
      let path ← simplified (name :: p :: args)
      let a ← drive (call (cStr path))
      rest path a) c = rest (d.path p) a (c.driving t) := by
  rw [h.run_path hp, run_bind, h.cStr_path hp, run_drive h.driver hcall, Option.bind_some]

section Lookups
variable (h : Standing c s d) (hp : p ≠ [] ∧ (0 : UInt8) ∉ p)
include h hp

theorem missing (hn : d.node p = none) :
    ∃ status, s.lookup (d.path p) = .error status ∧ Missing d.store (d.target p) status := by
  obtain ⟨status, hl, hmissing⟩ := h.mounted.missing (h.noDots hp) (h.node_eq hp hn)
  exact ⟨status, hl, h.names hp ▸ hmissing⟩

theorem found {node : NamedStore.Node} (hn : d.node p = some node) :
    ∃ k, s.lookup (d.path p) = .ok k ∧ s.node k = node := by
  obtain ⟨k, hk, hnode⟩ := h.mounted.exists_named (h.node_eq hp hn)
  exact ⟨k, h.mounted.lookup_of_named (h.noDots hp) hk, hnode⟩

theorem file {content : List UInt8} (hn : d.node p = some (.file content)) :
    ∃ k, s.lookup (d.path p) = .ok k ∧ (s.entry k).isDirectory = false ∧ (s.entry k).len = content.length := by
  obtain ⟨k, hk, hfile, -, hlen⟩ := h.mounted.file (h.node_eq hp hn)
  exact ⟨k, h.mounted.lookup_of_named (h.noDots hp) hk, hfile, hlen⟩

theorem directory (hn : d.node p = some .directory) :
    ∃ k, s.lookup (d.path p) = .ok k ∧ (s.entry k).isDirectory := by
  obtain ⟨k, hk, hd⟩ := h.mounted.directory (h.node_eq hp hn)
  exact ⟨k, h.mounted.lookup_of_named (h.noDots hp) hk, hd⟩

end Lookups

end Standing

structure Stores (s : Fs) (k length : ℕ) : Prop where
  small : length < 2 ^ 31
  right : s.SizesRight k length
  cuts : s.CutsOwn k length

variable (around : Surroundings FlatDevice)

inductive Able (s : Fs) (d : Desk) : List Str → Prop
  | hello {args : List Str} : Able s d (ascii "hello" :: args)
  | misused {name synopsis : Str} {args : List Str} (h : Misused name args.length synopsis) : Able s d (name :: args)
  | mkdir {p : Str} (hname : NewName d.store (d.path p)) (hroom : s.Room (d.path p) sizeofDirEntry) :
      Able s d [ascii "mkdir", p]
  | create {p : Str} {modes : List Str} (hmodes : modes.length ≤ 1) (h : d.node p = none → Modes around modes →
        NewName d.store (d.path p) ∧ s.Room (d.path p) 0) : Able s d (ascii "create" :: p :: modes)
  | write {p : Str} {contents : List Str} (hne : contents ≠ []) (hfile : d.node p ≠ some .directory)
      (h : ∀ k, s.lookup (d.path p) = .ok k → Stores s k ([space].intercalate contents).length) :
      Able s d (ascii "write" :: p :: contents)
  | read {name p : Str} (hname : name = ascii "read" ∨ name = ascii "sha1") (hfile : d.node p ≠ some .directory)
      (h : ∀ content, d.node p = some (.file content) → content.length < 2 ^ 31) : Able s d [name, p]
  | sha1 {p text : Str} (h : text.length < 2 ^ 31) : Able s d [ascii "sha1", p, text]
  | look {name p : Str} (hname : name = ascii "rm" ∨ name = ascii "cd" ∨ name = ascii "ls") : Able s d [name, p]
  | ls : Able s d [ascii "ls"]
  | size {p : Str} (hfile : d.node p ≠ some .directory) : Able s d [ascii "size", p]
  | receive {bytes rest : List UInt8} (h : d.incoming = escaped bytes ++ rest) : Able s d [ascii "readserial"]
  | store {p : Str} (h : ∀ k, s.lookup (d.path p) = .ok k → (s.entry k).isDirectory = false → (s.entry k).isFile ∧
        ∃ bytes rest, d.incoming = escaped bytes ++ rest ∧ bytes ≠ [] ∧ Stores s k bytes.length) :
      Able s d [ascii "readserial", p]
  | unknown {name : Str} {args : List Str} (hname : name ∉ hardwareNames) (hfiles : name ∉ fileNames) :
      Able s d (name :: args)

def Handled (c : InputContext FlatDevice) (s : Fs) (d : Desk) (pieces : List Str)
    (r : Option (Unit × InputContext FlatDevice)) : Prop :=
  ∃ answer d', Does around s d pieces answer d' ∧ Answered c r answer d'

namespace Standing
variable {around} {c : InputContext FlatDevice} {s : Fs} {d : Desk} {p : Str}

theorem joined_words {name p : Str} {contents : List Str} (hne : contents ≠ []) :
    joined (name :: p :: contents) = [space].intercalate contents := by
  obtain ⟨word, rest, rfl⟩ := List.exists_cons_of_ne_nil hne
  change rest.foldl (fun joined piece => joined ++ (space :: piece)) word = _
  induction rest generalizing word with
  | nil => exact List.intercalate_singleton.symm
  | cons next rest ih =>
    rw [List.foldl_cons, ih (word ++ space :: next) (List.cons_ne_nil _ _)]
    cases rest with
    | nil => simp only [List.intercalate_cons_cons, List.intercalate_singleton, List.append_assoc,
        List.singleton_append]
    | cons => simp only [List.intercalate_cons_cons, List.append_assoc, List.nil_append, List.cons_append]

theorem fails (h : Standing c s d) {pieces : List Str} {format : String} {message : Str}
    (hformat : ascii format = message ++ ascii ": %s (%d)\n") (hmessage : (37 : UInt8) ∉ message) {status : ℤ}
    (hstatus : -2 ^ 31 ≤ status ∧ status < 0) (hdoes : Does around s d pieces (failed around message status) d) :
    Handled around c s d pieces (tprintf format (statusArgs around status) (c.driving s.load)) := by
  rw [run_failed around message hformat hmessage hstatus.1 hstatus.2]
  exact ⟨_, d, hdoes, (h.looked h.mounted.load).answers _ rfl⟩

theorem mkdir_does (h : Standing c s d) (hp : p ≠ [] ∧ (0 : UInt8) ∉ p) (hname : NewName d.store (d.path p))
    (hroom : s.Room (d.path p) sizeofDirEntry) :
    Handled around c s d [ascii "mkdir", p] (mkdir around [ascii "mkdir", p] c) := by
  obtain ⟨t, hrun, ht⟩ := h.mounted.makes hname hroom
  have hfresh := hname.fresh
  rw [h.names hp] at ht hfresh
  have hnot : d.node p ≠ some .directory := fun hd => by
    rw [Desk.node, hfresh] at hd
    cases hd
  have hcount : ¬ [ascii "mkdir", p].length ≠ 2 := not_not.mpr rfl
  refine ⟨[], _, .makes hname, ?_⟩
  rw [mkdir, if_neg hcount, h.run_asked hp FatOperations.mkdir hrun, run_ite, if_neg (not_not.mpr rfl),
    run_pure, ← shown_nil (c.driving t)]
  exact (h.driving ht (h.here_put hnot)).answers [] rfl

theorem create_does (h : Standing c s d) (hp : p ≠ [] ∧ (0 : UInt8) ∉ p) {modes : List Str}
    (hcount : modes.length ≤ 1)
    (hnew : d.node p = none → Modes around modes → NewName d.store (d.path p) ∧ s.Room (d.path p) 0) :
    Handled around c s d (ascii "create" :: p :: modes) (create around (ascii "create" :: p :: modes) c) := by
  have hpieces : ¬ ((ascii "create" :: p :: modes).length ≠ 2 ∧ (ascii "create" :: p :: modes).length ≠ 3) := by
    simp only [List.length_cons]
    omega
  rw [create, if_neg hpieces, h.run_path hp]
  generalize hparsed : (if (ascii "create" :: p :: modes).length = 3 then
    parseUlong around ((ascii "create" :: p :: modes).getD 2 []) 8 else some 0o644#64) = parsed
  cases parsed with
  | none =>
    rcases modes with _ | ⟨m, rest⟩
    · cases hparsed
    · obtain rfl : rest = [] := List.eq_nil_of_length_eq_zero (by simpa using hcount)
      dsimp only
      rw [run_plain (by decide)]
      exact ⟨_, d, .unparsed hparsed, h.answers _ rfl⟩
  | some v =>
    have hmodes : Modes around modes := by
      rcases modes with _ | ⟨m, rest⟩
      · trivial
      · obtain rfl : rest = [] := List.eq_nil_of_length_eq_zero (by simpa using hcount)
        have hm : parseUlong around m 8 = some v := hparsed
        rw [Modes, hm]
        exact Option.some_ne_none v
    dsimp only
    rw [run_bind, h.cStr_path hp]
    cases hn : d.node p with
    | none =>
      obtain ⟨hname, hroom⟩ := hnew hn hmodes
      obtain ⟨t, hrun, ht⟩ := h.mounted.creates hname hroom (v.setWidth 32)
      rw [h.names hp] at ht
      have hnot : d.node p ≠ some .directory := hn ▸ (Option.some_ne_none _).symm
      rw [run_drive h.driver hrun, Option.bind_some, run_ite, if_neg (not_not.mpr rfl),
        run_between (ascii "Created ") (ascii ".\n") rfl (by decide) (by decide)]
      exact ⟨_, _, .creates hmodes hname, (h.driving ht (h.here_put hnot)).answers _ rfl⟩
    | some node =>
      obtain ⟨k, hk, -⟩ := h.found hp hn
      have hrun : FatOperations.create (d.path p) (v.setWidth 32) s = some (-EEXIST, s.load) := by
        rcases run_create h.mounted.tree.wf (h.mounted.clean (h.noDots hp)) (v.setWidth 32) with
          ⟨-, -, hrun⟩ | ⟨status, -, -, hl, -⟩
        · exact hrun
        · rw [hk] at hl
          cases hl
      have hstatus : -2 ^ 31 ≤ (-EEXIST : ℤ) ∧ (-EEXIST : ℤ) < 0 := by decide
      rw [run_drive h.driver hrun, Option.bind_some, run_ite, if_pos hstatus.2.ne]
      exact h.fails rfl (by decide) hstatus (.exists hmodes hn)

theorem write_does (h : Standing c s d) (hp : p ≠ [] ∧ (0 : UInt8) ∉ p) {contents : List Str}
    (hne : contents ≠ []) (hwords : ∀ word ∈ contents, word ≠ []) (hdir : d.node p ≠ some .directory)
    (hable : ∀ k, s.lookup (d.path p) = .ok k → Stores s k ([space].intercalate contents).length) :
    Handled around c s d (ascii "write" :: p :: contents) (write around (ascii "write" :: p :: contents) c) := by
  have hpieces : ¬ (ascii "write" :: p :: contents).length < 3 := by
    have hpos := List.length_pos_of_ne_nil hne
    simp only [List.length_cons]
    omega
  have hjoined : 1 ≤ ([space].intercalate contents).length := by
    obtain ⟨word, rest, rfl⟩ := List.exists_cons_of_ne_nil hne
    have hword := List.length_pos_of_ne_nil (hwords word List.mem_cons_self)
    cases rest with
    | nil => rwa [List.intercalate_singleton]
    | cons next rest =>
      rw [List.intercalate_cons_cons, List.length_append, List.length_append]
      omega
  rw [write, if_neg hpieces]
  dsimp only
  rw [joined_words hne]
  generalize hbytes : [space].intercalate contents = bytes at *
  have htruncate := run_truncate h.mounted.tree.wf (opens_of_noDots h.mounted.tree.wf (h.noDots hp) _) bytes.length
  cases hn : d.node p with
  | none =>
    obtain ⟨status, hl, hmissing⟩ := h.missing hp hn
    rw [hl] at htruncate
    rw [h.run_asked hp (fun path => FatOperations.truncate path bytes.length) htruncate, run_ite,
      if_pos hmissing.neg.2]
    exact h.fails rfl (by decide) hmissing.neg (.misses hne hmissing)
  | some node =>
    cases node with
    | directory => exact absurd hn hdir
    | file old =>
      obtain ⟨k, hk, -, -⟩ := h.file hp hn
      obtain ⟨hsmall, hright, hcuts⟩ := hable k hk
      by_cases hlarge : s.TooLarge (s.entry k) bytes.length
      · have hsize : toSize (bytes.length : ℤ) = bytes.length := toSize_natCast _ (by omega)
        have hstatus : -2 ^ 31 ≤ (-ENOSPC : ℤ) ∧ (-ENOSPC : ℤ) < 0 := by decide
        rw [hk] at htruncate
        simp only [hsize, if_pos hlarge] at htruncate
        rw [h.run_asked hp (fun path => FatOperations.truncate path bytes.length) htruncate, run_ite,
          if_pos hstatus.2]
        exact h.fails rfl (by decide) hstatus (.overflows hne hn (hbytes ▸ ⟨k, hk, hlarge⟩))
      · have hroom : ¬ Lacks s (d.path p) bytes.length := not_lacks hk hlarge
        obtain ⟨t, u, hrun, hwrite, hu⟩ :=
          h.mounted.stores (h.noDots hp) (h.node_eq hp hn) hk hjoined hsmall hlarge hright hcuts
        rw [h.names hp] at hu
        have hdriver : (c.driving t).driver = some t := rfl
        have hnonneg : ¬ (bytes.length : ℤ) < 0 := not_lt.mpr (Int.natCast_nonneg _)
        rw [h.run_asked hp (fun path => FatOperations.truncate path bytes.length) hrun, run_ite,
          if_neg (lt_irrefl _),
          run_bind, h.cStr_path hp, run_drive hdriver hwrite, Option.bind_some, run_ite, if_neg hnonneg,
          run_counted (ascii "Wrote ") (ascii " bytes to ") (ascii ".\n") rfl (by decide)
            (by decide) (by decide) (by omega)]
        exact ⟨_, _, hbytes ▸ .writes hne hn (hbytes ▸ hroom), (h.driving hu (h.here_put hdir)).answers _ rfl⟩

section Contents
variable (h : Standing c s d) (hp : p ≠ [] ∧ (0 : UInt8) ∉ p) (hdir : d.node p ≠ some .directory)
  (hsmall : ∀ content, d.node p = some (.file content) → content.length < 2 ^ 31)
include h hp hdir hsmall

theorem run_withContents (name : Str) (use : Str → List UInt8 → Command FlatDevice Unit) :
    (∃ status, Missing d.store (d.target p) status ∧ withContents around [name, p] use c =
      tprintf "Couldn't read filesize: %s (%d)\n" (statusArgs around status) (c.driving s.load)) ∨
    (d.node p = some (.file []) ∧
      withContents around [name, p] use c = tprintf "File is empty.\n" [] (c.driving s.load)) ∨
    ∃ content t, d.node p = some (.file content) ∧ content ≠ [] ∧ Mounted t d.store ∧
      withContents around [name, p] use c = use (d.path p) content (c.driving t) := by
  have hsize := h.mounted.run_getsize (h.noDots hp)
  rw [withContents]
  cases hn : d.node p with
  | none =>
    obtain ⟨status, hl, hmissing⟩ := h.missing hp hn
    rw [hl] at hsize
    refine .inl ⟨status, hmissing, ?_⟩
    rw [h.run_asked hp FatOperations.getsize hsize]
    dsimp only
    rw [run_ite, if_pos hmissing.neg.2.ne]
  | some node =>
    cases node with
    | directory => exact absurd hn hdir
    | file content =>
      obtain ⟨k, hk, hfile, hlen⟩ := h.file hp hn
      rw [hk] at hsize
      dsimp only at hsize
      rw [hlen] at hsize
      refine .inr ?_
      rw [h.run_asked hp FatOperations.getsize hsize]
      dsimp only
      rw [run_ite, if_neg (not_not.mpr rfl), run_ite]
      by_cases hempty : content = []
      · rw [hempty]
        exact .inl ⟨rfl, if_pos rfl⟩
      · obtain ⟨t, hread, ht⟩ := h.mounted.load.reads (h.noDots hp) (h.node_eq hp hn) (hsmall content hn)
        have hdriver : (c.driving s.load).driver = some s.load := rfl
        have hnonneg : ¬ (content.length : ℤ) < 0 := not_lt.mpr (Int.natCast_nonneg _)
        refine .inr ⟨content, t, rfl, hempty, ht, ?_⟩
        rw [if_neg fun hzero => hempty (List.eq_nil_of_length_eq_zero hzero), run_bind, h.cStr_path hp,
          run_drive hdriver hread, Option.bind_some]
        dsimp only
        rw [run_ite, if_neg hnonneg, run_ite, if_neg (lt_irrefl _)]
        rfl

theorem read_does : Handled around c s d [ascii "read", p] (read around [ascii "read", p] c) := by
  have hcount : ¬ [ascii "read", p].length ≠ 2 := not_not.mpr rfl
  rw [read, if_neg hcount]
  rcases h.run_withContents hp hdir hsmall (ascii "read") fun path buffer => do
      tprintf "%s: [" [.string (cStr path)]
      printEach buffer
      tprintf "]\n" [] with ⟨status, hmissing, hrun⟩ | ⟨hn, hrun⟩ | ⟨content, t, hn, hne, ht, hrun⟩
  · rw [hrun]
    exact h.fails rfl (by decide) hmissing.neg (.unread (.inl rfl) hmissing)
  · rw [hrun, run_plain (by decide)]
    exact ⟨_, d, .empty (.inl rfl) hn, (h.looked h.mounted.load).answers _ rfl⟩
  · rw [hrun, h.cStr_path hp, run_bind, run_between [] (ascii ": [") rfl (by decide) (by decide), Option.bind_some,
      run_bind,
      run_printEach, Option.bind_some, run_plain (by decide), shown_shown, shown_shown, List.nil_append,
      ← List.append_assoc]
    exact ⟨_, d, .reads hn hne, (h.looked ht).answers _ rfl⟩

theorem sha1_does : Handled around c s d [ascii "sha1", p] (sha1 around [ascii "sha1", p] c) := by
  have hthree : ¬ [ascii "sha1", p].length = 3 := by simp
  have htwo : ¬ [ascii "sha1", p].length ≠ 2 := not_not.mpr rfl
  rw [sha1, if_neg hthree, if_neg htwo]
  rcases h.run_withContents hp hdir hsmall (ascii "sha1") fun _ buffer => do
      let hash ← StateT.lift (report around buffer)
      tprintf "Result: %s\n" [.string hash] with ⟨status, hmissing, hrun⟩ | ⟨hn, hrun⟩ |
        ⟨content, t, hn, hne, ht, hrun⟩
  · rw [hrun]
    exact h.fails rfl (by decide) hmissing.neg (.unread (.inr rfl) hmissing)
  · rw [hrun, run_plain (by decide)]
    exact ⟨_, d, .empty (.inr rfl) hn, (h.looked h.mounted.load).answers _ rfl⟩
  · have hlen := hsmall content hn
    rw [hrun, run_bind, run_lift (report_hex around (by omega)), Option.bind_some,
      run_between (ascii "Result: ") (ascii "\n") rfl (by decide) (by decide)]
    exact ⟨_, d, .hashes hn hne, (h.looked ht).answers _ rfl⟩

end Contents

theorem sha1_text_does (h : Standing c s d) {text : Str} (hsmall : text.length < 2 ^ 31) :
    Handled around c s d [ascii "sha1", p, text] (sha1 around [ascii "sha1", p, text] c) := by
  have hthree : [ascii "sha1", p, text].length = 3 := rfl
  rw [sha1, if_pos hthree, run_bind, run_lift (report_hex around (by change text.length + 63 < 2 ^ 32; omega)),
    Option.bind_some, run_between (ascii "Result: ") (ascii "\n") rfl (by decide) (by decide)]
  exact ⟨_, d, .hashesText, h.answers _ rfl⟩

theorem remove_does (h : Standing c s d) (hp : p ≠ [] ∧ (0 : UInt8) ∉ p) :
    Handled around c s d [ascii "rm", p] (remove around [ascii "rm", p] c) := by
  have hcount : ¬ [ascii "rm", p].length ≠ 2 := not_not.mpr rfl
  have hunlink := run_unlink h.mounted.tree.wf (opens_of_noDots h.mounted.tree.wf (h.noDots hp) _)
  rw [remove, if_neg hcount]
  cases hn : d.node p with
  | none =>
    obtain ⟨status, hl, hmissing⟩ := h.missing hp hn
    rw [hl] at hunlink
    rw [h.run_asked hp FatOperations.unlink hunlink, run_ite, if_pos hmissing.neg.2.ne]
    exact h.fails rfl (by decide) hmissing.neg (.unremoved hmissing)
  | some node =>
    cases node with
    | directory =>
      obtain ⟨k, hk, hd⟩ := h.directory hp hn
      have hstatus : -2 ^ 31 ≤ (-EISDIR : ℤ) ∧ (-EISDIR : ℤ) < 0 := by decide
      rw [hk] at hunlink
      simp only [if_pos hd] at hunlink
      rw [h.run_asked hp FatOperations.unlink hunlink, run_ite, if_pos hstatus.2.ne]
      exact h.fails rfl (by decide) hstatus (.keeps hn)
    | file content =>
      obtain ⟨t, hrun, ht⟩ := h.mounted.removes (h.noDots hp) (h.node_eq hp hn)
      rw [h.names hp] at ht
      have hnot := ne_directory hn
      rw [h.run_asked hp FatOperations.unlink hrun, run_ite, if_neg (not_not.mpr rfl), h.cStr_path hp,
        run_between (ascii "Removed ") (ascii ".\n") rfl (by decide) (by decide)]
      exact ⟨_, _, .removes hn, (h.driving ht (h.here_put hnot)).answers _ rfl⟩

theorem cd_does (h : Standing c s d) (hp : p ≠ [] ∧ (0 : UInt8) ∉ p) :
    Handled around c s d [ascii "cd", p] (cd around [ascii "cd", p] c) := by
  have hcount : ¬ [ascii "cd", p].length ≠ 2 := not_not.mpr rfl
  have hisdir := h.mounted.run_isdir (h.noDots hp)
  have hloaded := h.looked h.mounted.load
  rw [cd, if_neg hcount]
  cases hn : d.node p with
  | none =>
    obtain ⟨status, hl, hmissing⟩ := h.missing hp hn
    rw [hl] at hisdir
    rw [h.run_asked hp FatOperations.isdir hisdir, run_ite, if_neg hmissing.neg.2.ne, run_ite,
      if_pos hmissing.neg.2]
    exact h.fails rfl (by decide) hmissing.neg (.strays hmissing)
  | some node =>
    cases node with
    | directory =>
      obtain ⟨k, hk, hd⟩ := h.directory hp hn
      rw [hk] at hisdir
      simp only [if_pos hd] at hisdir
      rw [h.run_asked hp FatOperations.isdir hisdir, run_ite, if_neg one_ne_zero, run_ite, if_neg (by decide)]
      have hmoved : Standing { c.driving s.load with path := d.path p } s.load { d with cwd := d.target p } :=
        ⟨rfl, rfl, hloaded.serial, hloaded.mounted, h.target_legible hp, hn⟩
      refine ⟨_, _, .moves hn, ?_⟩
      change Answered c (some ((), { c.driving s.load with path := d.path p })) _ _
      rw [← shown_nil { c.driving s.load with path := d.path p }]
      exact hmoved.answers [] rfl
    | file content =>
      obtain ⟨k, hk, hfile, -⟩ := h.file hp hn
      rw [hk] at hisdir
      simp only [if_neg (Bool.eq_false_iff.mp hfile)] at hisdir
      rw [h.run_asked hp FatOperations.isdir hisdir, run_ite, if_pos rfl, run_plain (by decide)]
      exact ⟨_, d, .stays hn, hloaded.answers _ rfl⟩

theorem size_does (h : Standing c s d) (hp : p ≠ [] ∧ (0 : UInt8) ∉ p) (hdir : d.node p ≠ some .directory) :
    Handled around c s d [ascii "size", p] (printSize around [ascii "size", p] c) := by
  have hcount : ¬ [ascii "size", p].length ≠ 2 := not_not.mpr rfl
  have hsize := h.mounted.run_getsize (h.noDots hp)
  rw [printSize, if_neg hcount]
  cases hn : d.node p with
  | none =>
    obtain ⟨status, hl, hmissing⟩ := h.missing hp hn
    rw [hl] at hsize
    rw [h.run_asked hp FatOperations.getsize hsize]
    dsimp only
    rw [run_ite, if_pos hmissing.neg.2.ne]
    exact h.fails rfl (by decide) hmissing.neg (.unsized hmissing)
  | some node =>
    cases node with
    | directory => exact absurd hn hdir
    | file content =>
      obtain ⟨k, hk, hfile, hlen⟩ := h.file hp hn
      rw [hk] at hsize
      dsimp only at hsize
      rw [hlen] at hsize
      rw [h.run_asked hp FatOperations.getsize hsize]
      dsimp only
      have hsmall : (s.entry k).len < 2 ^ 64 := (s.entry k).length.isLt
      rw [run_ite, if_neg (not_not.mpr rfl), h.cStr_path hp,
        run_sized (ascii "Filesize of ") (ascii ": ") (ascii "\n") rfl (by decide) (by decide) (by decide)
          (hlen ▸ hsmall)]
      exact ⟨_, d, .sizes hn, (h.looked h.mounted.load).answers _ rfl⟩

section Listings
variable {t : Fs} (pieces : List Str) {path : Str} {status : ℤ} {items : List (Str × ℕ)}

theorem run_ls (h : Standing c s d) (hcount : pieces.length = 1 ∨ pieces.length = 2)
    (hpath : (if pieces.length = 2 then simplifyPathIn c.path (pieces.getD 1 []) else c.path) = path)
    (htext : (0 : UInt8) ∉ path) (hread : readdir path s = some ((status, items), t)) :
    ls around pieces c = (do
      listItems items
      if status ≠ 0 then tprintf "readdir(%s) failed: %s (%d)\n" (.string path :: statusArgs around status)
      else pure ()) (c.driving t) := by
  have hget : (get : Command FlatDevice (InputContext FlatDevice)) c = some (c, c) := rfl
  have hpieces : ¬ (pieces.length ≠ 1 ∧ pieces.length ≠ 2) := by omega
  rw [ls, h.run_ready, run_ite, if_neg hpieces, run_bind, hget, Option.bind_some]
  dsimp only
  rw [hpath, cStr_text htext, run_bind, run_drive h.driver hread, Option.bind_some]

theorem run_listed (h : Standing c s d) (hcount : pieces.length = 1 ∨ pieces.length = 2) {dir : List Str}
    (hdir : Legible dir)
    (hpath : (if pieces.length = 2 then simplifyPathIn c.path (pieces.getD 1 []) else c.path) = spelled dir)
    (hm : d.store dir = some .directory) :
    ∃ names, Mounted.Lists d.store dir names ∧
      Answered c (ls around pieces c) (names.flatMap (· ++ ascii "\n")) d := by
  obtain ⟨items, hread, htext, hlists⟩ := h.mounted.lists hdir.noDots (hdir.pathNames.symm ▸ hm)
  rw [hdir.pathNames] at hlists
  refine ⟨_, hlists, ?_⟩
  rw [run_ls pieces h hcount hpath hdir.text hread, run_bind, run_listItems htext, Option.bind_some, run_ite,
    if_neg (not_not.mpr rfl), run_pure]
  exact (h.looked h.mounted.load).answers _ rfl

theorem ls_here_does (h : Standing c s d) : Handled around c s d [ascii "ls"] (ls around [ascii "ls"] c) := by
  obtain ⟨names, hlists, hends⟩ := run_listed [ascii "ls"] h (.inl rfl) h.legible h.path h.here
  exact ⟨_, d, .listsHere hlists, hends⟩

theorem ls_does (h : Standing c s d) (hp : p ≠ [] ∧ (0 : UInt8) ∉ p) :
    Handled around c s d [ascii "ls", p] (ls around [ascii "ls", p] c) := by
  have hpath : simplifyPathIn c.path p = d.path p := by
    rw [h.path, Desk.simplifyPathIn_path h.legible hp.1]
  by_cases hn : d.node p = some .directory
  · obtain ⟨names, hlists, hends⟩ := run_listed [ascii "ls", p] h (.inr rfl) (h.target_legible hp) hpath hn
    exact ⟨_, d, .lists hn hlists, hends⟩
  · have hread := h.mounted.unlists (h.noDots hp) ((h.names hp).symm ▸ hn)
    have hfails : ∀ status : ℤ, -2 ^ 31 ≤ status ∧ status < 0 →
        readdir (d.path p) s = some ((status, []), s.load) → Answered c (ls around [ascii "ls", p] c)
          (failed around (ascii "readdir(" ++ d.path p ++ ascii ") failed") status) d := by
      intro status hstatus hread
      have hformat : ascii "readdir(%s) failed: %s (%d)\n" =
        ascii "readdir(" ++ 37 :: 115 :: (ascii ") failed" ++ ascii ": %s (%d)\n") := rfl
      have htext :
          Printf.text (ascii "readdir(%s) failed: %s (%d)\n") (.string (d.path p) :: statusArgs around status) =
          some (failed around (ascii "readdir(" ++ d.path p ++ ascii ") failed") status) := by
        rw [hformat, text_chars (by decide), text_string, text_failed around (by decide) hstatus.1 hstatus.2]
        simp only [failed, Option.map_some, List.append_assoc]
      rw [run_ls [ascii "ls", p] h (.inr rfl) hpath (h.text hp) hread, run_bind, listItems, run_pure,
        Option.bind_some, run_ite, if_pos hstatus.2.ne, run_tprintf htext]
      exact (h.looked h.mounted.load).answers _ rfl
    cases hnode : d.node p with
    | none =>
      obtain ⟨status, hl, hmissing⟩ := h.missing hp hnode
      rw [hl] at hread
      exact ⟨_, d, .unlisted (.inr hmissing), hfails status hmissing.neg hread⟩
    | some node =>
      cases node with
      | directory => exact absurd hnode hn
      | file content =>
        obtain ⟨k, hk, -, -⟩ := h.file hp hnode
        rw [hk] at hread
        exact ⟨_, d, .unlisted (.inl ⟨⟨content, hnode⟩, rfl⟩), hfails _ (by decide) hread⟩

end Listings

section Serial
variable {bytes rest : List UInt8}

theorem run_received (hserial : c.serial = escaped bytes ++ rest) :
    Shell.received c = some (bytes, { c with serial := rest }) := by
  rw [Shell.received, hserial, receive_escaped]
  rfl

theorem heard (h : Standing c s d) (rest : List UInt8) :
    Standing { c with serial := rest } s { d with incoming := rest } :=
  ⟨h.driver, h.path, rfl, h.mounted, h.legible, h.here⟩

theorem receive_does (h : Standing c s d) (hbytes : d.incoming = escaped bytes ++ rest) :
    Handled around c s d [ascii "readserial"] (readSerial around [ascii "readserial"] c) := by
  have hfew : ¬ 2 < [ascii "readserial"].length := by simp
  have hcount : ¬ [ascii "readserial"].length = 2 := by simp
  rw [readSerial, if_neg hfew, if_neg hcount, run_bind, run_received (h.serial.trans hbytes), Option.bind_some,
    run_bind,
    run_plain (by decide), Option.bind_some, run_bind, run_printEach, Option.bind_some, run_plain (by decide),
    shown_shown, shown_shown, ← List.append_assoc]
  exact ⟨_, _, .receives hbytes, (h.heard rest).answers _ rfl⟩

theorem store_does (h : Standing c s d) (hp : p ≠ [] ∧ (0 : UInt8) ∉ p)
    (hable : ∀ k, s.lookup (d.path p) = .ok k → (s.entry k).isDirectory = false → (s.entry k).isFile ∧
      ∃ bytes rest, d.incoming = escaped bytes ++ rest ∧ bytes ≠ [] ∧ Stores s k bytes.length) :
    Handled around c s d [ascii "readserial", p] (readSerial around [ascii "readserial", p] c) := by
  have hfew : ¬ 2 < [ascii "readserial", p].length := lt_irrefl 2
  have hcount : [ascii "readserial", p].length = 2 := rfl
  have hisfile := h.mounted.run_isfile (h.noDots hp)
  have hloaded := h.looked h.mounted.load
  rw [readSerial, if_neg hfew, if_pos hcount]
  cases hn : d.node p with
  | none =>
    obtain ⟨status, hl, hmissing⟩ := h.missing hp hn
    rw [hl] at hisfile
    rw [h.run_asked hp FatOperations.isfile hisfile, run_ite, if_pos hmissing.neg.2]
    exact h.fails rfl (by decide) hmissing.neg (.unchecked hmissing)
  | some node =>
    cases node with
    | directory =>
      obtain ⟨k, hk, hd⟩ := h.directory hp hn
      have hnot : ¬ (s.entry k).isFile := Bool.eq_false_iff.mp (Image.not_file hd)
      rw [hk] at hisfile
      simp only [if_neg hnot] at hisfile
      rw [h.run_asked hp FatOperations.isfile hisfile, run_ite, if_neg (lt_irrefl _), run_ite, if_pos rfl,
        h.cStr_path hp, run_between [] (ascii " is a directory.\n") rfl (by decide) (by decide)]
      exact ⟨_, d, .unstored hn, hloaded.answers _ rfl⟩
    | file old =>
      obtain ⟨k, hk, hfile, -⟩ := h.file hp hn
      obtain ⟨hisFile, bytes, rest, hbytes, hne, hsmall, hright, hcuts⟩ := hable k hk hfile
      have hnot := ne_directory hn
      rw [hk] at hisfile
      simp only [if_pos hisFile] at hisfile
      rw [h.run_asked hp FatOperations.isfile hisfile, run_ite, if_neg (by decide), run_ite, if_neg one_ne_zero,
        run_bind, run_received (hloaded.serial.trans hbytes), Option.bind_some, run_bind, h.cStr_path hp]
      have hheard := hloaded.heard rest
      have hsize : toSize (bytes.length : ℤ) = bytes.length := toSize_natCast _ (by omega)
      by_cases hlarge : s.load.TooLarge (s.load.entry k) bytes.length
      · have htruncate :=
          run_truncate hheard.mounted.tree.wf (opens_of_noDots hheard.mounted.tree.wf (h.noDots hp) _) bytes.length
        have hstatus : -2 ^ 31 ≤ (-ENOSPC : ℤ) ∧ (-ENOSPC : ℤ) < 0 := by decide
        have hk' : s.load.lookup (d.path p) = .ok k := hk
        rw [hk'] at htruncate
        simp only [hsize, if_pos hlarge] at htruncate
        rw [run_drive hheard.driver htruncate, Option.bind_some, run_ite, if_pos hstatus.2,
          run_failed around (ascii "Couldn't truncate file") rfl (by decide) hstatus.1 hstatus.2]
        exact ⟨_, _, .discards hn hbytes ⟨k, hk, hlarge⟩, (hheard.looked hheard.mounted.load).answers _ rfl⟩
      · have hroom : ¬ Lacks s (d.path p) bytes.length := not_lacks hk hlarge
        obtain ⟨t, u, hrun, hwrite, hu⟩ := h.mounted.load.stores (h.noDots hp) (h.node_eq hp hn) hk
          (List.length_pos_of_ne_nil hne) hsmall hlarge hright hcuts
        rw [h.names hp] at hu
        have hdriver : (({ c.driving s.load with serial := rest } : InputContext FlatDevice).driving t).driver =
          some t := rfl
        have hnonneg : ¬ (bytes.length : ℤ) < 0 := not_lt.mpr (Int.natCast_nonneg _)
        rw [run_drive hheard.driver hrun, Option.bind_some, run_ite, if_neg (lt_irrefl _), run_bind,
          run_drive hdriver hwrite, Option.bind_some, run_ite, if_neg hnonneg,
          run_bytes (show bytes.length < 2 ^ 64 by omega)]
        exact ⟨_, _, .stores hn hbytes hroom, (hheard.driving hu (h.here_put hnot)).answers _ rfl⟩

end Serial

end Standing

end Thorn.Shell
