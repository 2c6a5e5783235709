import Thorn.FatTree

set_option autoImplicit false

namespace Thorn.FatImage.Image
open Paths FatTypes LinkedChain
variable {I J : Image}

inductive Named (I : Image) : List Str → ℕ → Prop
  | root : Named I [] I.rootSlot
  | child {names : List Str} {p k : ℕ} (hp : Named I names p) (hk : I.Child p k) :
      Named I (names ++ [(I.entry k).name.toStr]) k

def UniqueNames (I : Image) : Prop := ∀ p k l, I.Live p → I.Child p k → I.Child p l →
  (I.entry k).name.toStr = (I.entry l).name.toStr → k = l

section Named
variable {names pre : List Str} {p k : ℕ}

theorem Named.live (h : I.Named names k) : I.Live k := by
  induction h with
  | root => exact .root
  | child _ hk ih => exact .child ih hk

theorem Named.unique (hw : I.WellFormed) (h : I.Named names k) (h' : I.Named pre k) : names = pre := by
  induction h generalizing pre with
  | root =>
    generalize hr : I.rootSlot = r at h'
    cases h' with
    | root => rfl
    | child hp hk => exact absurd hr.symm (hw.child_ne_root hp.live hk)
  | child hp hk ih =>
    cases h' with
    | root => exact absurd rfl (hw.child_ne_root hp.live hk)
    | child hp' hk' =>
      obtain rfl := hw.child_unique hp.live hp'.live hk hk'
      rw [ih hp']

theorem UniqueNames.named_eq (hu : I.UniqueNames) {l : ℕ} (h : I.Named names k) (h' : I.Named names l) :
    k = l := by
  induction h generalizing l with
  | root =>
    generalize hn : ([] : List Str) = ns at h'
    cases h' with
    | root => rfl
    | child hp' hk' => simp at hn
  | @child names p k hp hk ih =>
    generalize hn : names ++ [(I.entry k).name.toStr] = ns at h'
    cases h' with
    | root => simp at hn
    | @child names' p' l hp' hk' =>
      obtain ⟨rfl, hname⟩ := List.append_inj' hn rfl
      obtain rfl := ih hp'
      exact hu p k l hp.live hk hk' (List.cons.inj hname).1

theorem Named.through (h : I.Named names k) (hpre : pre <+: names) (hne : pre ≠ names) :
    ∃ q, I.Named pre q ∧ (I.entry q).isDirectory := by
  induction h with
  | root => exact absurd (List.prefix_nil.mp hpre) hne
  | @child names p k hp hk ih =>
    have hpre' : pre <+: names := (List.prefix_concat_iff.mp hpre).resolve_left hne
    by_cases heq : pre = names
    · subst heq
      exact ⟨p, hp, hk.1⟩
    · exact ih hpre' heq

theorem Named.walkDirs (h : I.Named pre p) (ha : I.AvoidsCopies p names) (hr : I.walkDirs p names = .ok k) :
    I.Named (pre ++ names) k := by
  induction names generalizing pre p with
  | nil =>
    cases hr
    rwa [List.append_nil]
  | cons name names ih =>
    by_cases hw : I.Walkable p
    · cases hk' : I.findSlot p name with
      | none => simp [Image.walkDirs, hw, hk'] at hr
      | some k' =>
        obtain ⟨hm, hrest⟩ := ha hw k' hk'
        have hc := h.child (findSlot_child hw hk' hm)
        rw [(findSlot_some hk').2.1] at hc
        simp only [Image.walkDirs, hw, hk', ite_true] at hr
        split_ifs at hr with hf
        have h' := ih hc hrest hr
        rwa [List.append_assoc, List.singleton_append] at h'
    · simp [Image.walkDirs, hw] at hr

theorem Named.resolve (h : I.Named pre p) (ha : I.AvoidsCopies p names) (hr : I.resolve p names = .ok k) :
    I.Named (pre ++ names) k := by
  induction names generalizing pre p with
  | nil =>
    cases hr
    rwa [List.append_nil]
  | cons name names ih =>
    by_cases hw : I.Walkable p
    · cases hk' : I.findSlot p name with
      | none => simp [Image.resolve, hw, hk'] at hr
      | some k' =>
        obtain ⟨hm, hrest⟩ := ha hw k' hk'
        have hc := h.child (findSlot_child hw hk' hm)
        rw [(findSlot_some hk').2.1] at hc
        simp only [Image.resolve, hw, hk', ite_true] at hr
        split_ifs at hr with hn hf
        · cases hr
          rwa [hn]
        · have h' := ih hc hrest hr
          rwa [List.append_assoc, List.singleton_append] at h'
    · simp [Image.resolve, hw] at hr

end Named

section Concat

def lookIn (I : Image) (name : Str) : Except ℤ ℕ → Except ℤ ℕ
  | .error status => .error status
  | .ok q => if I.Walkable q then
      match I.findSlot q name with
      | none => .error (-ENOENT)
      | some k => .ok k
    else .error (-ENOTDIR)

theorem resolve_concat (p : ℕ) (names : List Str) (name : Str) :
    I.resolve p (names ++ [name]) = I.lookIn name (I.walkDirs p names) := by
  induction names generalizing p with
  | nil =>
    rw [List.nil_append, resolve, walkDirs, lookIn]
    by_cases hw : I.Walkable p
    · rw [if_pos hw, if_pos hw]
      cases I.findSlot p name with
      | none => rfl
      | some k => rfl
    · rw [if_neg hw, if_neg hw]
  | cons first names ih =>
    rw [List.cons_append, resolve, walkDirs]
    by_cases hw : I.Walkable p
    · rw [if_pos hw, if_pos hw]
      cases I.findSlot p first with
      | none => rfl
      | some k =>
        dsimp only
        rw [if_neg (by simp)]
        by_cases hf : (I.entry k).isFile
        · rw [if_pos hf, if_pos hf]
          rfl
        · rw [if_neg hf, if_neg hf, ih k]
    · rw [if_neg hw, if_neg hw]
      rfl

theorem resolve_prefix {p k : ℕ} {names rest : List Str} (hr : I.resolve p (names ++ rest) = .ok k)
    (hne : rest ≠ []) : ∃ q, I.resolve p names = .ok q ∧ I.Walkable q := by
  induction names generalizing p with
  | nil =>
    refine ⟨p, rfl, ?_⟩
    obtain ⟨name, rest, rfl⟩ := List.exists_cons_of_ne_nil hne
    rw [List.nil_append, resolve] at hr
    by_contra hw
    rw [if_neg hw] at hr
    cases hr
  | cons name names ih =>
    rw [List.cons_append, resolve] at hr
    rw [resolve]
    by_cases hw : I.Walkable p
    · rw [if_pos hw] at hr ⊢
      cases hk : I.findSlot p name with
      | none => simp [hk] at hr
      | some q =>
        simp only [hk] at hr ⊢
        rw [if_neg (by simp [hne])] at hr
        split_ifs at hr with hf
        obtain ⟨q', hq, hw'⟩ := ih hr
        by_cases hn : names = []
        · subst hn
          cases hq
          exact ⟨q, if_pos rfl, hw'⟩
        · exact ⟨q', by rw [if_neg hn, if_neg hf, hq], hw'⟩
    · rw [if_neg hw] at hr
      cases hr

theorem AvoidsCopies.take {p : ℕ} {names rest : List Str} (ha : I.AvoidsCopies p (names ++ rest)) :
    I.AvoidsCopies p names := by
  induction names generalizing p with
  | nil => exact trivial
  | cons name names ih => exact fun hw k hk => ⟨(ha hw k hk).1, ih (ha hw k hk).2⟩

end Concat

def Dotless (names : List Str) : Prop := dotName ∉ names ∧ dotDotName ∉ names

theorem Dotless.take {names rest : List Str} (h : Dotless (names ++ rest)) : Dotless names :=
  ⟨fun hm => h.1 (List.mem_append_left _ hm), fun hm => h.2 (List.mem_append_left _ hm)⟩

theorem Dotless.last {names pre : List Str} {name : Str} (h : Dotless names) (hp : pre ++ [name] <+: names) :
    Dotless [name] := by
  have hm : name ∈ names := hp.subset (by simp)
  simp only [Dotless, List.mem_singleton]
  exact ⟨fun he => h.1 (he ▸ hm), fun he => h.2 (he ▸ hm)⟩

theorem WellFormed.findSlot_child (h : I.WellFormed) {q k : ℕ} {name : Str} (hq : I.Live q) (hw : I.Walkable q)
    (hd : Dotless [name]) (hk : I.findSlot q name = some k) : I.Child q k :=
  Image.findSlot_child hw hk (h.avoidsCopies hq hd.1 hd.2 hw k hk).1

def FindsAlike (I J : Image) (names : List Str) : Prop :=
  ∀ pre q name, I.Named pre q → pre ++ [name] <+: names →
  J.Walkable q = I.Walkable q ∧ (I.Walkable q → J.findSlot q name = I.findSlot q name) ∧
    ∀ k, I.Child q k → (I.entry k).name.toStr = name → (J.entry k).isFile = (I.entry k).isFile

namespace FindsAlike
variable {names : List Str}

theorem take {rest : List Str} (h : I.FindsAlike J (names ++ rest)) : I.FindsAlike J names :=
  fun pre q name hq hp => h pre q name hq (hp.trans (List.prefix_append _ _))

theorem walkDirs_from (hw : I.WellFormed) (h : I.FindsAlike J names)
    (hd : Dotless names) {pre rest : List Str} {p : ℕ}
    (hp : I.Named pre p) (hn : pre ++ rest = names) : J.walkDirs p rest = I.walkDirs p rest := by
  induction rest generalizing pre p with
  | nil => rfl
  | cons name rest ih =>
    have hpre : pre ++ [name] <+: names := ⟨rest, by rw [List.append_assoc, List.singleton_append, hn]⟩
    have hname := hd.last hpre
    obtain ⟨hwalk, hfind, hfile⟩ := h pre p name hp hpre
    rw [Image.walkDirs, Image.walkDirs, hwalk]
    by_cases hW : I.Walkable p
    · rw [if_pos hW, if_pos hW, hfind hW]
      cases hk : I.findSlot p name with
      | none => rfl
      | some k =>
        have hc := hw.findSlot_child hp.live hW hname hk
        have hk' := hp.child hc
        have hkn := (findSlot_some hk).2.1
        rw [hkn] at hk'
        simp only [hfile k hc hkn]
        rw [ih hk' (by rw [List.append_assoc, List.singleton_append, hn])]
    · rw [if_neg hW, if_neg hW]

theorem walkDirs (hw : I.WellFormed) (h : I.FindsAlike J names) (hd : Dotless names) :
    J.walkDirs I.rootSlot names = I.walkDirs I.rootSlot names := h.walkDirs_from hw hd .root rfl

theorem resolve (hw : I.WellFormed) (h : I.FindsAlike J names) (hd : Dotless names) :
    J.resolve I.rootSlot names = I.resolve I.rootSlot names := by
  rcases List.eq_nil_or_concat' names with rfl | ⟨init, name, rfl⟩
  · rfl
  · rw [resolve_concat, resolve_concat, h.take.walkDirs hw hd.take]
    cases hq : I.walkDirs I.rootSlot init with
    | error status => rfl
    | ok q =>
      have hn := Named.root.walkDirs (hw.avoidsCopies .root hd.take.1 hd.take.2) hq
      obtain ⟨hwalk, hfind, -⟩ := h _ q name hn (by rw [List.nil_append])
      rw [lookIn, lookIn, hwalk]
      by_cases hW : I.Walkable q
      · rw [if_pos hW, if_pos hW, hfind hW]
      · rw [if_neg hW, if_neg hW]

end FindsAlike

section Children
variable {q k : ℕ} {name : Str}

theorem leaf_of_file (h : (I.entry q).isDirectory = false) (k : ℕ) : ¬ I.Child q k := fun hk => by
  rw [hk.1] at h
  cases h

theorem WellFormed.ne_root_of_file (hw : I.WellFormed) (h : (I.entry k).isDirectory = false) : k ≠ I.rootSlot := by
  rintro rfl
  rw [hw.root_directory] at h
  cases h

theorem WellFormed.child_iff (h : I.WellFormed) (hq : I.Live q) :
    I.Child q k ↔ (I.entry q).isDirectory ∧ k ∈ (I.slots q).drop (I.copies q) ∧ I.Live k := by
  constructor
  · intro hk
    exact ⟨hk.1, hk.2.1, .child hq hk⟩
  · rintro ⟨hd, hm, hk⟩
    exact ⟨hd, hm, (h.owns k hk).not_free⟩

def OneNamed (I : Image) (q : ℕ) (name : Str) : Prop := ∀ k l, I.Child q k → I.Child q l →
  (I.entry k).name.toStr = name → (I.entry l).name.toStr = name → k = l

theorem UniqueNames.oneNamed (h : I.UniqueNames) (hq : I.Live q) (name : Str) : I.OneNamed q name :=
  fun k l hk hl hkn hln => h q k l hq hk hl (hkn.trans hln.symm)

theorem WellFormed.findSlot_iff (h : I.WellFormed) (hu : I.OneNamed q name) (hq : I.Live q) (hw : I.Walkable q)
    (hd : Dotless [name]) : I.findSlot q name = some k ↔ I.Child q k ∧ (I.entry k).name.toStr = name := by
  constructor
  · intro hk
    exact ⟨h.findSlot_child hq hw hd hk, (findSlot_some hk).2.1⟩
  · rintro ⟨hk, hname⟩
    cases hl : I.findSlot q name with
    | none =>
      have hno := List.find?_eq_none.mp hl k hk.mem_slots
      simp [hname, hk.2.2] at hno
    | some l =>
      have hln := (findSlot_some hl).2.1
      rw [hu l k (h.findSlot_child hq hw hd hl) hk hln hname]

theorem WellFormed.walkable_iff (h : I.WellFormed) (hq : I.Live q) :
    I.Walkable q ↔ (I.entry q).isDirectory := by
  rw [Image.walkable_iff]
  refine ⟨fun hw => hw.2, fun hd => ⟨?_, hd⟩⟩
  have := (h.directory q hq hd).1
  omega

theorem findSlot_alike (hI : I.WellFormed) (hJ : J.WellFormed) (hu : I.OneNamed q name) (hq : I.Live q)
    (hq' : J.Live q) (hw : I.Walkable q) (hw' : J.Walkable q) (hd : Dotless [name])
    (h : ∀ k, J.Child q k ∧ (J.entry k).name.toStr = name ↔ I.Child q k ∧ (I.entry k).name.toStr = name) :
    J.findSlot q name = I.findSlot q name := by
  have huJ : J.OneNamed q name := fun k l hk hl hkn hln =>
    have hk' := (h k).mp ⟨hk, hkn⟩
    have hl' := (h l).mp ⟨hl, hln⟩
    hu k l hk'.1 hl'.1 hk'.2 hl'.2
  ext k
  rw [hJ.findSlot_iff huJ hq' hw' hd, hI.findSlot_iff hu hq hw hd, h k]

theorem FindsAlike.resolve_lost (hI : I.WellFormed) (hJ : J.WellFormed) {init : List Str} {d : ℕ}
    (h : I.FindsAlike J init) (hdot : Dotless (init ++ [name]))
    (hres : I.resolve I.rootSlot (init ++ [name]) = .ok d)
    (hlost : ∀ q, I.Named init q → I.Child q d → (I.entry d).name.toStr = name → J.Live q ∧
      J.Walkable q = I.Walkable q ∧ ∀ i, J.Child q i → (J.entry i).name.toStr ≠ name) :
    J.resolve I.rootSlot (init ++ [name]) = .error (-ENOENT) := by
  have hlast := hdot.last List.prefix_rfl
  rw [resolve_concat] at hres
  rw [resolve_concat, h.walkDirs hI hdot.take]
  cases hq : I.walkDirs I.rootSlot init with
  | error status =>
    rw [hq] at hres
    cases hres
  | ok q =>
    have hqn := Named.root.walkDirs (hI.avoidsCopies .root hdot.take.1 hdot.take.2) hq
    rw [List.nil_append] at hqn
    rw [hq, lookIn] at hres
    split_ifs at hres with hW
    cases hl : I.findSlot q name with
    | none =>
      rw [hl] at hres
      cases hres
    | some l =>
      rw [hl] at hres
      obtain rfl : l = d := Except.ok.inj hres
      obtain ⟨hq', hW', hno⟩ := hlost q hqn (hI.findSlot_child hqn.live hW hlast hl) (findSlot_some hl).2.1
      rw [← hW'] at hW
      rw [lookIn, if_pos hW]
      cases hi : J.findSlot q name with
      | none => rfl
      | some i => exact absurd (findSlot_some hi).2.1 (hno i (hJ.findSlot_child hq' hW hlast hi))

theorem Named.not_above (hw : I.WellFormed) {init pre : List Str} {d : ℕ} (h : I.Named (init ++ [name]) d)
    (hpre : pre <+: init) : ¬ I.Named pre d := fun hn => by
  have hl := hpre.length_le
  rw [hn.unique hw h] at hl
  simp at hl

end Children

section Walks

theorem not_file {e : DirEntry} (h : e.isDirectory) : e.isFile = false := by
  have htype : e.type = FileType.Directory.code := of_decide_eq_true h
  rw [DirEntry.isFile, htype]
  rfl

variable {names pre rest : List Str} {p q k : ℕ} {name : Str}

theorem Named.pop (h : I.Named (pre ++ [name]) k) :
    ∃ p, I.Named pre p ∧ I.Child p k ∧ (I.entry k).name.toStr = name := by
  generalize hn : pre ++ [name] = names at h
  cases h with
  | root => simp at hn
  | @child pre' p k hp hk =>
    obtain ⟨rfl, hname⟩ := List.append_inj' hn rfl
    exact ⟨p, hp, hk, (List.cons.inj hname).1.symm⟩

theorem Named.take (h : I.Named (pre ++ rest) k) : ∃ q, I.Named pre q := by
  by_cases hrest : rest = []
  · subst hrest
    rw [List.append_nil] at h
    exact ⟨k, h⟩
  · have hne : pre ≠ pre ++ rest := fun he => hrest (List.self_eq_append_right.mp he)
    obtain ⟨q, hq, -⟩ := h.through (List.prefix_append _ _) hne
    exact ⟨q, hq⟩

theorem WellFormed.findSlot_named (hw : I.WellFormed) (hu : I.UniqueNames) (hq : I.Named pre q)
    (hd : (I.entry q).isDirectory) (hdot : Dotless [name]) :
    I.findSlot q name = some k ↔ I.Named (pre ++ [name]) k := by
  rw [hw.findSlot_iff (hu.oneNamed hq.live name) hq.live ((hw.walkable_iff hq.live).mpr hd) hdot]
  constructor
  · rintro ⟨hk, rfl⟩
    exact hq.child hk
  · intro hk
    obtain ⟨p, hp, hchild, hname⟩ := hk.pop
    obtain rfl := hu.named_eq hp hq
    exact ⟨hchild, hname⟩

theorem WellFormed.resolve_through (hw : I.WellFormed) (hu : I.UniqueNames) {init : List Str}
    (hp : I.Named init p)
    (hpf : (I.entry p).isFile = false) (hq : I.Named (init ++ pre) q) (hdot : Dotless pre) (hrest : rest ≠ []) :
    I.resolve p (pre ++ rest) = if (I.entry q).isFile then .error (-ENOTDIR) else I.resolve q rest := by
  induction pre generalizing init p with
  | nil =>
    rw [List.append_nil] at hq
    obtain rfl := hu.named_eq hq hp
    rw [hpf]
    rfl
  | cons name pre ih =>
    have hdot' : Dotless pre := ⟨fun h => hdot.1 (.tail _ h), fun h => hdot.2 (.tail _ h)⟩
    have hname : Dotless [name] := hdot.last (show [] ++ [name] <+: name :: pre from ⟨pre, rfl⟩)
    rw [List.append_cons] at hq
    obtain ⟨k, hk⟩ := hq.take
    obtain ⟨p', hp', hchild, -⟩ := hk.pop
    obtain rfl := hu.named_eq hp' hp
    have hwalk := (hw.walkable_iff hp.live).mpr hchild.1
    rw [List.cons_append, Image.resolve, if_pos hwalk, (hw.findSlot_named hu hp hchild.1 hname).mpr hk]
    dsimp only
    rw [if_neg (by simp [hrest])]
    by_cases hf : (I.entry k).isFile
    · rw [if_pos hf]
      by_cases hpre : pre = []
      · subst hpre
        rw [List.append_nil] at hq
        obtain rfl := hu.named_eq hk hq
        rw [if_pos hf]
      · obtain ⟨k', hk', hdir⟩ :=
          hq.through (List.prefix_append _ _) fun he => hpre (List.self_eq_append_right.mp he)
        obtain rfl := hu.named_eq hk hk'
        exact absurd hf (by simp [not_file hdir])
    · rw [if_neg hf]
      exact ih hk (Bool.eq_false_iff.mpr hf) hq hdot'

theorem WellFormed.resolve_named (hw : I.WellFormed) (hu : I.UniqueNames) (hk : I.Named names k)
    (hdot : Dotless names) : I.resolve I.rootSlot names = .ok k := by
  rcases List.eq_nil_or_concat' names with rfl | ⟨init, name, rfl⟩
  · rw [hu.named_eq hk .root]
    rfl
  · obtain ⟨p, hp, hchild, hname⟩ := hk.pop
    have hroot := not_file hw.root_directory
    rw [hw.resolve_through hu .root hroot hp hdot.take (List.cons_ne_nil name []), not_file hchild.1,
      if_neg Bool.false_ne_true, Image.resolve, if_pos ((hw.walkable_iff hp.live).mpr hchild.1),
      (hw.findSlot_named hu hp hchild.1 (hdot.last List.prefix_rfl)).mpr hk]
    rfl

theorem WellFormed.resolve_stops (hw : I.WellFormed) (hu : I.UniqueNames) (hq : I.Named pre q)
    (hno : ∀ k, ¬ I.Named (pre ++ [name]) k) (hdot : Dotless (pre ++ name :: rest)) :
    I.resolve I.rootSlot (pre ++ name :: rest) = .error (if (I.entry q).isDirectory then -ENOENT else -ENOTDIR) := by
  have hroot := not_file hw.root_directory
  rw [hw.resolve_through hu .root hroot hq hdot.take (List.cons_ne_nil name rest), Image.resolve]
  have hwalk := hw.walkable_iff hq.live
  by_cases hd : (I.entry q).isDirectory
  · have hname : Dotless [name] := hdot.last (show pre ++ [name] <+: _ from ⟨rest, by simp⟩)
    have hnone : I.findSlot q name = none := by
      cases hk : I.findSlot q name with
      | none => rfl
      | some k => exact absurd ((hw.findSlot_named hu hq hd hname).mp hk) (hno k)
    rw [not_file hd, if_neg Bool.false_ne_true, if_pos (hwalk.mpr hd), hnone, if_pos hd]
  · rw [if_neg (mt hwalk.mp hd), if_neg hd, ite_self]

theorem stops (names : List Str) (h : ∀ k, ¬ I.Named names k) : ∃ pre name rest q, names = pre ++ name :: rest ∧
    I.Named pre q ∧ ∀ k, ¬ I.Named (pre ++ [name]) k := by
  induction names using List.reverseRecOn with
  | nil => exact absurd .root (h I.rootSlot)
  | append_singleton names name ih =>
    by_cases hn : ∃ q, I.Named names q
    · obtain ⟨q, hq⟩ := hn
      exact ⟨names, name, [], q, rfl, hq, h⟩
    · obtain ⟨pre, first, rest, q, rfl, hq, hno⟩ := ih (not_exists.mp hn)
      exact ⟨pre, first, rest ++ [name], q, by simp, hq, hno⟩

theorem walkDirs_of_resolve (hr : I.resolve p names = .ok k) (hf : (I.entry k).isFile = false) :
    I.walkDirs p names = .ok k := by
  induction names generalizing p with
  | nil => exact hr
  | cons name names ih =>
    rw [Image.resolve] at hr
    rw [Image.walkDirs]
    by_cases hw : I.Walkable p
    · rw [if_pos hw] at hr ⊢
      cases hk : I.findSlot p name with
      | none => simp [hk] at hr
      | some k' =>
        simp only [hk] at hr ⊢
        by_cases hn : names = []
        · rw [if_pos hn] at hr
          obtain rfl := Except.ok.inj hr
          rw [hf, hn]
          rfl
        · rw [if_neg hn] at hr
          split_ifs at hr ⊢
          exact ih hr
    · rw [if_neg hw] at hr
      cases hr

end Walks

end Thorn.FatImage.Image
