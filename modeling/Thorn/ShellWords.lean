import Thorn.ShellDesks

set_option autoImplicit false

namespace Thorn.Shell
open ByteStore Paths FatTypes FatDriver FatOperations FatImage Printf Keyboard

section Words

theorem words_append (front back : Str) : words (front ++ space :: back) = words front ++ words back := by
  rw [words, List.splitOn_append_cons_self, List.filter_append]
  rfl

theorem words_behind_spaces {spaces : Str} (h : ∀ c ∈ spaces, c = space) (line : Str) :
    words (spaces ++ line) = words line := by
  induction spaces with
  | nil => rfl
  | cons c spaces ih =>
    obtain ⟨rfl, hrest⟩ := List.forall_mem_cons.mp h
    exact (words_append [] (spaces ++ line)).trans (ih hrest)

theorem words_trimmed (line : Str) : words (line.rdropWhile (· = space)) = words line := by
  induction line using List.reverseRecOn with
  | nil => rfl
  | append_singleton line c ih =>
    rw [List.rdropWhile_concat]
    split_ifs with hc
    · obtain rfl : c = space := of_decide_eq_true hc
      rw [ih, words_append]
      exact (List.append_nil _).symm
    · rfl

theorem split_splitOn {str : Str} (hne : str ≠ []) : split str [space] false = str.splitOn space := by
  have hsplit : SplitReturns [space] false str (split str [space] false) :=
    split_returns str (List.cons_ne_nil space [])
  have hapart : ∀ piece ∈ split str [space] false, space ∉ piece := fun piece hp hmem =>
    hsplit.apart (List.cons_ne_nil _ _) piece hp ((List.singleton_infix_iff _ _).mpr hmem)
  have hpieces : split str [space] false ≠ [] := fun hnil => by
    have hjoined := hsplit.joined
    rw [hnil] at hjoined
    exact hne hjoined.symm
  calc split str [space] false
      = ([space].intercalate (split str [space] false)).splitOn space :=
        (List.splitOn_intercalate space hapart hpieces).symm
    _ = str.splitOn space := by rw [hsplit.joined]

theorem split_ne_nil {str : Str} (hne : str ≠ []) (delimiter : Str) (condense : Bool) :
    split str delimiter condense ≠ [] := by
  rw [split, if_neg hne]
  split
  · exact List.cons_ne_nil _ _
  · exact List.cons_ne_nil _ _

theorem words_blank {line : Str} (h : line.findIdx? (· ≠ space) = none) : words line = [] := by
  have hall : ∀ c ∈ line, c = space := fun c hc => by
    simpa using List.findIdx?_eq_none_iff.mp h c hc
  have hspaces := words_behind_spaces hall []
  rwa [List.append_nil] at hspaces

theorem split_words {str : Str} {first : ℕ} (h : str.findIdx? (· ≠ space) = some first) :
    split ((str.drop first).rdropWhile (· = space)) [space] true = words str ∧ words str ≠ [] := by
  obtain ⟨hlt, hfirst, hbefore⟩ := List.findIdx?_eq_some_iff_getElem.mp h
  have hdrop : str.drop first = str[first] :: str.drop (first + 1) := List.drop_eq_getElem_cons hlt
  have hspace : str[first] ≠ space := of_decide_eq_true hfirst
  have hne : (str.drop first).rdropWhile (· = space) ≠ [] := fun hnil =>
    hspace (of_decide_eq_true (List.rdropWhile_eq_nil_iff.mp hnil _ (hdrop ▸ List.mem_cons_self)))
  have hlead : ¬ [space] <+: (str.drop first).rdropWhile (· = space) := fun hpre => by
    have hcons := hpre.trans (List.rdropWhile_prefix _ (l := str.drop first))
    rw [hdrop, List.cons_prefix_cons] at hcons
    exact hspace hcons.1.symm
  have hfront : words (str.drop first) = words str := by
    have hspaces : ∀ c ∈ str.take first, c = space := fun c hc => by
      obtain ⟨i, hi, rfl⟩ := List.getElem_of_mem hc
      rw [List.getElem_take]
      have hi' : i < first := by
        rw [List.length_take] at hi
        omega
      simpa using hbefore i hi'
    rw [← words_behind_spaces hspaces (str.drop first), List.take_append_drop]
  have hsplit : split ((str.drop first).rdropWhile (· = space)) [space] true = words str := by
    rw [(split_condensed_iff _ (List.cons_ne_nil _ _)).mpr hlead, split_splitOn hne, ← hfront, ← words_trimmed]
    rfl
  exact ⟨hsplit, hsplit ▸ split_ne_nil hne _ _⟩

theorem mem_splitOn {str piece : Str} {sep : UInt8} (h : piece ∈ str.splitOn sep) :
    sep ∉ piece ∧ ∀ c ∈ piece, c ∈ str := by
  induction str generalizing piece with
  | nil =>
    obtain rfl : piece = [] := by simpa using h
    exact ⟨List.not_mem_nil, fun c hc => hc⟩
  | cons x str ih =>
    rw [List.splitOn_cons_eq_if_modifyHead] at h
    split_ifs at h with hx
    · rcases List.mem_cons.mp h with rfl | h
      · exact ⟨List.not_mem_nil, fun c hc => absurd hc List.not_mem_nil⟩
      · exact ⟨(ih h).1, fun c hc => .tail _ ((ih h).2 c hc)⟩
    · obtain ⟨head, tail, hsplit⟩ := List.exists_cons_of_ne_nil (List.splitOn_ne_nil sep str)
      rw [hsplit] at h ih
      rcases List.mem_cons.mp h with rfl | h
      · obtain ⟨hsep, hmem⟩ := ih List.mem_cons_self
        refine ⟨?_, fun c hc => ?_⟩
        · rw [List.mem_cons, not_or]
          exact ⟨fun heq => hx (beq_iff_eq.mpr heq.symm), hsep⟩
        · rcases List.mem_cons.mp hc with rfl | hc
          · exact List.mem_cons_self
          · exact .tail _ (hmem c hc)
      · obtain ⟨hsep, hmem⟩ := ih (.tail _ h)
        exact ⟨hsep, fun c hc => .tail _ (hmem c hc)⟩

theorem words_text {line : Str} (h : (0 : UInt8) ∉ line) {word : Str} (hword : word ∈ words line) :
    word ≠ [] ∧ (0 : UInt8) ∉ word := by
  obtain ⟨hmem, hne⟩ := List.mem_filter.mp hword
  exact ⟨of_decide_eq_true hne, fun hzero => h ((mem_splitOn hmem).2 0 hzero)⟩

end Words

def Legible (names : List Str) : Prop := ∀ name ∈ names, Plain name ∧ (0 : UInt8) ∉ name

section Spelling
variable {names : List Str}

theorem Legible.spells (h : Legible names) (hne : names ≠ []) : Spells (spelled names) names where
  nonempty := hne
  plain name hname := (h name hname).1
  text := ⟨[slash], [], .inr rfl, .inl rfl, (List.append_nil _).symm⟩

theorem Legible.stackOf (h : Legible names) : stackOf (spelled names) = names := by
  by_cases hne : names = []
  · rw [hne]
    rfl
  · exact (h.spells hne).stackOf_eq

theorem Legible.simplifyPath (h : Legible names) : simplifyPath (spelled names) = spelled names := by
  rw [simplifyPath_canonical, canonical, h.stackOf, spelled]

theorem Legible.pathNames (h : Legible names) : pathNames (spelled names) = names := by
  rw [← h.simplifyPath, pathNames_simplifyPath, simplified_stack, h.stackOf]

theorem Legible.noDots (h : Legible names) : NoDots (spelled names) :=
  h.simplifyPath ▸ simplifyPath_noDots _

theorem mem_intercalate {sep : Str} {pieces : List Str} {c : UInt8} (h : c ∈ sep.intercalate pieces) :
    c ∈ sep ∨ ∃ piece ∈ pieces, c ∈ piece := by
  induction pieces with
  | nil => exact absurd h List.not_mem_nil
  | cons piece pieces ih =>
    by_cases hne : pieces = []
    · rw [hne, List.intercalate_singleton] at h
      exact .inr ⟨piece, List.mem_cons_self, h⟩
    · rw [List.intercalate_cons_of_ne_nil hne, List.mem_append, List.mem_append] at h
      rcases h with (h | h) | h
      · exact .inr ⟨piece, List.mem_cons_self, h⟩
      · exact .inl h
      · rcases ih h with hsep | ⟨p, hp, hc⟩
        · exact .inl hsep
        · exact .inr ⟨p, .tail _ hp, hc⟩

theorem Legible.text (h : Legible names) : (0 : UInt8) ∉ spelled names := by
  rw [spelled, List.mem_cons, not_or]
  refine ⟨by decide, fun hmem => ?_⟩
  rcases mem_intercalate hmem with hsep | ⟨name, hname, hzero⟩
  · exact absurd hsep (by decide)
  · exact (h name hname).2 hzero

theorem cStr_text {str : Str} (h : (0 : UInt8) ∉ str) : cStr str = str := by
  refine List.takeWhile_eq_self_iff.mpr fun c hc => decide_eq_true ?_
  rintro rfl
  exact h hc

theorem Legible.push {piece : Str} (h : Legible names) (hslash : slash ∉ piece) (hzero : (0 : UInt8) ∉ piece) :
    Legible (push names piece) := by
  rw [Paths.push]
  split_ifs with hdot hdotdot
  · exact h
  · exact fun name hname => h name (List.dropLast_subset _ hname)
  · rw [not_or] at hdot
    intro name hname
    rcases List.mem_append.mp hname with hname | hname
    · exact h name hname
    · obtain rfl := List.mem_singleton.mp hname
      exact ⟨⟨hdot.1, hdot.2, hdotdot, hslash⟩, hzero⟩

theorem Legible.foldl {pieces : List Str} (h : Legible names)
    (hp : ∀ piece ∈ pieces, slash ∉ piece ∧ (0 : UInt8) ∉ piece) : Legible (pieces.foldl Paths.push names) := by
  induction pieces generalizing names with
  | nil => exact h
  | cons piece pieces ih =>
    obtain ⟨hpiece, hrest⟩ := List.forall_mem_cons.mp hp
    exact ih (h.push hpiece.1 hpiece.2) hrest

end Spelling

section Targets
variable {d : Desk} {p : Str}

theorem Desk.legible_target (h : Legible d.cwd) (hp : (0 : UInt8) ∉ p) : Legible (d.target p) := by
  refine Legible.foldl ?_ fun piece hmem =>
    ⟨(mem_splitOn hmem).1, fun hzero => hp ((mem_splitOn hmem).2 0 hzero)⟩
  split_ifs
  · exact fun name hname => absurd hname List.not_mem_nil
  · exact h

theorem Desk.simplifyPathIn_path (h : Legible d.cwd) (hne : p ≠ []) :
    simplifyPathIn (spelled d.cwd) p = d.path p := by
  rw [simplifyPathIn_eq _ hne, Desk.path, Desk.target]
  split_ifs
  · rfl
  · rw [canonical, stackOf_append, h.stackOf, spelled]

end Targets

section Serial

theorem receive_escaped (bytes rest : List UInt8) (input : Str) :
    receive input (escaped bytes ++ rest) = some (input ++ bytes, rest) := by
  induction bytes generalizing input with
  | nil => simp [escaped, receive]
  | cons b bytes ih =>
    rw [escaped]
    split_ifs with hcaret
    · subst hcaret
      simp only [List.cons_append, receive, if_true, ih, List.append_assoc, List.nil_append]
    · unfold receive
      simp only [List.cons_append, if_neg hcaret, ih, List.append_assoc, List.nil_append]

end Serial

section Digests

theorem reportByte_hex (b : UInt8) :
    reportByte b = some [digitChar true (b.toNat / 16), digitChar true (b.toNat % 16)] := by
  have hall : ∀ i : Fin 256, reportByte (UInt8.ofNat i) =
      some [digitChar true ((UInt8.ofNat i).toNat / 16), digitChar true ((UInt8.ofNat i).toNat % 16)] := by
    decide +kernel
  have hb := hall ⟨b.toNat, b.toNat_lt⟩
  rwa [UInt8.ofNat_toNat] at hb

theorem reportHash_hex (digest : List UInt8) : reportHash digest = some (hexBytes digest) := by
  induction digest with
  | nil => rfl
  | cons b digest ih =>
    rw [reportHash, reportByte_hex, ih]
    rfl

theorem report_hex {σ : Type} (around : Surroundings σ) {bytes : List UInt8} (h : bytes.length + 63 < 2 ^ 32) :
    report around bytes = some (hexBytes (SHA1.sha1 bytes)) := by
  have hfed : SHA1.Fed around.object.Reset [] := ⟨(BlockFold.absorb_short (by decide)).symm, rfl, rfl⟩
  have hlen : (BitVec.ofNat 32 bytes.length).toNat = bytes.length := by
    rw [BitVec.toNat_ofNat]
    omega
  obtain ⟨updated, hupdate, hgiven, -⟩ := hfed.updated bytes hlen.le (by omega)
  rw [hlen, List.take_length, List.nil_append] at hgiven
  obtain ⟨final, hfinal, hdigest⟩ := hgiven.final
  simp only [report, hupdate, hfinal, hdigest, reportHash_hex, Option.bind_eq_bind, Option.bind_some]

end Digests

end Thorn.Shell
