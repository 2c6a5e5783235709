import Thorn.TreeEdits

set_option autoImplicit false

namespace Thorn.FatImage.Image
open Paths FatTypes LinkedChain
variable {I J : Image}

structure Moved (I J : Image) (p j k : ℕ) : Prop where
  shape : I.SameShape J
  fat : ∀ b < I.blockCount, J.fat b = I.fat b
  entry : ∀ i, I.IsData (i / I.epb) → i ≠ j → i ≠ k → J.entry i = I.entry i
  start : (J.entry j).start = (I.entry k).start
  len : (J.entry j).len = (I.entry k).len
  directory : (J.entry j).isDirectory = (I.entry k).isDirectory
  cleared : (J.entry k).start = 0
  slot : j ∈ (I.slots p).drop (I.copies p)
  vacant : I.free (I.entry j)
  free : ∀ q, I.Live q → (I.entry q).isDirectory → ∀ i ∈ (I.slots q).drop (I.copies q), i ≠ j → i ≠ k →
    I.free (I.entry i) → J.free (J.entry i)

namespace Moved
variable {p j k : ℕ} {names : List Str}

theorem vacant_not_live (hw : I.WellFormed) (h : Moved I J p j k) : ¬ I.Live j := fun hj => by
  have hfree := h.vacant
  rw [(hw.owns j hj).not_free] at hfree
  cases hfree

theorem apart (hw : I.WellFormed) (h : Moved I J p j k) (hk : I.Live k) : j ≠ k := by
  rintro rfl
  exact h.vacant_not_live hw hk

theorem entry_live (hw : I.WellFormed) (h : Moved I J p j k) {i : ℕ} (hi : I.Live i) (hik : i ≠ k) :
    J.entry i = I.entry i :=
  h.entry i (hw.live_data hi) (fun he => h.vacant_not_live hw (he ▸ hi)) hik

theorem owns (hw : I.WellFormed) (h : Moved I J p j k) {i : ℕ} (hi : I.Live i) (hik : i ≠ k) :
    J.Owns (J.entry i) (I.chain i) := by
  refine h.shape.owns (hw.owns i hi) ?_ fun b hb => h.fat b ((hw.owns i hi).data b hb).2
  rw [h.entry_live hw hi hik]

theorem owns_moved (hw : I.WellFormed) (h : Moved I J p j k) (hk : I.Live k) : J.Owns (J.entry j) (I.chain k) :=
  h.shape.owns (hw.owns k hk) h.start fun b hb => h.fat b ((hw.owns k hk).data b hb).2

theorem slots_live (hw : I.WellFormed) (h : Moved I J p j k) {q : ℕ} (hq : I.Live q) (hqk : q ≠ k) :
    J.slots q = I.slots q := by
  have hch : J.chain q = I.chain q := (h.owns hw hq hqk).chainOf_eq
  rw [Image.slots, hch, h.shape.slotsIn, count, h.entry_live hw hq hqk]
  rfl

theorem slots_moved (hw : I.WellFormed) (h : Moved I J p j k) (hk : I.Live k) : J.slots j = I.slots k := by
  have hch : J.chain j = I.chain k := (h.owns_moved hw hk).chainOf_eq
  rw [Image.slots, hch, h.shape.slotsIn, count, h.len]
  rfl

theorem reached_clear (hw : I.WellFormed) (h : Moved I J p j k) {q : ℕ} (hq : I.Named names q)
    (hc : I.Clear k names) : J.Live q := by
  induction hq with
  | root =>
    rw [← h.shape.rootSlot]
    exact .root
  | @child names q i hq hi ih =>
    have hqk : q ≠ k := fun he => hc names (List.prefix_append _ _) (he ▸ hq)
    have hik : i ≠ k := fun he => hc _ List.prefix_rfl (he ▸ hq.child hi)
    refine .child (ih fun pre hp => hc pre (hp.trans (List.prefix_append _ _))) ⟨?_, ?_, ?_⟩
    · rw [h.entry_live hw hq.live hqk]
      exact hi.1
    · rw [h.slots_live hw hq.live hqk, h.shape.copies]
      exact hi.2.1
    · exact (h.owns hw (.child hq.live hi) hik).not_free

theorem slot_copies (hw : I.WellFormed) (h : Moved I J p j k) (hp : I.Live p) (hkr : k ≠ I.rootSlot) :
    I.copies j = I.copies k := by
  rw [copies, copies, if_neg (hw.root_not_child hp h.slot), if_neg hkr]

theorem reached (hw : I.WellFormed) (h : Moved I J p j k) (hp : I.Named names p) (hd : (I.entry p).isDirectory)
    (hk : I.Live k) (hkr : k ≠ I.rootSlot) (hc : I.Clear k names) {i : ℕ} (hi : I.Live i ∧ i ≠ k ∨ i = j) :
    J.Live i := by
  have hpk : p ≠ k := fun he => hc names List.prefix_rfl (he ▸ hp)
  have hj : J.Live j := by
    refine .child (h.reached_clear hw hp hc) ⟨?_, ?_, (h.owns_moved hw hk).not_free⟩
    · rw [h.entry_live hw hp.live hpk]
      exact hd
    · rw [h.slots_live hw hp.live hpk, h.shape.copies]
      exact h.slot
  rcases hi with ⟨hi, hik⟩ | rfl
  · induction hi with
    | root =>
      rw [← h.shape.rootSlot]
      exact .root
    | @child q i hq hqi ih =>
      have hfree := (h.owns hw (.child hq hqi) hik).not_free
      by_cases hqk : q = k
      · subst hqk
        refine .child hj ⟨?_, ?_, hfree⟩
        · rw [h.directory]
          exact hqi.1
        · rw [h.slots_moved hw hk, h.shape.copies, h.slot_copies hw hp.live hkr]
          exact hqi.2.1
      · refine .child (ih hqk) ⟨?_, ?_, hfree⟩
        · rw [h.entry_live hw hq hqk]
          exact hqi.1
        · rw [h.slots_live hw hq hqk, h.shape.copies]
          exact hqi.2.1
  · exact hj

def origin (j k i : ℕ) : ℕ := if i = j then k else i

theorem origin_live (hw : I.WellFormed) (h : Moved I J p j k) {i : ℕ} (hi : I.Live i) : origin j k i = i :=
  if_neg fun he : i = j => h.vacant_not_live hw (he ▸ hi)

theorem origin_self : origin j k j = k := if_pos rfl

theorem rearranged (hw : I.WellFormed) (h : Moved I J p j k) (hp : I.Named names p)
    (hd : (I.entry p).isDirectory) (hk : I.Live k) (hkr : k ≠ I.rootSlot) (hc : I.Clear k names) :
    Rearranged I J (fun i => I.Live i ∧ i ≠ k ∨ i = j) (origin j k) := by
  have horig := fun i hi => h.origin_live hw (i := i) hi
  have hent := fun i hi hik => h.entry_live hw (i := i) hi hik
  have hlive : ∀ i, I.Live i ∧ i ≠ k ∨ i = j → I.Live (origin j k i) := by
    rintro i (⟨hi, -⟩ | rfl)
    · rwa [horig i hi]
    · rwa [origin_self]
  obtain ⟨q, hq, hqk⟩ := hk.parent hkr
  exact {
    shape := h.shape
    live := hlive
    apart := by
      rintro i l (⟨hi, hik⟩ | rfl) (⟨hl, hlk⟩ | rfl) he
      · rwa [horig i hi, horig l hl] at he
      · rw [horig i hi, origin_self] at he
        exact absurd he hik
      · rw [horig l hl, origin_self] at he
        exact absurd he.symm hlk
      · rfl
    root := .inl ⟨.root, hkr.symm⟩
    root_origin := horig _ .root
    start := by
      rintro i (⟨hi, hik⟩ | rfl)
      · rw [horig i hi, hent i hi hik]
      · rw [origin_self, h.start]
    directory := by
      rintro i (⟨hi, hik⟩ | rfl)
      · rw [horig i hi, hent i hi hik]
      · rw [origin_self, h.directory]
    len := by
      rintro i (⟨hi, hik⟩ | rfl)
      · rw [horig i hi, hent i hi hik]
        exact .inl rfl
      · rw [origin_self, h.len]
        exact .inl rfl
    reserved := fun b hb => h.fat b (hw.block_lt hb)
    fat := fun i hi b hb => h.fat b ((hw.owns _ (hlive i hi)).data b hb).2
    unowned := fun b hb hno => by
      rw [h.fat b hb.2]
      refine hw.unowned b hb fun i hi hbi => ?_
      by_cases hik : i = k
      · refine hno j (.inr rfl) ?_
        rwa [origin_self, ← hik]
      · refine hno i (.inl ⟨hi, hik⟩) ?_
        rwa [horig i hi]
    dot := by rw [hent _ .root hkr.symm]
    root_dotdot := by
      rw [h.entry _ (hw.root_data hw.epb) (hw.root_succ_not_child hp.live h.slot).symm
        (hw.root_succ_not_child hq hqk.2.1).symm]
      exact hw.root_dotdot
    dotdot := fun i hi hir hdir => by
      have ho := hlive i hi
      have hor : origin j k i ≠ I.rootSlot := by
        rcases hi with ⟨hi, -⟩ | rfl
        · rwa [horig i hi]
        · rwa [origin_self]
      rw [h.entry _ (hw.first_data ho) (hw.copy_not_child ho hdir (copies_pos _) hp.live h.slot)
        (hw.copy_not_child ho hdir (copies_pos _) hq hqk.2.1)]
      exact hw.dotdot _ ho hor hdir
    closed := fun o ho hdir i hi hf => by
      have hin : i ∈ (I.slots (origin j k o)).drop (I.copies (origin j k o)) := by
        rcases ho with ⟨ho, hok⟩ | rfl
        · rw [horig o ho] at hi ⊢
          rw [count, hent o ho hok] at hi
          exact hi
        · rw [origin_self] at hi ⊢
          rw [count, h.len, h.slot_copies hw hp.live hkr] at hi
          exact hi
      by_cases hij : i = j
      · exact .inr hij
      have hik : i ≠ k := by
        rintro rfl
        simp [Image.free, h.cleared] at hf
      refine .inl ⟨.child (hlive o ho) ⟨hdir, hin, ?_⟩, hik⟩
      rw [← Bool.not_eq_true]
      intro hfree
      rw [h.free _ (hlive o ho) hdir i hin hij hik hfree] at hf
      cases hf
    reached := fun i hi => h.reached hw hp hd hk hkr hc hi }

section Names
variable {init : List Str}

theorem child_iff (hw : I.WellFormed) (h : Moved I J p j k) (hp : I.Named names p)
    (hd : (I.entry p).isDirectory)
    (hk : I.Live k) (hkr : k ≠ I.rootSlot) (hc : I.Clear k names) {q i : ℕ} (hq : I.Live q) (hqk : q ≠ k) :
    J.Child q i ↔ I.Child q i ∧ i ≠ k ∨ q = p ∧ i = j := by
  have hR := h.rearranged hw hp hd hk hkr hc
  rw [(hR.wellFormed hw).child_iff ((hR.live_iff hw q).mpr (.inl ⟨hq, hqk⟩)), hw.child_iff hq,
    h.slots_live hw hq hqk, h.entry_live hw hq hqk, h.shape.copies, hR.live_iff hw i]
  constructor
  · rintro ⟨hdir, hm, ⟨hi, hik⟩ | rfl⟩
    · exact .inl ⟨⟨hdir, hm, hi⟩, hik⟩
    · exact .inr ⟨hw.slot_parent hq hp.live (List.mem_of_mem_drop hm) (List.mem_of_mem_drop h.slot), rfl⟩
  · rintro (⟨⟨hdir, hm, hi⟩, hik⟩ | ⟨rfl, rfl⟩)
    · exact ⟨hdir, hm, .inl ⟨hi, hik⟩⟩
    · exact ⟨hd, h.slot, .inr rfl⟩

theorem child_moved (hw : I.WellFormed) (h : Moved I J p j k) (hp : I.Named names p)
    (hd : (I.entry p).isDirectory)
    (hk : I.Live k) (hkr : k ≠ I.rootSlot) (hc : I.Clear k names) {i : ℕ} :
    J.Child j i ↔ I.Child k i ∧ i ≠ k := by
  have hR := h.rearranged hw hp hd hk hkr hc
  have hpk : p ≠ k := fun he => hc names List.prefix_rfl (he ▸ hp)
  rw [(hR.wellFormed hw).child_iff ((hR.live_iff hw j).mpr (.inr rfl)), hw.child_iff hk, h.slots_moved hw hk,
    h.directory, h.shape.copies, h.slot_copies hw hp.live hkr, hR.live_iff hw i]
  have hij : ∀ i ∈ (I.slots k).drop (I.copies k), i ≠ j := by
    rintro i hi rfl
    exact hpk (hw.slot_parent hp.live hk (List.mem_of_mem_drop h.slot) (List.mem_of_mem_drop hi))
  constructor
  · rintro ⟨hdir, hm, ⟨hi, hik⟩ | rfl⟩
    · exact ⟨⟨hdir, hm, hi⟩, hik⟩
    · exact absurd rfl (hij _ hm)
  · rintro ⟨⟨hdir, hm, hi⟩, hik⟩
    exact ⟨hdir, hm, .inl ⟨hi, hik⟩⟩

theorem uniqueNames (hw : I.WellFormed) (h : Moved I J p j k) (hp : I.Named names p)
    (hd : (I.entry p).isDirectory)
    (hk : I.Live k) (hkr : k ≠ I.rootSlot) (hc : I.Clear k names) (hu : I.UniqueNames)
    (hnew : ∀ i, I.Child p i → i ≠ k → (I.entry i).name.toStr ≠ (J.entry j).name.toStr) : J.UniqueNames := by
  intro q i l hq hi hl he
  have hent : ∀ o i, I.Live o → I.Child o i → i ≠ k → J.entry i = I.entry i := fun o i ho hi hik =>
    h.entry_live hw (.child ho hi) hik
  rcases ((h.rearranged hw hp hd hk hkr hc).live_iff hw q).mp hq with ⟨hq', hqk⟩ | rfl
  · rw [h.child_iff hw hp hd hk hkr hc hq' hqk] at hi hl
    rcases hi with ⟨hi, hik⟩ | ⟨rfl, rfl⟩
    · rw [hent q i hq' hi hik] at he
      rcases hl with ⟨hl, hlk⟩ | ⟨rfl, rfl⟩
      · rw [hent q l hq' hl hlk] at he
        exact hu q i l hq' hi hl he
      · exact absurd he (hnew i hi hik)
    · rcases hl with ⟨hl, hlk⟩ | ⟨-, rfl⟩
      · rw [hent q l hq' hl hlk] at he
        exact absurd he.symm (hnew l hl hlk)
      · rfl
  · rw [h.child_moved hw hp hd hk hkr hc] at hi hl
    rw [hent k i hk hi.1 hi.2, hent k l hk hl.1 hl.2] at he
    exact hu k i l hk hi.1 hl.1 he

theorem findsAlike (hw : I.WellFormed) (h : Moved I J p j k) (hp : I.Named names p)
    (hd : (I.entry p).isDirectory)
    (hk : I.Live k) (hkr : k ≠ I.rootSlot) (hc : I.Clear k names) (hu : I.UniqueNames) (hdot : Dotless init)
    (hclear : I.Clear k init) (hno : ¬ names ++ [(J.entry j).name.toStr] <+: init) : I.FindsAlike J init := by
  intro pre q name hq hpre
  have hR := h.rearranged hw hp hd hk hkr hc
  have hqk : q ≠ k := fun he => hclear pre ((List.prefix_append _ _).trans hpre) (he ▸ hq)
  have hwalk : J.Walkable q = I.Walkable q := by rw [Walkable, Walkable, h.entry_live hw hq.live hqk]
  have hik : ∀ i, I.Child q i → (I.entry i).name.toStr = name → i ≠ k := by
    rintro i hi rfl rfl
    exact hclear _ hpre (hq.child hi)
  refine ⟨hwalk, fun hW => ?_, fun i hi hn => by rw [h.entry_live hw (.child hq.live hi) (hik i hi hn)]⟩
  apply findSlot_alike hw (hR.wellFormed hw) (hu.oneNamed hq.live name) hq.live
    ((hR.live_iff hw q).mpr (.inl ⟨hq.live, hqk⟩)) hW
    (hwalk.trans hW) (hdot.last hpre)
  intro i
  rw [h.child_iff hw hp hd hk hkr hc hq.live hqk]
  constructor
  · rintro ⟨⟨hi, hne⟩ | ⟨rfl, rfl⟩, hn⟩
    · rw [h.entry_live hw (.child hq.live hi) hne] at hn
      exact ⟨hi, hn⟩
    · rw [← hq.unique hw hp, hn] at hno
      exact absurd hpre hno
  · rintro ⟨hi, hn⟩
    have hne := hik i hi hn
    rw [h.entry_live hw (.child hq.live hi) hne]
    exact ⟨.inl ⟨hi, hne⟩, hn⟩

theorem resolve_moved (hw : I.WellFormed) (h : Moved I J p j k) (hp : I.walkDirs I.rootSlot names = .ok p)
    (hd : (I.entry p).isDirectory) (hk : I.Live k) (hkr : k ≠ I.rootSlot) (hc : I.Clear k names)
    (hu : I.UniqueNames)
    (hnew : ∀ i, I.Child p i → i ≠ k → (I.entry i).name.toStr ≠ (J.entry j).name.toStr)
    (hdot : Dotless (names ++ [(J.entry j).name.toStr])) :
    J.resolve I.rootSlot (names ++ [(J.entry j).name.toStr]) = .ok j := by
  have hn := Named.root.walkDirs (hw.avoidsCopies .root hdot.take.1 hdot.take.2) hp
  rw [List.nil_append] at hn
  have hpk : p ≠ k := fun he => hc names List.prefix_rfl (he ▸ hn)
  have hR := h.rearranged hw hn hd hk hkr hc
  have hp' := (hR.live_iff hw p).mpr (.inl ⟨hn.live, hpk⟩)
  have hfinds := h.findsAlike hw hn hd hk hkr hc hu hdot.take hc fun hpre => by
    have := hpre.length_le
    simp at this
  have hwalk : J.Walkable p := by
    rw [(hR.wellFormed hw).walkable_iff hp', h.entry_live hw hn.live hpk]
    exact hd
  have hchild : J.Child p j := (h.child_iff hw hn hd hk hkr hc hn.live hpk).mpr (.inr ⟨rfl, rfl⟩)
  have hone : J.OneNamed p (J.entry j).name.toStr := by
    have hsame : ∀ i, J.Child p i → (J.entry i).name.toStr = (J.entry j).name.toStr → i = j := by
      intro i hi he
      rcases (h.child_iff hw hn hd hk hkr hc hn.live hpk).mp hi with ⟨hi, hik⟩ | ⟨-, rfl⟩
      · rw [h.entry_live hw (.child hn.live hi) hik] at he
        exact absurd he (hnew i hi hik)
      · rfl
    intro i l hi hl hin hln
    rw [hsame i hi hin, hsame l hl hln]
  have hfind := ((hR.wellFormed hw).findSlot_iff hone hp' hwalk (hdot.last List.prefix_rfl)).mpr ⟨hchild, rfl⟩
  rw [resolve_concat, hfinds.walkDirs hw hdot.take, hp, lookIn, if_pos hwalk, hfind]

theorem resolve_origin (hw : I.WellFormed) (h : Moved I J p j k) (hp : I.Named names p)
    (hd : (I.entry p).isDirectory)
    (hkr : k ≠ I.rootSlot) (hc : I.Clear k names) (hu : I.UniqueNames) (hdot : Dotless init)
    (hk : I.resolve I.rootSlot init = .ok k)
    (hno : ¬ names ++ [(J.entry j).name.toStr] <+: init) : J.resolve I.rootSlot init = .error (-ENOENT) := by
  have hkn := Named.root.resolve (hw.avoidsCopies .root hdot.1 hdot.2) hk
  rw [List.nil_append] at hkn
  rcases List.eq_nil_or_concat' init with rfl | ⟨init, name, rfl⟩
  · cases hk
    exact absurd rfl hkr
  have hR := h.rearranged hw hp hd hkn.live hkr hc
  have hclear : I.Clear k init := fun pre hpre => hkn.not_above hw hpre
  apply (h.findsAlike hw hp hd hkn.live hkr hc hu hdot.take hclear fun hpre =>
    hno (hpre.trans (List.prefix_append _ _))).resolve_lost hw (hR.wellFormed hw) hdot hk
  intro q hq hqk hname
  have hne : q ≠ k := fun he => hclear init List.prefix_rfl (he ▸ hq)
  refine ⟨(hR.live_iff hw q).mpr (.inl ⟨hq.live, hne⟩), by rw [Walkable, Walkable, h.entry_live hw hq.live hne],
    ?_⟩
  intro i hi hn
  rcases (h.child_iff hw hp hd hkn.live hkr hc hq.live hne).mp hi with ⟨hi, hik⟩ | ⟨rfl, rfl⟩
  · rw [h.entry_live hw (.child hq.live hi) hik] at hn
    exact hik (hu q i k hq.live hi hqk (hn.trans hname.symm))
  · rw [hn, hp.unique hw hq] at hno
    exact hno List.prefix_rfl

end Names

end Moved

end Thorn.FatImage.Image
