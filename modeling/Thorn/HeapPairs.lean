import Thorn.HeapCalls

set_option autoImplicit false

namespace Thorn.Heap
open ByteStore Runs Memory

def rejoined (b : Block) (post : List Block) (size : ℕ) : Block :=
  if Splits b post size then ⟨b.addr, size + (sizeofBlockMeta + (restSize b post size).toNat), true⟩ else b

section Lists
variable {lo hi size : ℕ} {b c x y : Block} {l pre post pre' post' : List Block}

theorem mergeBlocks_joined (hb : b.free = true) (hc : c.free = true) :
    mergeBlocks b (c :: l) = mergeBlocks ⟨b.addr, b.size + (sizeofBlockMeta + c.size), true⟩ l := by
  rw [mergeBlocks, if_pos ⟨hb, hc⟩, hb]

theorem mergeBlocks_kept (h : ¬(b.free = true ∧ c.free = true)) :
    mergeBlocks b (c :: l) = b :: mergeBlocks c l := by
  rw [mergeBlocks, if_neg h]

theorem mergeBlocks_pair (a : Block) (hx : x.free = true) (hy : y.free = true) :
    mergeBlocks a (pre ++ x :: y :: post) =
    mergeBlocks a (pre ++ ⟨x.addr, x.size + (sizeofBlockMeta + y.size), true⟩ :: post) := by
  induction pre generalizing a with
  | nil =>
    rw [List.nil_append, List.nil_append]
    by_cases ha : a.free = true
    · rw [mergeBlocks_joined ha hx, mergeBlocks_joined rfl hy, mergeBlocks_joined ha rfl]
      congr 2
      dsimp only
      omega
    · rw [mergeBlocks_kept fun h => ha h.1, mergeBlocks_kept fun h => ha h.1, mergeBlocks_joined hx hy]
  | cons d pre ih =>
    rw [List.cons_append, List.cons_append, mergeBlocks, mergeBlocks]
    split_ifs
    · exact ih _
    · rw [ih]

theorem mergeList_pair (hx : x.free = true) (hy : y.free = true) : mergeList (pre ++ x :: y :: post) =
    mergeList (pre ++ ⟨x.addr, x.size + (sizeofBlockMeta + y.size), true⟩ :: post) := by
  cases pre with
  | nil => exact mergeBlocks_joined hx hy
  | cons a pre => exact mergeBlocks_pair a hx hy

theorem mergeBlocks_self (h : Coalesced (b :: l)) : mergeBlocks b l = b :: l := by
  induction l generalizing b with
  | nil => rfl
  | cons c l ih =>
    obtain ⟨hbc, hcl⟩ := List.isChain_cons_cons.mp h
    rw [mergeBlocks, if_neg hbc, ih hcl]

theorem mergeList_self (h : Coalesced l) : mergeList l = l := by
  cases l with
  | nil => rfl
  | cons b l => exact mergeBlocks_self h

theorem Coalesced.replace (h : Coalesced (pre ++ b :: post)) (hf : c.free = b.free) :
    Coalesced (pre ++ c :: post) := by
  obtain ⟨hpre, hpost, hjoin⟩ := List.isChain_append.mp h
  obtain ⟨hnext, hpost⟩ := List.isChain_cons.mp hpost
  refine List.isChain_append.mpr ⟨hpre, List.isChain_cons.mpr ⟨fun y hy => ?_, hpost⟩, fun x hx y hy => ?_⟩
  · rw [hf]
    exact hnext y hy
  · cases hy
    rw [hf]
    exact hjoin x hx b rfl

theorem Within.split_eq (h : Within lo (pre ++ b :: post) hi) (he : pre ++ b :: post = pre' ++ c :: post')
    (ha : b.addr = c.addr) : pre = pre' ∧ b = c ∧ post = post' := by
  induction pre generalizing lo pre' with
  | nil =>
    cases pre' with
    | nil =>
      obtain ⟨rfl, rfl⟩ := List.cons.inj he
      exact ⟨rfl, rfl, rfl⟩
    | cons d pre' =>
      obtain ⟨rfl, rfl⟩ := List.cons.inj he
      have hlt := (h.2.2.of_mem (b := c) (by simp)).1
      unfold Block.stop sizeofBlockMeta at hlt
      omega
  | cons d pre ih =>
    cases pre' with
    | nil =>
      obtain ⟨rfl, rfl⟩ := List.cons.inj he
      have hlt := (h.2.2.of_mem (b := b) (by simp)).1
      unfold Block.stop sizeofBlockMeta at hlt
      omega
    | cons d' pre' =>
      obtain ⟨rfl, hrest⟩ := List.cons.inj he
      obtain ⟨rfl, hsame⟩ := ih h.2.2 hrest
      exact ⟨rfl, hsame⟩

theorem released_rejoins (hw : Within lo (pre ++ (cutBlocks b post size ++ post)) hi)
    (hc : Coalesced (pre ++ b :: post)) (hf : b.free = true)
    (h : Released b.addr (pre ++ (cutBlocks b post size ++ post)) l) :
    l = pre ++ rejoined b post size :: post := by
  generalize hcut : pre ++ (cutBlocks b post size ++ post) = cut at h hw
  cases h with
  | @release pre' post' d hd =>
    rw [cutBlocks] at hcut
    rw [rejoined]
    by_cases hs : Splits b post size
    · rw [if_pos hs] at hcut ⊢
      rw [← hcut] at hw
      obtain ⟨rfl, rfl, rfl⟩ := Within.split_eq hw hcut hd.symm
      have hpair :
          mergeList
          (pre ++ ⟨b.addr, size, true⟩ :: ⟨restAddr b size, (restSize b post size).toNat, true⟩ :: post) =
          mergeList (pre ++ ⟨b.addr, size + (sizeofBlockMeta + (restSize b post size).toNat), true⟩ :: post) :=
        mergeList_pair rfl rfl
      exact hpair.trans (mergeList_self (hc.replace hf.symm))
    · rw [if_neg hs] at hcut ⊢
      rw [← hcut] at hw
      obtain ⟨rfl, rfl, rfl⟩ := Within.split_eq hw hcut hd.symm
      have hb : ({ b with free := true } : Block) = b := by
        cases b
        cases hf
        rfl
      change mergeList (pre ++ { b with free := true } :: post) = _
      rw [hb]
      exact mergeList_self hc

end Lists

/-- `free(allocate(size))`. -/
def allocateFree (m : Memory) (size : ℕ) : Option Memory := do
  let (m, p) ← m.allocate size
  m.free p

def pairs (size : ℕ) : ℕ → Memory → Option Memory
  | 0, m => some m
  | k + 1, m => do
    let m ← allocateFree m size
    pairs size k m

/-- A pair gives back the block list as it was, and the count. -/
def Restores (m : Memory) (size : ℕ) : Prop :=
  ∃ m', allocateFree m size = some m' ∧ (∀ l, Listed m'.ram m'.base l ↔ Listed m.ram m.base l) ∧
    m'.getAllocated = m.getAllocated

def NeverGrows (m : Memory) (size : ℕ) : Prop := ∀ k, ∃ m', pairs size k m = some m' ∧ m'.end_ = m.end_

/-- A block that is cut has a successor, and the gap left in front of the rest's
header is the one there was in front of the successor's. -/
def KeepsGap (b : Block) (post : List Block) (size : ℕ) : Prop :=
  Splits b post size → ∃ c ∈ post.head?, c.addr + size = restAddr b size + b.size

def FoundKeepsGap (m : Memory) (size : ℕ) : Prop :=
  ∃ pre b post, Listed m.ram m.base (pre ++ b :: post) ∧ (∀ c ∈ pre, ¬c.Fits size) ∧ b.Fits size ∧ KeepsGap b post size

section Pairs
variable {m : Memory} {size : ℕ} {b : Block} {pre post : List Block} {live : List (ℕ × ℕ)}

theorem allocateFree_spec (hk : Kept m (pre ++ b :: post) live) (h0 : size ≠ 0) (hno : ∀ c ∈ pre, ¬c.Fits size)
    (hb : b.Fits size) :
    ∃ m', allocateFree m size = some m' ∧ Kept m' (pre ++ rejoined b post size :: post) live ∧
      m'.allocated = m.allocated ∧ m'.start = m.start ∧ m'.end_ = m.end_ := by
  obtain ⟨b', haddr, hdone⟩ := reused hk hno hb
  have hcall := allocate_found hk h0 hno hb
  generalize handOut { m with ram := setFree (split m.ram b.addr size) b.addr false } b.addr = r at hcall hdone
  obtain ⟨m₁, p⟩ := r
  dsimp only at hdone
  have hk₁ := hdone.kept hk
  obtain ⟨b₂, m₂, l₂, hmem, hused, hp, hfree, hfreed⟩ := free_spec hk₁ List.mem_cons_self
  have hresult := hdone.result
  obtain rfl : b₂ = b' := hk₁.sound.within.eq_of_addr hmem hdone.placed.holds.1 (by omega)
  have hk₂ := hfreed.kept hk₁ hmem hused
  have hlist : l₂ = pre ++ rejoined b post size :: post := by
    have hreleased := hfreed.released
    rw [haddr] at hreleased
    exact released_rejoins hk₁.sound.within hk.sound.coalesced hb.1 hreleased
  have hlive : ((p, size) :: live).filter (fun x => x.1 ≠ b₂.addr + sizeofBlockMeta) = live := by
    have hdistinct := List.nodup_cons.mp hk₁.sound.distinct
    rw [← hp, List.filter_cons_of_neg (by simp)]
    refine List.filter_eq_self.mpr fun x hx => ?_
    have hne : x.1 ≠ p := fun he => hdistinct.1 (List.mem_map.mpr ⟨x, hx, he⟩)
    exact decide_eq_true hne
  rw [hlive, hlist] at hk₂
  refine ⟨m₂, ?_, hk₂, ?_, ?_, ?_⟩
  · rw [allocateFree, hcall]
    exact hfree
  · rw [hfreed.same, hdone.counted]
    exact Nat.add_sub_cancel _ _
  · rw [hfreed.same]
    exact hdone.start_eq
  · rw [hfreed.same]
    rcases hdone.pages with ⟨-, hend, -⟩ | ⟨hnot, -⟩
    · exact hend
    · exact absurd ⟨_, hk.listed, b, by simp, hb⟩ hnot

theorem toInt_eq {d : ℤ} (hlow : -(2 ^ 31) ≤ d) (hhigh : d < 2 ^ 31) : toInt d = d := by
  unfold toInt
  rw [Int.bmod_def]
  split <;> omega

theorem rejoined_iff {lo hi : ℕ} (hw : Within lo (pre ++ b :: post) hi) (hextent : hi < lo + 2 ^ 31)
    (hb : b.Fits size) : rejoined b post size = b ↔ KeepsGap b post size := by
  rw [rejoined]
  by_cases hs : Splits b post size
  · obtain ⟨mid, hpre, hmid, hmod, hpost⟩ := within_append.mp hw
    have hlo := hpre.le
    have hge := aligned_ge (b.addr + size + sizeofBlockMeta + 1)
    have hlt := aligned_lt (b.addr + size + sizeofBlockMeta + 1)
    have hroom := hs.1
    have hpos := hs.2
    have hsize : (⟨b.addr, size + (sizeofBlockMeta + (restSize b post size).toNat), true⟩ : Block) = b ↔
        size + (sizeofBlockMeta + (restSize b post size).toNat) = b.size := by
      constructor
      · exact congrArg Block.size
      · intro he
        rw [he, ← hb.1]
    rw [if_pos hs, hsize]
    change _ ≤ restAddr b size at hge
    change restAddr b size < _ at hlt
    unfold KeepsGap
    rw [imp_iff_right hs]
    unfold sizeofBlockMeta at hge hlt hroom ⊢
    cases post with
    | nil =>
      -- the rest of the last block starts behind the header's place, and ends with the payload
      have hstop : b.stop ≤ hi := hpost
      unfold Block.stop sizeofBlockMeta at hstop
      have hrest : restSize b [] size = b.addr + b.size - restAddr b size := toInt_eq (by omega) (by omega)
      rw [hrest] at hpos ⊢
      refine iff_of_false (by omega) ?_
      rintro ⟨c, hc, -⟩
      cases hc
    | cons c post =>
      have hnext : b.stop ≤ c.addr := hpost.1
      have hstop := (hpost.of_mem List.mem_cons_self).2.2
      unfold Block.stop sizeofBlockMeta at hnext hstop
      have hrest : restSize b (c :: post) size = c.addr - restAddr b size - sizeofBlockMeta :=
        toInt_eq (by unfold sizeofBlockMeta; omega) (by unfold sizeofBlockMeta; omega)
      rw [hrest] at hpos ⊢
      unfold sizeofBlockMeta at hpos ⊢
      constructor
      · exact fun he => ⟨c, rfl, by omega⟩
      · rintro ⟨d, hd, he⟩
        cases hd
        omega
  · rw [if_neg hs]
    exact iff_of_true rfl fun h => absurd h hs

theorem pairs_spec (hk : Kept m (pre ++ b :: post) live) (h0 : size ≠ 0) (hno : ∀ c ∈ pre, ¬c.Fits size)
    (hb : b.Fits size) (hkeeps : rejoined b post size = b) (k : ℕ) :
    ∃ m', pairs size k m = some m' ∧ m'.end_ = m.end_ := by
  induction k generalizing m with
  | zero => exact ⟨m, rfl, rfl⟩
  | succ k ih =>
    obtain ⟨m₁, hpair, hk₁, -, -, hend⟩ := allocateFree_spec hk h0 hno hb
    rw [hkeeps] at hk₁
    obtain ⟨m', hpairs, hend'⟩ := ih hk₁
    refine ⟨m', ?_, hend'.trans hend⟩
    rw [pairs, hpair]
    exact hpairs

theorem restores_kept (hk : Kept m (pre ++ b :: post) live) (h0 : size ≠ 0) (hno : ∀ c ∈ pre, ¬c.Fits size)
    (hb : b.Fits size) : Restores m size ↔ rejoined b post size = b := by
  obtain ⟨m', hpair, hk', hcount, -, -⟩ := allocateFree_spec hk h0 hno hb
  constructor
  · rintro ⟨m₂, hpair₂, hlists, -⟩
    obtain rfl := Option.some.inj (hpair.symm.trans hpair₂)
    have hsame := hk'.listed.unique ((hlists _).mpr hk.listed)
    exact (List.cons.inj (List.append_cancel_left hsame)).1
  · intro hkeeps
    refine ⟨m', hpair, fun l => ?_, hcount⟩
    rw [hkeeps] at hk'
    constructor
    · intro hl
      rw [hl.unique hk'.listed]
      exact hk.listed
    · intro hl
      rw [hl.unique hk.listed]
      exact hk'.listed

theorem foundKeepsGap_iff (hk : Kept m (pre ++ b :: post) live) (hno : ∀ c ∈ pre, ¬c.Fits size)
    (hb : b.Fits size) : FoundKeepsGap m size ↔ KeepsGap b post size := by
  constructor
  · rintro ⟨pre', c, post', hl, hno', hc, hkeeps⟩
    obtain ⟨rfl, rfl, rfl⟩ := first_fit_unique (hk.listed.unique hl) hno hb hno' hc
    exact hkeeps
  · exact fun hkeeps => ⟨pre, b, post, hk.listed, hno, hb, hkeeps⟩

theorem pairs_zero (m : Memory) (k : ℕ) : pairs 0 k m = some m := by
  induction k with
  | zero => rfl
  | succ k ih => exact ih

end Pairs

/-- In every state that calls lead to, with its extent below 2^31, and for every size
that a block on the list can take. -/
theorem pair_restores_iff {new_start : ℕ} (hstart : new_start < 2 ^ 64) (new_high : ℕ)
    (ram : Store) {calls : List Call}
    (hcalls : Throughout next (fun s c => Proper s c ∧ c.Roomy s) (fresh new_start new_high ram) calls) {s : Heap}
    (hs : s = after next (fresh new_start new_high ram) calls)
    (hextent : s.memory.end_ < s.memory.start + 2 ^ 31) {size : ℕ}
    (hfit : Fitting s.memory size) :
    Restores s.memory size ∧ NeverGrows s.memory size ↔ size = 0 ∨ FoundKeepsGap s.memory size := by
  by_cases h0 : size = 0
  · subst h0
    exact iff_of_true ⟨⟨s.memory, rfl, fun l => Iff.rfl, rfl⟩, fun k => ⟨s.memory, pairs_zero _ k, rfl⟩⟩
      (.inl rfl)
  · rw [or_iff_right h0]
    obtain ⟨l, hk⟩ := reached_kept hstart new_high ram hcalls hs
    rcases first_fit size l with hno | ⟨pre, b, post, rfl, hno, hb⟩
    · exact absurd hfit (hk.not_fitting hno)
    · have hreach : reach s.memory.start s.memory.end_ < s.memory.start + 2 ^ 31 := by
        unfold reach
        omega
      rw [foundKeepsGap_iff hk hno hb, ← rejoined_iff hk.sound.within hreach hb, restores_kept hk h0 hno hb]
      exact and_iff_left_of_imp fun hkeeps => pairs_spec hk h0 hno hb hkeeps

section Sample

def sampleCalls : List Call := [.allocate 1000, .free 4128]

theorem sample_kept :
    Throughout next (fun s c => Proper s c ∧ c.Roomy s) (fresh 4096 8192 fun _ => 0) sampleCalls ∧
    ∃ m, after next (fresh 4096 8192 fun _ => 0) sampleCalls = ⟨m, []⟩ ∧ Kept m [⟨4104, 1000, true⟩] [] ∧
      m.end_ = 5129 ∧ m.start = 4104 := by
  have hroom : Call.Roomy (fresh 4096 8192 fun _ => 0) (.allocate 1000) := .inr (.inr (by decide))
  obtain ⟨m₁, hcall, hk₁, hstart, hend⟩ := @fresh_allocate 1000 (by decide) (by decide)
  have hfirst := next_allocate hcall (by decide)
  obtain ⟨b, m₂, l, hmem, hused, -, hfree, hfreed⟩ := free_spec hk₁ List.mem_cons_self
  obtain rfl := List.mem_singleton.mp hmem
  have hk₂ := hfreed.kept hk₁ hmem hused
  have hsecond := next_free (s := ⟨m₁, (4128, 1000) :: (fresh 4096 8192 fun _ => 0).live⟩) hfree
  have hlist : l = [⟨4104, 1000, true⟩] := by
    have hreleased := hfreed.released
    generalize hl : [(⟨4104, 1000, false⟩ : Block)] = before at hreleased
    cases hreleased with
    | @release pre post d hd =>
      obtain ⟨rfl, rfl, rfl⟩ :=
        Within.split_eq (show Within _ ([] ++ _ :: []) _ from hk₁.sound.within) hl hd.symm
      rfl
  rw [hlist] at hk₂
  refine ⟨throughout_cons.mpr ⟨⟨trivial, hroom⟩, ?_⟩, m₂, ?_, hk₂, ?_, ?_⟩
  · rw [hfirst]
    exact throughout_cons.mpr ⟨⟨⟨1000, List.mem_cons_self⟩, trivial⟩, throughout_nil⟩
  · rw [sampleCalls, after_cons, hfirst, after_cons, hsecond]
    rfl
  · rw [hfreed.same]
    exact hend
  · rw [hfreed.same]
    exact hstart

/-- A request for all of the free block. -/
theorem pair_restores_whole : Restores (after next (fresh 4096 8192 fun _ => 0) sampleCalls).memory 1000 ∧
    NeverGrows (after next (fresh 4096 8192 fun _ => 0) sampleCalls).memory 1000 := by
  obtain ⟨hcalls, m, hs, hk, hend, hstart⟩ := sample_kept
  have hfits : Block.Fits 1000 ⟨4104, 1000, true⟩ := ⟨rfl, le_refl 1000⟩
  refine (pair_restores_iff (by decide) 8192 _ hcalls rfl ?_ ?_).mpr (.inr ?_)
  · rw [hs, hend, hstart]
    omega
  · rw [hs]
    exact ⟨_, hk.listed, _, List.mem_singleton_self _, hfits⟩
  · rw [hs]
    exact ⟨[], _, [], hk.listed, fun c hc => (by cases hc), hfits, fun h => absurd h.1 (by decide)⟩

/-- A request for 100 bytes of it: the block comes back 4 bytes smaller. -/
theorem pair_leaks : ∃ m, after next (fresh 4096 8192 fun _ => 0) sampleCalls = ⟨m, []⟩ ∧
    Listed m.ram m.base [⟨4104, 1000, true⟩] ∧ ¬Restores m 100 ∧
      ∃ m', allocateFree m 100 = some m' ∧ Listed m'.ram m'.base [⟨4104, 996, true⟩] := by
  obtain ⟨hcalls, m, hs, hk, -, -⟩ := sample_kept
  have hfits : Block.Fits 100 ⟨4104, 1000, true⟩ := ⟨rfl, by decide⟩
  have hno : ∀ c ∈ ([] : List Block), ¬c.Fits 100 := fun c hc => by cases hc
  have hleft : rejoined ⟨4104, 1000, true⟩ [] 100 = ⟨4104, 996, true⟩ := by
    rw [rejoined, if_pos (by decide)]
    rfl
  obtain ⟨m', hpair, hk', -⟩ := @allocateFree_spec m 100 _ [] [] [] hk (by decide) hno hfits
  rw [hleft] at hk'
  refine ⟨m, hs, hk.listed, fun hr => ?_, m', hpair, hk'.listed⟩
  have hsame := (@restores_kept m 100 _ [] [] [] hk (by decide) hno hfits).mp hr
  rw [hleft] at hsame
  exact absurd (congrArg Block.size hsame) (by decide)

end Sample

end Thorn.Heap
