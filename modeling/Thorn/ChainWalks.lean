import Thorn.FatEffects
import Thorn.FatSample

set_option autoImplicit false

namespace Thorn.FatDriver
open ByteStore Paths FatTypes FatOperations FatImage LinkedChain

def IsBlock (b : ℤ) : Prop := -2 ^ 31 ≤ b ∧ b < 2 ^ 31

theorem fat_isBlock (s : Fs) (b : ℤ) : IsBlock (s.fat b) := by
  have hrange := toInt32_range (s.fat b)
  rwa [fat_toInt32] at hrange

theorem start_isBlock (e : DirEntry) : IsBlock e.start := by
  have hlow := e.startBlock.le_toInt
  have hhigh := e.startBlock.toInt_lt
  unfold DirEntry.start IsBlock
  omega

theorem putFAT_cell (s : Fs) (v : ℤ) {b c : ℤ} (hb : IsBlock b) (hc : IsBlock c) :
    (s.putFAT v b).fat c = if c = b then toInt32 v else s.fat c := by
  have hcell : (s.putFAT v b).fat c = blockOfBytes (slice (patch s.partition.parent.bytes
      ((s.partition.offset + fatOffset s.superblock b) % 2 ^ 64) (blockBytes v))
        ((s.partition.offset + fatOffset s.superblock c) % 2 ^ 64) 4) := by
    rw [Driver.fat, cellAt]
    rfl
  rw [hcell]
  by_cases h : c = b
  · have hself := slice_patch_self s.partition.parent.bytes
      ((s.partition.offset + fatOffset s.superblock c) % 2 ^ 64) (blockBytes v)
    rw [blockBytes_length] at hself
    rw [if_pos h, ← h, hself, blockOfBytes_blockBytes]
  · rw [if_neg h, slice_patch_disjoint, Driver.fat, cellAt]
    rw [blockBytes_length]
    unfold IsBlock at hb hc
    simp only [fatOffset, toSize]
    omega

/-- The walk from block `b` along the links of a table: after so many blocks a cell holds no link, but `v`. -/
inductive WalkEnds (fat : ℤ → ℤ) : ℤ → ℕ → ℤ → Prop
  | stop {b : ℤ} (h : fat b ≤ 0) : WalkEnds fat b 1 (fat b)
  | link {b v : ℤ} {n : ℕ} (h : 0 < fat b) (t : WalkEnds fat (fat b) n v) : WalkEnds fat b (n + 1) v

section Walks
variable {fat : ℤ → ℤ} {b v w : ℤ} {m n : ℕ}

theorem WalkEnds.pos (h : WalkEnds fat b n v) : 0 < n := by
  cases h <;> omega

theorem walkEnds_stop (h : fat b ≤ 0) : WalkEnds fat b n v ↔ n = 1 ∧ v = fat b := by
  constructor
  · intro hw
    cases hw with
    | stop => exact ⟨rfl, rfl⟩
    | link h' => omega
  · rintro ⟨rfl, rfl⟩
    exact .stop h

theorem walkEnds_link (h : 0 < fat b) : WalkEnds fat b n v ↔ ∃ m, n = m + 1 ∧ WalkEnds fat (fat b) m v := by
  constructor
  · intro hw
    cases hw with
    | stop h' => omega
    | link _ t => exact ⟨_, rfl, t⟩
  · rintro ⟨m, rfl, t⟩
    exact .link h t

theorem WalkEnds.unique (h : WalkEnds fat b n v) (h' : WalkEnds fat b m w) : n = m ∧ v = w := by
  induction h generalizing m with
  | stop hs =>
    obtain ⟨rfl, rfl⟩ := (walkEnds_stop hs).mp h'
    exact ⟨rfl, rfl⟩
  | link hl t ih =>
    obtain ⟨m, rfl, t'⟩ := (walkEnds_link hl).mp h'
    obtain ⟨rfl, rfl⟩ := ih t'
    exact ⟨rfl, rfl⟩

theorem WalkEnds.chain (h : WalkEnds fat b n v) : ∃ l, l.length = n ∧
    Chain (fun b => if 0 < fat b then some (fat b) else none) (fun b => fat b ≤ 0) b l := by
  induction h with
  | @stop b h => exact ⟨[b], rfl, .last h⟩
  | @link b v n h t ih =>
    obtain ⟨l, hl, hc⟩ := ih
    exact ⟨b :: l, by rw [List.length_cons, hl], .link (if_pos h) hc⟩

theorem not_walkEnds_self (h : fat b = b) (hb : 0 < b) : ¬ WalkEnds fat b n v := by
  intro hw
  obtain ⟨l, -, hc⟩ := hw.chain
  exact hc.not_self (fun x hx => if_neg (not_lt.mpr hx)) (by rw [h, if_pos hb])

theorem blocks_bounded {l : List ℤ} (hn : l.Nodup) (hl : ∀ b ∈ l, IsBlock b) : l.length ≤ 2 ^ 32 := by
  have hsub : l.toFinset ⊆ Finset.Ico (-2 ^ 31) (2 ^ 31) := by
    intro b hb
    rw [Finset.mem_Ico]
    exact hl b (List.mem_toFinset.mp hb)
  have hcard := Finset.card_le_card hsub
  rw [List.toFinset_card_of_nodup hn, Int.card_Ico] at hcard
  norm_num at hcard ⊢
  exact hcard

theorem WalkEnds.length_le (hf : ∀ b, IsBlock (fat b)) (hb : IsBlock b) (h : WalkEnds fat b n v) :
    n ≤ 2 ^ 32 := by
  obtain ⟨l, rfl, hc⟩ := h.chain
  apply blocks_bounded
  · exact hc.nodup fun x hx => if_neg (not_lt.mpr hx)
  · apply hc.forall_mem hb
    intro x y hxy
    split_ifs at hxy
    obtain rfl := Option.some.inj hxy
    exact hf x

end Walks

section Returns
variable {s : Fs} {b v : ℤ} {n : ℕ}

theorem chainLengthLoop_walk (h : WalkEnds s.fat b n v) (hv : -2 ≤ v) (fuel length : ℕ) (hn : n ≤ fuel) :
    chainLengthLoop fuel b length s = some (length + n, s) := by
  induction h generalizing fuel length with
  | @stop b h =>
    obtain ⟨fuel, rfl⟩ := Nat.exists_eq_add_of_le' hn
    rw [chainLengthLoop, run_bind, run_readFAT, Option.bind_some, run_ite, if_pos (by omega), run_pure]
  | @link b v n h t ih =>
    obtain ⟨fuel, rfl⟩ : ∃ m, fuel = m + 1 := ⟨fuel - 1, by omega⟩
    rw [chainLengthLoop, run_bind, run_readFAT, Option.bind_some, run_ite, if_neg (by omega), run_ite,
      if_neg (by omega), ih hv fuel (length + 1) (by omega), Nat.add_assoc, Nat.add_comm 1]

theorem walk_of_chainLengthLoop (fuel length : ℕ) (h : chainLengthLoop fuel b length s ≠ none) :
    ∃ n v, WalkEnds s.fat b n v ∧ -2 ≤ v := by
  induction fuel generalizing b length with
  | zero => exact absurd rfl h
  | succ fuel ih =>
    rw [chainLengthLoop, run_bind, run_readFAT, Option.bind_some] at h
    dsimp only at h
    split_ifs at h with hend hbad
    · exact ⟨1, s.fat b, .stop (by omega), by omega⟩
    · exact absurd rfl h
    · obtain ⟨n, v, hw, hv⟩ := ih (length + 1) h
      exact ⟨n + 1, v, .link (by omega) hw, hv⟩

theorem WalkEnds.le_fuel (hb : IsBlock b) (h : WalkEnds s.fat b n v) : n ≤ walkFuel s.superblock :=
  (h.length_le (fat_isBlock s) hb).trans (Nat.le_add_right _ _)

theorem chainLength_returns (hb : IsBlock b) :
    chainLength b s ≠ none ↔ ∃ n v, WalkEnds s.fat b n v ∧ -2 ≤ v := by
  rw [chainLength, run_bind, run_get, Option.bind_some, run_bind, run_readFAT, Option.bind_some, run_ite]
  by_cases h0 : s.fat b = 0
  · rw [if_pos h0, run_pure]
    exact iff_of_true (Option.some_ne_none _) ⟨1, s.fat b, .stop h0.le, by omega⟩
  · rw [if_neg h0]
    refine ⟨walk_of_chainLengthLoop _ 0, ?_⟩
    rintro ⟨n, v, hw, hv⟩
    have hrun := chainLengthLoop_walk hw hv _ 0 (hw.le_fuel hb)
    dsimp only
    rw [hrun]
    exact Option.some_ne_none _

theorem tailLoop_returns (hb : IsBlock b) :
    tailLoop (walkFuel s.superblock) b s ≠ none ↔ ∃ n v, WalkEnds s.fat b n v := by
  constructor
  · generalize walkFuel s.superblock = fuel
    intro h
    clear hb
    induction fuel generalizing b with
    | zero => exact absurd rfl h
    | succ fuel ih =>
      rw [tailLoop, run_bind, run_readFAT, Option.bind_some, run_ite] at h
      split_ifs at h with hend
      · exact ⟨1, s.fat b, .stop hend⟩
      · obtain ⟨n, v, hw⟩ := ih h
        exact ⟨n + 1, v, .link (not_le.mp hend) hw⟩
  · rintro ⟨n, v, hw⟩
    have hn := hw.le_fuel hb
    clear hb
    generalize walkFuel s.superblock = fuel at hn
    induction hw generalizing fuel with
    | stop h =>
      obtain ⟨fuel, rfl⟩ := Nat.exists_eq_add_of_le' hn
      rw [tailLoop, run_bind, run_readFAT, Option.bind_some, run_ite, if_pos h]
      exact Option.some_ne_none _
    | link h t ih =>
      obtain ⟨fuel, rfl⟩ : ∃ m, fuel = m + 1 := ⟨fuel - 1, by omega⟩
      rw [tailLoop, run_bind, run_readFAT, Option.bind_some, run_ite, if_neg (not_le.mpr h)]
      exact ih fuel (by omega)

/-- The trimming loop ends on every table: it clears the cells it has passed. -/
theorem shrinkLoop_returns (passed : List ℤ) (hnodup : passed.Nodup) (hrange : ∀ x ∈ passed, IsBlock x)
    (hclear : ∀ x ∈ passed, s.fat x = 0) (hb : IsBlock b) (fuel : ℕ) (hfuel : 2 ^ 32 < passed.length + fuel) :
    shrinkLoop fuel b s ≠ none := by
  induction fuel generalizing passed b s with
  | zero =>
    have := blocks_bounded hnodup hrange
    omega
  | succ fuel ih =>
    rw [shrinkLoop, run_bind, run_readFAT, Option.bind_some, run_bind, run_get, Option.bind_some, run_ite]
    by_cases hend : s.fat b = FINAL ∨ s.fat b = 0 ∨ toInt32 s.superblock.fatBlocks ≤ s.fat b
    · rw [if_pos hend]
      exact Option.some_ne_none _
    · rw [if_neg hend, run_bind, run_writeFAT, Option.bind_some, run_bind, run_addBlocksFree, Option.bind_some]
      have hnew : b ∉ passed := fun hm => hend (.inr (.inl (hclear b hm)))
      have hcell : ∀ x, IsBlock x → (s.putFAT 0 b).fat x = if x = b then 0 else s.fat x := fun x hx =>
        putFAT_cell s 0 hb hx
      apply ih (b :: passed) (List.nodup_cons.mpr ⟨hnew, hnodup⟩)
      · intro x hx
        rcases List.mem_cons.mp hx with rfl | hx
        · exact hb
        · exact hrange x hx
      · intro x hx
        change (s.putFAT 0 b).fat x = 0
        rcases List.mem_cons.mp hx with rfl | hx
        · rw [hcell x hb, if_pos rfl]
        · rw [hcell x (hrange x hx), hclear x hx, ite_self]
      · exact fat_isBlock s b
      · simp only [List.length_cons]
        omega

/-- The chain gives `readFile` the blocks of a length, or ends in `FINAL` before. -/
def Feeds (fat : ℤ → ℤ) (blocks n : ℕ) (v : ℤ) : Prop := v = FINAL ∨ blocks ≤ n ∨ n + 1 < blocks ∧ fat v = FINAL

theorem readFileLoop_returns {file : DirEntry} {bs : ℕ} (hbs : 0 < bs) (hcount : 0 < s.blockCount)
    (fuel remaining : ℕ)
    (out : List UInt8) (h0 : 0 < remaining) (hfuel : remaining ≤ fuel) (hb : 0 < b) (hblock : IsBlock b) :
    readFileLoop file bs fuel remaining b out s ≠ none ↔
      ∀ n v, WalkEnds s.fat b n v → Feeds s.fat (updiv remaining bs) n v := by
  induction fuel generalizing remaining b out with
  | zero => omega
  | succ fuel ih =>
    by_cases hle : remaining ≤ bs
    · have hone : updiv remaining bs ≤ 1 := (updiv_le_iff _ _ _ hbs).mpr (by omega)
      have hshrink : shrinkLoop (walkFuel s.superblock) (s.fat b) (s.putFAT FINAL b) ≠ none := by
        apply shrinkLoop_returns [] List.nodup_nil (by simp) (by simp) (fat_isBlock s b)
        have hcount' : 0 < s.superblock.blockCount := hcount
        unfold walkFuel
        simp only [List.length_nil]
        omega
      refine iff_of_true ?_ fun n v hw => .inr (.inl (hone.trans hw.pos))
      rw [run_readFileLoop_last h0 hle hb]
      obtain ⟨r, hr⟩ := Option.ne_none_iff_exists'.mp hshrink
      rw [hr]
      split_ifs <;> exact Option.some_ne_none _
    · have hmore := updiv_sub hbs (not_le.mp hle)
      rw [run_readFileLoop_more (not_le.mp hle), if_neg (show ¬ b < 1 by omega)]
      by_cases hf : s.fat b = FINAL
      · rw [if_pos hf]
        refine iff_of_true (Option.some_ne_none _) fun n v hw => .inl ?_
        rw [((walkEnds_stop (by rw [hf]; decide)).mp hw).2, hf]
      · rw [if_neg hf]
        by_cases hlink : 0 < s.fat b
        · rw [ih (remaining - bs) _ (by omega) (by omega) hlink (fat_isBlock s b)]
          constructor
          · intro h n v hw
            obtain ⟨m, rfl, t⟩ := (walkEnds_link hlink).mp hw
            rcases h m v t with hv | hm | ⟨hm, hv⟩
            · exact .inl hv
            · exact .inr (.inl (by omega))
            · exact .inr (.inr ⟨by omega, hv⟩)
          · intro h m v t
            rcases h (m + 1) v (.link hlink t) with hv | hm | ⟨hm, hv⟩
            · exact .inl hv
            · exact .inr (.inl (by omega))
            · exact .inr (.inr ⟨by omega, hv⟩)
        · have hwalk : (∀ n v, WalkEnds s.fat b n v → Feeds s.fat (updiv remaining bs) n v) ↔
              Feeds s.fat (updiv remaining bs) 1 (s.fat b) := by
            constructor
            · exact fun h => h 1 _ (.stop (not_lt.mp hlink))
            · intro h n v hw
              obtain ⟨rfl, rfl⟩ := (walkEnds_stop (not_lt.mp hlink)).mp hw
              exact h
          have hpos := updiv_pos (remaining - bs) bs hbs (by omega)
          obtain ⟨fuel, rfl⟩ : ∃ m, fuel = m + 1 := ⟨fuel - 1, by omega⟩
          rw [hwalk]
          by_cases hle' : remaining - bs ≤ bs
          · have hone := (updiv_le_iff (remaining - bs) bs 1 hbs).mpr (by omega)
            refine iff_of_false (not_not.mpr ?_) ?_
            · rw [readFileLoop, run_ite, if_neg (by omega), run_ite, if_pos hle', run_bind, checkBlock, run_ite,
                if_pos (by omega)]
              rfl
            · rintro (hv | hm | ⟨hm, -⟩)
              · exact hf hv
              · omega
              · omega
          · have hmore' := updiv_sub hbs (not_le.mp hle')
            have hpos' := updiv_pos (remaining - bs - bs) bs hbs (by omega)
            rw [run_readFileLoop_more (not_le.mp hle'), if_pos (show s.fat b < 1 by omega)]
            by_cases hquirk : s.fat (s.fat b) = FINAL
            · rw [if_pos hquirk]
              exact iff_of_true (Option.some_ne_none _) (.inr (.inr ⟨by omega, hquirk⟩))
            · rw [if_neg hquirk]
              refine iff_of_false (not_not.mpr rfl) ?_
              rintro (hv | hm | ⟨-, hv⟩)
              · exact hf hv
              · omega
              · exact hquirk hv

end Returns

structure WalksEnd (s : Fs) (file : DirEntry) : Prop where
  chainLength : chainLength file.start s ≠ none
  tail : tailLoop (walkFuel s.superblock) file.start s ≠ none
  readFile : readFile file s ≠ none

/-- The walks end just when the file's chain does, in a cell that holds `FINAL`, `UNUSABLE` or 0, and
with as many blocks as the file's length asks for unless it is `FINAL`. -/
theorem walks_end_iff (s : Fs) (file : DirEntry) (hbs : 0 < s.bs)
    (hstart : 0 < file.start ∧ file.start < s.blockCount) :
    WalksEnd s file ↔ ∃ n v, WalkEnds s.fat file.start n v ∧ -2 ≤ v ∧ Feeds s.fat (updiv file.len s.bs) n v := by
  obtain ⟨hpos, hlt⟩ := hstart
  have hcount : 0 < s.blockCount := by exact_mod_cast hpos.trans hlt
  have hblock := start_isBlock file
  have hlength := chainLength_returns (s := s) hblock
  have hread : readFile file s ≠ none ↔ ∀ n v,
      WalkEnds s.fat file.start n v → Feeds s.fat (updiv file.len s.bs) n v := by
    rw [readFile, run_bind, run_get, Option.bind_some, run_ite]
    by_cases h0 : file.len = 0
    · rw [if_pos h0, h0, updiv_zero, run_pure]
      exact iff_of_true (Option.some_ne_none _) fun n v _ => .inr (.inl (Nat.zero_le n))
    · rw [if_neg h0]
      exact readFileLoop_returns hbs hcount _ _ [] (Nat.pos_of_ne_zero h0) (Nat.le_add_right _ _) hpos hblock
  constructor
  · intro h
    obtain ⟨n, v, hw, hv⟩ := hlength.mp h.chainLength
    exact ⟨n, v, hw, hv, hread.mp h.readFile n v hw⟩
  · rintro ⟨n, v, hw, hv, hfeeds⟩
    refine ⟨hlength.mpr ⟨n, v, hw, hv⟩, (tailLoop_returns hblock).mpr ⟨n, v, hw⟩, hread.mpr fun m w hw' => ?_⟩
    obtain ⟨rfl, rfl⟩ := hw.unique hw'
    exact hfeeds

/-- What trimming is to make of a directory's chain `l` when its length asks for `m` blocks. -/
structure Trimmed (s t : Fs) (b : ℕ) (l : List ℕ) (m : ℕ) : Prop where
  chain : Chain t.image.next t.image.Final b (l.take m)
  surplus : ∀ x ∈ l.drop m, t.fat x = 0
  others : ∀ x : ℕ, x < s.blockCount → x ∉ l.drop (m - 1) → t.fat x = s.fat x
  counter : t.blocksFree = s.blocksFree + (l.length - m : ℕ)

section Trimming
variable {s : Fs} {b : ℕ} {l : List ℕ}

theorem chain_isBlock (hc : Chain s.image.next s.image.Final b l) (hb : IsBlock b) :
    ∀ x ∈ l, IsBlock (x : ℤ) := by
  induction hc with
  | last => simpa using hb
  | @link b c l hn t ih =>
    intro x hx
    rcases List.mem_cons.mp hx with rfl | hx
    · exact hb
    · exact ih (fat_of_next hn ▸ fat_isBlock s b) x hx

theorem chain_putFAT_cell (hc : Chain s.image.next s.image.Final b l) (hblock : ∀ x ∈ l, IsBlock (x : ℤ))
    (v : ℤ) {c : ℤ} (hcb : IsBlock c) (hno : ∀ x ∈ l, (x : ℤ) ≠ c) :
    Chain (s.putFAT v c).image.next (s.putFAT v c).image.Final b l := by
  have hcell : ∀ x ∈ l, (s.putFAT v c).fat x = s.fat x := fun x hx => by
    rw [putFAT_cell s v hcb (hblock x hx), if_neg (hno x hx)]
  apply hc.congr
  · exact fun x hx => Image.next_congr (hcell x hx)
  · intro x hx hf
    exact (hcell x hx).trans hf

theorem shrinkLoop_keeps (hc : Chain s.image.next s.image.Final b l) (hblock : ∀ x ∈ l, IsBlock (x : ℤ))
    (fuel : ℕ) (hfuel : l.length ≤ fuel) : ∃ t, shrinkLoop fuel b s = some ((), t) ∧
      ∀ x : ℕ, IsBlock x → x ∉ l.dropLast → t.fat x = s.fat x := by
  induction fuel generalizing s b l with
  | zero =>
    have := hc.length_pos
    omega
  | succ fuel ih =>
    rw [shrinkLoop, run_bind, run_readFAT, Option.bind_some, run_bind, run_get, Option.bind_some, run_ite]
    by_cases hend : s.fat b = FINAL ∨ s.fat b = 0 ∨ toInt32 s.superblock.fatBlocks ≤ s.fat b
    · rw [if_pos hend]
      exact ⟨s, rfl, fun _ _ _ => rfl⟩
    · rw [if_neg hend, run_bind, run_writeFAT, Option.bind_some, run_bind, run_addBlocksFree, Option.bind_some]
      have hnodup := hc.nodup Image.next_excl
      cases hc with
      | last hf => exact absurd (.inl hf) hend
      | @link _ c l hn tail =>
        have hb := hblock b (by simp)
        have hnot := (List.nodup_cons.mp hnodup).1
        have hlast : (b :: l).dropLast = b :: l.dropLast := List.dropLast_cons_of_ne_nil tail.ne_nil
        have hcleared := chain_putFAT_cell tail (fun x hx => hblock x (by simp [hx])) 0 hb
          fun x hx he => hnot (Int.ofNat_inj.mp he ▸ hx)
        obtain ⟨t, hrun, hkeep⟩ := ih (s := (s.putFAT 0 b).addFree 1) hcleared
          (fun x hx => hblock x (by simp [hx])) (by simpa using hfuel)
        rw [fat_of_next hn]
        refine ⟨t, hrun, fun x hx hno => ?_⟩
        rw [hlast, List.mem_cons, not_or] at hno
        have hcell := putFAT_cell s 0 hb hx
        rw [if_neg (by exact_mod_cast hno.1)] at hcell
        exact (hkeep x hx hno.2).trans hcell

/-- Reading a directory whose chain is too long runs the trimming loop behind the last block it needs. -/
theorem run_readFileLoop_surplus {file : DirEntry} {bs : ℕ} (hbs : 0 < bs) (hdir : file.isDirectory)
    (hc : Chain s.image.next s.image.Final b l) (hpos : ∀ x ∈ l, 0 < x) (fuel remaining : ℕ) (out : List UInt8)
    (h0 : 0 < remaining) (hfuel : remaining ≤ fuel) (hlong : updiv remaining bs < l.length) :
    ∃ out' x y rest, l.drop (updiv remaining bs - 1) = x :: y :: rest ∧
      readFileLoop file bs fuel remaining b out s =
        (shrinkLoop (walkFuel s.superblock) y (s.putFAT FINAL x)).map fun r => ((0, out'), r.2) := by
  induction fuel generalizing remaining b l out with
  | zero => omega
  | succ fuel ih =>
    have hm := updiv_pos remaining bs hbs h0
    cases hc with
    | last =>
      simp only [List.length_singleton] at hlong
      omega
    | @link _ c l hn tail =>
      have hcpos := hpos c (by simp [tail.head_mem])
      have hfat := fat_of_next hn
      have hnf : s.fat b ≠ FINAL := by
        rw [hfat]
        unfold FINAL
        omega
      have hb := hpos b (by simp)
      by_cases hle : remaining ≤ bs
      · have hone : updiv remaining bs = 1 := le_antisymm ((updiv_le_iff _ _ _ hbs).mpr (by omega)) hm
        rw [run_readFileLoop_last h0 hle (by omega), if_pos ⟨hnf, hdir⟩, hone, Option.map_map, hfat]
        obtain ⟨y, rest, rfl⟩ := List.exists_cons_of_ne_nil tail.ne_nil
        obtain rfl : y = c := Option.some.inj tail.head?
        exact ⟨_, b, y, rest, rfl, rfl⟩
      · have hmore := updiv_sub hbs (not_le.mp hle)
        have hm' := updiv_pos (remaining - bs) bs hbs (by omega)
        rw [run_readFileLoop_more (not_le.mp hle), if_neg hnf, if_neg (by omega), hfat]
        obtain ⟨out', x, y, rest, hdrop, hrun⟩ := ih tail (fun x hx => hpos x (by simp [hx])) (remaining - bs)
          (out ++ s.peek (mul32 b bs) bs) (by omega) (by omega) (by simp only [List.length_cons] at hlong; omega)
        refine ⟨out', x, y, rest, ?_, hrun⟩
        rw [← hdrop, hmore, Nat.add_sub_cancel,
          show updiv (remaining - bs) bs = updiv (remaining - bs) bs - 1 + 1 by omega,
          List.drop_succ_cons, Nat.add_sub_cancel]

theorem readFile_leaks (s : Fs) (file : DirEntry) (b : ℕ) (l : List ℕ) (hbs : 0 < s.bs)
    (hdir : file.isDirectory)
    (hlen : 0 < file.len) (hstart : file.start = b) (hc : Chain s.image.next s.image.Final b l)
    (hrange : ∀ x ∈ l, 0 < x ∧ x < s.blockCount) (hlong : updiv file.len s.bs < l.length) :
    ∃ out t, readFile file s = some ((0, out), t) ∧ t.fat (l.getLast hc.ne_nil) = FINAL := by
  have hblock := chain_isBlock hc (hstart ▸ start_isBlock file)
  have hnodup := hc.nodup Image.next_excl
  have hcount : l.length ≤ s.blockCount := by
    have hsub : l.Subperm (List.range s.blockCount) :=
      hnodup.subperm fun x hx => List.mem_range.mpr (hrange x hx).2
    simpa using hsub.length_le
  obtain ⟨out, x, y, rest, hdrop, hrun⟩ := run_readFileLoop_surplus hbs hdir hc (fun x hx => (hrange x hx).1)
    (file.len + walkFuel s.superblock) file.len [] hlen (Nat.le_add_right _ _) hlong
  have hm : updiv file.len s.bs - 1 < l.length := by omega
  have hsub : ∀ z ∈ x :: y :: rest, z ∈ l := fun z hz => List.mem_of_mem_drop (hdrop ▸ hz)
  have htail : Chain s.image.next s.image.Final y (y :: rest) := by
    have hd := hc.drop _ hm
    rw [hdrop] at hd
    cases hd with
    | @link _ c _ hn t =>
      obtain rfl : y = c := Option.some.inj t.head?
      exact t
  have hnodup' : (x :: y :: rest).Nodup := hdrop ▸ hnodup.sublist (List.drop_sublist _ _)
  have hxb := hblock x (hsub x (by simp))
  have hcut := chain_putFAT_cell htail (fun z hz => hblock z (hsub z (.tail _ hz))) FINAL hxb
    fun z hz he => (List.nodup_cons.mp hnodup').1 (Int.ofNat_inj.mp he ▸ hz)
  have hfuel : (y :: rest).length ≤ walkFuel s.superblock := by
    have hle := (List.drop_sublist (updiv file.len s.bs - 1) l).length_le
    rw [hdrop] at hle
    unfold walkFuel
    simp only [List.length_cons] at hle ⊢
    change l.length ≤ s.superblock.blockCount at hcount
    omega
  obtain ⟨t, hshrink, hkeep⟩ := shrinkLoop_keeps hcut (fun z hz => hblock z (hsub z (.tail _ hz))) _ hfuel
  refine ⟨out, t, ?_, ?_⟩
  · rw [readFile, run_bind, run_get, Option.bind_some, run_ite, if_neg hlen.ne', hstart]
    exact hrun.trans (by rw [hshrink]; rfl)
  · have hlast : l.getLast hc.ne_nil = (y :: rest).getLast htail.ne_nil := by
      have hg := List.getLast_drop (l := l) (i := updiv file.len s.bs - 1) (hdrop ▸ List.cons_ne_nil _ _)
      simp only [hdrop] at hg
      rw [← hg, List.getLast_cons htail.ne_nil]
    have hmem : (y :: rest).getLast htail.ne_nil ∈ y :: rest := List.getLast_mem _
    have hnot : (y :: rest).getLast htail.ne_nil ∉ (y :: rest).dropLast := by
      have hnd := (List.nodup_cons.mp hnodup').2
      rw [← List.dropLast_append_getLast htail.ne_nil] at hnd
      exact fun hmem' => List.disjoint_of_nodup_append hnd hmem' (List.mem_singleton_self _)
    have hne : (y :: rest).getLast htail.ne_nil ≠ x := fun he => (List.nodup_cons.mp hnodup').1 (he ▸ hmem)
    have hzb := hblock _ (hsub _ (.tail _ hmem))
    have hfinal : s.fat (l.getLast hc.ne_nil) = FINAL := hc.final_getLast
    rw [hlast] at hfinal ⊢
    rw [hkeep _ hzb hnot, putFAT_cell s FINAL hxb hzb, if_neg (by exact_mod_cast hne), hfinal]

/-- No directory with surplus blocks is trimmed as it should be. -/
theorem never_trimmed (s : Fs) (file : DirEntry) (b : ℕ) (l : List ℕ) (hbs : 0 < s.bs) (hdir : file.isDirectory)
    (hlen : 0 < file.len) (hstart : file.start = b) (hc : Chain s.image.next s.image.Final b l)
    (hrange : ∀ x ∈ l, 0 < x ∧ x < s.blockCount) (hlong : updiv file.len s.bs < l.length) :
    ∃ r t, readFile file s = some (r, t) ∧ ¬ Trimmed s t b l (updiv file.len s.bs) := by
  obtain ⟨out, t, hrun, hfat⟩ := readFile_leaks s file b l hbs hdir hlen hstart hc hrange hlong
  refine ⟨_, t, hrun, fun h => ?_⟩
  have hmem : l.getLast hc.ne_nil ∈ l.drop (updiv file.len s.bs) := by
    rw [← List.getLast_drop (i := updiv file.len s.bs) (by simpa using hlong)]
    exact List.getLast_mem _
  rw [h.surplus _ hmem] at hfat
  cases hfat

end Trimming

section Sample
open FatSample

def looped : Fs := disk.putFAT 6 6

theorem looped_fat {b : ℕ} (hb : b < 12) : looped.fat b = if b = 6 then 6 else disk.fat b :=
  putFAT_fat disk_geometry (show 6 < 12 by omega) hb 6

/-- Every link leads to a block, and no walk from `/f` comes to an end. -/
theorem looped_walks : (∀ b : ℕ, b < looped.blockCount → looped.fat b < looped.blockCount) ∧
    (item nameF .File 4 1280).start = 4 ∧ ¬ WalksEnd looped (item nameF .File 4 1280) := by
  have hcount : looped.blockCount = 12 := rfl
  have hstart : (item nameF .File 4 1280).start = 4 := by decide
  rw [hcount]
  refine ⟨?_, hstart, ?_⟩
  · intro b hb
    rw [looped_fat hb, disk_fat hb]
    decide +revert
  · intro h
    obtain ⟨n, v, hw, -⟩ := (chainLength_returns (start_isBlock _)).mp h.chainLength
    have hfour : looped.fat 4 = 6 := (looped_fat (show 4 < 12 by omega)).trans (disk_fat (show 4 < 12 by omega))
    have hsix : looped.fat 6 = 6 := looped_fat (show 6 < 12 by omega)
    rw [hstart] at hw
    obtain ⟨m, -, t⟩ := (walkEnds_link (by rw [hfour]; decide)).mp hw
    rw [hfour] at t
    exact not_walkEnds_self hsix (by decide) t

/-- The root directory, as if it had two entries: one block of its three is needed. -/
def shortRoot : DirEntry := item dotName .Directory 2 640

theorem shortRoot_chain : Chain disk.image.next disk.image.Final 2 [2, 3, 7] := by
  have hlink : ∀ {b c : ℕ}, disk.fat b = c → 0 < c → disk.image.next b = some c := fun {b c} h hc => by
    rw [Image.next, image_fat, h, if_pos (by exact_mod_cast hc), Int.toNat_natCast]
  exact .link (hlink (c := 3) (disk_fat (show 2 < 12 by omega)) (by omega))
    (.link (hlink (c := 7) (disk_fat (show 3 < 12 by omega)) (by omega)) (.last (disk_fat (show 7 < 12 by omega))))

/-- Reading it leaves block 7, which nothing holds any more, in use. -/
theorem shortRoot_leaks : ∃ r t, readFile shortRoot disk = some (r, t) ∧ ¬ Trimmed disk t 2 [2, 3, 7] 1 := by
  obtain ⟨out, t, hrun, hfat⟩ :=
    readFile_leaks disk shortRoot 2 [2, 3, 7] (by decide) (by decide) (by decide) (by decide)
    shortRoot_chain (by decide) (by decide)
  refine ⟨_, t, hrun, fun h => ?_⟩
  rw [show [2, 3, 7].getLast shortRoot_chain.ne_nil = 7 from rfl, h.surplus 7 (by decide)] at hfat
  cases hfat

theorem never_trimmed_root : ∃ r t, readFile shortRoot disk = some (r, t) ∧
    ¬ Trimmed disk t 2 [2, 3, 7] (updiv shortRoot.len disk.bs) :=
  never_trimmed disk shortRoot 2 [2, 3, 7] (by decide) (by decide) (by decide) (by decide) shortRoot_chain
    (by decide) (by decide)

/-- The two blocks of `/f` are what its length asks for. -/
theorem walks_end_f : WalksEnd disk (item nameF .File 4 1280) := by
  have hstart : (item nameF .File 4 1280).start = 4 := by decide
  have hlen : (item nameF .File 4 1280).len = 1280 := by decide
  have hbs : disk.bs = 640 := disk_frame.bs
  have hfour : disk.fat 4 = 6 := disk_fat (show 4 < 12 by omega)
  have hsix : disk.fat 6 = -2 := disk_fat (show 6 < 12 by omega)
  refine (walks_end_iff disk (item nameF .File 4 1280) (by decide) (by decide)).mpr ⟨2, -2, ?_, by decide, ?_⟩
  · rw [hstart]
    refine .link (by rw [hfour]; decide) ?_
    rw [hfour, ← hsix]
    exact .stop (by rw [hsix]; decide)
  · rw [hlen, hbs]
    exact .inr (.inl (by decide))

end Sample

end Thorn.FatDriver
