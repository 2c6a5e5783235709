import Thorn.Library.BlockFold
import Thorn.Library.Runs
import Thorn.SHA1Rounds

set_option autoImplicit false

namespace Thorn.SHA1
open ByteStore BlockFold

def initial : State := ⟨0x67452301#32, 0xEFCDAB89#32, 0x98BADCFE#32, 0x10325476#32, 0xC3D2E1F0#32⟩

def lengthBytes (n : ℕ) : List UInt8 := (List.range 8).map fun i => UInt8.ofNat (8 * n / 256 ^ (7 - i))

def zeros (n : ℕ) : ℕ := (119 - n % 64) % 64

/-- A one bit, zeros, and the length fill up the last block. -/
def pad (message : List UInt8) : List UInt8 :=
  message ++ (0x80 :: List.replicate (zeros message.length) 0 ++ lengthBytes message.length)

def State.digest (s : State) : List UInt8 :=
  s.words.flatMap fun w => [24, 16, 8, 0].map fun n => UInt8.ofNat (w.toNat / 2 ^ n)

def sha1 (message : List UInt8) : List UInt8 := (absorb 64 compress initial (pad message)).digest

structure Fed (h : CSHA1) (message : List UInt8) : Prop where
  state : h.state = absorb 64 compress initial message
  count : h.count0.toNat + 2 ^ 32 * h.count1.toNat = 8 * message.length % 2 ^ 64
  buffer : h.buffer.bytes.take (message.length % 64) = rest 64 message

section Counts
variable {h : CSHA1} {message : List UInt8}

theorem Fed.place (hf : Fed h message) : ((h.count0 >>> 3) &&& 0x3F#32).toNat = message.length % 64 := by
  have hc := hf.count
  have h0 := h.count0.isLt
  have hmask : h.count0.toNat >>> 3 &&& 63 = h.count0.toNat >>> 3 % 64 := Nat.and_two_pow_sub_one_eq_mod _ 6
  rw [BitVec.toNat_and, BitVec.toNat_ushiftRight]
  change h.count0.toNat >>> 3 &&& 63 = _
  rw [hmask, Nat.shiftRight_eq_div_pow]
  omega

theorem count_carried (count0 count1 uLen : UINT_32) {n : ℕ}
    (h : count0.toNat + 2 ^ 32 * count1.toNat = n % 2 ^ 64) :
    (count0 + (uLen <<< 3)).toNat + 2 ^ 32 *
      ((if count0 + (uLen <<< 3) < uLen <<< 3 then count1 + 1 else count1) + (uLen >>> 29)).toNat =
        (n + 8 * uLen.toNat) % 2 ^ 64 := by
  have h0 := count0.isLt
  have h1 := count1.isLt
  have hu := uLen.isLt
  have hshift : (uLen <<< 3).toNat = 8 * uLen.toNat % 2 ^ 32 := by
    rw [BitVec.toNat_shiftLeft, Nat.shiftLeft_eq]
    omega
  have hhigh : (uLen >>> 29).toNat = uLen.toNat / 2 ^ 29 := by
    rw [BitVec.toNat_ushiftRight, Nat.shiftRight_eq_div_pow]
  have hone : (1 : UINT_32).toNat = 1 := rfl
  split_ifs with hlt <;> rw [BitVec.lt_def, BitVec.toNat_add, hshift] at hlt <;>
    simp only [BitVec.toNat_add, hshift, hhigh, hone] <;> omega

end Counts

section Update
variable {h : CSHA1} {message pbData : List UInt8} {uLen : UINT_32}

theorem piece_eq {i n : ℕ} (hle : i + n ≤ pbData.length) :
    piece pbData i n = some ((pbData.drop i).take n) := if_pos hle

theorem run_transformLoop (hle : uLen.toNat ≤ pbData.length) (hsmall : uLen.toNat + 63 < 2 ^ 32) (fuel : ℕ)
    (state : State) (i : UINT_32) (hi : i.toNat ≤ uLen.toNat) (hfuel : uLen.toNat < i.toNat + 64 * fuel) :
    ∃ i' : UINT_32, i.toNat ≤ i'.toNat ∧ i'.toNat ≤ uLen.toNat ∧ uLen.toNat < i'.toNat + 64 ∧
      transformLoop pbData uLen fuel state i =
        some (absorb 64 compress state ((pbData.take uLen.toNat).drop i.toNat), i') ∧
      (pbData.take uLen.toNat).drop i'.toNat = rest 64 ((pbData.take uLen.toNat).drop i.toNat) := by
  induction fuel generalizing state i with
  | zero => omega
  | succ fuel ih =>
    have hlen : ((pbData.take uLen.toNat).drop i.toNat).length = uLen.toNat - i.toNat := by
      rw [List.length_drop, List.length_take_of_le hle]
    have hadd : (i + 63).toNat = i.toNat + 63 := by
      rw [BitVec.toNat_add]
      change (i.toNat + 63) % 2 ^ 32 = _
      omega
    unfold transformLoop
    by_cases hmore : i + 63 < uLen
    · have hlt : i.toNat + 63 < uLen.toNat := hadd ▸ BitVec.lt_def.mp hmore
      have hnext : (i + 64).toNat = i.toNat + 64 := by
        rw [BitVec.toNat_add]
        change (i.toNat + 64) % 2 ^ 32 = _
        omega
      have hblock : (pbData.take uLen.toNat).drop i.toNat =
          (pbData.drop i.toNat).take 64 ++ (pbData.take uLen.toNat).drop (i.toNat + 64) := by
        have htake : ((pbData.take uLen.toNat).drop i.toNat).take 64 = (pbData.drop i.toNat).take 64 := by
          rw [List.drop_take, List.take_take, Nat.min_eq_left (by omega)]
        rw [← htake, ← List.drop_drop, List.take_append_drop]
      obtain ⟨i', hge, hle', hend, hrun, hrest⟩ := ih (Transform state ((pbData.drop i.toNat).take 64)) (i + 64)
        (by omega) (by omega)
      have hlen64 : ((pbData.drop i.toNat).take 64).length = 64 := by
        rw [List.length_take, List.length_drop]
        omega
      refine ⟨i', by omega, hle', hend, ?_, ?_⟩
      · rw [if_pos hmore, piece_eq (by omega), hblock, absorb_block (by omega) hlen64, ← transform_compress,
          ← hnext]
        exact hrun
      · rw [hrest, hnext, hblock, rest_block (by omega) hlen64]
    · have hge : ¬ i.toNat + 63 < uLen.toNat := fun hlt => hmore (BitVec.lt_def.mpr (hadd ▸ hlt))
      refine ⟨i, le_rfl, hi, by omega, ?_, ?_⟩
      · rw [if_neg hmore, absorb_short (by omega)]
      · rw [rest_short (by omega)]

theorem memcpy_behind {block : Block} {j : ℕ} (bytes : List UInt8) {front : List UInt8}
    (hfront : block.bytes.take j = front) (hj : front.length = j) (hfit : j + bytes.length ≤ 64) :
    ∃ block' : Block, block.memcpy j bytes = some block' ∧ block'.bytes.take (j + bytes.length) = front ++ bytes := by
  refine ⟨_, dif_pos hfit, ?_⟩
  change (overlay block.bytes j bytes).take (j + bytes.length) = _
  rw [overlay, hfront, List.take_left' (by rw [List.length_append, hj])]

theorem run_tail (block : Block) {front : List UInt8} {j i : UINT_32}
    (hfront : block.bytes.take j.toNat = front)
    (hj : front.length = j.toNat) (hi : i.toNat ≤ uLen.toNat) (hle : uLen.toNat ≤ pbData.length)
    (hfit : j.toNat + (uLen.toNat - i.toNat) ≤ 64) (kept : Block → CSHA1) :
    ∃ block' : Block, (if uLen - i ≠ 0 then do
        let bytes ← piece pbData i.toNat (uLen - i).toNat
        let buffer ← block.memcpy j.toNat bytes
        some (kept buffer)
      else some (kept block)) = some (kept block') ∧
      block'.bytes.take (j.toNat + (uLen.toNat - i.toNat)) = front ++ (pbData.take uLen.toNat).drop i.toNat := by
  have hsub : (uLen - i).toNat = uLen.toNat - i.toNat := BitVec.toNat_sub_of_le (BitVec.le_def.mpr hi)
  have hbytes : (pbData.drop i.toNat).take (uLen.toNat - i.toNat) = (pbData.take uLen.toNat).drop i.toNat :=
    List.drop_take.symm
  have hlen : ((pbData.take uLen.toNat).drop i.toNat).length = uLen.toNat - i.toNat := by
    rw [List.length_drop, List.length_take_of_le hle]
  by_cases hzero : uLen - i = 0
  · have hnone : uLen.toNat - i.toNat = 0 := by rw [← hsub, hzero]; rfl
    rw [hnone] at hlen
    refine ⟨block, if_neg (not_not.mpr hzero), ?_⟩
    rw [hnone, Nat.add_zero, hfront, List.eq_nil_of_length_eq_zero hlen, List.append_nil]
  · obtain ⟨block', hblock, htaken⟩ := memcpy_behind ((pbData.take uLen.toNat).drop i.toNat) hfront hj
      (by rw [hlen]; exact hfit)
    refine ⟨block', ?_, ?_⟩
    · rw [if_pos hzero, hsub, piece_eq (by omega), Option.bind_eq_bind, Option.bind_some, hbytes, hblock]
      rfl
    · rw [← hlen, htaken]

theorem Fed.updated (pbData : List UInt8) (hf : Fed h message) (hle : uLen.toNat ≤ pbData.length)
    (hsmall : uLen.toNat + 63 < 2 ^ 32) :
    ∃ h', h.Update pbData uLen = some h' ∧ Fed h' (message ++ pbData.take uLen.toNat) ∧ h'.digest = h.digest := by
  have hplace := hf.place
  have hcount := count_carried h.count0 h.count1 uLen hf.count
  have hrest := rest_length 64 message
  have hmod := Nat.mod_lt message.length (show 0 < 64 by omega)
  obtain ⟨hstate, hbuffer⟩ :=
    absorb_append (n := 64) (f := compress) (by omega) initial message (pbData.take uLen.toNat)
  have hlen : (pbData.take uLen.toNat).length = uLen.toNat := List.length_take_of_le hle
  unfold CSHA1.Update
  dsimp only
  generalize (h.count0 >>> 3) &&& 0x3F#32 = j at hplace ⊢
  have hsum : (j + uLen).toNat = j.toNat + uLen.toNat := by
    rw [BitVec.toNat_add]
    omega
  by_cases hfull : 63 < j + uLen
  · have hlt : 63 < j.toNat + uLen.toNat := hsum ▸ BitVec.lt_def.mp hfull
    have hi : (64 - j).toNat = 64 - j.toNat := by
      rw [BitVec.toNat_sub]
      change (2 ^ 32 - j.toNat + 64) % 2 ^ 32 = _
      omega
    obtain ⟨block, hblock, htaken⟩ := memcpy_behind ((pbData.drop 0).take (64 - j.toNat))
      (hplace ▸ hf.buffer) (by omega) (by rw [List.length_take, List.drop_zero]; omega)
    obtain ⟨i', hge, hle', hend, hrun, hleft⟩ :=
      run_transformLoop hle hsmall (2 ^ 26) (Transform h.state block.bytes)
      (64 - j) (by omega) (by omega)
    have hfirst : (pbData.take uLen.toNat).take (64 - j.toNat) = (pbData.drop 0).take (64 - j.toNat) := by
      rw [List.take_take, List.drop_zero, Nat.min_eq_left (by omega)]
    obtain ⟨block', htail, hkept⟩ :=
      run_tail block (j := 0#32) List.take_zero rfl hle' hle
      (by change 0 + _ ≤ 64; omega) fun buffer => ⟨absorb 64 compress (Transform h.state block.bytes)
        ((pbData.take uLen.toNat).drop (64 - j).toNat), h.count0 + (uLen <<< 3), _, buffer, h.digest⟩
    have hpiece : piece pbData 0 (64 - j.toNat) = some ((pbData.drop 0).take (64 - j.toNat)) :=
      piece_eq (by omega)
    simp only [if_pos hfull, hi, hpiece, hblock, hrun, Option.bind_eq_bind, Option.bind_some]
    rw [hi] at htail hleft
    have hbytes : block.bytes = rest 64 message ++ (pbData.take uLen.toNat).take (64 - j.toNat) := by
      rw [hfirst, ← htaken, List.length_take, List.drop_zero, Nat.min_eq_left (by omega),
        List.take_of_length_le (by rw [block.length]; omega)]
    have hsplit : rest 64 message ++ pbData.take uLen.toNat =
        block.bytes ++ (pbData.take uLen.toNat).drop (64 - j.toNat) := by
      rw [hbytes, List.append_assoc, List.take_append_drop]
    rw [hsplit, absorb_block (by omega) block.length, ← transform_compress, ← hf.state] at hstate
    rw [hsplit, rest_block (by omega) block.length, ← hleft] at hbuffer
    refine ⟨_, htail, ⟨?_, ?_, ?_⟩, rfl⟩
    · exact hstate.symm
    · rw [List.length_append, hlen, Nat.mul_add]
      exact hcount
    · rw [hbuffer, ← rest_length, hbuffer, List.length_drop, hlen]
      exact (congrArg (block'.bytes.take ·) (Nat.zero_add _).symm).trans hkept
  · have hge : ¬ 63 < j.toNat + uLen.toNat := fun hlt => hfull (BitVec.lt_def.mpr (hsum ▸ hlt))
    have hshort : (rest 64 message ++ pbData.take uLen.toNat).length < 64 := by
      rw [List.length_append, hlen]
      omega
    obtain ⟨block', htail, hkept⟩ :=
      run_tail h.buffer (j := j) (i := 0#32)
      (hplace ▸ hf.buffer) (by omega) (Nat.zero_le _) hle (by change _ + (_ - 0) ≤ 64; omega)
      fun buffer => ⟨h.state, h.count0 + (uLen <<< 3), _, buffer, h.digest⟩
    simp only [if_neg hfull, Option.bind_eq_bind, Option.bind_some]
    rw [absorb_short hshort] at hstate
    rw [rest_short hshort] at hbuffer
    refine ⟨_, htail, ⟨?_, ?_, ?_⟩, rfl⟩
    · rw [hstate, hf.state]
    · rw [List.length_append, hlen, Nat.mul_add]
      exact hcount
    · rw [hbuffer, ← rest_length, hbuffer, List.length_append, hlen, hrest, ← hplace]
      exact hkept

end Update

section Final
variable {h : CSHA1} {message : List UInt8}

theorem Fed.given (hf : Fed h message) (bytes : List UInt8) (hsmall : bytes.length ≤ 64) :
    ∃ h', h.Update bytes (BitVec.ofNat 32 bytes.length) = some h' ∧ Fed h' (message ++ bytes) ∧
      h'.digest = h.digest := by
  have hlen : (BitVec.ofNat 32 bytes.length).toNat = bytes.length := by
    rw [BitVec.toNat_ofNat]
    omega
  obtain ⟨h', hrun, hfed, hdigest⟩ := hf.updated bytes hlen.le (by omega)
  rw [hlen, List.take_length] at hfed
  exact ⟨h', hrun, hfed, hdigest⟩

theorem Fed.mark_iff (hf : Fed h message) : h.count0 &&& 504#32 = 448#32 ↔ message.length % 64 = 56 := by
  have hplace := hf.place
  have hshift : h.count0 &&& 504#32 = ((h.count0 >>> 3) &&& 0x3F#32) <<< 3 := by
    apply BitVec.eq_of_getLsbD_eq
    intro i hi
    simp only [BitVec.getLsbD_and, BitVec.getLsbD_shiftLeft, BitVec.getLsbD_ushiftRight]
    interval_cases i <;> simp
  rw [hshift]
  generalize (h.count0 >>> 3) &&& 0x3F#32 = j at hplace ⊢
  have hmod := Nat.mod_lt message.length (show 0 < 64 by omega)
  have height : (j <<< 3).toNat = 8 * (message.length % 64) := by
    rw [BitVec.toNat_shiftLeft, Nat.shiftLeft_eq, hplace]
    omega
  rw [← BitVec.toNat_inj, height]
  change 8 * (message.length % 64) = 448 ↔ _
  omega

theorem Fed.padded (fuel : ℕ) (hf : Fed h message) (hfuel : (56 + 64 - message.length % 64) % 64 < fuel) :
    ∃ h', padLoop fuel h = some h' ∧
      Fed h' (message ++ List.replicate ((56 + 64 - message.length % 64) % 64) 0) ∧ h'.digest = h.digest := by
  induction fuel generalizing h message with
  | zero => omega
  | succ fuel ih =>
    unfold padLoop
    by_cases hmark : message.length % 64 = 56
    · refine ⟨h, if_neg (not_not.mpr (hf.mark_iff.mpr hmark)), ?_, rfl⟩
      rw [hmark]
      exact (List.append_nil message).symm ▸ hf
    · obtain ⟨h₁, hrun₁, hf₁, hd₁⟩ := hf.given [0] (by decide)
      have hlen : (message ++ [(0 : UInt8)]).length = message.length + 1 := List.length_append
      obtain ⟨h₂, hrun₂, hf₂, hd₂⟩ := ih hf₁ (by omega)
      have hcount : (56 + 64 - message.length % 64) % 64 =
          (56 + 64 - (message ++ [(0 : UInt8)]).length % 64) % 64 + 1 := by
        omega
      refine ⟨h₂, ?_, ?_, hd₂.trans hd₁⟩
      · rw [if_pos fun heq => hmark (hf.mark_iff.mp heq)]
        exact (congrArg (Option.bind · (padLoop fuel)) hrun₁).trans hrun₂
      · rw [hcount, List.replicate_succ, ← List.singleton_append, ← List.append_assoc]
        exact hf₂

theorem wordByte_eq (word : UINT_32) (i : ℕ) :
    wordByte word i = UInt8.ofNat (word.toNat / 2 ^ ((3 - i % 4) * 8)) := by
  have hthree : i &&& 3 = i % 4 := Nat.and_two_pow_sub_one_eq_mod i 2
  have hmask : ∀ n : ℕ, n &&& 255 = n % 256 := fun n => Nat.and_two_pow_sub_one_eq_mod n 8
  apply UInt8.toNat.inj
  change (((word >>> ((3 - (i &&& 3)) * 8)) &&& 0xFF#32).setWidth 8).toNat = _
  rw [BitVec.toNat_setWidth, BitVec.toNat_and, BitVec.toNat_ushiftRight, Nat.shiftRight_eq_div_pow, hthree]
  change (word.toNat / 2 ^ ((3 - i % 4) * 8) &&& 255) % 2 ^ 8 = _
  rw [hmask, Nat.mod_mod, UInt8.toNat_ofNat']

theorem Fed.finalCount (hf : Fed h message) : h.finalCount = lengthBytes message.length := by
  have hc := hf.count
  have h0 := h.count0.isLt
  apply List.map_congr_left
  intro i hi
  have hlt := List.mem_range.mp hi
  rw [wordByte_eq]
  apply UInt8.toNat.inj
  rw [UInt8.toNat_ofNat', UInt8.toNat_ofNat']
  interval_cases i <;> simp <;> omega

theorem State.bytes_digest (s : State) : s.bytes = s.digest := by
  unfold State.bytes
  simp only [wordByte_eq]
  rfl

theorem zeros_eq (n : ℕ) : (56 + 64 - (n + 1) % 64) % 64 = zeros n := by
  rw [zeros]
  omega

theorem lengthBytes_length (n : ℕ) : (lengthBytes n).length = 8 := by
  rw [lengthBytes, List.length_map, List.length_range]

theorem Fed.final (hf : Fed h message) : ∃ h', h.Final = some h' ∧ h'.digest = sha1 message := by
  obtain ⟨h₁, hrun₁, hf₁, -⟩ := hf.given [0x80] (by decide)
  have hlen : (message ++ [(0x80 : UInt8)]).length = message.length + 1 := List.length_append
  obtain ⟨h₂, hrun₂, hf₂, -⟩ := hf₁.padded 65 (by omega)
  rw [hlen, zeros_eq] at hf₂
  obtain ⟨h₃, hrun₃, hf₃, -⟩ := hf₂.given (lengthBytes message.length) (by rw [lengthBytes_length]; omega)
  rw [lengthBytes_length, ← hf.finalCount] at hrun₃
  have hmessage : message ++ [0x80] ++ List.replicate (zeros message.length) 0 ++ lengthBytes message.length =
      pad message := by
    rw [pad, List.append_assoc, List.append_assoc]
    rfl
  rw [hmessage] at hf₃
  refine ⟨⟨Transform ⟨0, 0, 0, 0, 0⟩ Block.zero.bytes, 0, 0, .zero, h₃.state.bytes⟩, ?_, ?_⟩
  · unfold CSHA1.Final
    rw [show h.Update [0x80] 1 = some h₁ from hrun₁, Option.bind_eq_bind, Option.bind_some, hrun₂,
      Option.bind_some, show h₂.Update h.finalCount 8 = some h₃ from hrun₃, Option.bind_some]
  · change h₃.state.bytes = _
    rw [State.bytes_digest, hf₃.state, sha1]

end Final

inductive Call
  | Reset
  | Update (pbData : List UInt8) (uLen : UINT_32)
  | Final

def Call.run (h : CSHA1) : Call → Option CSHA1
  | Reset => some h.Reset
  | Update pbData uLen => h.Update pbData uLen
  | Final => h.Final

def CSHA1.calls (h : CSHA1) : List Call → Option CSHA1
  | [] => some h
  | c :: cs => (c.run h).bind fun h => h.calls cs

/-- What the calls are for: the message since the last `Reset`, none once it is finished, and the digest. -/
structure Hashing where
  message : Option (List UInt8)
  digest : Option (List UInt8)

def Hashing.after (s : Hashing) : Call → Hashing
  | .Reset => ⟨some [], s.digest⟩
  | .Update pbData uLen => ⟨s.message.map (· ++ pbData.take uLen.toNat), s.digest⟩
  | .Final => ⟨none, s.message.map sha1⟩

/-- A finished message takes a `Reset` first; a piece is there in full, and short of the counter's range. -/
def Hashing.Legal (s : Hashing) : Call → Prop
  | .Reset => True
  | .Update pbData uLen => s.message.isSome ∧ uLen.toNat ≤ pbData.length ∧ uLen.toNat + 63 < 2 ^ 32
  | .Final => s.message.isSome

structure Hashes (h : CSHA1) (s : Hashing) : Prop where
  message : ∀ message, s.message = some message → Fed h message
  digest : ∀ digest, s.digest = some digest → h.digest = digest

section Runs
variable {h : CSHA1} {s : Hashing}

theorem Hashes.reset (hs : Hashes h s) : Hashes h.Reset ⟨some [], s.digest⟩ where
  message message hm := by
    obtain rfl := Option.some.inj hm
    exact ⟨(absorb_short (by decide)).symm, rfl, rfl⟩
  digest := hs.digest

theorem Hashes.call (hs : Hashes h s) {c : Call} (hc : s.Legal c) :
    ∃ h', c.run h = some h' ∧ Hashes h' (s.after c) := by
  cases c with
  | Reset => exact ⟨_, rfl, hs.reset⟩
  | Update pbData uLen =>
    obtain ⟨hopen, hle, hsmall⟩ := hc
    obtain ⟨message, hm⟩ := Option.isSome_iff_exists.mp hopen
    obtain ⟨h', hrun, hfed, hdigest⟩ := (hs.message message hm).updated _ hle hsmall
    refine ⟨h', hrun, fun message' hm' => ?_, fun digest hd => hdigest.trans (hs.digest digest hd)⟩
    rw [Hashing.after, hm] at hm'
    exact Option.some.inj hm' ▸ hfed
  | Final =>
    obtain ⟨message, hm⟩ := Option.isSome_iff_exists.mp hc
    obtain ⟨h', hrun, hdigest⟩ := (hs.message message hm).final
    refine ⟨h', hrun, fun _ hm' => (Option.some_ne_none _ hm'.symm).elim, fun digest hd => ?_⟩
    rw [Hashing.after, hm] at hd
    exact hdigest.trans (Option.some.inj hd)

theorem Hashes.calls (hs : Hashes h s) (calls : List Call)
    (hlegal : Runs.Throughout Hashing.after Hashing.Legal s calls) :
    ∃ h', h.calls calls = some h' ∧ Hashes h' (Runs.after Hashing.after s calls) := by
  induction calls generalizing h s with
  | nil => exact ⟨h, rfl, hs⟩
  | cons c calls ih =>
    obtain ⟨hc, hlegal⟩ := Runs.throughout_cons.mp hlegal
    obtain ⟨h₁, hrun₁, hs₁⟩ := hs.call hc
    obtain ⟨h₂, hrun₂, hs₂⟩ := ih hs₁ hlegal
    refine ⟨h₂, ?_, hs₂⟩
    rw [CSHA1.calls, hrun₁]
    exact hrun₂

end Runs

/-- From the constructor on, over whatever memory it finds, the object has the digest of the message that the last
`Final` finished. -/
theorem runs_digest (h : CSHA1) (calls : List Call)
    (hlegal : Runs.Throughout Hashing.after Hashing.Legal ⟨some [], none⟩ calls) :
    ∃ h', h.Reset.calls calls = some h' ∧
      ∀ digest, (Runs.after Hashing.after ⟨some [], none⟩ calls).digest = some digest → h'.digest = digest := by
  have hstart : Hashes h ⟨none, none⟩ :=
    ⟨fun _ hm => (Option.some_ne_none _ hm.symm).elim, fun _ hd => (Option.some_ne_none _ hd.symm).elim⟩
  obtain ⟨h', hrun, hs⟩ := hstart.reset.calls calls hlegal
  exact ⟨h', hrun, hs.digest⟩

def blankObject : CSHA1 := ⟨⟨0, 0, 0, 0, 0⟩, 0, 0, .zero, []⟩

/-- The message `abc` in two pieces. -/
theorem runs_digest_abc : ∃ h', blankObject.Reset.calls [.Update [97, 98] 2, .Update [99] 1, .Final] = some h' ∧
    h'.digest = sha1 [97, 98, 99] := by
  have hlegal : Runs.Throughout Hashing.after Hashing.Legal ⟨some [], none⟩
      [.Update [97, 98] 2, .Update [99] 1, .Final] :=
    Runs.throughout_cons.mpr ⟨⟨rfl, by decide, by decide⟩, Runs.throughout_cons.mpr ⟨⟨rfl, by decide, by decide⟩,
      Runs.throughout_cons.mpr ⟨rfl, Runs.throughout_nil⟩⟩⟩
  obtain ⟨h', hrun, hdigest⟩ := runs_digest blankObject _ hlegal
  exact ⟨h', hrun, hdigest _ rfl⟩

/-- The first test vector of the header. -/
example : (blankObject.Reset.calls [.Update [97, 98, 99] 3, .Final]).map (·.digest) = some
    [0xA9, 0x99, 0x3E, 0x36, 0x47, 0x06, 0x81, 0x6A, 0xBA, 0x3E, 0x25, 0x71, 0x78, 0x50, 0xC2, 0x6C, 0x9C, 0xD0, 0xD8,
      0x9D] := by decide +kernel

end Thorn.SHA1
