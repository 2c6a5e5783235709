import Thorn.PrintfNumbers

set_option autoImplicit false

namespace Thorn.Printf
open ByteStore Paths

section Lengths
variable {d d' : Directive}

theorem evalFlags_length (flags : Flags) (format : Str) :
    (evalFlags flags format).2.length ≤ format.length := by
  induction format generalizing flags with
  | nil => exact le_rfl
  | cons ch rest ih =>
    rw [evalFlags]
    split_ifs
    · exact (ih _).trans (Nat.le_succ _)
    · exact (ih _).trans (Nat.le_succ _)
    · exact (ih _).trans (Nat.le_succ _)
    · exact (ih _).trans (Nat.le_succ _)
    · exact (ih _).trans (Nat.le_succ _)
    · exact le_rfl

theorem atoi_length (i : ℕ) (format : Str) : (atoi i format).2.length ≤ format.length := by
  induction format generalizing i with
  | nil => exact le_rfl
  | cons ch rest ih =>
    rw [atoi]
    split_ifs
    · exact (ih _).trans (Nat.le_succ _)
    · exact le_rfl

theorem evalWidth_length (h : evalWidth d = some d') : d'.format.length ≤ d.format.length := by
  unfold evalWidth at h
  cases hf : d.format with
  | nil =>
    rw [hf] at h
    rw [← Option.some.inj h, hf]
  | cons ch rest =>
    rw [hf] at h
    dsimp only at h
    split_ifs at h
    · rw [← Option.some.inj h]
      exact atoi_length 0 (ch :: rest)
    · rw [Option.bind_eq_bind, Option.bind_eq_some_iff] at h
      obtain ⟨⟨w, va⟩, -, h⟩ := h
      dsimp only at h
      split_ifs at h
      · rw [← Option.some.inj h]
        exact Nat.le_succ _
      · rw [← Option.some.inj h]
        exact Nat.le_succ _
    · rw [← Option.some.inj h, hf]

theorem evalPrecision_length (h : evalPrecision d = some d') : d'.format.length ≤ d.format.length := by
  unfold evalPrecision at h
  cases hf : d.format with
  | nil =>
    rw [hf] at h
    rw [← Option.some.inj h, hf]
  | cons ch rest =>
    rw [hf] at h
    dsimp only at h
    split_ifs at h with hdot
    · cases rest with
      | nil =>
        rw [← Option.some.inj h]
        exact Nat.zero_le _
      | cons next rest =>
        dsimp only at h
        split_ifs at h
        · rw [← Option.some.inj h]
          exact (atoi_length 0 (next :: rest)).trans (Nat.le_succ _)
        · rw [Option.bind_eq_bind, Option.bind_eq_some_iff] at h
          obtain ⟨⟨prec, va⟩, -, h⟩ := h
          rw [← Option.some.inj h]
          exact (Nat.le_succ _).trans (Nat.le_succ _)
        · rw [← Option.some.inj h]
          exact Nat.le_succ _
    · rw [← Option.some.inj h, hf]

theorem evalLength_length (d : Directive) : (evalLength d).format.length ≤ d.format.length := by
  unfold evalLength
  split
  · exact le_rfl
  · rename_i ch rest hf
    rw [hf]
    split_ifs
    · split
      · exact (Nat.le_succ _).trans (Nat.le_succ _)
      · exact Nat.le_succ _
    · split
      · exact (Nat.le_succ _).trans (Nat.le_succ _)
      · exact Nat.le_succ _
    · exact Nat.le_succ _
    · rw [hf]

theorem evalDirective_length {format : Str} {va : List Arg} (h : evalDirective format va = some d) :
    d.format.length ≤ format.length := by
  simp only [evalDirective, Option.bind_eq_bind, Option.bind_eq_some_iff, Option.some.injEq] at h
  obtain ⟨d₁, h₁, d₂, h₂, rfl⟩ := h
  exact (evalLength_length d₂).trans ((evalPrecision_length h₂).trans
    ((evalWidth_length h₁).trans (evalFlags_length .none format)))

end Lengths

section Pieces
variable {β : Type} (out : Out β) (maxlen : ℕ)

theorem vsnprintfLoop_fuel {fuel fuel' : ℕ} {format : Str} (h : format.length < fuel)
    (h' : format.length < fuel') (va : List Arg) (p : β × ℕ) :
    vsnprintfLoop out maxlen fuel format va p = vsnprintfLoop out maxlen fuel' format va p := by
  induction fuel generalizing fuel' format va p with
  | zero => omega
  | succ fuel ih =>
    obtain ⟨fuel', rfl⟩ : ∃ n, fuel' = n + 1 := ⟨fuel' - 1, by omega⟩
    cases format with
    | nil => rfl
    | cons ch format =>
      rw [List.length_cons] at h h'
      rw [vsnprintfLoop, vsnprintfLoop]
      split_ifs with hch
      · exact ih (by omega) (by omega) va _
      · rw [Option.bind_eq_bind, Option.bind_eq_bind]
        refine Option.bind_congr fun d hd => ?_
        have hlen := evalDirective_length hd
        rcases hf : d.format with _ | ⟨specifier, rest⟩
        · rfl
        · rw [hf, List.length_cons] at hlen
          refine Option.bind_congr fun r hr => ?_
          exact ih (by omega) (by omega) r.2 r.1

theorem vsnprintfLoop_text {fuel : ℕ} {format : Str} (h : format.length < fuel) (va : List Arg) (p : β × ℕ) :
    vsnprintfLoop out maxlen fuel format va p = (text format va).map fun t => putAll out maxlen t p := by
  rw [vsnprintfLoop_fuel out maxlen h (Nat.lt_succ_self _)]
  rcases vsnprintfLoop_emits (format.length + 1) format va with hnone | ⟨t, c, hsome⟩
  · have hn : ∀ (β : Type) (out : Out β) maxlen p,
        vsnprintfLoop out maxlen (format.length + 1) format va p = none :=
      fun β out maxlen p => Option.map_eq_none_iff.mp (hnone β out maxlen p)
    rw [text, hn, hn]
    rfl
  · have hs : ∀ (β : Type) (out : Out β) maxlen p, vsnprintfLoop out maxlen (format.length + 1) format va p =
        some (putAll out maxlen t p) := fun β out maxlen p => by
      obtain ⟨q, hq, heq⟩ := Option.map_eq_some_iff.mp (hsome β out maxlen p)
      rw [hq, (Prod.mk.inj heq).1]
    rw [text, hs, hs, Option.map_some, Option.map_some, putAll_collect, List.nil_append]

@[simp] theorem text_nil (va : List Arg) : text [] va = some [] := rfl

theorem text_char {ch : UInt8} (hch : ch ≠ 37) (format : Str) (va : List Arg) :
    text (ch :: format) va = (text format va).map (ch :: ·) := by
  have hlen : format.length < (ch :: format).length := Nat.lt_succ_self _
  rw [text, vsnprintfLoop, if_pos hch, vsnprintfLoop_text collect 0 hlen, Option.map_map]
  refine congrArg (Option.map · _) (funext fun t => ?_)
  exact putAll_collect 0 t (put collect 0 ch ([], 0))

theorem text_chars {pre : Str} (hpre : (37 : UInt8) ∉ pre) (format : Str) (va : List Arg) :
    text (pre ++ format) va = (text format va).map (pre ++ ·) := by
  induction pre with
  | nil => exact Option.map_id'.symm
  | cons ch pre ih =>
    rw [List.mem_cons, not_or] at hpre
    rw [List.cons_append, text_char (fun h => hpre.1 h.symm), ih hpre.2, Option.map_map]
    rfl

theorem text_directive {format rest t : Str} {va va' : List Arg} {d : Directive} {specifier : UInt8}
    (hd : evalDirective format va = some d) (hf : d.format = specifier :: rest)
    (hc : ∀ p : Str × ℕ, convert collect 0 specifier d p = some (putAll collect 0 t p, va')) :
    text (37 :: format) va = (text rest va').map (t ++ ·) := by
  have hlen := evalDirective_length hd
  rw [hf, List.length_cons] at hlen
  rw [text, vsnprintfLoop, if_neg (not_not.mpr rfl), hd, Option.bind_eq_bind, Option.bind_some, hf]
  simp only [hc, Option.bind_eq_bind, Option.bind_some]
  rw [vsnprintfLoop_text collect 0 (by rw [List.length_cons]; omega), Option.map_map]
  refine congrArg (Option.map · _) (funext fun s => ?_)
  change (putAll collect 0 s (putAll collect 0 t ([], 0))).1 = t ++ s
  rw [putAll_collect, putAll_collect, List.nil_append]

end Pieces

def decimal (n : ℕ) : Str := if n = 0 then [48] else (Nat.digits 10 n).reverse.map fun d => UInt8.ofNat (48 + d)

def signedDecimal (v : ℤ) : Str := (if v < 0 then [45] else []) ++ decimal v.natAbs

section Numbers

theorem digitsLoop_digits (uppercase : Bool) {base : ℕ} (hbase : 1 < base) (fuel : ℕ) {value : ℕ}
    (h : value ≠ 0) :
    digitsLoop uppercase base fuel value = ((Nat.digits base value).take fuel).map (digitChar uppercase) := by
  induction fuel generalizing value with
  | zero => rfl
  | succ fuel ih =>
    rw [digitsLoop, Nat.digits_def' hbase (Nat.pos_of_ne_zero h), List.take_succ_cons, List.map_cons]
    split_ifs with hmore
    · rw [ih hmore]
    · rw [not_not.mp hmore, Nat.digits_zero, List.take_nil, List.map_nil]

theorem digitsLoop_decimal (uppercase : Bool) {n : ℕ} (hn : n < 10 ^ 32) :
    (digitsLoop uppercase 10 PRINTF_NTOA_BUFFER_SIZE n).reverse = decimal n := by
  rw [decimal]
  split_ifs with hzero
  · subst hzero
    rfl
  · have hlen : (Nat.digits 10 n).length ≤ PRINTF_NTOA_BUFFER_SIZE :=
      (Nat.digits_length_le_iff (by omega) n).mpr hn
    rw [digitsLoop_digits uppercase (by omega) _ hzero, List.take_of_length_le hlen, ← List.map_reverse]
    refine List.map_congr_left fun d hd => ?_
    exact if_pos (Nat.digits_lt_base (by omega) (List.mem_reverse.mp hd))

theorem ntoaText_decimal {n : ℕ} (hn : n < 10 ^ 31) (negative : Bool) {flags : Flags}
    (hleft : flags.left = false)
    (hzero : flags.zeropad = false) (hhash : flags.hash = false) (hplus : flags.plus = false)
    (hspace : flags.space = false) (hprec : flags.precision = false) :
    ntoaText n negative 10 0 0 flags = (if negative then [45] else []) ++ decimal n := by
  have hlen : (digitsLoop flags.uppercase 10 PRINTF_NTOA_BUFFER_SIZE n).length < PRINTF_NTOA_BUFFER_SIZE := by
    have hdigits := (Nat.digits_length_le_iff (k := 31) (by omega) n).mpr hn
    rw [digitsLoop_length _ (by omega), PRINTF_NTOA_BUFFER_SIZE]
    omega
  have hsame : (if n = 0 then { flags with hash := false } else flags) = flags := by
    split_ifs
    · rw [← hhash]
    · rfl
  have hpad (buf : Str) : padZeros 0 PRINTF_NTOA_BUFFER_SIZE buf = buf := by
    rw [padZeros_eq, Nat.zero_min, Nat.zero_sub, Nat.min_zero, List.replicate_zero, List.append_nil]
  have hbuffer (buf : Str) : ntoaBuffer buf negative 10 0 0 flags = if negative then push buf 45 else buf := by
    simp only [ntoaBuffer, padNumber, hleft, hzero, hhash, hpad, pushSign, hplus, hspace, Bool.false_eq_true,
      if_false]
  have hrev (buf : Str) (width : ℕ) : width = 0 → revText buf width flags = buf.reverse := by
    rintro rfl
    simp only [revText, hleft, hzero, Nat.zero_sub, List.replicate_zero, Bool.false_eq_true, ite_self,
      List.nil_append, List.append_nil]
  have hwidth : signWidth negative 0 flags = 0 := by
    rw [signWidth, Nat.zero_sub, ite_self]
  have hdec := digitsLoop_decimal flags.uppercase (n := n) (by omega)
  simp only [ntoaText, hsame]
  simp only [hprec, hbuffer, hrev _ _ hwidth, Bool.false_eq_true, not_false_eq_true, true_or, if_true]
  cases negative with
  | true =>
    rw [if_pos rfl, if_pos rfl, push_room 45 hlen, List.reverse_append, hdec]
    rfl
  | false =>
    rw [if_neg Bool.false_ne_true, if_neg Bool.false_ne_true, hdec]
    rfl

end Numbers

section Directives
variable (format : Str) (va : List Arg)

theorem text_string (t : Str) :
    text (37 :: 115 :: format) (.string t :: va) = (text format va).map (t ++ ·) := by
  refine text_directive (d := ⟨.none, 0, 0, 115 :: format, .string t :: va⟩) rfl rfl fun p => ?_
  change some (putAll collect 0 t (putMany collect 0 32 (0 - _) p), va) = _
  rw [Nat.zero_sub]
  rfl

theorem text_character (c : BitVec 32) :
    text (37 :: 99 :: format) (.int c :: va) = (text format va).map (UInt8.ofNat c.toNat :: ·) :=
  text_directive (d := ⟨.none, 0, 0, 99 :: format, .int c :: va⟩) (t := [UInt8.ofNat c.toNat]) rfl rfl fun _ => rfl

theorem text_integer {format rest : Str} {va va' : List Arg} {d : Directive} {specifier : UInt8} {v : ℤ}
    (hd : evalDirective format va = some d) (hf : d.format = specifier :: rest)
    (hspecifier : specifier ∈ [100, 105, 117, 120, 88, 111, 98]) (hv : integerArg specifier d = some (v, va')) :
    text (37 :: format) va = (text rest va').map (ntoaText v.natAbs (v < 0) (integerBase specifier) d.precision
      d.width (integerFlags specifier d.flags) ++ ·) :=
  text_directive hd hf fun p => by
    rw [convert, if_pos hspecifier, convertInteger_eq hv, ntoaLong_eq]

theorem text_long (n : BitVec 64) :
    text (37 :: 108 :: 117 :: format) (.long n :: va) = (text format va).map (decimal n.toNat ++ ·) := by
  rw [text_integer (d := ⟨{ Flags.none with long := true }, 0, 0, 117 :: format, .long n :: va⟩)
    (v := (n.toNat : ℤ))
    rfl rfl (by decide) rfl, Int.natAbs_natCast]
  have hn := n.isLt
  refine congrArg (fun t => (text format va).map (t ++ ·)) ?_
  exact ntoaText_decimal (by omega) _ rfl rfl rfl rfl rfl rfl

theorem text_int (v : BitVec 32) :
    text (37 :: 100 :: format) (.int v :: va) = (text format va).map (signedDecimal v.toInt ++ ·) := by
  rw [text_integer (d := ⟨.none, 0, 0, 100 :: format, .int v :: va⟩) (v := v.toInt) rfl rfl (by decide) rfl]
  have hle := v.toInt_lt
  have hge := v.le_toInt
  refine congrArg (fun t => (text format va).map (t ++ ·)) ?_
  refine (ntoaText_decimal (n := v.toInt.natAbs) (by omega) _ rfl rfl rfl rfl rfl rfl).trans ?_
  simp only [signedDecimal, decide_eq_true_eq]

end Directives

theorem printf_text {format t : Str} {va : List Arg} (h : text format va = some t) :
    printf format va = some (t.filter (· ≠ 0), (BitVec.ofNat 32 t.length).toInt) := by
  rw [printf, vsnprintf_eq, h, Option.map_some, putAll_char]
  rfl

end Thorn.Printf
