import Thorn.PrintfText
import Mathlib.Data.Nat.Digits.Lemmas

set_option autoImplicit false

/-!
# Printed integers read back

The digits that an integer directive leaves in its buffer of 32 characters, and
when the number can be read off the text again: the padding, the prefix of the
base and the sign all compete for room with the digits.
-/
namespace Thorn.Printf
open Paths

/-- The digits of a buffer, least first, are the low ones of the value. -/
structure Shows (uppercase : Bool) (base value : ℕ) (buf : Str) (ds : List ℕ) : Prop where
  chars : buf = ds.map (digitChar uppercase)
  small : ∀ d ∈ ds, d < base
  value : Nat.ofDigits base ds = value % base ^ buf.length

section Digits
variable {uppercase : Bool} {base value : ℕ} {buf : Str} {ds : List ℕ}

theorem Shows.length (h : Shows uppercase base value buf ds) : ds.length = buf.length := by
  rw [h.chars, List.length_map]

theorem Shows.nil (uppercase : Bool) (base value : ℕ) : Shows uppercase base value [] [] :=
  ⟨rfl, fun _ h => absurd h List.not_mem_nil, (Nat.mod_one value).symm⟩

theorem digitsLoop_shows (hbase : 1 < base) (fuel value : ℕ) :
    ∃ ds, Shows uppercase base value (digitsLoop uppercase base fuel value) ds := by
  induction fuel generalizing value with
  | zero => exact ⟨[], .nil uppercase base value⟩
  | succ fuel ih =>
    obtain ⟨ds, hds⟩ : ∃ ds, Shows uppercase base (value / base)
        (if value / base ≠ 0 then digitsLoop uppercase base fuel (value / base) else []) ds := by
      split_ifs with h
      · exact ih (value / base)
      · exact ⟨[], .nil _ _ _⟩
    refine ⟨value % base :: ds, ?_, ?_, ?_⟩
    · rw [digitsLoop, hds.chars, List.map_cons]
    · exact List.forall_mem_cons.mpr ⟨Nat.mod_lt _ (by omega), hds.small⟩
    · rw [digitsLoop, Nat.ofDigits_cons, hds.value, List.length_cons, pow_succ, Nat.mul_comm (base ^ _) base,
        Nat.mod_mul]

theorem digitsLoop_length (uppercase : Bool) (hbase : 1 < base) (fuel value : ℕ) :
    (digitsLoop uppercase base fuel value).length = min fuel (max 1 (Nat.digits base value).length) := by
  induction fuel generalizing value with
  | zero => exact (Nat.zero_min _).symm
  | succ fuel ih =>
    rw [digitsLoop, List.length_cons]
    rcases Nat.eq_zero_or_pos value with rfl | hpos
    · rw [Nat.zero_div, if_neg (not_not.mpr rfl), Nat.digits_zero]
      simp only [List.length_nil]
      omega
    · rw [Nat.digits_def' hbase hpos, List.length_cons]
      split_ifs with h
      · have hne : (Nat.digits base (value / base)).length ≠ 0 := fun h0 =>
          h (Nat.digits_eq_nil_iff_eq_zero.mp (List.eq_nil_of_length_eq_zero h0))
        rw [ih]
        omega
      · rw [not_not.mp h, Nat.digits_zero]
        simp only [List.length_nil]
        omega

theorem padZeros_eq (limit fuel : ℕ) (buf : Str) :
    padZeros limit fuel buf = buf ++ List.replicate (min fuel (min limit PRINTF_NTOA_BUFFER_SIZE - buf.length)) 48 := by
  induction fuel generalizing buf with
  | zero => rw [padZeros, Nat.zero_min, List.replicate_zero, List.append_nil]
  | succ fuel ih =>
    rw [padZeros]
    split_ifs with h
    · rw [ih, List.append_assoc, List.length_append, List.length_singleton, List.singleton_append,
        ← List.replicate_succ]
      congr 2
      omega
    · rw [show min (fuel + 1) (min limit PRINTF_NTOA_BUFFER_SIZE - buf.length) = 0 by omega,
        List.replicate_zero, List.append_nil]

theorem Shows.zeros (h : Shows uppercase base value buf ds) (hbase : 1 < base)
    (hfull : value < base ^ buf.length) (k : ℕ) :
    Shows uppercase base value (buf ++ List.replicate k 48) (ds ++ List.replicate k 0) := by
  refine ⟨?_, ?_, ?_⟩
  · rw [List.map_append, ← h.chars, List.map_replicate]
    rfl
  · intro d hd
    rcases List.mem_append.mp hd with hd | hd
    · exact h.small d hd
    · rw [List.eq_of_mem_replicate hd]
      omega
  · have hle : base ^ buf.length ≤ base ^ (buf ++ List.replicate k 48).length := by
      apply Nat.pow_le_pow_right (by omega)
      rw [List.length_append]
      omega
    rw [Nat.ofDigits_append, Nat.ofDigits_replicate_zero, Nat.mul_zero, Nat.add_zero, h.value,
      Nat.mod_eq_of_lt hfull, Nat.mod_eq_of_lt (hfull.trans_le hle)]

theorem Shows.dropLast (h : Shows uppercase base value buf ds) (hbase : 1 < base) :
    Shows uppercase base value buf.dropLast ds.dropLast := by
  obtain ⟨rfl, hsmall, hvalue⟩ := h
  rcases List.eq_nil_or_concat ds with rfl | ⟨ds, d, rfl⟩
  · exact Shows.nil uppercase base value
  · rw [List.concat_eq_append] at hvalue hsmall ⊢
    have hlt : Nat.ofDigits base ds < base ^ ds.length :=
      Nat.ofDigits_lt_base_pow_length hbase fun d hd => hsmall d (List.mem_append_left _ hd)
    rw [Nat.ofDigits_append, List.length_map, List.length_append, List.length_singleton] at hvalue
    rw [List.map_append, List.dropLast_concat, List.map_singleton, List.dropLast_concat]
    refine ⟨rfl, fun d hd => hsmall d (List.mem_append_left _ hd), ?_⟩
    rw [List.length_map, ← Nat.mod_mod_of_dvd value (pow_dvd_pow base (Nat.le_succ ds.length)), ← hvalue,
      Nat.add_mul_mod_self_left, Nat.mod_eq_of_lt hlt]

def digitValue (c : UInt8) : Option ℕ :=
  if 48 ≤ c ∧ c ≤ 57 then some (c.toNat - 48)
  else if 97 ≤ c ∧ c ≤ 102 then some (c.toNat - 87)
  else if 65 ≤ c ∧ c ≤ 70 then some (c.toNat - 55)
  else none

def readDigits (base : ℕ) : ℕ → Str → Option ℕ
  | n, [] => some n
  | n, c :: rest => (digitValue c).bind fun d => if d < base then readDigits base (n * base + d) rest else none

theorem digitValue_char {d : ℕ} (hd : d < 16) : digitValue (digitChar uppercase d) = some d := by
  cases uppercase <;> interval_cases d <;> decide

theorem readDigits_append (n : ℕ) (l m : Str) :
    readDigits base n (l ++ m) = (readDigits base n l).bind fun n => readDigits base n m := by
  induction l generalizing n with
  | nil => rfl
  | cons c l ih =>
    rw [List.cons_append, readDigits, readDigits]
    cases digitValue c with
    | none => rfl
    | some d =>
      rw [Option.bind_some, Option.bind_some]
      split_ifs
      · exact ih _
      · rfl

theorem Shows.readDigits (h : Shows uppercase base value buf ds) (hbase : base ≤ 16) (n : ℕ) :
    readDigits base n buf.reverse = some (n * base ^ buf.length + value % base ^ buf.length) := by
  rw [← h.value]
  obtain ⟨rfl, hsmall, -⟩ := h
  induction ds generalizing n with
  | nil => rw [List.map_nil, List.length_nil, pow_zero, Nat.mul_one]; rfl
  | cons d ds ih =>
    obtain ⟨hd, hsmall⟩ := List.forall_mem_cons.mp hsmall
    rw [List.map_cons, List.reverse_cons, readDigits_append, ih _ hsmall, Option.bind_some, Printf.readDigits,
      digitValue_char (by omega), Option.bind_some, if_pos hd, Printf.readDigits, List.length_cons, Nat.ofDigits_cons,
      pow_succ]
    congr 1
    rw [Nat.add_mul, Nat.mul_assoc, Nat.add_assoc, Nat.mul_comm (Nat.ofDigits _ _) base, Nat.add_comm d]

end Digits

def stripPrefix (base : ℕ) (text : Str) : Str :=
  match text with
  | 48 :: c :: rest => if base = 16 ∧ (c = 120 ∨ c = 88) ∨ base = 2 ∧ c = 98 then rest else text
  | _ => text

def readPrefixed (base : ℕ) (text : Str) : Option ℕ :=
  if stripPrefix base text = [] then none else readDigits base 0 (stripPrefix base text)

/-- The number in a text, with spaces around it and a sign before it. -/
def readNumber (base : ℕ) (text : Str) : Option ℤ :=
  match (text.dropWhile (· = 32)).takeWhile (· ≠ 32) with
  | 45 :: digits => (readPrefixed base digits).map fun n : ℕ => -(n : ℤ)
  | 43 :: digits => (readPrefixed base digits).map fun n : ℕ => (n : ℤ)
  | digits => (readPrefixed base digits).map fun n : ℕ => (n : ℤ)

structure Base (base : ℕ) : Prop where
  cases : base = 2 ∨ base = 8 ∨ base = 10 ∨ base = 16

theorem Base.one_lt {base : ℕ} (h : Base base) : 1 < base := by
  rcases h.cases with rfl | rfl | rfl | rfl <;> omega

theorem Base.le {base : ℕ} (h : Base base) : base ≤ 16 := by
  rcases h.cases with rfl | rfl | rfl | rfl <;> omega

section Reading
variable {uppercase : Bool} {base value : ℕ} {buf digits : Str} {ds : List ℕ}

def Plain (c : UInt8) : Prop := c ≠ 32 ∧ c ≠ 43 ∧ c ≠ 45 ∧ c ≠ 0

theorem digitChar_plain {d : ℕ} (hd : d < 16) : Plain (digitChar uppercase d) := by
  unfold Plain
  cases uppercase <;> interval_cases d <;> decide

theorem Shows.plain (h : Shows uppercase base value buf ds) (hbase : Base base) :
    ∀ c ∈ buf.reverse, Plain c := by
  intro c hc
  rw [List.mem_reverse, h.chars] at hc
  obtain ⟨d, hd, rfl⟩ := List.mem_map.mp hc
  exact digitChar_plain ((h.small d hd).trans_le hbase.le)

theorem trimmed (a b : ℕ) (h : ∀ c ∈ digits, c ≠ 32) :
    ((List.replicate a (32 : UInt8) ++ digits ++ List.replicate b 32).dropWhile (· = 32)).takeWhile (· ≠ 32) =
      digits := by
  have hspaces : ∀ l : Str,
      (List.replicate a (32 : UInt8) ++ l).dropWhile (· = 32) = l.dropWhile (· = 32) := fun l =>
    List.dropWhile_append_of_pos fun c hc => decide_eq_true (List.eq_of_mem_replicate hc)
  have htail : (List.replicate b (32 : UInt8)).takeWhile (· ≠ 32) = [] := by
    cases b with
    | zero => rfl
    | succ b => rfl
  rw [List.append_assoc, hspaces]
  cases digits with
  | nil =>
    rw [List.nil_append, List.dropWhile_eq_nil_iff.mpr fun c hc => decide_eq_true (List.eq_of_mem_replicate hc)]
    rfl
  | cons c digits =>
    have hc : ¬ decide (c = 32) = true := by
      rw [decide_eq_true_eq]
      exact h c List.mem_cons_self
    rw [List.cons_append, List.dropWhile_cons, if_neg hc, ← List.cons_append,
      List.takeWhile_append_of_pos fun c hc => decide_eq_true (h c hc), htail, List.append_nil]

theorem readNumber_plain (a b : ℕ) (h : ∀ c ∈ digits, Plain c) :
    readNumber base (List.replicate a 32 ++ digits ++ List.replicate b 32) =
      (readPrefixed base digits).map fun n : ℕ => (n : ℤ) := by
  rw [readNumber, trimmed a b fun c hc => (h c hc).1]
  cases digits with
  | nil => rfl
  | cons c digits =>
    have hc := h c List.mem_cons_self
    split
    · next heq => exact absurd (List.cons.inj heq).1 hc.2.2.1
    · next heq => exact absurd (List.cons.inj heq).1 hc.2.1
    · rfl

theorem readNumber_minus (a b : ℕ) (h : ∀ c ∈ digits, Plain c) :
    readNumber base (List.replicate a 32 ++ (45 :: digits) ++ List.replicate b 32) =
      (readPrefixed base digits).map fun n : ℕ => -(n : ℤ) := by
  rw [readNumber, trimmed a b (List.forall_mem_cons.mpr ⟨by decide, fun c hc => (h c hc).1⟩)]
  rfl

theorem readNumber_plus (a b : ℕ) (h : ∀ c ∈ digits, Plain c) :
    readNumber base (List.replicate a 32 ++ (43 :: digits) ++ List.replicate b 32) =
      (readPrefixed base digits).map fun n : ℕ => (n : ℤ) := by
  rw [readNumber, trimmed a b (List.forall_mem_cons.mpr ⟨by decide, fun c hc => (h c hc).1⟩)]
  rfl

theorem Shows.second (h : Shows uppercase base value buf ds) (hbase : Base base) {c : UInt8} (hc : c ∈ buf) :
    ¬ (base = 16 ∧ (c = 120 ∨ c = 88) ∨ base = 2 ∧ c = 98) := by
  rw [h.chars] at hc
  obtain ⟨d, hd, rfl⟩ := List.mem_map.mp hc
  have hd := h.small d hd
  rintro (⟨rfl, hc⟩ | ⟨rfl, hc⟩) <;> revert hc <;> cases uppercase <;> interval_cases d <;> decide

theorem stripPrefix_none (h : ∀ c ∈ digits, ¬ (base = 16 ∧ (c = 120 ∨ c = 88) ∨ base = 2 ∧ c = 98)) :
    stripPrefix base digits = digits := by
  unfold stripPrefix
  split
  · exact if_neg (h _ (List.mem_cons_of_mem _ List.mem_cons_self))
  · rfl

theorem Shows.readPrefixed (h : Shows uppercase base value buf ds) (hbase : Base base) :
    readPrefixed base buf.reverse = if buf = [] then none else some (value % base ^ buf.length) := by
  have hread := h.readDigits hbase.le 0
  rw [Nat.zero_mul, Nat.zero_add] at hread
  rw [Printf.readPrefixed, stripPrefix_none fun c hc => h.second hbase (List.mem_reverse.mp hc), hread]
  exact if_congr List.reverse_eq_nil_iff rfl rfl

theorem Shows.readPrefixed_base (h : Shows uppercase base value buf ds) (hbase : Base base) {c : UInt8}
    (hc : base = 16 ∧ (c = 120 ∨ c = 88) ∨ base = 2 ∧ c = 98) :
    Printf.readPrefixed base (48 :: c :: buf.reverse) =
      if buf = [] then none else some (value % base ^ buf.length) := by
  have hread := h.readDigits hbase.le 0
  rw [Nat.zero_mul, Nat.zero_add] at hread
  have hstrip : stripPrefix base (48 :: c :: buf.reverse) = buf.reverse := if_pos hc
  rw [Printf.readPrefixed, hstrip, hread]
  exact if_congr List.reverse_eq_nil_iff rfl rfl

theorem readPrefixed_half {c : UInt8} (hc : base = 16 ∧ (c = 120 ∨ c = 88) ∨ base = 2 ∧ c = 98) :
    Printf.readPrefixed base (c :: digits) = none := by
  have hstrip : stripPrefix base (c :: digits) = c :: digits := by
    rcases hc with ⟨-, rfl | rfl⟩ | ⟨-, rfl⟩ <;> rfl
  rw [Printf.readPrefixed, hstrip, if_neg (List.cons_ne_nil _ _)]
  rcases hc with ⟨rfl, rfl | rfl⟩ | ⟨rfl, rfl⟩ <;> rfl

theorem Shows.readPrefixed_zero (h : Shows uppercase base value buf ds) (hbase : Base base) :
    Printf.readPrefixed base (48 :: buf.reverse) = some (value % base ^ buf.length) := by
  have hone := hbase.one_lt
  have hread := h.readDigits hbase.le 0
  rw [Nat.zero_mul, Nat.zero_add] at hread
  have hstrip : stripPrefix base (48 :: buf.reverse) = 48 :: buf.reverse := by
    apply stripPrefix_none
    intro c hc
    rcases List.mem_cons.mp hc with rfl | hc
    · rintro (⟨-, hc | hc⟩ | ⟨-, hc⟩) <;> exact absurd hc (by decide)
    · exact h.second hbase (List.mem_reverse.mp hc)
  rw [Printf.readPrefixed, hstrip, if_neg (List.cons_ne_nil _ _)]
  exact (if_pos (show 0 < base by omega)).trans
    ((congrArg (Printf.readDigits base · buf.reverse) (Nat.zero_mul base)).trans hread)

theorem Shows.reads (h : Shows uppercase base value buf ds) (hbase : Base base) :
    Printf.readPrefixed base buf.reverse = some value ↔ buf ≠ [] ∧ value < base ^ buf.length := by
  rw [h.readPrefixed hbase]
  split_ifs with hnil
  · simp [hnil]
  · rw [Option.some_inj, Nat.mod_eq_iff_lt (pow_pos (Nat.zero_lt_of_lt hbase.one_lt) _).ne']
    exact (and_iff_right hnil).symm

end Reading

def chop (buf : Str) (base prec width : ℕ) (flags : Flags) : Str :=
  if ¬ flags.precision ∧ buf ≠ [] ∧ (buf.length = prec ∨ buf.length = width) then
    if base = 16 then buf.dropLast.dropLast else buf.dropLast
  else buf

def pushPrefix (buf : Str) (base : ℕ) (flags : Flags) : Str :=
  push (if base = 16 ∧ ¬ flags.uppercase then push buf 120
    else if base = 16 ∧ flags.uppercase then push buf 88
    else if base = 2 then push buf 98
    else buf) 48

section Prefix
variable {uppercase : Bool} {base value : ℕ} {buf : Str} {ds : List ℕ}

theorem push_room (c : UInt8) (h : buf.length < 32) : push buf c = buf ++ [c] := if_pos h

theorem push_full (c : UInt8) (h : 32 ≤ buf.length) : push buf c = buf := if_neg h.not_gt

theorem pushPrefix_letter (buf : Str) (hbase : base = 16 ∨ base = 2) (flags : Flags) :
    ∃ c : UInt8, (base = 16 ∧ (c = 120 ∨ c = 88) ∨ base = 2 ∧ c = 98) ∧
      pushPrefix buf base flags = push (push buf c) 48 := by
  rcases hbase with rfl | rfl
  · cases hcase : flags.uppercase with
    | false => exact ⟨120, .inl ⟨rfl, .inl rfl⟩, by simp [pushPrefix, hcase]⟩
    | true => exact ⟨88, .inl ⟨rfl, .inr rfl⟩, by simp [pushPrefix, hcase]⟩
  · exact ⟨98, .inr ⟨rfl, rfl⟩, by simp [pushPrefix]⟩

theorem pushPrefix_zero (hbase : ¬ (base = 16 ∨ base = 2)) (flags : Flags) :
    pushPrefix buf base flags = push buf 48 := by
  rw [not_or] at hbase
  simp [pushPrefix, hbase.1, hbase.2]

/-- Behind its prefix a number is read in full, unless there was room for half a prefix. -/
theorem Shows.reads_prefix (h : Shows uppercase base value buf ds) (hbase : Base base) (hvalue : value ≠ 0)
    (hlen : buf.length ≤ 32) (flags : Flags) :
    Printf.readPrefixed base (pushPrefix buf base flags).reverse = some value ↔
      buf ≠ [] ∧ value < base ^ buf.length ∧ ¬ ((base = 16 ∨ base = 2) ∧ buf.length = 31) := by
  have hmod : value % base ^ buf.length = value ↔ value < base ^ buf.length :=
    Nat.mod_eq_iff_lt (pow_pos (Nat.zero_lt_of_lt hbase.one_lt) _).ne'
  by_cases hfull : 32 ≤ buf.length
  · have hsame : pushPrefix buf base flags = buf := by
      simp only [pushPrefix, push_full _ hfull, ite_self]
    rw [hsame, h.reads hbase]
    have hne : ¬ ((base = 16 ∨ base = 2) ∧ buf.length = 31) := fun hc => by omega
    simp only [hne, not_false_eq_true, and_true]
  · by_cases hletter : base = 16 ∨ base = 2
    · obtain ⟨c, hc, heq⟩ := pushPrefix_letter buf hletter flags
      rw [heq, push_room c (by omega)]
      by_cases hhalf : buf.length = 31
      · rw [push_full 48 (by rw [List.length_append, List.length_singleton]; omega), List.reverse_concat,
          readPrefixed_half hc]
        simp [hletter, hhalf]
      · rw [push_room 48 (by rw [List.length_append, List.length_singleton]; omega), List.reverse_concat,
          List.reverse_concat, h.readPrefixed_base hbase hc]
        by_cases hnil : buf = []
        · simp [hnil]
        · simp [hnil, hmod, hhalf]
    · rw [pushPrefix_zero hletter, push_room 48 (by omega), List.reverse_concat, h.readPrefixed_zero hbase,
        Option.some_inj, hmod]
      refine ⟨fun hlt => ⟨?_, hlt, fun hc => hletter hc.1⟩, fun hr => hr.2.1⟩
      rintro rfl
      rw [List.length_nil, pow_zero] at hlt
      omega

end Prefix

def digitCount (base value : ℕ) (flags : Flags) : ℕ :=
  if flags.precision ∧ value = 0 then 0 else min 32 (max 1 (Nat.digits base value).length)

def paddedCount (base value : ℕ) (negative : Bool) (prec width : ℕ) (flags : Flags) : ℕ :=
  if flags.left then digitCount base value flags
  else max (digitCount base value flags)
    (min 32 (max prec (if flags.zeropad then signWidth negative width flags else 0)))

def shownCount (base value : ℕ) (negative : Bool) (prec width : ℕ) (flags : Flags) : ℕ :=
  let padded := paddedCount base value negative prec width flags
  if (flags.hash ∧ value ≠ 0) ∧ ¬ flags.precision ∧ (padded = prec ∨ padded = signWidth negative width flags) then
    padded - if base = 16 then 2 else 1
  else padded

/-- No digit gives way to a prefix, and the prefix and the sign have room in the buffer. -/
structure Readable (base value : ℕ) (negative : Bool) (prec width : ℕ) (flags : Flags) : Prop where
  digits : shownCount base value negative prec width flags ≠ 0
  fits : value < base ^ shownCount base value negative prec width flags
  sign : negative = true → shownCount base value negative prec width flags < 32
  half : ¬ ((flags.hash ∧ value ≠ 0) ∧ (base = 16 ∨ base = 2) ∧ shownCount base value negative prec width flags = 31)

section Counts
variable {uppercase : Bool} {base value : ℕ} {buf : Str} {ds : List ℕ}

structure Holds (uppercase : Bool) (base value : ℕ) (buf : Str) : Prop where
  shows : ∃ ds, Shows uppercase base value buf ds
  full : buf.length < 32 → value < base ^ buf.length
  length : buf.length ≤ 32

theorem Holds.padZeros (h : Holds uppercase base value buf) (hbase : 1 < base) (limit : ℕ) :
    Holds uppercase base value (padZeros limit PRINTF_NTOA_BUFFER_SIZE buf) ∧
      (padZeros limit PRINTF_NTOA_BUFFER_SIZE buf).length = max buf.length (min 32 limit) := by
  obtain ⟨⟨ds, hds⟩, hfull, hlen⟩ := h
  rw [padZeros_eq]
  have hlength :
      (buf ++ List.replicate (min PRINTF_NTOA_BUFFER_SIZE (min limit PRINTF_NTOA_BUFFER_SIZE - buf.length))
      (48 : UInt8)).length = max buf.length (min 32 limit) := by
    rw [List.length_append, List.length_replicate, PRINTF_NTOA_BUFFER_SIZE]
    omega
  by_cases hroom : buf.length < 32
  · refine ⟨⟨⟨_, hds.zeros hbase (hfull hroom) _⟩, fun _ => ?_, by omega⟩, hlength⟩
    refine (hfull hroom).trans_le (Nat.pow_le_pow_right (by omega) ?_)
    omega
  · have hzero : min PRINTF_NTOA_BUFFER_SIZE (min limit PRINTF_NTOA_BUFFER_SIZE - buf.length) = 0 := by
      rw [PRINTF_NTOA_BUFFER_SIZE]
      omega
    rw [hzero, List.replicate_zero, List.append_nil] at hlength ⊢
    exact ⟨⟨⟨ds, hds⟩, hfull, hlen⟩, hlength⟩

theorem Holds.padNumber (h : Holds uppercase base value buf) (hbase : 1 < base) (prec width : ℕ)
    (flags : Flags) :
    Holds uppercase base value (padNumber buf prec width flags) ∧ (padNumber buf prec width flags).length =
      if flags.left then buf.length
      else max buf.length (min 32 (max prec (if flags.zeropad then width else 0))) := by
  unfold Printf.padNumber
  cases flags.left with
  | true => exact ⟨h, rfl⟩
  | false =>
    obtain ⟨hprec, hlprec⟩ := h.padZeros hbase prec
    cases flags.zeropad with
    | false =>
      refine ⟨hprec, ?_⟩
      simp only [Bool.false_eq_true, if_false, Nat.max_zero]
      exact hlprec
    | true =>
      obtain ⟨hwidth, hlwidth⟩ := hprec.padZeros hbase width
      refine ⟨hwidth, ?_⟩
      simp only [Bool.false_eq_true, if_false, if_true]
      omega

def numberDigits (base value : ℕ) (flags : Flags) : Str :=
  if ¬ flags.precision ∨ value ≠ 0 then digitsLoop flags.uppercase base PRINTF_NTOA_BUFFER_SIZE value else []

theorem numberDigits_holds (hbase : 1 < base) (value : ℕ) (flags : Flags) :
    Holds flags.uppercase base value (numberDigits base value flags) ∧
      (numberDigits base value flags).length = digitCount base value flags := by
  unfold numberDigits digitCount
  by_cases hnone : flags.precision = true ∧ value = 0
  · obtain ⟨hprec, rfl⟩ := hnone
    simp only [hprec, not_true_eq_false, ne_eq, or_self, if_false, and_self, if_true]
    exact ⟨⟨⟨[], .nil _ _ _⟩, fun _ => Nat.one_pos, Nat.zero_le _⟩, rfl⟩
  · rw [if_neg hnone, if_pos (by rw [not_and_or] at hnone; exact hnone)]
    have hlen := digitsLoop_length flags.uppercase hbase PRINTF_NTOA_BUFFER_SIZE value
    rw [PRINTF_NTOA_BUFFER_SIZE] at hlen ⊢
    refine ⟨⟨digitsLoop_shows hbase _ _, fun hroom => ?_, by omega⟩, hlen⟩
    exact (Nat.lt_base_pow_length_digits hbase).trans_le (Nat.pow_le_pow_right (by omega) (by omega))

def keptDigits (base value : ℕ) (negative : Bool) (prec width : ℕ) (flags : Flags) : Str :=
  let buf := padNumber (numberDigits base value flags) prec (signWidth negative width flags) flags
  if flags.hash ∧ value ≠ 0 then chop buf base prec (signWidth negative width flags) flags else buf

theorem chop_shows (h : Shows uppercase base value buf ds) (hbase : 1 < base) (prec width : ℕ) (flags : Flags) :
    (∃ ds, Shows uppercase base value (chop buf base prec width flags) ds) ∧
      (chop buf base prec width flags).length =
        if ¬ flags.precision ∧ (buf.length = prec ∨ buf.length = width) then
          buf.length - if base = 16 then 2 else 1
        else buf.length := by
  unfold chop
  rcases List.eq_nil_or_concat buf with rfl | ⟨init, c, rfl⟩
  · simp only [ne_eq, not_true_eq_false, false_and, and_false, if_false, List.length_nil, Nat.zero_sub,
      ite_self]
    exact ⟨⟨ds, h⟩, trivial⟩
  · have hne : init.concat c ≠ [] := by simp
    simp only [hne, ne_eq, not_false_eq_true, true_and]
    split_ifs
    · exact ⟨⟨_, (h.dropLast hbase).dropLast hbase⟩, by simp only [List.length_dropLast]; omega⟩
    · exact ⟨⟨_, h.dropLast hbase⟩, by simp only [List.length_dropLast]⟩
    · exact ⟨⟨ds, h⟩, rfl⟩

theorem keptDigits_shows (hbase : 1 < base) (value : ℕ) (negative : Bool) (prec width : ℕ) (flags : Flags) :
    (∃ ds, Shows flags.uppercase base value (keptDigits base value negative prec width flags) ds) ∧
      (keptDigits base value negative prec width flags).length = shownCount base value negative prec width flags ∧
      shownCount base value negative prec width flags ≤ 32 := by
  obtain ⟨hdigits, hcount⟩ := numberDigits_holds hbase value flags
  obtain ⟨⟨⟨ds, hshows⟩, -, hlen⟩, hlength⟩ :=
    hdigits.padNumber hbase prec (signWidth negative width flags) flags
  have hpadded : (padNumber (numberDigits base value flags) prec (signWidth negative width flags) flags).length
      = paddedCount base value negative prec width flags := by rw [hlength, hcount]; rfl
  obtain ⟨hchop, hchoplen⟩ := chop_shows hshows hbase prec (signWidth negative width flags) flags
  rw [hpadded] at hchoplen hlen
  unfold keptDigits shownCount
  by_cases hhash : flags.hash = true ∧ value ≠ 0
  · simp only [hhash, ne_eq, not_false_eq_true, and_self, if_true, true_and]
    refine ⟨hchop, ?_, ?_⟩
    · rw [hchoplen]
    · split_ifs <;> omega
  · simp only [hhash, if_false, false_and]
    exact ⟨⟨ds, hshows⟩, hpadded, hlen⟩

end Counts

theorem ntoaText_eq (base value : ℕ) (negative : Bool) (prec width : ℕ) (flags : Flags) :
    ∃ fl : Flags, ntoaText value negative base prec width flags = revText (pushSign
      (if flags.hash ∧ value ≠ 0 then pushPrefix (keptDigits base value negative prec width flags) base flags
      else keptDigits base value negative prec width flags) negative fl) (signWidth negative width flags) fl := by
  rcases value with _ | value
  · have hhash : ¬ (flags.hash = true ∧ (0 : ℕ) ≠ 0) := fun h => h.2 rfl
    refine ⟨{ flags with hash := false }, ?_⟩
    rw [if_neg hhash, keptDigits, if_neg hhash]
    rfl
  · refine ⟨flags, ?_⟩
    have hiff : (flags.hash = true ∧ value + 1 ≠ 0) = (flags.hash = true) :=
      propext (and_iff_left (Nat.succ_ne_zero value))
    simp only [keptDigits, hiff]
    cases hhash : flags.hash with
    | false =>
      have hbuffer (buf : Str) : ntoaBuffer buf negative base prec width flags =
          pushSign (padNumber buf prec (signWidth negative width flags) flags) negative flags := by
        simp only [ntoaBuffer, hhash, Bool.false_eq_true, if_false]
      exact congrArg (revText · (signWidth negative width flags) flags) (hbuffer _)
    | true =>
      have hbuffer (buf : Str) : ntoaBuffer buf negative base prec width flags =
          pushSign (handleHash (padNumber buf prec (signWidth negative width flags) flags) base prec
            (signWidth negative width flags) flags) negative flags := by
        simp only [ntoaBuffer, hhash, if_true]
      exact congrArg (revText · (signWidth negative width flags) flags) (hbuffer _)

section Text
variable {base value : ℕ} {buf : Str}

theorem revText_spaces (buf : Str) (width : ℕ) (flags : Flags) :
    ∃ a b, revText buf width flags = List.replicate a 32 ++ buf.reverse ++ List.replicate b 32 := by
  unfold revText
  split_ifs
  · exact ⟨width - buf.length, width - buf.length, rfl⟩
  · exact ⟨width - buf.length, 0, rfl⟩
  · exact ⟨0, width - buf.length, rfl⟩
  · exact ⟨0, 0, rfl⟩

theorem readNumber_signed (h : ∀ c ∈ buf.reverse, Plain c) (negative : Bool) (width : ℕ) (flags : Flags) :
    readNumber base (revText (pushSign buf negative flags) width flags) =
      (readPrefixed base buf.reverse).map
        fun n : ℕ => if negative = true ∧ buf.length < 32 then -(n : ℤ) else (n : ℤ) := by
  obtain ⟨a, b, htext⟩ := revText_spaces (pushSign buf negative flags) width flags
  rw [htext]
  by_cases hfull : 32 ≤ buf.length
  · have hsame : pushSign buf negative flags = buf := by
      simp only [pushSign, push_full _ hfull, ite_self]
    rw [hsame, readNumber_plain a b h]
    simp only [hfull.not_gt, and_false, if_false]
  · have hroom : buf.length < 32 := by omega
    cases negative with
    | true =>
      have hpush : pushSign buf true flags = buf ++ [45] := (if_pos rfl).trans (push_room 45 hroom)
      rw [hpush, List.reverse_concat, readNumber_minus a b h]
      simp only [hroom, and_self, if_true]
    | false =>
      simp only [Bool.false_eq_true, false_and, if_false]
      simp only [pushSign, Bool.false_eq_true, if_false]
      split_ifs
      · rw [push_room 43 hroom, List.reverse_concat, readNumber_plus a b h]
      · have hone : List.replicate a (32 : UInt8) ++ (buf ++ [32]).reverse =
            List.replicate (a + 1) 32 ++ buf.reverse := by
          rw [List.reverse_concat, List.replicate_succ', List.append_assoc, List.singleton_append]
        rw [push_room 32 hroom, hone, readNumber_plain (a + 1) b h]
      · exact readNumber_plain a b h

theorem pushPrefix_plain (h : ∀ c ∈ buf.reverse, Plain c) (base : ℕ) (flags : Flags) :
    ∀ c ∈ (pushPrefix buf base flags).reverse, Plain c := by
  have hpush : ∀ (l : Str) (c : UInt8), Plain c → (∀ x ∈ l.reverse, Plain x) → ∀ x ∈ (push l c).reverse,
      Plain x := by
    intro l c hc hl
    by_cases hroom : l.length < 32
    · rw [push_room c hroom, List.reverse_concat]
      exact List.forall_mem_cons.mpr ⟨hc, hl⟩
    · rw [push_full c (Nat.not_lt.mp hroom)]
      exact hl
  have h48 : Plain 48 := by unfold Plain; decide
  have h120 : Plain 120 := by unfold Plain; decide
  have h88 : Plain 88 := by unfold Plain; decide
  have h98 : Plain 98 := by unfold Plain; decide
  unfold pushPrefix
  refine hpush _ 48 h48 ?_
  split_ifs
  · exact hpush buf 120 h120 h
  · exact hpush buf 88 h88 h
  · exact hpush buf 98 h98 h
  · exact h

theorem readNumber_ntoaText (value : ℕ) (hbase : Base base) (negative : Bool) (prec width : ℕ) (flags : Flags)
    (hneg : negative = true → value ≠ 0 ∧ flags.hash = false) :
    readNumber base (ntoaText value negative base prec width flags) =
        some (if negative then -(value : ℤ) else (value : ℤ)) ↔
      Readable base value negative prec width flags := by
  obtain ⟨fl, htext⟩ := ntoaText_eq base value negative prec width flags
  obtain ⟨⟨ds, hshows⟩, hlength, hmax⟩ := keptDigits_shows hbase.one_lt value negative prec width flags
  rw [htext]
  clear htext
  have hnil : keptDigits base value negative prec width flags = [] ↔
      shownCount base value negative prec width flags = 0 := by rw [← hlength, List.length_eq_zero_iff]
  generalize keptDigits base value negative prec width flags = kept at *
  have hplain := hshows.plain hbase
  by_cases hhash : flags.hash = true ∧ value ≠ 0
  · have hpos : negative = false := by
      cases negative with
      | true => exact absurd hhash.1 (by simp [(hneg rfl).2])
      | false => rfl
    subst hpos
    rw [if_pos hhash, readNumber_signed (pushPrefix_plain hplain base flags)]
    simp only [Bool.false_eq_true, false_and, if_false, Option.map_eq_some_iff, Int.natCast_inj,
      exists_eq_right]
    rw [hshows.reads_prefix hbase hhash.2 (by omega), hlength, ne_eq, hnil]
    exact ⟨fun hr => ⟨hr.1, hr.2.1, fun hc => absurd hc Bool.false_ne_true, fun hc => hr.2.2 hc.2⟩,
      fun hr => ⟨hr.digits, hr.fits, fun hc => hr.half ⟨hhash, hc⟩⟩⟩
  · rw [if_neg hhash, readNumber_signed hplain, hlength]
    have hreads := hshows.reads hbase
    rw [hlength, ne_eq, hnil] at hreads
    have hiff : Readable base value negative prec width flags ↔
        Printf.readPrefixed base kept.reverse = some value ∧
          (negative = true → shownCount base value negative prec width flags < 32) := by
      rw [hreads]
      exact ⟨fun hr => ⟨⟨hr.digits, hr.fits⟩, hr.sign⟩, fun hr => ⟨hr.1.1, hr.1.2, hr.2, fun hc => hhash hc.1⟩⟩
    rw [hiff]
    cases negative with
    | false => simp only [Bool.false_eq_true, false_and, if_false, Option.map_eq_some_iff, Int.natCast_inj,
        exists_eq_right, false_implies, and_true]
    | true =>
      by_cases hroom : shownCount base value true prec width flags < 32
      · simp only [hroom, and_self, if_true, Option.map_eq_some_iff, neg_inj, Int.natCast_inj, exists_eq_right,
          implies_true, and_true]
      · simp only [hroom, and_false, if_false, if_true, forall_const, iff_false]
        rw [Option.map_eq_some_iff]
        rintro ⟨n, -, hn⟩
        have hvalue := (hneg rfl).1
        omega

theorem revText_ne_zero (h : ∀ c ∈ buf.reverse, Plain c) (negative : Bool) (width : ℕ) (flags : Flags) :
    ∀ c ∈ revText (pushSign buf negative flags) width flags, c ≠ 0 := by
  obtain ⟨a, b, htext⟩ := revText_spaces (pushSign buf negative flags) width flags
  have hspace (n : ℕ) : ∀ c ∈ List.replicate n (32 : UInt8), c ≠ 0 := fun c hc => by
    rw [List.eq_of_mem_replicate hc]
    decide
  have hpush (c : UInt8) (hc : c ≠ 0) : ∀ x ∈ push buf c, x ≠ 0 := by
    have hbuf : ∀ x ∈ buf, x ≠ 0 := fun x hx => (h x (List.mem_reverse.mpr hx)).2.2.2
    unfold push
    split_ifs
    · exact List.forall_mem_append.mpr ⟨hbuf, List.forall_mem_singleton.mpr hc⟩
    · exact hbuf
  have hsigned : ∀ x ∈ pushSign buf negative flags, x ≠ 0 := by
    unfold pushSign
    split_ifs
    · exact hpush 45 (by decide)
    · exact hpush 43 (by decide)
    · exact hpush 32 (by decide)
    · exact fun x hx => (h x (List.mem_reverse.mpr hx)).2.2.2
  rw [htext]
  exact List.forall_mem_append.mpr
    ⟨List.forall_mem_append.mpr ⟨hspace a, fun c hc => hsigned c (List.mem_reverse.mp hc)⟩, hspace b⟩

theorem ntoaText_ne_zero (hbase : Base base) (value : ℕ) (negative : Bool) (prec width : ℕ) (flags : Flags) :
    ∀ c ∈ ntoaText value negative base prec width flags, c ≠ 0 := by
  obtain ⟨fl, htext⟩ := ntoaText_eq base value negative prec width flags
  obtain ⟨⟨ds, hshows⟩, -⟩ := keptDigits_shows hbase.one_lt value negative prec width flags
  rw [htext]
  split_ifs
  · exact revText_ne_zero (pushPrefix_plain (hshows.plain hbase) base flags) negative _ fl
  · exact revText_ne_zero (hshows.plain hbase) negative _ fl

end Text

theorem magnitude_eq {w : ℕ} (value : BitVec w) : magnitude value = value.toInt.natAbs := by
  have hlt := value.isLt
  have hneg : (0 - value).toNat = (2 ^ w - value.toNat) % 2 ^ w := by
    rw [BitVec.toNat_sub, BitVec.ofNat_eq_ofNat, BitVec.toNat_ofNat, Nat.zero_mod, Nat.add_zero]
  have hint := BitVec.toInt_eq_toNat_cond value
  have hcast : ((2 ^ w : ℕ) : ℤ) = (2 : ℤ) ^ w := by norm_cast
  unfold magnitude
  rw [hneg]
  split_ifs at hint ⊢ with hpos hsmall hsmall
  · omega
  · omega
  · rcases Nat.eq_zero_or_pos value.toNat with hz | hz
    · rw [hint, hz, Nat.sub_zero, Nat.mod_self]
      rfl
    · rw [Nat.mod_eq_of_lt (by omega)]
      omega
  · rw [Nat.mod_eq_of_lt (by omega)]
    omega

def integerArg (specifier : UInt8) (d : Directive) : Option (ℤ × List Arg) :=
  if d.flags.longLong ∨ d.flags.long then
    (vaLong d.va).map fun r => (if specifier = 105 ∨ specifier = 100 then r.1.toInt else r.1.toNat, r.2)
  else (vaInt d.va).map fun r =>
    (if specifier = 105 ∨ specifier = 100 then
      (if d.flags.char then (r.1.setWidth 8).toInt else if d.flags.short then (r.1.setWidth 16).toInt else r.1.toInt)
    else
      ((if d.flags.char then (r.1.setWidth 8).toNat else if d.flags.short then (r.1.setWidth 16).toNat
        else r.1.toNat : ℕ) : ℤ), r.2)

theorem integerFlags_size (specifier : UInt8) (flags : Flags) :
    (integerFlags specifier flags).longLong = flags.longLong ∧ (integerFlags specifier flags).long = flags.long ∧
      (integerFlags specifier flags).char = flags.char ∧ (integerFlags specifier flags).short = flags.short := by
  simp only [integerFlags, apply_ite Flags.longLong, apply_ite Flags.long, apply_ite Flags.char,
    apply_ite Flags.short, ite_self, and_self]

theorem signExtend_toInt {w : ℕ} (value : BitVec w) (hw : w ≤ 32) : (value.signExtend 32).toInt = value.toInt :=
  BitVec.toInt_signExtend_of_le hw

section Directives
variable {specifier : UInt8} {d : Directive} {v : ℤ} {va va' : List Arg}

theorem integerBase_base (specifier : UInt8) : Base (integerBase specifier) := by
  unfold integerBase
  split_ifs
  · exact ⟨.inr (.inr (.inr rfl))⟩
  · exact ⟨.inr (.inl rfl)⟩
  · exact ⟨.inl rfl⟩
  · exact ⟨.inr (.inr (.inl rfl))⟩

theorem convertInteger_eq (hv : integerArg specifier d = some (v, va)) {β : Type} (out : Out β) (maxlen : ℕ)
    (p : β × ℕ) :
    convertInteger out maxlen specifier d p = some (ntoaLong out maxlen v.natAbs (v < 0) (integerBase specifier)
      d.precision d.width (integerFlags specifier d.flags) p, va) := by
  obtain ⟨hll, hl, hchar, hshort⟩ := integerFlags_size specifier d.flags
  have hnat (n : ℕ) : decide ((n : ℤ) < 0) = false := decide_eq_false (by omega)
  unfold convertInteger integerArg at *
  simp only [hll, hl, hchar, hshort, ntoaLongLong, Option.bind_eq_bind]
  by_cases hlong : d.flags.longLong = true ∨ d.flags.long = true
  · rw [if_pos hlong, Option.map_eq_some_iff] at hv
    obtain ⟨⟨value, va'⟩, hva, hr⟩ := hv
    obtain ⟨rfl, rfl⟩ := Prod.mk.inj hr
    have hwide {α : Type} (a b : α) : (if d.flags.longLong then a else if d.flags.long then a else b) = a := by
      rcases hlong with h | h
      · rw [if_pos h]
      · rw [if_pos h, ite_self]
    simp only [hva, Option.bind_some, hwide]
    by_cases hsigned : specifier = 105 ∨ specifier = 100
    · simp only [hsigned, if_true, magnitude_eq]
    · simp only [hsigned, if_false, Int.natAbs_natCast, hnat]
  · rw [if_neg hlong, Option.map_eq_some_iff] at hv
    obtain ⟨⟨value, va'⟩, hva, hr⟩ := hv
    obtain ⟨rfl, rfl⟩ := Prod.mk.inj hr
    rw [not_or] at hlong
    simp only [hlong.1, hlong.2, hva, Option.bind_some]
    by_cases hsigned : specifier = 105 ∨ specifier = 100
    · simp only [hsigned, if_true, magnitude_eq, Bool.false_eq_true, if_false]
      split_ifs
      · rw [signExtend_toInt _ (by omega)]
      · rw [signExtend_toInt _ (by omega)]
      · rfl
    · simp only [hsigned, if_false, Int.natAbs_natCast, hnat, Bool.false_eq_true]
      split_ifs
      · rw [BitVec.toNat_setWidth_of_le (by omega)]
      · rw [BitVec.toNat_setWidth_of_le (by omega)]
      · rfl

theorem integerArg_neg (hv : integerArg specifier d = some (v, va)) (hneg : v < 0) :
    specifier = 105 ∨ specifier = 100 := by
  by_contra hsigned
  unfold integerArg at hv
  simp only [hsigned, if_false] at hv
  split_ifs at hv <;> obtain ⟨r, -, hr⟩ := Option.map_eq_some_iff.mp hv <;>
    obtain ⟨rfl, rfl⟩ := Prod.mk.inj hr <;> omega

theorem integerFlags_hash (flags : Flags) (h : specifier = 105 ∨ specifier = 100) :
    (integerFlags specifier flags).hash = false := by
  rcases h with rfl | rfl <;> simp only [integerFlags, apply_ite Flags.hash, ite_self] <;> rfl

/-- When an integer can be read off what `printf` puts out for it: exactly if no digit gives way to the prefix of the
base, and the prefix and the sign have room in the conversion buffer. -/
theorem printf_reads_back (format : Str) (hd : evalDirective format va = some d)
    (hformat : d.format = [specifier])
    (hspecifier : specifier ∈ [100, 105, 117, 120, 88, 111, 98]) (hv : integerArg specifier d = some (v, va')) :
    ∃ (t : Str) (n : ℤ), printf (37 :: format) va = some (t, n) ∧
      (readNumber (integerBase specifier) t = some v ↔
        Readable (integerBase specifier) v.natAbs (v < 0) d.precision d.width (integerFlags specifier d.flags)) := by
  have hbase := integerBase_base specifier
  have hloop {β : Type} (out : Out β) (maxlen : ℕ) (p : β × ℕ) :
      vsnprintfLoop out maxlen (format.length + 2) (37 :: format) va p =
        some (putAll out maxlen (ntoaText v.natAbs (v < 0) (integerBase specifier) d.precision d.width
          (integerFlags specifier d.flags)) p) := by
    rw [vsnprintfLoop, if_neg (not_not.mpr rfl), hd, Option.bind_eq_bind, Option.bind_some, hformat]
    simp only [convert, if_pos hspecifier, convertInteger_eq hv, ntoaLong_eq, Option.bind_eq_bind,
      Option.bind_some]
    rfl
  have htext : text (37 :: format) va = some (ntoaText v.natAbs (v <
      0) (integerBase specifier) d.precision d.width (integerFlags specifier d.flags)) := by
    rw [text, List.length_cons, hloop, Option.map_some, putAll_collect, List.nil_append]
  have hprintf := vsnprintf_eq outChar (2 ^ 64 - 1) [] (37 :: format) va
  rw [htext, Option.map_some, putAll_char] at hprintf
  refine ⟨_, _, hprintf, ?_⟩
  have hkeep : (ntoaText v.natAbs (v < 0) (integerBase specifier) d.precision d.width
      (integerFlags specifier d.flags)).filter (· ≠ 0) =
        ntoaText v.natAbs (v < 0) (integerBase specifier) d.precision d.width
        (integerFlags specifier d.flags) :=
    List.filter_eq_self.mpr fun c hc => decide_eq_true (ntoaText_ne_zero hbase _ _ _ _ _ c hc)
  have hvalue : (if decide (v < 0) then -(v.natAbs : ℤ) else (v.natAbs : ℤ)) = v := by
    split_ifs with h <;> rw [decide_eq_true_eq] at h <;> omega
  have hreads :=
    readNumber_ntoaText v.natAbs hbase (v < 0) d.precision d.width (integerFlags specifier d.flags)
    fun hneg => ⟨by rw [decide_eq_true_eq] at hneg; omega,
      integerFlags_hash d.flags (integerArg_neg hv (of_decide_eq_true hneg))⟩
  rw [hvalue] at hreads
  exact hkeep.symm ▸ hreads

/-- Of `%#4x` the prefix takes two of the four digits. -/
theorem printf_reads_back_hash :
    ∃ (t : Str) (n : ℤ), printf [37, 35, 52, 120] [.int 0x1234] = some (t, n) ∧
      (readNumber 16 t = some 0x1234 ↔ Readable 16 0x1234 false 0 4 { Flags.none with hash := true }) :=
  printf_reads_back (d := ⟨{ Flags.none with hash := true }, 4, 0, [120], [.int 0x1234]⟩) [35, 52, 120] rfl rfl
    (by decide) rfl

example : printf [37, 35, 52, 120] [.int 0x1234] = some ([48, 120, 51, 52], 4) := by decide +kernel

end Directives

end Thorn.Printf
