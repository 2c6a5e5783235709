import Thorn.Printf

set_option autoImplicit false

namespace Thorn.Printf
open ByteStore Paths

section Puts
variable {β : Type} (out : Out β) (maxlen : ℕ)

theorem putAll_append (l m : Str) (p : β × ℕ) :
    putAll out maxlen (l ++ m) p = putAll out maxlen m (putAll out maxlen l p) := by
  induction l generalizing p with
  | nil => rfl
  | cons c l ih => exact ih _

theorem putMany_eq (c : UInt8) (n : ℕ) (p : β × ℕ) :
    putMany out maxlen c n p = putAll out maxlen (List.replicate n c) p := by
  induction n generalizing p with
  | zero => rfl
  | succ n ih => exact ih _

theorem putAll_idx (l : Str) (p : β × ℕ) : (putAll out maxlen l p).2 = p.2 + l.length := by
  induction l generalizing p with
  | nil => rfl
  | cons c l ih =>
    rw [putAll, ih, put, List.length_cons]
    omega

def revText (buf : Str) (width : ℕ) (flags : Flags) : Str :=
  (if ¬ flags.left ∧ ¬ flags.zeropad then List.replicate (width - buf.length) 32 else []) ++ buf.reverse ++
    if flags.left then List.replicate (width - buf.length) 32 else []

theorem outRev_eq (buf : Str) (width : ℕ) (flags : Flags) (p : β × ℕ) :
    outRev out maxlen buf width flags p = putAll out maxlen (revText buf width flags) p := by
  unfold outRev revText
  cases hleft : flags.left with
  | true =>
    have hidx : (putAll out maxlen buf.reverse p).2 - p.2 = buf.length := by
      rw [putAll_idx, List.length_reverse, Nat.add_sub_cancel_left]
    simp only [not_true_eq_false, false_and, if_false, if_true, List.nil_append, hidx, putMany_eq,
      putAll_append]
  | false =>
    simp only [Bool.false_eq_true, not_false_eq_true, true_and, if_false, List.append_nil, putAll_append]
    split_ifs
    · rfl
    · rw [putMany_eq]

def ntoaText (value : ℕ) (negative : Bool) (base prec width : ℕ) (flags : Flags) : Str :=
  let flags := if value = 0 then { flags with hash := false } else flags
  let buf :=
    if ¬ flags.precision ∨ value ≠ 0 then digitsLoop flags.uppercase base PRINTF_NTOA_BUFFER_SIZE value else []
  revText (ntoaBuffer buf negative base prec width flags) (signWidth negative width flags) flags

theorem ntoaLong_eq (value : ℕ) (negative : Bool) (base prec width : ℕ) (flags : Flags) (p : β × ℕ) :
    ntoaLong out maxlen value negative base prec width flags p =
      putAll out maxlen (ntoaText value negative base prec width flags) p := outRev_eq out maxlen _ _ _ p

end Puts

/-- Wherever it is put, the same text is put out, and the same is handed on. -/
def Emits {γ : Type} (f : (β : Type) → Out β → ℕ → β × ℕ → Option ((β × ℕ) × γ)) : Prop :=
  (∀ β out maxlen p, f β out maxlen p = none) ∨
    ∃ (text : Str) (c : γ), ∀ β out maxlen p, f β out maxlen p = some (putAll out maxlen text p, c)

namespace Emits
variable {γ α : Type} {f g : (β : Type) → Out β → ℕ → β × ℕ → Option ((β × ℕ) × γ)}

theorem text (t : Str) (c : γ) : Emits fun _ out maxlen p => some (putAll out maxlen t p, c) :=
  .inr ⟨t, c, fun _ _ _ _ => rfl⟩

theorem bind {x : Option α} {f : α → (β : Type) → Out β → ℕ → β × ℕ → Option ((β × ℕ) × γ)}
    (h : ∀ a, Emits (f a)) : Emits fun β out maxlen p => x.bind fun a => f a β out maxlen p := by
  cases x with
  | none => exact .inl fun _ _ _ _ => rfl
  | some a => exact h a

theorem ite {c : Prop} [Decidable c] (hf : Emits f) (hg : Emits g) :
    Emits fun β out maxlen p => if c then f β out maxlen p else g β out maxlen p := by
  by_cases hc : c
  · simp only [if_pos hc]
    exact hf
  · simp only [if_neg hc]
    exact hg

theorem number (value : ℕ) (negative : Bool) (base prec width : ℕ) (flags : Flags) (c : γ) :
    Emits fun _ out maxlen p => some (ntoaLong out maxlen value negative base prec width flags p, c) :=
  .inr ⟨_, c, fun _ out maxlen p => congrArg (fun q => some (q, c)) (ntoaLong_eq out maxlen _ _ _ _ _ _ p)⟩

end Emits

theorem convertInteger_emits (specifier : UInt8) (d : Directive) :
    Emits fun _ out maxlen p => convertInteger out maxlen specifier d p := by
  unfold convertInteger
  refine Emits.ite (Emits.ite ?_ (Emits.ite ?_ ?_)) (Emits.ite ?_ (Emits.ite ?_ ?_)) <;>
    exact Emits.bind fun _ => Emits.number _ _ _ _ _ _ _

section Conversions
variable {β : Type} (out : Out β) (maxlen : ℕ)

theorem pad_eq (c : Prop) [Decidable c] (n : ℕ) (p : β × ℕ) : (if c then putMany out maxlen 32 n p else p) =
    putAll out maxlen (if c then List.replicate n 32 else []) p := by
  split_ifs
  · exact putMany_eq out maxlen 32 n p
  · rfl

theorem put_eq (c : UInt8) (p : β × ℕ) : put out maxlen c p = putAll out maxlen [c] p := rfl

end Conversions

theorem convertChar_emits (d : Directive) : Emits fun _ out maxlen p => convertChar out maxlen d p := by
  unfold convertChar
  refine Emits.bind fun r => ?_
  simp only [pad_eq, put_eq, ← putAll_append]
  exact Emits.text _ _

theorem convertString_emits (d : Directive) : Emits fun _ out maxlen p => convertString out maxlen d p := by
  unfold convertString
  refine Emits.bind fun r => ?_
  simp only [pad_eq, ← putAll_append]
  exact Emits.text _ _

theorem convert_emits (specifier : UInt8) (d : Directive) :
    Emits fun _ out maxlen p => convert out maxlen specifier d p := by
  unfold convert
  refine Emits.ite (convertInteger_emits specifier d) (Emits.ite (.inl fun _ _ _ _ => rfl)
    (Emits.ite (convertChar_emits d) (Emits.ite (convertString_emits d) (Emits.ite ?_ (Emits.text [specifier] d.va)))))
  exact Emits.bind fun r => Emits.number _ _ _ _ _ _ _

theorem Emits.after {γ : Type} {f : (β : Type) → Out β → ℕ → β × ℕ → Option ((β × ℕ) × γ)} (t : Str)
    (hf : Emits f) : Emits fun β out maxlen p => f β out maxlen (putAll out maxlen t p) := by
  rcases hf with hf | ⟨text, c, hf⟩
  · exact .inl fun β out maxlen p => hf β out maxlen _
  · refine .inr ⟨t ++ text, c, fun β out maxlen p => ?_⟩
    rw [putAll_append]
    exact hf β out maxlen _

theorem Emits.seq {γ δ : Type} {f : (β : Type) → Out β → ℕ → β × ℕ → Option ((β × ℕ) × γ)}
    {g : γ → (β : Type) → Out β → ℕ → β × ℕ → Option ((β × ℕ) × δ)} (hf : Emits f) (hg : ∀ c, Emits (g c)) :
    Emits fun β out maxlen p => (f β out maxlen p).bind fun r => g r.2 β out maxlen r.1 := by
  rcases hf with hf | ⟨text, c, hf⟩
  · exact .inl fun β out maxlen p => congrArg (Option.bind · _) (hf β out maxlen p)
  · simp only [hf, Option.bind_some]
    exact (hg c).after text

theorem vsnprintfLoop_emits (fuel : ℕ) (format : Str) (va : List Arg) :
    Emits fun _ out maxlen p => (vsnprintfLoop out maxlen fuel format va p).map fun q => (q, ()) := by
  induction fuel generalizing format va with
  | zero => exact .inl fun _ _ _ _ => rfl
  | succ fuel ih =>
    cases format with
    | nil => exact Emits.text [] ()
    | cons ch format =>
      by_cases hch : ch ≠ 37
      · simp only [vsnprintfLoop, if_pos hch, put_eq]
        exact (ih format va).after [ch]
      · simp only [vsnprintfLoop, if_neg hch, Option.bind_eq_bind, Option.map_bind, Function.comp_def]
        refine Emits.bind fun d => ?_
        rcases d.format with _ | ⟨specifier, rest⟩
        · exact .inl fun _ _ _ _ => rfl
        · simp only [Option.map_bind, Function.comp_def]
          exact (convert_emits specifier d).seq fun va => ih rest va

def collect : Out Str := fun character buffer _ _ => buffer ++ [character]

def text (format : Str) (va : List Arg) : Option Str :=
  (vsnprintfLoop collect 0 (format.length + 1) format va ([], 0)).map fun q => q.1

theorem putAll_collect (maxlen : ℕ) (t : Str) (p : Str × ℕ) : (putAll collect maxlen t p).1 = p.1 ++ t := by
  induction t generalizing p with
  | nil => exact (List.append_nil _).symm
  | cons c t ih =>
    rw [putAll, ih, put, collect, List.append_assoc]
    rfl

theorem vsnprintf_eq {β : Type} (out : Out β) (maxlen : ℕ) (buffer : β) (format : Str) (va : List Arg) :
    vsnprintf out maxlen buffer format va = (text format va).map fun t =>
      (out 0 (putAll out maxlen t (buffer, 0)).1
        (if t.length < maxlen then t.length else (maxlen + 2 ^ 64 - 1) % 2 ^ 64) maxlen,
        (BitVec.ofNat 32 t.length).toInt) := by
  rcases vsnprintfLoop_emits (format.length + 1) format va with h | ⟨t, c, h⟩
  · have hnone : ∀ (β : Type) (out : Out β) maxlen p,
        vsnprintfLoop out maxlen (format.length + 1) format va p = none :=
      fun β out maxlen p => Option.map_eq_none_iff.mp (h β out maxlen p)
    rw [vsnprintf, text, hnone, hnone]
    rfl
  · have hsome : ∀ (β : Type) (out : Out β) maxlen p, vsnprintfLoop out maxlen (format.length + 1) format va p =
        some (putAll out maxlen t p) := fun β out maxlen p => by
      obtain ⟨q, hq, heq⟩ := Option.map_eq_some_iff.mp (h β out maxlen p)
      rw [hq, (Prod.mk.inj heq).1]
    have hidx : (putAll out maxlen t (buffer, 0)).2 = t.length := by rw [putAll_idx, Nat.zero_add]
    rw [vsnprintf, text, hsome, hsome, Option.bind_eq_bind, Option.bind_some, Option.map_some, Option.map_some,
      putAll_collect, List.nil_append]
    generalize putAll out maxlen t (buffer, 0) = q at hidx ⊢
    obtain ⟨buffer', idx⟩ := q
    obtain rfl : idx = t.length := hidx
    rfl

section Sinks

theorem update_patch (buffer : Store) (i : ℕ) (c : UInt8) :
    Function.update buffer i c = patch buffer i [c] := by
  funext j
  by_cases hj : j = i
  · subst hj
    rw [Function.update_self]
    exact (patch_inside buffer j [c] 0 Nat.one_pos).symm
  · rw [Function.update_of_ne hj]
    exact (patch_outside buffer i [c] j (by simp only [List.length_singleton]; omega)).symm

theorem putAll_buffer (maxlen : ℕ) (t : Str) (buffer : Store) (idx : ℕ) :
    (putAll outBuffer maxlen t (buffer, idx)).1 = patch buffer idx (t.take (maxlen - idx)) := by
  induction t generalizing buffer idx with
  | nil =>
    rw [List.take_nil, patch_nil]
    rfl
  | cons c t ih =>
    rw [putAll, put, ih, outBuffer]
    split_ifs with hlt
    · obtain ⟨k, hk⟩ : ∃ k, maxlen - idx = k + 1 := ⟨maxlen - idx - 1, by omega⟩
      rw [hk, show maxlen - (idx + 1) = k by omega, List.take_succ_cons, update_patch]
      exact patch_append buffer idx [c] (t.take k)
    · rw [show maxlen - idx = 0 by omega, show maxlen - (idx + 1) = 0 by omega, List.take_zero, List.take_zero,
        patch_nil, patch_nil]

theorem putAll_char (maxlen : ℕ) (t : Str) (p : Str × ℕ) :
    (putAll outChar maxlen t p).1 = p.1 ++ t.filter (· ≠ 0) := by
  induction t generalizing p with
  | nil => exact (List.append_nil _).symm
  | cons c t ih =>
    rw [putAll, ih, put, outChar]
    by_cases hc : c = 0
    · simp [hc]
    · simp [hc]

theorem outBuffer_terminated (t : Str) (buffer : Store) {count : ℕ} (hsmall : count < 2 ^ 64) :
    outBuffer 0 (putAll outBuffer count t (buffer, 0)).1
      (if t.length < count then t.length else (count + 2 ^ 64 - 1) % 2 ^ 64) count =
        if count = 0 then buffer else patch buffer 0 (t.take (count - 1) ++ [0]) := by
  rw [putAll_buffer, Nat.sub_zero]
  rcases Nat.eq_zero_or_pos count with rfl | hpos
  · rw [if_pos rfl, outBuffer, if_neg (Nat.not_lt_zero _), List.take_zero, patch_nil]
  · rw [if_neg hpos.ne']
    have hput : ∀ l : Str, Function.update (patch buffer 0 l) l.length 0 =
        patch buffer 0 (l ++ [0]) := fun l => by
      rw [update_patch, ← patch_append, Nat.zero_add]
    by_cases hfits : t.length < count
    · rw [if_pos hfits, outBuffer, if_pos hfits, List.take_of_length_le hfits.le,
        List.take_of_length_le (by omega), hput]
    · have hlast : (count + 2 ^ 64 - 1) % 2 ^ 64 = count - 1 := by omega
      have hlen : (t.take (count - 1)).length = count - 1 := List.length_take_of_le (by omega)
      have hsplit : t.take count = t.take (count - 1) ++ [t.getD (count - 1) 0] := by
        obtain ⟨k, rfl⟩ : ∃ k, count = k + 1 := ⟨count - 1, by omega⟩
        have hk : k < t.length := by omega
        rw [Nat.add_sub_cancel, List.take_succ_eq_append_getElem hk, List.getD_eq_getElem _ _ hk]
      rw [if_neg hfits, hlast, outBuffer, if_pos (by omega), hsplit, ← patch_append, hlen, Nat.zero_add,
        ← update_patch, Function.update_idem, ← hput, hlen]

end Sinks

/-- `printf` and `snprintf_` put out one text: the terminal gets it without its zeros, a buffer as much of it as leaves
room for the terminator, and both return its whole length. -/
theorem snprintf_printf (format : Str) (va : List Arg) :
    (printf format va = none ∧ ∀ buffer count, snprintf buffer count format va = none) ∨
      ∃ (t : Str) (n : ℤ), n = (BitVec.ofNat 32 t.length).toInt ∧ printf format va = some (t.filter (· ≠ 0), n) ∧
        (∀ count, snprintf none count format va = some (none, n)) ∧
        ∀ buffer count, count < 2 ^ 64 → snprintf (some buffer) count format va =
          some (some (if count = 0 then buffer else patch buffer 0 (t.take (count - 1) ++ [0])), n) := by
  have hprintf := vsnprintf_eq outChar (2 ^ 64 - 1) [] format va
  have hnull := fun count => vsnprintf_eq outNull count () format va
  have hbuffer := fun (buffer : Store) count => vsnprintf_eq outBuffer count buffer format va
  cases ht : text format va with
  | none =>
    simp only [ht, Option.map_none] at hprintf hnull hbuffer
    refine .inl ⟨hprintf, fun buffer count => ?_⟩
    cases buffer with
    | none => rw [snprintf, hnull, Option.map_none]
    | some buffer => rw [snprintf, hbuffer, Option.map_none]
  | some t =>
    simp only [ht, Option.map_some] at hprintf hnull hbuffer
    refine .inr ⟨t, _, rfl, ?_, fun count => ?_, fun buffer count hsmall => ?_⟩
    · rw [printf, hprintf, putAll_char]
      rfl
    · rw [snprintf, hnull, Option.map_some]
    · rw [snprintf, hbuffer, Option.map_some, outBuffer_terminated t buffer hsmall]

end Thorn.Printf
