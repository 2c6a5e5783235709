import Thorn.ShellWords

set_option autoImplicit false

namespace Thorn.Shell
open ByteStore Paths FatTypes FatDriver FatOperations FatImage Printf Keyboard

section Run
variable {σ α β : Type}

def InputContext.shown (c : InputContext σ) (t : Str) : InputContext σ :=
  { c with terminal := c.terminal ++ t.filter (· ≠ 0) }

def InputContext.driving (c : InputContext σ) (d : Driver σ) : InputContext σ := { c with driver := some d }

@[simp] theorem shown_shown (c : InputContext σ) (t u : Str) : (c.shown t).shown u = c.shown (t ++ u) := by
  simp only [InputContext.shown, List.filter_append, List.append_assoc]

@[simp] theorem shown_nil (c : InputContext σ) : c.shown [] = c := by
  simp only [InputContext.shown, List.filter_nil, List.append_nil]

theorem run_bind (x : Command σ α) (f : α → Command σ β) (c : InputContext σ) :
    (x >>= f) c = (x c).bind fun r => f r.1 r.2 := rfl

theorem run_pure (a : α) (c : InputContext σ) : (pure a : Command σ α) c = some (a, c) := rfl

theorem run_ite (p : Prop) [Decidable p] (x y : Command σ α) (c : InputContext σ) :
    (if p then x else y) c = if p then x c else y c := by
  split_ifs
  · rfl
  · rfl

theorem run_lift {x : Option α} {a : α} (h : x = some a) (c : InputContext σ) :
    (StateT.lift x : Command σ α) c = some (a, c) := by
  rw [h]
  rfl

end Run

section Texts
variable {σ : Type} {format : String} {va : List Arg}

theorem text_plain {t : Str} (h : (37 : UInt8) ∉ t) (va : List Arg) : text t va = some t := by
  have htext := text_chars h [] va
  rwa [List.append_nil, text_nil, Option.map_some, List.append_nil] at htext

theorem run_tprintf {t : Str} (h : text (ascii format) va = some t) (c : InputContext σ) :
    tprintf format va c = some ((), c.shown t) := by
  rw [tprintf, printf_text h]
  rfl

theorem run_plain (h : (37 : UInt8) ∉ ascii format) (c : InputContext σ) :
    tprintf format [] c = some ((), c.shown (ascii format)) := run_tprintf (text_plain h []) c

theorem text_between {front back : Str} (hfront : (37 : UInt8) ∉ front) (hback : (37 : UInt8) ∉ back)
    (t : Str) : text (front ++ 37 :: 115 :: back) [.string t] = some (front ++ t ++ back) := by
  rw [text_chars hfront, text_string, text_plain hback]
  simp only [Option.map_some, List.append_assoc]

theorem run_between (front back : Str) (hformat : ascii format = front ++ 37 :: 115 :: back)
    (hfront : (37 : UInt8) ∉ front) (hback : (37 : UInt8) ∉ back) (t : Str) (c : InputContext σ) :
    tprintf format [.string t] c = some ((), c.shown (front ++ t ++ back)) :=
  run_tprintf (by rw [hformat, text_between hfront hback]) c

theorem run_counted (front middle back : Str)
    (hformat : ascii format = front ++ 37 :: 108 :: 117 :: (middle ++ 37 :: 115 :: back))
    (hfront : (37 : UInt8) ∉ front) (hmiddle : (37 : UInt8) ∉ middle) (hback : (37 : UInt8) ∉ back) {n : ℕ}
    (hn : n < 2 ^ 64) (t : Str) (c : InputContext σ) :
    tprintf format [.long (BitVec.ofNat 64 n), .string t] c =
      some ((), c.shown (front ++ decimal n ++ middle ++ t ++ back)) := by
  refine run_tprintf ?_ c
  rw [hformat, text_chars hfront, text_long, text_between hmiddle hback, BitVec.toNat_ofNat,
    Nat.mod_eq_of_lt hn]
  simp only [Option.map_some, List.append_assoc]

theorem run_sized (front middle back : Str)
    (hformat : ascii format = front ++ 37 :: 115 :: (middle ++ 37 :: 108 :: 117 :: back))
    (hfront : (37 : UInt8) ∉ front) (hmiddle : (37 : UInt8) ∉ middle) (hback : (37 : UInt8) ∉ back) {n : ℕ}
    (hn : n < 2 ^ 64) (t : Str) (c : InputContext σ) :
    tprintf format [.string t, .long (BitVec.ofNat 64 n)] c =
      some ((), c.shown (front ++ t ++ middle ++ decimal n ++ back)) := by
  refine run_tprintf ?_ c
  rw [hformat, text_chars hfront, text_string, text_chars hmiddle, text_long, text_plain hback,
    BitVec.toNat_ofNat, Nat.mod_eq_of_lt hn]
  simp only [Option.map_some, List.append_assoc]

theorem run_bytes {n : ℕ} (hn : n < 2 ^ 64) (t : Str) (c : InputContext σ) :
    tprintf "Wrote %lu byte%s to %s.\n"
        [.long (BitVec.ofNat 64 n), .string (if n = 1 then [] else ascii "s"), .string t] c =
      some ((), c.shown (ascii "Wrote " ++ decimal n ++ ascii (if n = 1 then " byte to " else " bytes to ") ++ t ++
        ascii ".\n")) := by
  have hformat : ascii "Wrote %lu byte%s to %s.\n" = ascii "Wrote " ++ 37 :: 108 :: 117 ::
    (ascii " byte" ++ 37 :: 115 :: (ascii " to " ++ 37 :: 115 :: ascii ".\n")) := rfl
  have hplural : ascii (if n = 1 then " byte to " else " bytes to ") =
      ascii " byte" ++ ((if n = 1 then [] else ascii "s") ++ ascii " to ") := by
    split_ifs
    · rfl
    · rfl
  refine run_tprintf ?_ c
  rw [hformat, text_chars (by decide), text_long, text_chars (by decide), text_string,
    text_between (by decide) (by decide), BitVec.toNat_ofNat, Nat.mod_eq_of_lt hn, hplural]
  simp only [Option.map_some, List.append_assoc]

theorem run_printEach (bytes : List UInt8) (c : InputContext σ) :
    printEach bytes c = some ((), c.shown bytes) := by
  induction bytes generalizing c with
  | nil => exact congrArg (fun c => some ((), c)) (shown_nil c).symm
  | cons b bytes ih =>
    have hchar : ∀ i : Fin 256, UInt8.ofNat ((UInt8.ofNat i).toBitVec.signExtend 32).toNat = UInt8.ofNat i := by
      decide +kernel
    have hb := hchar ⟨b.toNat, b.toNat_lt⟩
    rw [UInt8.ofNat_toNat] at hb
    have htext : text (ascii "%c") [.int (b.toBitVec.signExtend 32)] = some [b] := by
      refine (text_character [] [] _).trans ?_
      rw [text_nil, Option.map_some, hb]
    rw [printEach, run_bind, run_tprintf htext, Option.bind_some, ih, shown_shown, List.singleton_append]

theorem run_listItems {items : List (Str × ℕ)} (h : ∀ item ∈ items, (0 : UInt8) ∉ item.1) (c : InputContext σ) :
    listItems items c = some ((), c.shown ((items.map Prod.fst).flatMap (· ++ ascii "\n"))) := by
  induction items generalizing c with
  | nil => exact congrArg (fun c => some ((), c)) (shown_nil c).symm
  | cons item items ih =>
    obtain ⟨hitem, hitems⟩ := List.forall_mem_cons.mp h
    rw [listItems, cStr_text hitem, run_bind, run_between [] (ascii "\n") rfl (by decide) (by decide),
      Option.bind_some, ih hitems, shown_shown]
    rfl

variable (around : Surroundings FlatDevice)

theorem text_failed {message : Str} (hmessage : (37 : UInt8) ∉ message) {status : ℤ}
    (hlow : -2 ^ 31 ≤ status) (hneg : status < 0) :
    text (message ++ ascii ": %s (%d)\n") (statusArgs around status) = some (failed around message status) := by
  have hint : (BitVec.ofInt 32 status).toInt = status := by
    rw [BitVec.toInt_ofInt]
    exact Int.bmod_eq_of_le (by omega) (by omega)
  have hsplit : ascii ": %s (%d)\n" = ascii ": " ++ 37 :: 115 :: (ascii " (" ++ 37 :: 100 :: ascii ")\n") := rfl
  rw [hsplit, text_chars hmessage, text_chars (by decide), statusArgs, text_string, text_chars (by decide),
    text_int, text_plain (by decide), hint, failed]
  simp only [Option.map_some, List.append_assoc]

theorem run_failed (message : Str) (hformat : ascii format = message ++ ascii ": %s (%d)\n")
    (hmessage : (37 : UInt8) ∉ message) {status : ℤ} (hlow : -2 ^ 31 ≤ status) (hneg : status < 0)
    (c : InputContext FlatDevice) :
    tprintf format (statusArgs around status) c = some ((), c.shown (failed around message status)) :=
  run_tprintf (by rw [hformat, text_failed around hmessage hlow hneg]) c

end Texts

end Thorn.Shell
