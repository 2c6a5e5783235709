import Thorn.InterruptStubs

set_option autoImplicit false

namespace Thorn.Interrupts
open ByteStore ByteStack

/-- The System V convention, as far as a stub can see: the callee's frame is
below the stack pointer, and the frames of its callers are from it on. -/
structure Conforms (f : Machine → Machine) : Prop where
  rsp (m : Machine) : (f m).regs .rsp = m.regs .rsp
  saved (m : Machine) : ∀ r ∈ [Reg.rbx, .rbp, .r12, .r13, .r14, .r15], (f m).regs r = m.regs r
  frames (m : Machine) (i : ℕ) (h : i < 2 ^ 63) :
    (f m).mem (m.regs .rsp + BitVec.ofNat 64 i) = m.mem (m.regs .rsp + BitVec.ofNat 64 i)

structure CFunctions.Conform (fns : CFunctions) : Prop where
  symbol (fn : Symbol) : Conforms (fns.symbol fn)
  address (a : BitVec 64) : Conforms (fns.address a)

structure Stack (m : Machine) (top : BitVec 64) (bs : List UInt8) : Prop where
  height : m.regs .rsp + BitVec.ofNat 64 bs.length = top
  bytes : Stands m.mem (m.regs .rsp) bs

section Words

@[simp] theorem word_length (v : BitVec 64) : (word v).length = 8 := leBytes_length _ _

theorem unword_word (v : BitVec 64) : unword (word v) = v := by
  have hv := v.isLt
  apply BitVec.eq_of_toNat_eq
  rw [unword, word, leNat_leBytes, BitVec.toNat_ofNat]
  omega

theorem words_length (rs : List Reg) (f : Reg → BitVec 64) :
    (rs.flatMap fun r => word (f r)).length = 8 * rs.length := by
  rw [List.length_flatMap]
  simp only [word_length, List.map_const', List.sum_replicate, smul_eq_mul]
  exact Nat.mul_comm _ _

end Words

section Steps
variable {m m' : Machine} {top : BitVec 64} {xs bs : List UInt8}

theorem setReg_self (r : Reg) (v : BitVec 64) : (m.setReg r v).regs r = v := by
  simp only [Machine.setReg, Function.update_self]

theorem setReg_other {r q : Reg} (v : BitVec 64) (h : q ≠ r) : (m.setReg r v).regs q = m.regs q := by
  simp only [Machine.setReg, Function.update_of_ne h]

theorem setLow_other {r q : Reg} (v : BitVec 16) (h : q ≠ r) : (m.setLow r v).regs q = m.regs q :=
  setReg_other _ h

theorem Stack.congr (h : Stack m top bs) (m' : Machine) (rsp : m'.regs .rsp = m.regs .rsp) (mem : m'.mem = m.mem) :
    Stack m' top bs where
  height := by rw [rsp, h.height]
  bytes := by
    rw [rsp, mem]
    exact h.bytes

theorem pushBytes_rsp : (m.pushBytes xs).regs .rsp = m.regs .rsp - BitVec.ofNat 64 xs.length :=
  setReg_self (m := m) .rsp (m.regs .rsp - BitVec.ofNat 64 xs.length)

theorem pushBytes_other {r : Reg} (h : r ≠ .rsp) : (m.pushBytes xs).regs r = m.regs r := setReg_other _ h

theorem Stack.push (h : Stack m top bs) (xs : List UInt8) (hlen : xs.length + bs.length ≤ 2 ^ 64) :
    Stack (m.pushBytes xs) top (xs ++ bs) where
  height := by
    rw [pushBytes_rsp, List.length_append, BitVec.ofNat_add, ← BitVec.add_assoc, BitVec.sub_add_cancel,
      h.height]
  bytes := by
    rw [pushBytes_rsp]
    exact h.bytes.push hlen

theorem Stack.below (h : Stack m top bs) (h' : Stack m' top (xs ++ bs)) :
    m.regs .rsp = m'.regs .rsp + BitVec.ofNat 64 xs.length := by
  have hheight := h'.height
  rw [← h.height, List.length_append, BitVec.ofNat_add, ← add_assoc] at hheight
  exact (add_right_cancel hheight).symm

theorem Stack.drop (h : Stack m top (xs ++ bs)) (m' : Machine)
    (rsp : m'.regs .rsp = m.regs .rsp + BitVec.ofNat 64 xs.length) (mem : m'.mem = m.mem) :
    Stack m' top bs where
  height := by rw [rsp, BitVec.add_assoc, ← BitVec.ofNat_add, ← List.length_append, h.height]
  bytes := by
    rw [rsp, mem]
    exact (stands_append.mp h.bytes).2

theorem Stack.top_word {v : BitVec 64} (h : Stack m top (word v ++ bs)) : m.loadWord (m.regs .rsp) = v := by
  have hword : load m.mem (m.regs .rsp) (word v).length = word v := (stands_append.mp h.bytes).1
  rw [word_length] at hword
  rw [Machine.loadWord, hword, unword_word]

theorem popReg_other {r q : Reg} (hq : q ≠ r) (hsp : q ≠ .rsp) : (m.popReg r).regs q = m.regs q := by
  rw [Machine.popReg, setReg_other _ hq, setReg_other _ hsp]

theorem Stack.pop_self {v : BitVec 64} (h : Stack m top (word v ++ bs)) (r : Reg) :
    (m.popReg r).regs r = v := by
  rw [Machine.popReg, setReg_self, h.top_word]

theorem popReg_rsp {r : Reg} (h : r ≠ .rsp) : (m.popReg r).regs .rsp = m.regs .rsp + 8 := by
  rw [Machine.popReg, setReg_other _ h.symm, setReg_self]

theorem Stack.pop {v : BitVec 64} {r : Reg} (h : Stack m top (word v ++ bs)) (hr : r ≠ .rsp) :
    Stack (m.popReg r) top bs :=
  h.drop _ (by rw [word_length, popReg_rsp hr]; rfl) rfl

theorem Stack.pop_rsp {v : BitVec 64} (h : Stack m top (word v ++ bs)) (hv : v = m.regs .rsp + 8) :
    Stack (m.popReg .rsp) top bs :=
  h.drop _ (by rw [h.pop_self, hv, word_length]; rfl) rfl

theorem Stack.call {f : Machine → Machine} (hf : Conforms f) (h : Stack m top bs) (hlen : bs.length ≤ 2 ^ 63) :
    Stack (f m) top bs where
  height := by rw [hf.rsp, h.height]
  bytes := by
    rw [hf.rsp]
    exact h.bytes.congr fun i hi => hf.frames m i (by omega)

end Steps

section Sequences
variable (fns : CFunctions) {m : Machine} {top : BitVec 64} {bs : List UInt8}

theorem run_pushes (rs : List Reg) (hrs : .rsp ∉ rs) (code : List Instr) (hs : Stack m top bs)
    (hlen : 8 * rs.length + bs.length ≤ 2 ^ 64) :
    ∃ m', run fns none (rs.map .push ++ code) m = run fns none code m' ∧
      (∀ r, r ≠ .rsp → m'.regs r = m.regs r) ∧
      Stack m' top ((rs.reverse.flatMap fun r => word (m.regs r)) ++ bs) := by
  induction rs generalizing m bs with
  | nil => exact ⟨m, rfl, fun _ _ => rfl, hs⟩
  | cons r rs ih =>
    rw [List.length_cons] at hlen
    have hr : r ≠ .rsp := fun he => hrs (he ▸ List.mem_cons_self)
    have hrest : .rsp ∉ rs := fun hm => hrs (List.mem_cons_of_mem _ hm)
    have hpush := hs.push (word (m.regs r)) (by rw [word_length]; omega)
    obtain ⟨m', hrun, hregs, hstack⟩ := ih hrest hpush (by rw [List.length_append, word_length]; omega)
    refine ⟨m', hrun, fun q hq => (hregs q hq).trans (pushBytes_other hq), ?_⟩
    have hsame : (rs.reverse.flatMap fun q => word ((m.pushBytes (word (m.regs r))).regs q)) =
        rs.reverse.flatMap fun q => word (m.regs q) := by
      apply List.flatMap_congr
      intro q hq
      rw [pushBytes_other]
      rintro rfl
      exact hrest (List.mem_reverse.mp hq)
    rw [hsame] at hstack
    rw [List.reverse_cons, List.flatMap_append, List.flatMap_singleton, List.append_assoc]
    exact hstack

theorem run_pops (rs : List Reg) (hrs : .rsp ∉ rs) (code : List Instr) (f : Reg → BitVec 64)
    (hs : Stack m top ((rs.flatMap fun r => word (f r)) ++ bs)) :
    ∃ m', run fns none (rs.map .pop ++ code) m = run fns none code m' ∧ (∀ r ∈ rs, m'.regs r = f r) ∧
      (∀ r, r ∉ rs → r ≠ .rsp → m'.regs r = m.regs r) ∧ Stack m' top bs := by
  induction rs generalizing m with
  | nil => exact ⟨m, rfl, fun r hr => absurd hr List.not_mem_nil, fun _ _ _ => rfl, hs⟩
  | cons r rs ih =>
    have hr : r ≠ .rsp := fun he => hrs (he ▸ List.mem_cons_self)
    have hrest : .rsp ∉ rs := fun hm => hrs (List.mem_cons_of_mem _ hm)
    rw [List.flatMap_cons, List.append_assoc] at hs
    obtain ⟨m', hrun, hpopped, hother, hstack⟩ := ih hrest (hs.pop hr)
    refine ⟨m', hrun, fun q hq => ?_, fun q hq hsp => ?_, hstack⟩
    · by_cases hin : q ∈ rs
      · exact hpopped q hin
      · have hqr : q = r := (List.mem_cons.mp hq).resolve_right hin
        rw [hother q hin (hqr ▸ hr), hqr]
        exact hs.pop_self r
    · rw [List.mem_cons, not_or] at hq
      rw [hother q hq.2 hsp]
      exact popReg_other hq.1 hsp

def savedRegs (m : Machine) : List UInt8 :=
  ([Reg.r15, .r14, .r13, .r12, .r11, .r10, .r9, .r8, .rdi, .rsi, .rbp].flatMap fun r => word (m.regs r)) ++
    (word (m.regs .rsp - 32) ++ [Reg.rdx, .rcx, .rbx, .rax].flatMap fun r => word (m.regs r))

theorem savedRegs_length : (savedRegs m).length = 128 := by
  rw [savedRegs, List.length_append, List.length_append, words_length, words_length, word_length]
  rfl

theorem run_pushall (code : List Instr) (hs : Stack m top bs) (hlen : bs.length ≤ 2 ^ 62) :
    ∃ m', run fns none (pushall ++ code) m = run fns none code m' ∧
      (∀ r, r ≠ .rsp → m'.regs r = m.regs r) ∧ Stack m' top (savedRegs m ++ bs) := by
  let low := [Reg.rbp, .rsi, .rdi, .r8, .r9, .r10, .r11, .r12, .r13, .r14, .r15]
  obtain ⟨m₁, hrun₁, hregs₁, hstack₁⟩ := run_pushes fns [.rax, .rbx, .rcx, .rdx] (by decide)
    (.push .rsp :: (low.map .push ++ code)) hs (by rw [show List.length _ = 4 from rfl]; omega)
  have hlen₁ : ([Reg.rax, .rbx, .rcx, .rdx].reverse.flatMap fun r => word (m.regs r)).length = 32 :=
    words_length _ _
  have hsp : m₁.regs .rsp = m.regs .rsp - 32 := by
    rw [hs.below hstack₁, hlen₁]
    exact (add_sub_cancel_right _ _).symm
  have hstack₂ := hstack₁.push (word (m₁.regs .rsp)) (by
    rw [List.length_append, hlen₁, word_length]; omega)
  obtain ⟨m₃, hrun₃, hregs₃, hstack₃⟩ := run_pushes fns low (by decide) code hstack₂ (by
    rw [List.length_append, List.length_append, hlen₁, word_length, show low.length = 11 from rfl]; omega)
  refine ⟨m₃, hrun₁.trans hrun₃, fun r hr => ?_, ?_⟩
  · rw [hregs₃ r hr, pushBytes_other hr, hregs₁ r hr]
  · have hsame : (low.reverse.flatMap fun r => word ((m₁.pushBytes (word (m₁.regs .rsp))).regs r)) =
        low.reverse.flatMap fun r => word (m.regs r) := by
      apply List.flatMap_congr
      intro r hr
      have hne : r ≠ .rsp := by
        rintro rfl
        exact absurd hr (by decide)
      rw [pushBytes_other hne, hregs₁ r hne]
    rw [hsame, hsp, ← List.append_assoc, ← List.append_assoc] at hstack₃
    exact hstack₃

theorem run_popall {entry : Machine} (code : List Instr) (hentry : Stack entry top bs)
    (hs : Stack m top (savedRegs entry ++ bs)) :
    ∃ m', run fns none (popall ++ code) m = run fns none code m' ∧ m'.regs = entry.regs ∧ Stack m' top bs := by
  let low := [Reg.r15, .r14, .r13, .r12, .r11, .r10, .r9, .r8, .rdi, .rsi, .rbp]
  let high := [Reg.rdx, .rcx, .rbx, .rax]
  rw [savedRegs, List.append_assoc, List.append_assoc] at hs
  obtain ⟨m₁, hrun₁, hpopped₁, -, hstack₁⟩ := run_pops fns low (by decide)
    (.pop .rsp :: (high.map .pop ++ code)) entry.regs hs
  have hsp : entry.regs .rsp - 32 = m₁.regs .rsp + 8 := by
    rw [← List.append_assoc] at hstack₁
    rw [hentry.below hstack₁, List.length_append, word_length, words_length]
    have hsum : m₁.regs .rsp + BitVec.ofNat 64 (8 + 8 * high.length) = m₁.regs .rsp + 8 + 32 := by
      rw [add_assoc]
      rfl
    rw [hsum, add_sub_cancel_right]
  obtain ⟨m₃, hrun₃, hpopped₃, hother₃, hstack₃⟩ := run_pops fns high (by decide) code entry.regs
    (hstack₁.pop_rsp hsp)
  refine ⟨m₃, hrun₁.trans hrun₃, ?_, hstack₃⟩
  funext r
  by_cases hrsp : r = .rsp
  · rw [hrsp]
    exact add_right_cancel (hstack₃.height.trans hentry.height.symm)
  · by_cases hhigh : r ∈ high
    · exact hpopped₃ r hhigh
    · have hlow : r ∈ low := by
        cases r <;> first | exact absurd rfl hrsp | exact absurd (by decide) hhigh | decide
      rw [hother₃ r hhigh hrsp, popReg_other hrsp hrsp, hpopped₁ r hlow]

theorem addq_self (imm : BitVec 64) (r : Reg) : (exec fns m (.addq imm r)).regs r = m.regs r + imm :=
  setReg_self (m := m) r (m.regs r + imm)

theorem addq_other {r q : Reg} (imm : BitVec 64) (h : q ≠ r) : (exec fns m (.addq imm r)).regs q = m.regs q :=
  setReg_other (m := m) (m.regs r + imm) h

theorem movLoad_other {r q base : Reg} (disp : BitVec 64) (h : q ≠ r) :
    (exec fns m (.movLoad disp base r)).regs q = m.regs q :=
  setReg_other (m := m) (m.loadWord (m.regs base + disp)) h

theorem movFromVar_other {r q : Reg} (v : Variable) (h : q ≠ r) :
    (exec fns m (.movFromVar v r)).regs q = m.regs q :=
  setReg_other (m := m) (m.vars v) h

/-- All of `isr_common`: the eight bytes that are dropped at the end belong to an
entry that stands on the stack before it. -/
theorem run_isr_common (fn : Symbol) (code : List Instr) (hf : Conforms (fns.symbol fn)) (hs : Stack m top bs)
    (hlen : bs.length ≤ 2 ^ 62) :
    ∃ m', run fns none (isr_common fn ++ code) m = run fns none code m' ∧
      (∀ r, r ≠ .rsp → m'.regs r = m.regs r) ∧ m'.regs .rsp = m.regs .rsp + 8 ∧
      Stands m'.mem (m.regs .rsp) bs := by
  let enter : List Instr :=
    [.movw 0x10 .rax, .movToSReg .rax .ds, .movToSReg .rax .es, .movToSReg .rax .fs, .movToSReg .rax .gs]
  let leave : List Instr := [.movToSReg .rax .ds, .movToSReg .rax .es, .movToSReg .rax .fs, .movToSReg .rax .gs]
  obtain ⟨m₁, hrun₁, -, hstack₁⟩ := run_pushall fns (.movFromSReg .ds .rax :: .push .rax ::
    (enter ++ .call fn :: .pop .rax :: (leave ++ (popall ++ .addq 8 .rsp :: code)))) hs hlen
  have hlong : (savedRegs m ++ bs).length ≤ 2 ^ 62 + 128 := by
    rw [List.length_append, savedRegs_length]
    omega
  let m₂ := exec fns m₁ (.movFromSReg .ds .rax)
  have hstack₂ : Stack m₂ top (savedRegs m ++ bs) := hstack₁.congr _ (setLow_other _ (by decide)) rfl
  let m₃ := exec fns m₂ (.push .rax)
  have hstack₃ : Stack m₃ top (word (m₂.regs .rax) ++ (savedRegs m ++ bs)) :=
    hstack₂.push _ (by rw [word_length]; omega)
  let m₄ := enter.foldl (exec fns) m₃
  have hstack₄ : Stack m₄ top (word (m₂.regs .rax) ++ (savedRegs m ++ bs)) :=
    hstack₃.congr _ (setLow_other (m := m₃) (r := .rax) (q := .rsp) 0x10 (by decide)) rfl
  let m₅ := fns.symbol fn m₄
  have hstack₅ : Stack m₅ top (word (m₂.regs .rax) ++ (savedRegs m ++ bs)) :=
    hstack₄.call hf (by rw [List.length_append, word_length]; omega)
  let m₆ := leave.foldl (exec fns) (exec fns m₅ (.pop .rax))
  have hstack₆ : Stack m₆ top (savedRegs m ++ bs) := (hstack₅.pop (r := .rax) (by decide)).congr _ rfl rfl
  obtain ⟨m₇, hrun₇, hregs₇, hstack₇⟩ := run_popall fns (.addq 8 .rsp :: code) hs hstack₆
  have hmiddle : run fns none (isr_common fn ++ code) m =
      run fns none (popall ++ .addq 8 .rsp :: code) m₆ := hrun₁
  refine ⟨exec fns m₇ (.addq 8 .rsp), hmiddle.trans hrun₇, fun r hr => ?_, ?_, ?_⟩
  · rw [← hregs₇]
    exact addq_other fns 8 hr
  · rw [← hregs₇]
    exact addq_self fns 8 .rsp
  · rw [← hregs₇]
    exact hstack₇.bytes

end Sequences

/-- The frame the processor pushes: `SS`, `RSP`, `RFLAGS`, `CS` and `RIP`. -/
def frameSize : ℕ := 40

/-- A stub gives back the registers, the stack pointer among them, and the frame. -/
structure Transparent (entry m : Machine) : Prop where
  regs : ∀ r, m.regs r = entry.regs r
  frame : load m.mem (entry.regs .rsp) frameSize = load entry.mem (entry.regs .rsp) frameSize

/-- Whatever the functions do that the convention leaves open, the code reaches
its `iretq` and gives everything back. -/
def GivesBack (code : List Instr) (entry : Machine) : Prop :=
  ∀ fns : CFunctions, fns.Conform → ∃ m, run fns none code entry = some m ∧ Transparent entry m

section Stubs
variable (fns : CFunctions) (entry : Machine)

theorem stack_frame : Stack entry (entry.regs .rsp + BitVec.ofNat 64 frameSize)
    (load entry.mem (entry.regs .rsp) frameSize) where
  height := by rw [load_length]
  bytes := stands_load

theorem Stack.transparent {entry m : Machine} {top : BitVec 64} (hregs : ∀ r, r ≠ .rsp → m.regs r = entry.regs r)
    (hs : Stack m top (load entry.mem (entry.regs .rsp) frameSize))
    (htop : top = entry.regs .rsp + BitVec.ofNat 64 frameSize) : Transparent entry m := by
  have hsp : m.regs .rsp = entry.regs .rsp := by
    have hheight := hs.height
    rw [load_length, htop] at hheight
    exact add_right_cancel hheight
  refine ⟨fun r => ?_, ?_⟩
  · by_cases hr : r = .rsp
    · rw [hr, hsp]
    · exact hregs r hr
  · have hbytes := hs.bytes
    rwa [Stands, load_length, hsp] at hbytes

theorem isr_33_gives_back : GivesBack isr_33 entry := by
  intro fns hfns
  have hframe := stack_frame { entry with interrupts := false }
  obtain ⟨m₁, hrun₁, -, hstack₁⟩ := run_pushall fns
    (.pushq 0 :: .call .irq1 :: .addq 8 .rsp :: (popall ++ [.sti, .iretq])) hframe
    (by rw [load_length, frameSize]; omega)
  have hpush := hstack₁.push (word 0) (by
    rw [word_length, List.length_append, savedRegs_length, load_length, frameSize]; omega)
  have hcall := hpush.call (hfns.symbol .irq1) (by
    rw [List.length_append, word_length, List.length_append, savedRegs_length, load_length, frameSize]; omega)
  let m₂ := exec fns (fns.symbol .irq1 (m₁.pushBytes (word 0))) (.addq 8 .rsp)
  have hstack₂ := hcall.drop m₂ (by rw [word_length]; exact addq_self fns 8 .rsp) rfl
  obtain ⟨m₃, hrun₃, hregs₃, hstack₃⟩ := run_popall fns [.sti, .iretq] hframe hstack₂
  refine ⟨exec fns m₃ .sti, hrun₁.trans hrun₃, ?_⟩
  exact Stack.transparent (fun r _ => congrFun hregs₃ r) (hstack₃.congr _ rfl rfl) rfl

/-- Without an error code `isr_common` drops six bytes of the frame along with
the two that were pushed for one. -/
theorem isr_noerrc_displaced (fn : Symbol) (hfns : fns.Conform) :
    ∃ m, run fns none (isr_noerrc fn) entry = some m ∧ m.regs .rsp = entry.regs .rsp + 6 ∧
      (∀ r, r ≠ .rsp → m.regs r = entry.regs r) ∧
      load m.mem (entry.regs .rsp) frameSize = load entry.mem (entry.regs .rsp) frameSize := by
  have hframe := (stack_frame { entry with interrupts := false }).push (leBytes 2 0) (by
    rw [leBytes_length, load_length, frameSize]; omega)
  obtain ⟨m, hrun, hregs, hsp, hbytes⟩ := run_isr_common fns fn [.sti, .iretq] (hfns.symbol fn) hframe (by
    rw [List.length_append, leBytes_length, load_length, frameSize]; omega)
  have hpushed : (Machine.pushBytes { entry with interrupts := false } (leBytes 2 0)).regs .rsp =
      entry.regs .rsp - 2 := pushBytes_rsp
  refine ⟨exec fns m .sti, hrun, ?_, fun r hr => ?_, ?_⟩
  · have hsum : entry.regs .rsp - 2 + 8 = entry.regs .rsp + 6 := by ring
    exact (hsp.trans (congrArg (· + 8) hpushed)).trans hsum
  · exact (hregs r hr).trans (pushBytes_other hr)
  · have hback : entry.regs .rsp - 2 + BitVec.ofNat 64 (leBytes 2 0).length = entry.regs .rsp :=
      sub_add_cancel _ _
    have habove := (stands_append.mp hbytes).2
    rw [hpushed, hback, Stands, load_length] at habove
    exact habove

/-- The tick that the interrupt counts is the one `APIC::wait` waits for. -/
def TimerDue (entry : Machine) : Prop :=
  entry.vars .timer_max ≠ -1 ∧ entry.vars .ticks + 1 = entry.vars .timer_max

instance : Decidable (TimerDue entry) := inferInstanceAs (Decidable (_ ∧ _))

theorem run_isr_32_tick (code : List Instr) :
    ∃ m, run fns none ([.cli, .push .rax, .movLoad 8 .rsp .rax, .push .rdi, .push .rsi, .incq .ticks,
        .movFromVar .apic_base .rax, .addq 0xb0 .rax, .movlDevice 0 .rax, .pop .rsi, .pop .rdi] ++ code) entry =
        run fns none code m ∧
      (∀ r, r ≠ .rax → r ≠ .rsp → m.regs r = entry.regs r) ∧
      m.vars = Function.update entry.vars .ticks (entry.vars .ticks + 1) ∧
      Stack m (entry.regs .rsp + BitVec.ofNat 64 frameSize)
        (word (entry.regs .rax) ++ load entry.mem (entry.regs .rsp) frameSize) := by
  have hframe := stack_frame { entry with interrupts := false }
  have hlen : (load entry.mem (entry.regs .rsp) frameSize).length = 40 := load_length
  let m₁ := Machine.pushBytes { entry with interrupts := false } (word (entry.regs .rax))
  have hstack₁ := hframe.push (word (entry.regs .rax)) (by rw [word_length, hlen]; omega)
  have hregs₁ : ∀ r, r ≠ .rsp → m₁.regs r = entry.regs r := fun r hr => pushBytes_other hr
  let m₂ := exec fns m₁ (.movLoad 8 .rsp .rax)
  have hregs₂ : ∀ r, r ≠ .rax → m₂.regs r = m₁.regs r := fun r hr => movLoad_other fns 8 hr
  have hstack₂ := hstack₁.congr m₂ (hregs₂ .rsp (by decide)) rfl
  have hstack₃ := hstack₂.push (word (m₂.regs .rdi)) (by
    rw [word_length, List.length_append, word_length, hlen]; omega)
  let m₃ := m₂.pushBytes (word (m₂.regs .rdi))
  have hstack₄ := hstack₃.push (word (m₃.regs .rsi)) (by
    rw [word_length, List.length_append, word_length, List.length_append, word_length, hlen]; omega)
  let m₄ := m₃.pushBytes (word (m₃.regs .rsi))
  let counted := exec fns m₄ (.incq .ticks)
  let based := exec fns counted (.movFromVar .apic_base .rax)
  let m₅ := exec fns (exec fns based (.addq 0xb0 .rax)) (.movlDevice 0 .rax)
  have hregs₅ : ∀ r, r ≠ .rax → m₅.regs r = m₄.regs r := fun r hr =>
    (addq_other fns (m := based) 0xb0 hr).trans (movFromVar_other fns (m := counted) .apic_base hr)
  have hstack₅ := hstack₄.congr m₅ (hregs₅ .rsp (by decide)) rfl
  have hstack₆ := hstack₅.pop (r := .rsi) (by decide)
  have hstack₇ := hstack₆.pop (r := .rdi) (by decide)
  refine ⟨(m₅.popReg .rsi).popReg .rdi, rfl, fun r hrax hrsp => ?_, rfl, hstack₇⟩
  have hsame : ∀ r, r ≠ .rax → r ≠ .rsp → m₂.regs r = entry.regs r := fun r hrax hrsp =>
    (hregs₂ r hrax).trans (hregs₁ r hrsp)
  by_cases hrdi : r = .rdi
  · rw [hrdi, hstack₆.pop_self]
    exact hsame .rdi (by decide) (by decide)
  · rw [popReg_other hrdi hrsp]
    by_cases hrsi : r = .rsi
    · rw [hrsi, hstack₅.pop_self]
      exact (pushBytes_other (by decide)).trans (hsame .rsi (by decide) (by decide))
    · rw [popReg_other hrsi hrsp, hregs₅ r hrax]
      exact (pushBytes_other hrsp).trans ((pushBytes_other hrsp).trans (hsame r hrax hrsp))

/-- The whole of `isr_32`: the last `pop` loads `rax` again, after the call of
`timer_addr` if the timer is due. -/
theorem run_isr_32 : ∃ m, (∀ r, r ≠ .rax → r ≠ .rsp → m.regs r = entry.regs r) ∧
    Stack m (entry.regs .rsp + BitVec.ofNat 64 frameSize)
      (word (entry.regs .rax) ++ load entry.mem (entry.regs .rsp) frameSize) ∧
    run fns none isr_32 entry = some (exec fns
      ((if TimerDue entry then fns.address (entry.vars .timer_addr) m else m).popReg .rax) .sti) := by
  obtain ⟨m, hrun, hregs, hvars, hstack⟩ := run_isr_32_tick fns entry [
    .cmpqImm (-1) .timer_max, .je .isr_32_timer_check_done,
    .movFromVar .ticks .rax, .cmpqReg .rax .timer_max, .jne .isr_32_timer_check_done,
    .movFromVar .timer_addr .rax, .callReg .rax,
    .label .isr_32_timer_check_done, .pop .rax, .sti, .iretq]
  have hmax : m.vars .timer_max = entry.vars .timer_max := by
    rw [hvars]
    exact Function.update_of_ne (by decide) _ _
  have hticks : m.vars .ticks = entry.vars .ticks + 1 := by
    rw [hvars]
    exact Function.update_self _ _ _
  have haddr : m.vars .timer_addr = entry.vars .timer_addr := by
    rw [hvars]
    exact Function.update_of_ne (by decide) _ _
  let waits := exec fns m (.cmpqImm (-1) .timer_max)
  let counted := exec fns (exec fns waits (.movFromVar .ticks .rax)) (.cmpqReg .rax .timer_max)
  let called := exec fns counted (.movFromVar .timer_addr .rax)
  have hpaths : run fns none isr_32 entry =
      if waits.zf then some (exec fns (waits.popReg .rax) .sti)
      else if counted.zf then some (exec fns ((fns.address (called.regs .rax) called).popReg .rax) .sti)
      else some (exec fns (counted.popReg .rax) .sti) := hrun
  have hcounted : ∀ r, r ≠ .rax → counted.regs r = m.regs r := fun r hr =>
    movFromVar_other fns (m := waits) .ticks hr
  have hcalled : ∀ r, r ≠ .rax → called.regs r = m.regs r := fun r hr =>
    (movFromVar_other fns (m := counted) .timer_addr hr).trans (hcounted r hr)
  have htarget : called.regs .rax = entry.vars .timer_addr :=
    (setReg_self (m := counted) .rax (m.vars .timer_addr)).trans haddr
  have hunset : waits.zf = decide (entry.vars .timer_max = -1) := by
    rw [← hmax]
    rfl
  have hreached : counted.zf = decide (entry.vars .timer_max = entry.vars .ticks + 1) := by
    rw [← hmax, ← hticks]
    exact congrArg (fun v => decide (m.vars .timer_max = v)) (setReg_self (m := waits) .rax (m.vars .ticks))
  rw [hunset, hreached, htarget] at hpaths
  by_cases hnone : entry.vars .timer_max = -1
  · refine ⟨waits, hregs, hstack.congr _ rfl rfl, ?_⟩
    rw [hpaths, if_pos (decide_eq_true hnone), if_neg fun hdue => hdue.1 hnone]
  · rw [if_neg (by rw [decide_eq_false hnone]; exact Bool.false_ne_true)] at hpaths
    by_cases hlast : entry.vars .timer_max = entry.vars .ticks + 1
    · refine ⟨called, fun r hrax hrsp => (hcalled r hrax).trans (hregs r hrax hrsp),
        hstack.congr _ (hcalled .rsp (by decide)) rfl, ?_⟩
      rw [hpaths, if_pos (decide_eq_true hlast), if_pos ⟨hnone, hlast.symm⟩]
    · refine ⟨counted, fun r hrax hrsp => (hcounted r hrax).trans (hregs r hrax hrsp),
        hstack.congr _ (hcounted .rsp (by decide)) rfl, ?_⟩
      rw [hpaths, if_neg (by rw [decide_eq_false hlast]; exact Bool.false_ne_true),
        if_neg fun hdue => hlast hdue.2.symm]

theorem isr_32_gives_back (h : ¬ TimerDue entry) : GivesBack isr_32 entry := by
  intro fns _
  obtain ⟨m, hregs, hstack, hrun⟩ := run_isr_32 fns entry
  rw [if_neg h] at hrun
  refine ⟨_, hrun, Stack.transparent (fun r hr => ?_) ((hstack.pop (r := .rax) (by decide)).congr _ rfl rfl) rfl⟩
  by_cases hrax : r = .rax
  · rw [hrax]
    exact hstack.pop_self .rax
  · exact (popReg_other hrax hr).trans (hregs r hrax hr)

def countsInRcx (m : Machine) : Machine := m.setReg .rcx (m.regs .rcx + 1)

theorem countsInRcx_conforms : Conforms countsInRcx where
  rsp m := setReg_other _ (by decide)
  saved m r hr := setReg_other _ (by
    rintro rfl
    exact absurd hr (by decide))
  frames m i _ := rfl

def countingFunctions : CFunctions := ⟨fun _ => countsInRcx, fun _ => countsInRcx⟩

theorem countingFunctions_conform : countingFunctions.Conform :=
  ⟨fun _ => countsInRcx_conforms, fun _ => countsInRcx_conforms⟩

theorem isr_32_due (h : TimerDue entry) : ¬ GivesBack isr_32 entry := by
  intro hback
  obtain ⟨m', hrun', htrans⟩ := hback countingFunctions countingFunctions_conform
  obtain ⟨m, hregs, -, hrun⟩ := run_isr_32 countingFunctions entry
  rw [if_pos h, hrun', Option.some.injEq] at hrun
  have hrcx : m'.regs .rcx = entry.regs .rcx + 1 := by
    rw [hrun, ← hregs .rcx (by decide) (by decide)]
    exact (popReg_other (r := .rax) (q := .rcx) (by decide) (by decide)).trans
      (setReg_self (m := m) .rcx (m.regs .rcx + 1))
  rw [htrans.regs .rcx] at hrcx
  exact absurd (left_eq_add.mp hrcx) (by decide)

theorem isr_noerrc_keeps_none (fn : Symbol) : ¬ GivesBack (isr_noerrc fn) entry := by
  intro hback
  obtain ⟨m', hrun', htrans⟩ := hback countingFunctions countingFunctions_conform
  obtain ⟨m, hrun, hsp, -⟩ := isr_noerrc_displaced countingFunctions entry fn countingFunctions_conform
  rw [hrun', Option.some.injEq] at hrun
  rw [← hrun, htrans.regs .rsp] at hsp
  exact absurd (left_eq_add.mp hsp) (by decide)

theorem noerrc_stubs_displace : ∀ code ∈ [isr_0, isr_39, isr_43, isr_46, isr_47], ¬ GivesBack code entry := by
  intro code hcode
  simp only [List.mem_cons, List.not_mem_nil, or_false] at hcode
  rcases hcode with rfl | rfl | rfl | rfl | rfl
  all_goals exact isr_noerrc_keeps_none entry _

/-- With the eight bytes of an error code on top `isr_common` is balanced: `isr_8`
returns with the registers as they were and the stack pointer at the frame. -/
theorem isr_8_returns (hfns : fns.Conform) :
    ∃ m, run fns none isr_8 entry = some m ∧ m.regs .rsp = entry.regs .rsp + 8 ∧
      (∀ r, r ≠ .rsp → m.regs r = entry.regs r) ∧
      load m.mem (entry.regs .rsp + 8) frameSize = load entry.mem (entry.regs .rsp + 8) frameSize := by
  let bs := load entry.mem (entry.regs .rsp) (8 + frameSize)
  have hlen : bs.length = 48 := load_length
  let m₁ := [Instr.cli, .movToVar .rbp .isr_rbp].foldl (exec fns) entry
  have hstack₁ : Stack m₁ (entry.regs .rsp + 48) bs :=
    ⟨congrArg (entry.regs .rsp + BitVec.ofNat 64 ·) hlen, stands_load⟩
  have hstack₂ := hstack₁.push (word (m₁.regs .rax)) (by rw [word_length, hlen]; omega)
  let m₂ := exec fns m₁ (.push .rax)
  let m₃ := exec fns (exec fns m₂ (.movLoad 16 .rsp .rax)) (.movToVar .rax .addr8)
  have hloaded : ∀ r, r ≠ .rax → m₃.regs r = m₂.regs r := fun r hr => movLoad_other fns 16 hr
  have hregs₃ : ∀ r, r ≠ .rax → r ≠ .rsp → m₃.regs r = entry.regs r := fun r hrax hrsp =>
    (hloaded r hrax).trans (pushBytes_other (m := m₁) hrsp)
  have hstack₃ := hstack₂.congr m₃ (hloaded .rsp (by decide)) rfl
  let m₄ := m₃.popReg .rax
  have hstack₄ : Stack m₄ _ bs := hstack₃.pop (by decide)
  have hregs₄ : ∀ r, r ≠ .rsp → m₄.regs r = entry.regs r := by
    intro r hrsp
    by_cases hrax : r = .rax
    · rw [hrax]
      exact hstack₃.pop_self .rax
    · exact (popReg_other hrax hrsp).trans (hregs₃ r hrax hrsp)
  obtain ⟨m₅, hrun₅, -, hstack₅⟩ := run_pushall fns
    (.movFromVar .isr_rbp .rdi :: .call .backtrace :: (popall ++ (isr_common .double_fault ++ [.iretq]))) hstack₄
    (by rw [hlen]; omega)
  let m₆ := exec fns m₅ (.movFromVar .isr_rbp .rdi)
  have hstack₆ := hstack₅.congr m₆ (movFromVar_other fns .isr_rbp (by decide)) rfl
  have hstack₇ := hstack₆.call (hfns.symbol .backtrace) (by
    rw [List.length_append, savedRegs_length, hlen]; omega)
  obtain ⟨m₈, hrun₈, hregs₈, hstack₈⟩ :=
    run_popall fns (isr_common .double_fault ++ [.iretq]) hstack₄ hstack₇
  obtain ⟨m, hrun, hregs, hsp, hbytes⟩ := run_isr_common fns .double_fault [.iretq]
    (hfns.symbol .double_fault) hstack₈ (by rw [hlen]; omega)
  have hsp₈ : m₈.regs .rsp = entry.regs .rsp := add_right_cancel (hstack₈.height.trans hstack₁.height.symm)
  refine ⟨m, (hrun₅.trans hrun₈).trans hrun, by rw [hsp, hsp₈], fun r hr => ?_, ?_⟩
  · rw [hregs r hr, hregs₈, hregs₄ r hr]
  · have hboth : bs = load entry.mem (entry.regs .rsp) 8 ++ load entry.mem (entry.regs .rsp + 8) frameSize :=
      load_add frameSize
    rw [hsp₈, Stands, load_length, load_add, hboth] at hbytes
    exact (List.append_inj hbytes (by rw [load_length, load_length])).2

end Stubs

inductive Stub
  | isr_32 | isr_33 | isr_39 | isr_43
  deriving DecidableEq

def Stub.code : Stub → List Instr
  | .isr_32 => Interrupts.isr_32
  | .isr_33 => Interrupts.isr_33
  | .isr_39 => Interrupts.isr_39
  | .isr_43 => Interrupts.isr_43

theorem stub_gives_back_iff (stub : Stub) (entry : Machine) :
    GivesBack stub.code entry ↔ stub = .isr_33 ∨ stub = .isr_32 ∧ ¬ TimerDue entry := by
  cases stub with
  | isr_32 =>
    by_cases hdue : TimerDue entry
    · exact iff_of_false (isr_32_due entry hdue) (by simp [hdue])
    · exact iff_of_true (isr_32_gives_back entry hdue) (.inr ⟨rfl, hdue⟩)
  | isr_33 => exact iff_of_true (isr_33_gives_back entry) (.inl rfl)
  | isr_39 => exact iff_of_false (isr_noerrc_keeps_none entry .spurious_interrupt) (by simp)
  | isr_43 => exact iff_of_false (isr_noerrc_keeps_none entry .irq11) (by simp)

def idle : Machine where
  regs := fun _ => 0
  sregs := fun _ => 0x10
  mem := fun _ => 0
  vars := fun v => if v = .timer_max then -1 else 0
  apic := fun _ => 0
  zf := false
  interrupts := true

/-- The spurious interrupt, at the instruction it interrupts. -/
theorem spurious_displaces : ¬ ∀ (stub : Stub) (entry : Machine), GivesBack stub.code entry :=
  fun h => isr_noerrc_keeps_none idle .spurious_interrupt (h .isr_39 idle)

end Thorn.Interrupts
