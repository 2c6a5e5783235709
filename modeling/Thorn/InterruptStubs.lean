import Thorn.Library.ByteStack

set_option autoImplicit false

/-!
# The interrupt stubs

The stubs of `interrupts.S` on the general registers and a stack of bytes: what
stands in the registers and on the stack when one of them reaches `iretq`.
-/
namespace Thorn.Interrupts
open ByteStore ByteStack

inductive Reg
  | rax | rbx | rcx | rdx | rsp | rbp | rsi | rdi | r8 | r9 | r10 | r11 | r12 | r13 | r14 | r15
  deriving DecidableEq

inductive SReg
  | ds | es | fs | gs
  deriving DecidableEq

inductive Variable
  | ticks | timer_max | timer_addr | apic_base | isr_rbp | addr8
  deriving DecidableEq

inductive Symbol
  | div0 | double_fault | backtrace | spurious_interrupt | irq1 | irq11 | irq14 | irq15

inductive Label
  | isr_32_timer_check_done
  deriving DecidableEq

inductive Instr
  | cli
  | sti
  | iretq
  | push (r : Reg)
  | pushq (imm : BitVec 64)
  | pushw (imm : BitVec 16)
  | pop (r : Reg)
  | addq (imm : BitVec 64) (r : Reg)
  | movFromSReg (s : SReg) (r : Reg)
  | movToSReg (r : Reg) (s : SReg)
  | movw (imm : BitVec 16) (r : Reg)
  | movLoad (disp : BitVec 64) (base r : Reg)
  | movFromVar (v : Variable) (r : Reg)
  | movToVar (r : Reg) (v : Variable)
  | movlDevice (imm : BitVec 32) (r : Reg)
  | incq (v : Variable)
  | cmpqImm (imm : BitVec 64) (v : Variable)
  | cmpqReg (r : Reg) (v : Variable)
  | je (l : Label)
  | jne (l : Label)
  | label (l : Label)
  | call (fn : Symbol)
  | callReg (r : Reg)

/-- The memory is the stack. The variables and the registers of the APIC are
elsewhere, as are the flags at entry, which are in the interrupt frame. -/
structure Machine where
  regs : Reg → BitVec 64
  sregs : SReg → BitVec 16
  mem : Memory 64
  vars : Variable → BitVec 64
  apic : BitVec 64 → BitVec 32
  zf : Bool
  interrupts : Bool

/-- What a call does to the machine, the push and the pop of the return address included. -/
structure CFunctions where
  symbol : Symbol → Machine → Machine
  address : BitVec 64 → Machine → Machine

def word (v : BitVec 64) : List UInt8 := leBytes 8 v.toNat

def unword (bs : List UInt8) : BitVec 64 := BitVec.ofNat 64 (leNat bs)

namespace Machine

def setReg (m : Machine) (r : Reg) (v : BitVec 64) : Machine := { m with regs := Function.update m.regs r v }

def setLow (m : Machine) (r : Reg) (v : BitVec 16) : Machine :=
  m.setReg r ((m.regs r).extractLsb' 16 48 ++ v)

def pushBytes (m : Machine) (bs : List UInt8) : Machine :=
  let sp := m.regs .rsp - BitVec.ofNat 64 bs.length
  { m.setReg .rsp sp with mem := store m.mem sp bs }

def loadWord (m : Machine) (a : BitVec 64) : BitVec 64 := unword (load m.mem a 8)

/-- `pop %rsp` is left with the word it loads. -/
def popReg (m : Machine) (r : Reg) : Machine :=
  (m.setReg .rsp (m.regs .rsp + 8)).setReg r (m.loadWord (m.regs .rsp))

def setVar (m : Machine) (v : Variable) (x : BitVec 64) :
    Machine := { m with vars := Function.update m.vars v x }

end Machine

/-- The instructions that neither jump nor return. -/
def exec (fns : CFunctions) (m : Machine) : Instr → Machine
  | .cli => { m with interrupts := false }
  | .sti => { m with interrupts := true }
  | .push r => m.pushBytes (word (m.regs r))
  | .pushq imm => m.pushBytes (word imm)
  | .pushw imm => m.pushBytes (leBytes 2 imm.toNat)
  | .pop r => m.popReg r
  | .addq imm r => { m.setReg r (m.regs r + imm) with zf := m.regs r + imm = 0 }
  | .movFromSReg s r => m.setLow r (m.sregs s)
  | .movToSReg r s => { m with sregs := Function.update m.sregs s ((m.regs r).setWidth 16) }
  | .movw imm r => m.setLow r imm
  | .movLoad disp base r => m.setReg r (m.loadWord (m.regs base + disp))
  | .movFromVar v r => m.setReg r (m.vars v)
  | .movToVar r v => m.setVar v (m.regs r)
  | .movlDevice imm r => { m with apic := Function.update m.apic (m.regs r) imm }
  | .incq v => { m.setVar v (m.vars v + 1) with zf := m.vars v + 1 = 0 }
  | .cmpqImm imm v => { m with zf := m.vars v = imm }
  | .cmpqReg r v => { m with zf := m.vars v = m.regs r }
  | .call fn => fns.symbol fn m
  | .callReg r => fns.address (m.regs r) m
  | .iretq | .je _ | .jne _ | .label _ => m

/-- The machine at the `iretq` that the code reaches; all jumps are forward, so
that the code up to the label is passed over. -/
def run (fns : CFunctions) : Option Label → List Instr → Machine → Option Machine
  | _, [], _ => none
  | some l, .label here :: code, m => if here = l then run fns none code m else run fns (some l) code m
  | some l, _ :: code, m => run fns (some l) code m
  | none, i :: code, m =>
    match i with
    | .iretq => some m
    | .je l => if m.zf then run fns (some l) code m else run fns none code m
    | .jne l => if m.zf then run fns none code m else run fns (some l) code m
    | i => run fns none code (exec fns m i)

section Code
open Instr

def pushall : List Instr := [
  push .rax, push .rbx, push .rcx, push .rdx, push .rsp, push .rbp, push .rsi, push .rdi, push .r8,
  push .r9, push .r10, push .r11, push .r12, push .r13, push .r14, push .r15]

def popall : List Instr := [
  pop .r15, pop .r14, pop .r13, pop .r12, pop .r11, pop .r10, pop .r9, pop .r8, pop .rdi, pop .rsi,
  pop .rbp, pop .rsp, pop .rdx, pop .rcx, pop .rbx, pop .rax]

def isr_common (fn : Symbol) : List Instr :=
  pushall ++ [movFromSReg .ds .rax, push .rax,
    movw 0x10 .rax, movToSReg .rax .ds, movToSReg .rax .es, movToSReg .rax .fs, movToSReg .rax .gs,
    call fn, pop .rax,
    movToSReg .rax .ds, movToSReg .rax .es, movToSReg .rax .fs, movToSReg .rax .gs] ++
  popall ++ [addq 8 .rsp]

def isr_noerrc (fn : Symbol) : List Instr := [cli, pushw 0] ++ isr_common fn ++ [sti, iretq]

def isr_0 : List Instr := isr_noerrc .div0
def isr_39 : List Instr := isr_noerrc .spurious_interrupt
def isr_43 : List Instr := isr_noerrc .irq11
def isr_46 : List Instr := isr_noerrc .irq14
def isr_47 : List Instr := isr_noerrc .irq15

/-- A double fault, whose frame has an error code on top. -/
def isr_8 : List Instr :=
  [cli, movToVar .rbp .isr_rbp, push .rax, movLoad 16 .rsp .rax, movToVar .rax .addr8, pop .rax] ++
  pushall ++ [movFromVar .isr_rbp .rdi, call .backtrace] ++ popall ++ isr_common .double_fault ++ [iretq]

def isr_32 : List Instr := [
  cli, push .rax, movLoad 8 .rsp .rax, push .rdi, push .rsi, incq .ticks,
  movFromVar .apic_base .rax, addq 0xb0 .rax, movlDevice 0 .rax, pop .rsi, pop .rdi,
  cmpqImm (-1) .timer_max, je .isr_32_timer_check_done,
  movFromVar .ticks .rax, cmpqReg .rax .timer_max, jne .isr_32_timer_check_done,
  movFromVar .timer_addr .rax, callReg .rax,
  label .isr_32_timer_check_done, pop .rax, sti, iretq]

def isr_33 : List Instr :=
  [cli] ++ pushall ++ [pushq 0, call .irq1, addq 8 .rsp] ++ popall ++ [sti, iretq]

end Code

end Thorn.Interrupts
