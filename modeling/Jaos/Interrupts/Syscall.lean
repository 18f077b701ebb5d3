import Jaos.Interrupts.Isr

/-!
# System calls (`kernel/syscall.c`, `user/syscall.c`)

A program puts a number into `rax`, its argument into `rdi`, and executes `int $0x80`. The handler compares
the number with `SYSCALL_NUM`, takes a word of the table `syscalls` and calls it.

`syscall_returns`: the function that a wrapper names is the one that runs, with the program's registers as
its arguments, and the program goes on with the result in `rax`. But `rax` is signed in `registers_t`, so a
negative number passes the comparison, and there is one for every word of memory (`syscall_any_word`).
-/

namespace Interrupts

open Lib

/-! ## The code -/

/-- The system calls. -/
inductive Syscall
  | puts | puthex | putint | kmalloc | kfree | readline | fork | exec | exit | sleep
deriving DecidableEq

/-- `syscalls`. -/
def syscalls : List Syscall :=
  [.puts, .puthex, .putint, .kmalloc, .kfree, .readline, .fork, .exec, .exit, .sleep]

/-- `SYSCALL_NUM`. -/
abbrev syscallNum : Nat := 10

/-- The numbers of `user/syscall.c`. -/
def Syscall.number : Syscall → Nat
  | .puts => 0
  | .puthex => 1
  | .putint => 2
  | .kmalloc => 3
  | .kfree => 4
  | .readline => 5
  | .fork => 6
  | .exec => 7
  | .exit => 8
  | .sleep => 9

/-- The wrappers of `DEFN_SYSCALL1`; the others are of `DEFN_SYSCALL0`. -/
def Syscall.hasParameter : Syscall → Bool
  | .fork | .exit | .sleep => false
  | _ => true

/-- A wrapper of `user/syscall.c` up to `int $0x80`. -/
def Syscall.prepare (f : Syscall) (p1 : Word64) (c : Cpu) : Cpu :=
  let c := c.set .rax (BitVec.ofNat 64 f.number)
  if f.hasParameter then c.set .rdi p1 else c

/-- Code that gets its arguments in registers, and returns a value in `rax`. -/
abbrev Fn (σ : Type) := (rdi rsi rdx rcx r8 r9 : Word64) → σ → Word64 × σ

/-- The address of `syscalls`, the words of memory, and the code at an address. -/
structure Image (σ : Type) where
  table : Word64
  mem : Word64 → Word64
  code : Word64 → Fn σ

section
variable {σ : Type}

/-- The table holds the addresses of the functions. -/
def Image.Installed (t : Image σ) (impl : Syscall → Fn σ) : Prop :=
  ∀ i f, syscalls[i]? = some f → t.code (t.mem (Stack.slot t.table i)) = impl f

/-- The code at the address, with the arguments that the registers hold. -/
def Image.callReg (t : Image σ) (location : Word64) (c : Cpu) (s : σ) : Word64 × σ :=
  t.code location (c.gpr .rdi) (c.gpr .rsi) (c.gpr .rdx) (c.gpr .rcx) (c.gpr .r8) (c.gpr .r9) s

/-- The `asm` of `syscall_handler` up to the call. -/
def callArguments (regs : Registers) (location : Word64) (c : Cpu) : Cpu :=
  let c := c.push regs.rdi
  let c := c.push regs.rsi
  let c := c.push regs.rdx
  let c := c.push regs.rcx
  let c := c.push regs.r8
  let c := c.push regs.r9
  let c := c.push location
  let c := c.pop .r11
  let c := c.pop .r9
  let c := c.pop .r8
  let c := c.pop .rcx
  let c := c.pop .rdx
  let c := c.pop .rsi
  c.pop .rdi

/-- `syscall_handler`; `c` is the processor at its `asm`. -/
def syscallHandler (t : Image σ) (c : Cpu) : Handler σ := fun regs s =>
  if (syscallNum : Int) ≤ regs.rax.toInt then (regs, s)
  else
    let location := t.mem (t.table + 8 * regs.rax)
    let c := callArguments regs location c
    let ret := t.callReg (c.gpr .r11) c s
    ({ regs with rax := ret.1 }, ret.2)

end

/-! ## The call -/

section
variable {σ : Type} {t : Image σ} {impl : Syscall → Fn σ} {k : Isr σ} {g : Entry}
  {call : Cpu → σ → Cpu × σ} {c cpu : Cpu} {s : σ} {regs : Registers} {location : Word64} {f : Syscall}

/-- **The pops undo the pushes** in the order of the calling convention. -/
theorem callArguments_gpr (regs : Registers) (location : Word64) (c : Cpu) :
    (callArguments regs location c).gpr = setAll [.r11, .r9, .r8, .rcx, .rdx, .rsi, .rdi]
      [location, regs.r9, regs.r8, regs.rcx, regs.rdx, regs.rsi, regs.rdi] c.gpr := by
  let pushed : Cpu := { c with
    stack := c.stack.pushAll [regs.rdi, regs.rsi, regs.rdx, regs.rcx, regs.r8, regs.r9, location] }
  have hrun : callArguments regs location c = pushed.popAll [.r11, .r9, .r8, .rcx, .rdx, .rsi, .rdi] := rfl
  have hholds : pushed.stack.Holds
      ([location, regs.r9, regs.r8, regs.rcx, regs.rdx, regs.rsi, regs.rdi] ++ []) :=
    (Stack.Holds.nil c.stack).pushAll _ (Nat.lt_of_sub_eq_succ rfl)
  rw [hrun, popAll_eq hholds rfl]

/-- `syscall_handler` behind its comparison. -/
theorem syscallHandler_eq (h : regs.rax.toInt < (syscallNum : Int)) (s : σ) :
    syscallHandler t cpu regs s =
      let ret := t.code (t.mem (t.table + 8 * regs.rax)) regs.rdi regs.rsi regs.rdx regs.rcx regs.r8 regs.r9 s
      ({ regs with rax := ret.1 }, ret.2) := by
  rw [syscallHandler, if_neg (Int.not_le.2 h)]
  unfold Image.callReg
  dsimp only
  rw [callArguments_gpr]
  rfl

theorem syscallHandler_refused (h : (syscallNum : Int) ≤ regs.rax.toInt) (s : σ) :
    syscallHandler t cpu regs s = (regs, s) := if_pos h

theorem slot_eq (sp v : Word64) : sp + 8 * v = Stack.slot sp v.toNat := by
  unfold Stack.slot
  bv_omega

/-- A result in `rax`. -/
theorem Resumed.result {mid : Cpu} (h : Resumed c (regs.restore mid)) (v : Word64) :
    Resumed (c.set .rax v) ({ regs with rax := v }.restore mid) where
  rip := h.rip
  cs := h.cs
  rflags := h.rflags
  sp := h.sp
  ss := h.ss
  ds := h.ds
  gpr r h10 h11 := by
    have hr := h.gpr r h10 h11
    cases r <;> first | rfl | exact hr

/-- The vector of the system calls. -/
abbrev syscallVector : Nat := 0x80

/-- `syscalls_init`. -/
def SyscallsInit (k : Isr σ) (t : Image σ) (cpu : Cpu) : Prop :=
  k.handlers syscallVector = some (syscallHandler t cpu)

theorem isrHandler_syscall (hk : SyscallsInit k t cpu) (hr : regs.intNo = BitVec.ofNat 64 syscallVector) :
    isrHandler k regs s = syscallHandler t cpu regs (k.acknowledge s) := by
  unfold isrHandler
  rw [hr, if_pos (by decide), show (BitVec.ofNat 64 syscallVector).toNat = syscallVector from rfl, hk]

theorem isrHandler_syscall_rsp (hk : SyscallsInit k t cpu) (hr : regs.intNo = BitVec.ofNat 64 syscallVector) :
    (isrHandler k regs s).1.rsp = regs.rsp := by
  rw [isrHandler_syscall hk hr, syscallHandler]
  split <;> rfl

theorem syscall_fits : syscallVector ∈ isrErrCode ↔ (none : Option Word64).isSome := by
  decide

/-- **A system call with a number that passes the comparison**: the code that the word of the table points
to runs, and the program goes on with its result. -/
theorem syscall_calls (hcall : Calls (isrHandler k) call) (hk : SyscallsInit k t cpu)
    (hnum : (c.gpr .rax).toInt < (syscallNum : Int)) :
    let ret := t.callReg (t.mem (Stack.slot t.table (c.gpr .rax).toNat)) c (k.acknowledge s)
    Resumed (c.set .rax ret.1) (interrupt g syscallVector none call c s).1 ∧
      (interrupt g syscallVector none call c s).2 = ret.2 := by
  obtain ⟨rsp, mid, heq, hsaved⟩ := interrupt_returns (g := g) (c := c) hcall
    (fun _ hr => isrHandler_syscall_rsp hk hr) syscall_fits
  rw [isrHandler_syscall hk rfl, syscallHandler_eq hnum] at heq
  rw [heq, ← slot_eq]
  exact ⟨(Registers.ofInterrupt_restore hsaved).result _, rfl⟩

/-- **Any other number** changes nothing. -/
theorem syscall_refused (hcall : Calls (isrHandler k) call) (hk : SyscallsInit k t cpu)
    (hnum : (syscallNum : Int) ≤ (c.gpr .rax).toInt) :
    Resumed c (interrupt g syscallVector none call c s).1 ∧
      (interrupt g syscallVector none call c s).2 = k.acknowledge s := by
  obtain ⟨rsp, mid, heq, hsaved⟩ := interrupt_returns (g := g) (c := c) hcall
    (fun _ hr => isrHandler_syscall_rsp hk hr) syscall_fits
  rw [isrHandler_syscall hk rfl, syscallHandler_refused hnum] at heq
  rw [heq]
  exact ⟨Registers.ofInterrupt_restore hsaved, rfl⟩

theorem prepare_rax (f : Syscall) (p1 : Word64) (c : Cpu) :
    (f.prepare p1 c).gpr .rax = BitVec.ofNat 64 f.number := by
  unfold Syscall.prepare
  dsimp only
  split <;> rfl

/-- The two tables have the functions in one order. -/
theorem syscalls_number (f : Syscall) : syscalls[f.number]? = some f := by
  cases f <;> rfl

theorem number_lt (f : Syscall) : f.number < syscallNum := by
  cases f <;> decide

/-- **A wrapper gets what its function returns**, and the rest of the program's registers but `r10` and
`r11` is as it was. -/
theorem syscall_returns (hcall : Calls (isrHandler k) call) (hk : SyscallsInit k t cpu)
    (ht : t.Installed impl) (f : Syscall) (p1 : Word64) :
    let c' := f.prepare p1 c
    let ret := impl f (c'.gpr .rdi) (c'.gpr .rsi) (c'.gpr .rdx) (c'.gpr .rcx) (c'.gpr .r8) (c'.gpr .r9)
      (k.acknowledge s)
    Resumed (c'.set .rax ret.1) (interrupt g syscallVector none call c' s).1 ∧
      (interrupt g syscallVector none call c' s).2 = ret.2 := by
  have hlt := number_lt f
  unfold syscallNum at hlt
  have hnat : ((f.prepare p1 c).gpr .rax).toNat = f.number := by
    rw [prepare_rax, BitVec.toNat_ofNat, Nat.mod_eq_of_lt (by omega)]
  have hnum : ((f.prepare p1 c).gpr .rax).toInt < (syscallNum : Int) := by
    show _ < (10 : Int)
    rw [BitVec.toInt_eq_toNat_cond, hnat]
    split <;> omega
  have hcode := ht f.number f (syscalls_number f)
  have h := syscall_calls (g := g) (s := s) hcall hk hnum
  unfold Image.callReg at h
  rw [hnat, hcode] at h
  exact h

/-- **A negative number**: for every word of memory in line with the table there is a number with which a
program has the kernel call what the word points to. -/
theorem syscall_any_word (hcall : Calls (isrHandler k) call) (hk : SyscallsInit k t cpu) {a : Word64}
    (ha : (a - t.table).toNat % 8 = 0) :
    ∃ n : Word64, ∀ c : Cpu, c.gpr .rax = n →
      let ret := t.callReg (t.mem a) c (k.acknowledge s)
      Resumed (c.set .rax ret.1) (interrupt g syscallVector none call c s).1 ∧
        (interrupt g syscallVector none call c s).2 = ret.2 := by
  have hlt := (a - t.table).isLt
  let n := BitVec.ofNat 64 (2 ^ 63 + (a - t.table).toNat / 8)
  have hnat : n.toNat = 2 ^ 63 + (a - t.table).toNat / 8 := by
    rw [BitVec.toNat_ofNat, Nat.mod_eq_of_lt (by omega)]
  refine ⟨n, fun c hc => ?_⟩
  have hslot : Stack.slot t.table n.toNat = a := by
    have hmul : 8 * n.toNat = 2 ^ 64 * 4 + (a - t.table).toNat := by omega
    have hof : BitVec.ofNat 64 (8 * n.toNat) = a - t.table := by
      apply BitVec.eq_of_toNat_eq
      rw [BitVec.toNat_ofNat, hmul, Nat.mul_add_mod, Nat.mod_eq_of_lt hlt]
    rw [Stack.slot, hof, BitVec.add_comm, BitVec.sub_add_cancel]
  have hneg : n.toInt < (syscallNum : Int) := by
    show _ < (10 : Int)
    rw [BitVec.toInt_eq_toNat_cond, if_neg (by omega)]
    have := n.isLt
    omega
  have h := syscall_calls (g := g) (s := s) hcall hk (hc ▸ hneg)
  rw [hc, hslot] at h
  exact h

end

end Interrupts
