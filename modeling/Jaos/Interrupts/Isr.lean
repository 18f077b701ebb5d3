import Jaos.Lib.Stack

/-!
# Interrupts (`kernel/interrupt.asm`, `kernel/isr.c`)

The stub of a vector completes what the processor has pushed, `isr_common` saves registers, calls
`isr_handler` and goes back with `iretq`. On the stack that is the `registers_t` of `isr.h`, which the
handler gets, so what a handler writes there is what the interrupted code finds (`isr_returns`).

A stub has to push an error code where the processor pushes none. Five of them get that wrong; the
others bring the interrupted code back to where it was, with all of its registers but `r10` and `r11`
(`interrupt_resumes_iff`).
-/

namespace Interrupts

open Lib

/-! ## The processor -/

/-- The general registers but `rsp`. -/
inductive Reg
  | rax | rbx | rcx | rdx | rsi | rdi | rbp | r8 | r9 | r10 | r11 | r12 | r13 | r14 | r15
deriving DecidableEq

abbrev Selector := BitVec 16

@[ext] structure Cpu where
  gpr : Reg → Word64
  stack : Stack
  rip : Word64
  rflags : Word64
  cs : Selector
  ss : Selector
  ds : Selector
  es : Selector
  fs : Selector
  gs : Selector

namespace Cpu

def push (v : Word64) (c : Cpu) : Cpu := { c with stack := c.stack.push v }

def pushReg (r : Reg) (c : Cpu) : Cpu := c.push (c.gpr r)

def set (r : Reg) (v : Word64) (c : Cpu) : Cpu := { c with gpr := upd c.gpr r v }

def pop (r : Reg) (c : Cpu) : Cpu := { c.set r c.stack.top with stack := c.stack.drop 1 }

/-- `pop rsp`: the word popped is the new stack pointer. -/
def popRsp (c : Cpu) : Cpu := { c with stack := { c.stack with sp := c.stack.top } }

/-- `mov ax, v`: the upper bits of `rax` stay. -/
def setAx (v : Selector) (c : Cpu) : Cpu :=
  c.set .rax ((c.gpr .rax).extractLsb' 16 48 ++ v)

/-- The low 16 bits of `rax`. -/
def ax (c : Cpu) : Selector := (c.gpr .rax).setWidth 16

/-- `mov ds, ax`, and the same for `es`, `fs` and `gs`. -/
def setSegments (c : Cpu) : Cpu := { c with ds := c.ax, es := c.ax, fs := c.ax, gs := c.ax }

/-- `cli` and `sti`: the interrupt flag is bit 9. -/
def setIf (b : Bool) (c : Cpu) : Cpu :=
  { c with rflags := if b then c.rflags ||| 0x200 else c.rflags &&& ~~~0x200 }

/-- The level the code runs on. -/
def cpl (c : Cpu) : BitVec 2 := c.cs.setWidth 2

/-- `iretq`. -/
def iretq (c : Cpu) : Cpu :=
  let word := fun i => c.stack.mem (Stack.slot c.stack.sp i)
  { c with
    rip := word 0, cs := (word 1).setWidth 16, rflags := word 2,
    stack := { c.stack with sp := word 3 }, ss := (word 4).setWidth 16 }

end Cpu

/-- What the processor reads from the gate of the vector, and `rsp0` of the TSS. -/
structure Entry where
  selector : Selector
  offset : Word64
  rsp0 : Word64

/-- The processor's vectors with an error code. -/
def pushesErrorCode : List Nat := [8, 10, 11, 12, 13, 14, 17, 21, 29, 30]

/-- The error code that the processor pushes if it raises the vector `v` itself; `int` pushes none. -/
def raised (v : Nat) (errCode : Word64) : Option Word64 :=
  if v ∈ pushesErrorCode then some errCode else none

/-- **The processor enters** an interrupt gate for level 0: it takes the stack of `rsp0` if the level
changes, aligns it, pushes where it was, and clears the flags IF, TF, NT and RF. -/
def deliver (g : Entry) (err : Option Word64) (c : Cpu) : Cpu :=
  let sp := if c.cpl = 0 then c.stack.sp else g.rsp0
  let inner : Cpu := { c with stack := { c.stack with sp := sp &&& ~~~0xF } }
  let inner := inner.push (c.ss.setWidth 64)
  let inner := inner.push c.stack.sp
  let inner := inner.push c.rflags
  let inner := inner.push (c.cs.setWidth 64)
  let inner := inner.push c.rip
  let inner := err.elim inner inner.push
  { inner with
    rip := g.offset, cs := g.selector, ss := if c.cpl = 0 then c.ss else 0
    rflags := c.rflags &&& ~~~0x14300 }

/-! ## The stubs and `isr_common` -/

/-- The vectors of `ISR_NOERRCODE`. -/
def isrNoErrCode : List Nat :=
  [0, 1, 2, 3, 4, 5, 6, 7, 8, 9, 15, 16, 17, 18, 19, 20, 21, 22, 23, 24, 25, 26, 27, 28, 29, 30, 31, 32, 33,
    128]

/-- The vectors of `ISR_ERRCODE`. -/
def isrErrCode : List Nat := [10, 11, 12, 13, 14]

/-- `isr0`, .., `isr33` and `isr128`. -/
def isr (v : Nat) (c : Cpu) : Cpu :=
  let c := c.setIf false
  let c := if v ∈ isrErrCode then c else c.push 0
  c.push (BitVec.ofNat 64 v)

/-- `isr_common` up to the call. -/
def isrCommonEnter (c : Cpu) : Cpu :=
  let c := c.pushReg .rax
  let c := c.pushReg .rbx
  let c := c.pushReg .rcx
  let c := c.pushReg .rdx
  let c := c.pushReg .rsi
  let c := c.pushReg .rdi
  let c := c.pushReg .rbp
  let c := c.push c.stack.sp
  let c := c.pushReg .r8
  let c := c.pushReg .r9
  let c := c.setAx c.ds
  let c := c.pushReg .rax
  let c := c.setAx 0x10
  c.setSegments

/-- `isr_common` behind the call. -/
def isrCommonLeave (c : Cpu) : Cpu :=
  let c := c.pop .rax
  let c := c.setSegments
  let c := c.pop .r9
  let c := c.pop .r8
  let c := c.popRsp
  let c := c.pop .rbp
  let c := c.pop .rdi
  let c := c.pop .rsi
  let c := c.pop .rdx
  let c := c.pop .rcx
  let c := c.pop .rbx
  let c := c.pop .rax
  let c := { c with stack := c.stack.drop 2 }
  let c := c.setIf true
  c.iretq

/-! ## `isr_handler` -/

/-- `registers_t`. -/
structure Registers where
  ds : Word64
  r9 : Word64
  r8 : Word64
  rsp : Word64
  rbp : Word64
  rdi : Word64
  rsi : Word64
  rdx : Word64
  rcx : Word64
  rbx : Word64
  rax : Word64
  intNo : Word64
  errCode : Word64
  rip : Word64
  cs : Word64
  rflags : Word64
  userrsp : Word64
  ss : Word64

/-- The words of the struct, the first field first. -/
def Registers.words (r : Registers) : List Word64 :=
  [r.ds, r.r9, r.r8, r.rsp, r.rbp, r.rdi, r.rsi, r.rdx, r.rcx, r.rbx, r.rax, r.intNo, r.errCode, r.rip, r.cs,
    r.rflags, r.userrsp, r.ss]

/-- The struct in words of memory. -/
def Registers.ofWords (w : Nat → Word64) : Registers :=
  ⟨w 0, w 1, w 2, w 3, w 4, w 5, w 6, w 7, w 8, w 9, w 10, w 11, w 12, w 13, w 14, w 15, w 16, w 17⟩

/-- A handler: what it makes of the registers, and of the rest of the kernel. -/
abbrev Handler (σ : Type) := Registers → σ → Registers × σ

/-- The registers a call of C code keeps, besides `rsp`. -/
def calleeSaved : List Reg := [.rbx, .rbp, .r12, .r13, .r14, .r15]

section
variable {σ : Type}

/-- **`call` is a call of the C function `h`**, which gets the `registers_t` on the stack: it keeps what the
calling convention asks for. -/
structure Calls (h : Handler σ) (call : Cpu → σ → Cpu × σ) : Prop where
  sp : ∀ c s, (call c s).1.stack.sp = c.stack.sp
  saved : ∀ c s, ∀ r ∈ calleeSaved, (call c s).1.gpr r = c.gpr r
  frame : ∀ c s r, c.stack.Holds r.words → (call c s).1.stack.Holds (h r s).1.words ∧
    (call c s).2 = (h r s).2

/-- From the interrupt to the `iretq`. -/
def interrupt (g : Entry) (v : Nat) (err : Option Word64) (call : Cpu → σ → Cpu × σ) (c : Cpu) (s : σ) :
    Cpu × σ :=
  let r := call (isrCommonEnter (isr v (deliver g err c))) s
  (isrCommonLeave r.1, r.2)

/-- `handlers`, and what `isr_handler` does besides calling one: `write_apicr(0xb0, 0)`, and the line that
it prints. -/
structure Isr (σ : Type) where
  handlers : Nat → Option (Handler σ)
  acknowledge : σ → σ
  report : (intNo errCode : Word64) → σ → σ

/-- `isr_handler`. -/
def isrHandler (k : Isr σ) : Handler σ := fun regs s =>
  let s := if 0x20 ≤ regs.intNo.toInt then k.acknowledge s else s
  match k.handlers regs.intNo.toNat with
  | some handler => handler regs s
  | none => (regs, k.report regs.intNo regs.errCode s)

end

/-! ## The way back -/

/-- The state in which the registers are those of the struct, and all else is as in `c`. -/
def Registers.restore (r : Registers) (c : Cpu) : Cpu where
  gpr
    | .rax => r.rax
    | .rbx => r.rbx
    | .rcx => r.rcx
    | .rdx => r.rdx
    | .rsi => r.rsi
    | .rdi => r.rdi
    | .rbp => r.rbp
    | .r8 => r.r8
    | .r9 => r.r9
    | other => c.gpr other
  stack := ⟨r.userrsp, c.stack.mem⟩
  rip := r.rip
  rflags := r.rflags
  cs := r.cs.setWidth 16
  ss := r.ss.setWidth 16
  ds := r.ds.setWidth 16
  es := r.ds.setWidth 16
  fs := r.ds.setWidth 16
  gs := r.ds.setWidth 16

/-- The struct of the registers in `c` and of what the stub has completed. -/
def Registers.of (c : Cpu) (rsp intNo errCode rip cs rflags userrsp ss : Word64) : Registers where
  ds := (c.gpr .rax).extractLsb' 16 48 ++ c.ds
  r9 := c.gpr .r9
  r8 := c.gpr .r8
  rsp := rsp
  rbp := c.gpr .rbp
  rdi := c.gpr .rdi
  rsi := c.gpr .rsi
  rdx := c.gpr .rdx
  rcx := c.gpr .rcx
  rbx := c.gpr .rbx
  rax := c.gpr .rax
  intNo := intNo
  errCode := errCode
  rip := rip
  cs := cs
  rflags := rflags
  userrsp := userrsp
  ss := ss

section
variable {σ : Type} {h : Handler σ} {call : Cpu → σ → Cpu × σ} {s : σ} {k : Isr σ} {c : Cpu} {r : Registers}
  {g : Entry} {v : Nat} {err : Option Word64} {e rsp intNo errCode rip cs rflags userrsp ss : Word64}

/-- **`isr_common` puts the struct on the stack**, on top of what the stub has completed. -/
theorem enter_holds (h : c.stack.Holds [intNo, errCode, rip, cs, rflags, userrsp, ss]) :
    (isrCommonEnter c).stack.Holds (Registers.of c (Stack.slot (isrCommonEnter c).stack.sp 4) intNo errCode
      rip cs rflags userrsp ss).words := by
  let first := [c.gpr .rax, c.gpr .rbx, c.gpr .rcx, c.gpr .rdx, c.gpr .rsi, c.gpr .rdi, c.gpr .rbp]
  let s := c.stack.pushAll first
  have hstack : (isrCommonEnter c).stack =
      s.pushAll [s.sp, c.gpr .r8, c.gpr .r9, (c.gpr .rax).extractLsb' 16 48 ++ c.ds] := rfl
  have hsp : Stack.slot (isrCommonEnter c).stack.sp 4 = s.sp := by
    rw [hstack]
    exact Stack.pushAll_sp [_, _, _, _] s
  rw [hsp, hstack]
  have h1 : s.Holds (first.reverse ++ [intNo, errCode, rip, cs, rflags, userrsp, ss]) :=
    h.pushAll _ (Nat.lt_of_sub_eq_succ rfl)
  exact h1.pushAll [s.sp, c.gpr .r8, c.gpr .r9, (c.gpr .rax).extractLsb' 16 48 ++ c.ds]
    (Nat.lt_of_sub_eq_succ rfl)

/-- A run of pops. -/
def Cpu.popAll (rs : List Reg) (c : Cpu) : Cpu := rs.foldl (fun c r => c.pop r) c

/-- The registers after it. -/
def setAll (rs : List Reg) (vs : List Word64) (gpr : Reg → Word64) : Reg → Word64 :=
  (rs.zip vs).foldl (fun gpr x => upd gpr x.1 x.2) gpr

theorem popAll_eq {rs : List Reg} {vs ws : List Word64} (h : c.stack.Holds (vs ++ ws))
    (hlen : rs.length = vs.length) :
    c.popAll rs = { c with gpr := setAll rs vs c.gpr, stack := c.stack.drop rs.length } := by
  induction rs generalizing c vs with
  | nil =>
    obtain rfl := List.length_eq_zero_iff.1 hlen.symm
    rw [List.length_nil, Stack.drop_zero]
    rfl
  | cons r rs ih =>
    cases vs with
    | nil => cases hlen
    | cons v vs =>
      have hpop : c.pop r = { c.set r v with stack := c.stack.drop 1 } := by
        rw [Cpu.pop, h.top]
      have hrun := @ih (c.pop r) vs h.pop (Nat.succ.inj hlen)
      rw [Cpu.popAll, List.foldl_cons]
      refine hrun.trans ?_
      rw [hpop, List.length_cons, Nat.add_comm, ← Stack.drop_drop]
      rfl

/-- **`isr_common` goes back with the struct**, if the `rsp` in it is where its field ends. -/
theorem leave_eq (h : c.stack.Holds r.words) (hrsp : r.rsp = Stack.slot c.stack.sp 4) :
    isrCommonLeave c = r.restore c := by
  let c1 : Cpu := { c.set .rax r.ds with stack := c.stack.drop 1 }
  have h1 : c.pop .rax = c1 := by rw [Cpu.pop, h.top]
  let c2 := c1.setSegments
  have h2 : c2.stack.Holds ([r.r9, r.r8] ++ _) := h.pop
  let c3 : Cpu := { c2 with gpr := setAll [.r9, .r8] [r.r9, r.r8] c2.gpr, stack := c2.stack.drop 2 }
  have h3 : c2.popAll [.r9, .r8] = c3 := popAll_eq h2 rfl
  have h4 := h2.drop (n := 2) rfl
  let c4 : Cpu := { c3 with stack := c3.stack.drop 1 }
  have h5 : c3.popRsp = c4 := by
    have htop : c3.stack.top = (c3.stack.drop 1).sp := by
      show c3.stack.top = Stack.slot (Stack.slot (Stack.slot c.stack.sp 1) 2) 1
      rw [Stack.slot_slot, Stack.slot_slot, ← hrsp]
      exact h4.top
    rw [Cpu.popRsp, htop]
    rfl
  have h6 : c4.stack.Holds ([r.rbp, r.rdi, r.rsi, r.rdx, r.rcx, r.rbx, r.rax] ++ _) := h4.pop
  let rs : List Reg := [.rbp, .rdi, .rsi, .rdx, .rcx, .rbx, .rax]
  let c5 : Cpu := { c4 with
    gpr := setAll rs [r.rbp, r.rdi, r.rsi, r.rdx, r.rcx, r.rbx, r.rax] c4.gpr, stack := c4.stack.drop 7 }
  have h7 : c4.popAll rs = c5 := popAll_eq h6 rfl
  have h8 : (c5.stack.drop 2).Holds [r.rip, r.cs, r.rflags, r.userrsp, r.ss] := by
    rw [← Stack.drop_drop 1 1]
    exact (h6.drop (n := 7) rfl).pop.pop
  have hrun : isrCommonLeave c =
      (({ (((c.pop .rax).setSegments.popAll [.r9, .r8]).popRsp.popAll rs) with
        stack := (((c.pop .rax).setSegments.popAll [.r9, .r8]).popRsp.popAll rs).stack.drop 2 } : Cpu).setIf
          true).iretq := rfl
  rw [hrun, h1, h3, h5, h7]
  apply Cpu.ext
  · funext reg
    cases reg <;> rfl
  · exact congrArg (Stack.mk · c.stack.mem) (h8 3 r.userrsp rfl)
  · exact h8 0 r.rip rfl
  · exact h8 2 r.rflags rfl
  · exact congrArg (BitVec.setWidth 16) (h8 1 r.cs rfl)
  · exact congrArg (BitVec.setWidth 16) (h8 4 r.ss rfl)
  all_goals rfl

/-- **What a handler writes to the struct is what the code finds**: behind the `iretq` the registers are
those of the struct, `r12` to `r15` are what they were, and `r10` and `r11` what the C code left. -/
theorem isr_returns (hcall : Calls h call)
    (hstack : c.stack.Holds [intNo, errCode, rip, cs, rflags, userrsp, ss])
    (hrsp : ∀ r, r.intNo = intNo → (h r s).1.rsp = r.rsp) :
    ∃ rsp mid, let x := h (.of c rsp intNo errCode rip cs rflags userrsp ss) s
      isrCommonLeave (call (isrCommonEnter c) s).1 = x.1.restore mid ∧
        (call (isrCommonEnter c) s).2 = x.2 ∧ ∀ reg ∈ calleeSaved, mid.gpr reg = c.gpr reg := by
  have henter := enter_holds hstack
  obtain ⟨hframe, hstate⟩ := hcall.frame _ s _ henter
  refine ⟨_, (call (isrCommonEnter c) s).1, leave_eq hframe ?_, hstate, fun reg hreg => ?_⟩
  · rw [hrsp _ rfl, hcall.sp]
    rfl
  · rw [hcall.saved _ _ _ hreg]
    fin_cases hreg <;> rfl

/-- A call that does nothing but that: it reads the struct and writes the new one. -/
def callHandler (h : Handler σ) (c : Cpu) (s : σ) : Cpu × σ :=
  let x := h (.ofWords fun i => c.stack.mem (Stack.slot c.stack.sp i)) s
  ({ c with stack := c.stack.write x.1.words }, x.2)

/-- Every handler can be called. -/
theorem calls_callHandler (h : Handler σ) : Calls h (callHandler h) := by
  refine ⟨fun _ _ => rfl, fun _ _ _ _ => rfl, fun c s r hr => ?_⟩
  have hread : Registers.ofWords (fun i => c.stack.mem (Stack.slot c.stack.sp i)) = r := by
    unfold Registers.ofWords
    dsimp only
    rw [hr 0 r.ds rfl, hr 1 r.r9 rfl, hr 2 r.r8 rfl, hr 3 r.rsp rfl, hr 4 r.rbp rfl, hr 5 r.rdi rfl,
      hr 6 r.rsi rfl, hr 7 r.rdx rfl, hr 8 r.rcx rfl, hr 9 r.rbx rfl, hr 10 r.rax rfl, hr 11 r.intNo rfl,
      hr 12 r.errCode rfl, hr 13 r.rip rfl, hr 14 r.cs rfl, hr 15 r.rflags rfl, hr 16 r.userrsp rfl,
      hr 17 r.ss rfl]
  unfold callHandler
  rw [hread]
  exact ⟨Stack.holds_write _ (Nat.lt_of_sub_eq_succ rfl) _, rfl⟩

/-! ## The interrupted code -/

/-- The words that the processor and the stub leave for `isr_common`. -/
def completed (v : Nat) (err : Option Word64) (c : Cpu) : List Word64 :=
  (BitVec.ofNat 64 v :: if v ∈ isrErrCode then [] else [0]) ++
    (err.toList ++
      [c.rip, c.cs.setWidth 64, c.rflags, c.stack.sp, c.ss.setWidth 64])

theorem isr_holds (g : Entry) (v : Nat) (err : Option Word64) (c : Cpu) :
    (isr v (deliver g err c)).stack.Holds (completed v err c) := by
  let sp := if c.cpl = 0 then c.stack.sp else g.rsp0
  let base : Stack := ⟨sp &&& ~~~0xF, c.stack.mem⟩
  let ws := [c.ss.setWidth 64, c.stack.sp, c.rflags, c.cs.setWidth 64, c.rip] ++
    (err.toList ++ ((if v ∈ isrErrCode then [] else [0]) ++ [BitVec.ofNat 64 v]))
  have hstack : (isr v (deliver g err c)).stack = base.pushAll ws ∧
      completed v err c = ws.reverse ++ [] ∧ ws.length ≤ 8 := by
    cases err <;> by_cases hs : v ∈ isrErrCode <;>
      simp only [ws, isr, deliver, completed, hs, if_true, if_false] <;>
      exact ⟨rfl, rfl, by simp⟩
  rw [hstack.1, hstack.2.1]
  exact (Stack.Holds.nil base).pushAll _ (by rw [List.length_nil]; omega)

theorem isr_keeps (g : Entry) (v : Nat) (err : Option Word64) (c : Cpu) :
    (isr v (deliver g err c)).gpr = c.gpr ∧ (isr v (deliver g err c)).ds = c.ds := by
  unfold isr deliver
  cases err <;> constructor <;> dsimp only [Cpu.push, Cpu.setIf] <;> split <;> rfl

/-- The struct of an interrupt whose stub fits. -/
def Registers.ofInterrupt (c : Cpu) (v : Nat) (errCode rsp : Word64) : Registers :=
  .of c rsp (BitVec.ofNat 64 v) errCode c.rip (c.cs.setWidth 64) c.rflags c.stack.sp (c.ss.setWidth 64)

/-- **An interrupt whose stub fits**, from the interrupted code and back. -/
theorem interrupt_returns (hcall : Calls h call)
    (hrsp : ∀ r, r.intNo = BitVec.ofNat 64 v → (h r s).1.rsp = r.rsp)
    (hv : v ∈ isrErrCode ↔ err.isSome) :
    ∃ rsp mid, let x := h (.ofInterrupt c v (err.getD 0) rsp) s
      interrupt g v err call c s = (x.1.restore mid, x.2) ∧
        ∀ reg ∈ calleeSaved, mid.gpr reg = c.gpr reg := by
  have hstack := isr_holds g v err c
  have hwords : completed v err c = [BitVec.ofNat 64 v, err.getD 0, c.rip, c.cs.setWidth 64, c.rflags,
      c.stack.sp, c.ss.setWidth 64] := by
    cases err with
    | none =>
      have hs : v ∉ isrErrCode := fun hs => by simpa using hv.1 hs
      simp [completed, hs]
    | some e =>
      have hs : v ∈ isrErrCode := hv.2 rfl
      simp [completed, hs]
  rw [hwords] at hstack
  obtain ⟨rsp, mid, heq, hstate, hsaved⟩ := isr_returns hcall hstack hrsp
  obtain ⟨hgpr, hds⟩ := isr_keeps g v err c
  refine ⟨rsp, mid, ?_, fun reg hreg => by rw [hsaved reg hreg, hgpr]⟩
  unfold Registers.ofInterrupt interrupt
  dsimp only
  rw [heq, hstate]
  unfold Registers.of
  rw [hgpr, hds]

/-- `c'` goes on where `c` was interrupted. -/
structure Resumed (c c' : Cpu) : Prop where
  rip : c'.rip = c.rip
  cs : c'.cs = c.cs
  rflags : c'.rflags = c.rflags
  sp : c'.stack.sp = c.stack.sp
  ss : c'.ss = c.ss
  ds : c'.ds = c.ds
  gpr : ∀ r, r ≠ .r10 → r ≠ .r11 → c'.gpr r = c.gpr r

/-- The vectors whose stub and processor do not agree on the error code. -/
def mismatched : List Nat := [8, 17, 21, 29, 30]

theorem selector_setWidth (s : Selector) : (s.setWidth 64).setWidth 16 = s := by
  simp

theorem Registers.ofInterrupt_restore {mid : Cpu} {rsp : Word64}
    (hsaved : ∀ reg ∈ calleeSaved, mid.gpr reg = c.gpr reg) :
    Resumed c ((Registers.ofInterrupt c v e rsp).restore mid) where
  rip := rfl
  cs := selector_setWidth _
  rflags := rfl
  sp := rfl
  ss := selector_setWidth _
  ds := by
    show ((c.gpr .rax).extractLsb' 16 48 ++ c.ds).setWidth 16 = c.ds
    exact BitVec.setWidth_append_eq_right
  gpr r h10 h11 := by
    cases r with
    | r10 => exact absurd rfl h10
    | r11 => exact absurd rfl h11
    | r12 | r13 | r14 | r15 => exact hsaved _ (by decide)
    | _ => rfl

/-- **A stub that does not fit**: the code goes on at the error code, on the stack that begins at its
flags. -/
theorem interrupt_misreturns (hcall : Calls h call)
    (hkeep : ∀ r, r.intNo = BitVec.ofNat 64 v → (h r s).1 = r) (hs : v ∉ isrErrCode) :
    (interrupt g v (some e) call c s).1.rip = e ∧
      (interrupt g v (some e) call c s).1.stack.sp = c.rflags := by
  have hstack := isr_holds g v (some e) c
  have hwords : completed v (some e) c =
      [BitVec.ofNat 64 v, 0, e, c.rip, c.cs.setWidth 64, c.rflags, c.stack.sp] ++ [c.ss.setWidth 64] := by
    simp [completed, hs]
  rw [hwords] at hstack
  obtain ⟨rsp, mid, heq, -, -⟩ := isr_returns hcall hstack.left fun r hr => by rw [hkeep r hr]
  rw [interrupt, heq, hkeep _ rfl]
  exact ⟨rfl, rfl⟩

/-- No handler for `v`, or one that leaves the registers alone. -/
def KeepsRegisters (k : Isr σ) (v : Nat) : Prop :=
  ∀ handler, k.handlers v = some handler → ∀ r s, (handler r s).1 = r

theorem isrHandler_keeps (hk : KeepsRegisters k v) (hv : v < 2 ^ 64) (hr : r.intNo = BitVec.ofNat 64 v)
    (s : σ) : (isrHandler k r s).1 = r := by
  have hint : r.intNo.toNat = v := by rw [hr, BitVec.toNat_ofNat, Nat.mod_eq_of_lt hv]
  unfold isrHandler
  rw [hint]
  cases hcase : k.handlers v with
  | none => rfl
  | some handler => exact hk handler hcase r _

end

/-- **Which interrupts come back**, if the processor raises them: all with a stub but five. -/
theorem interrupt_resumes_iff {v : Nat} (hv : v ∈ isrNoErrCode ++ isrErrCode) :
    (∀ (σ : Type) (k : Isr σ) g e call c s, Calls (isrHandler k) call → KeepsRegisters k v →
      Resumed c (interrupt g v (raised v e) call c s).1) ↔ v ∉ mismatched := by
  have hlt : v < 2 ^ 64 := by
    refine Nat.lt_of_le_of_lt (m := 128) ?_ (by decide)
    fin_cases hv <;> decide
  have hfit : (v ∈ isrErrCode ↔ v ∈ pushesErrorCode) ↔ v ∉ mismatched := by
    fin_cases hv <;> decide
  rw [← hfit]
  constructor
  · intro h
    by_contra hno
    have hs : v ∉ isrErrCode := fun hs => hno ⟨fun _ => by fin_cases hs <;> decide, fun _ => hs⟩
    have hp : v ∈ pushesErrorCode := by
      by_contra hp
      exact hno ⟨fun h => absurd h hs, fun h => absurd h hp⟩
    -- no handler, and an error code that is not the address of the code
    let k : Isr Unit := ⟨fun _ => none, id, fun _ _ s => s⟩
    let c : Cpu := ⟨fun _ => 0, ⟨0, fun _ => 0⟩, 0, 0, 0, 0, 0, 0, 0, 0⟩
    have hcall : Calls (isrHandler k) fun c s => (c, s) :=
      ⟨fun _ _ => rfl, fun _ _ _ _ => rfl, fun _ _ _ h => ⟨h, rfl⟩⟩
    have hrip := (h Unit k ⟨0, 0, 0⟩ 1 _ c () hcall fun _ hk => by cases hk).rip
    rw [raised, if_pos hp, (interrupt_misreturns hcall (fun _ _ => rfl) hs).1] at hrip
    exact absurd hrip (by decide)
  · intro hfit σ k g e call c s hcall hk
    have hkeep := fun r hr => isrHandler_keeps (r := r) hk hlt hr s
    have hsome : v ∈ isrErrCode ↔ (raised v e).isSome := by
      rw [hfit, raised]
      split <;> simpa
    obtain ⟨rsp, mid, heq, hsaved⟩ := interrupt_returns (g := g) (c := c) hcall
      (fun r hr => by rw [hkeep r hr]) hsome
    rw [heq]
    dsimp only
    rw [hkeep _ rfl]
    exact Registers.ofInterrupt_restore hsaved

/-- The page fault comes back, the double fault and the alignment check do not. -/
theorem interrupt_resumes_faults :
    (∀ (σ : Type) (k : Isr σ) g e call c s, Calls (isrHandler k) call → KeepsRegisters k 14 →
      Resumed c (interrupt g 14 (raised 14 e) call c s).1) ∧
    ∀ v ∈ [8, 17], ¬ ∀ (σ : Type) (k : Isr σ) g e call c s, Calls (isrHandler k) call →
      KeepsRegisters k v → Resumed c (interrupt g v (raised v e) call c s).1 := by
  refine ⟨(interrupt_resumes_iff (by decide)).2 (by decide), fun v hv h => ?_⟩
  fin_cases hv <;> exact absurd ((interrupt_resumes_iff (by decide)).1 h) (by decide)

end Interrupts
