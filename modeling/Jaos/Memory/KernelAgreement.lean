import Jaos.Memory.Proof.SpacesRun

/-!
# All address spaces agree on the kernel

`clone_pml4t` links the table for the gigabyte of the kernel into the new space, so kernel pages
mapped later are seen in all of them. What can separate the spaces is a table that nobody cleared:
`create_page_for_current` links a frame as `mem_alloc_block` hands it out, and if old entries of it
lead to the tables themselves, an `alloc_page` for a user address writes into them
(`spaces_disagree`). Beside that, an address that does not fit 40 bits makes `clone_pml4t` link another
frame and `clean_user_space` free another one. In every run in which the frames that become tables hold
no entries, the old entries have no reserved bits and frames stay below 1 TB, the spaces agree
(`spaces_agree`).
-/

namespace Paging

open Lib Memman Kheap

/-- An address of the kernel's gigabyte. -/
def KernelAddr (a : Nat) : Prop := 0xC0000000 ≤ a ∧ a < 2 ^ 32

/-- `alloc_page` maps pages below the kernel. -/
def Op.BelowKernel : Op → Prop
  | .allocPage virtual size => virtual + pageCount size * 0x1000 ≤ 0xC0000000
  | _ => True

instance (op : Op) : Decidable op.BelowKernel := by
  unfold Op.BelowKernel
  split <;> infer_instance

/-- A step with user pages below the kernel. -/
def UserStep (s : Sys) (op : Op) (s' : Sys) : Prop := Step s op s' ∧ op.BelowKernel

/-- One in which `clean_user_space` frees pages below 1 TB only. -/
def LowStep (s : Sys) (op : Op) (s' : Sys) : Prop := UserStep s op s' ∧ op.Low s

/-- **The spaces agree** on the kernel's addresses, and the processor walks their tables as the model
does. -/
structure SpacesAgree (s : Sys) : Prop where
  agree : ∀ r ∈ s.spaces, ∀ r' ∈ s.spaces, ∀ a, KernelAddr a →
    translate s.kernel.machine.phys r a = translate s.kernel.machine.phys r' a
  walk : ∀ r ∈ s.spaces, ∀ a, hardware s.kernel.machine.phys r (Addr.indices a) =
    translate s.kernel.machine.phys r a

/-- What is taken for granted of frames and blocks: a frame is found for a table, the kernel's pages
end below the window, and `kmalloc_a` returns page-aligned blocks in them. -/
def Event.Served : Event → Prop
  | .table _ frame _ => frame ≠ 0
  | e => e.Ok

instance : (e : Event) → Decidable e.Served
  | .table _ frame _ => inferInstanceAs (Decidable (frame ≠ 0))
  | .pages first size => inferInstanceAs (Decidable (Event.pages first size).Ok)
  | .block addr limit frame => inferInstanceAs (Decidable (Event.block addr limit frame).Ok)
  | .freed addr => inferInstanceAs (Decidable (Event.freed addr).Ok)

section
variable {b : Prop} {kpd r r' a : Nat} {sh : Shape} {m : Machine} {s : Sys} {op : Op}

theorem Op.BelowKernel.outside (h : op.BelowKernel) : op.Outside := by
  cases op with
  | allocPage virtual size => exact userRange_below h
  | _ => trivial

theorem KernelAddr.indices (h : KernelAddr a) :
    Addr.indices a = [0, 3, Addr.pd a, Addr.pt a] := by
  obtain ⟨h1, h2⟩ := h
  have h4 : Addr.pml4 a = 0 := by
    unfold Addr.pml4
    omega
  have h3 : Addr.pdp a = 3 := by
    unfold Addr.pdp
    omega
  rw [Addr.indices, h4, h3]

/-- In every space a kernel address is looked up in the shared table. -/
theorem IsSpace.translate (h : IsSpace kpd sh m r) (ha : KernelAddr a) :
    Paging.translate m.phys r a = walk (next m.phys) kpd [Addr.pd a, Addr.pt a] := by
  obtain ⟨d, hd, h3⟩ := h.low
  rw [Paging.translate, ha.indices, walk_cons hd, walk_cons h3]

/-- The invariant of the run. -/
theorem SpacesOk.reach (h : Reach Init LowStep s) : Fine s.kernel.machine.log → SpacesOk False s := by
  refine h.invariant (fun s hs => SpacesOk.init hs) fun s op s' ih hs fine => ?_
  exact (ih (fine.before hs.1.1.log)).step hs.1.1 hs.1.2.outside hs.2 (fun hb => hb.elim) fine

/-- **All spaces agree on the kernel** in a run below 1 TB whose tables are made of frames without
entries. -/
theorem spaces_agree (h : Reach Init LowStep s) (fine : Fine s.kernel.machine.log)
    (plain : ∀ e ∈ s.kernel.machine.log, e.Plain) : SpacesAgree s := by
  obtain ⟨kpd, sh, R, -, hall⟩ := SpacesOk.reach h fine
  refine ⟨fun r hr r' hr' a ha => ?_, fun r hr a => R.hardware (hall r hr) plain a⟩
  rw [(hall r hr).translate ha, (hall r' hr').translate ha]

end

/-- One step of `exec` with user pages below the kernel. -/
def userExec (s : Sys) (op : Op) : Option Sys := if op.BelowKernel then exec s op else none

theorem userExec_step {s s' : Sys} {op : Op} (h : userExec s op = some s') : LowStep s op s' := by
  obtain ⟨hb, h⟩ := Option.ite_none_right_eq_some.1 h
  refine ⟨⟨exec_step h, hb⟩, ?_⟩
  rintro rfl
  cases h

/-- A clone in cleared memory. -/
theorem spaces_agree_clone : ∃ s, Reach Init LowStep s ∧ s.spaces = [271, 256] ∧ SpacesAgree s := by
  have hrun : ((boot? fun _ _ => .zero).bind fun s0 =>
      (runList userExec [.kheapInit, .clonePml4t] s0).map fun s =>
        (s.spaces, decide (Fine s.kernel.machine.log),
          decide (∀ e ∈ s.kernel.machine.log, e.Plain))) = some ([271, 256], true, true) := by
    decide +kernel
  obtain ⟨s0, h0, hrun⟩ := Option.bind_eq_some_iff.1 hrun
  obtain ⟨s, hs, h⟩ := Option.map_eq_some_iff.1 hrun
  simp only [Prod.mk.injEq, decide_eq_true_eq] at h
  have hreach : Reach Init LowStep s := .of_list (fun _ _ _ => userExec_step) (.start (init_boot h0)) hs
  exact ⟨s, hreach, h.1, spaces_agree hreach h.2.1 h.2.2⟩

/-- Two frames with an old entry each. -/
def staleFrames : Phys := fun f i =>
  if f = 294 ∧ i = 0 then ⟨true, true, true, 257, 0⟩
  else if f = 293 ∧ i = 0 then ⟨true, true, true, 293, 0⟩
  else .zero

/-- **A stale table.** After a clone `alloc_page` links frame 294 for the address 0x40003000. Its old
entry leads to the level-3 table of the space, and the page becomes entry 3 of that, the table of the
kernel's gigabyte. -/
theorem spaces_disagree :
    ∃ s, Reach Init UserStep s ∧ (∀ e ∈ s.kernel.machine.log, e.Served) ∧
      (blocks s.kernel.machine.log).Nodup ∧ 256 ∈ s.spaces ∧ 271 ∈ s.spaces ∧
      KernelAddr 0xC0000000 ∧ translate s.kernel.machine.phys 256 0xC0000000 = some 293 ∧
      translate s.kernel.machine.phys 271 0xC0000000 = some 512 := by
  have hrun : ((boot? staleFrames).bind fun s0 =>
      (runList userExec [.kheapInit, .clonePml4t, .allocPage 0x40003000 1] s0).map fun s =>
        (decide (∀ e ∈ s.kernel.machine.log, e.Served), decide (blocks s.kernel.machine.log).Nodup,
          s.spaces, translate s.kernel.machine.phys 256 0xC0000000,
          translate s.kernel.machine.phys 271 0xC0000000)) =
      some (true, true, [271, 256], some 293, some 512) := by
    decide +kernel
  obtain ⟨s0, h0, hrun⟩ := Option.bind_eq_some_iff.1 hrun
  obtain ⟨s, hs, h⟩ := Option.map_eq_some_iff.1 hrun
  simp only [Prod.mk.injEq, decide_eq_true_eq] at h
  obtain ⟨hserved, honce, hspaces, hr, hr'⟩ := h
  refine ⟨s, .of_list (fun _ _ _ h => (userExec_step h).1) (.start (init_boot h0)) hs, hserved, honce,
    ?_, ?_, ⟨by decide, by decide⟩, hr, hr'⟩ <;> rw [hspaces] <;> decide

end Paging
