import Jaos.Elf.Exec
import Jaos.Heap.Proof.Run

/-!
# The kernel's own `kmalloc` in `exec` (`kernel/kheap.c`)

`exec` leaves open what `kmalloc` answers (`Allocator`). In the kernel that is `kmalloc` of `kheap.c` on the
heap that a call finds. `HeapCalls` are these heaps in their order, with the blocks in use: states of a run
of the heap, with calls that meet the conditions under which it stays in order. `HeapCalls.allocator`
answers as this `kmalloc` does and maps the pages that `alloc_kernel_page` maps for it
(`HeapCalls.kmalloc_eq`). What an `Allocator` promises holds of it: a block that it returns is none of
those in use, as `alloc` cuts it from a hole, and the kernel's pages lie above those of the program.
-/

namespace Kheap

open Lib

section
variable {σ : Type} {pg : KernelPages σ} {fuel size pageAlign p b : Nat} {h h' : Heap} {s s' : σ}

/-- The answer of `alloc` does not depend on the pages, as long as there are some. -/
theorem alloc_answer (ha : alloc pg fuel size pageAlign h s = some (p, h', s')) :
    ∃ b', alloc bumpPages fuel size pageAlign h b = some (p, h', b') := by
  induction fuel generalizing h s b with
  | zero => cases ha
  | succ fuel ih =>
    unfold alloc at ha ⊢
    dsimp only at ha ⊢
    rcases hf : findSmallestHole (add64 (add64 size sizeofHeader) sizeofFooter) pageAlign h with _ | i
    · rw [hf] at ha
      obtain ⟨r, hr, ha⟩ := Option.bind_eq_some_iff.1 ha
      obtain ⟨q, -, rfl⟩ := Option.map_eq_some_iff.1 hr
      exact ih ha
    · rw [hf] at ha
      cases ha
      exact ⟨b, rfl⟩

end

end Kheap

namespace Exec

open Lib Paging Program Kheap

/-- `kmalloc` keeps the program's pages: what it maps are pages of the kernel. -/
theorem kernel_kmalloc_keeps {fuel size p : Nat} {h : Heap} {m : Machine} {k' : Paging.Kernel}
    (hrun : Paging.kmalloc fuel size ⟨m, some h⟩ = some (p, k')) (hnb : 0xC0000 ≤ m.nextBlock)
    (hlog : ∀ e ∈ k'.machine.log, e.Ok) : Keeps m k'.machine := by
  intro hm
  unfold Paging.kmalloc kmallocInt at hrun
  by_cases h0 : size = 0
  · rw [if_pos h0] at hrun
    cases hrun
    exact ⟨hm, fun _ _ => ⟨rfl, rfl⟩⟩
  · rw [if_neg h0] at hrun
    obtain ⟨⟨q, h', m'⟩, ha, he⟩ := Option.map_eq_some_iff.1 hrun
    cases he
    -- every call of `alloc_kernel_page` does
    have key := alloc_pages (P := fun t => (∀ e ∈ t.log, e.Ok) →
        (∃ s, UserSpace s t) ∧ 0xC0000 ≤ t.nextBlock ∧ SameUser m t) (fun n t r hr ih hok => ?_) ha
      fun _ => ⟨hm, hnb, fun _ _ => ⟨rfl, rfl⟩⟩
    · obtain ⟨hs, -, hsame⟩ := key hlog
      exact ⟨hs, hsame⟩
    · obtain ⟨⟨s, U⟩, hnb', hsame⟩ := ih fun e he => hok e ((allocKernelPage_log hr).subset he)
      obtain ⟨hs, hnb'', hsame'⟩ := U.allocKernelPage hr hok hnb'
      exact ⟨hs, hnb'', fun v hv =>
        ⟨(hsame' v hv).1.trans (hsame v hv).1, (hsame' v hv).2.trans (hsame v hv).2⟩⟩

/-- The states of the heap that the calls of `kmalloc` find, and what they ask for; `fuel` is that of
`alloc`. -/
structure HeapCalls where
  fuel : Nat
  size : (call : Nat) → Nat
  state : (call : Nat) → Kheap.Sys Nat
  inv : ∀ call, Kheap.Inv (state call)
  ok : ∀ call, StepOk bumpPages (state call) (.alloc (size call) 0)

namespace HeapCalls

variable (c : HeapCalls)

/-- The blocks in use. -/
def live (call : Nat) : List Nat := (c.state call).live.map (·.p)

/-- The answer to a call, null where the call is another one than that of the run. -/
def answer (call size : Nat) (live : List Nat) : Nat :=
  if size = c.size call ∧ live = c.live call ∧ size ≠ 0 then
    ((alloc bumpPages c.fuel size 0 (c.state call).heap (c.state call).pages).map (·.1)).getD 0
  else 0

/-- The machine after a call that maps the kernel's pages with tables in order. -/
def pages (call : Nat) (m : Machine) : Machine :=
  match Paging.kmalloc c.fuel (c.size call) ⟨m, some (c.state call).heap⟩ with
  | some r => if 0xC0000 ≤ m.nextBlock ∧ ∀ e ∈ r.2.machine.log, e.Ok then r.2.machine else m
  | none => m

/-- A block that is returned is none of those in use. -/
theorem answer_fresh {call size : Nat} {live : List Nat} (h : c.answer call size live ≠ 0) :
    c.answer call size live ∉ live := by
  unfold answer at h ⊢
  by_cases hcall : size = c.size call ∧ live = c.live call ∧ size ≠ 0
  · rw [if_pos hcall] at h ⊢
    obtain ⟨rfl, rfl, -⟩ := hcall
    cases ha : alloc bumpPages c.fuel (c.size call) 0 (c.state call).heap (c.state call).pages with
    | none =>
      rw [ha] at h
      exact absurd rfl h
    | some r =>
      obtain ⟨p, h', b⟩ := r
      obtain ⟨cs, w, o⟩ := c.inv call
      obtain ⟨cs', d, -, a⟩ := w.allocated (c.ok call) ha
      have hnodup := (o.alloc a).nodup
      rw [List.map_cons, List.nodup_cons] at hnodup
      exact hnodup.1
  · rw [if_neg hcall] at h
    exact absurd rfl h

/-- The pages of the kernel lie above those of the program. -/
theorem pages_keep (call : Nat) (m : Machine) : Keeps m (c.pages call m) := by
  unfold pages
  cases hrun : Paging.kmalloc c.fuel (c.size call) ⟨m, some (c.state call).heap⟩ with
  | none => exact .refl m
  | some r =>
    dsimp only
    split
    · rename_i hok
      exact kernel_kmalloc_keeps hrun hok.1 hok.2
    · exact .refl m

/-- **The allocator that `kmalloc` of the kernel is.** -/
def allocator : Allocator where
  answer := c.answer
  pages := c.pages
  fresh _ _ _ := c.answer_fresh
  keeps := c.pages_keep

/-- **It answers as `kmalloc` does**, in a call that finds the heap of the run. -/
theorem kmalloc_eq {e : Env} (he : e.heap = c.allocator) {k : Kernel} {size p : Nat} {k' : Paging.Kernel}
    (hsize : c.size k.calls = size) (hlive : k.live = c.live k.calls)
    (hrun : Paging.kmalloc c.fuel size ⟨k.machine, some (c.state k.calls).heap⟩ = some (p, k'))
    (hnb : 0xC0000 ≤ k.machine.nextBlock) (hlog : ∀ e ∈ k'.machine.log, e.Ok) :
    kmalloc e size k = (p, { k with
      machine := k'.machine
      live := if p = 0 then k.live else p :: k.live
      calls := k.calls + 1 }) := by
  subst hsize
  have hpages : c.pages k.calls k.machine = k'.machine := by
    unfold pages
    rw [hrun]
    exact if_pos ⟨hnb, hlog⟩
  have hanswer : c.answer k.calls (c.size k.calls) k.live = p := by
    unfold Paging.kmalloc kmallocInt at hrun
    unfold answer
    by_cases h0 : c.size k.calls = 0
    · rw [if_pos h0] at hrun
      cases hrun
      exact if_neg fun h => h.2.2 h0
    · rw [if_neg h0] at hrun
      obtain ⟨⟨q, h', m'⟩, ha, hq⟩ := Option.map_eq_some_iff.1 hrun
      cases hq
      obtain ⟨b', hb⟩ := alloc_answer (b := (c.state k.calls).pages) ha
      rw [if_pos ⟨rfl, hlive, h0⟩, hb]
      rfl
  unfold kmalloc
  rw [he]
  show (c.answer k.calls (c.size k.calls) k.live, { k with
    machine := c.pages k.calls k.machine
    live := if c.answer k.calls (c.size k.calls) k.live = 0 then k.live
      else c.answer k.calls (c.size k.calls) k.live :: k.live
    calls := k.calls + 1 }) = _
  rw [hanswer, hpages]

end HeapCalls

end Exec
