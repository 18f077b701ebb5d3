import Jaos.Heap.Kheap
import Jaos.Lib.Run

/-!
# The heap with its callers

The state is the heap, the page allocator's state and the list of live blocks; a step is a call of
`alloc`, a call of `free` on a live pointer, or a write of the callers: they fill their own blocks,
and whatever lies outside the heap is not theirs to keep.
-/

namespace Kheap

open Lib

/-- A block handed out by `alloc(size, ..)`. -/
structure Block where
  p : Nat
  size : Nat
  deriving DecidableEq, Repr

structure Sys (σ : Type) where
  heap : Heap
  pages : σ
  live : List Block

inductive Op
  | alloc (size pageAlign : Nat)
  | free (p : Nat)
  | write (mem : Mem)

/-- `m` differs from the heap's memory only in the live blocks and outside the heap. -/
def Writable {σ : Type} (s : Sys σ) (m : Mem) : Prop :=
  ∀ x, s.heap.startAddress ≤ x → x < s.heap.endAddress →
    (∀ b ∈ s.live, x < b.p ∨ b.p + b.size ≤ x) → m x = s.heap.mem x

inductive Step {σ : Type} (pg : KernelPages σ) : Sys σ → Op → Sys σ → Prop
  | alloc {s : Sys σ} {fuel size pageAlign p : Nat} {h : Heap} {t : σ} :
      alloc pg fuel size pageAlign s.heap s.pages = some (p, h, t) →
      Step pg s (.alloc size pageAlign) ⟨h, t, ⟨p, size⟩ :: s.live⟩
  | free {s : Sys σ} {b : Block} : b ∈ s.live →
      Step pg s (.free b.p) ⟨(free pg b.p s.heap s.pages).1, (free pg b.p s.heap s.pages).2,
        s.live.filter fun e => e.p ≠ b.p⟩
  | write {s : Sys σ} {m : Mem} : Writable s m →
      Step pg s (.write m) { s with heap := { s.heap with mem := m } }

/-- The pages `create_heap` is given: page-aligned, room for the index and a heap of the minimal
size, and low enough for the 32-bit page masks. -/
structure HeapArea (start endAddr : Nat) : Prop where
  startPage : start % 4096 = 0
  endPage : endAddr % 4096 = 0
  room : start + 0x9000 + heapMinSize ≤ endAddr
  low : start + 0x9000 < 2 ^ 32
  high : endAddr ≤ start + 0x9000 + 2 ^ 32

/-- The state `create_heap` leaves. -/
inductive Init {σ : Type} : Sys σ → Prop
  | mk {start endAddr max supervisor readonly : Nat} {mem : Mem} {slots : Nat → Nat} {t : σ} :
      HeapArea start endAddr →
      Init ⟨createHeap start endAddr max supervisor readonly mem slots, t, []⟩

/-! ## Running the model -/

/-- `alloc_kernel_page` with frames to spare; the state is `_kernel_next_block`. -/
def bumpPages : KernelPages Nat where
  allocKernelPage n b := some (b * 4096, b + n)
  freeKernelPage _ _ b := b

/-- The heap of `kheap_init` when the kernel ends below `0xC0010000`, in cleared memory. -/
def sys0 : Sys Nat :=
  ⟨createHeap 0xC0010000 0xC0030000 0xd0000000 0 0 (fun _ => 0) (fun _ => 0), 0xC0030, []⟩

theorem area0 : HeapArea 0xC0010000 0xC0030000 :=
  ⟨by decide, by decide, by decide, by decide, by decide⟩

theorem init_sys0 : Init sys0 := .mk area0

/-- One call, with at most three expansions. -/
def exec (s : Sys Nat) : Op → Option (Sys Nat)
  | .alloc size pageAlign =>
    (alloc bumpPages 4 size pageAlign s.heap s.pages).map fun r =>
      ⟨r.2.1, r.2.2, ⟨r.1, size⟩ :: s.live⟩
  | .free p => (s.live.find? fun b => b.p = p).map fun b =>
      ⟨(free bumpPages b.p s.heap s.pages).1, (free bumpPages b.p s.heap s.pages).2,
        s.live.filter fun e => e.p ≠ b.p⟩
  | .write _ => none

theorem exec_step {s s' : Sys Nat} {op : Op} (h : exec s op = some s') : Step bumpPages s op s' := by
  cases op with
  | alloc size pageAlign =>
    obtain ⟨⟨p, k, t⟩, hr, rfl⟩ := Option.map_eq_some_iff.1 h
    exact .alloc hr
  | free p =>
    obtain ⟨b, hb, rfl⟩ := Option.map_eq_some_iff.1 h
    obtain rfl : b.p = p := by simpa using List.find?_some hb
    exact .free (List.mem_of_find?_eq_some hb)
  | write m => cases h

end Kheap
