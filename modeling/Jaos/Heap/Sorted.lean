import Jaos.Heap.NoOverlap
import Jaos.Heap.Proof.Order

/-!
# The hole index and the smallest hole that fits

`index_sorted`: in a run from `create_heap` whose steps keep the heap well formed and every hole
that changes its size in its place, the index is sorted and `find_smallest_hole` finds a smallest
hole that fits. The code never checks the place: `index_unsorted` is a run of five allocations and
three calls of `free` in which the left neighbour of a freed block outgrows the entry behind it.
-/

namespace Kheap

open Lib OrderedArray

section
variable {σ : Type} {pg : KernelPages σ} {s : Sys σ}

/-- The index is sorted, and the search finds a smallest hole that fits. -/
structure SmallestFirst (s : Sys σ) : Prop where
  sorted : ∀ i j, i < j → j < s.heap.index.size →
    sizeAt s.heap.mem (s.heap.index.array i) ≤ sizeAt s.heap.mem (s.heap.index.array j)
  smallest : ∀ size i, findSmallestHole size 0 s.heap = some i → ∀ j < s.heap.index.size,
    size ≤ sizeAt s.heap.mem (s.heap.index.array j) →
      sizeAt s.heap.mem (s.heap.index.array i) ≤ sizeAt s.heap.mem (s.heap.index.array j)

theorem smallestFirst (h : Ordered s.heap) : SmallestFirst s :=
  ⟨sortedBy_iff.1 h, fun _ _ hf => h.smallest hf⟩

/-- The order condition on a step: in every call of `alloc`, the recursive ones included, and in
`free` the hole that changes its size stays in its place. -/
def KeepsPlace (pg : KernelPages σ) (s : Sys σ) : Op → Prop
  | .alloc size pageAlign => ∀ h t, Retry pg size pageAlign s.heap s.pages h t →
      CallInPlace size pageAlign h
  | .free p => FreeInPlace p s.heap
  | .write _ => True

/-- **The index stays sorted over whole runs.** -/
theorem index_sorted (pg : KernelPages σ)
    (h : Reach Init (fun s op s' => Step pg s op s' ∧ StepOk pg s op ∧ KeepsPlace pg s op) s) :
    SmallestFirst s := by
  have hinv : Inv s ∧ Ordered s.heap := by
    refine h.invariant (P := fun s => Inv s ∧ Ordered s.heap) (fun s hs => ?_)
      fun s op s' inv hs => ?_
    · refine ⟨.init hs, ?_⟩
      obtain @⟨start, endAddr, max, supervisor, readonly, mem, slots, t, area⟩ := hs
      dsimp only
      exact createHeap_ordered area _ _ _ _ _
    · obtain ⟨⟨cs, w, o⟩, hord⟩ := inv
      obtain ⟨hstep, hok, hplace⟩ := hs
      refine ⟨Inv.step ⟨cs, w, o⟩ hstep hok, ?_⟩
      cases hstep with
      | alloc ha => exact w.ordered_alloc hord hok hplace ha
      | free hb =>
        obtain ⟨c, hc, hu, hp, -⟩ := o.chunk _ hb
        obtain ⟨l, r, rfl⟩ := List.append_of_mem hc
        obtain ⟨hfree, hout⟩ := hok
        change FreeInPlace _ _ at hplace
        rw [hp] at hfree hplace ⊢
        dsimp only
        exact w.ordered_free pg s.pages hord hu hout hfree hplace
      | write hm =>
        -- the headers of the holes are not the callers'
        have w' := w.write o hm
        refine SortedBy.congr hord fun x hx => ?_
        obtain ⟨d, hd, -, rfl⟩ := mem_holes.1 (w.index.mem_iff.1 hx)
        exact w.indexed.size_kept w'.indexed.toLayout hd hd
  exact smallestFirst hinv.2

end

/-! ## Two runs -/

/-- A call that finds a hole makes no other. -/
theorem Retry.first {h g : Heap} {t u : σ} {size pageAlign i : Nat}
    (hf : findSmallestHole (newSize size) pageAlign h = some i)
    (hr : Retry pg size pageAlign h t g u) : g = h := by
  induction hr with
  | here => rfl
  | again _ hg _ ih =>
    subst ih
    rw [hf] at hg
    cases hg

/-- A test for the conditions of `index_sorted`; an allocation that would expand fails it. -/
def sortedTest (s : Sys Nat) : Op → Bool
  | .alloc size pageAlign => plainTest s (.alloc size pageAlign) &&
      (findSmallestHole (newSize size) 0 s.heap).isSome
  | .free p => decide (FreeOk s.heap p ∧ magicAt s.heap.mem s.heap.endAddress ≠ heapMagic) &&
      decide (leftHeader s.heap p = none)
  | .write _ => false

theorem stepOk_of_test {s : Sys Nat} {op : Op} (h : sortedTest (tidy s) op = true) :
    StepOk bumpPages (tidy s) op ∧ KeepsPlace bumpPages (tidy s) op := by
  cases op with
  | alloc size pageAlign =>
    simp only [sortedTest, Bool.and_eq_true] at h
    obtain ⟨i, hi⟩ := Option.isSome_iff_exists.1 h.2
    obtain ⟨rfl, -, hlen, -⟩ := plain_of_test h.1
    have hnone : PlainAllocOk size (tidy s).heap := fun hf => by rw [hi] at hf; cases hf
    refine ⟨fun g t hg => ?_, fun g t hg => ?_⟩
    · rw [hg.first hi]
      exact callOk_plain hlen hnone
    · rw [hg.first hi]
      unfold CallInPlace
      rw [hi]
      exact fun hne => absurd (if_neg (by simp)) hne
  | free p =>
    simp only [sortedTest, Bool.and_eq_true, decide_eq_true_eq] at h
    exact ⟨h.1, fun hleft => absurd h.2 hleft⟩
  | write m => cases h

/-- Three blocks, two of them freed, and the smaller hole used again. -/
theorem index_sorted_calls :
    ∃ s, runList (call sortedTest) [.alloc 500 0, .alloc 100 0, .alloc 200 0, .alloc 100 0,
      .free 0xC0019010, .free 0xC00192A8, .alloc 150 0] sys0 = some s ∧ SmallestFirst s := by
  obtain ⟨s, hs⟩ : ∃ s, runList (call sortedTest) [.alloc 500 0, .alloc 100 0, .alloc 200 0,
      .alloc 100 0, .free 0xC0019010, .free 0xC00192A8, .alloc 150 0] sys0 = some s := by
    rw [← Option.isSome_iff_exists]
    decide +kernel
  exact ⟨s, hs, index_sorted bumpPages (reach_calls (fun s op h => stepOk_of_test h)
    (fun _ _ => ⟨trivial, trivial⟩) (.start init_sys0) hs)⟩

/-- **The index is not sorted** after five allocations and three calls of `free`: the last one
merges the block of 1000 bytes into the hole of 132 in front of it, which keeps the first slot with
1164 bytes before the hole of 532. An allocation of 300 bytes then takes the larger hole. -/
theorem index_unsorted :
    ∃ s, Reach Init (Step bumpPages) s ∧ ¬ SmallestFirst s := by
  have hrun : (runList exec [.alloc 100 0, .alloc 1000 0, .alloc 100 0, .alloc 500 0, .alloc 100 0,
      .free 0xC0019010, .free 0xC0019520, .free 0xC0019094] sys0).map (fun s =>
        (s.heap.index.size, sizeAt s.heap.mem (s.heap.index.array 0),
          sizeAt s.heap.mem (s.heap.index.array 1))) = some (3, 1164, 532) := by
    decide +kernel
  obtain ⟨s, hs, h⟩ := Option.map_eq_some_iff.1 hrun
  simp only [Prod.mk.injEq] at h
  refine ⟨s, .of_list (fun _ _ _ => exec_step) (.start init_sys0) hs, fun hf => ?_⟩
  have := hf.sorted 0 1 (by decide) (by omega)
  omega

end Kheap
