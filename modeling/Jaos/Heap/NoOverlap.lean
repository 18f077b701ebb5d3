import Jaos.Heap.Proof.Run

/-!
# Live blocks do not overlap (`alloc` with `page_align = 0`)

`live_blocks_apart`: in a run from `create_heap` whose calls meet `PlainOk` no two live payloads
overlap and none leaves the heap. `PlainOk` is a condition on the state before the call: an
allocation that no hole fits finds the endmost hole of the index at the end of the heap, and
`FreeOk` for `free`. Without it the blocks do overlap: `live_blocks_overlap` is a run in which
`alloc` enlarges a hole in the middle of the heap over the block behind it.
-/

namespace Kheap

open Lib OrderedArray

section
variable {σ : Type} {pg : KernelPages σ} {size : Nat} {s : Sys σ}

/-- The condition on a call of `alloc(size, 0)`: it needs no expansion, or the endmost hole of the
index ends the heap. -/
def PlainAllocOk (size : Nat) (h : Heap) : Prop :=
  findSmallestHole (newSize size) 0 h = none → GrowOk h

instance (size : Nat) (h : Heap) : Decidable (PlainAllocOk size h) := by
  unfold PlainAllocOk
  infer_instance

theorem callOk_plain {h : Heap} (hlen : h.endAddress - h.startAddress + size + 32 < 2 ^ 32)
    (hok : PlainAllocOk size h) : CallOk size 0 h := by
  refine ⟨by omega, ?_⟩
  split
  · rename_i hf
    exact ⟨hlen, hok hf⟩
  · exact ⟨.inl rfl, .inl (if_neg (by simp))⟩

/-- **One expansion is enough** for an allocation that is not page-aligned. -/
theorem Wf.allocOk_plain {h : Heap} {cs : List Chunk} {t : σ} (w : Wf h cs)
    (hlen : h.endAddress - h.startAddress + size + 32 < 2 ^ 32) (hok : PlainAllocOk size h) :
    AllocOk pg size 0 h t := by
  -- a later call than the first finds the hole that the expansion made
  have hfirst : ∀ g u, Retry pg size 0 h t g u →
      g = h ∨ findSmallestHole (newSize size) 0 g ≠ none := by
    intro g u hg
    induction hg with
    | here => exact .inl rfl
    | again hr hf he ih =>
      obtain rfl := ih.resolve_right fun h => h hf
      obtain ⟨l, c, hgain, hw, hhole, hc, -, -⟩ := w.retry (callOk_plain hlen hok) hf he
      refine .inr fun hnone => ?_
      obtain ⟨i, hi, ha⟩ := hw.indexed.slot_of (c := c) (by simp) hhole
      have hnot := find_none hnone i hi
      have hsz : sizeAt _ c.addr = c.size := (hw.header c (by simp)).size
      rw [← Bool.not_eq_true, ha, fits_plain, hsz, newSize_eq (by omega)] at hnot
      omega
  intro g u hg
  rcases hfirst g u hg with rfl | hfind
  · exact callOk_plain hlen hok
  · refine ⟨by omega, ?_⟩
    split
    · rename_i hf
      exact absurd hf hfind
    · exact ⟨.inl rfl, .inl (if_neg (by simp))⟩

/-- The calls considered: no alignment, a bounded size, no tags outside the heap. -/
def Plain (s : Sys σ) : Op → Prop
  | .alloc size pageAlign => pageAlign = 0 ∧ 1 ≤ size ∧
      s.heap.endAddress - s.heap.startAddress + size + 32 < 2 ^ 32 ∧ Outside s.heap
  | .free _ => Outside s.heap
  | .write _ => True

/-- The condition under which a call keeps the heap well formed (module doc). -/
def PlainOk (s : Sys σ) : Op → Prop
  | .alloc size _ => PlainAllocOk size s.heap
  | .free p => FreeOk s.heap p
  | .write _ => True

/-- **No overlap over whole runs.** -/
theorem live_blocks_apart (pg : KernelPages σ)
    (h : Reach Init (fun s op s' => Step pg s op s' ∧ Plain s op ∧ PlainOk s op) s) : Safe s := by
  have hinv : Inv s := h.invariant (fun _ h => .init h) fun s op s' inv hs => by
    obtain ⟨hstep, hplain, hok⟩ := hs
    refine inv.step hstep ?_
    obtain ⟨cs, w, -⟩ := inv
    cases op with
    | alloc size pageAlign =>
      obtain ⟨rfl, -, hlen, -⟩ := hplain
      exact w.allocOk_plain hlen hok
    | free p => exact ⟨hok, hplain _ (.inr (Nat.le_refl _))⟩
    | write m => trivial
  exact hinv.safe

end

/-! ## Two runs -/

/-- The part of `Plain` that can be tested. -/
def plainTest (s : Sys Nat) : Op → Bool
  | .alloc size pageAlign => decide (pageAlign = 0 ∧ 1 ≤ size ∧
      s.heap.endAddress - s.heap.startAddress + size + 32 < 2 ^ 32)
  | .free _ => true
  | .write _ => false

theorem plain_of_test {s : Sys Nat} {op : Op} (h : plainTest (tidy s) op = true) :
    Plain (tidy s) op := by
  cases op with
  | alloc size pageAlign =>
    obtain ⟨h1, h2, h3⟩ := of_decide_eq_true h
    exact ⟨h1, h2, h3, outside_tidy s⟩
  | free p => exact outside_tidy s
  | write m => trivial

instance {σ : Type} (s : Sys σ) : (op : Op) → Decidable (PlainOk s op)
  | .alloc size _ => inferInstanceAs (Decidable (PlainAllocOk size s.heap))
  | .free p => inferInstanceAs (Decidable (FreeOk s.heap p))
  | .write _ => .isTrue trivial

/-- Two blocks, the first of them freed and its space used again. -/
theorem live_blocks_apart_calls :
    ∃ s, runList (call fun s op => plainTest s op && decide (PlainOk s op)) [.alloc 100 0,
      .alloc 200 0, .free 0xC0019010, .alloc 50 0] sys0 = some s ∧ Safe s := by
  obtain ⟨s, hs⟩ : ∃ s, runList (call fun s op => plainTest s op && decide (PlainOk s op))
      [.alloc 100 0, .alloc 200 0, .free 0xC0019010, .alloc 50 0] sys0 = some s := by
    rw [← Option.isSome_iff_exists]
    decide +kernel
  refine ⟨s, hs, live_blocks_apart bumpPages (reach_calls (fun s op h => ?_)
    (fun _ _ => ⟨trivial, trivial⟩) (.start init_sys0) hs)⟩
  simp only [Bool.and_eq_true, decide_eq_true_eq] at h
  exact ⟨plain_of_test h.1, h.2⟩

/-- **Live blocks overlap** after `alloc(100)`, an allocation of all the rest, `free` of the first
block and `alloc(1000)`: the freed hole is the only one, so it is taken for the endmost and grows
over the block behind it. -/
theorem live_blocks_overlap :
    ∃ s, Reach Init (fun s op s' => Step bumpPages s op s' ∧ Plain s op) s ∧
      s.heap.endAddress ≤ s.heap.maxAddress ∧ ¬ Safe s := by
  have hrun : (runList (call plainTest) [.alloc 100 0, .alloc 0x16F5C 0, .free 0xC0019010,
      .alloc 1000 0] sys0).map (fun s => (s.live, s.heap.endAddress, s.heap.maxAddress)) =
      some ([⟨0xC0019010, 1000⟩, ⟨0xC0019094, 0x16F5C⟩], 0xC0031000, 0xD0000000) := by
    decide +kernel
  obtain ⟨s, hs, h⟩ := Option.map_eq_some_iff.1 hrun
  obtain ⟨hlive, hend, hmax⟩ : s.live = _ ∧ s.heap.endAddress = _ ∧ s.heap.maxAddress = _ := by
    simpa only [Prod.mk.injEq] using h
  refine ⟨s, reach_calls (fun s op => plain_of_test) (fun _ _ => trivial) (.start init_sys0) hs,
    by omega, fun safe => ?_⟩
  have hd := safe.disjoint
  rw [hlive] at hd
  simp at hd

end Kheap
