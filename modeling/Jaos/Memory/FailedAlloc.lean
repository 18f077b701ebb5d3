import Jaos.Memory.OnePage
import Jaos.Memory.Proof.Spaces

/-!
# A page allocation that fails

`alloc_page` and `alloc_kernel_page` return the null pointer as soon as `mem_alloc_block` finds no
frame for a page. The pages mapped by then stay mapped and their frames and tables stay marked; only
`_kernel_next_block` is moved at the end, so that the next call of `alloc_kernel_page` maps the same
pages over these frames. `alloc_undone_iff`: nothing is left of a failed call exactly when it fails
on its first page.
-/

namespace Paging

open Lib Memman

/-- A call of `alloc_page` or `alloc_kernel_page`. -/
inductive Call
  | page (virtual : Addr) (size : Nat)
  | kernelPages (size : Nat)

namespace Call

def run : Call → Machine → Option (Addr × Machine)
  | page virtual size => allocPage virtual size
  | kernelPages size => allocKernelPage size

/-- The loop of the call. -/
def pages : Call → Machine → Option (Bool × Machine)
  | page virtual size, m =>
    allocFrom (fun i => add64 virtual (i * 0x1000)) true (pageCount size) 0 m
  | kernelPages size, m =>
    allocFrom (fun i => add64 m.nextBlock i * 0x1000 % 2 ^ 64) false size 0
      { m with log := .pages m.nextBlock size :: m.log }

/-- The frames run out before the last page. -/
def RunsOut (c : Call) (m m' : Machine) : Prop := c.pages m = some (false, m')

end Call

/-- The bitmap, the counter of used blocks, `_kernel_next_block` and the translation of every
virtual page are those of `m`. -/
structure Undone (m m' : Machine) : Prop where
  bits : ∀ n, m'.frames.memoryMap.bit n = m.frames.memoryMap.bit n
  used : m'.frames.usedBlocks = m.frames.usedBlocks
  nextBlock : m'.nextBlock = m.nextBlock
  translate : ∀ a, translate m'.phys m'.cr3 a = Paging.translate m.phys m.cr3 a

/-- `mem_alloc_block` has no frame to return: the counter says so, the search ends on block 0, or all
words that it looks at are full. -/
def NoFrame (f : Frames) : Prop :=
  memFreeBlockCount f = 0 ∨ f.memoryMap.bit 0 = false ∨
    ∀ n < 64 * (f.maxBlocks / 64), f.memoryMap.bit n = true

/-- What is marked stays marked. -/
def Marks (f f' : Frames) : Prop := ∀ n, f.memoryMap.bit n = true → f'.memoryMap.bit n = true

section
variable {f f' f'' : Frames} {m m' : Machine} {a p : Addr} {user ok : Bool}

theorem Marks.refl (f : Frames) : Marks f f := fun _ h => h

theorem Marks.trans (h : Marks f f') (h' : Marks f' f'') : Marks f f'' := fun n hn => h' n (h n hn)

theorem memAllocBlock_marks (f : Frames) : Marks f (memAllocBlock f).2 := by
  intro n hn
  rcases allocBlock_spec f with h | ⟨r, -, -, -, -, -, hbit⟩
  · rw [h]
    exact hn
  · rw [hbit, hn, Bool.or_true]

theorem memAllocBlock_null : (memAllocBlock f).1 = 0 ↔ NoFrame f := by
  unfold memAllocBlock NoFrame
  split
  · rename_i hcount
    exact iff_of_true rfl (.inl hcount)
  · rename_i hcount
    dsimp only
    rcases firstFree_first f with ⟨hbit, hlt, hbefore⟩ | ⟨h0, hall⟩
    · by_cases h0 : mmapFirstFree f = 0
      · rw [if_pos h0]
        exact iff_of_true rfl (.inr (.inl (h0 ▸ hbit)))
      · rw [if_neg h0]
        refine iff_of_false (Nat.mul_ne_zero h0 (by decide)) ?_
        rintro (h | h | h)
        · exact hcount h
        · have := hbefore 0 (Nat.pos_of_ne_zero h0)
          rw [h] at this
          cases this
        · have := h _ hlt
          rw [hbit] at this
          cases this
    · rw [if_pos h0]
      exact iff_of_true rfl (.inr (.inr hall))

/-! ## Frames stay marked -/

theorem writeFields_frames {gs : List (Entry → Entry)} (h : writeFields a gs m = some m') :
    m'.frames = m.frames := by
  induction gs generalizing m with
  | nil =>
    cases h
    rfl
  | cons g gs ih =>
    obtain ⟨m1, h1, h⟩ := Option.bind_eq_some_iff.1 h
    obtain ⟨l, -, hl⟩ := Option.map_eq_some_iff.1 h1
    rw [ih h, ← hl]

theorem linkTable_marks (h : linkTable a user m = some m') : Marks m.frames m'.frames := by
  obtain ⟨e, -, h⟩ := Option.bind_eq_some_iff.1 h
  split at h
  · cases h
    exact .refl _
  · rw [writeFields_frames h]
    exact memAllocBlock_marks _

theorem createPage_marks (h : createPageForCurrent a user m = some (p, m')) :
    Marks m.frames m'.frames := by
  obtain ⟨m1, h1, h⟩ := Option.bind_eq_some_iff.1 h
  obtain ⟨m2, h2, h⟩ := Option.bind_eq_some_iff.1 h
  obtain ⟨m3, h3, he⟩ := Option.map_eq_some_iff.1 h
  cases he
  exact (linkTable_marks h1).trans ((linkTable_marks h2).trans (linkTable_marks h3))

theorem allocFrom_marks {address : Nat → Addr} {k i : Nat}
    (h : allocFrom address user k i m = some (ok, m')) :
    Marks (memAllocBlock m.frames).2 m'.frames ∨ k = 0 := by
  induction k generalizing i m with
  | zero => exact .inr rfl
  | succ k ih =>
    refine .inl ?_
    unfold allocFrom at h
    dsimp only at h
    split at h
    · cases h
      exact .refl _
    · obtain ⟨⟨p, m1⟩, hc, h⟩ := Option.bind_eq_some_iff.1 h
      obtain ⟨m2, hw, h⟩ := Option.bind_eq_some_iff.1 h
      have hfirst := createPage_marks hc
      rw [← writeFields_frames hw] at hfirst
      rcases ih h with hrest | rfl
      · exact hfirst.trans ((memAllocBlock_marks _).trans hrest)
      · cases h
        exact hfirst

/-- **A loop that fails** has marked a frame, unless there was none for its first page. -/
theorem allocFrom_fails {address : Nat → Addr} {k i : Nat}
    (h : allocFrom address user k i m = some (false, m')) :
    (NoFrame m.frames → m' = m) ∧
      (¬ NoFrame m.frames → ∃ n, m.frames.memoryMap.bit n = false ∧
        m'.frames.memoryMap.bit n = true) := by
  constructor
  · intro hno
    cases k with
    | zero => cases h
    | succ k =>
      unfold allocFrom at h
      dsimp only at h
      have h0 := memAllocBlock_null.2 hno
      rw [if_pos h0] at h
      rcases allocBlock_spec m.frames with hf | ⟨r, hr, -, -, haddr, -⟩
      · rw [hf] at h
        cases h
        rfl
      · rw [haddr] at h0
        exact absurd h0 (Nat.mul_ne_zero hr (by decide))
  · intro hsome
    rcases allocBlock_spec m.frames with hf | ⟨r, -, -, hbit, -, -, hset⟩
    · exact absurd (memAllocBlock_null.1 (by rw [hf])) hsome
    · rcases allocFrom_marks h with hmarks | rfl
      · refine ⟨r, hbit, hmarks r ?_⟩
        rw [hset, decide_eq_true rfl, Bool.true_or]
      · cases h

end

/-- A call whose frames run out returns the null pointer. -/
theorem Call.run_null {c : Call} {m m' : Machine} (h : c.RunsOut m m') : c.run m = some (0, m') := by
  cases c with
  | page virtual size =>
    have hloop : allocFrom _ _ (pageCount size) 0 m = some (false, m') := h
    rw [Call.run, allocPage, ← pageCount, hloop]
    rfl
  | kernelPages size =>
    have hloop : allocFrom _ _ size 0 _ = some (false, m') := h
    rw [Call.run, allocKernelPage, hloop]
    rfl

/-- What is left of the call: nothing if there was no frame at all, otherwise a frame at least. -/
theorem Call.left {c : Call} {m m' : Machine} (h : c.RunsOut m m') :
    (NoFrame m.frames → Undone m m') ∧
      (¬ NoFrame m.frames → ∃ n, m.frames.memoryMap.bit n = false ∧
        m'.frames.memoryMap.bit n = true) := by
  cases c with
  | page virtual size =>
    obtain ⟨hnone, hsome⟩ := allocFrom_fails h
    refine ⟨fun hno => ?_, hsome⟩
    rw [hnone hno]
    exact ⟨fun _ => rfl, rfl, rfl, fun _ => rfl⟩
  | kernelPages size =>
    obtain ⟨hnone, hsome⟩ := allocFrom_fails h
    refine ⟨fun hno => ?_, hsome⟩
    rw [hnone hno]
    exact ⟨fun _ => rfl, rfl, rfl, fun _ => rfl⟩

/-- **A failed call is undone** exactly when it fails on its first page. -/
theorem alloc_undone_iff (c : Call) (m m' : Machine) (h : c.RunsOut m m') :
    c.run m = some (0, m') ∧ (Undone m m' ↔ NoFrame m.frames) := by
  obtain ⟨hnone, hsome⟩ := Call.left h
  refine ⟨Call.run_null h, fun hu => Classical.byContradiction fun hno => ?_, hnone⟩
  obtain ⟨n, h0, h1⟩ := hsome hno
  rw [hu.bits, h0] at h1
  cases h1

/-! ## One frame for two pages -/

/-- Tables in the frames 1 to 4 for the first 2 MB of the kernel, none of whose pages is mapped.
Frame 5 is the only free one. -/
def singleFrame : Machine where
  phys := fun f i =>
    if f = 1 ∧ i = 511 then entryTo 1
    else if f = 1 ∧ i = 0 then entryTo 2
    else if f = 2 ∧ i = 3 then entryTo 3
    else if f = 3 ∧ i = 0 then entryTo 4
    else .zero
  cr3 := 1
  frames := ⟨63, 64, fun _ => ~~~(1 <<< 5)⟩
  nextBlock := 0xC0000
  log := []

theorem singleFrame_runs : ((Call.kernelPages 2).pages singleFrame).map (fun r =>
    (r.1, r.2.nextBlock, r.2.frames.memoryMap.bit 5, translate r.2.phys r.2.cr3 0xC0000000)) =
    some (false, 0xC0000, true, some 5) := by
  decide

/-- The theorem on these tables. -/
theorem alloc_undone_iff_singleFrame :
    ∃ m', (Call.kernelPages 2).RunsOut singleFrame m' ∧
      (allocKernelPage 2 singleFrame = some (0, m') ∧ (Undone singleFrame m' ↔ NoFrame singleFrame.frames)) := by
  obtain ⟨⟨ok, m'⟩, hrun, h⟩ := Option.map_eq_some_iff.1 singleFrame_runs
  simp only [Prod.mk.injEq] at h
  obtain ⟨rfl, -⟩ := h
  exact ⟨m', hrun, alloc_undone_iff (.kernelPages 2) singleFrame m' hrun⟩

/-- **A failed call that is not undone**: `alloc_kernel_page(2)` returns the null pointer and leaves
its first page mapped to the frame it took. -/
theorem alloc_not_undone :
    ∃ m m', next m.phys m.cr3 511 = some m.cr3 ∧ (Call.kernelPages 2).RunsOut m m' ∧
      allocKernelPage 2 m = some (0, m') ∧ m'.nextBlock = m.nextBlock ∧
      (m.frames.memoryMap.bit 5 = false ∧ m'.frames.memoryMap.bit 5 = true) ∧
      translate m.phys m.cr3 0xC0000000 = none ∧ translate m'.phys m'.cr3 0xC0000000 = some 5 := by
  obtain ⟨⟨ok, m'⟩, hrun, h⟩ := Option.map_eq_some_iff.1 singleFrame_runs
  simp only [Prod.mk.injEq] at h
  obtain ⟨rfl, hnext, hbit, hpage⟩ := h
  have hnull : (Call.kernelPages 2).run singleFrame = some (0, m') := Call.run_null hrun
  exact ⟨singleFrame, m', by decide, hrun, hnull, hnext, ⟨by decide, hbit⟩, by decide, hpage⟩

end Paging
