import Jaos.Heap.System
import Jaos.Heap.Proof.AllocRun
import Jaos.Heap.Proof.Free

/-!
# Runs of the heap

`Inv`: the heap is well formed and every live block has a chunk in use of its own. `create_heap`
establishes it, and every step that meets `StepOk` keeps it: `AllocOk` and `FreeOk` for the calls,
and no header in the memory behind the heap when `free` looks for a right neighbour there.
-/

namespace Kheap

open Lib OrderedArray

/-! ## The initial heap -/

/-- `create_heap` on page-aligned addresses. -/
theorem createHeap_eq {start endAddr : Nat} (a : HeapArea start endAddr)
    (max supervisor readonly : Nat) (mem : Mem) (slots : Nat → Nat) :
    createHeap start endAddr max supervisor readonly mem slots =
      insertIndex (start + 0x9000) (onMem (writeHeader (start + 0x9000) 1 (endAddr - (start + 0x9000)))
        { mem, index := placeOrderedArray slots heapIndexSize, startAddress := start + 0x9000,
          endAddress := endAddr, maxAddress := max, supervisor, readonly, console := [] }) := by
  obtain ⟨h1, h2, h3, h4, h5⟩ := a
  dsimp only [heapMinSize] at h3
  have hstart : pageCeil (add64 start (8 * heapIndexSize + sizeofHeap)) = start + 0x9000 := by
    dsimp only [heapIndexSize, sizeofHeap]
    rw [add64_of_lt (by omega), pageCeil_eq (by omega)]
    omega
  have hsize : sub64 endAddr (start + 0x9000) = endAddr - (start + 0x9000) :=
    sub64_of_le (by omega) (by omega)
  unfold createHeap putsIf
  simp only [and_fff, h1, h2, hstart, hsize, ne_eq, not_true_eq_false, if_false]

theorem createHeap_wf {start endAddr : Nat} (a : HeapArea start endAddr)
    (max supervisor readonly : Nat) (mem : Mem) (slots : Nat → Nat) :
    Wf (createHeap start endAddr max supervisor readonly mem slots)
      [⟨start + 0x9000, endAddr - (start + 0x9000), false⟩] := by
  rw [createHeap_eq a]
  obtain ⟨h1, h2, h3, h4, h5⟩ := a
  constructor
  · simp only [tiles_cons, tiles_nil, Seg.fin, insertIndex_startAddress, insertIndex_endAddress,
      onMem_startAddress, onMem_endAddress, true_and]
    omega
  · dsimp only [heapMinSize] at h3
    simp only [List.mem_singleton, forall_eq]
    omega
  · simp only [List.mem_singleton, forall_eq, insertIndex_mem, onMem_mem]
    exact headerOk_writeHeader mem (c := ⟨_, _, false⟩) (by dsimp only; omega)
  · simp
  · rw [insertIndex_index, onMem_index]
    exact perm_insert _ _ (by dsimp only [placeOrderedArray]; decide)
  · simp only [insertIndex_startAddress, onMem_startAddress]
    omega
  · simpa using h2
  · simpa using h3
  · simp only [insertIndex_startAddress, onMem_startAddress]
    omega
  · simpa using h4
  · simpa using h5

/-! ## The invariant -/

/-- Every live block has a chunk in use of its own. -/
structure Owned (live : List Block) (cs : List Chunk) : Prop where
  nodup : (live.map (·.p)).Nodup
  chunk : ∀ b ∈ live, ∃ c ∈ cs, c.tag = true ∧ b.p = c.addr + 16 ∧ b.size + 32 ≤ c.size

/-- The invariant of the runs. -/
def Inv {σ : Type} (s : Sys σ) : Prop := ∃ cs, Wf s.heap cs ∧ Owned s.live cs

section
variable {σ : Type} {pg : KernelPages σ} {s s' : Sys σ}

theorem Inv.init (h : Init s) : Inv s := by
  obtain ⟨a⟩ := h
  exact ⟨_, createHeap_wf a _ _ _ _ _, ⟨by simp, by simp⟩⟩

theorem Owned.alloc {live : List Block} {cs cs' : List Chunk} {size pageAlign p : Nat} {b : Chunk}
    (o : Owned live cs) (a : Allocated size pageAlign p cs cs' b) :
    Owned (⟨p, size⟩ :: live) cs' := by
  constructor
  · rw [List.map_cons, List.nodup_cons]
    refine ⟨fun hp => ?_, o.nodup⟩
    obtain ⟨e, he, hpe⟩ := List.mem_map.1 hp
    obtain ⟨c, hc, hu, ha, -⟩ := o.chunk e he
    have := (a.keep c hc hu).2
    have := a.addr
    dsimp only at hpe
    omega
  · intro e he
    rcases List.mem_cons.1 he with rfl | he
    · exact ⟨b, a.mem, a.used, a.addr, a.room⟩
    · obtain ⟨c, hc, hu, h⟩ := o.chunk e he
      exact ⟨c, (a.keep c hc hu).1, hu, h⟩

/-- Blocks other than the one freed keep their chunks. -/
theorem Owned.free {live : List Block} {cs cs' : List Chunk} {p : Nat} {c : Chunk}
    (o : Owned live cs) (hp : p = c.addr + 16)
    (hkeep : ∀ d ∈ cs, d.tag = true → d ≠ c → d ∈ cs') :
    Owned (live.filter fun e => e.p ≠ p) cs' := by
  constructor
  · exact o.nodup.sublist (List.filter_sublist.map _)
  · intro e he
    obtain ⟨he, hne⟩ := List.mem_filter.1 he
    obtain ⟨d, hd, hu, ha, hs⟩ := o.chunk e he
    refine ⟨d, hkeep d hd hu fun h => ?_, hu, ha, hs⟩
    subst h
    simp [hp, ha] at hne

/-- What the callers write stays clear of every tag. -/
theorem Wf.write {cs : List Chunk} {m : Mem} (w : Wf s.heap cs) (o : Owned s.live cs)
    (hm : Writable s m) : Wf { s.heap with mem := m } cs := by
  have tags : ∀ c ∈ cs, ∀ x, c.addr ≤ x → x < c.fin →
      (x < c.addr + 16 ∨ c.tag = true ∧ c.fin - 16 ≤ x ∨ c.tag = false) → m x = s.heap.mem x := by
    intro c hc x h1 h2 hx
    have hb := w.indexed.bounds hc
    refine hm x (by omega) (by omega) fun b hb' => ?_
    obtain ⟨d, hd, hu, ha, hs⟩ := o.chunk b hb'
    have hfin : d.fin = d.addr + d.size := rfl
    rcases w.tiles.apart hc hd with rfl | h | h
    · rcases hx with h | ⟨-, h⟩ | h
      · omega
      · omega
      · rw [hu] at h
        cases h
    · omega
    · omega
  constructor
  · exact w.tiles
  · exact w.min
  · intro c hc
    have hmin := w.min c hc
    have hfin : c.fin = c.addr + c.size := rfl
    exact (w.header c hc).same fun x h1 h2 => tags c hc x h1 (by omega) (.inl h2)
  · intro c hc hu
    have hmin := w.min c hc
    have hfin : c.fin = c.addr + c.size := rfl
    exact (w.footer c hc hu).same (by omega) fun x h1 h2 =>
      tags c hc x (by omega) h2 (.inr (.inl ⟨hu, h1⟩))
  · exact w.index
  · exact w.startPage
  · exact w.endPage
  · exact w.minLength
  · exact w.startLow
  · exact w.startHigh
  · exact w.maxLength

/-- The condition on a step (module doc). -/
def StepOk (pg : KernelPages σ) (s : Sys σ) : Op → Prop
  | .alloc size pageAlign => AllocOk pg size pageAlign s.heap s.pages
  | .free p => FreeOk s.heap p ∧ magicAt s.heap.mem s.heap.endAddress ≠ heapMagic
  | .write _ => True

/-- **Every step that meets its condition keeps the invariant.** -/
theorem Inv.step {op : Op} (inv : Inv s) (hstep : Step pg s op s') (hok : StepOk pg s op) :
    Inv s' := by
  obtain ⟨cs, w, o⟩ := inv
  cases hstep with
  | alloc ha =>
    obtain ⟨cs', b, w', a⟩ := w.allocated hok ha
    exact ⟨cs', w', o.alloc a⟩
  | free hb =>
    obtain ⟨c, hc, hu, hp, -⟩ := o.chunk _ hb
    obtain ⟨l, r, rfl⟩ := List.append_of_mem hc
    obtain ⟨hfree, hout⟩ := hok
    rw [hp] at hfree ⊢
    obtain ⟨L, R, merge, w', -⟩ := w.freed pg s.pages hu hout hfree
    have hkeep : ∀ d ∈ l ++ c :: r, d.tag = true → d ≠ c →
        d ∈ L ++ mergedHole s.heap (c.addr + 16) :: R := by
      intro d hd hu' hne
      have hd' : d ∈ l ++ r := by
        simp only [List.mem_append, List.mem_cons] at hd ⊢
        exact hd.imp_right fun h => h.resolve_left hne
      have := merge.used hd' hu'
      simp only [List.mem_append, List.mem_cons] at this ⊢
      exact this.imp_right .inr
    unfold Inv
    dsimp only
    exact ⟨_, w', o.free rfl hkeep⟩
  | write hm => exact ⟨cs, w.write o hm, o⟩

/-- The invariant holds in every state of a run whose steps meet their conditions. -/
theorem Inv.reach (h : Reach Init (fun s op s' => Step pg s op s' ∧ StepOk pg s op) s) : Inv s :=
  h.invariant (fun _ h => .init h) fun _ _ _ inv h => inv.step h.1 h.2

/-- **The payloads are safe**: no two overlap and none leaves the heap. -/
structure Safe (s : Sys σ) : Prop where
  disjoint : s.live.Pairwise fun a b => a.p + a.size ≤ b.p ∨ b.p + b.size ≤ a.p
  inside : ∀ b ∈ s.live, s.heap.startAddress ≤ b.p ∧ b.p + b.size ≤ s.heap.endAddress

theorem Inv.safe (inv : Inv s) : Safe s := by
  obtain ⟨cs, w, o⟩ := inv
  constructor
  · have hnd : s.live.Pairwise fun a b => a.p ≠ b.p := List.pairwise_map.1 o.nodup
    refine hnd.imp_of_mem fun {a b} ha hb hne => ?_
    obtain ⟨c, hc, -, hca, hcs⟩ := o.chunk a ha
    obtain ⟨d, hd, -, hda, hds⟩ := o.chunk b hb
    have hcd := w.tiles.apart hc hd
    unfold Seg.Apart Seg.fin at hcd
    rcases hcd with rfl | h | h <;> omega
  · intro b hb
    obtain ⟨c, hc, -, hca, hcs⟩ := o.chunk b hb
    have h := w.indexed.bounds hc
    unfold Seg.fin at h
    omega

end

/-! ## Runs of calls -/

/-- No header or footer outside the heap. -/
def Outside (h : Heap) : Prop :=
  ∀ a, a + 16 ≤ h.startAddress ∨ h.endAddress ≤ a → magicAt h.mem a ≠ heapMagic

/-- The memory around the heap cleared. -/
def cleared (h : Heap) : Mem := fun x =>
  if h.startAddress ≤ x ∧ x < h.endAddress then h.mem x else 0

/-- The state once the memory around the heap was cleared. -/
def tidy (s : Sys Nat) : Sys Nat := { s with heap := { s.heap with mem := cleared s.heap } }

theorem tidy_step (s : Sys Nat) : Step bumpPages s (.write (cleared s.heap)) (tidy s) :=
  .write fun _ h1 h2 _ => if_pos ⟨h1, h2⟩

/-- Cleared memory holds no tag. -/
theorem magicAt_cleared {m : Mem} {a : Nat} (hz : ∀ x, a ≤ x → x < a + 16 → m x = 0) :
    magicAt m a ≠ heapMagic := by
  have hload : magicAt m a = 0 := by
    simp [magicAt, Mem.load, hz a (by omega) (by omega), hz (a + 1) (by omega) (by omega),
      hz (a + 1 + 1) (by omega) (by omega), hz (a + 1 + 1 + 1) (by omega) (by omega)]
  rw [hload]
  decide

theorem outside_tidy (s : Sys Nat) : Outside (tidy s).heap := by
  refine fun a ha => magicAt_cleared fun x h1 h2 => if_neg fun h => ?_
  dsimp only [tidy] at ha
  omega

/-- A call of `alloc` or `free` that meets the test `c`, in tidy surroundings. -/
def call (c : Sys Nat → Op → Bool) (s : Sys Nat) (op : Op) : Option (Sys Nat) :=
  if c (tidy s) op then exec (tidy s) op else none

/-- A list of calls is a run. -/
theorem reach_calls {c : Sys Nat → Op → Bool} {P : Sys Nat → Op → Prop}
    (hc : ∀ s op, c (tidy s) op = true → P (tidy s) op) (hw : ∀ s m, P s (.write m))
    {ops : List Op} {s s' : Sys Nat}
    (h : Reach Init (fun s op s' => Step bumpPages s op s' ∧ P s op) s)
    (hr : runList (call c) ops s = some s') :
    Reach Init (fun s op s' => Step bumpPages s op s' ∧ P s op) s' := by
  induction ops generalizing s with
  | nil =>
    cases hr
    exact h
  | cons op ops ih =>
    obtain ⟨t, ht, hr⟩ := Option.bind_eq_some_iff.1 hr
    unfold call at ht
    split at ht
    · rename_i hcs
      exact ih ((h.next ⟨tidy_step s, hw _ _⟩).next ⟨exec_step ht, hc _ _ hcs⟩) hr
    · cases ht

end Kheap
