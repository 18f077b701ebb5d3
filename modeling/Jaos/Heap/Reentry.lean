import Jaos.Heap.AnySize
import Jaos.Heap.BadFree
import Jaos.Heap.Calls

/-!
# The heap is entered again when it prints

When nobody owns the monitor, `puts` has `lock` allocate a record. So a call of the heap that prints
starts another one in the middle of its own work, and a call that does not print starts none. That
is all there is to it (`heap_reentry_iff`): what prints is `free` of a wrong magic, of a block whose
right neighbour is missing in the index, or, quite ordinarily, of a block whose hole ends the heap;
and `alloc` when an expansion wraps or passes the maximum.
-/

namespace Kheap

open Lib OrderedArray

section
variable {σ : Type} (pg : KernelPages σ)

/-- No call of the heap starts during the call `c`. -/
def NotReentered (c : Call) (os : Os σ) : Prop :=
  ∀ fuel, ∀ e ∈ (heapCall pg fuel 0 c os).started, e.1 = 0

/-- The call `c` returns. -/
def Returns (c : Call) (os : Os σ) : Prop := ∃ fuel, (heapCall pg fuel 0 c os).result.isSome = true

/-- `free(p)` prints nothing: both magics are right, a right neighbour that is a hole is in the index
and the merged hole does not end the heap. -/
def FreeQuiet (h : Heap) (p : Nat) : Prop :=
  p = 0 ∨ magicAt h.mem (headerOf p) = heapMagic ∧
    magicAt h.mem (sub64 (behind h p) sizeofFooter) = heapMagic ∧
    (RightTest h p → behind h p ∈ h.index.toList) ∧ lastOf h p ≠ h.endAddress

instance (h : Heap) (p : Nat) : Decidable (FreeQuiet h p) := by
  unfold FreeQuiet
  infer_instance

/-- The expansions of the call print nothing: the new length has not wrapped and stays below the
maximum. -/
def AllocQuiet (size pageAlign : Nat) (h : Heap) (s : σ) : Prop :=
  ∀ g t, Retry pg size pageAlign h s g t → findSmallestHole (newSize size) pageAlign g = none →
    let len := sub64 g.endAddress g.startAddress
    len ≤ add64 len (newSize size) ∧
      add64 g.startAddress (pageCeil (add64 len (newSize size))) ≤ g.maxAddress

end

/-! ## A call that prints enters the heap again -/

section
variable {σ : Type} {pg : KernelPages σ} {os : Os σ}

/-- What has started stays in the trace. -/
theorem mem_started_bind {α β : Type} {r : Trace α} {f : α → Trace β} {e : Nat × Call}
    (h : e ∈ r.started) : e ∈ (r.bind f).started := by
  unfold Trace.bind
  split
  · exact h
  · exact List.mem_append_left _ h

/-- One level of calls. -/
theorem heapCall_succ (fuel depth : Nat) (c : Call) (os : Os σ) :
    heapCall pg (fuel + 1) depth c os =
      ⟨(depth, c) :: (runCalls (heapCall pg fuel (depth + 1)) (body pg fuel c (os.heap, os.pages))
          os).started,
        (runCalls (heapCall pg fuel (depth + 1)) (body pg fuel c (os.heap, os.pages)) os).result⟩ := rfl

theorem heapCall_started (fuel depth : Nat) (c : Call) :
    (depth, c) ∈ (heapCall pg fuel depth c os).started := by
  cases fuel with
  | zero => exact List.mem_singleton.2 rfl
  | succ fuel => exact mem_started_bind (List.mem_singleton.2 rfl)

/-- **`puts` allocates** a record when nobody owns the monitor. -/
theorem puts_started (fuel depth : Nat) (msg : String) (hreg : os.monitorLock ≠ -1)
    (hmaster : os.masterLock = false) (hfree : os.head = 0) :
    (depth, Call.alloc 16 0) ∈ (putsLocked (heapCall pg fuel depth) msg os).started := by
  unfold putsLocked lock
  rw [if_neg hreg, hmaster, if_neg (by decide), if_pos hfree]
  refine mem_started_bind (mem_started_bind ?_)
  unfold newLock kmalloc
  rw [if_neg (by decide)]
  exact mem_started_bind (heapCall_started _ _ _)

/-- The traces of a call that prints. -/
theorem calls_started {fuel : Nat} {c : Call} (hreg : os.monitorLock ≠ -1)
    (hmaster : os.masterLock = false) (hfree : os.head = 0)
    (hc : (body pg fuel c (os.heap, os.pages)).calls) :
    (1, Call.alloc 16 0) ∈ (heapCall pg (fuel + 1) 0 c os).started := by
  rw [heapCall_succ]
  refine List.mem_cons_of_mem _ ?_
  rcases hb : body pg fuel c (os.heap, os.pages) with ⟨a, x⟩ | _ | ⟨msg, x, k⟩
  · rw [hb] at hc
    exact hc.elim
  · rw [hb] at hc
    exact hc.elim
  · unfold runCalls
    exact mem_started_bind (puts_started _ _ _ hreg hmaster hfree)

/-- A call that does not print starts nothing. -/
theorem started_quiet {fuel : Nat} {c : Call} (hc : ¬ (body pg fuel c (os.heap, os.pages)).calls) :
    (heapCall pg (fuel + 1) 0 c os).started = [(0, c)] := by
  rw [heapCall_succ]
  rcases hb : body pg fuel c (os.heap, os.pages) with ⟨a, x⟩ | _ | ⟨msg, x, k⟩
  · rfl
  · rfl
  · rw [hb] at hc
    exact absurd trivial hc

/-- A call that prints while `master_lock` is taken waits for ever. -/
theorem heapCall_stuck {fuel depth : Nat} {c : Call} (hreg : os.monitorLock ≠ -1)
    (hmaster : os.masterLock = true) (hc : (body pg fuel c (os.heap, os.pages)).calls) :
    heapCall pg (fuel + 1) depth c os = ⟨[(depth, c)], none⟩ := by
  rw [heapCall_succ]
  rcases hb : body pg fuel c (os.heap, os.pages) with ⟨a, x⟩ | _ | ⟨msg, x, k⟩
  · rw [hb] at hc
    exact hc.elim
  · rfl
  · have hl : lock (heapCall pg fuel (depth + 1)) (os.put (printed msg x)) = .stuck := by
      unfold lock
      rw [if_neg (show (os.put (printed msg x)).monitorLock ≠ -1 from hreg),
        if_pos (show (os.put (printed msg x)).masterLock = true from hmaster)]
    unfold runCalls putsLocked
    rw [hl]
    rfl

/-- **Not entered again if and only if nothing is printed**, or the printing waits for ever. -/
theorem notReentered_iff {c : Call} (hreg : os.monitorLock ≠ -1) (hfree : os.head = 0) :
    NotReentered pg c os ↔
      os.masterLock = true ∨ ∀ fuel, ¬ (body pg fuel c (os.heap, os.pages)).calls := by
  constructor
  · intro hn
    rcases hm : os.masterLock with _ | _
    · refine .inr fun fuel hc => ?_
      exact absurd (hn (fuel + 1) _ (calls_started hreg hm hfree hc)) (by decide)
    · exact .inl rfl
  · intro h fuel e he
    have hone : (heapCall pg fuel 0 c os).started = [(0, c)] := by
      cases fuel with
      | zero => rfl
      | succ fuel =>
        by_cases hc : (body pg fuel c (os.heap, os.pages)).calls
        · rcases h with hm | hn
          · rw [heapCall_stuck hreg hm hc]
          · exact absurd hc (hn fuel)
        · exact started_quiet hc
    rw [hone] at he
    rw [List.mem_singleton.1 he]

end

/-! ## What prints -/

section
variable {σ : Type} {pg : KernelPages σ} {h : Heap} {s : σ} {p : Nat}

/-- `contract` always prints. -/
theorem calls_freeContract {header footer testHeader : Nat} {x : Heap × σ} :
    (freeContractCalls pg header footer testHeader x).calls ↔
      add64 footer sizeofFooter = x.1.endAddress := by
  unfold freeContractCalls
  by_cases hc : add64 footer sizeofFooter = x.1.endAddress
  · rw [if_pos hc]
    exact iff_of_true trivial hc
  · rw [if_neg hc]
    exact iff_of_false Prog.not_calls_ret hc

theorem calls_freeRight {header footer : Nat} {g : Heap} :
    (freeRightCalls header footer (g, s)).calls ↔
      (magicAt g.mem (add64 footer sizeofFooter) = heapMagic ∧
        isHoleAt g.mem (add64 footer sizeofFooter) ≠ 0) ∧
        g.index.size ≤ indexOf (add64 footer sizeofFooter) g.index := by
  unfold freeRightCalls
  dsimp only
  split
  · rename_i hr
    rw [Prog.calls_callIf]
    exact (or_iff_left Prog.not_calls_ret).trans (and_iff_right hr).symm
  · rename_i hr
    exact iff_of_false Prog.not_calls_ret fun hn => hr hn.1

/-- The merge prints for a neighbour that the index misses and for a hole that ends the heap. -/
theorem calls_freeMerge {g : Heap} (hmem : g.mem = markedMem h p) (hindex : g.index = h.index)
    (hend : g.endAddress = h.endAddress) :
    (freeMergeCalls pg (headerOf p) (sub64 (behind h p) sizeofFooter) (g, s)).calls ↔
      RightTest h p ∧ behind h p ∉ h.index.toList ∨ lastOf h p = h.endAddress := by
  obtain ⟨f, k, hright, hf, -, -, -, hk⟩ :=
    freeRight_marked (h := h) (p := p) (g := onMem (fun _ => joinedMem h p) g)
      (by rw [onMem_mem]) (by rw [onMem_index, hindex])
  have hexec := freeRightCalls_exec (startOf h p) (sub64 (behind h p) sizeofFooter)
    (onMem (fun _ => joinedMem h p) g) s
  rw [hright] at hexec
  unfold freeMergeCalls
  simp only [freeLeft_marked hmem]
  rw [Prog.calls_bind_of_exec hexec, Prog.calls_bind_of_exec (freeContractCalls_exec pg _ _ _ k s),
    calls_freeRight, calls_freeContract, hf, hk, onMem_endAddress, hend, onMem_mem, onMem_index, hindex,
    show add64 (sub64 (behind h p) sizeofFooter) sizeofFooter = behind h p from
      add64_sub64 (add64_lt _ _), ← Nat.not_lt, indexOf_lt]
  exact or_congr Iff.rfl (or_iff_left Prog.not_calls_ret)

/-- **What `free` prints for.** -/
theorem calls_free : (freeCalls pg p (h, s)).calls ↔ ¬ FreeQuiet h p := by
  unfold freeCalls FreeQuiet
  by_cases hp : p = 0
  · rw [if_pos hp]
    exact iff_of_false Prog.not_calls_ret fun hn => hn (.inl hp)
  · have hmerge : (freeMergeCalls pg (headerOf p) (sub64 (behind h p) sizeofFooter)
        (onMem (setIsHole (headerOf p) 1) h, s)).calls ↔
        RightTest h p ∧ behind h p ∉ h.index.toList ∨ lastOf h p = h.endAddress :=
      calls_freeMerge (by rw [onMem_mem]; rfl) (by rw [onMem_index]) (by rw [onMem_endAddress])
    rw [if_neg hp, Prog.calls_callIf, Prog.calls_callIf]
    refine (or_congr Iff.rfl (or_congr Iff.rfl hmerge)).trans ?_
    show magicAt h.mem (headerOf p) ≠ heapMagic ∨
      magicAt h.mem (sub64 (behind h p) sizeofFooter) ≠ heapMagic ∨ _ ↔ _
    grind

theorem calls_expand {n : Nat} : (expandCalls pg n (h, s)).calls ↔
    n < sub64 h.endAddress h.startAddress ∨ h.maxAddress < add64 h.startAddress (pageCeil n) := by
  unfold expandCalls
  rw [Prog.calls_callIf, Prog.calls_callIf]
  refine or_congr Iff.rfl (or_iff_left ?_)
  dsimp only
  rcases pg.allocKernelPage (sub64 (pageCeil n) (sub64 h.endAddress h.startAddress) / memBlockSize) s with
    _ | r
  · exact id
  · exact Prog.not_calls_ret

variable {size pageAlign fuel : Nat} {r : Heap × σ}

/-- No hole fits: `alloc` expands and starts again. -/
theorem allocCalls_none (hf : findSmallestHole (newSize size) pageAlign h = none) :
    allocCalls pg (fuel + 1) size pageAlign (h, s) =
      (expandCalls pg (add64 (sub64 h.endAddress h.startAddress) (newSize size)) (h, s)).bind fun _ y =>
        allocCalls pg fuel size pageAlign
          (growHole h.endAddress (sub64 h.endAddress h.startAddress) y.1, y.2) := by
  unfold newSize at hf ⊢
  conv => lhs; unfold allocCalls
  simp only [hf]

/-- An expansion prints, or what follows it does. -/
theorem calls_alloc_succ (hf : findSmallestHole (newSize size) pageAlign h = none)
    (hr : expand pg (add64 (sub64 h.endAddress h.startAddress) (newSize size)) h s = some r) :
    (allocCalls pg (fuel + 1) size pageAlign (h, s)).calls ↔
      (expandCalls pg (add64 (sub64 h.endAddress h.startAddress) (newSize size)) (h, s)).calls ∨
        (allocCalls pg fuel size pageAlign
          (growHole h.endAddress (sub64 h.endAddress h.startAddress) r.1, r.2)).calls := by
  have hexec := expandCalls_exec pg (add64 (sub64 h.endAddress h.startAddress) (newSize size)) h s
  rw [hr] at hexec
  rw [allocCalls_none hf, Prog.calls_bind_of_exec hexec]

/-- An expansion that gets no pages may print, but nothing follows. -/
theorem calls_alloc_stuck (hf : findSmallestHole (newSize size) pageAlign h = none)
    (hr : expand pg (add64 (sub64 h.endAddress h.startAddress) (newSize size)) h s = none) :
    (allocCalls pg (fuel + 1) size pageAlign (h, s)).calls ↔
      (expandCalls pg (add64 (sub64 h.endAddress h.startAddress) (newSize size)) (h, s)).calls := by
  have hexec := expandCalls_exec pg (add64 (sub64 h.endAddress h.startAddress) (newSize size)) h s
  rw [hr] at hexec
  rw [allocCalls_none hf, Prog.calls_bind]
  refine or_iff_left ?_
  rintro ⟨a, x, hx, -⟩
  rw [hx] at hexec
  cases hexec

/-- What a retry prints, the call prints. -/
theorem calls_retry {g : Heap} {t : σ} (hg : Retry pg size pageAlign h s g t)
    (hc : (allocCalls pg fuel size pageAlign (g, t)).calls) :
    ∃ fuel, (allocCalls pg fuel size pageAlign (h, s)).calls := by
  induction hg generalizing fuel with
  | here => exact ⟨fuel, hc⟩
  | again _ hf he ih => exact ih ((calls_alloc_succ hf he).2 (.inr hc))

/-- **What `alloc` prints for.** -/
theorem calls_alloc :
    (∀ fuel, ¬ (allocCalls pg fuel size pageAlign (h, s)).calls) ↔ AllocQuiet pg size pageAlign h s := by
  constructor
  · intro hn g t hg hf
    have hquiet : ¬ (expandCalls pg (add64 (sub64 g.endAddress g.startAddress) (newSize size))
        (g, t)).calls := by
      intro hc
      have hone : (allocCalls pg (0 + 1) size pageAlign (g, t)).calls := by
        rcases he : expand pg (add64 (sub64 g.endAddress g.startAddress) (newSize size)) g t with _ | r
        · exact (calls_alloc_stuck hf he).2 hc
        · exact (calls_alloc_succ hf he).2 (.inl hc)
      obtain ⟨fuel, hc⟩ := calls_retry hg hone
      exact hn fuel hc
    rw [calls_expand] at hquiet
    dsimp only
    omega
  · intro hq fuel
    have hquiet := hq h s .here
    induction fuel generalizing h s with
    | zero => exact id
    | succ fuel ih =>
      rcases hf : findSmallestHole (newSize size) pageAlign h with _ | i
      · have hexp : ¬ (expandCalls pg (add64 (sub64 h.endAddress h.startAddress) (newSize size))
            (h, s)).calls := by
          rw [calls_expand]
          have := hquiet hf
          dsimp only at this
          omega
        rcases he : expand pg (add64 (sub64 h.endAddress h.startAddress) (newSize size)) h s with _ | r
        · rwa [calls_alloc_stuck hf he]
        · rw [calls_alloc_succ hf he]
          refine not_or.2 ⟨hexp, ih (fun g t hg => hq g t ((Retry.here.again hf he).trans hg)) ?_⟩
          exact hq _ _ (.again .here hf he)
      · unfold allocCalls
        unfold newSize at hf
        simp only [hf]
        exact Prog.not_calls_ret

/-- In a well-formed heap of less than 4 GiB a request without alignment expands once, so that the
condition is the one on this expansion. -/
theorem WellFormed.allocQuiet_iff {cs : List Chunk} (w : WellFormed h cs)
    (hlen : wanted size h < 2 ^ 32) (hstart : h.startAddress + 2 ^ 32 < 2 ^ 64) :
    AllocQuiet pg size 0 h s ↔ (findSmallestHole (newSize size) 0 h = none →
      h.startAddress + pageCeil (wanted size h) ≤ h.maxAddress) := by
  have hw : wanted size h = h.endAddress - h.startAddress + (size + 32) := rfl
  have hle := w.tiles.le
  have hlow := w.startLow
  have hceil := le_pageCeil (n := wanted size h) (.inl hlen)
  have hmask : pageCeil (wanted size h) ≤ 2 ^ 32 := by
    by_cases hp : wanted size h % 4096 = 0
    · unfold pageCeil
      rw [and_fff, if_neg (by omega)]
      omega
    · exact (pageCeil_le hp).1
  have hadd : add64 (sub64 h.endAddress h.startAddress) (newSize size) = wanted size h := by
    rw [newSize_of_lt (by omega), w.len]
    exact add64_of_lt (by omega)
  have hfits : add64 h.startAddress (pageCeil (wanted size h)) =
      h.startAddress + pageCeil (wanted size h) := add64_of_lt (by omega)
  have hgain : size + 32 ≤ gained size h ∧ h.endAddress + gained size h < 2 ^ 64 := by
    have hg : gained size h = pageCeil (wanted size h) - (h.endAddress - h.startAddress) := rfl
    omega
  constructor
  · intro hq hf
    have h1 := (hq h s .here hf).2
    rwa [hadd, hfits] at h1
  · intro hm g t hg hf
    -- the hole that the first expansion leaves has room for the block
    have hone : g = h := by
      induction hg with
      | here => rfl
      | @again g t r _ hf' hr ih =>
        obtain rfl := ih hf'
        obtain ⟨i, hi⟩ := (w.enlarged hceil hgain.2 hr).find size 0 (by omega) hgain.1
        cases hf.symm.trans hi
    subst hone
    dsimp only
    rw [hadd, hfits, w.len]
    exact ⟨by omega, hm hf⟩

end

/-! ## The condition -/

section
variable {σ : Type} {pg : KernelPages σ} {os : Os σ}

/-- A `free` that prints nothing returns. -/
theorem FreeQuiet.returns {p : Nat} (hq : FreeQuiet os.heap p) : Returns pg (.free p) os := by
  have hn : ¬ (freeCalls pg p (os.heap, os.pages)).calls := mt calls_free.1 (not_not_intro hq)
  have hret := Prog.eq_ret_of_exec (freeCalls_exec pg p os.heap os.pages) hn
  refine ⟨0 + 1, ?_⟩
  show (runCalls _ ((freeCalls pg p (os.heap, os.pages)).bind fun _ x => .ret 0 x) os).result.isSome = true
  rw [hret]
  rfl

theorem body_free {fuel p : Nat} {x : Heap × σ} :
    (body pg fuel (.free p) x).calls ↔ (freeCalls pg p x).calls := by
  unfold body
  rw [Prog.calls_bind_of_exec (freeCalls_exec pg p x.1 x.2)]
  exact or_iff_left Prog.not_calls_ret

/-- **The heap is entered once, and `free` returns, if and only if nothing is printed**, for a monitor
that nobody owns. -/
theorem heap_reentry_iff (hreg : os.monitorLock ≠ -1) (hfree : os.head = 0) :
    (∀ p, NotReentered pg (.free p) os ∧ Returns pg (.free p) os ↔ FreeQuiet os.heap p) ∧
      ∀ size pageAlign, NotReentered pg (.alloc size pageAlign) os ↔
        os.masterLock = true ∨ AllocQuiet pg size pageAlign os.heap os.pages := by
  refine ⟨fun p => ⟨fun ⟨hn, fuel, hr⟩ => ?_, fun hq => ⟨?_, hq.returns⟩⟩, fun size pageAlign => ?_⟩
  · -- with `master_lock` taken a call that prints does not return
    refine Decidable.byContradiction fun hq => ?_
    have hc : ∀ n, (body pg n (.free p) (os.heap, os.pages)).calls :=
      fun n => body_free.2 (calls_free.2 hq)
    rcases (notReentered_iff hreg hfree).1 hn with hm | hn
    · cases fuel with
      | zero => cases hr
      | succ fuel =>
        rw [heapCall_stuck hreg hm (hc fuel)] at hr
        cases hr
    · exact hn 0 (hc 0)
  · refine (notReentered_iff hreg hfree).2 (.inr fun n hc => ?_)
    exact calls_free.1 (body_free.1 hc) hq
  · rw [notReentered_iff hreg hfree]
    exact or_congr Iff.rfl calls_alloc

end

/-- `kfree` of the first of two blocks, while nobody owns the monitor. -/
theorem heap_reentry_first :
    ∃ s, runList exec [.alloc 100 0, .alloc 100 0] sys0 = some s ∧
      NotReentered bumpPages (.free 0xC0019010) ⟨s.heap, s.pages, 0, 0, false, 1⟩ ∧
      Returns bumpPages (.free 0xC0019010) ⟨s.heap, s.pages, 0, 0, false, 1⟩ := by
  have hrun : (runList exec [.alloc 100 0, .alloc 100 0] sys0).map
      (fun s => decide (FreeQuiet s.heap 0xC0019010)) = some true := by
    decide +kernel
  obtain ⟨s, hs, hq⟩ := Option.map_eq_some_iff.1 hrun
  have hreg : (0 : Int) ≠ -1 := by decide
  exact ⟨s, hs, ((heap_reentry_iff hreg rfl).1 0xC0019010).2 (of_decide_eq_true hq)⟩

/-- **The only block is freed.** Its hole ends the heap, `contract` prints, and `lock` allocates
while `free` is in the middle of its work. -/
theorem heap_reentered :
    ∃ s, Reach Init (Step bumpPages) s ∧ (∃ b ∈ s.live, b.p = 0xC0019010) ∧
      (1, Call.alloc 16 0) ∈
        (heapCall bumpPages 2 0 (.free 0xC0019010) ⟨s.heap, s.pages, 0, 0, false, 1⟩).started ∧
      ¬ NotReentered bumpPages (.free 0xC0019010) ⟨s.heap, s.pages, 0, 0, false, 1⟩ := by
  have hrun : (runList exec [.alloc 100 0] sys0).map
      (fun s => (s.live, decide (FreeQuiet s.heap 0xC0019010))) =
      some ([⟨0xC0019010, 100⟩], false) := by
    decide
  obtain ⟨s, hs, h⟩ := Option.map_eq_some_iff.1 hrun
  simp only [Prod.mk.injEq, decide_eq_false_iff_not] at h
  obtain ⟨hlive, hq⟩ := h
  have hc : (1, Call.alloc 16 0) ∈
      (heapCall bumpPages 2 0 (.free 0xC0019010) ⟨s.heap, s.pages, 0, 0, false, 1⟩).started :=
    calls_started (show (0 : Int) ≠ -1 by decide) rfl rfl (body_free.2 (calls_free.2 hq))
  exact ⟨s, .of_list (fun _ _ _ => exec_step) (.start init_sys0) hs,
    ⟨⟨0xC0019010, 100⟩, by rw [hlive]; simp, rfl⟩, hc, fun hn => absurd (hn 2 _ hc) (by decide)⟩

end Kheap
