import Jaos.Heap.WellFormed

/-!
# What `free` removes from the index

`free_index` follows the index through one call of `free`. The right neighbour is looked for there
and removed; if it is not found, the loop has run to the end and the removal at that place drops the
last entry, whatever it is. `free_keeps_holes_iff` says exactly when a hole that has nothing to do
with the block is lost that way. Only the headers are needed for this: the index may lack holes, and
no footer need be right.
-/

namespace Kheap

open Lib OrderedArray

section
variable (h : Heap) (p : Nat)

/-- The memory in which `free(p)` looks for the right neighbour: the block is marked as a hole and
merged to the left. -/
def unifiedMem : Mem :=
  let m := setIsHole (p - 16) 1 h.mem
  match leftHeader h p with
  | none => m
  | some a =>
    let m' := setHeader (blockEnd h p - 16) a m
    setSize a (add64 (sizeAt m' a) (sizeAt m (p - 16))) m'

/-- The test of "unify right" passes. -/
def takesRight : Prop :=
  magicAt (unifiedMem h p) (blockEnd h p) = heapMagic ∧
    isHoleAt (unifiedMem h p) (blockEnd h p) ≠ 0

instance : Decidable (takesRight h p) := by
  unfold takesRight
  infer_instance

/-- The index once "unify right" is done. -/
def unifiedIndex : OrderedArray Nat :=
  if takesRight h p then removeOrderedArray (indexOf (blockEnd h p) h.index) h.index else h.index

end

/-! ## The index through the call -/

theorem indexOf_not_mem {a : Nat} {index : OrderedArray Nat} (h : a ∉ index.toList) :
    indexOf a index = index.size := by
  have hle := (scan_le (fun i => decide (lookupOrderedArray i index ≠ a)) index.size 0).2
  refine Nat.le_antisymm (by unfold indexOf; omega) (Nat.le_of_not_lt fun hlt => h ?_)
  have hstop := scan_stop (fun i => decide (lookupOrderedArray i index ≠ a)) (k := index.size)
    (i := 0) (by unfold indexOf at hlt; omega)
  rw [decide_eq_false_iff_not, Decidable.not_not] at hstop
  exact mem_toList.2 ⟨_, hlt, (lookup_eq hlt).symm.trans hstop⟩

theorem freeRight_index (header footer : Nat) (h : Heap) :
    (freeRight header footer h).2.index =
      if magicAt h.mem (add64 footer sizeofFooter) = heapMagic ∧
          isHoleAt h.mem (add64 footer sizeofFooter) ≠ 0 then
        removeOrderedArray (indexOf (add64 footer sizeofFooter) h.index) h.index
      else h.index := by
  unfold freeRight
  dsimp only
  split
  · dsimp only
    rw [removeIndex_index]
    unfold putsIf puts
    split <;> rfl
  · rfl

/-- The footer that "unify right" leaves alone when its test fails. -/
theorem freeRight_footer (header footer : Nat) (h : Heap) :
    (freeRight header footer h).2.endAddress = h.endAddress ∧
      ((magicAt h.mem (add64 footer sizeofFooter) = heapMagic ∧
          isHoleAt h.mem (add64 footer sizeofFooter) ≠ 0) ∨
        (freeRight header footer h).1 = footer) := by
  unfold freeRight
  dsimp only
  split
  · rename_i ht
    refine ⟨?_, .inl ht⟩
    unfold putsIf puts
    split <;> rfl
  · exact ⟨rfl, .inr rfl⟩

theorem freeContract_index {σ : Type} (pg : KernelPages σ) (header footer testHeader : Nat) (h : Heap)
    (s : σ) :
    (freeContract pg header footer testHeader h s).1.index = h.index ∨
      indexOf testHeader h.index < h.index.size ∧
        (freeContract pg header footer testHeader h s).1.index =
          removeOrderedArray (indexOf testHeader h.index) h.index := by
  unfold freeContract
  dsimp only
  obtain ⟨k, t, hk, -, hidx, -, -⟩ := contract_eq pg (sub64 header h.startAddress) h s
  rw [hk]
  dsimp only
  split
  · split
    · exact .inl hidx
    · dsimp only
      rw [hidx]
      split
      · rename_i hfound
        exact .inr ⟨hfound, by rw [removeIndex_index, hidx]⟩
      · exact .inl hidx
  · exact .inl rfl

/-- `freeMerge` in its steps. -/
theorem freeMerge_eq {σ : Type} {pg : KernelPages σ} {header footer start footer' : Nat} {add : Bool}
    {h g k q : Heap} {s u : σ} (hl : freeLeft header footer h = (start, add, g))
    (hr : freeRight start footer g = (footer', k))
    (hc : freeContract pg start footer' (add64 footer sizeofFooter) k s = (q, u)) :
    freeMerge pg header footer h s = (if add then insertIndex start q else q, u) := by
  unfold freeMerge
  simp only [hl, hr, hc]

section
variable {σ : Type} {h : Heap} {l r : List Chunk} {c : Chunk}

/-- Unify left, whatever its test has found. -/
theorem Layout.freeLeft_eq (w : Layout h (l ++ c :: r)) {g : Heap}
    (hmem : g.mem = setIsHole c.addr 1 h.mem) :
    freeLeft c.addr (c.fin - 16) g =
      (mergedStart h (c.addr + 16), (leftHeader h (c.addr + 16)).isNone,
        onMem (fun _ => unifiedMem h (c.addr + 16)) g) := by
  have hlt := w.chunk_lt (c := c) (by simp)
  have htest : sub64 c.addr sizeofFooter = c.addr - 16 :=
    sub64_of_le (show 16 ≤ c.addr by omega) (by omega)
  have hend := w.blockEnd_eq
  unfold freeLeft mergedStart unifiedMem
  simp only [htest, hmem, hend, Nat.add_sub_cancel]
  unfold leftHeader
  simp only [Nat.add_sub_cancel]
  split
  · simp [onMem, hmem]
  · simp [onMem, ← hmem]

/-- **The steps of `free`** on a block just marked: `k` is the heap once both neighbours have been
looked at, `q` the heap after the contraction. -/
theorem Layout.merge_steps (pg : KernelPages σ) (s : σ) (w : Layout h (l ++ c :: r)) {g : Heap}
    (hmem : g.mem = setIsHole c.addr 1 h.mem) (hindex : g.index = h.index)
    (hend : g.endAddress = h.endAddress) :
    ∃ f k q u, freeRight (mergedStart h (c.addr + 16)) (c.fin - 16)
        (onMem (fun _ => unifiedMem h (c.addr + 16)) g) = (f, k) ∧
      k.index = unifiedIndex h (c.addr + 16) ∧ k.endAddress = h.endAddress ∧
      (takesRight h (c.addr + 16) ∨ f = c.fin - 16) ∧
      freeContract pg (mergedStart h (c.addr + 16)) f c.fin k s = (q, u) ∧
      freeMerge pg c.addr (c.fin - 16) g s =
        (if leftHeader h (c.addr + 16) = none then insertIndex c.addr q else q, u) := by
  have hlt := w.chunk_lt (c := c) (by simp)
  have hmin := w.min c (by simp)
  have hfin : c.fin = c.addr + c.size := rfl
  have htest : add64 (c.fin - 16) sizeofFooter = c.fin := by
    dsimp only [sizeofFooter]
    rw [add64_of_lt (by omega)]
    omega
  rcases hk : freeRight (mergedStart h (c.addr + 16)) (c.fin - 16)
    (onMem (fun _ => unifiedMem h (c.addr + 16)) g) with ⟨f, k⟩
  rcases hq : freeContract pg (mergedStart h (c.addr + 16)) f c.fin k s with ⟨q, u⟩
  have hright := freeRight_index (mergedStart h (c.addr + 16)) (c.fin - 16)
    (onMem (fun _ => unifiedMem h (c.addr + 16)) g)
  rw [htest, hk, onMem_mem, onMem_index, hindex] at hright
  have htake : takesRight h (c.addr + 16) ↔
      magicAt (unifiedMem h (c.addr + 16)) c.fin = heapMagic ∧
        isHoleAt (unifiedMem h (c.addr + 16)) c.fin ≠ 0 := by
    unfold takesRight
    rw [w.blockEnd_eq]
  have hunified : k.index = unifiedIndex h (c.addr + 16) := by
    unfold unifiedIndex
    rw [hright, w.blockEnd_eq]
    by_cases ht : takesRight h (c.addr + 16)
    · rw [if_pos ht, if_pos (htake.1 ht)]
    · rw [if_neg ht, if_neg fun hn => ht (htake.2 hn)]
  have hfooter := freeRight_footer (mergedStart h (c.addr + 16)) (c.fin - 16)
    (onMem (fun _ => unifiedMem h (c.addr + 16)) g)
  rw [htest, hk, onMem_mem, ← htake] at hfooter
  refine ⟨f, k, q, u, rfl, hunified, hfooter.1.trans hend, hfooter.2, hq, ?_⟩
  rw [← htest] at hq
  rw [freeMerge_eq (w.freeLeft_eq hmem) hk hq]
  by_cases hn : leftHeader h (c.addr + 16) = none
  · have hstart : mergedStart h (c.addr + 16) = c.addr := by
      unfold mergedStart
      rw [hn]
      rfl
    rw [if_pos hn, if_pos (by rw [hn]; rfl), hstart]
  · rw [if_neg hn, if_neg (by rwa [Option.isNone_iff_eq_none])]

/-- **The index after `free`**: without the right neighbour, perhaps without another entry for the
same header, and with the hole if that was not merged to the left. -/
theorem Layout.free_index (pg : KernelPages σ) (s : σ) (w : Layout h (l ++ c :: r)) :
    ∃ idx lt, (idx = unifiedIndex h (c.addr + 16) ∨
        indexOf c.fin (unifiedIndex h (c.addr + 16)) < (unifiedIndex h (c.addr + 16)).size ∧
          idx = removeOrderedArray (indexOf c.fin (unifiedIndex h (c.addr + 16)))
            (unifiedIndex h (c.addr + 16))) ∧
      (free pg (c.addr + 16) h s).1.index =
        if leftHeader h (c.addr + 16) = none then insertOrderedArray lt c.addr idx else idx := by
  obtain ⟨g, hfree, hmem, hindex, -, hend⟩ := w.free_eq pg s
  obtain ⟨f, k, q, u, -, hunified, -, -, hq, hmerge⟩ := w.merge_steps pg s hmem hindex hend
  have hcon := freeContract_index pg (mergedStart h (c.addr + 16)) f c.fin k s
  rw [hq, hunified] at hcon
  refine ⟨q.index, headerTLessThan q.mem, hcon, ?_⟩
  rw [hfree, hmerge]
  split <;> rfl

/-! ## What is lost -/

/-- Every hole of the index that is not next to the block `c` is still there. -/
def KeepsHoles (h h' : Heap) (cs : List Chunk) (c : Chunk) : Prop :=
  ∀ d ∈ cs, d.tag = false → d.fin ≠ c.addr → d.addr ≠ c.fin →
    d.addr ∈ h.index.toList → d.addr ∈ h'.index.toList

/-- The right test fails or finds its header in the index, or the last entry of the index can be
spared: it is no hole away from the block, or it is there twice. -/
def LastSpared (h : Heap) (cs : List Chunk) (c : Chunk) : Prop :=
  takesRight h (c.addr + 16) → c.fin ∉ h.index.toList →
    ∀ d ∈ cs, d.tag = false → d.fin ≠ c.addr → d.addr ≠ c.fin →
      h.index.toList.getLast? = some d.addr → d.addr ∈ h.index.toList.dropLast

/-- The entries of `unifiedIndex` are entries of the index, and all but the right neighbour and
perhaps the last one are kept. -/
theorem Layout.unified_mem (w : Layout h (l ++ c :: r)) (hs : h.index.size < 2 ^ 64)
    (hpos : 0 < h.index.size) :
    (unifiedIndex h (c.addr + 16)).size ≤ h.index.size ∧
      ∀ x, x ≠ c.fin → (x ∈ (unifiedIndex h (c.addr + 16)).toList ↔
        x ∈ h.index.toList ∧ (takesRight h (c.addr + 16) → c.fin ∉ h.index.toList →
          x ∈ h.index.toList.dropLast)) := by
  have hdrop : ∀ x ∈ h.index.toList.dropLast, x ∈ h.index.toList := fun x hx =>
    List.dropLast_subset _ hx
  unfold unifiedIndex
  rw [w.blockEnd_eq]
  by_cases ht : takesRight h (c.addr + 16)
  · rw [if_pos ht]
    by_cases hin : c.fin ∈ h.index.toList
    · obtain ⟨hi, hslot⟩ := indexOf_spec (mem_toList.1 hin)
      refine ⟨remove_size_le hi hs, fun x hx => ?_⟩
      have hp := perm_remove hi hs
      rw [hslot] at hp
      rw [hp.mem_iff, List.mem_cons]
      exact ⟨fun h => ⟨.inr h, fun _ hn => absurd hin hn⟩, fun h => h.1.resolve_left hx⟩
    · rw [indexOf_not_mem hin]
      refine ⟨?_, fun x _ => ?_⟩
      · have : (removeOrderedArray h.index.size h.index).size = h.index.size - 1 := sub64_of_le hpos hs
        omega
      · rw [toList_remove_end hpos hs]
        exact ⟨fun h => ⟨hdrop x h, fun _ _ => h⟩, fun h => h.2 ht hin⟩
  · rw [if_neg ht]
    exact ⟨Nat.le_refl _, fun x _ => ⟨fun h => ⟨h, fun hn => absurd hn ht⟩, fun h => h.1⟩⟩

/-- The entries after `free`, apart from the block and what stood behind it. -/
theorem Layout.free_mem (pg : KernelPages σ) (s : σ) (w : Layout h (l ++ c :: r))
    (hs : h.index.size + 1 < 2 ^ 64) (hpos : 0 < h.index.size) {x : Nat} (hx : x ≠ c.fin)
    (hxc : x ≠ c.addr) :
    x ∈ (free pg (c.addr + 16) h s).1.index.toList ↔
      x ∈ h.index.toList ∧ (takesRight h (c.addr + 16) → c.fin ∉ h.index.toList →
        x ∈ h.index.toList.dropLast) := by
  obtain ⟨hsize, hmem⟩ := w.unified_mem (by omega) hpos
  obtain ⟨idx, lt, hidx, hfree⟩ := w.free_index pg s
  rw [← hmem x hx]
  have hone : idx.size ≤ h.index.size ∧
      (x ∈ idx.toList ↔ x ∈ (unifiedIndex h (c.addr + 16)).toList) := by
    rcases hidx with he | ⟨hi, he⟩
    · rw [he]
      exact ⟨hsize, Iff.rfl⟩
    · rw [he]
      refine ⟨Nat.le_trans (remove_size_le hi (by omega)) hsize, ?_⟩
      have hp := perm_remove hi (show (unifiedIndex h (c.addr + 16)).size < 2 ^ 64 by omega)
      have hslot : (unifiedIndex h (c.addr + 16)).array
          (indexOf c.fin (unifiedIndex h (c.addr + 16))) = c.fin := by
        refine (indexOf_spec (mem_toList.1 ?_)).2
        refine Decidable.byContradiction fun hn => ?_
        rw [indexOf_not_mem hn] at hi
        omega
      rw [hslot] at hp
      rw [hp.mem_iff, List.mem_cons]
      exact ⟨.inr, fun h => h.resolve_left hx⟩
  rw [hfree, ← hone.2]
  split
  · rw [(perm_insert lt c.addr (by omega)).mem_iff, List.mem_cons]
    exact ⟨fun h => h.resolve_left hxc, .inr⟩
  · exact Iff.rfl

/-- **`free` keeps the holes away from the block if and only if `LastSpared` holds.** -/
theorem free_keeps_holes_iff (pg : KernelPages σ) (s : σ) (w : Layout h (l ++ c :: r))
    (hused : c.tag = true) (hs : h.index.size + 1 < 2 ^ 64) :
    KeepsHoles h (free pg (c.addr + 16) h s).1 (l ++ c :: r) c ↔ LastSpared h (l ++ c :: r) c := by
  have hne : ∀ d ∈ l ++ c :: r, d.tag = false → d.addr ≠ c.addr := by
    intro d hd ht he
    rw [w.eq_of_addr hd (by simp) he, hused] at ht
    cases ht
  constructor
  · intro keeps ht hin d hd htag hl hr hlast
    have hmem : d.addr ∈ h.index.toList := List.mem_of_getLast? hlast
    have hpos : 0 < h.index.size := by
      rw [← length_toList]
      exact List.length_pos_of_mem hmem
    exact ((w.free_mem pg s hs hpos hr (hne d hd htag)).1 (keeps d hd htag hl hr hmem)).2 ht hin
  · intro spared d hd htag hl hr hmem
    have hpos : 0 < h.index.size := by
      rw [← length_toList]
      exact List.length_pos_of_mem hmem
    refine (w.free_mem pg s hs hpos hr (hne d hd htag)).2 ⟨hmem, fun ht hin => ?_⟩
    by_cases hlast : h.index.toList.getLast? = some d.addr
    · exact spared ht hin d hd htag hl hr hlast
    · have hnil : h.index.toList ≠ [] := List.ne_nil_of_mem hmem
      rw [← List.dropLast_concat_getLast hnil] at hmem
      rcases List.mem_append.1 hmem with h | h
      · exact h
      · rw [List.mem_singleton] at h
        exact absurd (by rw [List.getLast?_eq_some_getLast hnil, h]) hlast

end

/-- The heap of `kheap_init` after `alloc(100)`, whose block is freed. -/
theorem free_keeps_holes_block :
    ∃ h, (alloc bumpPages 1 100 0 sys0.heap 0).map (fun r => r.2.1) = some h ∧
      KeepsHoles h (free bumpPages (0xC0019000 + 16) h 0).1
        [⟨0xC0019000, 132, true⟩, ⟨0xC0019084, 94076, false⟩] ⟨0xC0019000, 132, true⟩ := by
  have hf : findSmallestHole (100 + 32) 0 sys0.heap = some 0 := by decide
  have halloc := alloc_found bumpPages 0 0 (by decide) hf
  have w : Layout (allocFrom 100 0 0 sys0.heap).2
      ([] ++ ⟨0xC0019000, 132, true⟩ :: [⟨0xC0019084, 94076, false⟩]) := by decide
  have hs : (allocFrom 100 0 0 sys0.heap).2.index.size + 1 < 2 ^ 64 := by decide
  have hin : 0xC0019084 ∈ (allocFrom 100 0 0 sys0.heap).2.index.toList := by decide
  generalize allocFrom 100 0 0 sys0.heap = q at *
  exact ⟨q.2, congrArg (Option.map fun r => r.2.1) halloc,
    (free_keeps_holes_iff bumpPages 0 w rfl hs).2 fun _ h => absurd hin h⟩

/-- **The hole behind all the blocks is lost.** Of four blocks the second and the first are freed and
become one hole, whose footer still points to the second header; so the third, freed next, is merged
with that and gets no entry. The first hole is allocated again: the block there has the third as its
right neighbour, and freeing it drops the last entry of the index. -/
theorem free_loses_hole :
    ∃ s l c r, Reach Init (Step bumpPages) s ∧ Layout s.heap (l ++ c :: r) ∧ c.tag = true ∧
      (∃ b ∈ s.live, b.p = c.addr + 16) ∧
      ¬ KeepsHoles s.heap (free bumpPages (c.addr + 16) s.heap s.pages).1 (l ++ c :: r) c := by
  have hrun : (runList exec [.alloc 100 0, .alloc 100 0, .alloc 100 0, .alloc 100 0,
      .free 0xC0019094, .free 0xC0019010, .free 0xC0019118, .alloc 232 0] sys0).map (fun s =>
        (decide (Layout s.heap ([] ++ ⟨0xC0019000, 264, true⟩ :: [⟨0xC0019108, 132, false⟩,
            ⟨0xC001918C, 132, true⟩, ⟨0xC0019210, 93680, false⟩])),
          s.live, s.heap.index.toList,
          (free bumpPages (0xC0019000 + 16) s.heap s.pages).1.index.toList)) =
      some (true, [⟨0xC0019010, 232⟩, ⟨0xC001919C, 100⟩], [0xC0019210], [0xC0019000]) := by
    decide +kernel
  obtain ⟨s, hs, h⟩ := Option.map_eq_some_iff.1 hrun
  simp only [Prod.mk.injEq, decide_eq_true_eq] at h
  obtain ⟨w, hlive, hin, hout⟩ := h
  obtain ⟨c, hc, ha⟩ : ∃ c : Chunk, c = ⟨0xC0019000, 264, true⟩ ∧ c.addr = 0xC0019000 :=
    ⟨_, rfl, rfl⟩
  rw [← hc] at w
  rw [← ha] at hout
  refine ⟨s, [], c, _, .of_list (fun _ _ _ => exec_step) (.start init_sys0) hs, w, by rw [hc],
    ⟨⟨0xC0019010, 232⟩, by rw [hlive]; simp, by rw [ha]⟩, fun keeps => ?_⟩
  have hlost := keeps ⟨0xC0019210, 93680, false⟩ (by simp) rfl (by rw [ha]; decide)
    (by rw [hc]; decide) (by rw [hin]; simp)
  rw [hout, List.mem_singleton, ha] at hlost
  exact absurd hlost (by decide)

end Kheap
