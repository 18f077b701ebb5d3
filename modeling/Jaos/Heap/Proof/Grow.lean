import Jaos.Heap.Proof.Alloc

/-!
# Expanding a well-formed heap

`expand` moves the end of the heap and `growHole` gives the gained space to the endmost hole of the
index, or makes a hole of it when the index is empty. That is right only if this hole is the last
chunk (`GrowOk`): otherwise it is stretched over the blocks behind it.
-/

namespace Kheap

open Lib OrderedArray

theorem pageCeil_eq {n : Nat} (h : n < 2 ^ 32) : pageCeil n = (n + 4095) / 4096 * 4096 := by
  unfold pageCeil
  rw [and_fff, and_fffff000]
  split
  · rw [add64_of_lt (by omega)]
    omega
  · omega

/-! ## The endmost header -/

theorem endmostFrom_some {index : OrderedArray Nat} {k i j : Nat} {idx : Option Nat} {value : Nat}
    (hk : i + k = index.size) (hidx : ∀ j, idx = some j → j < index.size)
    (h : endmostFrom index k i idx value = some j) : j < index.size := by
  induction k generalizing i idx value with
  | zero => exact hidx j h
  | succ k ih =>
    unfold endmostFrom at h
    dsimp only at h
    split at h
    · exact ih (by omega) (fun j hj => by cases hj; omega) h
    · exact ih (by omega) hidx h

theorem endmostFrom_none {index : OrderedArray Nat} {k i : Nat} {idx : Option Nat} {value : Nat}
    (h : endmostFrom index k i idx value = none) :
    idx = none ∧ ∀ j, i ≤ j → j < i + k → lookupOrderedArray j index ≤ value := by
  induction k generalizing i idx value with
  | zero => exact ⟨h, fun j _ _ => by omega⟩
  | succ k ih =>
    unfold endmostFrom at h
    dsimp only at h
    split at h
    · exact absurd (ih h).1 (by simp)
    · rename_i hle
      refine ⟨(ih h).1, fun j h1 h2 => ?_⟩
      rcases Nat.eq_or_lt_of_le h1 with rfl | h1
      · omega
      · exact (ih h).2 j h1 (by omega)

theorem endmost_lt {index : OrderedArray Nat} {i : Nat} (h : endmost index = some i) :
    i < index.size :=
  endmostFrom_some (by omega) (fun _ hj => by cases hj) h

/-- Only an index without a header above address 0 has no endmost one. -/
theorem endmost_none {index : OrderedArray Nat} (h : endmost index = none) :
    ∀ j < index.size, index.array j = 0 := by
  intro j hj
  have := (endmostFrom_none h).2 j (Nat.zero_le j) (by omega)
  rw [lookup_eq hj] at this
  omega

theorem endmostFrom_max {index : OrderedArray Nat} {k i j : Nat} {idx : Option Nat} {value : Nat}
    (hidx : ∀ j, idx = some j → lookupOrderedArray j index = value)
    (h : endmostFrom index k i idx value = some j) :
    value ≤ lookupOrderedArray j index ∧
      ∀ l, i ≤ l → l < i + k → lookupOrderedArray l index ≤ lookupOrderedArray j index := by
  induction k generalizing i idx value with
  | zero => exact ⟨Nat.le_of_eq (hidx j h).symm, fun l _ _ => by omega⟩
  | succ k ih =>
    unfold endmostFrom at h
    dsimp only at h
    have step : ∀ v, v ≤ lookupOrderedArray j index →
        (∀ l, i + 1 ≤ l → l < i + 1 + k → lookupOrderedArray l index ≤ lookupOrderedArray j index) →
        lookupOrderedArray i index ≤ v → ∀ l, i ≤ l → l < i + (k + 1) →
          lookupOrderedArray l index ≤ lookupOrderedArray j index := by
      intro v hv hrest hi l h1 h2
      rcases Nat.eq_or_lt_of_le h1 with rfl | h1
      · omega
      · exact hrest l h1 (by omega)
    split at h
    · obtain ⟨hv, hrest⟩ := ih (fun j hj => by cases hj; rfl) h
      exact ⟨by omega, step _ hv hrest (Nat.le_refl _)⟩
    · obtain ⟨hv, hrest⟩ := ih hidx h
      exact ⟨hv, step _ hv hrest (by omega)⟩

/-- The endmost header is above all the others. -/
theorem endmost_max {index : OrderedArray Nat} {i : Nat} (h : endmost index = some i) :
    ∀ j < index.size, index.array j ≤ index.array i := by
  intro j hj
  have := (endmostFrom_max (fun _ hj => by cases hj) h).2 j (Nat.zero_le j) (by omega)
  rwa [lookup_eq hj, lookup_eq (endmost_lt h)] at this

/-- Headers lie above address 0, so an index without an endmost one is empty. -/
theorem Indexed.no_endmost {h : Heap} {cs : List Chunk} (w : Indexed h cs)
    (he : endmost h.index = none) : h.index.size = 0 := by
  refine Nat.eq_zero_of_not_pos fun hpos => ?_
  obtain ⟨c, hc, -, ha⟩ := w.slot hpos
  have := (w.chunk_lt hc).1
  rw [ha, endmost_none he 0 hpos] at this
  omega

/-- The endmost hole of the index, if there is one, ends the heap. -/
def GrowOk (h : Heap) : Prop :=
  ∀ i, endmost h.index = some i → h.index.array i + sizeAt h.mem (h.index.array i) = h.endAddress

instance (h : Heap) : Decidable (GrowOk h) :=
  match he : endmost h.index with
  | none => .isTrue fun i hi => by rw [he] at hi; cases hi
  | some i =>
    if hs : h.index.array i + sizeAt h.mem (h.index.array i) = h.endAddress then
      .isTrue fun j hj => by rw [he] at hj; cases hj; exact hs
    else .isFalse fun hg => hs (hg i he)

/-! ## `expand` -/

/-- What `expand` does to the heap itself. -/
theorem expand_some {σ : Type} {pg : KernelPages σ} {n : Nat} {h : Heap} {s : σ} {r : Heap × σ}
    (he : expand pg n h s = some r) :
    r.1.mem = h.mem ∧ r.1.index = h.index ∧ r.1.startAddress = h.startAddress ∧
      r.1.maxAddress = h.maxAddress ∧ r.1.endAddress = add64 h.startAddress (pageCeil n) := by
  unfold expand putsIf puts at he
  obtain ⟨x, -, rfl⟩ := Option.map_eq_some_iff.1 he
  dsimp only
  split <;> split <;> exact ⟨rfl, rfl, rfl, rfl, rfl⟩

/-! ## `growHole` -/

section
variable {h g : Heap} {cs : List Chunk} {len gain : Nat}

/-- **An expansion keeps the heap well formed** when the endmost hole ends the heap. `g` is the
heap after `expand`. -/
theorem Wf.grow (w : Wf h cs) (hok : GrowOk h) (hmem : g.mem = h.mem) (hindex : g.index = h.index)
    (hstart : g.startAddress = h.startAddress) (hend : g.endAddress = h.endAddress + gain)
    (hlen : h.endAddress = h.startAddress + len) (hgain : 32 ≤ gain) (hpage : gain % 4096 = 0)
    (hmax : len + gain ≤ 2 ^ 32) :
    ∃ l c, Wf (growHole h.endAddress len g) (l ++ [c]) ∧ c.tag = false ∧ gain ≤ c.size ∧
      ((growHole h.endAddress len g).index.toList = [c.addr] ∧ cs = l ∧ holes cs = [] ∨
        (growHole h.endAddress len g).index = h.index ∧
          ∃ n, cs = l ++ [⟨c.addr, n, false⟩] ∧ c.size = n + gain) ∧
      Mem.Same h.mem (growHole h.endAddress len g).mem 0 c.addr := by
  have hlow := w.startHigh
  have hgained : sub64 (sub64 g.endAddress g.startAddress) len = gain := by
    rw [hend, hstart, hlen]
    simp (disch := omega) only [sub64_of_le]
    omega
  unfold growHole
  simp only [hgained, hindex]
  cases he : endmost h.index with
  | none =>
    have hsize : h.index.size = 0 := w.indexed.no_endmost he
    have hnil : holes cs = [] := by
      rw [List.eq_nil_iff_length_eq_zero, ← w.indexed.size_eq, hsize]
    have hempty : h.index.toList = [] :=
      List.eq_nil_of_length_eq_zero (by rw [length_toList, hsize])
    have hfoot : sub64 (add64 h.endAddress gain) sizeofFooter = h.endAddress + gain - 16 := by
      simp (disch := omega) only [add64_of_lt, sub64_of_le, sizeofFooter]
    simp only [hfoot, ← writeTags_hole]
    refine ⟨cs, ⟨h.endAddress, gain, false⟩, ?_, rfl, Nat.le_refl _, .inl ⟨?_, rfl, hnil⟩, ?_⟩
    · have ht : Tiles h.endAddress (h.endAddress + gain) [(⟨h.endAddress, gain, false⟩ : Chunk)] :=
        ⟨rfl, rfl⟩
      have hm : ∀ c ∈ [(⟨h.endAddress, gain, false⟩ : Chunk)], 32 ≤ c.size := by simpa using hgain
      have tags := tagsOk_writeTags h.mem (c := ⟨h.endAddress, gain, false⟩) hgain
        (by unfold Seg.fin; dsimp only; omega)
      refine Wf.replaceEnd (P := []) (by rwa [List.append_nil]) w.tiles ?_ hm ?_ ?_ ?_ ?_ ?_ ?_ ?_ ?_
      · simpa only [insertIndex_endAddress, onMem_endAddress, hend] using ht
      · simp only [insertIndex_mem, onMem_mem, hmem]
        exact same_writeTags _ (by dsimp only; omega) (.inl (Nat.le_refl _))
      · simpa [hmem] using tags.1
      · simp
      · rw [insertIndex_index, onMem_index, hindex, holes_append, hnil]
        refine (perm_insert _ _ (by omega)).trans ?_
        rw [hempty]
        exact .refl _
      · simpa using hstart
      · have := w.endPage
        simp only [insertIndex_endAddress, onMem_endAddress, hend]
        omega
      · have := w.minLength
        simp only [insertIndex_endAddress, onMem_endAddress, hend]
        omega
      · simp only [insertIndex_endAddress, onMem_endAddress, hend]
        omega
    · rw [insertIndex_index, onMem_index, hindex, toList_insert _ _ (by omega),
        hempty]
      simp
    · simp only [insertIndex_mem, onMem_mem, hmem]
      exact same_writeTags _ (by dsimp only; omega) (.inl (Nat.le_refl _))
  | some i =>
    have hi := endmost_lt he
    obtain ⟨c, hc, hhole, ha⟩ := w.indexed.slot hi
    have hsz : sizeAt h.mem c.addr = c.size := (w.header c hc).size
    have hlast := hok i he
    rw [← ha, hsz] at hlast
    obtain ⟨l, rfl⟩ := w.tiles.last_of_fin w.indexed.pos hc hlast
    have hc1 := w.chunk_lt hc
    have hmin := w.min c hc
    have hnew : add64 c.size gain = c.size + gain := add64_of_lt (by omega)
    have hfoot : sub64 (add64 c.addr (c.size + gain)) sizeofFooter =
        c.addr + (c.size + gain) - 16 := by
      simp (disch := omega) only [add64_of_lt, sub64_of_le, sizeofFooter]
    simp only [lookup_eq hi, ← ha, hmem, hsz, hnew, hfoot]
    obtain ⟨m, hl, hm⟩ := tiles_append.1 w.tiles
    obtain ⟨rfl, -⟩ := hm
    have hlow : Mem.Same h.mem (writeFooter (c.addr + (c.size + gain) - 16) c.addr
        (setSize c.addr (c.size + gain) h.mem)) 0 c.addr :=
      (same_setSize _ _ (.inl (Nat.le_refl _))).trans (same_writeFooter _ _ (.inl (by omega)))
    have hhead : HeaderOk (writeFooter (c.addr + (c.size + gain) - 16) c.addr
        (setSize c.addr (c.size + gain) h.mem)) ⟨c.addr, c.size + gain, false⟩ := by
      have hold := w.header c hc
      rw [show c = ⟨c.addr, c.size, false⟩ by rw [← hhole]] at hold
      refine HeaderOk.same (m := setSize c.addr (c.size + gain) h.mem) ⟨?_, ?_, ?_⟩
        (same_writeFooter _ _ (.inl (show c.addr + 16 ≤ _ by omega)))
      · rw [magicAt_setSize]
        exact hold.magic
      · rw [isHoleAt_setSize]
        exact hold.isHole
      · exact sizeAt_setSize _ _ (show c.size + gain < 2 ^ 64 by omega)
    refine ⟨l, ⟨c.addr, c.size + gain, false⟩, ?_, rfl, Nat.le_add_left gain c.size,
      .inr ⟨by simpa using hindex, c.size, by rw [← hhole], rfl⟩, by simpa [hmem] using hlow⟩
    refine Wf.replaceEnd w hl ?_ ?_ ?_ ?_ ?_ ?_ ?_ ?_ ?_ ?_
    · refine ⟨rfl, ?_⟩
      simp only [onMem_endAddress, hend, tiles_nil, Seg.fin]
      omega
    · simp only [List.mem_singleton, forall_eq]
      omega
    · simpa only [onMem_mem, hmem] using hlow
    · simpa only [onMem_mem, hmem, List.mem_singleton, forall_eq] using hhead
    · simp
    · have := w.index
      rw [holes_append, holes_cons_hole hhole] at this
      simpa only [onMem_index, hindex, holes_append, holes_cons_hole] using this
    · simpa using hstart
    · have := w.endPage
      simp only [onMem_endAddress, hend]
      omega
    · have := w.minLength
      simp only [onMem_endAddress, hend]
      omega
    · simp only [onMem_endAddress, hend]
      omega

end

end Kheap
