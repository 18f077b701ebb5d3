import Jaos.Heap.FreeTags

/-!
# `free` undoes `alloc`

`free_undoes_alloc`: a block taken from a hole that does not end the heap and freed at once gives
the hole back. The chunk below the hole is in use, so nothing is merged there, and behind the block
comes the rest of the hole, which the merge takes in again and removes from the index, or the chunk
in use that followed the hole (`WellFormed.taken_end`).
-/

namespace Kheap

open Lib OrderedArray

section
variable {h h' : Heap} {l r : List Chunk} {c : Chunk} {i n : Nat}

/-- The merged hole of a block just taken ends where the hole taken did. -/
theorem WellFormed.taken_end (w : WellFormed h (l ++ c :: r)) (hc : c.tag = false)
    (hend : c.fin ≠ h.endAddress) (hrest : c.fin = c.addr + n ∨ c.addr + n + 32 ≤ c.fin)
    (g : Carved h h' l r c ⟨c.addr, n, true⟩ [] (gap (c.addr + n) c.fin)) :
    gap (c.addr + n) c.fin ++ r ≠ [] ∧ mergedEnd h' (c.addr + 16) = c.fin := by
  have w' : WellFormed h' (l ++ ⟨c.addr, n, true⟩ :: (gap (c.addr + n) c.fin ++ r)) := g.wellFormed
  have hnil : r ≠ [] := by
    rintro rfl
    exact hend w.tiles.fin_last
  have hne : gap (c.addr + n) c.fin ++ r ≠ [] := fun hx => hnil (List.append_eq_nil_iff.1 hx).2
  refine ⟨hne, ?_⟩
  have hblock : blockEnd h' (c.addr + 16) = c.addr + n := w'.blockEnd_eq
  have hiff := w'.rightHole_iff fun hr => absurd hr hne
  unfold mergedEnd
  rw [hblock]
  rcases hrest with he | hlt
  · -- the hole was absorbed, the chunk behind it is in use
    have hgap : gap (c.addr + n) c.fin = [] := if_pos he.symm
    rw [hgap, List.nil_append] at hiff
    rw [if_neg, he]
    intro hright
    obtain ⟨d, R, rfl, ht⟩ := hiff.1 hright
    exact (w.around hc).2 d (by simp) ht w.tiles.next
  · have hgap : gap (c.addr + n) c.fin = [⟨c.addr + n, c.fin - (c.addr + n), false⟩] :=
      if_neg (by omega)
    rw [hgap] at hiff w'
    have hsize : sizeAt h'.mem (c.addr + n) = c.fin - (c.addr + n) :=
      (w'.header ⟨c.addr + n, c.fin - (c.addr + n), false⟩ (by simp)).size
    rw [if_pos (hiff.2 ⟨_, _, rfl, rfl⟩), hsize]
    omega

/-- The left test finds no hole below a block just taken. -/
theorem WellFormed.taken_left (w : WellFormed h (l ++ c :: r)) (hc : c.tag = false)
    (hbelow : magicAt h.mem (h.startAddress - 16) ≠ heapMagic) {rear : List Chunk}
    (g : Carved h h' l r c ⟨c.addr, n, true⟩ [] rear) : leftHeader h' (c.addr + 16) = none := by
  have w' : WellFormed h' (l ++ ⟨c.addr, n, true⟩ :: (rear ++ r)) := g.wellFormed
  have hlow := w.startLow
  refine Option.eq_none_iff_forall_ne_some.2 fun a ha => ?_
  have hfirst : c.addr = h'.startAddress → leftHeader h' (c.addr + 16) = none := by
    intro hs
    rw [g.start] at hs
    have hmagic : magicAt (setIsHole c.addr 1 h'.mem) (c.addr - 16) ≠ heapMagic := by
      rw [magicAt_same (same_setIsHole _ _ (.inl (by omega))),
        magicAt_same ((g.same 0 c.addr (.inl (Nat.le_refl _))).mono (by omega) (by omega)), hs]
      exact hbelow
    unfold leftHeader
    simp only [Nat.add_sub_cancel]
    exact if_neg fun h => hmagic h.1
  obtain ⟨L, d, rfl, ht, -⟩ := w'.left_chunk hfirst a ha
  exact (w.around hc).1 d (by simp) ht (w.split rfl).1.fin_last

/-- `k` is the heap `h` but for the bytes of the hole `[a, e)`, and its index lists the same holes. -/
structure Undone (h k : Heap) (a e : Nat) : Prop where
  start : k.startAddress = h.startAddress
  endEq : k.endAddress = h.endAddress
  entries : k.index.toList.Perm h.index.toList
  sizes : ∀ x ∈ h.index.toList, sizeAt k.mem x = sizeAt h.mem x
  bytes : ∀ x, x < a ∨ e ≤ x → k.mem x = h.mem x

/-- The block that was cut out of the hole `c` is freed. -/
theorem WellFormed.undo {σ : Type} (pg : KernelPages σ) (s : σ) (w : WellFormed h (l ++ c :: r))
    (hc : c.tag = false) (hend : c.fin ≠ h.endAddress)
    (hbelow : magicAt h.mem (h.startAddress - 16) ≠ heapMagic)
    (hrest : c.fin = c.addr + n ∨ c.addr + n + 32 ≤ c.fin)
    (g : Carved h h' l r c ⟨c.addr, n, true⟩ [] (gap (c.addr + n) c.fin)) :
    Undone h (free pg (c.addr + 16) h' s).1 c.addr c.fin := by
  have w' : WellFormed h' (l ++ ⟨c.addr, n, true⟩ :: (gap (c.addr + n) c.fin ++ r)) := g.wellFormed
  obtain ⟨hnil, hme⟩ := w.taken_end hc hend hrest g
  have hleft := w.taken_left hc hbelow g
  have hstart : mergedStart h' (c.addr + 16) = c.addr := by
    unfold mergedStart
    rw [hleft]
    rfl
  have hne : mergedEnd h' (c.addr + 16) ≠ h'.endAddress := by
    rw [hme, g.endEq]
    exact hend
  obtain ⟨L, R, m⟩ := w'.toIndexed.merged pg s rfl (by rw [hleft]; nofun) (fun hr => absurd hr hnil)
    fun he => absurd he hne
  dsimp only at m
  have hfe : finalEnd h' (c.addr + 16) = c.fin := (if_neg hne).trans hme
  have hL : l = L := by
    rcases m.left with ⟨-, hl⟩ | ⟨d, hs, -, -⟩
    · exact hl
    · rw [hleft] at hs
      cases hs
  have hR : R = r := by
    have htiles := m.tilesRight
    rw [hme] at htiles
    by_cases he : c.addr + n = c.fin
    · rw [show gap (c.addr + n) c.fin = [] from if_pos he, List.nil_append] at m
      rcases m.right with ⟨d, rfl, ht⟩ | hr
      · exact absurd w.tiles.next ((w.around hc).2 d (by simp) ht)
      · exact hr.symm
    · rw [show gap (c.addr + n) c.fin = [⟨c.addr + n, c.fin - (c.addr + n), false⟩] from
        if_neg he] at m
      rcases m.right with ⟨d, hr, -⟩ | hr
      · exact ((List.cons.inj hr).2).symm
      · rw [← hr] at htiles
        exact absurd htiles.1 he
  subst hL hR
  obtain ⟨-, hke, hhigh⟩ := m.ends.resolve_right fun h => hne h.1
  have wk := m.indexed w'.toIndexed hne
  have hm : mergedHole h' (c.addr + 16) = c := by
    unfold mergedHole
    rw [hstart, hfe, show c.fin - c.addr = c.size by unfold Seg.fin; omega, ← hc]
  rw [hm] at wk
  refine ⟨m.start.trans g.start, hke.trans g.endEq, wk.index.trans w.index.symm, fun x hx => ?_,
    fun x hx => ?_⟩
  · obtain ⟨d, hd, -, rfl⟩ := mem_holes.1 (w.index.mem_iff.1 hx)
    exact w.size_kept wk.toLayout hd (by simpa using hd)
  · have hsame : ∀ lo hi, hi ≤ c.addr ∨ c.fin ≤ lo →
        Mem.Same h.mem (free pg (c.addr + 16) h' s).1.mem lo hi := by
      intro lo hi hx
      refine (g.same lo hi hx).trans ?_
      rcases hx with hx | hx
      · have := m.low
        rw [hstart] at this
        exact this.mono (Nat.zero_le _) hx
      · refine (hhigh hi).mono ?_ (Nat.le_refl _)
        show c.addr + n ≤ lo
        omega
    rcases hx with hx | hx
    · exact hsame 0 c.addr (.inl (Nat.le_refl _)) x (Nat.zero_le _) hx
    · exact hsame c.fin (x + 1) (.inr (Nat.le_refl _)) x hx (Nat.lt_succ_self _)

end

/-- **`free` undoes `alloc`.** -/
theorem free_undoes_alloc {σ : Type} {h : Heap} {cs : List Chunk} {size i : Nat} (pg : KernelPages σ)
    (fuel : Nat) (s : σ) (w : WellFormed h cs)
    (hbelow : magicAt h.mem (h.startAddress - 16) ≠ heapMagic)
    (hf : findSmallestHole (size + 32) 0 h = some i)
    (hend : h.index.array i + sizeAt h.mem (h.index.array i) ≠ h.endAddress) :
    ∃ p h', alloc pg (fuel + 1) size 0 h s = some (p, h', s) ∧
      Undone h (free pg p h' s).1 (h.index.array i)
        (h.index.array i + sizeAt h.mem (h.index.array i)) := by
  have hsize : size + 32 < 2 ^ 64 := by
    obtain ⟨-, hfit, -⟩ := find_some hf
    exact Nat.lt_of_le_of_lt (fits_plain.1 hfit) (Mem.load_lt _ _ 8)
  obtain ⟨l, c, r, n, rfl, hhole, hi, ha, hn, hrest, heq, g⟩ := w.plain hsize hf
  have hfin : h.index.array i + sizeAt h.mem (h.index.array i) = c.fin := by
    rw [ha, (w.header c (by simp)).size]
    rfl
  have halloc := alloc_found pg fuel s hsize hf
  rw [heq] at halloc
  rw [hfin] at hend ⊢
  rw [ha]
  exact ⟨_, _, halloc, w.undo pg s hhole hend hbelow hrest g⟩

/-- 50 bytes taken from a hole between two blocks and given back. -/
theorem free_undoes_alloc_run :
    ∃ s p h', runList exec [.alloc 100 0, .alloc 100 0, .free 0xC0019010] sys0 = some s ∧
      alloc bumpPages 1 50 0 s.heap s.pages = some (p, h', s.pages) ∧
      Undone s.heap (free bumpPages p h' s.pages).1 (s.heap.index.array 0)
        (s.heap.index.array 0 + sizeAt s.heap.mem (s.heap.index.array 0)) := by
  have hrun : (runList exec [.alloc 100 0, .alloc 100 0, .free 0xC0019010] sys0).map (fun s =>
      (decide (WellFormed s.heap [⟨0xC0019000, 132, false⟩, ⟨0xC0019084, 132, true⟩,
          ⟨0xC0019108, 93944, false⟩]),
        decide (magicAt s.heap.mem (s.heap.startAddress - 16) ≠ heapMagic),
        findSmallestHole (50 + 32) 0 s.heap,
        decide (s.heap.index.array 0 + sizeAt s.heap.mem (s.heap.index.array 0) ≠
          s.heap.endAddress))) = some (true, true, some 0, true) := by
    decide +kernel
  obtain ⟨s, hs, h⟩ := Option.map_eq_some_iff.1 hrun
  simp only [Prod.mk.injEq, decide_eq_true_eq] at h
  obtain ⟨w, hbelow, hf, hend⟩ := h
  obtain ⟨p, h', halloc, hu⟩ := free_undoes_alloc bumpPages 0 s.pages w hbelow hf hend
  exact ⟨s, p, h', hs, halloc, hu⟩

end Kheap
