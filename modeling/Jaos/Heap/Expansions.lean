import Jaos.Heap.WellFormed
import Jaos.Heap.Proof.AllocRun

/-!
# The retries of `alloc` end

After an expansion `alloc` calls itself, without a measure that would bound the calls. What bounds
them is the endmost hole of the index: every expansion gives it at least `size + 32` bytes more, and
at least a page (`Enlarged.step`). So after one expansion it has room for the block, and after two
it also has room for the distance from its payload to the next page, which is less than a page.
Where the hole lies does not matter, nor does what is behind it.

`alloc_expansions`: at most one expansion without alignment, at most two with it, and then a hole is
found.
-/

namespace Kheap

open Lib OrderedArray

section
variable {σ : Type} (pg : KernelPages σ) (size pageAlign : Nat)

/-- `n` expansions of one call of `alloc` in `h` lead to the call in `g`. -/
inductive Expansions (h : Heap) (s : σ) : Nat → Heap → σ → Prop
  | here : Expansions h s 0 h s
  | again {n : Nat} {g : Heap} {t : σ} {r : Heap × σ} : Expansions h s n g t →
      findSmallestHole (newSize size) pageAlign g = none →
      expand pg (add64 (sub64 g.endAddress g.startAddress) (newSize size)) g t = some r →
      Expansions h s (n + 1) (growHole g.endAddress (sub64 g.endAddress g.startAddress) r.1) r.2

/-- Every expansion of a call of `alloc` in `h` succeeds and stays below 2^64. -/
def ExpandsOk (h : Heap) (s : σ) : Prop :=
  ∀ n g t, Expansions pg size pageAlign h s n g t →
    findSmallestHole (newSize size) pageAlign g = none →
    g.endAddress + gained size g < 2 ^ 64 ∧
      (expand pg (add64 (sub64 g.endAddress g.startAddress) (newSize size)) g t).isSome = true

end

section
variable {σ : Type} {pg : KernelPages σ} {size pageAlign n : Nat} {h g : Heap} {s t : σ}

/-- Every expansion takes one unit of fuel. -/
theorem Expansions.alloc_eq (he : Expansions pg size pageAlign h s n g t) (fuel : Nat) :
    alloc pg (n + fuel) size pageAlign h s = alloc pg fuel size pageAlign g t := by
  induction he generalizing fuel with
  | here => rw [Nat.zero_add]
  | again he hf hr ih =>
    rw [Nat.add_assoc, ih, Nat.add_comm]
    conv => lhs; unfold alloc
    unfold newSize at hf hr
    simp only [hf, hr, Option.bind_some]

/-! ## The endmost hole grows -/

@[simp] theorem growHole_startAddress {old len : Nat} :
    (growHole old len g).startAddress = g.startAddress := by
  unfold growHole
  dsimp only
  split <;> rfl

@[simp] theorem growHole_endAddress {old len : Nat} :
    (growHole old len g).endAddress = g.endAddress := by
  unfold growHole
  dsimp only
  split <;> rfl

/-- The endmost hole of the index has at least `total` bytes and does not pass the end, `total` being
what the expansions have added. -/
structure Enlarged (h g : Heap) (total : Nat) : Prop where
  start : g.startAddress = h.startAddress
  endEq : g.endAddress = h.endAddress + total
  endLt : g.endAddress < 2 ^ 64
  hole : ∃ i, endmost g.index = some i ∧ total ≤ sizeAt g.mem (g.index.array i) ∧
    g.index.array i + sizeAt g.mem (g.index.array i) ≤ g.endAddress

/-- The page mask has 32 bits: a new length that needs no rounding passes unharmed as well. -/
theorem le_pageCeil {n : Nat} (h : n < 2 ^ 32 ∨ n % 4096 = 0) : n ≤ pageCeil n := by
  rcases h with h | h
  · rw [pageCeil_eq h]
    omega
  · refine Nat.le_of_eq ?_
    unfold pageCeil
    rw [and_fff, if_neg (by omega)]

/-- What an expansion adds. -/
theorem gained_bounds (size : Nat) {h : Heap} (hlen : (h.endAddress - h.startAddress) % 4096 = 0)
    (hroom : h.endAddress - h.startAddress + (size + 32) < 2 ^ 32) :
    gained size h % 4096 = 0 ∧ size + 32 ≤ gained size h ∧ 4096 ≤ gained size h ∧
      gained size h ≤ size + 32 + 4095 := by
  unfold gained
  rw [pageCeil_eq hroom]
  omega

theorem growHole_index_some {old len i : Nat} (he : endmost g.index = some i) :
    (growHole old len g).index = g.index := by
  unfold growHole
  simp only [he]
  rfl

theorem growHole_index_none {old len : Nat} (he : endmost g.index = none) (hsize : g.index.size = 0) :
    (growHole old len g).index.toList = [old] := by
  have hempty : g.index.toList = [] :=
    List.eq_nil_of_length_eq_zero (by rw [length_toList, hsize])
  unfold growHole
  simp only [he]
  rw [insertIndex_index, onMem_index, toList_insert _ _ (by omega), hempty]
  simp

/-- The endmost hole gets the gained space; below it nothing changes. -/
theorem growHole_some {len gain i : Nat} (he : endmost g.index = some i)
    (hgained : sub64 (sub64 g.endAddress g.startAddress) len = gain) (hgain : 32 ≤ gain)
    (hlt : g.index.array i + sizeAt g.mem (g.index.array i) + gain < 2 ^ 64) (old : Nat) :
    (growHole old len g).index = g.index ∧
      sizeAt (growHole old len g).mem (g.index.array i) =
        sizeAt g.mem (g.index.array i) + gain ∧
      Mem.Same g.mem (growHole old len g).mem 0 (g.index.array i) := by
  refine ⟨growHole_index_some he, ?_⟩
  unfold growHole
  simp only [hgained, he, lookup_eq (endmost_lt he)]
  generalize g.index.array i = a at hlt ⊢
  have hnew : add64 (sizeAt g.mem a) gain = sizeAt g.mem a + gain := add64_of_lt (by omega)
  have hfoot : sub64 (add64 a (sizeAt g.mem a + gain)) sizeofFooter =
      a + (sizeAt g.mem a + gain) - 16 := by
    simp (disch := omega) only [add64_of_lt, sub64_of_le, sizeofFooter]
  simp only [hnew, hfoot]
  refine ⟨?_, (same_setSize _ _ (.inl (Nat.le_refl _))).trans
    (same_writeFooter _ _ (.inl (by omega)))⟩
  rw [onMem_mem, sizeAt_same (same_writeFooter _ _ (.inl (by omega)))]
  exact sizeAt_setSize _ _ (by omega)

/-- A single header above address 0 is the endmost one. -/
theorem endmost_single {index : OrderedArray Nat} {a : Nat} (hl : index.toList = [a]) (ha : 0 < a) :
    endmost index = some 0 ∧ index.array 0 = a := by
  have hsize : index.size = 1 := by
    rw [← length_toList, hl]
    rfl
  have h0 : index.array 0 = a := by
    have hmem := array_mem (a := index) (i := 0) (by omega)
    rw [hl] at hmem
    exact List.mem_singleton.1 hmem
  refine ⟨?_, h0⟩
  unfold endmost
  rw [hsize]
  simp only [endmostFrom, lookup_eq (show 0 < index.size by omega), h0, if_pos ha]

/-- With no hole in the index the gained space becomes one. -/
theorem growHole_none {len gain old : Nat} (he : endmost g.index = none) (hsize : g.index.size = 0)
    (hgained : sub64 (sub64 g.endAddress g.startAddress) len = gain) (hgain : 32 ≤ gain)
    (hlt : old + gain < 2 ^ 64) :
    (growHole old len g).index.toList = [old] ∧ sizeAt (growHole old len g).mem old = gain := by
  have hfoot : sub64 (add64 old gain) sizeofFooter = old + gain - 16 := by
    simp (disch := omega) only [add64_of_lt, sub64_of_le, sizeofFooter]
  refine ⟨growHole_index_none he hsize, ?_⟩
  unfold growHole
  simp only [hgained, he, hfoot, ← writeTags_hole]
  exact (tagsOk_writeTags g.mem (c := ⟨old, gain, false⟩) hgain hlt).1.size

/-! ## One expansion -/

/-- What `expand` and `growHole` are called with, when the page mask does not cut the new length. -/
theorem expand_gained {r : Heap × σ} (hle : g.startAddress ≤ g.endAddress)
    (hceil : g.endAddress - g.startAddress + (size + 32) ≤
      pageCeil (g.endAddress - g.startAddress + (size + 32)))
    (hlt : g.endAddress + gained size g < 2 ^ 64)
    (hr : expand pg (add64 (sub64 g.endAddress g.startAddress) (newSize size)) g s = some r) :
    r.1.mem = g.mem ∧ r.1.index = g.index ∧ r.1.startAddress = g.startAddress ∧
      r.1.endAddress = g.endAddress + gained size g ∧ size + 32 ≤ gained size g ∧
      sub64 (sub64 r.1.endAddress r.1.startAddress) (sub64 g.endAddress g.startAddress) =
        gained size g := by
  obtain ⟨hmem, hindex, hstart, -, hend⟩ := expand_some hr
  have hg : pageCeil (g.endAddress - g.startAddress + (size + 32)) =
      g.endAddress - g.startAddress + gained size g := by
    unfold gained
    omega
  have hn : add64 (sub64 g.endAddress g.startAddress) (newSize size) =
      g.endAddress - g.startAddress + (size + 32) := by
    rw [newSize_of_lt (by omega), sub64_of_le hle (by omega)]
    exact add64_of_lt (by omega)
  rw [hn, hg, add64_of_lt (by omega)] at hend
  have hend' : r.1.endAddress = g.endAddress + gained size g := by omega
  refine ⟨hmem, hindex, hstart, hend', by omega, ?_⟩
  rw [hend', hstart]
  simp (disch := omega) only [sub64_of_le]
  omega

/-- **The first expansion** gives the endmost hole what it adds. -/
theorem WellFormed.enlarged {cs : List Chunk} {r : Heap × σ} (w : WellFormed h cs)
    (hceil : h.endAddress - h.startAddress + (size + 32) ≤
      pageCeil (h.endAddress - h.startAddress + (size + 32)))
    (hlt : h.endAddress + gained size h < 2 ^ 64)
    (hr : expand pg (add64 (sub64 h.endAddress h.startAddress) (newSize size)) h s = some r) :
    Enlarged h (growHole h.endAddress (sub64 h.endAddress h.startAddress) r.1) (gained size h) := by
  obtain ⟨hmem, hindex, hstart, hend, hmore, hgain⟩ := expand_gained w.tiles.le hceil hlt hr
  have hlow := w.startLow
  have hle := w.tiles.le
  rcases he : endmost h.index with _ | i
  · have hsize := w.no_endmost he
    obtain ⟨hl, hs⟩ := growHole_none (g := r.1) (by rw [hindex, he]) (by rw [hindex, hsize]) hgain
      (by omega) hlt
    obtain ⟨hend0, h0⟩ := endmost_single hl (by omega)
    refine ⟨?_, ?_, ?_, 0, hend0, ?_, ?_⟩
    · rw [growHole_startAddress, hstart]
    · rw [growHole_endAddress, hend]
    · rw [growHole_endAddress, hend]
      exact hlt
    · exact Nat.le_of_eq (by rw [h0, hs])
    · exact Nat.le_of_eq (by rw [h0, hs, growHole_endAddress, hend])
  · have hi := endmost_lt he
    obtain ⟨c, hc, -, ha⟩ := w.slot hi
    have hsz : sizeAt h.mem c.addr = c.size := (w.header c hc).size
    have hfin : c.addr + c.size ≤ h.endAddress := (w.bounds hc).2
    rw [← hindex] at he ha
    rw [← hmem] at hsz
    obtain ⟨hl, hs, -⟩ := growHole_some he hgain (by omega) (by rw [← ha, hsz]; omega) h.endAddress
    rw [← ha, hsz] at hs
    refine ⟨?_, ?_, ?_, i, by rwa [hl], ?_, ?_⟩
    · rw [growHole_startAddress, hstart]
    · rw [growHole_endAddress, hend]
    · rw [growHole_endAddress, hend]
      exact hlt
    · rw [hl, ← ha, hs]
      omega
    · rw [hl, ← ha, hs, growHole_endAddress, hend]
      omega

/-- **Another expansion** adds to the same hole. -/
theorem Enlarged.step {total : Nat} {r : Heap × σ} (e : Enlarged h g total)
    (hle : h.startAddress ≤ h.endAddress)
    (hceil : g.endAddress - g.startAddress + (size + 32) ≤
      pageCeil (g.endAddress - g.startAddress + (size + 32)))
    (hlt : g.endAddress + gained size g < 2 ^ 64)
    (hr : expand pg (add64 (sub64 g.endAddress g.startAddress) (newSize size)) g s = some r) :
    Enlarged h (growHole g.endAddress (sub64 g.endAddress g.startAddress) r.1)
      (total + gained size g) := by
  have hs := e.start
  have he := e.endEq
  obtain ⟨i, hi, hsize, hfit⟩ := e.hole
  obtain ⟨hmem, hindex, hstart, hend, hmore, hgain⟩ := expand_gained (by omega) hceil hlt hr
  rw [← hindex] at hi
  rw [← hindex, ← hmem] at hsize hfit
  obtain ⟨hl, hs', -⟩ := growHole_some hi hgain (by omega) (by omega) g.endAddress
  refine ⟨?_, ?_, ?_, i, by rwa [hl], ?_, ?_⟩
  · rw [growHole_startAddress, hstart, hs]
  · rw [growHole_endAddress, hend]
    omega
  · rw [growHole_endAddress, hend]
    exact hlt
  · rw [hl, hs']
    omega
  · rw [hl, hs', growHole_endAddress, hend]
    omega

/-- A hole with room for the block and a page is found, whatever the alignment. -/
theorem Enlarged.find {total : Nat} (e : Enlarged h g total) (size pageAlign : Nat)
    (hsize : size + 32 < 2 ^ 64)
    (hroom : size + 32 + (if pageAlign = 0 then 0 else 4096) ≤ total) :
    ∃ i, findSmallestHole (newSize size) pageAlign g = some i := by
  obtain ⟨i, hi, htotal, hfit⟩ := e.hole
  have hlt := e.endLt
  rcases hf : findSmallestHole (newSize size) pageAlign g with _ | j
  · have hno := find_none hf i (endmost_lt hi)
    have hyes : fits (newSize size) pageAlign g.mem (g.index.array i) = true := by
      rw [newSize_of_lt hsize]
      rcases Nat.eq_zero_or_pos pageAlign with rfl | hp
      · rw [fits_plain]
        simp only [if_true] at hroom
        omega
      · rw [if_neg (by omega)] at hroom
        rw [fits_aligned (by omega) hp]
        unfold pageOffset
        split <;> omega
    rw [hyes] at hno
    cases hno
  · exact ⟨j, rfl⟩

/-- **The retries end**: after at most one expansion without alignment and at most two with it
`alloc` finds a hole and returns. -/
theorem alloc_expansions {cs : List Chunk} (w : WellFormed h cs)
    (hlen : (h.endAddress - h.startAddress) % 4096 = 0)
    (hroom : h.endAddress - h.startAddress + 3 * (size + 32 + 4096) < 2 ^ 32)
    (hok : ExpandsOk pg size pageAlign h s) :
    ∃ n g t i, n ≤ (if pageAlign = 0 then 1 else 2) ∧ Expansions pg size pageAlign h s n g t ∧
      findSmallestHole (newSize size) pageAlign g = some i ∧
      ∀ fuel, n < fuel → alloc pg fuel size pageAlign h s =
        some ((allocFrom size pageAlign i g).1, (allocFrom size pageAlign i g).2, t) := by
  have hle := w.tiles.le
  -- the call in which a hole is found returns
  have done : ∀ n g t i, Expansions pg size pageAlign h s n g t →
      findSmallestHole (newSize size) pageAlign g = some i → ∀ fuel, n < fuel →
      alloc pg fuel size pageAlign h s =
        some ((allocFrom size pageAlign i g).1, (allocFrom size pageAlign i g).2, t) := by
    intro n g t i he hf fuel hn
    rw [newSize_eq (by omega)] at hf
    rw [show fuel = n + ((fuel - n - 1) + 1) by omega, he.alloc_eq]
    exact alloc_found pg _ t (by omega) hf
  rcases h0 : findSmallestHole (newSize size) pageAlign h with _ | i
  · obtain ⟨hlt0, hr0⟩ := hok 0 h s .here h0
    obtain ⟨r0, hr0⟩ := Option.isSome_iff_exists.1 hr0
    have b0 := gained_bounds size hlen (by omega)
    have e1 := w.enlarged (le_pageCeil (.inl (by omega))) hlt0 hr0
    have x1 := Expansions.here.again h0 hr0
    generalize growHole h.endAddress (sub64 h.endAddress h.startAddress) r0.1 = g at e1 x1
    rcases h1 : findSmallestHole (newSize size) pageAlign g with _ | i
    · have hp : pageAlign ≠ 0 := by
        intro hp
        obtain ⟨i, hi⟩ := e1.find size pageAlign (by omega)
          (by rw [if_pos hp]; omega)
        rw [hi] at h1
        cases h1
      obtain ⟨hlt1, hr1⟩ := hok 1 g r0.2 x1 h1
      obtain ⟨r1, hr1⟩ := Option.isSome_iff_exists.1 hr1
      have hs := e1.start
      have he := e1.endEq
      have b1 := gained_bounds size (h := g) (by omega) (by omega)
      have e2 := e1.step hle (le_pageCeil (.inl (by omega))) hlt1 hr1
      have x2 := x1.again h1 hr1
      obtain ⟨i, hi⟩ := e2.find size pageAlign (by omega)
        (by rw [if_neg hp]; omega)
      exact ⟨2, _, _, i, Nat.le_of_eq (if_neg hp).symm, x2, hi, done 2 _ _ i x2 hi⟩
    · exact ⟨1, g, _, i, by split <;> omega, x1, h1, done 1 g _ i x1 h1⟩
  · exact ⟨0, h, s, i, Nat.zero_le _, .here, h0, done 0 h s i .here h0⟩

/-- A page-aligned block as large as the only hole: one expansion is needed, and enough. -/
theorem alloc_expansions_sys0 :
    ∃ n g t i, n ≤ (if 1 = 0 then 1 else 2) ∧ Expansions bumpPages 0x17000 1 sys0.heap 0 n g t ∧
      findSmallestHole (newSize 0x17000) 1 g = some i ∧
      ∀ fuel, n < fuel → alloc bumpPages fuel 0x17000 1 sys0.heap 0 =
        some ((allocFrom 0x17000 1 i g).1, (allocFrom 0x17000 1 i g).2, t) := by
  refine alloc_expansions sys0_wellFormed (by decide) (by decide) ?_
  have hfirst : ∀ n g t, Expansions bumpPages 0x17000 1 sys0.heap 0 n g t →
      findSmallestHole (newSize 0x17000) 1 g = none → g = sys0.heap ∧ t = 0 := by
    intro n g t he
    induction he with
    | here => exact fun _ => ⟨rfl, rfl⟩
    | again he hf hr ih =>
      intro hnone
      obtain ⟨rfl, rfl⟩ := ih hf
      have hsome : (expand bumpPages (add64 (sub64 sys0.heap.endAddress sys0.heap.startAddress)
          (newSize 0x17000)) sys0.heap 0).map (fun r => (findSmallestHole (newSize 0x17000) 1
            (growHole sys0.heap.endAddress
              (sub64 sys0.heap.endAddress sys0.heap.startAddress) r.1)).isSome) = some true := by
        decide
      rw [hr, Option.map_some, hnone] at hsome
      cases hsome
  intro n g t he hf
  obtain ⟨rfl, rfl⟩ := hfirst n g t he hf
  exact ⟨by decide, rfl⟩

end

end Kheap
