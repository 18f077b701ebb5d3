import Jaos.Heap.Proof.Grow

/-!
# `free` on a well-formed heap

`free` turns a block into a hole and merges it with the holes next to it, as far as the boundary
tags show them. `leftHeader` and `rightEnd` are what the two tests of the C code find; `FreeOk` is
the condition that the outcome is a heap again:

* the header that the footer below the block points to belongs to a hole of the index that ends at
  the block. It does not when that hole was merged to the right before: `free` moves its local
  variable to the merged hole's footer and leaves the footer in memory as it was.
* a hole that ends the heap keeps at least 32 bytes when the heap contracts. Otherwise its footer
  falls on its own header or on the block below, and a hole of no bytes stays in the index.
* the index has a slot for a hole that is merged with none.
-/

namespace Kheap

open Lib OrderedArray

section
variable (h : Heap) (p : Nat)

/-- The header that "unify left" takes for the left neighbour's, if its test passes. -/
def leftHeader : Option Nat :=
  let m := setIsHole (p - 16) 1 h.mem
  let testFooter := p - 16 - 16
  if magicAt m testFooter = heapMagic ∧ isHoleAt m (headerAt m testFooter) = 1 then
    some (headerAt m testFooter)
  else none

/-- The end of the block at `p`. -/
def blockEnd : Nat := p - 16 + sizeAt h.mem (p - 16)

/-- The right neighbour passes the test of "unify right". -/
def rightHole : Prop :=
  magicAt h.mem (blockEnd h p) = heapMagic ∧ isHoleAt h.mem (blockEnd h p) ≠ 0

instance : Decidable (rightHole h p) := by
  unfold rightHole
  infer_instance

/-- The start of the merged hole. -/
def mergedStart : Nat := (leftHeader h p).getD (p - 16)

/-- The end of the merged hole. -/
def mergedEnd : Nat :=
  if rightHole h p then blockEnd h p + sizeAt h.mem (blockEnd h p) else blockEnd h p

/-- The end of the merged hole once the heap has contracted. -/
def finalEnd : Nat :=
  if mergedEnd h p = h.endAddress then
    h.startAddress + contractSize (mergedStart h p - h.startAddress)
  else mergedEnd h p

/-- The condition on `free(p)` (module doc). -/
structure FreeOk : Prop where
  left : ∀ a, leftHeader h p = some a → a ∈ h.index.toList ∧ a + sizeAt h.mem a = p - 16
  contract : mergedEnd h p = h.endAddress →
    mergedStart h p - h.startAddress + 32 ≤ contractSize (mergedStart h p - h.startAddress)
  room : leftHeader h p = none → rightHole h p ∨ h.index.size < h.index.maxSize

instance : Decidable (FreeOk h p) :=
  decidable_of_iff
    ((leftHeader h p).all (fun a => decide (a ∈ h.index.toList ∧ a + sizeAt h.mem a = p - 16)) = true ∧
      (mergedEnd h p = h.endAddress →
        mergedStart h p - h.startAddress + 32 ≤ contractSize (mergedStart h p - h.startAddress)) ∧
      (leftHeader h p = none → rightHole h p ∨ h.index.size < h.index.maxSize)) <| by
    simp only [Option.all_eq_true, decide_eq_true_eq]
    exact ⟨fun h => ⟨h.1, h.2.1, h.2.2⟩, fun h => ⟨h.1, h.2, h.3⟩⟩

end

/-! ## Merging -/

section
variable {h : Heap} {l r : List Chunk} {c : Chunk}

theorem indexOf_spec {a : Nat} {index : OrderedArray Nat}
    (h : ∃ i < index.size, index.array i = a) :
    indexOf a index < index.size ∧ index.array (indexOf a index) = a := by
  obtain ⟨i, hi, ha⟩ := h
  have hle := scan_le (fun i => decide (lookupOrderedArray i index ≠ a)) index.size 0
  have hlt : indexOf a index < index.size := by
    refine Nat.lt_of_not_le fun hge => ?_
    have := scan_before (fun i => decide (lookupOrderedArray i index ≠ a)) (k := index.size)
      (Nat.zero_le i) (Nat.lt_of_lt_of_le hi hge)
    simp [lookup_eq hi, ha] at this
  have hstop := scan_stop (fun i => decide (lookupOrderedArray i index ≠ a)) (k := index.size)
    (i := 0) (by unfold indexOf at hlt; omega)
  refine ⟨hlt, ?_⟩
  rw [← lookup_eq hlt]
  simpa only [indexOf, decide_eq_false_iff_not, ne_eq, Decidable.not_not] using hstop

/-- The memory of a block just marked as a hole. -/
theorem Layout.mark (w : Layout h (l ++ c :: r)) :
    HeaderOk (setIsHole c.addr 1 h.mem) ⟨c.addr, c.size, false⟩ := by
  have hold := w.header c (by simp)
  exact ⟨(magicAt_setIsHole _ _ _).trans hold.magic, isHoleAt_setIsHole _ _ (by decide),
    (sizeAt_setIsHole _ _ _).trans hold.size⟩

/-- **Unify left.** `m` is the memory after the step. -/
theorem Layout.unifyLeft (w : Layout h (l ++ c :: r)) {g : Heap}
    (hmem : g.mem = setIsHole c.addr 1 h.mem)
    (hleft : ∀ a, leftHeader h (c.addr + 16) = some a →
      ∃ L d, l = L ++ [d] ∧ d.tag = false ∧ d.addr = a) :
    ∃ L m, freeLeft c.addr (c.fin - 16) g =
        (mergedStart h (c.addr + 16), (leftHeader h (c.addr + 16)).isNone, onMem (fun _ => m) g) ∧
      (leftHeader h (c.addr + 16) = none ∧ l = L ∨
        ∃ d, leftHeader h (c.addr + 16) = some d.addr ∧ d.tag = false ∧ l = L ++ [d]) ∧
      Tiles h.startAddress (mergedStart h (c.addr + 16)) L ∧
      mergedStart h (c.addr + 16) ≤ c.addr ∧
      HeaderOk m ⟨mergedStart h (c.addr + 16), c.fin - mergedStart h (c.addr + 16), false⟩ ∧
      (FooterOk h.mem c → FooterOk m
        ⟨mergedStart h (c.addr + 16), c.fin - mergedStart h (c.addr + 16), false⟩) ∧
      Mem.Same h.mem m 0 (mergedStart h (c.addr + 16)) ∧ (∀ hi, Mem.Same h.mem m c.fin hi) ∧
      Mem.Same h.mem m (c.addr + 16) (c.fin - 16) := by
  have hc : c ∈ l ++ c :: r := by simp
  have hlt := w.chunk_lt hc
  have hmin := w.min c hc
  have hfin : c.fin = c.addr + c.size := rfl
  have hmark := w.mark
  obtain ⟨m0, hl, hm0⟩ := tiles_append.1 w.tiles
  obtain ⟨rfl, -⟩ := hm0
  have hsame : ∀ lo hi, hi ≤ c.addr ∨ c.addr + 16 ≤ lo → Mem.Same h.mem g.mem lo hi := by
    intro lo hi hx
    rw [hmem]
    exact same_setIsHole _ _ hx
  unfold freeLeft
  rw [sub64_of_le (show sizeofFooter ≤ c.addr by dsimp only [sizeofFooter]; omega) (by omega)]
  have hcases : leftHeader h (c.addr + 16) =
      if magicAt g.mem (c.addr - 16) = heapMagic ∧
        isHoleAt g.mem (headerAt g.mem (c.addr - 16)) = 1
      then some (headerAt g.mem (c.addr - 16)) else none := by
    rw [hmem]
    simp only [leftHeader, Nat.add_sub_cancel]
  dsimp only [sizeofFooter]
  by_cases ht : magicAt g.mem (c.addr - 16) = heapMagic ∧
      isHoleAt g.mem (headerAt g.mem (c.addr - 16)) = 1
  · rw [if_pos ht] at hcases ⊢
    obtain ⟨L, d, rfl, hhole, hda⟩ := hleft _ hcases
    have hd : d ∈ L ++ [d] ++ c :: r := by simp
    have hstart : mergedStart h (c.addr + 16) = d.addr := by
      unfold mergedStart
      rw [hcases, hda]
      rfl
    rw [← hda] at hcases ⊢
    have hdmin := w.min d hd
    have hend : d.addr + d.size = c.addr := hl.fin_last
    obtain ⟨m1, hL, hm1⟩ := tiles_append.1 hl
    obtain ⟨rfl, -⟩ := hm1
    have hdsize : sizeAt (setHeader (c.fin - 16) d.addr g.mem) d.addr = d.size := by
      rw [sizeAt_same (same_setHeader _ _ (.inl (by omega))),
        sizeAt_same (hsame _ _ (.inl (by omega)))]
      exact (w.header d hd).size
    have hdhead : HeaderOk (setHeader (c.fin - 16) d.addr g.mem) d :=
      (w.header d hd).same ((hsame _ _ (.inl (by omega))).trans
        (same_setHeader _ _ (.inl (by omega))))
    refine ⟨L, setSize d.addr (d.size + c.size) (setHeader (c.fin - 16) d.addr g.mem), ?_,
      .inr ⟨d, hcases, hhole, rfl⟩, by rw [hstart]; exact hL, by omega, ?_, fun hf => ?_, ?_,
      fun hi => ?_, ?_⟩
    · have hcs : sizeAt g.mem c.addr = c.size := by rw [hmem]; exact hmark.size
      simp only [hcs, hstart, hcases, Option.isNone_some, onMem, hdsize,
        add64_of_lt (show d.size + c.size < 2 ^ 64 by omega)]
    · rw [hstart, show c.fin - d.addr = d.size + c.size by omega]
      refine ⟨(magicAt_setSize _ _ _).trans hdhead.magic, (isHoleAt_setSize _ _ _).trans ?_,
        sizeAt_setSize _ _ (show d.size + c.size < 2 ^ 64 by omega)⟩
      have := hdhead.isHole
      rwa [hhole] at this
    · -- the block's own footer now points to the hole on the left
      have hseg : Seg.fin (⟨d.addr, c.fin - d.addr, false⟩ : Chunk) = c.fin :=
        Nat.add_sub_cancel' (show d.addr ≤ c.fin by omega)
      have hmagic : magicAt g.mem (c.fin - 16) = heapMagic :=
        (magicAt_same (hsame _ _ (.inr (by omega)))).trans hf.magic
      have hkeep : d.addr + 16 ≤ c.fin - 16 := by omega
      have hlt : d.addr < 2 ^ 64 := by omega
      rw [hstart]
      constructor
      · rw [hseg, magicAt_same (same_setSize _ _ (.inr hkeep)), magicAt_setHeader]
        exact hmagic
      · rw [hseg, headerAt_same (same_setSize _ _ (.inr hkeep)), headerAt_setHeader _ _ hlt]
    · rw [hstart]
      exact ((hsame _ _ (.inl (by omega))).trans (same_setHeader _ _ (.inl (by omega)))).trans
        (same_setSize _ _ (.inl (Nat.le_refl _)))
    · exact ((hsame _ _ (.inr (by omega))).trans (same_setHeader _ _ (.inr (by omega)))).trans
        (same_setSize _ _ (.inr (by omega)))
    · exact ((hsame _ _ (.inr (Nat.le_refl _))).trans
        (same_setHeader _ _ (.inl (Nat.le_refl _)))).trans (same_setSize _ _ (.inr (by omega)))
  · rw [if_neg ht] at hcases ⊢
    have hstart : mergedStart h (c.addr + 16) = c.addr := by
      unfold mergedStart
      rw [hcases]
      rfl
    refine ⟨l, g.mem, ?_, .inl ⟨hcases, rfl⟩, by rw [hstart]; exact hl, by omega, ?_, fun hf => ?_,
      ?_, fun hi => ?_, hsame _ _ (.inr (Nat.le_refl _))⟩
    · rw [hstart, hcases]
      rfl
    · rw [hstart, hmem, show c.fin - c.addr = c.size by omega]
      exact hmark
    · have hf' := hf.same (by omega) (hsame (c.fin - 16) c.fin (.inr (by omega)))
      rw [hstart, show c.fin - c.addr = c.size by omega]
      exact ⟨hf'.magic, hf'.header⟩
    · exact hsame _ _ (.inl (by omega))
    · exact hsame _ _ (.inr (by omega))

/-- The index without the right neighbour. -/
def mergedIndex (h : Heap) (p : Nat) : OrderedArray Nat :=
  if rightHole h p then removeOrderedArray (indexOf (blockEnd h p) h.index) h.index else h.index

theorem Layout.blockEnd_eq (w : Layout h (l ++ c :: r)) : blockEnd h (c.addr + 16) = c.fin := by
  unfold blockEnd
  rw [Nat.add_sub_cancel, (w.header c (by simp)).size]
  rfl

/-- The right neighbour in memory is the next chunk; behind the last one no header is found. -/
theorem Layout.rightHole_iff (w : Layout h (l ++ c :: r))
    (hout : r = [] → ¬ rightHole h (c.addr + 16)) :
    rightHole h (c.addr + 16) ↔ ∃ d R, r = d :: R ∧ d.tag = false := by
  cases r with
  | nil => simp [hout rfl]
  | cons d R =>
    have hd := w.header d (by simp)
    unfold rightHole
    rw [w.blockEnd_eq, ← w.tiles.next, hd.magic, hd.isHole]
    cases ht : d.tag <;> simp [ht]

theorem Layout.not_rightHole (w : Layout h (l ++ c :: r))
    (hout : magicAt h.mem h.endAddress ≠ heapMagic) (hr : r = []) :
    ¬ rightHole h (c.addr + 16) := by
  subst hr
  unfold rightHole
  rw [w.blockEnd_eq, w.tiles.fin_last]
  exact fun h => hout h.1

/-- **Unify right.** `g` is the heap after "unify left", with the merged hole at `a`. -/
theorem Indexed.unifyRight (w : Indexed h (l ++ c :: r))
    (hout : r = [] → ¬ rightHole h (c.addr + 16)) (hused : c.tag = true) {g : Heap} {a : Nat} (hindex : g.index = h.index) (ha : a ≤ c.addr)
    (hhead : HeaderOk g.mem ⟨a, c.fin - a, false⟩) (hsame : ∀ hi, Mem.Same h.mem g.mem c.fin hi) :
    ∃ R k, freeRight a (c.fin - 16) g = (mergedEnd h (c.addr + 16) - 16, k) ∧
      ((∃ d, r = d :: R ∧ d.tag = false) ∨ r = R) ∧
      Tiles (mergedEnd h (c.addr + 16)) h.endAddress R ∧ c.fin ≤ mergedEnd h (c.addr + 16) ∧
      k.index = mergedIndex h (c.addr + 16) ∧ k.index.toList.Perm (holes l ++ holes R) ∧
      k.startAddress = g.startAddress ∧ k.endAddress = g.endAddress ∧
      HeaderOk k.mem ⟨a, mergedEnd h (c.addr + 16) - a, false⟩ ∧
      ∀ lo hi, hi ≤ a ∨ a + 16 ≤ lo → Mem.Same g.mem k.mem lo hi := by
  have hlt := w.chunk_lt (c := c) (by simp)
  have hmin := w.min c (by simp)
  have hfin : c.fin = c.addr + c.size := rfl
  have htest : add64 (c.fin - 16) sizeofFooter = c.fin := by
    dsimp only [sizeofFooter]
    rw [add64_of_lt (by omega)]
    omega
  have hx : h.index.toList.Perm (holes l ++ holes r) := by
    have := w.index
    rwa [holes_append, holes_cons_used hused] at this
  obtain ⟨m, hl, hr⟩ := tiles_append.1 w.tiles
  obtain ⟨rfl, hr⟩ := hr
  have htag : rightHole h (c.addr + 16) ↔
      magicAt g.mem c.fin = heapMagic ∧ isHoleAt g.mem c.fin ≠ 0 := by
    unfold rightHole
    rw [w.blockEnd_eq, magicAt_same (hsame _), isHoleAt_same (hsame _)]
  unfold freeRight mergedEnd mergedIndex
  rw [w.blockEnd_eq, htest]
  dsimp only
  by_cases hright : rightHole h (c.addr + 16)
  · obtain ⟨d, R, rfl, hhole⟩ := (w.rightHole_iff hout).1 hright
    have hd : d ∈ l ++ c :: d :: R := by simp
    have hda : d.addr = c.fin := w.tiles.next
    have hdlt := w.chunk_lt hd
    have hdmin := w.min d hd
    have hdfin : d.fin = d.addr + d.size := rfl
    have hdsize : sizeAt h.mem c.fin = d.size := by rw [← hda]; exact (w.header d hd).size
    have hdg : sizeAt g.mem c.fin = d.size := (sizeAt_same (hsame _)).trans hdsize
    have hag : sizeAt g.mem a = c.fin - a := hhead.size
    have hnew : add64 (c.fin - a) d.size = c.fin - a + d.size := add64_of_lt (by omega)
    have hd' : sizeAt (setSize a (c.fin - a + d.size) g.mem) c.fin = d.size :=
      (sizeAt_same (same_setSize _ _ (.inr (by omega)))).trans hdg
    have hfoot : sub64 (add64 c.fin d.size) sizeofFooter = c.fin + d.size - 16 := by
      simp (disch := omega) only [add64_of_lt, sub64_of_le, sizeofFooter]
    obtain ⟨hi, hslot⟩ := indexOf_spec (show ∃ i < h.index.size, h.index.array i = c.fin by
      rw [← hda]
      exact w.slot_of hd hhole)
    have hnot : ¬ h.index.size ≤ indexOf c.fin h.index := by omega
    simp only [if_pos hright, if_pos (htag.1 hright), hdsize, onMem_mem, onMem_index, hdg, hag, hnew,
      hd', hfoot, hindex, putsIf, hnot, if_false]
    refine ⟨R, _, rfl, .inl ⟨d, rfl, hhole⟩, ?_, by omega, ?_, ?_, rfl, rfl, ?_, fun lo hi h => ?_⟩
    · have := hr.2
      rwa [hdfin, hda] at this
    · rw [removeIndex_index, onMem_index, hindex]
    · rw [removeIndex_index, onMem_index, hindex]
      have hrem := perm_remove hi (Nat.lt_trans w.size_lt (by decide))
      rw [hslot] at hrem
      rw [holes_cons_hole hhole, hda] at hx
      exact (hrem.symm.trans (hx.trans List.perm_middle)).cons_inv
    · simp only [removeIndex_mem, onMem_mem, hag, hdg, hnew]
      rw [show c.fin + d.size - a = c.fin - a + d.size by omega]
      exact ⟨(magicAt_setSize _ _ _).trans hhead.magic, (isHoleAt_setSize _ _ _).trans hhead.isHole,
        sizeAt_setSize _ _ (show c.fin - a + d.size < 2 ^ 64 by omega)⟩
    · simp only [removeIndex_mem, onMem_mem]
      exact same_setSize _ _ (by omega)
  · simp only [if_neg hright, if_neg (fun h => hright (htag.2 h))]
    exact ⟨r, g, rfl, .inr rfl, hr, Nat.le_refl _, hindex, by rwa [hindex], rfl, rfl, hhead,
      fun lo hi _ => .refl _ lo hi⟩

end

/-! ## Contracting -/

section
variable {h : Heap} {l r : List Chunk} {c : Chunk}

/-- A length of whole pages that covers the chunks below the hole is not exceeded. -/
theorem contractSize_bounds {d len : Nat} (hd : d < len) (hlen : len % 4096 = 0)
    (hmin : heapMinSize ≤ len) :
    contractSize d % 4096 = 0 ∧ heapMinSize ≤ contractSize d ∧ contractSize d ≤ len := by
  have hceil : pageCeil d % 4096 = 0 ∧ pageCeil d ≤ len := by
    unfold pageCeil
    rw [and_fff]
    split
    · rw [and_fffff000, add64_of_lt (by omega)]
      omega
    · omega
  unfold contractSize
  dsimp only [heapMinSize] at hmin ⊢
  split <;> omega

theorem contractSize_lt {n : Nat} (hn : n < 2 ^ 64) : contractSize n < 2 ^ 64 := by
  have hceil : pageCeil n < 2 ^ 64 := by
    unfold pageCeil
    split
    · exact add64_lt _ _
    · exact hn
  unfold contractSize
  dsimp only [heapMinSize]
  split <;> omega

/-- What `contract` does to the heap itself. -/
theorem contract_eq {σ : Type} (pg : KernelPages σ) (n : Nat) (h : Heap) (s : σ) :
    ∃ k t, contract pg n h s = (contractSize n, k, t) ∧ k.mem = h.mem ∧ k.index = h.index ∧
      k.startAddress = h.startAddress ∧
      k.endAddress = add64 h.startAddress (contractSize n) := by
  refine ⟨_, _, rfl, ?_⟩
  unfold putsIf puts
  split <;> exact ⟨rfl, rfl, rfl, rfl⟩

/-- Where the heap starts and ends after the contraction. -/
theorem freeContract_bounds {σ : Type} (pg : KernelPages σ) (header footer testHeader : Nat)
    (h : Heap) (s : σ) :
    (freeContract pg header footer testHeader h s).1.startAddress = h.startAddress ∧
      (freeContract pg header footer testHeader h s).1.endAddress =
        if add64 footer sizeofFooter = h.endAddress then
          add64 h.startAddress (contractSize (sub64 header h.startAddress))
        else h.endAddress := by
  unfold freeContract
  dsimp only
  obtain ⟨k, t, hk, -, -, hstart, hend⟩ := contract_eq pg (sub64 header h.startAddress) h s
  rw [hk]
  dsimp only
  split
  · split
    · exact ⟨hstart, hend⟩
    · dsimp only
      split <;> exact ⟨hstart, hend⟩
  · exact ⟨rfl, rfl⟩

/-- **Contraction.** `g` is the heap after both merges, `[a, e)` the merged hole. -/
theorem Layout.contracted {σ : Type} (pg : KernelPages σ) (s : σ) {cs : List Chunk} (w : Layout h cs)
    {g : Heap} {a e : Nat} (t : Nat) (hstart : g.startAddress = h.startAddress)
    (hend : g.endAddress = h.endAddress) (hlo : h.startAddress ≤ a) (hae : a + 32 ≤ e)
    (he : e ≤ h.endAddress) (hhead : HeaderOk g.mem ⟨a, e - a, false⟩)
    (hok : e = h.endAddress → a - h.startAddress + 32 ≤ contractSize (a - h.startAddress) ∧
      contractSize (a - h.startAddress) ≤ h.endAddress - h.startAddress) {n : Nat}
    (hn : n = if e = h.endAddress then h.startAddress + contractSize (a - h.startAddress) else e) :
    ∃ k u, freeContract pg a (e - 16) t g s = (k, u) ∧
      a + 32 ≤ n ∧ n ≤ e ∧ k.index = g.index ∧ k.startAddress = h.startAddress ∧
      HeaderOk k.mem ⟨a, n - a, false⟩ ∧ Mem.Same g.mem k.mem 0 a ∧
      (∀ x, a + 16 ≤ x →
        k.mem x = (if e = h.endAddress then writeFooter (n - 16) a g.mem else g.mem) x) ∧
      (e ≠ h.endAddress ∧ n = e ∧ k.endAddress = h.endAddress ∧ k.mem = g.mem ∨
        e = h.endAddress ∧ k.endAddress = n) := by
  have hendlt := w.endLt
  have hfoot : add64 (e - 16) sizeofFooter = e := by
    dsimp only [sizeofFooter]
    rw [add64_of_lt (by omega)]
    omega
  unfold freeContract
  rw [hfoot, hend, hstart]
  dsimp only
  by_cases hc : e = h.endAddress
  · subst hc
    rw [if_pos rfl] at hn
    subst hn
    obtain ⟨n, hn⟩ : ∃ n, n = contractSize (a - h.startAddress) := ⟨_, rfl⟩
    have hok := hok rfl
    rw [← hn] at hok
    have hsub : sub64 a h.startAddress = a - h.startAddress := sub64_of_le hlo (by omega)
    have hnend : add64 h.startAddress n = h.startAddress + n := add64_of_lt (by omega)
    have hgiven : sub64 (h.endAddress - h.startAddress) n = h.endAddress - h.startAddress - n :=
      sub64_of_le hok.2 (by omega)
    have hsize : sizeAt g.mem a = h.endAddress - a := hhead.size
    have hrest : sub64 (h.endAddress - a) (h.endAddress - h.startAddress - n) =
        h.startAddress + n - a := by
      rw [sub64_of_le (by omega) (by omega)]
      omega
    have hpos : 0 < h.startAddress + n - a := by omega
    have hset : sizeAt (setSize a (h.startAddress + n - a) g.mem) a = h.startAddress + n - a :=
      sizeAt_setSize _ _ (by omega)
    have hf : sub64 (add64 a (h.startAddress + n - a)) sizeofFooter = h.startAddress + n - 16 := by
      dsimp only [sizeofFooter]
      rw [add64_of_lt (by omega), sub64_of_le (by omega) (by omega)]
      omega
    obtain ⟨k, u, hk, hmem, hidx, hks, hke⟩ := contract_eq pg (a - h.startAddress) g s
    rw [← hn] at hk hke ⊢
    rw [hstart, hnend] at hke
    rw [hsub, w.len, hk]
    simp only [if_true, hgiven, hmem, hsize, hrest, hpos, onMem_mem, hset, hf]
    refine ⟨_, u, rfl, by omega, by omega, hidx, hks.trans hstart, ?_, ?_, fun x hx => ?_,
      .inr ⟨trivial, hke⟩⟩
    · simp only [onMem_mem, hmem, hsize, hrest]
      have hhead' : HeaderOk (setSize a (h.startAddress + n - a) g.mem)
          ⟨a, h.startAddress + n - a, false⟩ :=
        ⟨(magicAt_setSize _ _ _).trans hhead.magic,
          (isHoleAt_setSize _ _ _).trans hhead.isHole, hset⟩
      exact hhead'.same
        (same_writeFooter _ _ (.inl (show a + 16 ≤ h.startAddress + n - 16 by omega)))
    · simp only [onMem_mem, hmem, hsize, hrest]
      exact (same_setSize _ _ (.inl (Nat.le_refl _))).trans
        (same_writeFooter _ _ (.inl (by omega)))
    · simp only [onMem_mem, hmem, hsize, hrest]
      exact writeFooter_congr _ _ (same_setSize _ _ (.inr hx) x (Nat.le_refl _) (Nat.lt_succ_self _))
  · rw [if_neg hc] at hn
    subst hn
    rw [if_neg hc]
    exact ⟨g, s, rfl, hae, Nat.le_refl _, rfl, hstart, hhead, .refl _ _ _,
      fun x _ => by rw [if_neg hc], .inl ⟨hc, rfl, hend, rfl⟩⟩

/-- The length that a heap of the runs contracts to. -/
theorem Wf.contractSize_le {cs : List Chunk} (w : Wf h cs) {a : Nat} (ha : a < h.endAddress) :
    contractSize (a - h.startAddress) % 4096 = 0 ∧
      heapMinSize ≤ contractSize (a - h.startAddress) ∧
      contractSize (a - h.startAddress) ≤ h.endAddress - h.startAddress := by
  have hmin : h.startAddress + 65536 ≤ h.endAddress := w.minLength
  have hp1 := w.startPage
  have hp2 := w.endPage
  exact contractSize_bounds (by omega) (by omega) (show 65536 ≤ _ by omega)

/-! ## The whole call -/

/-- The hole that `free(p)` leaves. -/
def mergedHole (h : Heap) (p : Nat) : Chunk :=
  ⟨mergedStart h p, finalEnd h p - mergedStart h p, false⟩

@[simp] theorem mergedHole_addr (h : Heap) (p : Nat) : (mergedHole h p).addr = mergedStart h p := by
  rw [mergedHole]

@[simp] theorem mergedHole_tag (h : Heap) (p : Nat) : (mergedHole h p).tag = false := by
  rw [mergedHole]

theorem mergedHole_fin {h : Heap} {p : Nat} (hle : mergedStart h p ≤ finalEnd h p) :
    (mergedHole h p).fin = finalEnd h p := by
  unfold mergedHole Seg.fin
  dsimp only
  omega

/-- The chunks left and right of the block, `l` and `r`, and those left and right of the merged
hole, `L` and `R`. -/
structure Merge (h : Heap) (p : Nat) (l r L R : List Chunk) : Prop where
  left : leftHeader h p = none ∧ l = L ∨
    ∃ d, leftHeader h p = some d.addr ∧ d.tag = false ∧ l = L ++ [d]
  right : (∃ d, r = d :: R ∧ d.tag = false) ∨ r = R

namespace Merge

variable {p : Nat} {L R : List Chunk} (g : Merge h p l r L R)
include g

/-- The chunks that make up the merged hole. -/
theorem mid (c : Chunk) : ∃ mid, l ++ c :: r = L ++ (mid ++ R) := by
  rcases g.left with ⟨-, rfl⟩ | ⟨e, -, -, rfl⟩ <;> rcases g.right with ⟨e', rfl, -⟩ | rfl
  · exact ⟨[c, e'], by simp⟩
  · exact ⟨[c], by simp⟩
  · exact ⟨[e, c, e'], by simp⟩
  · exact ⟨[e, c], by simp⟩

/-- A neighbour that is merged is a hole. -/
theorem used {d : Chunk} (hd : d ∈ l ++ r) (hu : d.tag = true) : d ∈ L ++ R := by
  have hl : d ∈ l → d ∈ L := by
    rcases g.left with ⟨-, rfl⟩ | ⟨e, -, he, rfl⟩
    · exact id
    · intro hd
      rcases List.mem_append.1 hd with hd | hd
      · exact hd
      · rw [List.mem_singleton.1 hd, he] at hu
        cases hu
  have hr : d ∈ r → d ∈ R := by
    rcases g.right with ⟨e, rfl, he⟩ | rfl
    · intro hd
      rcases List.mem_cons.1 hd with rfl | hd
      · rw [he] at hu
        cases hu
      · exact hd
    · exact id
  exact List.mem_append.2 ((List.mem_append.1 hd).imp hl hr)

theorem old {d : Chunk} (hd : d ∈ L ++ R) : d ∈ l ++ r := by
  have hl : d ∈ L → d ∈ l := by
    rcases g.left with ⟨-, rfl⟩ | ⟨e, -, -, rfl⟩
    · exact id
    · exact List.mem_append_left _
  have hr : d ∈ R → d ∈ r := by
    rcases g.right with ⟨e, rfl, -⟩ | rfl
    · exact List.mem_cons_of_mem _
    · exact id
  exact List.mem_append.2 ((List.mem_append.1 hd).imp hl hr)

theorem holes_length : (holes R).length ≤ (holes r).length := by
  rcases g.right with ⟨e, rfl, he⟩ | rfl
  · rw [holes_cons_hole he]
    simp
  · exact Nat.le_refl _

/-- The index of the merged heap lists its holes: the merged one is in it already or goes in. -/
theorem index_perm {index : OrderedArray Nat} (hi : index.toList.Perm (holes l ++ holes R))
    (hs : index.size + 1 < 2 ^ 64) (lt : Nat → Nat → Bool) :
    (if leftHeader h p = none then insertOrderedArray lt (mergedStart h p) index
      else index).toList.Perm (holes (L ++ ([mergedHole h p] ++ R))) := by
  rw [holes_append, List.singleton_append, holes_cons_hole (mergedHole_tag h p), mergedHole_addr]
  rcases g.left with ⟨hnone, rfl⟩ | ⟨d, hsome, hd, rfl⟩
  · rw [if_pos hnone]
    exact ((perm_insert _ _ hs).trans (hi.cons _)).trans List.perm_middle.symm
  · rw [if_neg (by rw [hsome]; simp)]
    rw [holes_append, holes_cons_hole hd, holes_nil, List.append_assoc] at hi
    have hstart : mergedStart h p = d.addr := by
      unfold mergedStart
      rw [hsome]
      rfl
    rw [hstart]
    exact hi

end Merge

/-- What `free` leaves: the merged hole with its header, and an index that was changed only by the
removal of the right neighbour and the insertion of the hole. -/
structure Freed (h : Heap) (p : Nat) (h' : Heap) : Prop where
  start : h'.startAddress = h.startAddress
  header : HeaderOk h'.mem (mergedHole h p)
  index : h'.index = if leftHeader h p = none then
    insertOrderedArray (headerTLessThan h'.mem) (mergedStart h p) (mergedIndex h p)
    else mergedIndex h p

/-- What the inside of a freed block holds: what it held, but for the footer that a contraction
writes. -/
def leftMem (h : Heap) (p : Nat) : Mem :=
  if mergedEnd h p = h.endAddress then writeFooter (finalEnd h p - 16) (mergedStart h p) h.mem
  else h.mem

/-- **What `free` does**: the merged hole lies between `L` and `R`, memory below it and behind the
block is unchanged unless the heap contracts, and it has a footer if it took the block's or the
heap contracts. -/
structure Merged (h : Heap) (c : Chunk) (h' : Heap) (l r L R : List Chunk) : Prop extends
    Merge h (c.addr + 16) l r L R, Freed h (c.addr + 16) h' where
  tilesLeft : Tiles h.startAddress (mergedStart h (c.addr + 16)) L
  tilesRight : Tiles (mergedEnd h (c.addr + 16)) h.endAddress R
  within : mergedStart h (c.addr + 16) ≤ c.addr ∧ c.fin ≤ mergedEnd h (c.addr + 16)
  size : mergedStart h (c.addr + 16) + 32 ≤ finalEnd h (c.addr + 16)
  low : Mem.Same h.mem h'.mem 0 (mergedStart h (c.addr + 16))
  perm : h'.index.toList.Perm (holes (L ++ ([mergedHole h (c.addr + 16)] ++ R)))
  ends : mergedEnd h (c.addr + 16) ≠ h.endAddress ∧ h'.endAddress = h.endAddress ∧
      (∀ hi, Mem.Same h.mem h'.mem c.fin hi) ∨
    mergedEnd h (c.addr + 16) = h.endAddress ∧ h'.endAddress = finalEnd h (c.addr + 16) ∧
      finalEnd h (c.addr + 16) ≤ h.endAddress
  footer : FooterOk h.mem c → ¬ rightHole h (c.addr + 16) ∨
    mergedEnd h (c.addr + 16) = h.endAddress → FooterOk h'.mem (mergedHole h (c.addr + 16))
  inner : ∀ x, c.addr + 16 ≤ x → x < c.fin - 16 → h'.mem x = leftMem h (c.addr + 16) x

/-- The header and the footer of a block are where `free` looks for them. -/
theorem Layout.block_tags (w : Layout h (l ++ c :: r)) :
    sub64 (c.addr + 16) sizeofHeader = c.addr ∧
      sub64 (add64 c.addr (sizeAt h.mem c.addr)) sizeofFooter = c.fin - 16 := by
  have hlt := w.chunk_lt (c := c) (by simp)
  have hmin := w.min c (by simp)
  have hfin : c.fin = c.addr + c.size := rfl
  constructor
  · dsimp only [sizeofHeader]
    rw [sub64_of_le (by omega) (by omega), Nat.add_sub_cancel]
  · rw [(w.header c (by simp)).size]
    simp (disch := omega) only [add64_of_lt, sub64_of_le, sizeofFooter, hfin]

/-- The first steps of `free` on a block, which becomes a hole. -/
theorem Layout.free_eq {σ : Type} (pg : KernelPages σ) (s : σ) (w : Layout h (l ++ c :: r)) :
    ∃ g, free pg (c.addr + 16) h s = freeMerge pg c.addr (c.fin - 16) g s ∧
      g.mem = setIsHole c.addr 1 h.mem ∧ g.index = h.index ∧ g.startAddress = h.startAddress ∧
      g.endAddress = h.endAddress := by
  obtain ⟨hheader, hfooter⟩ := w.block_tags
  unfold free
  rw [if_neg (Nat.succ_ne_zero _)]
  simp only [hheader, hfooter]
  refine ⟨_, rfl, ?_⟩
  unfold putsIf puts
  split <;> split <;> exact ⟨rfl, rfl, rfl, rfl⟩

/-- The index without the right neighbour has room for one more address in its counter. -/
theorem Indexed.merged_slots (w : Indexed h (l ++ c :: r)) (hused : c.tag = true) {p : Nat}
    {L R : List Chunk} (g : Merge h p l r L R) {index : OrderedArray Nat}
    (hperm : index.toList.Perm (holes l ++ holes R)) : index.size + 1 < 2 ^ 60 := by
  have hle := hperm.length_eq
  have hsz := w.size_lt
  have hR := g.holes_length
  rw [length_toList, List.length_append] at hle
  rw [w.size_eq, holes_append, holes_cons_used hused, List.length_append] at hsz
  omega

/-- The footer of the hole `[a, e)` where the memory at its end is that of one with the footer. -/
theorem FooterOk.at_end {m m' : Mem} {a e : Nat} (hf : FooterOk m ⟨a, e - a, false⟩)
    (he : a + 32 ≤ e) (hs : Mem.Same m m' (e - 16) e) : FooterOk m' ⟨a, e - a, false⟩ := by
  have hseg : Seg.fin (⟨a, e - a, false⟩ : Chunk) = e :=
    Nat.add_sub_cancel' (show a ≤ e by omega)
  refine hf.same (show 16 ≤ e - a by omega) ?_
  rwa [hseg]

theorem footerOk_end (m : Mem) {a e : Nat} (he : a + 32 ≤ e) (hlt : e < 2 ^ 64) :
    FooterOk (writeFooter (e - 16) a m) ⟨a, e - a, false⟩ := by
  have hf := footerOk_writeFooter m (c := ⟨a, e - a, false⟩) (show a < 2 ^ 64 by omega)
  rwa [show Seg.fin (⟨a, e - a, false⟩ : Chunk) = e from
    Nat.add_sub_cancel' (show a ≤ e by omega)] at hf

/-- **`free` on tagged chunks.** The left test finds the chunk on the left or nothing, the right one
no header behind the last chunk, and a hole that ends the heap survives the contraction. -/
theorem Indexed.merged {σ : Type} (pg : KernelPages σ) (s : σ) (w : Indexed h (l ++ c :: r))
    (hused : c.tag = true)
    (hleft : ∀ a, leftHeader h (c.addr + 16) = some a →
      ∃ L d, l = L ++ [d] ∧ d.tag = false ∧ d.addr = a)
    (hout : r = [] → ¬ rightHole h (c.addr + 16))
    (hok : mergedEnd h (c.addr + 16) = h.endAddress →
      mergedStart h (c.addr + 16) - h.startAddress + 32 ≤
          contractSize (mergedStart h (c.addr + 16) - h.startAddress) ∧
        contractSize (mergedStart h (c.addr + 16) - h.startAddress) ≤
          h.endAddress - h.startAddress) :
    ∃ L R, Merged h c (free pg (c.addr + 16) h s).1 l r L R := by
  have hmin := w.min c (by simp)
  have hend := w.endLt
  have hfin : c.fin = c.addr + c.size := rfl
  obtain ⟨g, hfree, hmem, hindex, hstart, hend⟩ := w.free_eq pg s
  rw [hfree]
  obtain ⟨L, m, hleft, hL, htL, hle, hhead, hfootL, hlow, hhigh, hin⟩ := w.unifyLeft hmem hleft
  have hLlo := htL.le
  obtain ⟨R, g2, hright, hR, htR, hge, hidx, hperm, hstart2, hend2, hhead2, hsame2⟩ :=
    w.unifyRight (g := onMem (fun _ => m) g) hout hused hindex hle hhead hhigh
  have hRhi := htR.le
  obtain ⟨k, u, hcon, h1, h2, hidx3, hstart3, hhead3, hsame3, hin3, hend3⟩ :=
    w.contracted pg s (add64 (c.fin - 16) sizeofFooter)
      (hstart2.trans hstart) (hend2.trans hend) hLlo (by omega) hRhi hhead2 hok
      (n := finalEnd h (c.addr + 16)) (by unfold finalEnd; rfl)
  unfold freeMerge
  simp only [hleft, hright, hcon]
  have merge : Merge h (c.addr + 16) l r L R := ⟨hL, hR⟩
  rw [hidx] at hperm
  have hslots := w.merged_slots hused merge hperm
  obtain ⟨f, hf, hfm, hfs, hfe⟩ : ∃ f, (if (leftHeader h (c.addr + 16)).isNone = true then
      insertIndex (mergedStart h (c.addr + 16)) k else k) = f ∧ f.mem = k.mem ∧
      f.startAddress = k.startAddress ∧ f.endAddress = k.endAddress := by
    refine ⟨_, rfl, ?_⟩
    split <;> exact ⟨rfl, rfl, rfl⟩
  have hfi : f.index = if leftHeader h (c.addr + 16) = none then
      insertOrderedArray (headerTLessThan f.mem) (mergedStart h (c.addr + 16))
        (mergedIndex h (c.addr + 16)) else mergedIndex h (c.addr + 16) := by
    rw [hfm, ← hf, ← hidx, ← hidx3]
    simp only [Option.isNone_iff_eq_none]
    split <;> rfl
  rw [hf]
  refine ⟨L, R, merge, ⟨hfs.trans hstart3, by rw [hfm]; exact hhead3, hfi⟩, htL, htR, ⟨hle, hge⟩, h1,
    ?_, ?_, ?_, fun hfoot hcase => ?_, fun x hlo hhi => ?_⟩
  · rw [hfm]
    exact (hlow.trans (hsame2 0 _ (.inl (Nat.le_refl _)))).trans hsame3
  · rw [hfi]
    exact merge.index_perm hperm (by omega) _
  · rcases hend3 with ⟨hne, -, hke, hkm⟩ | ⟨he, hke⟩
    · refine .inl ⟨hne, hfe.trans hke, fun hi => ?_⟩
      rw [hfm, hkm]
      exact (hhigh hi).trans (hsame2 _ _ (.inr (by omega)))
    · exact .inr ⟨he, hfe.trans hke, by omega⟩
  · unfold mergedHole
    by_cases he : mergedEnd h (c.addr + 16) = h.endAddress
    · -- the contraction writes the footer
      refine (footerOk_end g2.mem h1 (by omega)).at_end h1 fun x hx _ => ?_
      rw [hfm, hin3 x (by omega), if_pos he]
    · -- the block's own footer
      obtain ⟨-, hfe', -, hkm⟩ := hend3.resolve_right fun h => he h.1
      have hce : mergedEnd h (c.addr + 16) = c.fin := by
        unfold mergedEnd
        rw [if_neg (hcase.resolve_right he), w.blockEnd_eq]
      rw [hfe', hce, hfm, hkm]
      exact (hfootL hfoot).at_end (by omega) (hsame2 _ _ (.inr (by omega)))
  · have hx : g2.mem x = h.mem x :=
      (hsame2 x (x + 1) (.inr (by omega)) x (Nat.le_refl _) (Nat.lt_succ_self _)).trans
        (hin x hlo hhi)
    rw [hfm, hin3 x (by omega)]
    unfold leftMem
    split
    · exact writeFooter_congr _ _ hx
    · exact hx

/-- Where the merged hole lies and what memory it was put in; `h'` is the heap after `free`. -/
structure Placed (h : Heap) (p : Nat) (h' : Heap) (L R : List Chunk) : Prop extends
    Freed h p h' where
  tilesLeft : Tiles h.startAddress (mergedStart h p) L
  tilesRight : Tiles (mergedEnd h p) h.endAddress R
  size : mergedStart h p + 32 ≤ finalEnd h p
  low : Mem.Same h.mem h'.mem 0 (mergedStart h p)
  perm : h'.index.toList.Perm (holes (L ++ ([mergedHole h p] ++ R)))
  ends : finalEnd h p = mergedEnd h p ∧ h'.endAddress = h.endAddress ∧
      (∀ hi, Mem.Same h.mem h'.mem (mergedEnd h p) hi) ∨
    mergedEnd h p = h.endAddress ∧ h'.endAddress = finalEnd h p ∧ finalEnd h p % 4096 = 0 ∧
      finalEnd h p ≤ h.endAddress ∧ h.startAddress + heapMinSize ≤ finalEnd h p

/-- The chunks around the merged hole, put back together. -/
theorem Placed.wf {p : Nat} {L mid R : List Chunk} {h' : Heap} (w : Wf h (L ++ (mid ++ R)))
    (g : Placed h p h' L R) : Wf h' (L ++ mergedHole h p :: R) := by
  have hsize : ∀ d ∈ [mergedHole h p], 32 ≤ d.size := by
    intro d hd
    rw [List.mem_singleton.1 hd]
    have := g.size
    unfold mergedHole
    dsimp only
    omega
  have hhead : ∀ d ∈ [mergedHole h p], HeaderOk h'.mem d := by
    intro d hd
    rw [List.mem_singleton.1 hd]
    exact g.header
  have hfoot : ∀ d ∈ [mergedHole h p], d.tag = true → FooterOk h'.mem d := by
    intro d hd hu
    rw [List.mem_singleton.1 hd] at hu
    cases hu
  have htile : Tiles (mergedStart h p) (finalEnd h p) [mergedHole h p] := by
    have := g.size
    simp only [mergedHole, tiles_cons, tiles_nil, Seg.fin, true_and]
    omega
  rcases g.ends with ⟨he, hend, hhigh⟩ | ⟨he, hend, hpage, hle, hmin⟩
  · have htile : Tiles (mergedStart h p) (mergedEnd h p) [mergedHole h p] := by rwa [← he]
    exact Wf.replace (Q := [mergedHole h p]) w g.tilesLeft g.tilesRight htile hsize g.low (hhigh _) hhead
      hfoot g.perm g.start hend
  · -- nothing can follow a hole that ends the heap
    have hnil : R = [] := by
      cases R with
      | nil => rfl
      | cons d R =>
        have h1 := g.tilesRight.1
        have h2 := g.tilesRight.2.le
        have h3 := w.min d (by simp)
        unfold Seg.fin at h2
        omega
    subst hnil
    rw [List.append_nil] at w
    have hmax := w.maxLength
    rw [← hend] at htile hpage hmin hle
    exact Wf.replaceEnd (Q := [mergedHole h p]) w g.tilesLeft htile hsize g.low hhead hfoot
      g.perm g.start hpage hmin (by omega)

/-- The left neighbour that `FreeOk` asks for is the last chunk below the block. -/
theorem Wf.leftChunk (w : Wf h (l ++ c :: r))
    (hleft : ∀ a, leftHeader h (c.addr + 16) = some a →
      a ∈ h.index.toList ∧ a + sizeAt h.mem a = c.addr + 16 - 16) :
    ∀ a, leftHeader h (c.addr + 16) = some a → ∃ L d, l = L ++ [d] ∧ d.tag = false ∧ d.addr = a := by
  intro a ha
  obtain ⟨hin, hend⟩ := hleft a ha
  obtain ⟨d, hd, hhole, rfl⟩ := mem_holes.1 (w.index.mem_iff.1 hin)
  rw [(w.header d hd).size, Nat.add_sub_cancel] at hend
  have hdmin := w.min d hd
  obtain ⟨hl, hr⟩ := w.indexed.split rfl
  have hfin : c.fin = c.addr + c.size := rfl
  have hdl : d ∈ l := by
    rcases List.mem_append.1 hd with hd | hd
    · exact hd
    · rcases List.mem_cons.1 hd with rfl | hd
      · omega
      · have := (hr.bounds hd).1
        omega
  obtain ⟨L, rfl⟩ := hl.last_of_fin (fun e he => by
    have := w.min e (List.mem_append_left _ he)
    omega) hdl hend
  exact ⟨L, d, rfl, hhole, rfl⟩

theorem Wf.merged_lt (w : Wf h (l ++ c :: r))
    (hleft : ∀ a, leftHeader h (c.addr + 16) = some a →
      a ∈ h.index.toList ∧ a + sizeAt h.mem a = c.addr + 16 - 16) :
    mergedStart h (c.addr + 16) < h.endAddress := by
  have hb := w.indexed.bounds (c := c) (by simp)
  have hmin := w.min c (by simp)
  have hfin : c.fin = c.addr + c.size := rfl
  unfold mergedStart
  rcases hl : leftHeader h (c.addr + 16) with _ | a
  · rw [Option.getD_none]
    omega
  · have := (hleft a hl).2
    rw [Option.getD_some]
    omega

/-- **What `free` does** to the chunks and to the inside of the block. -/
theorem Wf.placed {σ : Type} (pg : KernelPages σ) (s : σ) (w : Wf h (l ++ c :: r))
    (hused : c.tag = true) (hout : magicAt h.mem h.endAddress ≠ heapMagic)
    (hok : FreeOk h (c.addr + 16)) :
    ∃ L R, Merge h (c.addr + 16) l r L R ∧
      Placed h (c.addr + 16) (free pg (c.addr + 16) h s).1 L R ∧
      ∀ x, c.addr + 16 ≤ x → x < c.fin - 16 →
        (free pg (c.addr + 16) h s).1.mem x = leftMem h (c.addr + 16) x := by
  have hmin := w.min c (by simp)
  have hfin : c.fin = c.addr + c.size := rfl
  obtain ⟨L, R, m⟩ := w.indexed.merged pg s hused (w.leftChunk hok.left)
    (w.indexed.not_rightHole hout)
    fun he => ⟨hok.contract he, (w.contractSize_le (w.merged_lt hok.left)).2.2⟩
  refine ⟨L, R, m.toMerge, ⟨m.toFreed, m.tilesLeft, m.tilesRight, m.size, m.low, m.perm, ?_⟩, m.inner⟩
  rcases m.ends with ⟨hne, hend, hsame⟩ | ⟨he, hend, hle⟩
  · exact .inl ⟨if_neg hne, hend, fun hi => (hsame hi).mono m.within.2 (Nat.le_refl _)⟩
  · have hn : finalEnd h (c.addr + 16) = h.startAddress +
        contractSize (mergedStart h (c.addr + 16) - h.startAddress) := if_pos he
    obtain ⟨hpage, hminl, -⟩ := w.contractSize_le (w.merged_lt hok.left)
    have hp := w.startPage
    exact .inr ⟨he, hend, by omega, hle, by omega⟩

/-- **`free` keeps the heap well formed**, and with it every other block in use. -/
theorem Wf.freed {σ : Type} (pg : KernelPages σ) (s : σ) (w : Wf h (l ++ c :: r))
    (hused : c.tag = true) (hout : magicAt h.mem h.endAddress ≠ heapMagic)
    (hok : FreeOk h (c.addr + 16)) :
    ∃ L R, Merge h (c.addr + 16) l r L R ∧
      Wf (free pg (c.addr + 16) h s).1 (L ++ mergedHole h (c.addr + 16) :: R) ∧
      Freed h (c.addr + 16) (free pg (c.addr + 16) h s).1 := by
  obtain ⟨L, R, merge, placed, -⟩ := w.placed pg s hused hout hok
  obtain ⟨mid, hmid⟩ := merge.mid c
  rw [hmid] at w
  exact ⟨L, R, merge, placed.wf w, placed.toFreed⟩

end

end Kheap
