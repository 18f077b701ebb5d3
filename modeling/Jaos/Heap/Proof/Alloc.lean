import Jaos.Heap.Proof.Inv

/-!
# `alloc` on a well-formed heap

`allocFrom_eq`: taking a hole cuts it into an optional front hole, the block and an optional rear
hole (`carved`), writes the tags of all three and updates the index. `SplitOk` is the condition on
the aligned case that the pieces are real chunks: the C code only looks at the whole hole before it
decides to absorb a small rest, and it computes the front's size without the carry into the next
page.
-/

namespace Kheap

open Lib OrderedArray

/-! ## The search -/

section
variable {size pageAlign i : Nat} {h : Heap}

theorem find_some (hf : findSmallestHole size pageAlign h = some i) :
    i < h.index.size ∧ fits size pageAlign h.mem (h.index.array i) = true ∧
      ∀ j < i, fits size pageAlign h.mem (h.index.array j) = false := by
  unfold findSmallestHole at hf
  dsimp only at hf
  split at hf
  · cases hf
  · rename_i hne
    cases hf
    have hle := scan_le (fun i => !fits size pageAlign h.mem (lookupOrderedArray i h.index))
      h.index.size 0
    have hlt : scan (fun i => !fits size pageAlign h.mem (lookupOrderedArray i h.index))
      h.index.size 0 < h.index.size := by omega
    have hstop := scan_stop (fun i => !fits size pageAlign h.mem (lookupOrderedArray i h.index))
      (k := h.index.size) (i := 0) (by omega)
    refine ⟨hlt, ?_, fun j hj => ?_⟩
    · simpa [lookup_eq hlt] using hstop
    · have := scan_before _ (Nat.zero_le j) hj
      simpa [lookup_eq (Nat.lt_trans hj hlt)] using this

theorem find_none (hf : findSmallestHole size pageAlign h = none) :
    ∀ j < h.index.size, fits size pageAlign h.mem (h.index.array j) = false := by
  unfold findSmallestHole at hf
  dsimp only at hf
  split at hf
  · rename_i he
    intro j hj
    have := scan_before _ (Nat.zero_le j) (he ▸ hj)
    simpa [lookup_eq hj] using this
  · cases hf

end

theorem fits_plain {size : Nat} {m : Mem} {a : Nat} :
    fits size 0 m a = true ↔ size ≤ sizeAt m a := by simp [fits]

/-- The distance from the payload address of a header at `a` to the next page. -/
def pageOffset (a : Nat) : Nat := if (a + 16) % 4096 ≠ 0 then 4096 - (a + 16) % 4096 else 0

theorem fits_aligned {size pageAlign : Nat} {m : Mem} {a : Nat} (ha : a + 16 < 2 ^ 64)
    (hp : 0 < pageAlign) :
    fits size pageAlign m a = true ↔
      pageOffset a < sizeAt m a ∧ size + pageOffset a ≤ sizeAt m a := by
  have hs : sizeAt m a < 2 ^ 64 := Mem.load_lt m (a + 8) 8
  unfold fits
  rw [if_pos hp]
  simp only [add64_of_lt ha, and_fff, Bool.and_eq_true, decide_eq_true_eq]
  change pageOffset a < _ ∧ _ ≤ sub64 _ (pageOffset a) ↔ _
  constructor
  · rintro ⟨h1, h2⟩
    rw [sub64_of_le (by omega) hs] at h2
    omega
  · rintro ⟨h1, h2⟩
    rw [sub64_of_le (by omega) hs]
    omega

/-! ## Cutting a hole -/

/-- The hole from `a` to `e`, if it is not empty. -/
def gap (a e : Nat) : List Chunk := if a = e then [] else [⟨a, e - a, false⟩]

/-- The hole `[a, e)` with a block of `n` bytes at `pos` cut out. -/
def carved (a e pos n : Nat) : List Chunk := gap a pos ++ ⟨pos, n, true⟩ :: gap (pos + n) e

theorem tiles_gap {a e : Nat} (h : a ≤ e) : Tiles a e (gap a e) := by
  unfold gap
  split
  · assumption
  · simp only [tiles_cons, tiles_nil, Seg.fin, true_and]
    omega

theorem tiles_carved {a e pos n : Nat} (h1 : a ≤ pos) (h2 : pos + n ≤ e) :
    Tiles a e (carved a e pos n) :=
  tiles_append.2 ⟨pos, tiles_gap h1, rfl, tiles_gap h2⟩

theorem gap_size {a e : Nat} (h : e = a ∨ a + 32 ≤ e) : ∀ c ∈ gap a e, 32 ≤ c.size := by
  intro c hc
  unfold gap at hc
  split at hc
  · cases hc
  · simp only [List.mem_singleton] at hc
    subst hc
    dsimp only
    omega

theorem carved_size {a e pos n : Nat} (h1 : pos = a ∨ a + 32 ≤ pos) (hn : 32 ≤ n)
    (h2 : e = pos + n ∨ pos + n + 32 ≤ e) : ∀ c ∈ carved a e pos n, 32 ≤ c.size := by
  intro c hc
  unfold carved at hc
  rcases List.mem_append.1 hc with hc | hc
  · exact gap_size h1 c hc
  · rcases List.mem_cons.1 hc with rfl | hc
    · exact hn
    · exact gap_size h2 c hc

theorem writeTags_hole (a n : Nat) (m : Mem) :
    writeTags ⟨a, n, false⟩ m = writeFooter (a + n - 16) a (writeHeader a 1 n m) := rfl

theorem writeTags_block (a n : Nat) (m : Mem) :
    writeTags ⟨a, n, true⟩ m = writeFooter (a + n - 16) a (writeHeader a 0 n m) := rfl

theorem splitFront_eq {a n : Nat} {h : Heap} (ha : a % 4096 + 48 ≤ 4096) (hlt : a + n < 2 ^ 64)
    (hn : 4080 - a % 4096 ≤ n) :
    splitFront a n h = (a + (4080 - a % 4096), n - (4080 - a % 4096),
      onMem (writeTags ⟨a, 4080 - a % 4096, false⟩) h) := by
  unfold splitFront
  dsimp only [memBlockSize, sizeofHeader, sizeofFooter]
  have e1 : sub64 (sub64 (add64 a 4096) (a &&& 0xFFF)) 16 =
      a + (4080 - a % 4096) := by
    rw [and_fff]
    unfold add64 sub64
    omega
  have e2 : sub64 (sub64 4096 (a &&& 0xFFF)) 16 = 4080 - a % 4096 := by
    simp (disch := omega) only [and_fff, sub64_of_le]
    omega
  have e3 : sub64 (a + (4080 - a % 4096)) 16 = a + (4080 - a % 4096) - 16 :=
    sub64_of_le (by omega) (by omega)
  have hs : sizeAt (writeTags ⟨a, 4080 - a % 4096, false⟩ h.mem) a = 4080 - a % 4096 :=
    (tagsOk_writeTags h.mem (c := ⟨a, 4080 - a % 4096, false⟩) (by dsimp only; omega)
      (by unfold Seg.fin; dsimp only; omega)).1.size
  simp only [e1, e2, e3, onMem_onMem, onMem_mem, ← writeTags_hole, hs]
  rw [sub64_of_le hn (by omega)]

theorem writeBlock_eq {pos size : Nat} {h : Heap} (hlt : pos + size + 32 < 2 ^ 64) :
    writeBlock pos size (size + 32) h = onMem (writeTags ⟨pos, size + 32, true⟩) h := by
  unfold writeBlock
  dsimp only [sizeofHeader]
  simp (disch := omega) only [add64_of_lt]
  simp only [show pos + 16 + size = pos + (size + 32) - 16 by omega, ← writeTags_block]

theorem splitRear_eq {pos size holeSize : Nat} {h : Heap} (hle : size + 32 ≤ holeSize)
    (hlt : pos + holeSize < 2 ^ 64) (hend : pos + holeSize ≤ h.endAddress) :
    splitRear pos size (size + 32) holeSize h =
      if pos + (size + 32) = pos + holeSize then h
      else insertIndex (pos + (size + 32))
        (onMem (writeTags ⟨pos + (size + 32), holeSize - (size + 32), false⟩) h) := by
  unfold splitRear
  dsimp only [sizeofHeader, sizeofFooter]
  have e1 : sub64 holeSize (size + 32) = holeSize - (size + 32) := sub64_of_le hle (by omega)
  have e2 : add64 (add64 (add64 pos 16) size) 16 = pos + (size + 32) := by
    simp (disch := omega) only [add64_of_lt]
    omega
  have e3 : sub64 (sub64 (add64 (pos + (size + 32)) holeSize) (size + 32)) 16 =
      pos + (size + 32) + (holeSize - (size + 32)) - 16 := by
    unfold add64 sub64
    omega
  simp only [e1, e2, e3]
  by_cases hz : holeSize = size + 32
  · rw [if_neg (by omega), if_pos (by omega)]
  · have hrest : 0 < holeSize - (size + 32) := by omega
    have hfoot : pos + (size + 32) + (holeSize - (size + 32)) - 16 < h.endAddress := by omega
    have hne : pos + (size + 32) ≠ pos + holeSize := by omega
    simp only [onMem_endAddress, hrest, hfoot, hne, if_true, if_false, onMem_onMem,
      ← writeTags_hole]

/-- The place of the block in a hole at `a`. -/
def cutPos (pageAlign a : Nat) : Nat :=
  if pageAlign ≠ 0 ∧ (a + 16) % 4096 ≠ 0 then a + (4080 - a % 4096) else a

/-- The chunk size of the block at `pos` in a hole that ends at `e`. -/
def cutSize (size pos e : Nat) : Nat := if e < pos + size + 64 then e - pos else size + 32

/-- The pieces cut from the hole `[a, e)` are real chunks (module doc). -/
def SplitOk (size pageAlign a e : Nat) : Prop :=
  pageAlign = 0 ∨ (a + 16) % 4096 = 0 ∨
    (a % 4096 + 48 ≤ 4096 ∧
      (e = cutPos pageAlign a + size + 32 ∨ cutPos pageAlign a + size + 64 ≤ e))

instance (size pageAlign a e : Nat) : Decidable (SplitOk size pageAlign a e) := by
  unfold SplitOk
  infer_instance

/-- The heap with the block of `n` bytes at `pos` cut out of the hole `[a, e)` at slot `i`. -/
def taken (i a e pos n : Nat) (h : Heap) : Heap :=
  let h := if pos = a then removeIndex i h else onMem (writeTags ⟨a, pos - a, false⟩) h
  let h := onMem (writeTags ⟨pos, n, true⟩) h
  if pos + n = e then h
  else insertIndex (pos + n) (onMem (writeTags ⟨pos + n, e - (pos + n), false⟩) h)

theorem cut_bounds {size pageAlign a n : Nat} {m : Mem} (hn : sizeAt m a = n) (hmin : 32 ≤ n)
    (ha : a + n < 2 ^ 64)
    (hfit : fits (size + 32) pageAlign m a = true) (hs : SplitOk size pageAlign a (a + n)) :
    (cutPos pageAlign a = a ∨ a + 32 ≤ cutPos pageAlign a) ∧
      cutPos pageAlign a + size + 32 ≤ a + n := by
  subst hn
  by_cases hp : pageAlign = 0
  · subst hp
    have := fits_plain.1 hfit
    have : cutPos 0 a = a := if_neg (by simp)
    omega
  · have hfit := (fits_aligned (by omega) (by omega)).1 hfit
    unfold pageOffset at hfit
    unfold SplitOk at hs
    unfold cutPos at hs ⊢
    split at hs <;> split at hfit <;> split <;> omega

section
variable {size pageAlign i a n : Nat} {h : Heap}

/-- **A hole with a front part**: nothing is absorbed, whatever is left behind the block. -/
theorem allocFrom_front (ha : lookupOrderedArray i h.index = a) (hn : sizeAt h.mem a = n)
    (hend : a + n ≤ h.endAddress) (hlt : h.endAddress < 2 ^ 64)
    (hfront : pageAlign ≠ 0 ∧ (a + 16) % 4096 ≠ 0) (hpage : a % 4096 + 48 ≤ 4096)
    (hroom : cutPos pageAlign a + size + 32 ≤ a + n) :
    allocFrom size pageAlign i h =
      (cutPos pageAlign a + 16, taken i a (a + n) (cutPos pageAlign a) (size + 32) h) := by
  have hcut : cutPos pageAlign a = a + (4080 - a % 4096) := if_pos hfront
  rw [hcut] at hroom ⊢
  have hnew : add64 (add64 size sizeofHeader) sizeofFooter = size + 32 := by
    simp (disch := omega) only [add64_of_lt, sizeofHeader, sizeofFooter]
  have hle : size + 32 ≤ n := by omega
  have habs : ¬ n - (size + 32) < 16 + 16 := by omega
  unfold allocFrom
  simp only [ha, hn, hnew, sub64_of_le hle (by omega), sizeofHeader, sizeofFooter,
    add64_of_lt (show a + 16 < 2 ^ 64 by omega), and_fff, hfront, habs, if_true, if_false, ne_eq,
    not_false_eq_true, and_self]
  rw [splitFront_eq hpage (by omega) (by omega)]
  dsimp only
  rw [writeBlock_eq (by omega), splitRear_eq (by omega) (by omega)
    (by simp only [onMem_endAddress]; omega), add64_of_lt (by omega)]
  unfold taken
  rw [if_neg (by omega : ¬ a + (4080 - a % 4096) = a), Nat.add_sub_cancel_left,
    show a + (4080 - a % 4096) + (n - (4080 - a % 4096)) = a + n by omega,
    show n - (4080 - a % 4096) - (size + 32) =
      a + n - (a + (4080 - a % 4096) + (size + 32)) by omega]

/-- **A hole taken from its lower end**; a small rest is absorbed. -/
theorem allocFrom_whole (ha : lookupOrderedArray i h.index = a) (hn : sizeAt h.mem a = n)
    (hend : a + n ≤ h.endAddress) (hlt : h.endAddress < 2 ^ 64)
    (hfront : ¬ (pageAlign ≠ 0 ∧ (a + 16) % 4096 ≠ 0)) (hle : size + 32 ≤ n) :
    allocFrom size pageAlign i h = (a + 16, taken i a (a + n) a (cutSize size a (a + n)) h) := by
  have hnew : add64 (add64 size sizeofHeader) sizeofFooter = size + 32 := by
    simp (disch := omega) only [add64_of_lt, sizeofHeader, sizeofFooter]
  unfold allocFrom
  simp only [ha, hn, hnew, sub64_of_le hle (by omega), sizeofHeader, sizeofFooter,
    add64_of_lt (show a + 16 < 2 ^ 64 by omega), and_fff, hfront, if_false]
  have hsize : (if n - (size + 32) < 16 + 16 then n else size + 32) = cutSize size a (a + n) := by
    unfold cutSize
    split <;> split <;> omega
  have hpay : (if n - (size + 32) < 16 + 16 then add64 size (n - (size + 32)) else size) =
      cutSize size a (a + n) - 32 := by
    unfold cutSize
    split <;> split <;> first | omega | (rw [add64_of_lt (by omega)]; omega)
  obtain ⟨k, hk⟩ : ∃ k, cutSize size a (a + n) = k + 32 := by
    refine ⟨cutSize size a (a + n) - 32, ?_⟩
    rw [← hsize]
    split <;> omega
  have hkn : k + 32 ≤ n := by
    rw [← hk, ← hsize]
    split <;> omega
  rw [hsize, hpay, hk, Nat.add_sub_cancel, writeBlock_eq (by omega), splitRear_eq (by omega)
    (by omega) (by simp only [onMem_endAddress, removeIndex_endAddress]; omega)]
  unfold taken
  rw [if_pos rfl, show n - (k + 32) = a + n - (a + (k + 32)) by omega]

/-- **Taking a hole**: the block is cut out of it. -/
theorem allocFrom_eq (ha : lookupOrderedArray i h.index = a) (hn : sizeAt h.mem a = n)
    (hmin : 32 ≤ n) (hend : a + n ≤ h.endAddress) (hlt : h.endAddress < 2 ^ 64)
    (hfit : fits (size + 32) pageAlign h.mem a = true) (hs : SplitOk size pageAlign a (a + n)) :
    allocFrom size pageAlign i h =
      (cutPos pageAlign a + 16,
        taken i a (a + n) (cutPos pageAlign a) (cutSize size (cutPos pageAlign a) (a + n)) h) := by
  obtain ⟨hpos, hroom⟩ := cut_bounds hn hmin (by omega) hfit hs
  by_cases hfront : pageAlign ≠ 0 ∧ (a + 16) % 4096 ≠ 0
  · have hs' : a % 4096 + 48 ≤ 4096 ∧ (a + n = cutPos pageAlign a + size + 32 ∨
        cutPos pageAlign a + size + 64 ≤ a + n) := by
      unfold SplitOk at hs
      omega
    have hsize : cutSize size (cutPos pageAlign a) (a + n) = size + 32 := by
      unfold cutSize
      split <;> omega
    rw [hsize]
    exact allocFrom_front ha hn hend hlt hfront hs'.1 hroom
  · have hcut : cutPos pageAlign a = a := if_neg hfront
    rw [hcut] at hroom ⊢
    exact allocFrom_whole ha hn hend hlt hfront (by omega)

end

/-! ## The heap after an allocation -/

section
variable {i a e pos n : Nat} {h : Heap}

theorem taken_mem : (taken i a e pos n h).mem = writeAll (carved a e pos n) h.mem := by
  unfold taken carved gap
  by_cases h1 : pos = a
  · rw [if_pos h1, if_pos h1.symm]
    split <;> rfl
  · rw [if_neg h1, if_neg (Ne.symm h1)]
    split <;> rfl

@[simp] theorem taken_startAddress : (taken i a e pos n h).startAddress = h.startAddress := by
  unfold taken
  split <;> split <;> rfl

@[simp] theorem taken_endAddress : (taken i a e pos n h).endAddress = h.endAddress := by
  unfold taken
  split <;> split <;> rfl

@[simp] theorem taken_maxAddress : (taken i a e pos n h).maxAddress = h.maxAddress := by
  unfold taken
  split <;> split <;> rfl

/-- The index between the front and the rear hole. -/
def keptIndex (i a pos : Nat) (h : Heap) : OrderedArray Nat :=
  if pos = a then removeOrderedArray i h.index else h.index

theorem taken_index : (taken i a e pos n h).index =
    if pos + n = e then keptIndex i a pos h
    else insertOrderedArray (headerTLessThan (taken i a e pos n h).mem) (pos + n)
      (keptIndex i a pos h) := by
  unfold taken keptIndex
  by_cases h2 : pos + n = e
  · simp only [if_pos h2, onMem_index]
    split <;> rfl
  · simp only [if_neg h2, insertIndex_index, insertIndex_mem, onMem_mem, onMem_index]
    split <;> rfl

theorem holes_gap (a e : Nat) : holes (gap a e) = if a = e then [] else [a] := by
  unfold gap
  split <;> rfl

theorem holes_carved (a e pos n : Nat) :
    holes (carved a e pos n) = holes (gap a pos) ++ holes (gap (pos + n) e) := by
  unfold carved
  rw [holes_append, holes_cons_used rfl]

variable {l r : List Chunk} {c : Chunk}

theorem Indexed.kept_index (w : Indexed h (l ++ c :: r)) (pos : Nat) (hc : c.tag = false)
    (hi : i < h.index.size) (ha : h.index.array i = c.addr) :
    (keptIndex i c.addr pos h).toList.Perm (holes (gap c.addr pos) ++ (holes l ++ holes r)) := by
  have hx : h.index.toList.Perm (c.addr :: (holes l ++ holes r)) := by
    have := w.index
    rw [holes_append, holes_cons_hole hc] at this
    exact this.trans List.perm_middle
  unfold keptIndex
  rw [holes_gap]
  by_cases hp : pos = c.addr
  · rw [if_pos hp, if_pos hp.symm]
    have hs := perm_remove hi (Nat.lt_trans w.size_lt (by decide))
    rw [ha] at hs
    exact (hs.symm.trans hx).cons_inv
  · rw [if_neg hp, if_neg (Ne.symm hp)]
    exact hx

/-- The index after the cut, slot by slot one more for every piece that is a hole of its own. -/
theorem Indexed.cut_index (w : Indexed h (l ++ c :: r)) (hc : c.tag = false) (hi : i < h.index.size)
    (ha : h.index.array i = c.addr) :
    (taken i c.addr c.fin pos n h).index.toList.Perm
      (holes (l ++ (carved c.addr c.fin pos n ++ r))) := by
  have hk := w.kept_index pos hc hi ha
  have hsize : (keptIndex i c.addr pos h).size < 2 ^ 60 := by
    have hle := hk.length_eq
    have hsz := w.size_lt
    rw [w.size_eq, holes_append, holes_cons_hole hc] at hsz
    rw [length_toList, holes_gap] at hle
    split at hle <;> simp only [List.length_append, List.length_cons, List.length_nil] at * <;>
      omega
  rw [taken_index, holes_append, holes_append, holes_carved, holes_gap (pos + n)]
  split
  · refine hk.trans (List.perm_iff_count.2 fun x => ?_)
    simp only [List.count_append, List.append_nil]
    omega
  · refine ((perm_insert _ _ (by omega)).trans (hk.cons _)).trans
      (List.perm_iff_count.2 fun x => ?_)
    simp only [List.count_append, List.count_cons, List.count_nil]
    omega

/-- **A block cut out of a hole**: the pieces are chunks with both tags, nothing else changes. -/
theorem Indexed.cut (w : Indexed h (l ++ c :: r)) (hc : c.tag = false) (hi : i < h.index.size)
    (ha : h.index.array i = c.addr) (h1 : pos = c.addr ∨ c.addr + 32 ≤ pos) (hn : 32 ≤ n)
    (h2 : c.fin = pos + n ∨ pos + n + 32 ≤ c.fin) :
    Indexed (taken i c.addr c.fin pos n h) (l ++ (carved c.addr c.fin pos n ++ r)) ∧
      (∀ d ∈ carved c.addr c.fin pos n, FooterOk (taken i c.addr c.fin pos n h).mem d) ∧
      ∀ lo hi, hi ≤ c.addr ∨ c.fin ≤ lo → Mem.Same h.mem (taken i c.addr c.fin pos n h).mem lo hi := by
  obtain ⟨hl, hr⟩ := w.split rfl
  have ht : Tiles c.addr c.fin (carved c.addr c.fin pos n) := tiles_carved (by omega) (by omega)
  have hmin := carved_size h1 hn h2
  have hfin : c.fin < 2 ^ 64 := (w.chunk_lt (c := c) (by simp)).2
  have tags := tagsOk_writeAll h.mem ht hmin hfin
  have hsame : ∀ lo hi, hi ≤ c.addr ∨ c.fin ≤ lo →
      Mem.Same h.mem (taken i c.addr c.fin pos n h).mem lo hi := by
    intro lo hi hx
    rw [taken_mem]
    exact same_writeAll _ ht hmin hx
  refine ⟨⟨?_, w.cut_index hc hi ha⟩, ?_, hsame⟩
  · refine Layout.replace (P := [c]) w.toLayout hl hr ht hmin (hsame _ _ (.inl (Nat.le_refl _)))
      (hsame _ _ (.inr (Nat.le_refl _))) ?_ taken_startAddress taken_endAddress
    rw [taken_mem]
    exact fun d hd => (tags d hd).1
  · rw [taken_mem]
    exact fun d hd => (tags d hd).2

theorem Wf.cut (w : Wf h (l ++ c :: r)) (hc : c.tag = false) (hi : i < h.index.size)
    (ha : h.index.array i = c.addr) (h1 : pos = c.addr ∨ c.addr + 32 ≤ pos) (hn : 32 ≤ n)
    (h2 : c.fin = pos + n ∨ pos + n + 32 ≤ c.fin) :
    Wf (taken i c.addr c.fin pos n h) (l ++ (carved c.addr c.fin pos n ++ r)) := by
  obtain ⟨w', hfoot, hsame⟩ := w.indexed.cut hc hi ha h1 hn h2
  obtain ⟨hl, hr⟩ := w.indexed.split rfl
  exact Wf.replace (P := [c]) w hl hr (tiles_carved (by omega) (by omega)) (carved_size h1 hn h2)
    (hsame _ _ (.inl (Nat.le_refl _))) (hsame _ _ (.inr (Nat.le_refl _)))
    (fun d hd => w'.header d (by simp [hd])) (fun d hd _ => hfoot d hd) w'.index
    taken_startAddress taken_endAddress

end

end Kheap
