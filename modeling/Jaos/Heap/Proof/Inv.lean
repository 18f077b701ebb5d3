import Jaos.Heap.Proof.Layout

/-!
# The heap invariant

`Wf h cs`: the heap `h` is cut into the chunks `cs`. They tile `[startAddress, endAddress)`, each
has its header in memory and each block in use its footer, and the index lists the holes. The
footer of a hole is not part of it: `create_heap` writes none, and a merge with the right neighbour
leaves the old one behind.

Every operation replaces some neighbouring chunks by others with the same ends (`Wf.replace`) or
moves the end of the heap (`Wf.replaceEnd`).
-/

namespace Kheap

open Lib OrderedArray

/-- **The heap invariant** (module doc). -/
structure Wf (h : Heap) (cs : List Chunk) : Prop where
  tiles : Tiles h.startAddress h.endAddress cs
  min : ∀ c ∈ cs, 32 ≤ c.size
  header : ∀ c ∈ cs, HeaderOk h.mem c
  footer : ∀ c ∈ cs, c.tag = true → FooterOk h.mem c
  index : h.index.toList.Perm (holes cs)
  startPage : h.startAddress % 4096 = 0
  endPage : h.endAddress % 4096 = 0
  minLength : h.startAddress + heapMinSize ≤ h.endAddress
  startLow : 16 ≤ h.startAddress
  startHigh : h.startAddress < 2 ^ 32
  maxLength : h.endAddress ≤ h.startAddress + 2 ^ 32

namespace Wf

variable {h : Heap} {cs : List Chunk} (w : Wf h cs)
include w

theorem end_lt : h.endAddress < 2 ^ 34 := by
  have := w.startHigh
  have := w.maxLength
  omega

theorem indexed : Indexed h cs where
  tiles := w.tiles
  min := w.min
  header := w.header
  startLow := w.startLow
  endLt := Nat.lt_trans w.end_lt (by decide)
  index := w.index

theorem chunk_lt {c : Chunk} (hc : c ∈ cs) : 16 ≤ c.addr ∧ c.addr + c.size < 2 ^ 34 := by
  have h1 := w.indexed.bounds hc
  have h2 := w.end_lt
  have h3 := w.startLow
  unfold Seg.fin at h1
  omega

theorem size_lt : h.index.size < 2 ^ 32 := by
  have h1 := tiles_length w.tiles w.min
  have h2 := length_holes_le cs
  have h3 := w.maxLength
  rw [w.indexed.size_eq]
  omega

/-- A footer stays where the chunk's bytes do. -/
theorem kept_footer {m' : Mem} {c : Chunk} (hc : c ∈ cs) (hu : c.tag = true)
    (hs : h.mem.Same m' c.addr c.fin) : FooterOk m' c := by
  have hmin := w.min c hc
  have hfin : c.fin = c.addr + c.size := rfl
  exact (w.footer c hc hu).same (by omega) (hs.mono (by omega) (Nat.le_refl _))

end Wf

/-! ## Replacing chunks -/

section
variable {h h' : Heap} {l P Q r : List Chunk} {lo hi : Nat}

/-- **Neighbouring chunks replaced** by others with the same ends; the memory outside them is
unchanged. -/
theorem Wf.replace (w : Wf h (l ++ (P ++ r))) (hl : Tiles h.startAddress lo l)
    (hr : Tiles hi h.endAddress r) (ht : Tiles lo hi Q) (hmin : ∀ c ∈ Q, 32 ≤ c.size)
    (hlow : Mem.Same h.mem h'.mem 0 lo) (hhigh : Mem.Same h.mem h'.mem hi h.endAddress)
    (hhead : ∀ c ∈ Q, HeaderOk h'.mem c) (hfoot : ∀ c ∈ Q, c.tag = true → FooterOk h'.mem c)
    (hindex : h'.index.toList.Perm (holes (l ++ (Q ++ r))))
    (hstart : h'.startAddress = h.startAddress) (hend : h'.endAddress = h.endAddress) :
    Wf h' (l ++ (Q ++ r)) := by
  have w' := w.indexed.toLayout.replace hl hr ht hmin hlow hhigh hhead hstart hend
  have old : ∀ c, c ∈ l ∨ c ∈ r → c.tag = true → FooterOk h'.mem c := by
    intro c hc hu
    have hm : c ∈ l ++ (P ++ r) := by rcases hc with hc | hc <;> simp [hc]
    refine w.kept_footer hm hu ?_
    rcases hc with hc | hc
    · exact hlow.mono (Nat.zero_le _) (hl.bounds hc).2
    · exact hhigh.mono (hr.bounds hc).1 (hr.bounds hc).2
  constructor
  · exact w'.tiles
  · exact w'.min
  · exact w'.header
  · intro c hc hu
    simp only [List.mem_append] at hc
    rcases hc with hc | hc | hc
    · exact old c (.inl hc) hu
    · exact hfoot c hc hu
    · exact old c (.inr hc) hu
  · exact hindex
  · rw [hstart]; exact w.startPage
  · rw [hend]; exact w.endPage
  · rw [hstart, hend]; exact w.minLength
  · rw [hstart]; exact w.startLow
  · rw [hstart]; exact w.startHigh
  · rw [hstart, hend]; exact w.maxLength

/-- **The chunks at the end replaced**, the end moved. -/
theorem Wf.replaceEnd (w : Wf h (l ++ P)) (hl : Tiles h.startAddress lo l)
    (ht : Tiles lo h'.endAddress Q) (hmin : ∀ c ∈ Q, 32 ≤ c.size)
    (hlow : Mem.Same h.mem h'.mem 0 lo)
    (hhead : ∀ c ∈ Q, HeaderOk h'.mem c) (hfoot : ∀ c ∈ Q, c.tag = true → FooterOk h'.mem c)
    (hindex : h'.index.toList.Perm (holes (l ++ Q)))
    (hstart : h'.startAddress = h.startAddress) (hpage : h'.endAddress % 4096 = 0)
    (hminLength : h.startAddress + heapMinSize ≤ h'.endAddress)
    (hmaxLength : h'.endAddress ≤ h.startAddress + 2 ^ 32) : Wf h' (l ++ Q) := by
  have old : ∀ c ∈ l, 32 ≤ c.size ∧ HeaderOk h'.mem c ∧ (c.tag = true → FooterOk h'.mem c) := by
    intro c hc
    have hm : c ∈ l ++ P := List.mem_append_left _ hc
    have hs : Mem.Same h.mem h'.mem c.addr c.fin := hlow.mono (Nat.zero_le _) (hl.bounds hc).2
    exact ⟨w.min c hm, w.indexed.kept hm hs, fun hu => w.kept_footer hm hu hs⟩
  constructor
  · rw [hstart]
    exact tiles_append.2 ⟨lo, hl, ht⟩
  · exact fun c hc => (List.mem_append.1 hc).elim (fun h => (old c h).1) (hmin c)
  · exact fun c hc => (List.mem_append.1 hc).elim (fun h => (old c h).2.1) (hhead c)
  · exact fun c hc => (List.mem_append.1 hc).elim (fun h => (old c h).2.2) (hfoot c)
  · exact hindex
  · rw [hstart]; exact w.startPage
  · exact hpage
  · rw [hstart]; exact hminLength
  · rw [hstart]; exact w.startLow
  · rw [hstart]; exact w.startHigh
  · rw [hstart]; exact hmaxLength

end

end Kheap
