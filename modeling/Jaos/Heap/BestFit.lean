import Jaos.Heap.WellFormed

/-!
# Plain allocation takes a smallest hole

`alloc_best_fit`: on a well-formed heap with a sorted index a call of `alloc` without alignment
that some hole has room for takes a smallest such hole. The hole becomes the block and at most one
hole behind it (`WellFormed.plain`), which goes to its place in the index, so the heap is well
formed and the index sorted again. The index never grows: the hole taken gives its slot away.
-/

namespace Kheap

open Lib OrderedArray

section
variable {h : Heap} {cs l r : List Chunk} {c : Chunk} {size : Nat}

/-- A hole with nothing in front of the block leaves at most one hole. -/
theorem Indexed.size_le {n i : Nat} (w : Indexed h (l ++ c :: r)) (hc : c.tag = false)
    (w' : Indexed (taken i c.addr c.fin c.addr n h) (l ++ (carved c.addr c.fin c.addr n ++ r))) :
    (taken i c.addr c.fin c.addr n h).index.size ≤ h.index.size := by
  have hgap : (holes (gap (c.addr + n) c.fin)).length ≤ 1 := by
    rw [holes_gap]
    split <;> simp
  rw [w'.size_eq, w.size_eq]
  simp only [holes_append, holes_carved, holes_cons_hole hc, List.length_append, List.length_cons,
    show gap c.addr c.addr = [] from if_pos rfl, holes_nil, List.length_nil]
  omega

/-- What a plain allocation of `size` bytes at `p` does: the block `b` comes from the hole `c`, a
smallest one that fits. -/
structure BestFit (h h' : Heap) (size p : Nat) (l r rear : List Chunk) (c b : Chunk) : Prop where
  hole : c.tag = false
  smallest : ∀ d ∈ l ++ c :: r, d.tag = false → size + 32 ≤ d.size → c.size ≤ d.size
  addr : p = b.addr + 16
  payload : size + 32 ≤ b.size
  carved : Carved h h' l r c b [] rear
  sorted : Ordered h'
  slots : h'.index.size ≤ h.index.size

/-- **Plain allocation is best fit and keeps the heap well formed.** -/
theorem alloc_best_fit {σ : Type} (pg : KernelPages σ) (fuel : Nat) (s : σ) (w : WellFormed h cs)
    (hs : Ordered h) (hsize : size + 32 < 2 ^ 64)
    (hfit : ∃ c ∈ cs, c.tag = false ∧ size + 32 ≤ c.size) :
    ∃ p h' l c r b rear, cs = l ++ c :: r ∧
      alloc pg (fuel + 1) size 0 h s = some (p, h', s) ∧ BestFit h h' size p l r rear c b := by
  obtain ⟨i, hf⟩ := w.find hfit
  obtain ⟨l, c, r, n, rfl, hhole, hi, ha, hn, hrest, heq, hcut⟩ := w.plain hsize hf
  have halloc := alloc_found pg fuel s hsize hf
  rw [heq] at halloc
  have w' := (w.toIndexed.cut hhole hi ha (.inl rfl) (by omega) hrest).1
  refine ⟨_, _, l, c, r, ⟨c.addr, n, true⟩, gap (c.addr + n) c.fin, rfl, halloc, hhole,
    fun d hd ht hfits => ?_, rfl, hn, hcut, ?_, w.toIndexed.size_le hhole w'⟩
  · obtain ⟨j, hj, hja⟩ := w.slot_of hd ht
    have hsmall := hs.smallest hf j hj (by rwa [hja, (w.header d hd).size])
    rwa [ha, hja, (w.header c (by simp)).size, (w.header d hd).size] at hsmall
  · exact w.toIndexed.ordered_cut hs hhole hi ha (.inl rfl) (by omega) hrest
      fun hne => absurd rfl hne

/-- 100 bytes from the heap of `kheap_init`. -/
theorem alloc_best_fit_sys0 :
    ∃ p h' l c r b rear, ([⟨0xC0019000, 0x17000, false⟩] : List Chunk) = l ++ c :: r ∧
      alloc bumpPages 1 100 0 sys0.heap 0 = some (p, h', 0) ∧
      BestFit sys0.heap h' 100 p l r rear c b :=
  alloc_best_fit bumpPages 0 0 sys0_wellFormed
    (createHeap_ordered area0 _ _ _ _ _) (by decide)
    ⟨⟨0xC0019000, 0x17000, false⟩, by simp, rfl, by decide⟩

end

end Kheap
