import Jaos.Heap.Proof.Order

/-!
# Heaps with all their boundary tags

`WellFormed h cs` is the invariant that the tags are there for: besides headers and index, every
chunk carries its footer (a hole that ends the heap may lack it, `create_heap` writes none) and no
two holes are neighbours. `Wf` asks for less, since `free` does not keep this much.

`WellFormed.replace` puts a heap together again after neighbouring chunks have been replaced, and
`Carved` says what taking a hole leaves: the block and what remains of the hole on either side.
-/

namespace Kheap

open Lib OrderedArray

/-- **A well-formed heap**, cut into the chunks `cs`. -/
structure WellFormed (h : Heap) (cs : List Chunk) : Prop extends Indexed h cs where
  footer : ∀ c ∈ cs, c.tag = true ∨ c.fin ≠ h.endAddress → FooterOk h.mem c
  apart : ∀ c ∈ cs, ∀ d ∈ cs, c.tag = false → d.tag = false → c.fin ≠ d.addr

instance (h : Heap) (cs : List Chunk) : Decidable (WellFormed h cs) :=
  decidable_of_iff (Indexed h cs ∧
      (∀ c ∈ cs, c.tag = true ∨ c.fin ≠ h.endAddress → FooterOk h.mem c) ∧
      ∀ c ∈ cs, ∀ d ∈ cs, c.tag = false → d.tag = false → c.fin ≠ d.addr)
    ⟨fun h => ⟨h.1, h.2.1, h.2.2⟩, fun h => ⟨h.1, h.2, h.3⟩⟩

section
variable {h h' : Heap} {cs l P Q r : List Chunk} {c : Chunk} {lo hi : Nat}

/-- The neighbours of a hole are in use. -/
theorem WellFormed.around (w : WellFormed h (l ++ c :: r)) (hc : c.tag = false) :
    (∀ d ∈ l, d.tag = false → d.fin ≠ c.addr) ∧ ∀ d ∈ r, d.tag = false → d.addr ≠ c.fin :=
  ⟨fun d hd ht => w.apart d (by simp [hd]) c (by simp) ht hc,
    fun d hd ht => (w.apart c (by simp) d (by simp [hd]) hc ht).symm⟩

/-- **Neighbouring chunks replaced** by others that meet no hole at either end. -/
theorem WellFormed.replace (w : WellFormed h (l ++ (P ++ r))) (w' : Indexed h' (l ++ (Q ++ r)))
    (hl : Tiles h.startAddress lo l) (ht : Tiles lo hi Q) (hr : Tiles hi h.endAddress r)
    (hlow : Mem.Same h.mem h'.mem 0 lo) (hhigh : Mem.Same h.mem h'.mem hi h.endAddress)
    (hend : h'.endAddress = h.endAddress)
    (hfoot : ∀ c ∈ Q, c.tag = true ∨ c.fin ≠ h.endAddress → FooterOk h'.mem c)
    (hleft : ∀ d ∈ l, d.tag = false → d.fin ≠ lo) (hright : ∀ d ∈ r, d.tag = false → d.addr ≠ hi)
    (hapart : ∀ c ∈ Q, ∀ d ∈ Q, c.tag = false → d.tag = false → c.fin ≠ d.addr) :
    WellFormed h' (l ++ (Q ++ r)) := by
  have mem : ∀ c, c ∈ l ++ (Q ++ r) → (c ∈ l ∨ c ∈ r) ∨ c ∈ Q := by
    intro c hc
    simp only [List.mem_append] at hc
    rcases hc with hc | hc | hc <;> simp [hc]
  have old : ∀ c, c ∈ l ∨ c ∈ r → c ∈ l ++ (P ++ r) := by
    intro c hc
    rcases hc with hc | hc <;> simp [hc]
  -- where a chunk lies, and that it is not empty
  have place : ∀ c, c ∈ l ++ (Q ++ r) → c.addr < c.fin := by
    intro c hc
    have := w'.min c hc
    unfold Seg.fin
    omega
  have hlpos : ∀ c ∈ l, c.addr < c.fin := fun c hc => place c (by simp [hc])
  have hQpos : ∀ c ∈ Q, c.addr < c.fin := fun c hc => place c (by simp [hc])
  have hrpos : ∀ c ∈ r, c.addr < c.fin := fun c hc => place c (by simp [hc])
  refine ⟨w', fun c hc hu => ?_, fun c hc d hd htc htd => ?_⟩
  · rw [hend] at hu
    rcases mem c hc with hold | hQ
    · have hfoot := w.footer c (old c hold) hu
      have hmin := w.min c (old c hold)
      refine hfoot.same (by omega) ?_
      rcases hold with hc | hc
      · exact hlow.mono (Nat.zero_le _) (hl.bounds hc).2
      · have := (hr.bounds hc).1
        unfold Seg.fin
        exact hhigh.mono (by omega) (hr.bounds hc).2
    · exact hfoot c hQ hu
  · rcases mem c hc with hcold | hcQ <;> rcases mem d hd with hdold | hdQ
    · exact w.apart c (old c hcold) d (old d hdold) htc htd
    · have h2 := ht.bounds hdQ
      rcases hcold with hcl | hcr
      · have h1 := hl.bounds hcl
        have := hleft c hcl htc
        omega
      · have h1 := hr.bounds hcr
        have := hrpos c hcr
        have := hQpos d hdQ
        omega
    · have h1 := ht.bounds hcQ
      rcases hdold with hdl | hdr
      · have h2 := hl.bounds hdl
        have := hQpos c hcQ
        have := hlpos d hdl
        omega
      · have h2 := hr.bounds hdr
        have := hright d hdr htd
        omega
    · exact hapart c hcQ d hdQ htc htd

end

/-! ## Taking a hole -/

/-- `h'` is `h` with the block `b` cut out of the hole `c`; `front` and `rear` remain of it. -/
structure Carved (h h' : Heap) (l r : List Chunk) (c b : Chunk) (front rear : List Chunk) : Prop where
  wellFormed : WellFormed h' (l ++ (front ++ b :: rear ++ r))
  tiles : Tiles c.addr c.fin (front ++ b :: rear)
  used : b.tag = true
  front : front.length ≤ 1 ∧ ∀ d ∈ front, d.tag = false
  rear : rear.length ≤ 1 ∧ ∀ d ∈ rear, d.tag = false
  start : h'.startAddress = h.startAddress
  endEq : h'.endAddress = h.endAddress
  same : ∀ lo hi, hi ≤ c.addr ∨ c.fin ≤ lo → Mem.Same h.mem h'.mem lo hi

theorem gap_hole (a e : Nat) : (gap a e).length ≤ 1 ∧ ∀ d ∈ gap a e, d.tag = false := by
  unfold gap
  split
  · exact ⟨Nat.zero_le _, fun d hd => by cases hd⟩
  · exact ⟨Nat.le_refl _, fun d hd => by rw [List.mem_singleton.1 hd]⟩

section
variable {h : Heap} {l r : List Chunk} {c : Chunk} {i pos n : Nat}

/-- **A block cut out of a hole** leaves a well-formed heap. -/
theorem WellFormed.cut (w : WellFormed h (l ++ c :: r)) (hc : c.tag = false) (hi : i < h.index.size)
    (ha : h.index.array i = c.addr) (h1 : pos = c.addr ∨ c.addr + 32 ≤ pos) (hn : 32 ≤ n)
    (h2 : c.fin = pos + n ∨ pos + n + 32 ≤ c.fin) :
    Carved h (taken i c.addr c.fin pos n h) l r c ⟨pos, n, true⟩ (gap c.addr pos)
      (gap (pos + n) c.fin) := by
  obtain ⟨w', hfoot, hsame⟩ := w.toIndexed.cut hc hi ha h1 hn h2
  obtain ⟨hl, hr⟩ := w.split rfl
  have ht : Tiles c.addr c.fin (carved c.addr c.fin pos n) := tiles_carved (by omega) (by omega)
  have hfront : ∀ d ∈ gap c.addr pos, d.addr = c.addr ∧ d.fin = pos := by
    intro d hd
    unfold gap at hd
    split at hd
    · cases hd
    · rw [List.mem_singleton.1 hd]
      unfold Seg.fin
      dsimp only
      omega
  have hrear : ∀ d ∈ gap (pos + n) c.fin, d.addr = pos + n ∧ d.fin = c.fin := by
    intro d hd
    unfold gap at hd
    split at hd
    · cases hd
    · rw [List.mem_singleton.1 hd]
      generalize c.fin = e at *
      unfold Seg.fin
      dsimp only
      omega
  have hb : ∀ d ∈ carved c.addr c.fin pos n, d.tag = false →
      d.addr = c.addr ∧ d.fin = pos ∨ d.addr = pos + n ∧ d.fin = c.fin := by
    intro d hd ht
    rcases List.mem_append.1 hd with hd | hd
    · exact .inl (hfront d hd)
    · rcases List.mem_cons.1 hd with rfl | hd
      · cases ht
      · exact .inr (hrear d hd)
  have hapart : ∀ d ∈ carved c.addr c.fin pos n, ∀ e ∈ carved c.addr c.fin pos n,
      d.tag = false → e.tag = false → d.fin ≠ e.addr := by
    intro d hd e he htd hte
    have := w'.min d (by simp [hd])
    have hde : d.fin = d.addr + d.size := rfl
    have hle := (ht.bounds hd).1
    rcases hb d hd htd with h1 | h1 <;> rcases hb e he hte with h2 | h2 <;> omega
  obtain ⟨hleft, hright⟩ := w.around hc
  refine ⟨?_, ht, rfl, gap_hole _ _, gap_hole _ _, taken_startAddress, taken_endAddress, hsame⟩
  exact WellFormed.replace (P := [c]) w w' hl ht hr (hsame _ _ (.inl (Nat.le_refl _)))
    (hsame _ _ (.inr (Nat.le_refl _))) taken_endAddress (fun d hd _ => hfoot d hd) hleft hright hapart

/-- The hole that the search has found. -/
theorem Indexed.found {cs : List Chunk} {size pageAlign : Nat} (w : Indexed h cs)
    (hf : findSmallestHole size pageAlign h = some i) :
    ∃ l c r, cs = l ++ c :: r ∧ c.tag = false ∧ i < h.index.size ∧ h.index.array i = c.addr ∧
      sizeAt h.mem c.addr = c.size ∧ fits size pageAlign h.mem c.addr = true := by
  obtain ⟨hi, hfit, -⟩ := find_some hf
  obtain ⟨c, hc, hhole, ha⟩ := w.slot hi
  rw [← ha] at hfit
  obtain ⟨l, r, rfl⟩ := List.append_of_mem hc
  exact ⟨l, c, r, rfl, hhole, hi, ha.symm, (w.header c hc).size, hfit⟩

/-- A hole that fits is found. -/
theorem Indexed.find {cs : List Chunk} {size : Nat} (w : Indexed h cs)
    (hfit : ∃ c ∈ cs, c.tag = false ∧ size ≤ c.size) : ∃ i, findSmallestHole size 0 h = some i := by
  obtain ⟨c, hc, hhole, hsize⟩ := hfit
  rcases hf : findSmallestHole size 0 h with _ | i
  · obtain ⟨i, hi, ha⟩ := w.slot_of hc hhole
    have := find_none hf i hi
    rw [ha, fits_plain.2 (by rwa [(w.header c hc).size])] at this
    cases this
  · exact ⟨i, rfl⟩

end

/-! ## One call of `alloc` that finds a hole -/

section
variable {h : Heap} {cs : List Chunk} {size pageAlign i : Nat}

/-- The call places the block and returns; the pages are not asked for. -/
theorem alloc_found {σ : Type} (pg : KernelPages σ) (fuel : Nat) (s : σ) (hsize : size + 32 < 2 ^ 64)
    (hf : findSmallestHole (size + 32) pageAlign h = some i) :
    alloc pg (fuel + 1) size pageAlign h s =
      some ((allocFrom size pageAlign i h).1, (allocFrom size pageAlign i h).2, s) := by
  have hnew : add64 (add64 size sizeofHeader) sizeofFooter = size + 32 := by
    simp (disch := omega) only [add64_of_lt, sizeofHeader, sizeofFooter]
  unfold alloc
  simp only [hnew, hf]

/-- **A plain allocation that finds a hole** takes the block from its lower end. -/
theorem WellFormed.plainCut (w : WellFormed h cs) (hsize : size + 32 < 2 ^ 64)
    (hf : findSmallestHole (size + 32) 0 h = some i) :
    ∃ l c r, cs = l ++ c :: r ∧ c.tag = false ∧ i < h.index.size ∧ h.index.array i = c.addr ∧
      size + 32 ≤ cutSize size c.addr c.fin ∧
      (c.fin = c.addr + cutSize size c.addr c.fin ∨
        c.addr + cutSize size c.addr c.fin + 32 ≤ c.fin) ∧
      allocFrom size 0 i h =
        (c.addr + 16, taken i c.addr c.fin c.addr (cutSize size c.addr c.fin) h) ∧
      Carved h (taken i c.addr c.fin c.addr (cutSize size c.addr c.fin) h) l r c
        ⟨c.addr, cutSize size c.addr c.fin, true⟩ []
        (gap (c.addr + cutSize size c.addr c.fin) c.fin) := by
  obtain ⟨l, c, r, rfl, hhole, hi, ha, hsz, hfit⟩ := w.toIndexed.found hf
  have hmin := w.min c (by simp)
  have hb := w.bounds (c := c) (by simp)
  have hlt := w.endLt
  have hfin : c.fin = c.addr + c.size := rfl
  have hroom : size + 32 ≤ c.size := by
    rw [← hsz]
    exact fits_plain.1 hfit
  have heq := allocFrom_eq (i := i) (by rw [lookup_eq hi, ha]) hsz hmin hb.2 hlt hfit (.inl rfl)
  have hpos : cutPos 0 c.addr = c.addr := if_neg (by simp)
  rw [hpos, ← hfin] at heq
  have h1 : size + 32 ≤ cutSize size c.addr c.fin := by
    unfold cutSize
    split <;> omega
  have h2 : c.fin = c.addr + cutSize size c.addr c.fin ∨
      c.addr + cutSize size c.addr c.fin + 32 ≤ c.fin := by
    unfold cutSize
    split <;> omega
  have hcut := w.cut hhole hi ha (.inl rfl) (by omega) h2
  rw [show gap c.addr c.addr = [] from if_pos rfl] at hcut
  exact ⟨l, c, r, rfl, hhole, hi, ha, h1, h2, heq, hcut⟩

/-- The block has `n` bytes, whatever `n` is. -/
theorem WellFormed.plain (w : WellFormed h cs) (hsize : size + 32 < 2 ^ 64)
    (hf : findSmallestHole (size + 32) 0 h = some i) :
    ∃ l c r n, cs = l ++ c :: r ∧ c.tag = false ∧ i < h.index.size ∧ h.index.array i = c.addr ∧
      size + 32 ≤ n ∧ (c.fin = c.addr + n ∨ c.addr + n + 32 ≤ c.fin) ∧
      allocFrom size 0 i h = (c.addr + 16, taken i c.addr c.fin c.addr n h) ∧
      Carved h (taken i c.addr c.fin c.addr n h) l r c ⟨c.addr, n, true⟩ []
        (gap (c.addr + n) c.fin) := by
  obtain ⟨l, c, r, hcs, hhole, hi, ha, h1, h2, heq, hcut⟩ := w.plainCut hsize hf
  exact ⟨l, c, r, _, hcs, hhole, hi, ha, h1, h2, heq, hcut⟩

theorem WellFormed.allocFrom (w : WellFormed h cs) (hsize : size + 32 < 2 ^ 64)
    (hf : findSmallestHole (size + 32) 0 h = some i) :
    ∃ cs', WellFormed (allocFrom size 0 i h).2 cs' := by
  obtain ⟨l, c, r, n, -, -, -, -, -, -, heq, g⟩ := w.plain hsize hf
  rw [heq]
  exact ⟨_, g.wellFormed⟩

end

/-! ## The heap that `create_heap` leaves -/

theorem createHeap_wellFormed {start endAddr : Nat} (a : HeapArea start endAddr)
    (max supervisor readonly : Nat) (mem : Mem) (slots : Nat → Nat) :
    WellFormed (createHeap start endAddr max supervisor readonly mem slots)
      [⟨start + 0x9000, endAddr - (start + 0x9000), false⟩] := by
  have w := createHeap_wf a max supervisor readonly mem slots
  refine ⟨w.indexed, fun c hc hu => ?_, fun c hc d hd _ _ => ?_⟩
  · rw [List.mem_singleton.1 hc] at hu
    refine absurd w.tiles.2 (hu.resolve_left (by simp))
  · have := w.min c hc
    rw [List.mem_singleton.1 hc] at this ⊢
    rw [List.mem_singleton.1 hd]
    unfold Seg.fin
    dsimp only at this ⊢
    omega

theorem sys0_wellFormed : WellFormed sys0.heap [⟨0xC0019000, 0x17000, false⟩] :=
  createHeap_wellFormed area0 _ _ _ _ _

end Kheap
