import Jaos.Heap.WellFormed

/-!
# Page-aligned allocation

`find_smallest_hole` checks that the block fits behind the next page boundary, but `alloc` cuts the
hole without looking at the pieces: the part in front of the block may be too small for a header
and a footer (or start below the hole, when the header itself lies across the boundary), and so may
the part behind it, since a small rest is absorbed only if the whole hole has one. It also needs a
slot of the index when both parts remain.

`aligned_alloc_iff`: the call is exact if and only if neither happens (`AlignedCutOk`). Each way to
fail is seen in the result: the address returned lies below the hole, or the part in front of the
block or behind it has less than 32 bytes.
-/

namespace Kheap

open Lib OrderedArray

section
variable {σ : Type} {h : Heap} {cs : List Chunk} {size i : Nat}

/-- A page-aligned block for `size` bytes was cut out of the hole at slot `i`; what is left in front
of it and behind it, all the other chunks and the index are in order. -/
def AlignedExact (pg : KernelPages σ) (fuel size i : Nat) (h : Heap) (cs : List Chunk) (s : σ) : Prop :=
  ∃ p h' l c r b front rear, cs = l ++ c :: r ∧ c.tag = false ∧ h.index.array i = c.addr ∧
    alloc pg (fuel + 1) size 1 h s = some (p, h', s) ∧
    p % 4096 = 0 ∧ p = b.addr + 16 ∧ size + 32 ≤ b.size ∧ Carved h h' l r c b front rear ∧
    (h.index.size ≤ h.index.maxSize → h'.index.size ≤ h'.index.maxSize)

/-- The condition on the hole at slot `i` (module doc). -/
def AlignedCutOk (size i : Nat) (h : Heap) : Prop :=
  let a := h.index.array i
  let e := a + sizeAt h.mem a
  let pos := cutPos 1 a
  SplitOk size 1 a e ∧
    (pos = a ∨ pos + cutSize size pos e = e ∨ h.index.size ≠ h.index.maxSize)

instance (size i : Nat) (h : Heap) : Decidable (AlignedCutOk size i h) := by
  unfold AlignedCutOk
  infer_instance

/-! ## The pieces -/

/-- At most one chunk between `a` and `b`: none, or one that fills the gap. -/
theorem Tiles.short {a b : Nat} {l : List Chunk} (ht : Tiles a b l) (hl : l.length ≤ 1) :
    a = b ∨ ∃ d, l = [d] ∧ d.size = b - a := by
  match l, ht, hl with
  | [], ht, _ => exact .inl ht
  | [d], ⟨ha, hb⟩, _ =>
    refine .inr ⟨d, rfl, ?_⟩
    have hfin : d.addr + d.size = b := hb
    omega

section
variable {h' : Heap} {l r front rear : List Chunk} {c b : Chunk}

/-- The parts in front of the block and behind it are empty or have room for their tags. -/
theorem Carved.pieces (g : Carved h h' l r c b front rear) :
    (b.addr = c.addr ∨ c.addr + 32 ≤ b.addr) ∧ (b.fin = c.fin ∨ b.fin + 32 ≤ c.fin) ∧
      c.addr ≤ b.addr ∧ b.fin ≤ c.fin := by
  obtain ⟨m, hfront, hb, hrear⟩ := tiles_append.1 g.tiles
  have h1 := hfront.le
  have h2 := hrear.le
  refine ⟨?_, ?_, by omega, h2⟩
  · rcases Tiles.short hfront g.front.1 with he | ⟨d, rfl, hd⟩
    · exact .inl (by omega)
    · have := g.wellFormed.min d (by simp)
      exact .inr (by omega)
  · rcases Tiles.short hrear g.rear.1 with he | ⟨d, rfl, hd⟩
    · exact .inl he
    · have := g.wellFormed.min d (by simp)
      exact .inr (by omega)

/-- The size in the block's header. -/
theorem Carved.block_size (g : Carved h h' l r c b front rear) : sizeAt h'.mem b.addr = b.size :=
  (g.wellFormed.header b (by simp)).size

end

/-- Where the block goes when the hole's payload does not start at a page. -/
theorem allocFrom_fst {a : Nat} (ha : lookupOrderedArray i h.index = a)
    (hlt : a + (4096 - a % 4096) < 2 ^ 64) (hfront : (a + 16) % 4096 ≠ 0) :
    (allocFrom size 1 i h).1 = a + (4096 - a % 4096) := by
  have hpos : (add64 a 16 % 4096 : Nat) ≠ 0 := by
    unfold add64
    omega
  unfold allocFrom
  simp only [ha, sizeofHeader, and_fff]
  rw [if_pos ⟨by decide, hpos⟩]
  unfold splitFront
  simp only [memBlockSize, sizeofHeader, and_fff]
  unfold add64 sub64
  omega

/-- The block's header is written before the hole behind it, which starts no lower. -/
theorem taken_size {a e pos n : Nat} (h1 : pos = a ∨ a + 32 ≤ pos) (hn : 32 ≤ n) (hlt : e < 2 ^ 64)
    (h2 : pos + n ≤ e) : sizeAt (taken i a e pos n h).mem pos = n := by
  have hblock : ∀ m, sizeAt (writeTags ⟨pos, n, true⟩ m) pos = n := fun m =>
    (tagsOk_writeTags m (c := ⟨pos, n, true⟩) hn (show pos + n < 2 ^ 64 by omega)).1.size
  have hrear : ∀ m, sizeAt (writeAll (gap (pos + n) e) m) pos = sizeAt m pos := by
    intro m
    unfold gap
    split
    · rfl
    · have hsame : m.Same (writeTags ⟨pos + n, e - (pos + n), false⟩ m) pos (pos + 16) := by
        rw [writeTags_hole]
        exact (same_writeHeader m _ _ (.inl (by omega))).trans
          (same_writeFooter _ _ (.inl (by omega)))
      exact sizeAt_same hsame
  rw [taken_mem]
  unfold carved
  rcases h1 with rfl | h1
  · rw [show gap pos pos = [] from if_pos rfl]
    exact (hrear _).trans (hblock _)
  · rw [show gap a pos = [⟨a, pos - a, false⟩] from if_neg (by omega)]
    exact (hrear _).trans (hblock _)

/-! ## The condition is exact -/

/-- **An exact allocation had a hole to cut.** -/
theorem AlignedExact.cutOk {pg : KernelPages σ} {fuel : Nat} {s : σ} (w : WellFormed h cs)
    (hsize : size + 32 < 2 ^ 64) (hf : findSmallestHole (size + 32) 1 h = some i)
    (exact : AlignedExact pg fuel size i h cs s) : AlignedCutOk size i h := by
  obtain ⟨p, h', l, c, r, b, front, rear, rfl, hhole, ha, hcall, hp, hpb, hbs, g, hroom⟩ := exact
  obtain ⟨hi, hfit, -⟩ := find_some hf
  have hmin := w.min c (by simp)
  have hb := w.bounds (c := c) (by simp)
  have hend := w.endLt
  have hfin : c.fin = c.addr + c.size := rfl
  have hbfin : b.fin = b.addr + b.size := rfl
  have hsz : sizeAt h.mem c.addr = c.size := (w.header c (by simp)).size
  have hlook : lookupOrderedArray i h.index = c.addr := by rw [lookup_eq hi, ha]
  obtain ⟨hfront, hrear, hlow, hhigh⟩ := g.pieces
  rw [alloc_found pg fuel s hsize hf] at hcall
  simp only [Option.some.injEq, Prod.mk.injEq, and_true] at hcall
  obtain ⟨hp1, hh'⟩ := hcall
  unfold AlignedCutOk
  dsimp only
  rw [ha, hsz, ← hfin]
  by_cases hpage : (c.addr + 16) % 4096 = 0
  · have hpos : cutPos 1 c.addr = c.addr := if_neg (by omega)
    exact ⟨.inr (.inl hpage), .inl hpos⟩
  rw [ha] at hfit
  have hfit := (fits_aligned (by omega) (by decide)).1 hfit
  unfold pageOffset at hfit
  rw [if_pos hpage, hsz] at hfit
  have hpos : cutPos 1 c.addr = c.addr + (4080 - c.addr % 4096) := if_pos ⟨by decide, hpage⟩
  -- the payload starts at the next page boundary, even if the header then lies below the hole
  have hbpos : b.addr + 16 = c.addr + (4096 - c.addr % 4096) := by
    rw [← hpb, ← hp1, allocFrom_fst hlook (by omega) hpage]
  have hroomPos : cutPos 1 c.addr + size + 32 ≤ c.addr + c.size := by
    rw [hpos]
    omega
  have hshape := allocFrom_front hlook hsz hb.2 hend ⟨by decide, hpage⟩ (by omega) hroomPos
  rw [hshape] at hh'
  dsimp only at hh'
  subst hh'
  have hbn : b.size = size + 32 := by
    rw [← g.block_size, show b.addr = cutPos 1 c.addr by omega]
    exact taken_size (by omega) (by omega) (by omega) (by omega)
  have hsplit : c.fin = cutPos 1 c.addr + size + 32 ∨ cutPos 1 c.addr + size + 64 ≤ c.fin := by
    omega
  refine ⟨.inr (.inr ⟨by omega, hsplit⟩), .inr ?_⟩
  have hcut : cutSize size (cutPos 1 c.addr) c.fin = size + 32 := by
    unfold cutSize
    split <;> omega
  rw [hcut]
  rcases hsplit with he | hrest
  · exact .inl (by omega)
  · -- two holes remain, and the index got longer
    refine .inr fun hfull => ?_
    have hsize' := hroom (by omega)
    rw [taken_index, if_neg (by omega), size_insert, maxSize_insert] at hsize'
    unfold keptIndex at hsize'
    rw [if_neg (by omega), add64_of_lt (by have := w.size_lt; omega)] at hsize'
    omega

/-- The slots in use after the cut: one more if holes remain on both sides. -/
theorem Indexed.taken_slots {l r : List Chunk} {c : Chunk} {pos n : Nat}
    (w : Indexed h (l ++ c :: r)) (hi : i < h.index.size) (hle : h.index.size ≤ h.index.maxSize)
    (hroom : pos = c.addr ∨ pos + n = c.fin ∨ h.index.size ≠ h.index.maxSize) :
    (taken i c.addr c.fin pos n h).index.size ≤ (taken i c.addr c.fin pos n h).index.maxSize := by
  have hlt := w.size_lt
  have hsub : (removeOrderedArray i h.index).size = h.index.size - 1 :=
    sub64_of_le (by omega) (by omega)
  rw [taken_index]
  unfold keptIndex
  by_cases hrest : pos + n = c.fin
  · rw [if_pos hrest]
    split
    · rw [maxSize_remove]
      omega
    · exact hle
  · rw [if_neg hrest, size_insert, maxSize_insert]
    split
    · rw [maxSize_remove, hsub, add64_of_lt (by omega)]
      omega
    · rename_i hpos
      rw [add64_of_lt (by omega)]
      omega

theorem AlignedCutOk.exact (pg : KernelPages σ) (fuel : Nat) (s : σ) (w : WellFormed h cs)
    (hsize : size + 32 < 2 ^ 64) (hf : findSmallestHole (size + 32) 1 h = some i)
    (hok : AlignedCutOk size i h) : AlignedExact pg fuel size i h cs s := by
  obtain ⟨l, c, r, rfl, hhole, hi, ha, hsz, hfit⟩ := w.toIndexed.found hf
  have hmin := w.min c (by simp)
  have hb := w.bounds (c := c) (by simp)
  have hend := w.endLt
  have hfin : c.fin = c.addr + c.size := rfl
  have hlook : lookupOrderedArray i h.index = c.addr := by rw [lookup_eq hi, ha]
  unfold AlignedCutOk at hok
  dsimp only at hok
  rw [ha, hsz, ← hfin] at hok
  obtain ⟨hsplit, hroom⟩ := hok
  obtain ⟨hpos, hfits⟩ := cut_bounds hsz hmin (by omega) hfit hsplit
  have heq := allocFrom_eq hlook hsz hmin hb.2 hend hfit hsplit
  rw [← hfin] at hfits heq
  obtain ⟨n, hn⟩ : ∃ n, n = cutSize size (cutPos 1 c.addr) c.fin := ⟨_, rfl⟩
  rw [← hn] at heq hroom
  have hcut : size + 32 ≤ n ∧ (c.fin = cutPos 1 c.addr + n ∨ cutPos 1 c.addr + n + 32 ≤ c.fin) := by
    rw [hn]
    unfold cutSize
    split <;> omega
  have halloc := alloc_found pg fuel s hsize hf
  rw [heq] at halloc
  exact ⟨_, _, l, c, r, ⟨cutPos 1 c.addr, n, true⟩, gap c.addr (cutPos 1 c.addr),
    gap (cutPos 1 c.addr + n) c.fin, rfl, hhole, ha, halloc, cutPos_aligned hsplit (by decide), rfl,
    hcut.1, w.cut hhole hi ha hpos (by omega) hcut.2, fun hle => w.taken_slots hi hle hroom⟩

/-- **Page-aligned allocation is exact if and only if `AlignedCutOk` holds.** -/
theorem aligned_alloc_iff (pg : KernelPages σ) (fuel : Nat) (s : σ) (w : WellFormed h cs)
    (hsize : size + 32 < 2 ^ 64) (hf : findSmallestHole (size + 32) 1 h = some i) :
    AlignedExact pg fuel size i h cs s ↔ AlignedCutOk size i h :=
  ⟨AlignedExact.cutOk w hsize hf, AlignedCutOk.exact pg fuel s w hsize hf⟩

end

/-- 100 bytes from the heap of `kheap_init`, where the hole starts at a page. -/
theorem aligned_alloc_sys0 : AlignedExact bumpPages 0 100 0 sys0.heap [⟨0xC0019000, 0x17000, false⟩] 0 :=
  (aligned_alloc_iff bumpPages 0 0 sys0_wellFormed (by decide) (by decide)).2 (by decide)

/-- **A hole that starts 32 bytes before a page.** After `alloc(4032, 0)` an aligned allocation of
100 bytes leaves 16 bytes in front of the block, marked as a hole. -/
theorem aligned_alloc_misses :
    ∃ h cs, (alloc bumpPages 1 4032 0 sys0.heap 0).map (fun r => r.2.1) = some h ∧ WellFormed h cs ∧
      findSmallestHole (100 + 32) 1 h = some 0 ∧
      ∀ fuel s, ¬ AlignedExact bumpPages fuel 100 0 h cs s := by
  have hf : findSmallestHole (4032 + 32) 0 sys0.heap = some 0 := by decide
  obtain ⟨cs, w⟩ := sys0_wellFormed.allocFrom (by decide) hf
  have halloc := alloc_found bumpPages 0 0 (by decide) hf
  have hfind : findSmallestHole (100 + 32) 1 (allocFrom 4032 0 0 sys0.heap).2 = some 0 := by
    decide
  have hbad : ¬ AlignedCutOk 100 0 (allocFrom 4032 0 0 sys0.heap).2 := by decide
  generalize allocFrom 4032 0 0 sys0.heap = q at *
  exact ⟨q.2, cs, congrArg (Option.map fun r => r.2.1) halloc, w, hfind,
    fun fuel s exact => hbad (exact.cutOk w (by decide) hfind)⟩

end Kheap
