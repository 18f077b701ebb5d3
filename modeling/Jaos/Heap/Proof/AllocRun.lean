import Jaos.Heap.Proof.Grow

/-!
# A whole call of `alloc`

`alloc` calls itself after every expansion. `Retry` is the relation between the heap of the first
call and those of the later ones, `alloc_inv` takes a call apart into its retries and the final
placement, and `AllocOk` asks `CallOk` of every one of these calls: the expansion finds the
endmost hole at the end (`GrowOk`), the placement cuts real chunks (`SplitOk`) and the index has a
slot for the hole it may gain.
-/

namespace Kheap

open Lib OrderedArray

section
variable {σ : Type} (pg : KernelPages σ) (size pageAlign : Nat)

/-- The size with both tags, as `alloc` computes it. -/
def newSize : Nat := add64 (add64 size sizeofHeader) sizeofFooter

/-- The heaps in which one call of `alloc` calls itself, the first one included. -/
inductive Retry (h : Heap) (s : σ) : Heap → σ → Prop
  | here : Retry h s h s
  | again {g : Heap} {t : σ} {r : Heap × σ} : Retry h s g t →
      findSmallestHole (newSize size) pageAlign g = none →
      expand pg (add64 (sub64 g.endAddress g.startAddress) (newSize size)) g t = some r →
      Retry h s (growHole g.endAddress (sub64 g.endAddress g.startAddress) r.1) r.2

/-- The bytes an expansion for `size` adds. -/
def gained (h : Heap) : Nat :=
  pageCeil (h.endAddress - h.startAddress + (size + 32)) - (h.endAddress - h.startAddress)

/-- The condition on one call of `alloc` in the heap `h`. -/
def CallOk (h : Heap) : Prop :=
  size + 32 < 2 ^ 32 ∧
    match findSmallestHole (newSize size) pageAlign h with
    | none => h.endAddress - h.startAddress + size + 32 < 2 ^ 32 ∧ GrowOk h
    | some i =>
      let a := h.index.array i
      let e := a + sizeAt h.mem a
      SplitOk size pageAlign a e ∧
        (cutPos pageAlign a = a ∨ cutPos pageAlign a + cutSize size (cutPos pageAlign a) e = e ∨
          h.index.size < h.index.maxSize)

/-- `CallOk` in every call that the call in `h` makes. -/
def AllocOk (h : Heap) (s : σ) : Prop :=
  ∀ g t, Retry pg size pageAlign h s g t → CallOk size pageAlign g

end

section
variable {σ : Type} {pg : KernelPages σ} {size pageAlign fuel p : Nat} {h h' : Heap} {s s' : σ}

theorem Retry.trans {g k : Heap} {t u : σ} (h1 : Retry pg size pageAlign h s g t)
    (h2 : Retry pg size pageAlign g t k u) : Retry pg size pageAlign h s k u := by
  induction h2 with
  | here => exact h1
  | again _ hf he ih => exact ih.again hf he

/-- The first call, or a retry of the second. -/
theorem Retry.head {g : Heap} {t : σ} (hr : Retry pg size pageAlign h s g t) :
    g = h ∧ t = s ∨ findSmallestHole (newSize size) pageAlign h = none ∧ ∃ r,
      expand pg (add64 (sub64 h.endAddress h.startAddress) (newSize size)) h s = some r ∧
      Retry pg size pageAlign (growHole h.endAddress (sub64 h.endAddress h.startAddress) r.1) r.2 g t := by
  induction hr with
  | here => exact .inl ⟨rfl, rfl⟩
  | again _ hf he ih =>
    rcases ih with ⟨rfl, rfl⟩ | ⟨hf0, r0, he0, hr0⟩
    · exact .inr ⟨hf, _, he, .here⟩
    · exact .inr ⟨hf0, r0, he0, hr0.again hf he⟩

/-- **A call of `alloc`**: retries, then the placement. -/
theorem alloc_inv (ha : alloc pg fuel size pageAlign h s = some (p, h', s')) :
    ∃ g i, Retry pg size pageAlign h s g s' ∧
      findSmallestHole (newSize size) pageAlign g = some i ∧
      allocFrom size pageAlign i g = (p, h') := by
  induction fuel generalizing h s with
  | zero => cases ha
  | succ fuel ih =>
    unfold alloc at ha
    dsimp only at ha
    split at ha
    · rename_i hf
      obtain ⟨r, hr, ha⟩ := Option.bind_eq_some_iff.1 ha
      obtain ⟨g, i, hg, hi, hp⟩ := ih ha
      exact ⟨g, i, (Retry.here.again hf hr).trans hg, hi, hp⟩
    · rename_i i hf
      simp only [Option.some.injEq, Prod.mk.injEq] at ha
      obtain ⟨h1, h2, rfl⟩ := ha
      exact ⟨h, i, .here, hf, Prod.ext h1 h2⟩

/-- What `alloc_kernel_page` keeps, `alloc` keeps: it does nothing else to the pages. -/
theorem alloc_pages {P : σ → Prop}
    (hstep : ∀ n t r, pg.allocKernelPage n t = some r → P t → P r.2)
    (ha : alloc pg fuel size pageAlign h s = some (p, h', s')) (h0 : P s) : P s' := by
  obtain ⟨g, i, hr, -, -⟩ := alloc_inv ha
  clear ha
  induction hr with
  | here => exact h0
  | again _ _ he ih =>
    obtain ⟨r, hr, rfl⟩ := Option.map_eq_some_iff.1 he
    exact hstep _ _ r hr ih

theorem newSize_of_lt (hs : size + 32 < 2 ^ 64) : newSize size = size + 32 := by
  unfold newSize
  simp (disch := omega) only [add64_of_lt, sizeofHeader, sizeofFooter]

theorem newSize_eq (hs : size + 32 < 2 ^ 32) : newSize size = size + 32 := newSize_of_lt (by omega)

/-- **One retry**: the gained space belongs to the last chunk, a hole. -/
theorem Wf.retry {cs : List Chunk} (w : Wf h cs) (hok : CallOk size pageAlign h)
    (hf : findSmallestHole (newSize size) pageAlign h = none) {r : Heap × σ}
    (he : expand pg (add64 (sub64 h.endAddress h.startAddress) (newSize size)) h s = some r) :
    ∃ l c, size + 32 ≤ gained size h ∧
      Wf (growHole h.endAddress (sub64 h.endAddress h.startAddress) r.1) (l ++ [c]) ∧
      c.tag = false ∧ gained size h ≤ c.size ∧
      ((growHole h.endAddress (sub64 h.endAddress h.startAddress) r.1).index.toList = [c.addr] ∧
          cs = l ∧ holes cs = [] ∨
        (growHole h.endAddress (sub64 h.endAddress h.startAddress) r.1).index = h.index ∧
          ∃ n, cs = l ++ [⟨c.addr, n, false⟩] ∧ c.size = n + gained size h) ∧
      Mem.Same h.mem (growHole h.endAddress (sub64 h.endAddress h.startAddress) r.1).mem 0 c.addr := by
  unfold CallOk at hok
  rw [hf] at hok
  obtain ⟨hs, hlen, hgrow⟩ := hok
  obtain ⟨hmem, hindex, hstart, -, hend⟩ := expand_some he
  have hmin := w.minLength
  have hlow := w.startHigh
  have hp1 := w.startPage
  have hp2 := w.endPage
  have hn : add64 (sub64 h.endAddress h.startAddress) (newSize size) =
      h.endAddress - h.startAddress + (size + 32) := by
    rw [newSize_eq hs, w.indexed.len]
    exact add64_of_lt (by omega)
  have hceil := pageCeil_eq (n := h.endAddress - h.startAddress + (size + 32)) (by omega)
  have hg : gained size h = pageCeil (h.endAddress - h.startAddress + (size + 32)) -
      (h.endAddress - h.startAddress) := rfl
  rw [hn, add64_of_lt (by omega)] at hend
  rw [w.indexed.len]
  obtain ⟨l, c, hw, ht, hc, hshape, hsame⟩ := w.grow (g := r.1) hgrow hmem hindex hstart
    (show r.1.endAddress = h.endAddress + gained size h by omega)
    (show h.endAddress = h.startAddress + (h.endAddress - h.startAddress) by omega)
    (by omega) (by omega) (by omega)
  exact ⟨l, c, by omega, hw, ht, hc, hshape, hsame⟩

/-- Retries keep the heap well formed and the blocks in use where they are. -/
theorem Wf.retries {cs : List Chunk} (w : Wf h cs) (hok : AllocOk pg size pageAlign h s) {g : Heap}
    {t : σ} (hg : Retry pg size pageAlign h s g t) :
    ∃ cs', Wf g cs' ∧ ∀ d ∈ cs, d.tag = true → d ∈ cs' := by
  induction hg with
  | here => exact ⟨cs, w, fun _ hd _ => hd⟩
  | again hr hf he ih =>
    obtain ⟨cs', w', hkeep⟩ := ih
    obtain ⟨l, c, -, hw, -, -, hshape, -⟩ := w'.retry (hok _ _ hr) hf he
    refine ⟨_, hw, fun d hd hu => ?_⟩
    have hd' := hkeep d hd hu
    rcases hshape with ⟨-, rfl, -⟩ | ⟨-, n, rfl, -⟩
    · exact List.mem_append_left _ hd'
    · rcases List.mem_append.1 hd' with hd' | hd'
      · exact List.mem_append_left _ hd'
      · rw [List.mem_singleton] at hd'
        subst hd'
        cases hu

/-- The chunks after an allocation: a new block `b` for `size` bytes, every block in use kept. -/
structure Allocated (size pageAlign p : Nat) (cs cs' : List Chunk) (b : Chunk) : Prop where
  mem : b ∈ cs'
  used : b.tag = true
  addr : p = b.addr + 16
  room : size + 32 ≤ b.size
  aligned : pageAlign ≠ 0 → p % 4096 = 0
  keep : ∀ d ∈ cs, d.tag = true → d ∈ cs' ∧ d.addr ≠ b.addr

theorem cutPos_aligned {pageAlign a size e : Nat} (h : SplitOk size pageAlign a e)
    (hp : pageAlign ≠ 0) : (cutPos pageAlign a + 16) % 4096 = 0 := by
  unfold SplitOk at h
  unfold cutPos
  split <;> omega

/-- **The placement** in a well-formed heap, with the chunks it replaces. -/
theorem Wf.place {cs : List Chunk} (w : Wf h cs) (hok : CallOk size pageAlign h) {i : Nat}
    (hf : findSmallestHole (newSize size) pageAlign h = some i) :
    ∃ l c r, cs = l ++ c :: r ∧ c.tag = false ∧ i < h.index.size ∧ h.index.array i = c.addr ∧
      let pos := cutPos pageAlign c.addr
      let n := cutSize size pos c.fin
      allocFrom size pageAlign i h = (pos + 16, taken i c.addr c.fin pos n h) ∧
      (pos = c.addr ∨ c.addr + 32 ≤ pos) ∧ size + 32 ≤ n ∧
      (c.fin = pos + n ∨ pos + n + 32 ≤ c.fin) ∧
      SplitOk size pageAlign c.addr c.fin := by
  obtain ⟨hi, hfit, -⟩ := find_some hf
  unfold CallOk at hok
  rw [hf] at hok
  obtain ⟨hs, hsplit, -⟩ := hok
  rw [newSize_eq hs] at hfit
  obtain ⟨c, hc, hhole, ha⟩ := w.indexed.slot hi
  have hsz : sizeAt h.mem c.addr = c.size := (w.header c hc).size
  rw [← ha] at hfit hsplit
  rw [hsz] at hsplit
  have hb := w.indexed.bounds hc
  have hlt := w.end_lt
  have hcut := cut_bounds hsz (w.min c hc) (by have := w.chunk_lt hc; omega) hfit hsplit
  have heq := allocFrom_eq (i := i) (by rw [lookup_eq hi, ha]) hsz (w.min c hc) hb.2 (by omega)
    hfit hsplit
  obtain ⟨l, r, rfl⟩ := List.append_of_mem hc
  have hfin : c.fin = c.addr + c.size := rfl
  refine ⟨l, c, r, rfl, hhole, hi, ha.symm, heq, hcut.1, ?_, ?_, hsplit⟩
  · unfold cutSize
    split <;> omega
  · unfold cutSize
    split <;> omega

/-- **`alloc` keeps the heap well formed** and returns a new block. -/
theorem Wf.allocated {cs : List Chunk} (w : Wf h cs) (hok : AllocOk pg size pageAlign h s)
    (ha : alloc pg fuel size pageAlign h s = some (p, h', s')) :
    ∃ cs' b, Wf h' cs' ∧ Allocated size pageAlign p cs cs' b := by
  obtain ⟨g, i, hg, hf, hp⟩ := alloc_inv ha
  obtain ⟨cs', w', hkeep⟩ := w.retries hok hg
  obtain ⟨l, c, r, rfl, hhole, hi, harr, heq, hpos, hn, hrest, hsplit⟩ :=
    w'.place (hok g s' hg) hf
  obtain ⟨rfl, rfl⟩ := Prod.mk.inj (heq.symm.trans hp)
  have hfin : c.fin = c.addr + c.size := rfl
  refine ⟨_, ⟨cutPos pageAlign c.addr, cutSize size (cutPos pageAlign c.addr) c.fin, true⟩,
    w'.cut hhole hi harr hpos (by omega) hrest, ?_, rfl, rfl, hn, cutPos_aligned hsplit,
    fun d hd hu => ?_⟩
  · simp [carved]
  · have hd' := hkeep d hd hu
    obtain ⟨m, hl, hr⟩ := tiles_append.1 w'.tiles
    obtain ⟨rfl, hr⟩ := hr
    rcases List.mem_append.1 hd' with hd' | hd'
    · have h1 := (hl.bounds hd').2
      have h2 := w'.min d (List.mem_append_left _ hd')
      refine ⟨List.mem_append_left _ hd', ?_⟩
      unfold Seg.fin at h1
      dsimp only
      omega
    · rcases List.mem_cons.1 hd' with rfl | hd'
      · rw [hhole] at hu
        cases hu
      · have h1 := (hr.bounds hd').1
        refine ⟨by simp [hd'], ?_⟩
        dsimp only
        omega

end

end Kheap
