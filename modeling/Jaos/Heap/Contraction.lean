import Jaos.Heap.FreeTags

/-!
# Contracting the heap

A freed block whose hole ends the heap lets `free` give pages back: the new length is that of the
chunks below the hole, rounded up to pages and at least `HEAP_MIN_SIZE`. The hole keeps the rest.
Whether that is nothing, too little for the two tags, or enough is not looked at:

* a rest of 0 bytes is taken for "the hole is gone", but what is then looked up in the index is the
  header behind the block, while the hole itself stays or is inserted;
* with a rest of 1 to 31 bytes the footer is written over the hole's own header or below it.

`free_contracts_iff`: the contraction is right if and only if the rest has room for the tags (and the
heap starts at a page), provided the tests for neighbours find nothing outside the heap.
-/

namespace Kheap

open Lib OrderedArray

/-- `h'` is the heap `h` after a contraction, cut into the chunks `cs'`. -/
structure Contracted (h h' : Heap) (cs' : List Chunk) : Prop extends Layout h' cs' where
  footer : ∀ c ∈ cs', FooterOk h'.mem c
  listed : ∀ x ∈ h'.index.toList, ∃ c ∈ cs', c.addr = x
  endPage : h'.endAddress % 4096 = 0
  minLength : h'.startAddress + heapMinSize ≤ h'.endAddress
  shrinks : h'.endAddress ≤ h.endAddress

/-- The tests for neighbours find nothing below and behind the heap. -/
structure EdgesOk (h : Heap) (p : Nat) : Prop where
  below : p = h.startAddress + 16 → leftHeader h p = none
  behind : blockEnd h p = h.endAddress → ¬ rightHole h p

/-- The condition (module doc); `m` is the merged hole. -/
structure ContractOk (h : Heap) (p : Nat) (m : Chunk) : Prop extends EdgesOk h p where
  page : h.startAddress % 4096 = 0
  rest : m.addr - h.startAddress + 32 ≤ contractSize (m.addr - h.startAddress)

instance (h : Heap) (p : Nat) : Decidable (EdgesOk h p) :=
  decidable_of_iff ((p = h.startAddress + 16 → leftHeader h p = none) ∧
      (blockEnd h p = h.endAddress → ¬ rightHole h p))
    ⟨fun h => ⟨h.1, h.2⟩, fun h => ⟨h.1, h.2⟩⟩

instance (h : Heap) (p : Nat) (m : Chunk) : Decidable (ContractOk h p m) :=
  decidable_of_iff (EdgesOk h p ∧ h.startAddress % 4096 = 0 ∧
      m.addr - h.startAddress + 32 ≤ contractSize (m.addr - h.startAddress))
    ⟨fun h => ⟨h.1, h.2.1, h.2.2⟩, fun h => ⟨h.1, h.2, h.3⟩⟩

section
variable {σ : Type} {h h' : Heap} {l r L R cs' : List Chunk} {c m : Chunk}

/-! ## The merged hole as `free` finds it -/

/-- Nothing can follow a hole that ends the heap. -/
theorem Layout.tail_nil {cs : List Chunk} (w : Layout h cs) (ht : Tiles h.endAddress h.endAddress R)
    (hR : ∀ d ∈ R, d ∈ cs) : R = [] := by
  cases R with
  | nil => rfl
  | cons d R =>
    have h1 := ht.1
    have h2 := ht.2.le
    have h3 := w.min d (hR d (by simp))
    unfold Seg.fin at h2
    omega

theorem Joined.addr_bounds (j : Joined l c r L m R) (w : Layout h (l ++ c :: r)) :
    h.startAddress ≤ m.addr ∧ m.addr ≤ c.addr := by
  have hb := w.bounds (c := c) (by simp)
  rcases j.left with ⟨-, ha, -⟩ | ⟨d, rfl, -, ha⟩
  · omega
  · have h1 := w.bounds (c := d) (by simp)
    have h2 : d.fin = c.addr := (w.split rfl).1.fin_last
    have h3 : d.fin = d.addr + d.size := rfl
    omega

theorem Joined.mergedStart_eq (j : Joined l c r L m R) (w : WellFormed h (l ++ c :: r))
    (out : EdgesOk h (c.addr + 16)) : mergedStart h (c.addr + 16) = m.addr := by
  unfold mergedStart
  rcases hl : leftHeader h (c.addr + 16) with _ | a
  · rcases j.left with ⟨-, ha, -⟩ | ⟨d, rfl, ht, ha⟩
    · rw [ha]
      rfl
    · exact absurd (w.split rfl).1.fin_last (w.left_used hl d (by simp) ht)
  · obtain ⟨L', d, rfl, ht, rfl⟩ := w.left_chunk (fun hc => out.below (by omega)) a hl
    rcases j.left with ⟨-, -, hno⟩ | ⟨e, he, -, ha⟩
    · exact absurd (w.split rfl).1.fin_last (hno d (by simp) ht)
    · rw [ha, (List.append_inj' he rfl).2 |> List.head_eq_of_cons_eq]
      rfl

/-- The merged hole ends the heap for the two tests as well. -/
theorem Joined.mergedEnd_eq (j : Joined l c r L m R) (w : Layout h (l ++ c :: r))
    (out : EdgesOk h (c.addr + 16)) (hend : m.fin = h.endAddress) :
    mergedEnd h (c.addr + 16) = h.endAddress := by
  have hblock := w.blockEnd_eq
  unfold mergedEnd
  rw [hblock]
  rcases j.right with ⟨-, hfin, -⟩ | ⟨d, rfl, ht, hfin⟩
  · rw [if_neg (out.behind (by omega))]
    omega
  · have hda : d.addr = c.fin := w.tiles.next
    have hright := (w.rightHole_iff fun h => absurd h (List.cons_ne_nil _ _)).2 ⟨d, R, rfl, ht⟩
    rw [if_pos hright, ← hda, (w.header d (by simp)).size]
    exact hfin.symm.trans hend

theorem EdgesOk.not_right (out : EdgesOk h (c.addr + 16)) (w : Layout h (l ++ c :: r)) (hr : r = []) :
    ¬ rightHole h (c.addr + 16) := by
  subst hr
  exact out.behind (w.blockEnd_eq.trans w.tiles.fin_last)

/-- **A contraction, right or wrong**: where the heap ends afterwards, and that the index lists the
merged hole. -/
theorem WellFormed.free_end (pg : KernelPages σ) (s : σ) (w : WellFormed h (l ++ c :: r))
    (hused : c.tag = true) (out : EdgesOk h (c.addr + 16))
    (hend : mergedEnd h (c.addr + 16) = h.endAddress) :
    (free pg (c.addr + 16) h s).1.startAddress = h.startAddress ∧
      (free pg (c.addr + 16) h s).1.endAddress =
        add64 h.startAddress (contractSize (sub64 (mergedStart h (c.addr + 16)) h.startAddress)) ∧
      mergedStart h (c.addr + 16) ∈ (free pg (c.addr + 16) h s).1.index.toList := by
  have hlt := w.chunk_lt (c := c) (by simp)
  have hmin := w.min c (by simp)
  have hfin : c.fin = c.addr + c.size := rfl
  have hendLt := w.endLt
  have hb := w.bounds (c := c) (by simp)
  obtain ⟨g, hfree, hmem, hindex, hstart, hgend⟩ := w.free_eq pg s
  obtain ⟨L, m, hleft, hL, -, hle, hhead, -, -, hhigh, -⟩ :=
    w.unifyLeft hmem (w.left_chunk fun hc => out.below (by omega))
  obtain ⟨R, k, hright, hR, htR, hge, -, hperm, hstart2, hend2, -, -⟩ :=
    w.toIndexed.unifyRight (g := onMem (fun _ => m) g) (out.not_right w.toLayout) hused hindex hle hhead
      hhigh
  rcases hq : freeContract pg (mergedStart h (c.addr + 16)) (mergedEnd h (c.addr + 16) - 16)
    (add64 (c.fin - 16) sizeofFooter) k s with ⟨q, u⟩
  have hnil : R = [] := by
    rw [hend] at htR
    refine w.tail_nil htR fun d hd => ?_
    rcases hR with ⟨e, rfl, -⟩ | rfl <;> simp [hd]
  rw [hnil, holes_nil, List.append_nil] at hperm
  -- what the contraction looks for is not in the index
  have hnot : add64 (c.fin - 16) sizeofFooter ∉ k.index.toList := by
    rw [show add64 (c.fin - 16) sizeofFooter = c.fin by
      rw [add64_of_lt (show c.fin - 16 + 16 < 2 ^ 64 by omega)]
      omega]
    intro hin
    obtain ⟨d, hd, -, ha⟩ := mem_holes.1 (hperm.mem_iff.1 hin)
    have h1 := ((w.split rfl).1.bounds hd).2
    have h2 := w.min d (by simp [hd])
    have h3 : d.fin = d.addr + d.size := rfl
    omega
  have hidx : q.index = k.index := by
    have := freeContract_index pg (mergedStart h (c.addr + 16)) (mergedEnd h (c.addr + 16) - 16)
      (add64 (c.fin - 16) sizeofFooter) k s
    rw [hq] at this
    rcases this with h1 | ⟨h1, -⟩
    · exact h1
    · rw [indexOf_not_mem hnot] at h1
      omega
  obtain ⟨hqs, hqe⟩ := freeContract_bounds pg (mergedStart h (c.addr + 16))
    (mergedEnd h (c.addr + 16) - 16) (add64 (c.fin - 16) sizeofFooter) k s
  have hfoot : add64 (mergedEnd h (c.addr + 16) - 16) sizeofFooter = k.endAddress := by
    rw [hend2, onMem_endAddress, hgend, hend, add64_of_lt (show _ - 16 + 16 < 2 ^ 64 by omega)]
    omega
  rw [hq, if_pos hfoot, hstart2, onMem_startAddress, hstart] at hqe
  rw [hq, hstart2, onMem_startAddress, hstart] at hqs
  rw [hfree, freeMerge_eq hleft hright hq]
  have hslots : k.index.size + 1 < 2 ^ 64 := by
    have h1 := hperm.length_eq
    have h2 := w.size_lt
    rw [length_toList] at h1
    rw [w.size_eq, holes_append, List.length_append] at h2
    omega
  rcases hL with ⟨hnone, -⟩ | ⟨d, hsome, hd, rfl⟩
  · rw [hnone]
    refine ⟨hqs, hqe, ?_⟩
    dsimp only [Option.isNone_none]
    rw [if_pos rfl, insertIndex_index, (perm_insert _ _ (by rw [hidx]; exact hslots)).mem_iff]
    exact List.mem_cons_self
  · have hstart : mergedStart h (c.addr + 16) = d.addr := by
      unfold mergedStart
      rw [hsome]
      rfl
    rw [hsome]
    refine ⟨hqs, hqe, ?_⟩
    dsimp only [Option.isNone_some]
    rw [if_neg (by decide), hidx, hperm.mem_iff, hstart]
    exact mem_holes.2 ⟨d, by simp, hd, rfl⟩

/-! ## The condition is exact -/

theorem Contracted.ok (pg : KernelPages σ) (s : σ) (w : WellFormed h (l ++ c :: r))
    (hused : c.tag = true) (j : Joined l c r L m R) (hend : m.fin = h.endAddress)
    (hlen : (h.endAddress - h.startAddress) % 4096 = 0)
    (hmin : h.startAddress + heapMinSize ≤ h.endAddress) (out : EdgesOk h (c.addr + 16))
    (con : Contracted h (free pg (c.addr + 16) h s).1 cs') : ContractOk h (c.addr + 16) m := by
  obtain ⟨hlo, hma⟩ := j.addr_bounds w.toLayout
  have hb := w.bounds (c := c) (by simp)
  have hcmin := w.min c (by simp)
  have hcfin : c.fin = c.addr + c.size := rfl
  have hendLt := w.endLt
  obtain ⟨hs, he, hin⟩ := w.free_end pg s hused out (j.mergedEnd_eq w.toLayout out hend)
  rw [j.mergedStart_eq w out] at he hin
  obtain ⟨hpage, -, hle⟩ := contractSize_bounds (d := m.addr - h.startAddress) (by omega) hlen (by omega)
  rw [sub64_of_le hlo (by omega), add64_of_lt (by omega)] at he
  obtain ⟨b, hbm, hba⟩ := con.listed _ hin
  have hbmin := con.min b hbm
  have hbb := con.bounds hbm
  have hbfin : b.fin = b.addr + b.size := rfl
  have hep := con.endPage
  exact ⟨out, by omega, by omega⟩

theorem ContractOk.contracted (pg : KernelPages σ) (s : σ) (w : WellFormed h (l ++ c :: r))
    (hused : c.tag = true) (j : Joined l c r L m R) (hend : m.fin = h.endAddress)
    (hlen : (h.endAddress - h.startAddress) % 4096 = 0)
    (hmin : h.startAddress + heapMinSize ≤ h.endAddress) (ok : ContractOk h (c.addr + 16) m) :
    ∃ cs', Contracted h (free pg (c.addr + 16) h s).1 cs' := by
  obtain ⟨hlo, hma⟩ := j.addr_bounds w.toLayout
  have hb := w.bounds (c := c) (by simp)
  have hcmin := w.min c (by simp)
  have hcfin : c.fin = c.addr + c.size := rfl
  have hendLt := w.endLt
  have hstart := j.mergedStart_eq w ok.toEdgesOk
  have hme := j.mergedEnd_eq w.toLayout ok.toEdgesOk hend
  obtain ⟨hpage, hminl, hle⟩ :=
    contractSize_bounds (d := m.addr - h.startAddress) (by omega) hlen (by omega)
  have hrest := ok.rest
  obtain ⟨L', R', g⟩ := w.toIndexed.merged pg s hused
    (w.left_chunk fun hc => ok.below (by omega)) (ok.not_right w.toLayout)
    fun _ => by rw [hstart]; exact ⟨hrest, hle⟩
  obtain ⟨-, he, -⟩ := g.ends.resolve_left fun h => h.1 hme
  have hfe : finalEnd h (c.addr + 16) =
      h.startAddress + contractSize (m.addr - h.startAddress) := by
    unfold finalEnd
    rw [if_pos hme, hstart]
  have htR := g.tilesRight
  rw [hme] at htR
  have hnil : R' = [] := w.tail_nil htR fun d hd => by
    rcases List.mem_append.1 (g.old (List.mem_append_right _ hd)) with h | h <;> simp [h]
  subst hnil
  have hsize := g.size
  have hfoot := g.footer (w.footer c (by simp) (.inl hused)) (.inr hme)
  have hhead := g.header
  have hperm := g.perm
  have htL := g.tilesLeft
  have hlow := g.low
  rw [List.append_nil] at hperm
  have hhole : (mergedHole h (c.addr + 16)).fin = finalEnd h (c.addr + 16) :=
    mergedHole_fin (by omega)
  have hhaddr := mergedHole_addr h (c.addr + 16)
  have hhfin : (mergedHole h (c.addr + 16)).fin =
    (mergedHole h (c.addr + 16)).addr + (mergedHole h (c.addr + 16)).size := rfl
  generalize mergedHole h (c.addr + 16) = n at hfoot hhead hperm hhole hhaddr hhfin
  rw [hstart] at htL hsize hlow hhaddr
  -- the chunks below are as they were
  have old : ∀ d ∈ L', d ∈ l ++ c :: r ∧ h.mem.Same (free pg (c.addr + 16) h s).1.mem d.addr d.fin ∧
      d.fin ≤ m.addr := by
    intro d hd
    have hdb := htL.bounds hd
    refine ⟨?_, hlow.mono (Nat.zero_le _) hdb.2, hdb.2⟩
    rcases List.mem_append.1 (g.old (List.mem_append_left _ hd)) with h | h <;> simp [h]
  refine ⟨L' ++ [n], ⟨?_, ?_, ?_, ?_, ?_⟩, ?_, ?_, ?_, ?_, ?_⟩
  · rw [g.start, he, tiles_append]
    exact ⟨m.addr, htL, hhaddr, hhole⟩
  · intro d hd
    rcases List.mem_append.1 hd with hd | hd
    · exact w.min d (old d hd).1
    · rw [List.mem_singleton.1 hd]
      omega
  · intro d hd
    rcases List.mem_append.1 hd with hd | hd
    · exact w.kept (old d hd).1 (old d hd).2.1
    · rw [List.mem_singleton.1 hd]
      exact hhead
  · rw [g.start]
    exact w.startLow
  · rw [he]
    omega
  · intro d hd
    rcases List.mem_append.1 hd with hd | hd
    · obtain ⟨hin, hsame, hdm⟩ := old d hd
      have h1 := w.min d hin
      have h2 : d.fin = d.addr + d.size := rfl
      exact (w.footer d hin (.inr (by omega))).same (by omega)
        (hsame.mono (by omega) (Nat.le_refl _))
    · rw [List.mem_singleton.1 hd]
      exact hfoot
  · intro x hx
    obtain ⟨d, hd, -, ha⟩ := mem_holes.1 (hperm.mem_iff.1 hx)
    exact ⟨d, hd, ha⟩
  · have := ok.page
    omega
  · rw [g.start]
    omega
  · omega

/-- **The contraction is right if and only if `ContractOk` holds**, as long as nothing outside the
heap looks like a neighbour. -/
theorem free_contracts_iff (pg : KernelPages σ) (s : σ) (w : WellFormed h (l ++ c :: r))
    (hused : c.tag = true) (j : Joined l c r L m R) (hend : m.fin = h.endAddress)
    (hlen : (h.endAddress - h.startAddress) % 4096 = 0)
    (hmin : h.startAddress + heapMinSize ≤ h.endAddress) :
    (ContractOk h (c.addr + 16) m → ∃ cs', Contracted h (free pg (c.addr + 16) h s).1 cs') ∧
      (EdgesOk h (c.addr + 16) → (∃ cs', Contracted h (free pg (c.addr + 16) h s).1 cs') →
        ContractOk h (c.addr + 16) m) :=
  ⟨ContractOk.contracted pg s w hused j hend hlen hmin,
    fun out ⟨_, con⟩ => con.ok pg s w hused j hend hlen hmin out⟩

end

/-- The only block of the heap is freed: the hole keeps 64 KiB. -/
theorem free_contracts_block :
    ∃ s, runList exec [.alloc 100 0] sys0 = some s ∧
      ∃ cs', Contracted s.heap (free bumpPages (0xC0019000 + 16) s.heap s.pages).1 cs' := by
  have hrun : (runList exec [.alloc 100 0] sys0).map (fun s =>
      (decide (WellFormed s.heap ([] ++ ⟨0xC0019000, 132, true⟩ :: [⟨0xC0019084, 94076, false⟩])),
        decide (ContractOk s.heap (0xC0019000 + 16) ⟨0xC0019000, 94208, false⟩),
        s.heap.startAddress, s.heap.endAddress)) =
      some (true, true, 0xC0019000, 0xC0030000) := by
    decide
  obtain ⟨s, hs, h⟩ := Option.map_eq_some_iff.1 hrun
  simp only [Prod.mk.injEq, decide_eq_true_eq] at h
  obtain ⟨w, hok, hstart, hend⟩ := h
  have j : Joined [] ⟨0xC0019000, 132, true⟩ [⟨0xC0019084, 94076, false⟩] []
      ⟨0xC0019000, 94208, false⟩ [] :=
    ⟨rfl, .inl ⟨rfl, rfl, by simp⟩, .inr ⟨_, rfl, rfl, rfl⟩⟩
  exact ⟨s, hs, (free_contracts_iff bumpPages s.pages w rfl j (by rw [hend]; rfl)
    (by rw [hstart, hend]) (by rw [hstart, hend]; decide)).1 hok⟩

/-- **A block at the 64 KiB mark.** The chunks below it fill the minimal heap, so nothing is left of
its hole; the index lists it all the same, at the end of the heap. -/
theorem free_contracts_misses :
    ∃ s l c r L m R, Reach Init (Step bumpPages) s ∧ WellFormed s.heap (l ++ c :: r) ∧ c.tag = true ∧
      (∃ b ∈ s.live, b.p = c.addr + 16) ∧ Joined l c r L m R ∧ m.fin = s.heap.endAddress ∧
      (s.heap.endAddress - s.heap.startAddress) % 4096 = 0 ∧
      s.heap.startAddress + heapMinSize ≤ s.heap.endAddress ∧
      ¬ ∃ cs', Contracted s.heap (free bumpPages (c.addr + 16) s.heap s.pages).1 cs' := by
  have hrun : (runList exec [.alloc 0xFFE0 0, .alloc 100 0] sys0).map (fun s =>
      (decide (WellFormed s.heap ([⟨0xC0019000, 65536, true⟩] ++ ⟨0xC0029000, 132, true⟩ ::
          [⟨0xC0029084, 28540, false⟩])),
        decide (EdgesOk s.heap (0xC0029000 + 16)), s.live,
        s.heap.startAddress, s.heap.endAddress)) =
      some (true, true, [⟨0xC0029010, 100⟩, ⟨0xC0019010, 0xFFE0⟩], 0xC0019000, 0xC0030000) := by
    decide
  obtain ⟨s, hs, h⟩ := Option.map_eq_some_iff.1 hrun
  simp only [Prod.mk.injEq, decide_eq_true_eq] at h
  obtain ⟨w, out, hlive, hstart, hend⟩ := h
  obtain ⟨c, hc, ha⟩ : ∃ c : Chunk, c = ⟨0xC0029000, 132, true⟩ ∧ c.addr = 0xC0029000 :=
    ⟨_, rfl, rfl⟩
  rw [← hc] at w
  rw [← ha] at out
  have j : Joined [⟨0xC0019000, 65536, true⟩] c [⟨0xC0029084, 28540, false⟩]
      [⟨0xC0019000, 65536, true⟩] ⟨0xC0029000, 28672, false⟩ [] :=
    ⟨rfl, .inl ⟨rfl, ha.symm, by simp⟩, .inr ⟨_, rfl, rfl, rfl⟩⟩
  have hm : Seg.fin (⟨0xC0029000, 28672, false⟩ : Chunk) = s.heap.endAddress := by
    rw [hend]
    rfl
  have hlen : (s.heap.endAddress - s.heap.startAddress) % 4096 = 0 := by rw [hstart, hend]
  have hmin : s.heap.startAddress + heapMinSize ≤ s.heap.endAddress := by
    rw [hstart, hend]
    decide
  refine ⟨s, _, c, _, _, _, _, .of_list (fun _ _ _ => exec_step) (.start init_sys0) hs, w, by rw [hc],
    ⟨⟨0xC0029010, 100⟩, by rw [hlive]; simp, by rw [ha]⟩, j, hm, hlen, hmin, fun ⟨cs', con⟩ => ?_⟩
  have hrest := (con.ok bumpPages s.pages w (by rw [hc]) j hm hlen hmin out).rest
  rw [hstart] at hrest
  exact absurd hrest (by decide)

end Kheap
