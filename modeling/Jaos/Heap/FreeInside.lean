import Jaos.Heap.Contraction

/-!
# What `free` looks at

`free` finds the neighbours of a block by arithmetic on addresses and looks for a magic number there,
below the first chunk and behind the last one too. `freeTags` lists the headers and footers that a call
reads or writes, and `free_inside_iff` says when all of them lie in the heap (`InsideOk`): the block is
neither the first chunk nor the last one, and the heap does not grow when it is to contract.
-/

namespace Kheap

open Lib OrderedArray

/-! ## The accesses -/

/-- "Unify left" reads the footer below, the header it points to and, if that is a hole, what it
merges. -/
def leftTags (header footer : Nat) (h : Heap) : List Nat :=
  let testFooter := sub64 header sizeofFooter
  testFooter ::
    if magicAt h.mem testFooter = heapMagic then
      headerAt h.mem testFooter ::
        if isHoleAt h.mem (headerAt h.mem testFooter) = 1 then [header, footer] else []
    else []

/-- "Unify right" reads the header behind. -/
def rightTags (header footer : Nat) (h : Heap) : List Nat :=
  let testHeader := add64 footer sizeofFooter
  testHeader ::
    if magicAt h.mem testHeader = heapMagic ∧ isHoleAt h.mem testHeader ≠ 0 then [header] else []

/-- The contraction reads the header of the hole and writes its new size and footer. -/
def contractTags {σ : Type} (pg : KernelPages σ) (header footer : Nat) (h : Heap) (s : σ) : List Nat :=
  if add64 footer sizeofFooter = h.endAddress then
    let oldLength := sub64 h.endAddress h.startAddress
    let r := contract pg (sub64 header h.startAddress) h s
    let h := r.2.1
    let rest := sub64 (sizeAt h.mem header) (sub64 oldLength r.1)
    header ::
      if 0 < rest then
        let h := onMem (setSize header rest) h
        [sub64 (add64 header (sizeAt h.mem header)) sizeofFooter]
      else []
  else []

/-- The comparisons of `insert_ordered_array` read the sizes of entries and of the item. -/
def insertTags (a : Nat) (h : Heap) : List Nat :=
  if h.index.size = 0 then []
  else a :: h.index.toList.take (insertPos (headerTLessThan h.mem) a h.index + 1)

/-- From "Unify left" on. -/
def mergeTags {σ : Type} (pg : KernelPages σ) (header footer : Nat) (h : Heap) (s : σ) : List Nat :=
  let l := freeLeft header footer h
  let r := freeRight l.1 footer l.2.2
  let c := freeContract pg l.1 r.1 (add64 footer sizeofFooter) r.2 s
  leftTags header footer h ++ (rightTags l.1 footer l.2.2 ++
    (contractTags pg l.1 r.1 r.2 s ++ if l.2.1 then insertTags l.1 c.1 else []))

/-- The headers and footers that `free(p)` reads or writes. -/
def freeTags {σ : Type} (pg : KernelPages σ) (p : Nat) (h : Heap) (s : σ) : List Nat :=
  if p = 0 then []
  else
    let header := sub64 p sizeofHeader
    let footer := sub64 (add64 header (sizeAt h.mem header)) sizeofFooter
    header :: footer :: mergeTags pg header footer (onMem (setIsHole header 1) h) s

/-- The 16 bytes at `a` lie in the heap. -/
def Inside (h : Heap) (a : Nat) : Prop := h.startAddress ≤ a ∧ a + 16 ≤ h.endAddress

instance (h : Heap) (a : Nat) : Decidable (Inside h a) :=
  inferInstanceAs (Decidable (_ ∧ _))

/-- The condition (module doc); `l` and `r` are the chunks on either side of the block. -/
structure InsideOk (h : Heap) (l r : List Chunk) (p : Nat) : Prop where
  first : l ≠ []
  last : r ≠ []
  length : mergedEnd h p = h.endAddress →
    contractSize (mergedStart h p - h.startAddress) ≤ h.endAddress - h.startAddress

section
variable {σ : Type} {h g : Heap} {l r : List Chunk} {c d : Chunk}

theorem Layout.inside {cs : List Chunk} (w : Layout h cs) (hd : d ∈ cs) :
    Inside h d.addr ∧ Inside h (d.fin - 16) := by
  have hb := w.bounds hd
  have hmin := w.min d hd
  have hfin : d.fin = d.addr + d.size := rfl
  unfold Inside
  omega

/-- The call on a block: the header and the footer are where they are looked for. -/
theorem Layout.freeTags_eq (w : Layout h (l ++ c :: r)) (pg : KernelPages σ) (s : σ) :
    freeTags pg (c.addr + 16) h s =
      c.addr :: (c.fin - 16) :: mergeTags pg c.addr (c.fin - 16) (onMem (setIsHole c.addr 1) h) s := by
  obtain ⟨hheader, hfooter⟩ := w.block_tags
  unfold freeTags
  rw [if_neg (Nat.succ_ne_zero _)]
  simp only [hheader, hfooter]

/-- The footer below a block that is not the first chunk, once the block is marked. -/
theorem WellFormed.below_tags {L : List Chunk} (w : WellFormed h (L ++ [d] ++ c :: r)) :
    magicAt (setIsHole c.addr 1 h.mem) (c.addr - 16) = heapMagic ∧
      headerAt (setIsHole c.addr 1 h.mem) (c.addr - 16) = d.addr := by
  obtain ⟨hl, -⟩ := w.split rfl
  have hd : d ∈ L ++ [d] ++ c :: r := by simp
  have hfin : d.fin = c.addr := hl.fin_last
  have hsize : d.fin = d.addr + d.size := rfl
  have hmin := w.min d hd
  have hcmin := w.min c (by simp)
  have hcb := w.bounds (c := c) (by simp)
  have hcfin : c.fin = c.addr + c.size := rfl
  have hfoot := w.footer d hd (.inr (by omega))
  have hsame : h.mem.Same (setIsHole c.addr 1 h.mem) (c.addr - 16) (c.addr - 16 + 16) :=
    same_setIsHole _ _ (.inl (by omega))
  refine ⟨(magicAt_same hsame).trans ?_, (headerAt_same hsame).trans ?_⟩
  · rw [← hfin]
    exact hfoot.magic
  · rw [← hfin]
    exact hfoot.header

/-- **The left test** stays in the heap unless the block is the first chunk. -/
theorem WellFormed.leftTags_inside (w : WellFormed h (l ++ c :: r)) :
    (∀ a ∈ leftTags c.addr (c.fin - 16) (onMem (setIsHole c.addr 1) h), Inside h a) ↔ l ≠ [] := by
  have hc := w.inside (d := c) (by simp)
  have hlt := w.chunk_lt (c := c) (by simp)
  have htest : sub64 c.addr sizeofFooter = c.addr - 16 :=
    sub64_of_le (show 16 ≤ c.addr by omega) (by omega)
  unfold leftTags
  simp only [htest, onMem_mem]
  rcases List.eq_nil_or_concat l with rfl | ⟨L, d, rfl⟩
  · have hstart : c.addr = h.startAddress := (w.split rfl).1.symm
    refine iff_of_false (fun hall => ?_) (by simp)
    have := hall (c.addr - 16) (by simp)
    unfold Inside at this
    omega
  · rw [List.concat_eq_append] at *
    have hd := w.inside (d := d) (by simp)
    have hfin : d.fin = c.addr := (w.split rfl).1.fin_last
    obtain ⟨hmagic, hheader⟩ := w.below_tags
    rw [if_pos hmagic, hheader]
    refine iff_of_true (fun a ha => ?_) (by simp)
    rcases List.mem_cons.1 ha with rfl | ha
    · rw [← hfin]
      exact hd.2
    rcases List.mem_cons.1 ha with rfl | ha
    · exact hd.1
    · split at ha
      · simp only [List.mem_cons, List.not_mem_nil, or_false] at ha
        rcases ha with rfl | rfl
        · exact hc.1
        · exact hc.2
      · cases ha

/-- **The right test** stays in the heap unless the block is the last chunk. -/
theorem Layout.rightTags_inside (w : Layout h (l ++ c :: r)) {a : Nat} (ha : Inside h a) :
    (∀ x ∈ rightTags a (c.fin - 16) g, Inside h x) ↔ r ≠ [] := by
  have hlt := w.chunk_lt (c := c) (by simp)
  have hmin := w.min c (by simp)
  have hfin : c.fin = c.addr + c.size := rfl
  have htest : add64 (c.fin - 16) sizeofFooter = c.fin := by
    dsimp only [sizeofFooter]
    rw [add64_of_lt (by omega)]
    omega
  unfold rightTags
  simp only [htest]
  cases r with
  | nil =>
    have hend : c.fin = h.endAddress := w.tiles.fin_last
    refine iff_of_false (fun hall => ?_) (by simp)
    have := hall c.fin (by simp)
    unfold Inside at this
    omega
  | cons d r =>
    have hd := w.inside (d := d) (by simp)
    have hda : d.addr = c.fin := w.tiles.next
    refine iff_of_true (fun x hx => ?_) (by simp)
    rcases List.mem_cons.1 hx with rfl | hx
    · rw [← hda]
      exact hd.1
    · split at hx
      · rw [List.mem_singleton.1 hx]
        exact ha
      · cases hx

/-- The footer that a contraction writes ends the heap as it is then. -/
theorem newFooter_inside {a n : Nat} (hlo : h.startAddress ≤ a) (hhi : a + 32 ≤ h.endAddress)
    (hend : h.endAddress < 2 ^ 64) (hn : n < 2 ^ 64) (hmin : heapMinSize ≤ n) :
    Inside h (sub64 (add64 a (sub64 (h.endAddress - a) (sub64 (h.endAddress - h.startAddress) n)))
      sizeofFooter) ↔ n ≤ h.endAddress - h.startAddress := by
  dsimp only [heapMinSize, sizeofFooter] at *
  unfold Inside add64 sub64
  omega

/-- **The contraction** stays in the heap unless it makes it grow. `k` is the heap after both merges,
`[a, e)` the merged hole. -/
theorem Layout.contractTags_inside {cs : List Chunk} (w : Layout h cs) (pg : KernelPages σ) (s : σ)
    {k : Heap} {a e : Nat} (hstart : k.startAddress = h.startAddress)
    (hend : k.endAddress = h.endAddress) (hlo : h.startAddress ≤ a) (hae : a + 32 ≤ e)
    (he : e ≤ h.endAddress) (hhead : HeaderOk k.mem ⟨a, e - a, false⟩) :
    (∀ x ∈ contractTags pg a (e - 16) k s, Inside h x) ↔
      (e = h.endAddress → contractSize (a - h.startAddress) ≤ h.endAddress - h.startAddress) := by
  have hendLt := w.endLt
  have hfoot : add64 (e - 16) sizeofFooter = e := by
    dsimp only [sizeofFooter]
    rw [add64_of_lt (by omega)]
    omega
  have hsub : sub64 a h.startAddress = a - h.startAddress := sub64_of_le hlo (by omega)
  have hn := contractSize_lt (show a - h.startAddress < 2 ^ 64 by omega)
  have hmin : heapMinSize ≤ contractSize (a - h.startAddress) := by
    unfold contractSize
    split
    · exact Nat.le_refl _
    · rename_i hge
      exact Nat.le_of_not_lt hge
  obtain ⟨q, t, hq, hqm, -, -, -⟩ := contract_eq pg (a - h.startAddress) k s
  have hsize : sizeAt k.mem a = e - a := hhead.size
  unfold contractTags
  rw [hfoot, hend, hstart, hsub, w.len, hq]
  generalize contractSize (a - h.startAddress) = n at *
  simp only [hqm, hsize, onMem_mem]
  by_cases hc : e = h.endAddress
  · subst hc
    have hrest := newFooter_inside hlo hae hendLt hn hmin
    have hset := sizeAt_setSize k.mem a
      (sub64_lt (h.endAddress - a) (sub64 (h.endAddress - h.startAddress) n))
    simp only [if_true, hset, true_implies]
    have ha : Inside h a := ⟨hlo, by omega⟩
    split
    · simp only [List.mem_cons, List.not_mem_nil, or_false, forall_eq_or_imp, forall_eq, ha, true_and]
      exact hrest
    · rename_i hz
      refine iff_of_true (by simpa using ha) ?_
      unfold sub64 at hz
      omega
  · rw [if_neg hc]
    exact iff_of_true (fun x hx => by cases hx) fun he => absurd he hc

/-- **The insertion** reads headers of holes. -/
theorem insertTags_inside {a : Nat} (ha : Inside h a) (hidx : ∀ x ∈ g.index.toList, Inside h x) :
    ∀ x ∈ insertTags a g, Inside h x := by
  intro x hx
  unfold insertTags at hx
  split at hx
  · cases hx
  · rcases List.mem_cons.1 hx with rfl | hx
    · exact ha
    · exact hidx x (List.mem_of_mem_take hx)

/-- A contraction adds nothing to the index. -/
theorem freeContract_sub (pg : KernelPages σ) {header footer testHeader : Nat} {k : Heap} (s : σ)
    (hs : k.index.size < 2 ^ 64) :
    ∀ x ∈ (freeContract pg header footer testHeader k s).1.index.toList, x ∈ k.index.toList := by
  rcases freeContract_index pg header footer testHeader k s with he | ⟨hi, he⟩
  · rw [he]
    exact fun _ hx => hx
  · rw [he]
    exact fun x hx => (perm_remove hi hs).mem_iff.2 (List.mem_cons_of_mem _ hx)

/-- A block with a chunk below it is not the first one. -/
theorem Layout.not_first {P : Prop} (w : Layout h (l ++ c :: r)) (hl : l ≠ [])
    (hstart : c.addr = h.startAddress) : P := by
  obtain ⟨d, L, rfl⟩ := List.exists_cons_of_ne_nil hl
  have h1 := w.tiles.1
  have h2 := ((w.split rfl).1.bounds (c := d) (by simp)).2
  have h3 := w.min d (by simp)
  have h4 : d.fin = d.addr + d.size := rfl
  omega

/-- **`free` stays inside the heap** if and only if the block is neither the first chunk nor the last
one and the heap does not grow. -/
theorem free_inside_iff (pg : KernelPages σ) (s : σ) (w : WellFormed h (l ++ c :: r))
    (hused : c.tag = true) :
    (∀ a ∈ freeTags pg (c.addr + 16) h s, Inside h a) ↔ InsideOk h l r (c.addr + 16) := by
  have hc := w.inside (d := c) (by simp)
  have hmin := w.min c (by simp)
  have hfin : c.fin = c.addr + c.size := rfl
  obtain ⟨g, hg⟩ : ∃ g, g = onMem (setIsHole c.addr 1) h := ⟨_, rfl⟩
  have hleft := w.leftTags_inside
  rw [w.freeTags_eq pg s, ← hg]
  rw [← hg] at hleft
  by_cases hl : l = []
  · refine iff_of_false (fun hall => ?_) fun hok => hok.first hl
    refine hleft.1 (fun a ha => hall a ?_) hl
    exact List.mem_cons_of_mem _ (List.mem_cons_of_mem _ (List.mem_append_left _ ha))
  have hmem : g.mem = setIsHole c.addr 1 h.mem := by rw [hg, onMem_mem]
  obtain ⟨L, m, hfl, -, htL, hle, hhead, -, -, hhigh, -⟩ :=
    w.unifyLeft hmem (w.left_chunk (w.not_first hl))
  have hLlo := htL.le
  have ha : Inside h (mergedStart h (c.addr + 16)) := ⟨hLlo, by
    have := hc.2.2
    omega⟩
  have hright := w.rightTags_inside (g := onMem (fun _ => m) g) ha
  by_cases hr : r = []
  · refine iff_of_false (fun hall => ?_) fun hok => hok.last hr
    refine hright.1 (fun a ha => hall a ?_) hr
    unfold mergeTags
    rw [hfl]
    simp [ha]
  obtain ⟨R, k, hfr, hR, htR, hge, -, hperm, hks, hke, hkh, -⟩ := w.toIndexed.unifyRight
    (g := onMem (fun _ => m) g) (fun h => absurd h hr) hused (by rw [onMem_index, hg, onMem_index]) hle
    hhead hhigh
  have hcon := w.contractTags_inside pg s (hks.trans (by rw [hg]; rfl)) (hke.trans (by rw [hg]; rfl))
    hLlo (by omega) htR.le hkh
  have hidx : ∀ x ∈ k.index.toList, Inside h x := by
    intro x hx
    have hx := hperm.mem_iff.1 hx
    rw [← holes_append] at hx
    obtain ⟨d, hd, -, rfl⟩ := mem_holes.1 hx
    refine (w.inside (d := d) ?_).1
    rcases hR with ⟨e, rfl, -⟩ | rfl <;> rcases List.mem_append.1 hd with hd | hd <;> simp [hd]
  have hsize : k.index.size < 2 ^ 64 := by
    have h1 := hperm.length_eq
    have h2 := w.size_lt
    rw [length_toList, List.length_append] at h1
    rw [w.size_eq, holes_append, holes_cons_used hused, List.length_append] at h2
    have h3 : (holes R).length ≤ (holes r).length := by
      rcases hR with ⟨e, rfl, he⟩ | rfl
      · rw [holes_cons_hole he]
        simp
      · exact Nat.le_refl _
    omega
  unfold mergeTags
  simp only [hfl, hfr, List.mem_cons, List.mem_append]
  constructor
  · intro hall
    exact ⟨hl, hr, hcon.1 fun x hx => hall x (.inr (.inr (.inr (.inr (.inl hx)))))⟩
  · intro hok x hx
    rcases hx with rfl | rfl | hx | hx | hx | hx
    · exact hc.1
    · exact hc.2
    · exact hleft.2 hl x hx
    · exact hright.2 hr x hx
    · exact hcon.2 hok.length x hx
    · split at hx
      · exact insertTags_inside ha (fun x hx => hidx x (freeContract_sub pg s hsize x hx)) x hx
      · cases hx

/-- In the heaps of the runs a contraction never makes the heap grow. -/
theorem WellFormed.insideOk_iff (w : WellFormed h (l ++ c :: r)) (wf : Wf h (l ++ c :: r)) :
    InsideOk h l r (c.addr + 16) ↔ l ≠ [] ∧ r ≠ [] := by
  refine ⟨fun hok => ⟨hok.first, hok.last⟩, fun ⟨hl, hr⟩ => ⟨hl, hr, fun _ => ?_⟩⟩
  have hb := w.bounds (c := c) (by simp)
  have hmin := w.min c (by simp)
  have hfin : c.fin = c.addr + c.size := rfl
  obtain ⟨-, -, -, -, -, hle, -⟩ := w.unifyLeft (g := onMem (setIsHole c.addr 1) h) rfl
    (w.left_chunk (w.not_first hl))
  exact (wf.contractSize_le (by omega)).2.2

end

/-! ## The first chunk and the last one -/

/-- The second of three blocks. -/
theorem free_inside_second :
    ∃ s, runList exec [.alloc 100 0, .alloc 100 0, .alloc 100 0] sys0 = some s ∧
      ((∀ a ∈ freeTags bumpPages (0xC0019084 + 16) s.heap s.pages, Inside s.heap a) ↔
        InsideOk s.heap [⟨0xC0019000, 132, true⟩] [⟨0xC0019108, 132, true⟩, ⟨0xC001918C, 93812, false⟩]
          (0xC0019084 + 16)) := by
  have hrun : (runList exec [.alloc 100 0, .alloc 100 0, .alloc 100 0] sys0).map (fun s =>
      (decide (WellFormed s.heap ([⟨0xC0019000, 132, true⟩] ++ ⟨0xC0019084, 132, true⟩ ::
          [⟨0xC0019108, 132, true⟩, ⟨0xC001918C, 93812, false⟩])), s.live.length)) =
      some (true, 3) := by
    decide +kernel
  obtain ⟨s, hs, h⟩ := Option.map_eq_some_iff.1 hrun
  simp only [Prod.mk.injEq, decide_eq_true_eq] at h
  have hiff := free_inside_iff bumpPages s.pages h.1 rfl
  dsimp only at hiff
  exact ⟨s, hs, hiff⟩

/-- **A block that is the whole heap**: `free` reads below the heap and behind it. -/
theorem free_leaves_heap :
    ∃ s c, Reach Init (Step bumpPages) s ∧ WellFormed s.heap ([] ++ c :: []) ∧ c.tag = true ∧
      (∃ b ∈ s.live, b.p = c.addr + 16) ∧
      (∃ a ∈ freeTags bumpPages (c.addr + 16) s.heap s.pages, a + 16 = s.heap.startAddress) ∧
      ∃ a ∈ freeTags bumpPages (c.addr + 16) s.heap s.pages, a = s.heap.endAddress := by
  have hrun : (runList exec [.alloc (0x17000 - 32) 0] sys0).map (fun s =>
      (decide (WellFormed s.heap ([] ++ ⟨0xC0019000, 0x17000, true⟩ :: [])),
        decide (0xC0018FF0 ∈ freeTags bumpPages (0xC0019000 + 16) s.heap s.pages ∧
          0xC0030000 ∈ freeTags bumpPages (0xC0019000 + 16) s.heap s.pages),
        s.live, s.heap.startAddress, s.heap.endAddress)) =
      some (true, true, [⟨0xC0019010, 0x17000 - 32⟩], 0xC0019000, 0xC0030000) := by
    decide
  obtain ⟨s, hs, h⟩ := Option.map_eq_some_iff.1 hrun
  simp only [Prod.mk.injEq, decide_eq_true_eq] at h
  obtain ⟨w, ⟨hbelow, hbehind⟩, hlive, hstart, hend⟩ := h
  exact ⟨s, _, .of_list (fun _ _ _ => exec_step) (.start init_sys0) hs, w, rfl,
    ⟨⟨0xC0019010, 0x17000 - 32⟩, by rw [hlive]; simp, rfl⟩, ⟨_, hbelow, by rw [hstart]⟩,
    _, hbehind, hend.symm⟩

end Kheap
