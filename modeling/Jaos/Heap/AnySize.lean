import Jaos.Heap.Expansions

/-!
# Allocation of any size

The size of `kmalloc` is whatever the caller puts in the register. Three things can go wrong, and
`alloc` looks at none of them:

* `size` with both tags passes 2^64, so the search is for a hole of a few bytes and a small hole is
  handed out for the huge request;
* the new length passes 2^32 and has to be rounded to pages, which is done with a 32-bit mask, so
  `expand` gives the heap a length below 4 GiB;
* `alloc_kernel_page` cannot provide the pages and answers 0, so the heap ends behind its last page, and
  a tag that is stored there is a page fault (`allocPaged`).

`alloc_safe`: the call is safe when none of them happens (`SizeOk`). The first always makes it unsafe,
the second when the request alone is above 4 GiB, the third where the mask has not cut the length.
-/

namespace Kheap

open Lib OrderedArray

/-! ## Page faults -/

section
variable {σ : Type} (pg : KernelPages σ) (mapped : σ → Nat → Bool) (size : Nat)

/-- The tag at `a` can be stored. -/
def TagMapped (s : σ) (a : Nat) : Prop := ∀ k, k < 16 → mapped s (a + k) = true

instance (s : σ) (a : Nat) : Decidable (TagMapped mapped s a) :=
  inferInstanceAs (Decidable (∀ k, k < 16 → mapped s (a + k) = true))

/-- The tags that `growHole` stores. -/
def growTags (oldEndAddress oldLength : Nat) (h : Heap) : List Nat :=
  let gained := sub64 (sub64 h.endAddress h.startAddress) oldLength
  match endmost h.index with
  | none => [oldEndAddress, sub64 (add64 oldEndAddress gained) sizeofFooter]
  | some idx =>
    let header := lookupOrderedArray idx h.index
    [header, sub64 (add64 header (add64 (sizeAt h.mem header) gained)) sizeofFooter]

/-- The tags that `allocFrom` stores for a block that is not aligned. -/
def blockTags (iterator : Nat) (h : Heap) : List Nat :=
  let holePos := lookupOrderedArray iterator h.index
  let holeSize := sizeAt h.mem holePos
  let absorb := sub64 holeSize (newSize size) < sizeofHeader + sizeofFooter
  let payload := if absorb then add64 size (sub64 holeSize (newSize size)) else size
  let newSize := if absorb then holeSize else newSize size
  let hole := add64 (add64 (add64 holePos sizeofHeader) payload) sizeofFooter
  let last := sub64 (sub64 (add64 hole holeSize) newSize) sizeofFooter
  [holePos, add64 (add64 holePos sizeofHeader) payload] ++
    if 0 < sub64 holeSize newSize then
      hole :: if last < h.endAddress then [last] else []
    else []

/-- `alloc(size, 0, heap)`, where a tag stored to a page that is not mapped is a page fault. -/
def allocPaged : (fuel : Nat) → Heap → σ → Option (Nat × Heap × σ)
  | 0, _, _ => none
  | fuel + 1, h, s =>
    match findSmallestHole (newSize size) 0 h with
    | none =>
      let oldLength := sub64 h.endAddress h.startAddress
      (expand pg (add64 oldLength (newSize size)) h s).bind fun r =>
        if ∀ a ∈ growTags h.endAddress oldLength r.1, TagMapped mapped r.2 a then
          allocPaged fuel (growHole h.endAddress oldLength r.1) r.2
        else none
    | some iterator =>
      let r := allocFrom size 0 iterator h
      if ∀ a ∈ blockTags size iterator h, TagMapped mapped s a then some (r.1, r.2, s) else none

/-- The heap is mapped up to its end. -/
def HeapMapped (h : Heap) (s : σ) : Prop :=
  ∀ a, h.startAddress ≤ a → a < h.endAddress → mapped s a = true

end

/-- `b` is the chunk of the pointer `p`: inside the heap, with its tags, with room for `size`
bytes. -/
structure Served (h : Heap) (size p : Nat) (b : Chunk) : Prop where
  addr : p = b.addr + 16
  used : b.tag = true
  header : HeaderOk h.mem b
  footer : FooterOk h.mem b
  inside : h.startAddress ≤ b.addr ∧ b.fin ≤ h.endAddress
  payload : size + 32 ≤ b.size

section
variable {σ : Type} (pg : KernelPages σ) (mapped : σ → Nat → Bool) (size : Nat) (h : Heap) (s : σ)

/-- **The call is safe**: it returns a pointer with room for `size` bytes in a heap that is mapped, or
it returns 0 and changes nothing. -/
def AllocSafe : Prop :=
  ∃ fuel p h' s', allocPaged pg mapped size fuel h s = some (p, h', s') ∧
    ((∃ b, Served h' size p b) ∧ HeapMapped mapped h' s' ∨ p = 0 ∧ h' = h ∧ s' = s)

/-- The length `alloc` asks `expand` for. -/
def wanted : Nat := h.endAddress - h.startAddress + (size + 32)

/-- None of the three (module doc). -/
def SizeOk : Prop :=
  size + 32 < 2 ^ 64 ∧
    (findSmallestHole (newSize size) 0 h = none →
      (wanted size h < 2 ^ 32 ∨ wanted size h % 4096 = 0) ∧
        h.startAddress + pageCeil (wanted size h) < 2 ^ 64 ∧
        ∃ r, expand pg (wanted size h) h s = some r ∧ HeapMapped mapped r.1 r.2)

end

section
variable {σ : Type} {pg : KernelPages σ} {mapped : σ → Nat → Bool} {size i a n fuel p : Nat}
  {h h' g : Heap} {s s' t : σ} {cs : List Chunk}

/-! ## Tags -/

/-- It is `alloc` as long as it goes on. -/
theorem alloc_of_paged (ha : allocPaged pg mapped size fuel h s = some (p, h', s')) :
    alloc pg fuel size 0 h s = some (p, h', s') := by
  induction fuel generalizing h s with
  | zero => cases ha
  | succ fuel ih =>
    unfold allocPaged at ha
    unfold alloc
    dsimp only
    rw [← newSize]
    rcases hf : findSmallestHole (newSize size) 0 h with _ | i
    · simp only [hf] at ha
      obtain ⟨r, hr, ha⟩ := Option.bind_eq_some_iff.1 ha
      dsimp only
      rw [hr, Option.bind_some]
      split at ha
      · exact ih ha
      · cases ha
    · simp only [hf] at ha
      split at ha
      · exact ha
      · cases ha

theorem HeapMapped.tag (hm : HeapMapped mapped h s) (h1 : h.startAddress ≤ a) (h2 : a + 16 ≤ h.endAddress) :
    TagMapped mapped s a := fun k hk => hm (a + k) (by omega) (by omega)

/-- The tags of a block lie in the hole that it is taken from. -/
theorem blockTags_inside (ha : lookupOrderedArray i h.index = a) (hn : sizeAt h.mem a = n)
    (hend : a + n ≤ h.endAddress) (hlt : h.endAddress < 2 ^ 64) (hle : size + 32 ≤ n) :
    ∀ t ∈ blockTags size i h, a ≤ t ∧ t + 16 ≤ a + n := by
  unfold blockTags
  simp only [ha, hn, sizeofHeader, sizeofFooter, newSize_of_lt (show size + 32 < 2 ^ 64 by omega),
    sub64_of_le hle (show n < 2 ^ 64 by omega)]
  by_cases habs : n - (size + 32) < 16 + 16
  · have hfoot : add64 (add64 a 16) (add64 size (n - (size + 32))) = a + n - 16 := by
      simp (disch := omega) only [add64_of_lt]
      omega
    simp only [if_pos habs, hfoot, sub64_of_le (Nat.le_refl n) (show n < 2 ^ 64 by omega), Nat.sub_self,
      Nat.lt_irrefl, if_false, List.append_nil, List.mem_cons, List.not_mem_nil, or_false]
    rintro t (rfl | rfl) <;> omega
  · have hfoot : add64 (add64 a 16) size = a + 16 + size := by
      simp (disch := omega) only [add64_of_lt]
    have hhole : add64 (a + 16 + size) 16 = a + (size + 32) := by
      rw [add64_of_lt (by omega)]
      omega
    have hlast : sub64 (sub64 (add64 (a + (size + 32)) n) (size + 32)) 16 = a + n - 16 := by
      by_cases hw : a + (size + 32) + n < 2 ^ 64
      · simp (disch := omega) only [add64_of_lt, sub64_of_le]
        omega
      · unfold add64 sub64
        omega
    simp only [if_neg habs, hfoot, hhole, hlast, sub64_of_le hle (show n < 2 ^ 64 by omega),
      if_pos (show 0 < n - (size + 32) by omega), if_pos (show a + n - 16 < h.endAddress by omega),
      List.cons_append, List.nil_append, List.mem_cons, List.not_mem_nil, or_false]
    rintro t (rfl | rfl | rfl | rfl) <;> omega

/-- A hole that is taken in a mapped heap. -/
theorem allocPaged_found (hm : HeapMapped mapped h s) (hsize : size + 32 < 2 ^ 64)
    (hf : findSmallestHole (size + 32) 0 h = some i) (ha : lookupOrderedArray i h.index = a)
    (hn : sizeAt h.mem a = n) (hin : h.startAddress ≤ a ∧ a + n ≤ h.endAddress) (hlt : h.endAddress < 2 ^ 64)
    (hle : size + 32 ≤ n) : allocPaged pg mapped size (fuel + 1) h s =
      some ((allocFrom size 0 i h).1, (allocFrom size 0 i h).2, s) := by
  unfold allocPaged
  simp only [newSize_of_lt hsize, hf]
  rw [if_pos fun t ht => ?_]
  obtain ⟨h1, h2⟩ := blockTags_inside ha hn hin.2 hlt hle t ht
  exact hm.tag (by omega) (by omega)

/-! ## Enough is enough -/

theorem splitRear_bounds {pos size newSize holeSize : Nat} :
    (splitRear pos size newSize holeSize g).startAddress = g.startAddress ∧
      (splitRear pos size newSize holeSize g).endAddress = g.endAddress ∧
      (splitRear pos size newSize holeSize g).maxAddress = g.maxAddress := by
  unfold splitRear
  dsimp only
  split
  · split <;> exact ⟨rfl, rfl, rfl⟩
  · exact ⟨rfl, rfl, rfl⟩

theorem allocFrom_plain : (allocFrom size 0 i g).1 = add64 (lookupOrderedArray i g.index) 16 ∧
    (allocFrom size 0 i g).2.startAddress = g.startAddress ∧
    (allocFrom size 0 i g).2.endAddress = g.endAddress := by
  unfold allocFrom
  simp only [splitRear_bounds.1, splitRear_bounds.2.1, ne_eq, not_true_eq_false, false_and, if_false]
  exact ⟨trivial, rfl, rfl⟩

/-- A hole with room gives a safe block. -/
theorem served_allocFrom (ha : lookupOrderedArray i g.index = a) (hn : sizeAt g.mem a = n)
    (hin : g.startAddress ≤ a ∧ a + n ≤ g.endAddress) (hlt : g.endAddress < 2 ^ 64)
    (hle : size + 32 ≤ n) :
    ∃ b, Served (allocFrom size 0 i g).2 size (allocFrom size 0 i g).1 b := by
  rw [allocFrom_whole ha hn hin.2 hlt (by simp) hle]
  obtain ⟨k, hk⟩ : ∃ k, k = cutSize size a (a + n) := ⟨_, rfl⟩
  have hcut : size + 32 ≤ k ∧ (a + n = a + k ∨ a + k + 32 ≤ a + n) := by
    rw [hk]
    unfold cutSize
    split <;> omega
  rw [← hk]
  have hb : (⟨a, k, true⟩ : Chunk) ∈ carved a (a + n) a k := by simp [carved]
  obtain ⟨hhead, hfoot⟩ := tagsOk_writeAll g.mem (tiles_carved (Nat.le_refl a) (by omega))
    (carved_size (.inl rfl) (by omega) hcut.2) (by omega) _ hb
  rw [← taken_mem] at hhead hfoot
  refine ⟨⟨a, k, true⟩, rfl, rfl, hhead, hfoot, ⟨?_, ?_⟩, hcut.1⟩
  · rw [taken_startAddress]
    exact hin.1
  · rw [taken_endAddress]
    show a + k ≤ g.endAddress
    omega

/-- **After the first expansion** every header of the index has a size that stays inside. -/
theorem WellFormed.grown_inside {r : Heap × σ} (w : WellFormed h cs)
    (hceil : wanted size h ≤ pageCeil (wanted size h)) (hlt : h.endAddress + gained size h < 2 ^ 64)
    (hr : expand pg (add64 (sub64 h.endAddress h.startAddress) (newSize size)) h s = some r)
    (hg : g = growHole h.endAddress (sub64 h.endAddress h.startAddress) r.1) (hi : i < g.index.size) :
    g.startAddress ≤ g.index.array i ∧
      g.index.array i + sizeAt g.mem (g.index.array i) ≤ g.endAddress := by
  obtain ⟨hmem, hindex, hstart, hend, hmore, hgain⟩ := expand_gained w.tiles.le hceil hlt hr
  have hlow := w.startLow
  have hle := w.tiles.le
  have hs : g.startAddress = h.startAddress := by rw [hg, growHole_startAddress, hstart]
  have he : g.endAddress = h.endAddress + gained size h := by rw [hg, growHole_endAddress, hend]
  rcases hm : endmost h.index with _ | j
  · have hsize := w.no_endmost hm
    obtain ⟨hl, hsz⟩ := growHole_none (g := r.1) (by rw [hindex, hm]) (by rw [hindex, hsize]) hgain
      (by omega) hlt
    rw [← hg] at hl hsz
    have ha := array_mem hi
    rw [hl, List.mem_singleton] at ha
    rw [ha, hsz]
    omega
  · have hj := endmost_lt hm
    obtain ⟨c, hc, -, ha⟩ := w.slot hj
    have hsz : sizeAt h.mem c.addr = c.size := (w.header c hc).size
    have hb := w.bounds hc
    have hfin : c.fin = c.addr + c.size := rfl
    have hm' := hm
    rw [← hindex] at hm'
    rw [← hindex] at ha
    rw [← hmem] at hsz
    obtain ⟨hl, hsz', hsame⟩ := growHole_some hm' hgain (by omega) (by rw [← ha, hsz]; omega)
      h.endAddress
    rw [← ha, hsz] at hsz'
    rw [← ha, hmem] at hsame
    rw [← hg] at hl hsz' hsame
    rw [hl, hindex] at hi
    obtain ⟨d, hd, -, had⟩ := w.slot hi
    rw [hl, hindex, ← had]
    have hdb := w.bounds hd
    have hdsz : sizeAt h.mem d.addr = d.size := (w.header d hd).size
    have hdfin : d.fin = d.addr + d.size := rfl
    rcases w.tiles.apart hd hc with rfl | hap
    · rw [hsz']
      omega
    · -- a hole below the endmost one has kept its header
      have hmax := endmost_max hm i hi
      rw [← had, ← hindex, ← ha] at hmax
      have hmin := w.min d hd
      have hcmin := w.min c hc
      have hbelow : d.fin ≤ c.addr := by
        rcases hap with h1 | h1
        · exact h1
        · omega
      rw [sizeAt_same (hsame.mono (Nat.zero_le _) (by omega)), hdsz]
      omega

/-- The tags stored after an expansion lie in the heap. -/
theorem WellFormed.growTags_inside {r : Heap × σ} (w : WellFormed h cs)
    (hceil : wanted size h ≤ pageCeil (wanted size h)) (hlt : h.endAddress + gained size h < 2 ^ 64)
    (hr : expand pg (add64 (sub64 h.endAddress h.startAddress) (newSize size)) h s = some r) :
    ∀ a ∈ growTags h.endAddress (sub64 h.endAddress h.startAddress) r.1,
      r.1.startAddress ≤ a ∧ a + 16 ≤ r.1.endAddress := by
  obtain ⟨hmem, hindex, hstart, hend, hmore, hgain⟩ := expand_gained w.tiles.le hceil hlt hr
  have hle := w.tiles.le
  unfold growTags
  simp only [hgain, hindex, hmem]
  rw [hstart, hend]
  rcases hm : endmost h.index with _ | j
  · have hfoot : sub64 (add64 h.endAddress (gained size h)) sizeofFooter =
        h.endAddress + gained size h - 16 := by
      simp (disch := omega) only [add64_of_lt, sub64_of_le, sizeofFooter]
    simp only [hfoot, List.mem_cons, List.not_mem_nil, or_false]
    rintro a (rfl | rfl) <;> omega
  · have hj := endmost_lt hm
    obtain ⟨c, hc, -, ha⟩ := w.slot hj
    have hsz : sizeAt h.mem c.addr = c.size := (w.header c hc).size
    have hb := w.bounds hc
    have hmin := w.min c hc
    have hfin : c.fin = c.addr + c.size := rfl
    have hfoot : sub64 (add64 c.addr (add64 c.size (gained size h))) sizeofFooter =
        c.addr + (c.size + gained size h) - 16 := by
      simp (disch := omega) only [add64_of_lt, sub64_of_le, sizeofFooter]
    simp only [lookup_eq hj, ← ha, hsz, hfoot, List.mem_cons, List.not_mem_nil, or_false]
    rintro a (rfl | rfl) <;> omega

/-- **A call that expands** the heap by pages that it gets. -/
theorem WellFormed.expanded (w : WellFormed h cs) (hsize : size + 32 < 2 ^ 64)
    (hf : findSmallestHole (newSize size) 0 h = none)
    (hround : wanted size h < 2 ^ 32 ∨ wanted size h % 4096 = 0)
    (hlt : h.startAddress + pageCeil (wanted size h) < 2 ^ 64) {r : Heap × σ}
    (hr : expand pg (wanted size h) h s = some r) : ∃ p h',
      (∀ fuel, alloc pg (fuel + 2) size 0 h s = some (p, h', r.2)) ∧
      h'.startAddress = r.1.startAddress ∧ h'.endAddress = r.1.endAddress ∧ (∃ b, Served h' size p b) ∧
      (∀ mapped, HeapMapped mapped r.1 r.2 →
        ∀ fuel, allocPaged pg mapped size (fuel + 2) h s = some (p, h', r.2)) := by
  have hnew : newSize size = size + 32 := newSize_of_lt hsize
  have hle := w.tiles.le
  have hceil := le_pageCeil hround
  have hw : wanted size h = h.endAddress - h.startAddress + (size + 32) := rfl
  have hadd : add64 (sub64 h.endAddress h.startAddress) (newSize size) = wanted size h := by
    rw [hnew, w.len]
    exact add64_of_lt (by omega)
  rw [← hadd] at hr
  have hgained : gained size h = pageCeil (wanted size h) - (h.endAddress - h.startAddress) := rfl
  have e1 := w.enlarged hceil (by omega) hr
  have hinside := fun i => w.grown_inside (i := i) hceil (by omega) hr rfl
  have htags := w.growTags_inside hceil (by omega) hr
  have x1 := Expansions.here.again hf hr
  generalize hg : growHole h.endAddress (sub64 h.endAddress h.startAddress) r.1 = g at e1 x1 hinside
  obtain ⟨i, hi⟩ := e1.find size 0 hsize (by rw [if_pos rfl]; omega)
  obtain ⟨hlt', hfit, -⟩ := find_some hi
  rw [hnew] at hi hfit
  have hroom := fits_plain.1 hfit
  have hstart : g.startAddress = r.1.startAddress := by rw [← hg, growHole_startAddress]
  have hend : g.endAddress = r.1.endAddress := by rw [← hg, growHole_endAddress]
  refine ⟨_, _, fun fuel => ?_, ?_, ?_, served_allocFrom (lookup_eq hlt') rfl (hinside i hlt') e1.endLt hroom,
    fun mapped hm fuel => ?_⟩
  · rw [show fuel + 2 = 0 + 1 + (fuel + 1) by omega, x1.alloc_eq]
    exact alloc_found pg fuel r.2 hsize hi
  · rw [allocFrom_plain.2.1, hstart]
  · rw [allocFrom_plain.2.2, hend]
  · have hm' : HeapMapped mapped g r.2 := by
      unfold HeapMapped
      rw [hstart, hend]
      exact hm
    unfold allocPaged
    simp only [hf, hr, Option.bind_some]
    rw [if_pos fun a ha => hm.tag (htags a ha).1 (htags a ha).2, hg]
    exact allocPaged_found hm' hsize hi (lookup_eq hlt') rfl (hinside i hlt') e1.endLt hroom

theorem SizeOk.safe (w : WellFormed h cs) (hm : HeapMapped mapped h s) (hok : SizeOk pg mapped size h s) :
    AllocSafe pg mapped size h s := by
  obtain ⟨hsize, hok⟩ := hok
  have hnew : newSize size = size + 32 := newSize_of_lt hsize
  rcases hf : findSmallestHole (newSize size) 0 h with _ | i
  · obtain ⟨hround, hlt, r, hr, hm'⟩ := hok hf
    obtain ⟨p, h', -, hstart, hend, hb, hpaged⟩ := w.expanded hsize hf hround hlt hr
    refine ⟨0 + 2, p, h', r.2, hpaged mapped hm' 0, .inl ⟨hb, ?_⟩⟩
    unfold HeapMapped
    rw [hstart, hend]
    exact hm'
  · rw [hnew] at hf
    obtain ⟨l, c, r, rfl, -, hi, ha, hsz, hfit⟩ := w.toIndexed.found hf
    have hb := w.bounds (c := c) (by simp)
    have hroom := hsz ▸ fits_plain.1 hfit
    have ha' : lookupOrderedArray i h.index = c.addr := by rw [lookup_eq hi, ha]
    refine ⟨0 + 1, _, _, _, allocPaged_found hm hsize hf ha' hsz hb w.endLt hroom, .inl
      ⟨served_allocFrom ha' hsz hb w.endLt hroom, ?_⟩⟩
    unfold HeapMapped
    rw [allocFrom_plain.2.1, allocFrom_plain.2.2]
    exact hm

/-! ## What cannot be safe -/

/-- The heaps of the retries list headers whose payload address is not 0. -/
theorem WellFormed.retry_slots {pageAlign : Nat} (w : WellFormed h cs) (hend : h.endAddress + 16 < 2 ^ 64)
    (hg : Retry pg size pageAlign h s g t) :
    (g.index.size = 0 → g.endAddress = h.endAddress) ∧
      ∀ i < g.index.size, 0 < g.index.array i ∧ g.index.array i + 16 < 2 ^ 64 := by
  have hlow := w.startLow
  have hle := w.tiles.le
  induction hg with
  | here =>
    refine ⟨fun _ => rfl, fun i hi => ?_⟩
    obtain ⟨c, hc, -, ha⟩ := w.slot hi
    have h1 := w.bounds hc
    have h2 := w.min c hc
    have hfin : c.fin = c.addr + c.size := rfl
    omega
  | @again g t r _ hf he ih =>
    obtain ⟨hzero, hslots⟩ := ih
    obtain ⟨-, hindex, -, -, -⟩ := expand_some he
    rw [← hindex] at hslots hzero
    rcases hm : endmost r.1.index with _ | i
    · have hsize : r.1.index.size = 0 := by
        refine Nat.eq_zero_of_not_pos fun hpos => ?_
        have h1 := (hslots 0 hpos).1
        have h2 := endmost_none hm 0 hpos
        omega
      have hl : (growHole g.endAddress (sub64 g.endAddress g.startAddress) r.1).index.toList =
          [g.endAddress] := growHole_index_none hm hsize
      have hone := congrArg List.length hl
      rw [length_toList, List.length_singleton] at hone
      refine ⟨fun h => by omega, fun i hi => ?_⟩
      have ha := array_mem hi
      rw [hl, List.mem_singleton] at ha
      rw [ha, hzero hsize]
      omega
    · rw [growHole_index_some hm]
      have hi := endmost_lt hm
      exact ⟨fun h => by omega, hslots⟩

/-- The pointer returned is not 0. -/
theorem WellFormed.alloc_ne_zero {fuel p : Nat} {h' : Heap} {s' : σ} (w : WellFormed h cs)
    (hend : h.endAddress + 16 < 2 ^ 64) (ha : alloc pg fuel size 0 h s = some (p, h', s')) : p ≠ 0 := by
  obtain ⟨g, i, hg, hf, hp⟩ := alloc_inv ha
  obtain ⟨hi, -, -⟩ := find_some hf
  have hslot := (w.retry_slots hend hg).2 i hi
  have h1 : p = add64 (g.index.array i) 16 := by
    rw [← lookup_eq hi, ← allocFrom_plain.1, hp]
  rw [h1, add64_of_lt (by omega)]
  omega

/-- The 32-bit mask leaves no more than 4 GiB. -/
theorem pageCeil_le {n : Nat} (h : n % 4096 ≠ 0) : pageCeil n ≤ 2 ^ 32 ∧ pageCeil n % 4096 = 0 := by
  unfold pageCeil
  rw [and_fff, if_pos h, and_fffff000, add64_of_lt (by omega)]
  omega

/-- Once expanded for a request that the mask cuts down, the heap has at most 4 GiB. -/
theorem WellFormed.retry_length {pageAlign : Nat} (w : WellFormed h cs) (hsize : size + 32 < 2 ^ 64)
    (hpage : (size + 32) % 4096 ≠ 0) (hlen : (h.endAddress - h.startAddress) % 4096 = 0)
    (hg : Retry pg size pageAlign h s g t) :
    sub64 g.endAddress g.startAddress % 4096 = 0 ∧
      (g = h ∨ g.endAddress < 2 ^ 64 ∧ sub64 g.endAddress g.startAddress ≤ 2 ^ 32) := by
  induction hg with
  | here => exact ⟨by rwa [w.len], .inl rfl⟩
  | @again g t r _ hf he ih =>
    obtain ⟨hmod, -⟩ := ih
    obtain ⟨-, -, hstart, -, hend⟩ := expand_some he
    rw [newSize_of_lt hsize] at hend
    generalize sub64 g.endAddress g.startAddress = len at hmod hend
    have hx : add64 len (size + 32) % 4096 ≠ 0 := by
      unfold add64
      omega
    obtain ⟨hle, hceil⟩ := pageCeil_le hx
    generalize pageCeil (add64 len (size + 32)) = n at hle hceil hend
    have hn : sub64 r.1.endAddress r.1.startAddress = n := by
      rw [hend, hstart]
      unfold add64 sub64
      omega
    rw [growHole_endAddress, growHole_startAddress, hn, hend]
    exact ⟨hceil, .inr ⟨Nat.mod_lt _ (by decide), hle⟩⟩

/-- A chunk has no more than 2^64 bytes. -/
theorem Served.size_lt {h' : Heap} {p : Nat} {b : Chunk} (hb : Served h' size p b) :
    size + 32 < 2 ^ 64 := by
  have h1 := Mem.load_lt h'.mem (b.addr + 8) 8
  have h2 : h'.mem.load (b.addr + 8) 8 = b.size := hb.header.size
  have h3 := hb.payload
  omega

/-- No safe call has a size that wraps. -/
theorem AllocSafe.size_lt (w : WellFormed h cs) (hend : h.endAddress + 16 < 2 ^ 64)
    (hsafe : AllocSafe pg mapped size h s) : size + 32 < 2 ^ 64 := by
  obtain ⟨fuel, p, h', s', ha, ⟨⟨b, hb⟩, -⟩ | ⟨hp, -, -⟩⟩ := hsafe
  · exact hb.size_lt
  · exact absurd hp (w.alloc_ne_zero hend (alloc_of_paged ha))

/-- A safe call for more than 4 GiB of a size that needs rounding finds a hole at once. -/
theorem AllocSafe.find (w : WellFormed h cs) (hend : h.endAddress + 16 < 2 ^ 64)
    (hsafe : AllocSafe pg mapped size h s) (hlarge : 2 ^ 32 < size + 32) (hpage : (size + 32) % 4096 ≠ 0)
    (hlen : (h.endAddress - h.startAddress) % 4096 = 0) :
    findSmallestHole (newSize size) 0 h ≠ none := by
  obtain ⟨fuel, p, h', s', ha, ⟨⟨b, hb⟩, -⟩ | ⟨hp, -, -⟩⟩ := hsafe
  · obtain ⟨g, i, hg, hf, hp⟩ := alloc_inv (alloc_of_paged ha)
    obtain ⟨-, rfl | ⟨hlt, hle⟩⟩ := w.retry_length hb.size_lt hpage hlen hg
    · rw [hf]
      exact Option.some_ne_none i
    · have hin := hb.inside
      have hroom := hb.payload
      have hfin : b.fin = b.addr + b.size := rfl
      have heq := congrArg Prod.snd hp
      dsimp only at heq
      rw [← heq, allocFrom_plain.2.1, allocFrom_plain.2.2] at hin
      rw [sub64_of_le (by omega) hlt] at hle
      omega
  · exact absurd hp (w.alloc_ne_zero hend (alloc_of_paged ha))

/-- A call that expands the heap by whole pages is safe only if it gets them. -/
theorem AllocSafe.pages (w : WellFormed h cs) (hend : h.endAddress + 16 < 2 ^ 64)
    (hsafe : AllocSafe pg mapped size h s) (hsize : size + 32 < 2 ^ 64)
    (hf : findSmallestHole (newSize size) 0 h = none)
    (hround : wanted size h < 2 ^ 32 ∨ wanted size h % 4096 = 0)
    (hlt : h.startAddress + pageCeil (wanted size h) < 2 ^ 64) :
    ∃ r, expand pg (wanted size h) h s = some r ∧ HeapMapped mapped r.1 r.2 := by
  obtain ⟨fuel, p, h', s', ha, ⟨-, hm⟩ | ⟨hp, -, -⟩⟩ := hsafe
  · have ha := alloc_of_paged ha
    have hadd : add64 (sub64 h.endAddress h.startAddress) (newSize size) = wanted size h := by
      have hceil := le_pageCeil hround
      have hw : wanted size h = h.endAddress - h.startAddress + (size + 32) := rfl
      rw [newSize_of_lt hsize, w.len]
      exact add64_of_lt (by omega)
    -- a call with an expansion returns where it gets the pages, with two units of fuel
    have hfirst : ∀ f, alloc pg (f + 1) size 0 h s = (expand pg (wanted size h) h s).bind fun r =>
        alloc pg f size 0 (growHole h.endAddress (sub64 h.endAddress h.startAddress) r.1) r.2 := by
      intro f
      rw [← hadd]
      conv => lhs; unfold alloc
      unfold newSize at hf ⊢
      simp only [hf]
    obtain ⟨f, rfl⟩ : ∃ f, fuel = f + 1 := by
      cases fuel with
      | zero => cases ha
      | succ f => exact ⟨f, rfl⟩
    obtain ⟨r, hr, hrest⟩ := Option.bind_eq_some_iff.1 ((hfirst f).symm.trans ha)
    obtain ⟨f, rfl⟩ : ∃ g, f = g + 1 := by
      cases f with
      | zero => cases hrest
      | succ f => exact ⟨f, rfl⟩
    obtain ⟨p', h'', hrun, hs, he, -, -⟩ := w.expanded hsize hf hround hlt hr
    rw [hrun] at ha
    cases ha
    refine ⟨r, hr, ?_⟩
    unfold HeapMapped at hm ⊢
    rwa [hs, he] at hm
  · exact absurd hp (w.alloc_ne_zero hend (alloc_of_paged ha))

/-- **Allocation is safe under `SizeOk`**, and a call that wraps, that finds a hole at once, that
asks for more than 4 GiB or whose new length the mask leaves alone is safe only under `SizeOk`. -/
theorem alloc_safe (w : WellFormed h cs) (hm : HeapMapped mapped h s) :
    (SizeOk pg mapped size h s → AllocSafe pg mapped size h s) ∧
      (h.endAddress + 16 < 2 ^ 64 →
        2 ^ 64 ≤ size + 32 ∨ findSmallestHole (newSize size) 0 h ≠ none ∨
          2 ^ 32 < size + 32 ∧ (size + 32) % 4096 ≠ 0 ∧ (h.endAddress - h.startAddress) % 4096 = 0 ∨
          (wanted size h < 2 ^ 32 ∨ wanted size h % 4096 = 0) ∧
            h.startAddress + pageCeil (wanted size h) < 2 ^ 64 →
        AllocSafe pg mapped size h s → SizeOk pg mapped size h s) := by
  refine ⟨SizeOk.safe w hm, fun hend hcase hsafe => ?_⟩
  have hlt := hsafe.size_lt w hend
  refine ⟨hlt, fun hf => ?_⟩
  rcases hcase with h1 | h1 | ⟨h1, h2, h3⟩ | ⟨h1, h2⟩
  · omega
  · exact absurd hf h1
  · exact absurd hf (hsafe.find w hend h1 h2 h3)
  · exact ⟨h1, h2, hsafe.pages w hend hlt hf h1 h2⟩

end

/-! ## Two calls -/

/-- The pages of `bumpPages`, from the beginning of memory on. -/
def bumpMapped (nextBlock a : Nat) : Bool := decide (a < nextBlock * 4096)

theorem mapped_sys0 : HeapMapped bumpMapped sys0.heap 0xC0030 := fun _ _ h => decide_eq_true h

/-- A request for which the heap has to be expanded. -/
theorem alloc_safe_sys0 : AllocSafe bumpPages bumpMapped 0x17000 sys0.heap 0xC0030 :=
  (alloc_safe sys0_wellFormed mapped_sys0).1 ⟨by decide, fun _ =>
    ⟨.inl (by decide), by decide, _, rfl, fun _ _ h => decide_eq_true h⟩⟩

/-- **One byte short of 2^64.** The wrapped size of 31 bytes fits the only hole, and the caller gets
a pointer to it. -/
theorem alloc_unsafe :
    (alloc bumpPages 1 (2 ^ 64 - 1) 0 sys0.heap 0xC0030).map (·.1) = some 0xC0019010 ∧
    WellFormed sys0.heap [⟨0xC0019000, 0x17000, false⟩] ∧ HeapMapped bumpMapped sys0.heap 0xC0030 ∧
    ¬ AllocSafe bumpPages bumpMapped (2 ^ 64 - 1) sys0.heap 0xC0030 := by
  refine ⟨by decide, sys0_wellFormed, mapped_sys0, fun hsafe => ?_⟩
  exact absurd (hsafe.size_lt sys0_wellFormed (by decide)) (by decide)

end Kheap
