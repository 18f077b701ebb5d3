import Jaos.Heap.Proof.Run

/-!
# The order of the hole index

`insert_ordered_array` puts a hole where its size belongs, but a hole whose size changes keeps its
slot: the left neighbour of a freed block, the endmost hole of an expansion and the hole in front of
a page-aligned block. `InPlace` says that the new size fits there; where it does, the index stays
sorted (`Wf.ordered_alloc`, `Wf.ordered_free`).
-/

namespace Kheap

open Lib OrderedArray

/-- The index lists the holes in the order of their sizes. -/
def Ordered (h : Heap) : Prop := SortedBy (sizeAt h.mem) h.index

theorem createHeap_ordered {start endAddr : Nat} (a : HeapArea start endAddr)
    (max supervisor readonly : Nat) (mem : Mem) (slots : Nat → Nat) :
    Ordered (createHeap start endAddr max supervisor readonly mem slots) := by
  rw [createHeap_eq a]
  exact (sortedBy_place slots heapIndexSize).insert _ (show 0 + 1 < 2 ^ 64 by decide)

/-- The size `n` fits the slot of `a`: no entry before it is larger, none after it smaller. -/
def InPlace (m : Mem) (index : OrderedArray Nat) (a n : Nat) : Prop :=
  ∀ j < index.size, (j < indexOf a index → sizeAt m (index.array j) ≤ n) ∧
    (indexOf a index < j → n ≤ sizeAt m (index.array j))

instance (m : Mem) (index : OrderedArray Nat) (a n : Nat) : Decidable (InPlace m index a n) := by
  unfold InPlace
  infer_instance

/-- The order condition on one call of `alloc`: a hole that grows or keeps a front part stays in its
place. -/
def CallInPlace (size pageAlign : Nat) (h : Heap) : Prop :=
  match findSmallestHole (newSize size) pageAlign h with
  | none => ∀ i < h.index.size,
      h.index.array i + sizeAt h.mem (h.index.array i) = h.endAddress →
      InPlace h.mem h.index (h.index.array i) (sizeAt h.mem (h.index.array i) + gained size h)
  | some i =>
    cutPos pageAlign (h.index.array i) ≠ h.index.array i →
      InPlace h.mem h.index (h.index.array i)
        (cutPos pageAlign (h.index.array i) - h.index.array i)

/-- The order condition on `free(p)`: the left neighbour stays in its place. -/
def FreeInPlace (p : Nat) (h : Heap) : Prop :=
  leftHeader h p ≠ none →
    InPlace h.mem (mergedIndex h p) (mergedStart h p) (finalEnd h p - mergedStart h p)

section
variable {h h' : Heap} {cs cs' l r : List Chunk} {c d : Chunk}

/-- A chunk kept has the same size before and after. -/
theorem Layout.size_kept (w : Layout h cs) (w' : Layout h' cs') (hd : d ∈ cs) (hd' : d ∈ cs') :
    sizeAt h'.mem d.addr = sizeAt h.mem d.addr :=
  (w'.header d hd').size.trans (w.header d hd).size.symm

/-- **One size changed in place** in an index of different addresses. -/
theorem SortedBy.resize {m m' : Mem} {index : OrderedArray Nat} {a n : Nat}
    (hs : SortedBy (sizeAt m) index) (hnd : index.toList.Nodup) (ha : a ∈ index.toList)
    (hkeep : ∀ x ∈ index.toList, x ≠ a → sizeAt m' x = sizeAt m x) (hn : sizeAt m' a = n)
    (hfit : InPlace m index a n) : SortedBy (sizeAt m') index := by
  obtain ⟨hi, hslot⟩ := indexOf_spec (mem_toList.1 ha)
  refine hs.update hi (fun j hj hne => hkeep _ (array_mem hj) fun he => hne ?_)
    (by rw [hslot]; exact hn) hfit
  rw [← hslot] at he
  have hj' : j < index.toList.length := by simpa using hj
  have hi' : indexOf a index < index.toList.length := by simpa using hi
  simpa using (@List.getElem_inj _ _ _ _ hj' hi' hnd).1 (by simpa using he)

theorem remove_size_le {α : Type} {index : OrderedArray α} {i : Nat} (hi : i < index.size)
    (hs : index.size < 2 ^ 64) : (removeOrderedArray i index).size ≤ index.size := by
  rw [← length_toList, toList_remove hi hs, ← length_toList]
  exact List.length_eraseIdx_le _ _

/-- In a sorted index the first hole that fits is a smallest one. -/
theorem Ordered.smallest {size i : Nat} (hs : Ordered h) (hf : findSmallestHole size 0 h = some i) :
    ∀ j < h.index.size, size ≤ sizeAt h.mem (h.index.array j) →
      sizeAt h.mem (h.index.array i) ≤ sizeAt h.mem (h.index.array j) := by
  intro j hj hfit
  obtain ⟨hi, -, hbefore⟩ := find_some hf
  rcases Nat.lt_trichotomy i j with hij | rfl | hij
  · exact sortedBy_iff.1 hs i j hij hj
  · exact Nat.le_refl _
  · have := hbefore j hij
    rw [fits_plain.2 hfit] at this
    cases this

/-- **Taking a hole keeps the order** if its front part stays in its place. -/
theorem Indexed.ordered_cut {i pos n : Nat} (w : Indexed h (l ++ c :: r)) (hs : Ordered h)
    (hc : c.tag = false) (hi : i < h.index.size) (ha : h.index.array i = c.addr)
    (h1 : pos = c.addr ∨ c.addr + 32 ≤ pos) (hn : 32 ≤ n)
    (h2 : c.fin = pos + n ∨ pos + n + 32 ≤ c.fin)
    (hfit : pos ≠ c.addr → InPlace h.mem h.index c.addr (pos - c.addr)) :
    Ordered (taken i c.addr c.fin pos n h) := by
  have w' := (w.cut hc hi ha h1 hn h2).1
  have hkeep : ∀ x ∈ h.index.toList, x ≠ c.addr →
      sizeAt (taken i c.addr c.fin pos n h).mem x = sizeAt h.mem x := by
    intro x hx hne
    obtain ⟨d, hd, -, rfl⟩ := mem_holes.1 (w.index.mem_iff.1 hx)
    refine w.size_kept w'.toLayout hd ?_
    simp only [List.mem_append, List.mem_cons] at hd ⊢
    rcases hd with hd | rfl | hd
    · exact .inl hd
    · exact absurd rfl hne
    · exact .inr (.inr hd)
  have hk : SortedBy (sizeAt (taken i c.addr c.fin pos n h).mem) (keptIndex i c.addr pos h) := by
    unfold keptIndex
    split
    · refine (SortedBy.remove hs hi (Nat.lt_trans w.size_lt (by decide))).congr fun x hx => ?_
      obtain ⟨hx, hne⟩ := w.remove_ne hi hx
      exact hkeep x hx (by rwa [← ha])
    · rename_i hpos
      refine SortedBy.resize hs w.nodup (w.index.mem_iff.2 (mem_holes.2 ⟨c, by simp, hc, rfl⟩)) hkeep
        ?_ (hfit hpos)
      refine (w'.header ⟨c.addr, pos - c.addr, false⟩ ?_).size
      simp [carved, gap, Ne.symm hpos]
  unfold Ordered
  rw [taken_index]
  split
  · exact hk
  · refine hk.insert _ ?_
    have hlt := w.size_lt
    have hle : (keptIndex i c.addr pos h).size ≤ h.index.size := by
      unfold keptIndex
      split
      · exact remove_size_le hi (by omega)
      · exact Nat.le_refl _
    omega

/-- **An expansion keeps the order** if the endmost hole stays in its place. -/
theorem Wf.ordered_retry {σ : Type} {pg : KernelPages σ} {s : σ} {size pageAlign : Nat}
    (w : Wf h cs) (hs : Ordered h) (hok : CallOk size pageAlign h)
    (hfit : CallInPlace size pageAlign h)
    (hf : findSmallestHole (newSize size) pageAlign h = none) {r : Heap × σ}
    (he : expand pg (add64 (sub64 h.endAddress h.startAddress) (newSize size)) h s = some r) :
    Ordered (growHole h.endAddress (sub64 h.endAddress h.startAddress) r.1) := by
  obtain ⟨l, c, -, w', hc, -, hshape, -⟩ := w.retry hok hf he
  rcases hshape with ⟨hone, -, -⟩ | ⟨hindex, n, rfl, hn⟩
  · unfold Ordered SortedBy
    rw [hone]
    exact List.pairwise_singleton _ _
  · unfold CallInPlace at hfit
    rw [hf] at hfit
    obtain ⟨i, hi, ha⟩ := w.indexed.slot_of (c := ⟨c.addr, n, false⟩) (by simp) rfl
    have hsz : sizeAt h.mem c.addr = n := (w.header ⟨c.addr, n, false⟩ (by simp)).size
    have hend := w.tiles.fin_last
    have hfit := hfit i hi (by rw [ha, hsz]; exact hend)
    rw [ha, hsz] at hfit
    unfold Ordered
    rw [hindex]
    refine SortedBy.resize hs w.indexed.nodup (mem_toList.2 ⟨i, hi, ha⟩) (fun x hx hne => ?_) ?_ hfit
    · obtain ⟨d, hd, -, rfl⟩ := mem_holes.1 (w.index.mem_iff.1 hx)
      refine w.indexed.size_kept w'.indexed.toLayout hd ?_
      rcases List.mem_append.1 hd with hd | hd
      · exact List.mem_append_left _ hd
      · rw [List.mem_singleton.1 hd] at hne
        exact absurd rfl hne
    · rw [(w'.header c (by simp)).size, hn]

/-- **`alloc` keeps the index sorted** if every hole it changes in place stays in its place. -/
theorem Wf.ordered_alloc {σ : Type} {pg : KernelPages σ} {s s' : σ} {fuel size pageAlign p : Nat}
    (w : Wf h cs) (hs : Ordered h) (hok : AllocOk pg size pageAlign h s)
    (hfit : ∀ g t, Retry pg size pageAlign h s g t → CallInPlace size pageAlign g)
    (ha : alloc pg fuel size pageAlign h s = some (p, h', s')) : Ordered h' := by
  obtain ⟨g, i, hg, hf, hp⟩ := alloc_inv ha
  have hordered : ∀ g t, Retry pg size pageAlign h s g t → Ordered g := by
    intro g t hg
    induction hg with
    | here => exact hs
    | again hr hf he ih =>
      obtain ⟨cs', w', -⟩ := w.retries hok hr
      exact w'.ordered_retry ih (hok _ _ hr) (hfit _ _ hr) hf he
  obtain ⟨cs', w', -⟩ := w.retries hok hg
  obtain ⟨l, c, r, rfl, hhole, hi, harr, heq, hpos, hn, hrest, -⟩ := w'.place (hok g s' hg) hf
  obtain ⟨-, rfl⟩ := Prod.mk.inj (heq.symm.trans hp)
  have hfit := hfit g s' hg
  unfold CallInPlace at hfit
  rw [hf] at hfit
  dsimp only at hfit
  rw [harr] at hfit
  exact w'.indexed.ordered_cut (hordered g s' hg) hhole hi harr hpos (by omega) hrest hfit

/-- The slot of a right neighbour that passes the test. -/
theorem Wf.right_slot (w : Wf h (l ++ c :: r)) (hout : magicAt h.mem h.endAddress ≠ heapMagic)
    (hright : rightHole h (c.addr + 16)) :
    indexOf (blockEnd h (c.addr + 16)) h.index < h.index.size ∧
      h.index.array (indexOf (blockEnd h (c.addr + 16)) h.index) = c.fin := by
  obtain ⟨d, R, rfl, hd⟩ := (w.indexed.rightHole_iff (w.indexed.not_rightHole hout)).1 hright
  rw [w.indexed.blockEnd_eq]
  have hda : d.addr = c.fin := w.tiles.next
  exact indexOf_spec (hda ▸ w.indexed.slot_of (c := d) (by simp) hd)

/-- The index without the right neighbour. -/
theorem Wf.merged_index (w : Wf h (l ++ c :: r)) (hs : Ordered h)
    (hout : magicAt h.mem h.endAddress ≠ heapMagic) :
    SortedBy (sizeAt h.mem) (mergedIndex h (c.addr + 16)) ∧
      (mergedIndex h (c.addr + 16)).toList.Nodup ∧
      (mergedIndex h (c.addr + 16)).size ≤ h.index.size ∧
      ∀ x ∈ (mergedIndex h (c.addr + 16)).toList,
        x ∈ h.index.toList ∧ (rightHole h (c.addr + 16) → x ≠ c.fin) := by
  have hlt : h.index.size < 2 ^ 64 := Nat.lt_trans w.size_lt (by decide)
  unfold mergedIndex
  split
  · rename_i hright
    obtain ⟨hi, hslot⟩ := w.right_slot hout hright
    refine ⟨SortedBy.remove hs hi hlt, ?_, remove_size_le hi hlt, fun x hx => ?_⟩
    · have hp := perm_remove hi hlt
      exact (List.nodup_cons.1 (hp.nodup_iff.1 w.indexed.nodup)).2
    · obtain ⟨hx, hne⟩ := w.indexed.remove_ne hi hx
      exact ⟨hx, fun _ => by rwa [hslot] at hne⟩
  · rename_i hright
    exact ⟨hs, w.indexed.nodup, Nat.le_refl _, fun x hx => ⟨hx, fun h => absurd h hright⟩⟩

/-- **`free` keeps the index sorted** if the left neighbour stays in its place. -/
theorem Wf.ordered_free {σ : Type} (pg : KernelPages σ) (s : σ) (w : Wf h (l ++ c :: r))
    (hs : Ordered h) (hused : c.tag = true) (hout : magicAt h.mem h.endAddress ≠ heapMagic)
    (hok : FreeOk h (c.addr + 16)) (hfit : FreeInPlace (c.addr + 16) h) :
    Ordered (free pg (c.addr + 16) h s).1 := by
  obtain ⟨L, R, merge, w', freed⟩ := w.freed pg s hused hout hok
  generalize (free pg (c.addr + 16) h s).1 = h' at w' freed ⊢
  obtain ⟨hsorted, hnd, hsize, hold⟩ := w.merged_index hs hout
  have hkeep : ∀ x ∈ (mergedIndex h (c.addr + 16)).toList, x ≠ mergedStart h (c.addr + 16) →
      sizeAt h'.mem x = sizeAt h.mem x := by
    intro x hx hne
    obtain ⟨hx, hright⟩ := hold x hx
    obtain ⟨d, hd, ht, rfl⟩ := mem_holes.1 (w.index.mem_iff.1 hx)
    refine w.indexed.size_kept w'.indexed.toLayout hd ?_
    simp only [List.mem_append, List.mem_cons] at hd ⊢
    rcases hd with hd | rfl | hd
    · -- left of the block: kept, or the left neighbour
      rcases merge.left with ⟨-, rfl⟩ | ⟨e, hsome, -, rfl⟩
      · exact .inl hd
      · rcases List.mem_append.1 hd with hd | hd
        · exact .inl hd
        · rw [List.mem_singleton.1 hd] at hne
          exact absurd (by unfold mergedStart; rw [hsome]; rfl) hne
    · rw [ht] at hused
      cases hused
    · -- right of the block: kept, or the right neighbour
      rcases merge.right with ⟨e, rfl, he⟩ | rfl
      · rcases List.mem_cons.1 hd with rfl | hd
        · exact absurd w.tiles.next (hright
            ((w.indexed.rightHole_iff (w.indexed.not_rightHole hout)).2 ⟨_, _, rfl, he⟩))
        · exact .inr (.inr hd)
      · exact .inr (.inr hd)
  have hlt := w.size_lt
  unfold Ordered
  rw [freed.index]
  split
  · rename_i hnone
    refine (hsorted.congr fun x hx => hkeep x hx fun he => ?_).insert _ (by omega)
    -- the block itself is not in the index
    have hstart : mergedStart h (c.addr + 16) = c.addr := by
      unfold mergedStart
      rw [hnone]
      rfl
    obtain ⟨d, hd, ht, hda⟩ := mem_holes.1 (w.index.mem_iff.1 (hold x hx).1)
    have := w.indexed.eq_of_addr hd (show c ∈ l ++ c :: r by simp) (by omega)
    rw [this, hused] at ht
    cases ht
  · rename_i hsome
    have hin : mergedStart h (c.addr + 16) ∈ (mergedIndex h (c.addr + 16)).toList := by
      have hi := freed.index
      rw [if_neg hsome] at hi
      rw [← hi]
      refine w'.index.mem_iff.2 (mem_holes.2 ⟨mergedHole h (c.addr + 16), by simp, ?_, ?_⟩) <;> simp
    have hn : sizeAt h'.mem (mergedStart h (c.addr + 16)) =
        finalEnd h (c.addr + 16) - mergedStart h (c.addr + 16) := by
      have := freed.header.size
      rwa [mergedHole_addr, mergedHole] at this
    exact SortedBy.resize hsorted hnd hin hkeep hn (hfit hsome)

end

end Kheap
