import Jaos.Heap.Proof.Tags

/-!
# The chunks of the heap and its index

`Layout h cs`: the chunks `cs` tile `[startAddress, endAddress)`, each of them has room for its two
tags and its header is in memory. `Indexed h cs` adds that the index lists the holes. Both know
nothing of the footers; the invariants of the runs and of the single calls are built on them.

`Layout.replace` is what every operation does to the chunks: some neighbouring ones give way to
others with the same ends.
-/

namespace Kheap

open Lib OrderedArray

/-- The addresses of the holes. -/
def holes (cs : List Chunk) : List Nat := (cs.filter fun c => !c.tag).map (·.addr)

section
variable {c : Chunk} {l r : List Chunk}

@[simp] theorem holes_nil : holes [] = [] := rfl

@[simp] theorem holes_append : holes (l ++ r) = holes l ++ holes r := by simp [holes]

theorem holes_cons_hole (h : c.tag = false) : holes (c :: l) = c.addr :: holes l := by
  simp [holes, h]

theorem holes_cons_used (h : c.tag = true) : holes (c :: l) = holes l := by simp [holes, h]

theorem mem_holes {a : Nat} : a ∈ holes l ↔ ∃ c ∈ l, c.tag = false ∧ c.addr = a := by
  simp [holes, and_assoc]

theorem length_holes_le (l : List Chunk) : (holes l).length ≤ l.length := by
  simpa [holes] using List.length_filter_le _ l

/-- Tiles of at least `n` bytes are no more than fit. -/
theorem tiles_length {a b n : Nat} (h : Tiles a b l) (hn : ∀ c ∈ l, n ≤ c.size) :
    n * l.length ≤ b - a := by
  induction l generalizing a with
  | nil => simp
  | cons c l ih =>
    have h1 := ih h.2 (fun d hd => hn d (List.mem_cons_of_mem _ hd))
    have h2 := hn c List.mem_cons_self
    have h3 := h.2.le
    have h4 := h.1
    unfold Seg.fin at *
    rw [List.length_cons, Nat.mul_add]
    omega

end

/-- The heap is cut into the chunks `cs` (module doc). -/
structure Layout (h : Heap) (cs : List Chunk) : Prop where
  tiles : Tiles h.startAddress h.endAddress cs
  min : ∀ c ∈ cs, 32 ≤ c.size
  header : ∀ c ∈ cs, HeaderOk h.mem c
  /-- The heap record and the index lie below. -/
  startLow : 16 ≤ h.startAddress
  endLt : h.endAddress < 2 ^ 64

instance (h : Heap) (cs : List Chunk) : Decidable (Layout h cs) :=
  decidable_of_iff (Tiles h.startAddress h.endAddress cs ∧ (∀ c ∈ cs, 32 ≤ c.size) ∧
      (∀ c ∈ cs, HeaderOk h.mem c) ∧ 16 ≤ h.startAddress ∧ h.endAddress < 2 ^ 64)
    ⟨fun h => ⟨h.1, h.2.1, h.2.2.1, h.2.2.2.1, h.2.2.2.2⟩, fun h => ⟨h.1, h.2, h.3, h.4, h.5⟩⟩

namespace Layout

variable {h : Heap} {cs : List Chunk} (w : Layout h cs)
include w

theorem pos : ∀ c ∈ cs, 0 < c.size := fun c hc => by have := w.min c hc; omega

theorem bounds {c : Chunk} (hc : c ∈ cs) : h.startAddress ≤ c.addr ∧ c.fin ≤ h.endAddress :=
  w.tiles.bounds hc

theorem len : sub64 h.endAddress h.startAddress = h.endAddress - h.startAddress :=
  sub64_of_le w.tiles.le w.endLt

/-- Every chunk lies low enough for its arithmetic not to wrap. -/
theorem chunk_lt {c : Chunk} (hc : c ∈ cs) : 16 ≤ c.addr ∧ c.addr + c.size < 2 ^ 64 := by
  have h1 := w.bounds hc
  have h2 := w.endLt
  have h3 := w.startLow
  unfold Seg.fin at h1
  omega

theorem eq_of_addr {c d : Chunk} (hc : c ∈ cs) (hd : d ∈ cs) (he : c.addr = d.addr) : c = d :=
  w.tiles.eq_of_addr w.pos hc hd he

/-- A header stays where its bytes do. -/
theorem kept {m' : Mem} {c : Chunk} (hc : c ∈ cs) (hs : h.mem.Same m' c.addr c.fin) :
    HeaderOk m' c := by
  have hmin := w.min c hc
  have hfin : c.fin = c.addr + c.size := rfl
  exact (w.header c hc).same (hs.mono (Nat.le_refl _) (by omega))

theorem holes_length : (holes cs).length < 2 ^ 59 := by
  have h1 := tiles_length w.tiles w.min
  have h2 := length_holes_le cs
  have h3 := w.endLt
  omega

/-- The chunks on both sides of one of them. -/
theorem split {l r : List Chunk} {c : Chunk} (he : cs = l ++ c :: r) :
    Tiles h.startAddress c.addr l ∧ Tiles c.fin h.endAddress r := by
  subst he
  obtain ⟨m, hl, rfl, hr⟩ := tiles_append.1 w.tiles
  exact ⟨hl, hr⟩

end Layout

/-- The index lists the holes, each once. -/
structure Indexed (h : Heap) (cs : List Chunk) : Prop extends Layout h cs where
  index : h.index.toList.Perm (holes cs)

instance (h : Heap) (cs : List Chunk) : Decidable (Indexed h cs) :=
  decidable_of_iff (Layout h cs ∧ h.index.toList.Perm (holes cs))
    ⟨fun h => ⟨h.1, h.2⟩, fun h => ⟨h.1, h.2⟩⟩

namespace Indexed

variable {h : Heap} {cs : List Chunk} (w : Indexed h cs)
include w

theorem size_eq : h.index.size = (holes cs).length := by
  rw [← length_toList]
  exact w.index.length_eq

theorem size_lt : h.index.size < 2 ^ 59 := by
  rw [w.size_eq]
  exact w.holes_length

/-- A slot in use holds the address of a hole. -/
theorem slot {i : Nat} (hi : i < h.index.size) :
    ∃ c ∈ cs, c.tag = false ∧ c.addr = h.index.array i :=
  mem_holes.1 (w.index.mem_iff.1 (array_mem hi))

/-- Every hole has a slot. -/
theorem slot_of {c : Chunk} (hc : c ∈ cs) (ht : c.tag = false) :
    ∃ i < h.index.size, h.index.array i = c.addr :=
  mem_toList.1 (w.index.mem_iff.2 (mem_holes.2 ⟨c, hc, ht, rfl⟩))

/-- Holes have different addresses. -/
theorem nodup : h.index.toList.Nodup := by
  refine w.index.nodup_iff.2 ?_
  have hp := (w.tiles.pairwise.sublist (List.filter_sublist (p := fun c => !c.tag)))
  refine List.pairwise_map.2 (hp.imp_of_mem fun {a b} ha _ hab => ?_)
  have := w.min a (List.mem_filter.1 ha).1
  unfold Seg.fin at hab
  omega

/-- The slots left after a removal hold other addresses. -/
theorem remove_ne {i x : Nat} (hi : i < h.index.size)
    (hx : x ∈ (removeOrderedArray i h.index).toList) : x ∈ h.index.toList ∧ x ≠ h.index.array i := by
  have hp := perm_remove hi (Nat.lt_trans w.size_lt (by decide))
  have hnd := List.nodup_cons.1 (hp.nodup_iff.1 w.nodup)
  exact ⟨hp.mem_iff.2 (List.mem_cons_of_mem _ hx), fun h => hnd.1 (h ▸ hx)⟩

end Indexed

/-! ## Replacing chunks -/

section
variable {h h' : Heap} {l P Q r : List Chunk} {lo hi : Nat}

/-- **Neighbouring chunks replaced** by others with the same ends; the memory outside them is
unchanged. -/
theorem Layout.replace (w : Layout h (l ++ (P ++ r))) (hl : Tiles h.startAddress lo l)
    (hr : Tiles hi h.endAddress r) (ht : Tiles lo hi Q) (hmin : ∀ c ∈ Q, 32 ≤ c.size)
    (hlow : Mem.Same h.mem h'.mem 0 lo) (hhigh : Mem.Same h.mem h'.mem hi h.endAddress)
    (hhead : ∀ c ∈ Q, HeaderOk h'.mem c)
    (hstart : h'.startAddress = h.startAddress) (hend : h'.endAddress = h.endAddress) :
    Layout h' (l ++ (Q ++ r)) := by
  have old : ∀ c, c ∈ l ∨ c ∈ r → 32 ≤ c.size ∧ HeaderOk h'.mem c := by
    intro c hc
    have hm : c ∈ l ++ (P ++ r) := by rcases hc with hc | hc <;> simp [hc]
    refine ⟨w.min c hm, w.kept hm ?_⟩
    rcases hc with hc | hc
    · exact hlow.mono (Nat.zero_le _) (hl.bounds hc).2
    · exact hhigh.mono (hr.bounds hc).1 (hr.bounds hc).2
  have split : ∀ c, c ∈ l ++ (Q ++ r) → (c ∈ l ∨ c ∈ r) ∨ c ∈ Q := by
    intro c hc
    simp only [List.mem_append] at hc
    rcases hc with hc | hc | hc <;> simp [hc]
  constructor
  · rw [hstart, hend]
    exact tiles_append.2 ⟨lo, hl, tiles_append.2 ⟨hi, ht, hr⟩⟩
  · exact fun c hc => (split c hc).elim (fun h => (old c h).1) (hmin c)
  · exact fun c hc => (split c hc).elim (fun h => (old c h).2) (hhead c)
  · rw [hstart]
    exact w.startLow
  · rw [hend]
    exact w.endLt

end

end Kheap
