import Jaos.Heap.FreeIndex

/-!
# What `free` leaves of the boundary tags

`Joined` says what `free(p)` is to do to the chunks: the block becomes a hole and takes in the holes
on either side. `free_restores_iff` says when the tags are right afterwards (`RestoreOk`):

* the chunk behind the block is in use. If it is a hole, the footer of the merged hole stays the
  footer of that hole and points to the old header: the code only moves its local variable there.
* below the first chunk there is no footer of a hole. If there seems to be one, the block is merged
  with it and never gets into the index.
* the index has a slot for a hole that is not merged to the left.
-/

namespace Kheap

open Lib OrderedArray

/-- The hole `m` takes the place of the block `c` and of the holes next to it; `L` and `R` are the
chunks left and right of it. -/
structure Joined (l : List Chunk) (c : Chunk) (r L : List Chunk) (m : Chunk) (R : List Chunk) : Prop where
  hole : m.tag = false
  left : (l = L ∧ m.addr = c.addr ∧ ∀ d ∈ l, d.tag = false → d.fin ≠ c.addr) ∨
    ∃ d, l = L ++ [d] ∧ d.tag = false ∧ m.addr = d.addr
  right : (r = R ∧ m.fin = c.fin ∧ ∀ d ∈ r, d.tag = false → d.addr ≠ c.fin) ∨
    ∃ d, r = d :: R ∧ d.tag = false ∧ m.fin = d.fin

/-! ## The neighbours of a block in a well-formed heap -/

section
variable {h : Heap} {l L r R : List Chunk} {c d : Chunk}

/-- The left test looks at the chunk below, whose footer is in order. -/
theorem WellFormed.leftHeader_eq (w : WellFormed h (L ++ [d] ++ c :: r)) :
    leftHeader h (c.addr + 16) = if d.tag then none else some d.addr := by
  obtain ⟨hl, -⟩ := w.split rfl
  have hd : d ∈ L ++ [d] ++ c :: r := by simp
  have hc : c ∈ L ++ [d] ++ c :: r := by simp
  have hfin : d.fin = c.addr := hl.fin_last
  have hsize : d.fin = d.addr + d.size := rfl
  have hmin := w.min d hd
  have hcmin := w.min c hc
  have hcb := w.bounds hc
  have hcfin : c.fin = c.addr + c.size := rfl
  have hfoot := w.footer d hd (.inr (by omega))
  have hmagic := hfoot.magic
  have hheader := hfoot.header
  rw [hfin] at hmagic hheader
  have hsame : ∀ hi, hi ≤ c.addr → h.mem.Same (setIsHole c.addr 1 h.mem) 0 hi := fun hi hle =>
    same_setIsHole _ _ (.inl hle)
  have h1 : magicAt (setIsHole c.addr 1 h.mem) (c.addr - 16) = heapMagic :=
    (magicAt_same ((hsame c.addr (by omega)).mono (by omega) (by omega))).trans hmagic
  have h2 : headerAt (setIsHole c.addr 1 h.mem) (c.addr - 16) = d.addr :=
    (headerAt_same ((hsame c.addr (by omega)).mono (by omega) (by omega))).trans hheader
  have h3 : isHoleAt (setIsHole c.addr 1 h.mem) d.addr = if d.tag then 0 else 1 :=
    (isHoleAt_same ((hsame c.addr (by omega)).mono (by omega) (by omega))).trans
      (w.header d hd).isHole
  unfold leftHeader
  simp only [Nat.add_sub_cancel, h1, h2, h3, true_and]
  cases d.tag <;> simp

/-- What the left test finds is a chunk, unless it finds something below the heap. -/
theorem WellFormed.left_chunk (w : WellFormed h (l ++ c :: r))
    (hfirst : c.addr = h.startAddress → leftHeader h (c.addr + 16) = none) :
    ∀ a, leftHeader h (c.addr + 16) = some a →
      ∃ L d, l = L ++ [d] ∧ d.tag = false ∧ d.addr = a := by
  intro a ha
  rcases List.eq_nil_or_concat l with rfl | ⟨L, d, rfl⟩
  · rw [hfirst (w.split rfl).1.symm] at ha
    cases ha
  · rw [List.concat_eq_append] at *
    rw [w.leftHeader_eq] at ha
    cases hd : d.tag
    · rw [hd] at ha
      exact ⟨L, d, rfl, hd, Option.some.inj ha⟩
    · rw [hd] at ha
      cases ha

/-- If the left test finds nothing, no hole ends at the block. -/
theorem WellFormed.left_used (w : WellFormed h (l ++ c :: r))
    (hnone : leftHeader h (c.addr + 16) = none) : ∀ d ∈ l, d.tag = false → d.fin ≠ c.addr := by
  intro d hd ht hfin
  obtain ⟨L, rfl⟩ := (w.split rfl).1.last_of_fin
    (fun e he => by have := w.min e (List.mem_append_left _ he); omega) hd hfin
  rw [w.leftHeader_eq, ht] at hnone
  cases hnone

/-- The chunk on the left is a hole, or no hole ends at the block. -/
theorem Layout.left_cases (w : Layout h (l ++ c :: r)) :
    (∀ d ∈ l, d.tag = false → d.fin ≠ c.addr) ∨ ∃ L d, l = L ++ [d] ∧ d.tag = false := by
  refine Decidable.or_iff_not_imp_left.2 fun hn => ?_
  simp only [Classical.not_forall, Decidable.not_not] at hn
  obtain ⟨d, hd, ht, hfin⟩ := hn
  obtain ⟨L, rfl⟩ := (w.split rfl).1.last_of_fin
    (fun e he => by have := w.min e (List.mem_append_left _ he); omega) hd hfin
  exact ⟨L, d, rfl, ht⟩

/-- A chunk that starts at the end of the block is the next one. -/
theorem Layout.head_of_addr (w : Layout h (l ++ c :: r)) (hd : d ∈ r) (ha : d.addr = c.fin) :
    ∃ R, r = d :: R := by
  cases r with
  | nil => cases hd
  | cons e R =>
    have := w.tiles.next
    rw [w.eq_of_addr (show d ∈ l ++ c :: e :: R by simp [List.mem_cons.1 hd])
      (show e ∈ l ++ c :: e :: R by simp) (by omega)]
    exact ⟨R, rfl⟩

/-- A block whose merged hole does not end the heap has a chunk behind it. -/
theorem Layout.behind (w : Layout h (l ++ c :: r))
    (hend : ∀ L m R, Joined l c r L m R → m.fin ≠ h.endAddress) :
    r ≠ [] ∧ c.fin ≠ h.endAddress ∧
      ∀ d R, r = d :: R → d.tag = false → d.fin ≠ h.endAddress := by
  -- the merged hole may start anywhere for this
  obtain ⟨L, a, hle, hleft⟩ : ∃ L a, a ≤ c.fin ∧
      ((l = L ∧ a = c.addr ∧ ∀ d ∈ l, d.tag = false → d.fin ≠ c.addr) ∨
        ∃ d, l = L ++ [d] ∧ d.tag = false ∧ a = d.addr) := by
    rcases w.left_cases with hno | ⟨L, d, rfl, ht⟩
    · exact ⟨l, c.addr, Nat.le_add_right _ _, .inl ⟨rfl, rfl, hno⟩⟩
    · have h1 : d.fin = c.addr := (w.split rfl).1.fin_last
      have h2 : d.fin = d.addr + d.size := rfl
      have h3 : c.fin = c.addr + c.size := rfl
      exact ⟨L, d.addr, by omega, .inr ⟨d, rfl, ht, rfl⟩⟩
  have hnil : r ≠ [] := by
    rintro rfl
    refine hend L ⟨a, c.fin - a, false⟩ [] ⟨rfl, hleft, .inl ⟨rfl, ?_, by simp⟩⟩ ?_
    · exact Nat.add_sub_cancel' hle
    · rw [← w.tiles.fin_last]
      exact Nat.add_sub_cancel' hle
  refine ⟨hnil, ?_, ?_⟩
  · obtain ⟨d, R, rfl⟩ := List.exists_cons_of_ne_nil hnil
    have h1 := w.min d (by simp)
    have h2 := w.bounds (c := d) (by simp)
    have h3 : d.fin = d.addr + d.size := rfl
    have h4 := w.tiles.next
    omega
  · rintro d R rfl ht he
    have h1 := w.tiles.next
    have h2 : d.fin = d.addr + d.size := rfl
    have hseg : Seg.fin (⟨a, d.fin - a, false⟩ : Chunk) = d.fin :=
      Nat.add_sub_cancel' (show a ≤ d.fin by omega)
    exact hend L ⟨a, d.fin - a, false⟩ R ⟨rfl, hleft, .inr ⟨d, rfl, ht, hseg⟩⟩ (hseg.trans he)

end

/-! ## What `free` is to leave -/

section
variable {σ : Type} {h h' : Heap} {l L r R : List Chunk} {c : Chunk}

/-- **`free` as it should be**: the block joins the holes next to it, the heap is well formed again and
nothing else has changed. -/
def Restored (h h' : Heap) (l : List Chunk) (c : Chunk) (r : List Chunk) : Prop :=
  ∃ L m R, Joined l c r L m R ∧ WellFormed h' (L ++ m :: R) ∧
    h'.startAddress = h.startAddress ∧ h'.endAddress = h.endAddress ∧
    Mem.Same h.mem h'.mem 0 m.addr ∧ (∀ hi, Mem.Same h.mem h'.mem m.fin hi) ∧
    (h.index.size ≤ h.index.maxSize → h'.index.size ≤ h'.index.maxSize)

/-- The condition (module doc). -/
structure RestoreOk (h : Heap) (p : Nat) : Prop where
  right : ¬ rightHole h p
  first : p = h.startAddress + 16 → leftHeader h p = none
  room : leftHeader h p = none → h.index.size ≠ h.index.maxSize

instance (h : Heap) (p : Nat) : Decidable (RestoreOk h p) :=
  decidable_of_iff (¬ rightHole h p ∧ (p = h.startAddress + 16 → leftHeader h p = none) ∧
      (leftHeader h p = none → h.index.size ≠ h.index.maxSize))
    ⟨fun h => ⟨h.1, h.2.1, h.2.2⟩, fun h => ⟨h.1, h.2, h.3⟩⟩

/-- The index of the chunks around the merged hole, when the heap keeps its end. -/
theorem Merged.indexed (g : Merged h c h' l r L R) (w : Indexed h (l ++ c :: r))
    (hend : mergedEnd h (c.addr + 16) ≠ h.endAddress) :
    Indexed h' (L ++ ([mergedHole h (c.addr + 16)] ++ R)) := by
  obtain ⟨mid, hmid⟩ := g.mid c
  rw [hmid] at w
  obtain ⟨-, he, hhigh⟩ := g.ends.resolve_right fun h => hend h.1
  have hfe : finalEnd h (c.addr + 16) = mergedEnd h (c.addr + 16) := if_neg hend
  have hsize := g.size
  rw [hfe] at hsize
  refine ⟨Layout.replace (P := mid) w.toLayout g.tilesLeft g.tilesRight ?_ ?_ g.low
    ((hhigh _).mono g.within.2 (Nat.le_refl _)) ?_ g.start he, g.perm⟩
  · rw [tiles_cons, tiles_nil, mergedHole_addr]
    exact ⟨rfl, (mergedHole_fin (by omega)).trans hfe⟩
  · simp only [List.mem_singleton, forall_eq, mergedHole]
    omega
  · simpa only [List.mem_singleton, forall_eq] using g.header

/-- An entry for the block can only be a new one. -/
theorem Indexed.not_listed (w : Indexed h (l ++ c :: r)) (hused : c.tag = true) :
    c.addr ∉ h.index.toList := by
  intro hin
  obtain ⟨d, hd, ht, ha⟩ := mem_holes.1 (w.index.mem_iff.1 hin)
  rw [w.eq_of_addr hd (by simp) ha, hused] at ht
  cases ht

/-- A block that was merged to the left gets no entry of its own. -/
theorem Indexed.not_added (pg : KernelPages σ) (s : σ) (w : Indexed h (l ++ c :: r))
    (hused : c.tag = true) (hleft : leftHeader h (c.addr + 16) ≠ none)
    (hsize : (free pg (c.addr + 16) h s).1.index.size < 2 ^ 60) :
    c.addr ∉ (free pg (c.addr + 16) h s).1.index.toList := by
  obtain ⟨idx, lt, hidx, hfree⟩ := w.free_index pg s
  rw [if_neg hleft] at hfree
  rw [hfree] at hsize ⊢
  have hlt := w.size_lt
  have hunified : (unifiedIndex h (c.addr + 16)).size < 2 ^ 61 →
      c.addr ∉ (unifiedIndex h (c.addr + 16)).toList := by
    unfold unifiedIndex
    split
    · intro hs hin
      exact w.not_listed hused ((remove_sub (by omega) (by omega)).2 _ hin)
    · exact fun _ => w.not_listed hused
  rcases hidx with he | ⟨hi, he⟩
  · rw [he] at hsize ⊢
    exact hunified (by omega)
  · rw [he] at hsize ⊢
    have hu : (unifiedIndex h (c.addr + 16)).size < 2 ^ 64 := by
      unfold unifiedIndex
      split
      · exact sub64_lt _ _
      · omega
    obtain ⟨h1, h2⟩ := remove_sub (i := indexOf c.fin (unifiedIndex h (c.addr + 16))) hu (by omega)
    exact fun hin => hunified (by omega) (h2 _ hin)

/-- The merged hole of a block with a chunk behind it does not end the heap. -/
theorem Layout.merged_ne (w : Layout h (l ++ c :: r)) (hnil : r ≠ []) (hfin : c.fin ≠ h.endAddress)
    (hd : ∀ d R, r = d :: R → d.tag = false → d.fin ≠ h.endAddress) :
    mergedEnd h (c.addr + 16) ≠ h.endAddress := by
  unfold mergedEnd
  rw [w.blockEnd_eq]
  split
  · rename_i hright
    obtain ⟨d, R, rfl, ht⟩ := (w.rightHole_iff fun hr => absurd hr hnil).1 hright
    have hda : d.addr = c.fin := w.tiles.next
    rw [← hda, (w.header d (by simp)).size]
    exact hd d R rfl ht
  · exact hfin

theorem Restored.ok (pg : KernelPages σ) (s : σ) (w : WellFormed h (l ++ c :: r))
    (hused : c.tag = true) (hend : ∀ L m R, Joined l c r L m R → m.fin ≠ h.endAddress)
    (res : Restored h (free pg (c.addr + 16) h s).1 l c r) : RestoreOk h (c.addr + 16) := by
  obtain ⟨hnil, hfin, hdfin⟩ := w.behind hend
  obtain ⟨L, m, R, j, w', -, hend', -, -, hroom⟩ := res
  have hm : m ∈ L ++ m :: R := by simp
  have hmfin := hend L m R j
  have hfirst : c.addr = h.startAddress → leftHeader h (c.addr + 16) = none := by
    intro hc
    refine Decidable.byContradiction fun hn => ?_
    refine w.not_added pg s hused hn (Nat.lt_trans w'.size_lt (by decide)) ?_
    -- the hole starts at the block: there is no chunk below
    have hl : m.addr = c.addr := by
      rcases j.left with ⟨-, ha, -⟩ | ⟨d, rfl, -, -⟩
      · exact ha
      · have h1 := w.bounds (c := d) (by simp)
        have h2 := w.min d (by simp)
        have h3 : d.fin = c.addr := (w.split rfl).1.fin_last
        have h4 : d.fin = d.addr + d.size := rfl
        omega
    have hin := w'.index.mem_iff.2 (mem_holes.2 ⟨m, hm, j.hole, rfl⟩)
    rwa [hl] at hin
  have hne := w.merged_ne hnil hfin hdfin
  obtain ⟨L', R', g⟩ := w.toIndexed.merged pg s hused (w.left_chunk hfirst) (fun hr => absurd hr hnil)
    fun he => absurd he hne
  obtain ⟨-, -, hhigh⟩ := g.ends.resolve_right fun h => hne h.1
  have hright : ¬ rightHole h (c.addr + 16) := by
    intro hright
    obtain ⟨d, Rd, rfl, ht⟩ := (w.rightHole_iff fun hr => absurd hr hnil).1 hright
    have hda : d.addr = c.fin := w.tiles.next
    have hdm := w.min d (by simp)
    have hdf : d.fin = d.addr + d.size := rfl
    -- the old footer of the right neighbour is the footer of the merged hole
    have hold := (w.footer d (by simp) (.inr (hdfin d Rd rfl ht))).header
    have hme : m.fin = d.fin := by
      rcases j.right with ⟨-, -, hno⟩ | ⟨e, he, -, hfe⟩
      · exact absurd hda (hno d (by simp) ht)
      · rw [hfe, (List.cons.inj he).1]
    have hnew := (w'.footer m hm (.inr (by rw [hend']; exact hmfin))).header
    rw [hme, headerAt_same ((hhigh d.fin).mono (by omega) (by omega)), hold] at hnew
    have hma : m.addr ≤ c.addr := by
      rcases j.left with ⟨-, ha, -⟩ | ⟨e, rfl, -, ha⟩
      · omega
      · have h1 : e.fin = c.addr := (w.split rfl).1.fin_last
        have h2 : e.fin = e.addr + e.size := rfl
        omega
    have hcf : c.fin = c.addr + c.size := rfl
    have hcm := w.min c (by simp)
    omega
  refine ⟨hright, fun hp => hfirst (by omega), fun hn hfull => ?_⟩
  have hi := g.index
  have hlt := w.size_lt
  unfold mergedIndex at hi
  rw [if_pos hn, if_neg hright] at hi
  have hslots := hroom (by omega)
  rw [hi, size_insert, maxSize_insert, add64_of_lt (by omega)] at hslots
  omega

theorem RestoreOk.restored (pg : KernelPages σ) (s : σ) (w : WellFormed h (l ++ c :: r))
    (hused : c.tag = true) (hend : ∀ L m R, Joined l c r L m R → m.fin ≠ h.endAddress)
    (hok : RestoreOk h (c.addr + 16)) : Restored h (free pg (c.addr + 16) h s).1 l c r := by
  obtain ⟨hnil, hfin, hdfin⟩ := w.behind hend
  have hne := w.merged_ne hnil hfin hdfin
  obtain ⟨L, R, g⟩ := w.toIndexed.merged pg s hused
    (w.left_chunk fun hc => hok.first (by omega)) (fun hr => absurd hr hnil) fun he => absurd he hne
  have hiff := w.rightHole_iff fun hr => absurd hr hnil
  have hR : r = R := g.right.resolve_left fun ⟨d, hd, ht⟩ => hok.right (hiff.2 ⟨d, R, hd, ht⟩)
  subst hR
  obtain ⟨-, he, hhigh⟩ := g.ends.resolve_right fun h => hne h.1
  have hme : mergedEnd h (c.addr + 16) = c.fin := by
    unfold mergedEnd
    rw [if_neg hok.right, w.blockEnd_eq]
  have hfe : finalEnd h (c.addr + 16) = c.fin := (if_neg hne).trans hme
  have hsize := g.size
  have hmfin : (mergedHole h (c.addr + 16)).fin = c.fin := (mergedHole_fin (by omega)).trans hfe
  have w' := g.indexed w.toIndexed hne
  have hrightUsed : ∀ d ∈ r, d.tag = false → d.addr ≠ c.fin := by
    intro d hd ht ha
    obtain ⟨R, rfl⟩ := w.head_of_addr hd ha
    exact hok.right (hiff.2 ⟨d, R, rfl, ht⟩)
  -- the left neighbour, merged or in use
  have hleftHole : ∀ d ∈ L, d.tag = false → d.fin ≠ mergedStart h (c.addr + 16) := by
    rcases g.left with ⟨hn, rfl⟩ | ⟨d, hs, hd, rfl⟩
    · have hstart : mergedStart h (c.addr + 16) = c.addr := by
        unfold mergedStart
        rw [hn]
        rfl
      rw [hstart]
      exact w.left_used hn
    · have hstart : mergedStart h (c.addr + 16) = d.addr := by
        unfold mergedStart
        rw [hs]
        rfl
      rw [hstart]
      have w2 := w
      rw [List.append_assoc, List.singleton_append] at w2
      exact (w2.around hd).1
  have hjoin : Joined l c r L (mergedHole h (c.addr + 16)) r := by
    refine ⟨mergedHole_tag _ _, ?_, .inl ⟨rfl, hmfin, hrightUsed⟩⟩
    rw [mergedHole_addr]
    unfold mergedStart
    rcases g.left with ⟨hn, rfl⟩ | ⟨d, hs, hd, rfl⟩
    · rw [hn]
      exact .inl ⟨rfl, rfl, w.left_used hn⟩
    · rw [hs]
      exact .inr ⟨d, rfl, hd, rfl⟩
  obtain ⟨mid, hmid⟩ := g.mid c
  refine ⟨L, mergedHole h (c.addr + 16), r, hjoin, ?_, g.start, he, ?_, ?_, fun hle => ?_⟩
  · have wm := w
    rw [hmid] at wm
    have ht : Tiles (mergedStart h (c.addr + 16)) c.fin [mergedHole h (c.addr + 16)] :=
      ⟨mergedHole_addr _ _, hmfin⟩
    refine WellFormed.replace (P := mid) (Q := [mergedHole h (c.addr + 16)]) wm w' g.tilesLeft ht ?_
      g.low (hhigh _) he ?_ hleftHole hrightUsed ?_
    · have := g.tilesRight
      rwa [hme] at this
    · simp only [List.mem_singleton, forall_eq]
      exact fun _ => g.footer (w.footer c (by simp) (.inl hused)) (.inl hok.right)
    · simp only [List.mem_singleton, forall_eq]
      rw [hmfin, mergedHole_addr]
      omega
  · rw [mergedHole_addr]
    exact g.low
  · rw [hmfin]
    exact hhigh
  · have hlt := w.size_lt
    have hroom := hok.room
    rw [g.index]
    unfold mergedIndex
    rw [if_neg hok.right]
    split
    · rename_i hn
      have := hroom hn
      rw [size_insert, maxSize_insert, add64_of_lt (by omega)]
      omega
    · exact hle

/-- **`free` restores the boundary tags if and only if `RestoreOk` holds.** -/
theorem free_restores_iff (pg : KernelPages σ) (s : σ) (w : WellFormed h (l ++ c :: r))
    (hused : c.tag = true) (hend : ∀ L m R, Joined l c r L m R → m.fin ≠ h.endAddress) :
    Restored h (free pg (c.addr + 16) h s).1 l c r ↔ RestoreOk h (c.addr + 16) :=
  ⟨Restored.ok pg s w hused hend, RestoreOk.restored pg s w hused hend⟩

end

/-- Two blocks, the first of which is freed. -/
theorem free_restores_first :
    ∃ s, runList exec [.alloc 100 0, .alloc 100 0] sys0 = some s ∧
      Restored s.heap (free bumpPages (0xC0019000 + 16) s.heap s.pages).1 []
        ⟨0xC0019000, 132, true⟩ [⟨0xC0019084, 132, true⟩, ⟨0xC0019108, 93944, false⟩] := by
  have hrun : (runList exec [.alloc 100 0, .alloc 100 0] sys0).map (fun s =>
      (decide (WellFormed s.heap ([] ++ ⟨0xC0019000, 132, true⟩ ::
          [⟨0xC0019084, 132, true⟩, ⟨0xC0019108, 93944, false⟩])),
        decide (RestoreOk s.heap (0xC0019000 + 16)), s.heap.endAddress)) =
      some (true, true, 0xC0030000) := by
    decide +kernel
  obtain ⟨s, hs, h⟩ := Option.map_eq_some_iff.1 hrun
  simp only [Prod.mk.injEq, decide_eq_true_eq] at h
  obtain ⟨w, hok, hend⟩ := h
  refine ⟨s, hs, (free_restores_iff bumpPages s.pages w rfl fun L m R j => ?_).2 hok⟩
  rw [hend]
  rcases j.right with ⟨-, hfin, -⟩ | ⟨d, he, ht, -⟩
  · rw [hfin]
    decide
  · rw [← (List.cons.inj he).1] at ht
    cases ht

/-- **The footer of a merged hole points into it.** Of three blocks the second is freed and then the
first: its hole ends with the footer of the second. -/
theorem free_restores_misses :
    ∃ s l c r, Reach Init (Step bumpPages) s ∧ WellFormed s.heap (l ++ c :: r) ∧ c.tag = true ∧
      (∃ b ∈ s.live, b.p = c.addr + 16) ∧ (∀ L m R, Joined l c r L m R → m.fin ≠ s.heap.endAddress) ∧
      ¬ Restored s.heap (free bumpPages (c.addr + 16) s.heap s.pages).1 l c r := by
  have hrun : (runList exec [.alloc 100 0, .alloc 100 0, .alloc 100 0, .free 0xC0019094] sys0).map
      (fun s => (decide (WellFormed s.heap ([] ++ ⟨0xC0019000, 132, true⟩ :: [⟨0xC0019084, 132, false⟩,
          ⟨0xC0019108, 132, true⟩, ⟨0xC001918C, 93812, false⟩])),
        decide (RestoreOk s.heap (0xC0019000 + 16)), s.live, s.heap.endAddress)) =
      some (true, false, [⟨0xC0019118, 100⟩, ⟨0xC0019010, 100⟩], 0xC0030000) := by
    decide +kernel
  obtain ⟨s, hs, h⟩ := Option.map_eq_some_iff.1 hrun
  simp only [Prod.mk.injEq, decide_eq_true_eq, decide_eq_false_iff_not] at h
  obtain ⟨w, hbad, hlive, hend⟩ := h
  obtain ⟨c, hc, ha⟩ : ∃ c : Chunk, c = ⟨0xC0019000, 132, true⟩ ∧ c.addr = 0xC0019000 :=
    ⟨_, rfl, rfl⟩
  rw [← hc] at w
  rw [← ha] at hbad
  have hfin : ∀ L m R, Joined [] c [⟨0xC0019084, 132, false⟩, ⟨0xC0019108, 132, true⟩,
      ⟨0xC001918C, 93812, false⟩] L m R → m.fin ≠ s.heap.endAddress := by
    intro L m R j
    rw [hend]
    rcases j.right with ⟨-, -, hno⟩ | ⟨d, he, -, hfin⟩
    · exact absurd (by rw [hc]; rfl) (hno ⟨0xC0019084, 132, false⟩ (by simp) rfl)
    · rw [hfin, ← (List.cons.inj he).1]
      decide
  exact ⟨s, [], c, _, .of_list (fun _ _ _ => exec_step) (.start init_sys0) hs, w, by rw [hc],
    ⟨⟨0xC0019010, 100⟩, by rw [hlive]; simp, by rw [ha]⟩, hfin,
    fun res => hbad (res.ok bumpPages s.pages w (by rw [hc]) hfin)⟩

end Kheap
